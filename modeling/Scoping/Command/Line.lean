import Scoping.Command.Sample

/-!
The command line as a function: arguments in, exit code and two texts out.

Only the first argument decides what happens, with one more for the command that explains a code.
Help and complaints go to the second text, results to the first.
-/

namespace Scoping.Command

structure Outcome where
  code : UInt32
  stdout : String
  stderr : String
deriving DecidableEq

def lines (ls : List String) : String := String.join (ls.map (· ++ "\n"))

/-- What the program is called and can do. -/
def usage : List String :=
  ["Tern scope chain driver",
   "",
   "Usage: ternc <command>",
   "",
   "Commands:",
   "  rpn                 Print (1 + 2) * (1 + 2) in postfix form",
   "  scopes              Walk a global scope and a block, reporting each read",
   "  --explain <code>    Explain an error code (e.g., E6021)",
   "  help                Show this help message",
   "  version             Show version information",
   "",
   "Set RUST_LOG=tern_eval=trace to see scope pushes, pops and lookups."]

def printed (ls : List String) : Outcome := ⟨0, lines ls, ""⟩

def refused (ls : List String) : Outcome := ⟨1, "", lines ls⟩

def explain (code : String) : Outcome :=
  match Code.parse? code with
  | some c => printed [c.explanation]
  | none =>
    refused ["Unknown error code: " ++ code, "",
      "Known codes: " ++ ", ".intercalate (Code.all.map Code.text)]

def printProduct : Outcome :=
  match Sample.productText with
  | .ok text => printed [text]
  | .error f => refused [f.message]

def run : List String → Outcome
  | [] => refused usage
  | "rpn" :: _ => printProduct
  | "scopes" :: _ => printed Sample.transcript
  | "--explain" :: [] => refused ["Usage: ternc --explain <code>"]
  | "--explain" :: code :: _ => explain code
  | command :: _ =>
    if command ∈ ["help", "--help", "-h"] then ⟨0, "", lines usage⟩
    else if command ∈ ["version", "--version", "-V"] then printed ["ternc 0.1.0-alpha.1"]
    else refused (["Unknown command: " ++ command, ""] ++ usage)

end Scoping.Command
