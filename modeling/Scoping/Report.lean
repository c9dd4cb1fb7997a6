import Scoping.Frame.Access
import Scoping.Symbol.Table

/-!
Run-time errors: what can go wrong in a program that is being run, where, and how a reader is told.

A code is the letter `E` with four digits, of which the first names the phase; only evaluation
reports errors, so all of them begin with a six. Codes are read without regard to case. A report is
printed as one line with its code and message, one with the place it points at, if it points at one,
and one with advice, if there is any.

A cause is data, and its wording, code and advice are functions of it. An error is made from its
cause and carries the wording along. The place is filled in once, by whoever knows it first, and
never replaced.
-/

namespace Scoping

/-! ## Codes -/

/-- The kinds of run-time errors that have a code. -/
inductive Code where
  | wrongOperand
  | undeclared
  | unassigned
deriving DecidableEq

namespace Code

def all : List Code := [wrongOperand, undeclared, unassigned]

def text : Code → String
  | wrongOperand => "E6010"
  | undeclared => "E6020"
  | unassigned => "E6021"

def description : Code → String
  | wrongOperand => "an operator was applied to a value of the wrong type"
  | undeclared => "a variable was used that is not declared in any enclosing scope"
  | unassigned =>
    "a variable was read after its declaration but before any value was assigned to it"

def position (c : Code) : Nat := all.idxOf c

/-- Reads a code. The letters and digits of codes are ASCII, and no other character has one of them
as its capital, so that raising the case of ASCII letters is enough. -/
def parse? (s : String) : Option Code :=
  all.find? fun c => c.text == s.map Char.toUpper

def explanation (c : Code) : String := c.text ++ ": " ++ c.description

end Code

/-! ## Reports -/

/-- A place in the source with a note on what is wrong there. -/
structure Label where
  span : Span
  message : String
deriving DecidableEq

/-- A report on a run-time error. -/
structure Report where
  code : Code
  message : String
  label : Option Label
  help : Option String
deriving DecidableEq

namespace Report

def ofMessage (code : Code) (message : String) : Report := ⟨code, message, none, none⟩

/-- The report pointing at a span, in place of what it pointed at before. -/
def withLabel (r : Report) (span : Span) (message : String) : Report :=
  { r with label := some ⟨span, message⟩ }

/-- The report with advice, in place of the advice it gave before. -/
def withHelp (r : Report) (help : String) : Report := { r with help := some help }

def labelLine : Option Label → String
  | none => ""
  | some label => "\n  --> " ++ label.span.render ++ ": " ++ label.message

def helpLine : Option String → String
  | none => ""
  | some help => "\n  = help: " ++ help

def render (r : Report) : String :=
  "error [" ++ r.code.text ++ "]: " ++ r.message ++ labelLine r.label ++ helpLine r.help

end Report

/-! ## Errors -/

/-- What a program did wrong. -/
inductive Cause where
  /-- It used a name that no scope declares. -/
  | undeclared (name : String)
  /-- It read a name before the first assignment. -/
  | unassigned (name : String)
  /-- It applied an operator to a value of the wrong type. -/
  | operand (symbol expected : String)
deriving DecidableEq

namespace Cause

def message : Cause → String
  | undeclared name => "undefined variable: " ++ name
  | unassigned name => "variable read before assignment: " ++ name
  | operand symbol expected => "operand of `" ++ symbol ++ "` must be " ++ expected

def code : Cause → Code
  | undeclared _ => .undeclared
  | unassigned _ => .unassigned
  | operand _ _ => .wrongOperand

def label : Cause → String
  | undeclared _ => "not found in this scope"
  | unassigned _ => "read before any value was assigned"
  | operand _ _ => "wrong operand type"

/-- Advice, where there is an obvious one. -/
def help : Cause → Option String
  | undeclared name =>
    some ("declare `" ++ name ++ "` with `var " ++ name ++ " = ...` before using it")
  | unassigned name => some ("assign a value to `" ++ name ++ "` before reading it")
  | operand _ _ => none

end Cause

/-- A run-time error: its cause, the wording for a reader, and its place once that is known. -/
structure RuntimeError where
  cause : Cause
  message : String
  span : Option Span
deriving DecidableEq

namespace RuntimeError

def ofCause (cause : Cause) : RuntimeError := ⟨cause, cause.message, none⟩

/-- Fills in the place, unless it is known already. -/
def located (e : RuntimeError) (span : Span) : RuntimeError :=
  { e with span := e.span <|> some span }

def report (e : RuntimeError) : Report :=
  let r := Report.ofMessage e.cause.code e.message
  let r := match e.span with
    | some span => r.withLabel span e.cause.label
    | none => r
  match e.cause.help with
  | some help => r.withHelp help
  | none => r

end RuntimeError

def AccessProblem.cause (name : String) : AccessProblem → Cause
  | undeclared => .undeclared name
  | unassigned => .unassigned name

/-- A failed access as a run-time error: the name is spelled out, and the place is that of the
occurrence. -/
def AccessError.spell (symbols : SymbolTable) (e : AccessError) : Except Fault RuntimeError := do
  let name ← symbols.text e.who.name
  return (RuntimeError.ofCause (e.problem.cause name)).located e.who.span

end Scoping
