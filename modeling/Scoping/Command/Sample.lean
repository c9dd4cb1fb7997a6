import Scoping.Run.Step

/-!
Two sample programs for the command line.

The first is a product of two sums in parentheses, which is printed in reverse Polish form. The
second declares a name outside a block and one inside it and reads names before and after they are
assigned; a transcript tells what each step came to.
-/

namespace Scoping

def Literal.ofFloat {N : Type} (x : Float) : Literal N := .number x.toBits

namespace Sample

def unplaced (form : ExprForm String) : Entry String := .expr ⟨form, .nowhere⟩

/-- The sum of one and two in parentheses, whose first number is at a given position. -/
def groupedSum (first : Nat) : List (Entry String) :=
  [unplaced (.literal (.ofFloat 1.0)),
   unplaced (.literal (.ofFloat 2.0)),
   unplaced (.binary ⟨first⟩ .add ⟨first + 1⟩),
   unplaced (.group ⟨first + 2⟩)]

def product : Draft :=
  .ofEntries (groupedSum 0 ++ groupedSum 4 ++ [unplaced (.binary ⟨3⟩ .mul ⟨7⟩)])

def productText : Except Fault String := product.program.reversePolish product.symbols ⟨8⟩

/-- The text of the second program; the spans below are places in it. -/
def source : String := "var x = 1; \x7b var y; y; y = 5; y; x; z; \x7d"

/-- A name of one letter at a place in the source. -/
def letter (name : String) (start : UInt32) : Occurrence String := ⟨name, start, start + 1⟩

def reference (name : String) (start : UInt32) : Entry String :=
  .expr ⟨.reference (letter name start), start, start + 1⟩

def nodes : List (Entry String) :=
  [.expr ⟨.literal (.ofFloat 1.0), 8, 9⟩,
   .stmt ⟨.declare (letter "x" 4) (some ⟨0⟩), 0, 10⟩,
   .stmt ⟨.declare (letter "y" 17) none, 13, 19⟩,
   reference "y" 20,
   reference "y" 30,
   reference "x" 33,
   reference "z" 36,
   .expr ⟨.literal (.ofFloat 5.0), 27, 28⟩,
   .expr ⟨.assign (letter "y" 23) ⟨5⟩, 23, 28⟩]

/-- The steps inside the block, with their texts, in the order of the source. -/
def blockSteps : List (String × ExprId) :=
  [("y", ⟨1⟩), ("y = 5", ⟨6⟩), ("y", ⟨2⟩), ("x", ⟨3⟩), ("z", ⟨4⟩)]

/-- What a step came to: its value or the report on its error. -/
def describe (x : Script) (step : String × ExprId) : Run String := fun s =>
  let (result, s) := x.evaluate step.2 s
  match result with
  | .ok value =>
    Run.ofFault ((fun text => step.1 ++ " => " ++ text) <$> value.render s.symbols) s
  | .error (.error e) => (.ok (step.1 ++ " => " ++ e.report.render), s)
  | .error (.fault f) => (.error (.fault f), s)

/-- Runs the second program step by step; a step that fails does not stop the others. -/
def walk (x : Script) : Run (List String) := do
  x.execute ⟨0⟩
  let lines ← Run.inScope do
    x.execute ⟨1⟩
    blockSteps.mapM (describe x)
  let depth := (← Run.session).context.status.depth
  return lines ++ ["scopes after block: " ++ toString depth]

/-- The source of the second program and what its steps came to, line by line. -/
def transcript : List String :=
  let draft := Draft.ofEntries nodes
  let x : Script := { program := draft.program, distances := .empty, mode := .byDistance }
  let lines := match (walk x (.new draft.symbols)).1 with
    | .ok lines => lines
    | .error (.error e) => [e.report.render]
    | .error (.fault f) => [f.message]
  ("source: " ++ source) :: lines

end Sample

end Scoping
