import Scoping.Syntax.Node

/-!
Structural texts of nodes, for looking at a stored program.

A node is written as its form with its parts by position; names are written as symbols, numbers as
the decimal value of their bits.
-/

namespace Scoping

/-- A form with named parts: `Form { part: text, part: text }`. -/
def inspectRecord (form : String) (parts : List (String × String)) : String :=
  form ++ " \x7b " ++ ", ".intercalate (parts.map fun part => part.1 ++ ": " ++ part.2) ++ " \x7d"

/-- A form with one unnamed part: `Form(text)`. -/
def inspectTuple (form part : String) : String := form ++ "(" ++ part ++ ")"

def ExprId.inspect (id : ExprId) : String := inspectTuple "ExprId" (toString id.index)

def StmtId.inspect (id : StmtId) : String := inspectTuple "StmtId" (toString id.index)

/-- The structural text of a run: where it starts and how long it is. -/
def StmtRange.inspect (r : StmtRange) : String :=
  inspectTuple "StmtRange" (toString r.start ++ "..+" ++ toString r.len)

def Occurrence.inspect (who : Occurrence Symbol) : String :=
  inspectRecord "Ident" [("name", who.name.inspect), ("span", who.span.render)]

def Literal.inspect : Literal Symbol → String
  | .nil => "Nil"
  | .bool b => inspectTuple "Bool" (if b then "true" else "false")
  | .number bits => inspectTuple "Number" (toString bits.toNat)
  | .str s => inspectTuple "Str" s.inspect

def ExprForm.inspect : ExprForm Symbol → String
  | .literal value => inspectTuple "Literal" value.inspect
  | .reference who => inspectTuple "Variable" who.inspect
  | .assign target value =>
    inspectRecord "Assign" [("target", target.inspect), ("value", value.inspect)]
  | .binary left op right =>
    inspectRecord "Binary" [("left", left.inspect), ("op", op.inspect), ("right", right.inspect)]
  | .unary op operand => inspectRecord "Unary" [("op", op.inspect), ("operand", operand.inspect)]
  | .logical left op right =>
    inspectRecord "Logical" [("left", left.inspect), ("op", op.inspect), ("right", right.inspect)]
  | .group inner => inspectTuple "Grouping" inner.inspect

def Expr.inspect (e : Expr Symbol) : String := e.form.inspect ++ " @ " ++ e.span.render

def StmtForm.inspect : StmtForm Symbol → String
  | .expression e => inspectTuple "Expression" e.inspect
  | .declare name init =>
    let init := match init with
      | none => "None"
      | some e => inspectTuple "Some" e.inspect
    inspectRecord "Var" [("name", name.inspect), ("init", init)]
  | .block body => inspectTuple "Block" body.inspect

end Scoping
