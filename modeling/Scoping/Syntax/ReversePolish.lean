import Scoping.Decimal.Text
import Scoping.Symbol.Table
import Scoping.Syntax.Program

/-!
Expressions in reverse Polish form.

Operands come first, then the operator, all separated by single spaces. Parentheses disappear,
because the order of operands and operators already says what belongs together. A unary operator is
glued to the text of its operand.
-/

namespace Scoping

/-- The text of a literal; strings are written without quotes. -/
def Literal.render (symbols : SymbolTable) : Literal Symbol → Except Fault String
  | .nil => pure "nil"
  | .bool b => pure (if b then "true" else "false")
  | .number bits => pure (doubleText bits)
  | .str s => symbols.text s

namespace Program

/-- The text of an expression that is at most `fuel` nodes deep. -/
def reversePolishWithin (p : Program Symbol) (symbols : SymbolTable) :
    Nat → ExprId → Except Fault String
  | 0, _ => .error .endless
  | fuel + 1, id => do
    match (← p.expr id).form with
    | .literal value => value.render symbols
    | .reference who => symbols.text who.name
    | .assign target value =>
      let name ← symbols.text target.name
      let value ← p.reversePolishWithin symbols fuel value
      return name ++ " " ++ value ++ " ="
    | .binary left op right =>
      let left ← p.reversePolishWithin symbols fuel left
      let right ← p.reversePolishWithin symbols fuel right
      return left ++ " " ++ right ++ " " ++ op.symbol
    | .logical left op right =>
      let left ← p.reversePolishWithin symbols fuel left
      let right ← p.reversePolishWithin symbols fuel right
      return left ++ " " ++ right ++ " " ++ op.symbol
    | .unary op operand =>
      let operand ← p.reversePolishWithin symbols fuel operand
      return operand ++ op.symbol
    | .group inner => p.reversePolishWithin symbols fuel inner

/-- The text of an expression. A tree without cycles is never deeper than the program has
expressions, with one more step for a reference that leads nowhere. -/
def reversePolish (p : Program Symbol) (symbols : SymbolTable) (id : ExprId) :
    Except Fault String :=
  p.reversePolishWithin symbols (p.exprs.size + 1) id

end Program

end Scoping
