import Scoping.Report
import Scoping.Value.Basic

/-!
What operators do to values.

Equality takes any two values. Addition adds two numbers or joins two strings, whose result is
interned. All other binary operators need two numbers.

Arithmetic is that of doubles. Which not-a-number comes out of it is not fixed by its rules; here it
is the one that `Float.toBits` writes for all of them. Negation is no arithmetic: it turns the sign
and keeps the other bits, those of a not-a-number as well.
-/

namespace Scoping

namespace BinaryOp

def onDoubles (a b : Float) : BinaryOp → Value
  | add => .number (a + b).toBits
  | sub => .number (a - b).toBits
  | mul => .number (a * b).toBits
  | div => .number (a / b).toBits
  | eq => .bool (a == b)
  | notEq => .bool (a != b)
  | lt => .bool (a < b)
  | ltEq => .bool (a ≤ b)
  | gt => .bool (a > b)
  | gtEq => .bool (a ≥ b)

/-- The result for two numbers that are given by their bits. -/
def onNumbers (a b : UInt64) (op : BinaryOp) : Value :=
  op.onDoubles (Float.ofBits a) (Float.ofBits b)

/-- What an operator that is not equality wants its operands to be. -/
def operands : BinaryOp → String
  | add => "two numbers or two strings"
  | _ => "numbers"

/-- The symbol of the text of `a` followed by the text of `b`. -/
def join (symbols : SymbolTable) (a b : Symbol) : Except Fault (Symbol × SymbolTable) := do
  let left ← symbols.text a
  let right ← symbols.text b
  return symbols.internOwned (left ++ right)

def apply (symbols : SymbolTable) :
    BinaryOp → Value → Value → Except (Interruption RuntimeError) (Value × SymbolTable)
  | eq, left, right => .ok (.bool (left.isEqual right), symbols)
  | notEq, left, right => .ok (.bool (!left.isEqual right), symbols)
  | add, .str a, .str b => do
    let (joined, symbols) ← Interruption.lift (join symbols a b)
    return (.str joined, symbols)
  | op, .number a, .number b => .ok (op.onNumbers a b, symbols)
  | op, _, _ => .error (.error (.ofCause (.operand op.symbol op.operands)))

end BinaryOp

namespace UnaryOp

/-- The bit that holds the sign of a double. -/
def signBit : UInt64 := 0x8000000000000000

/-- The result of a unary operator. Negation needs a number; `not` takes any value. -/
def apply : UnaryOp → Value → Except RuntimeError Value
  | neg, .number bits => .ok (.number (bits ^^^ signBit))
  | neg, _ => .error (.ofCause (.operand neg.symbol "a number"))
  | not, value => .ok (.bool (!value.isTruthy))

end UnaryOp

end Scoping
