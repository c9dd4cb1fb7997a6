/-!
Operators and the symbols they are written with.

Equality takes operands of any kind; the other binary operators need numbers (or, for addition, two
strings). The logical operators stand apart because they do not always evaluate their right side.
-/

namespace Scoping

/-- Arithmetic and comparison. -/
inductive BinaryOp where
  | add | sub | mul | div
  | eq | notEq | lt | ltEq | gt | gtEq
deriving DecidableEq

namespace BinaryOp

/-- The symbol of an operator, as it stands in source texts and error messages. -/
def symbol : BinaryOp → String
  | add => "+"
  | sub => "-"
  | mul => "*"
  | div => "/"
  | eq => "=="
  | notEq => "!="
  | lt => "<"
  | ltEq => "<="
  | gt => ">"
  | gtEq => ">="

def all : List BinaryOp := [add, sub, mul, div, eq, notEq, lt, ltEq, gt, gtEq]

def ofSymbol? (s : String) : Option BinaryOp := all.find? (·.symbol == s)

/-- Whether operands of any kind are accepted. -/
def isEquality : BinaryOp → Bool
  | eq | notEq => true
  | _ => false

def inspect : BinaryOp → String
  | add => "Add"
  | sub => "Sub"
  | mul => "Mul"
  | div => "Div"
  | eq => "Eq"
  | notEq => "NotEq"
  | lt => "Lt"
  | ltEq => "LtEq"
  | gt => "Gt"
  | gtEq => "GtEq"

end BinaryOp

/-- Operators in front of one operand. -/
inductive UnaryOp where
  | neg | not
deriving DecidableEq

namespace UnaryOp

def symbol : UnaryOp → String
  | neg => "-"
  | not => "!"

def all : List UnaryOp := [neg, not]

def ofSymbol? (s : String) : Option UnaryOp := all.find? (·.symbol == s)

def inspect : UnaryOp → String
  | neg => "Neg"
  | not => "Not"

end UnaryOp

/-- Operators that evaluate their right side only if the left one does not decide. -/
inductive LogicalOp where
  | and | or
deriving DecidableEq

namespace LogicalOp

def symbol : LogicalOp → String
  | and => "and"
  | or => "or"

def all : List LogicalOp := [and, or]

def ofSymbol? (s : String) : Option LogicalOp := all.find? (·.symbol == s)

def inspect : LogicalOp → String
  | and => "And"
  | or => "Or"

/-- Whether a left operand of the given truth decides the result. -/
def decidedBy : LogicalOp → Bool → Bool
  | and, left => !left
  | or, left => left

end LogicalOp

end Scoping
