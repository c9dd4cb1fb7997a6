import Scoping.Syntax.ReversePolish

/-!
Values of a running program.

Strings are interned, so that equality of strings is equality of symbols. A number is kept as its 64
bits, as in a literal: a not-a-number has a sign and a payload, and both stay with it wherever it is
stored or handed on. Equality of values is the language's own: numbers compare as doubles do, so
that zero equals negative zero and not-a-number differs from itself.
-/

namespace Scoping

inductive Value where
  | nil
  | bool (b : Bool)
  | number (bits : UInt64)
  | str (s : Symbol)
deriving DecidableEq

namespace Value

def ofLiteral : Literal Symbol → Value
  | .nil => nil
  | .bool b => bool b
  | .number bits => number bits
  | .str s => str s

/-- The value of a literal whose string, if it is one, joins the symbol table. -/
def intern (l : Literal String) : StateM SymbolTable Value :=
  ofLiteral <$> l.traverse SymbolTable.internM

/-- Everything counts as true except `nil` and `false`. -/
def isTruthy : Value → Bool
  | nil | bool false => false
  | _ => true

def typeName : Value → String
  | nil => "nil"
  | bool _ => "bool"
  | number _ => "number"
  | str _ => "string"

def number? : Value → Option UInt64
  | number bits => some bits
  | _ => none

/-- The language's equality: values of different types differ, numbers compare as doubles. -/
def isEqual : Value → Value → Bool
  | nil, nil => true
  | bool a, bool b => a == b
  | number a, number b => Float.ofBits a == Float.ofBits b
  | str a, str b => a == b
  | _, _ => false

/-- The text of a value; strings are written without quotes. -/
def render (symbols : SymbolTable) : Value → Except Fault String
  | nil => pure "nil"
  | bool b => pure (if b then "true" else "false")
  | number bits => pure (doubleText bits)
  | str s => symbols.text s

end Value

end Scoping
