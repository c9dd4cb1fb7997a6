/-!
Places and names in a source text.

A span is a half-open range of byte offsets, each of 32 bits; `Span.ofRange` is the only way from
unbounded offsets to a span, and says which end did not fit. An occurrence is a name together with
the span it was written at. Names are a type parameter throughout the syntax: text as it was
written, or symbols once a table has numbered it.

Equality and order of symbols are those of their numbers, so that scopes can be keyed by symbols
without looking at any text.
-/

namespace Scoping

/-- A half-open range of byte offsets into the source text. -/
structure Span where
  start : UInt32
  stop : UInt32
deriving DecidableEq

namespace Span

/-- The span of nodes that were not read from any text. -/
def nowhere : Span := ⟨0, 0⟩

/-- A span is written as its two ends with two dots between them. -/
def render (s : Span) : String :=
  toString s.start.toNat ++ ".." ++ toString s.stop.toNat

def maxOffset : Nat := 4294967295

end Span

/-- Which end of a byte range does not fit into a span. -/
inductive SpanError where
  | startTooLarge (offset : Nat)
  | stopTooLarge (offset : Nat)
deriving DecidableEq

def SpanError.message : SpanError → String
  | .startTooLarge offset =>
    "span start " ++ toString offset ++ " exceeds u32::MAX (" ++ toString Span.maxOffset ++ ")"
  | .stopTooLarge offset =>
    "span end " ++ toString offset ++ " exceeds u32::MAX (" ++ toString Span.maxOffset ++ ")"

/-- The span of a byte range; the start is looked at first. -/
def Span.ofRange (start stop : Nat) : Except SpanError Span :=
  if Span.maxOffset < start then .error (.startTooLarge start)
  else if Span.maxOffset < stop then .error (.stopTooLarge stop)
  else .ok ⟨start.toUInt32, stop.toUInt32⟩

/-- One occurrence of a name in the source. The span is only read when an access fails. -/
structure Occurrence (N : Type) where
  name : N
  span : Span
deriving DecidableEq

namespace Occurrence

variable {N M : Type}

/-- An occurrence that no text stands behind. -/
def synthetic (name : N) : Occurrence N := ⟨name, .nowhere⟩

/-- The same place with the name replaced by the result of `f`. -/
def traverse {m : Type → Type} [Monad m] (f : N → m M) (who : Occurrence N) :
    m (Occurrence M) := do
  return ⟨← f who.name, who.span⟩

end Occurrence

/-- The number that stands for an interned text. -/
structure Symbol where
  index : Nat
deriving DecidableEq

namespace Symbol

/-- The symbol of the empty text, which every table holds from the start. -/
def empty : Symbol := ⟨0⟩

instance : Ord Symbol := ⟨fun a b => compare a.index b.index⟩

def inspect (s : Symbol) : String := "Name(" ++ toString s.index ++ ")"

end Symbol

end Scoping
