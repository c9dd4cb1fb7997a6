import Scoping.Source

/-!
Faults: a caller broke its side of the bargain.

An error is something that the program being run did; a fault is a position or handle that no
correct caller would have handed over. Both end a computation, so `Interruption` has the two cases
side by side, and each fault keeps what its text needs.

Running out of numbers is not among the faults. Frames, symbols, expressions, statements and the
entries of block bodies are numbered with 32 bits, and asking for one more when all are taken stops
the process. Here there always is another number: for a frame (`FrameTree.extend`), for a text
(`SymbolTable.intern` and `SymbolTable.internOwned`), for a node (`Program.addExpr` and
`Program.addStmt`) and for the statements of a body (`Program.addBody`). What is said of these
functions, and of all that uses them, is meant for fewer than 2 ^ 32 entries of each kind. Only
`SymbolTable.intern?` looks at the bound, since its caller wants to hear of a full table.
-/

namespace Scoping

/-- The position of a frame in its tree. -/
abbrev FrameId := Nat

def FrameId.root : FrameId := 0

def FrameId.inspect (f : FrameId) : String := "FrameId(" ++ toString f ++ ")"

/-- The ways in which a caller can break its contract. -/
inductive Fault where
  | outOfRange (size index : Nat)
  /-- A slice that starts past the end. -/
  | sliceStart (start size : Nat)
  /-- A slice that starts inside and ends past the end. -/
  | sliceStop (stop size : Nat)
  | deadParent (frame : FrameId) (slots : Nat)
  | deadFrame (frame : FrameId)
  | pastRoot (distance : Nat) (frame : FrameId) (hops : Nat)
  /-- A distance that leads to a frame without the name. -/
  | notDeclared (who : Occurrence Symbol) (frame : FrameId) (distance : Nat)
  /-- A chain of references that never ends. -/
  | endless
deriving DecidableEq

def Fault.message : Fault → String
  | .outOfRange size index =>
    "index out of bounds: the len is " ++ toString size ++ " but the index is " ++ toString index
  | .sliceStart start size =>
    "range start index " ++ toString start ++ " out of range for slice of length " ++ toString size
  | .sliceStop stop size =>
    "range end index " ++ toString stop ++ " out of range for slice of length " ++ toString size
  | .deadParent frame slots =>
    "parent " ++ frame.inspect ++ " is not a live frame (" ++ toString slots ++ " frames)"
  | .deadFrame frame => "cannot enter dead frame " ++ frame.inspect
  | .pastRoot distance frame hops =>
    "scope resolution mismatch: distance " ++ toString distance ++ " from " ++ frame.inspect ++
      " passes the root after " ++ toString hops ++ " hops"
  | .notDeclared who frame distance =>
    "scope resolution mismatch: " ++ who.name.inspect ++ " at " ++ who.span.render ++
      " is not declared in " ++ frame.inspect ++ " (distance " ++ toString distance ++ ")"
  | .endless => "the references form a cycle"

/-- Why a computation ended without a result. -/
inductive Interruption (E : Type) where
  /-- The program being run did something wrong. -/
  | error (e : E)
  /-- The caller did. -/
  | fault (f : Fault)
deriving DecidableEq

/-- A fault as the end of a computation that could also end in an error. -/
@[inline] def Interruption.lift {E α : Type} : Except Fault α → Except (Interruption E) α
  | .ok a => .ok a
  | .error f => .error (.fault f)

/-- What comes out of two computations, one after the other, comes out of the second. -/
theorem bind_eq_ok {E A B : Type} {m : Except E A} {k : A → Except E B} {b : B}
    (h : (m >>= k) = .ok b) : ∃ a, m = .ok a ∧ k a = .ok b := by
  cases m with
  | error e => cases h
  | ok a => exact ⟨a, rfl, h⟩

/-- The entry at a position, or the fault of a position past the end. -/
@[inline] def slot {α : Type} (entries : Array α) (index : Nat) : Except Fault α :=
  match entries[index]? with
  | some a => .ok a
  | none => .error (.outOfRange entries.size index)

section slot

variable {α : Type} {entries : Array α} {index : Nat}

theorem slot_eq_ok_iff {a : α} : slot entries index = .ok a ↔ entries[index]? = some a := by
  unfold slot
  cases entries[index]? <;> simp

theorem slot_of_lt (h : index < entries.size) : slot entries index = .ok entries[index] :=
  slot_eq_ok_iff.2 (Array.getElem?_eq_getElem h)

theorem slot_of_size_le (h : entries.size ≤ index) :
    slot entries index = .error (.outOfRange entries.size index) := by
  unfold slot
  rw [Array.getElem?_eq_none h]

end slot

end Scoping
