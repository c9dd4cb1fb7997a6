import Scoping.Fault
import Std.Data.TreeMap

/-!
The symbol table: texts and their symbols, in both directions.

Texts are numbered in the order in which they first appear, beginning with the empty text; the
table never forgets one. `texts` answers "which text has this number", `symbols` answers "which
number has this text", and every operation keeps the two inverse to each other.
-/

namespace Scoping

structure SymbolTable where
  texts : Array String
  symbols : Std.TreeMap String Symbol

def Symbol.maxIndex : Nat := 4294967295

/-- A table with `count` texts, which cannot take another one. -/
structure CapacityError where
  count : Nat
deriving DecidableEq

def CapacityError.message (e : CapacityError) : String :=
  "interner exceeded capacity: " ++ toString e.count ++ " strings, max is " ++
    toString Symbol.maxIndex

namespace SymbolTable

/-- The table that holds the empty text alone. -/
def new : SymbolTable := ⟨#[""], (∅ : Std.TreeMap String Symbol).insert "" Symbol.empty⟩

/-- The number of texts, the empty one included. -/
def size (t : SymbolTable) : Nat := t.texts.size

/-- A table counts as empty while it holds nothing but the empty text. -/
def isEmpty (t : SymbolTable) : Bool := t.size ≤ 1

def symbol? (t : SymbolTable) (text : String) : Option Symbol := t.symbols[text]?

/-- The text of a symbol; a symbol of some other table may have none here. -/
def text (t : SymbolTable) (s : Symbol) : Except Fault String := slot t.texts s.index

/-- The table with a new text at its end, and the new text's symbol. -/
def append (t : SymbolTable) (text : String) : Symbol × SymbolTable :=
  (⟨t.size⟩, ⟨t.texts.push text, t.symbols.insert text ⟨t.size⟩⟩)

/-- The symbol of a text, which joins the table if it is new; there always is room for it (see
`Scoping.Fault`). -/
def intern (t : SymbolTable) (text : String) : Symbol × SymbolTable :=
  match t.symbol? text with
  | some s => (s, t)
  | none => t.append text

/-- As `intern`, for a text that the table may keep without copying it. -/
def internOwned (t : SymbolTable) (text : String) : Symbol × SymbolTable := t.intern text

/-- As `intern`, but a new text is refused when its number would pass `Symbol.maxIndex`. -/
def intern? (t : SymbolTable) (text : String) : Except CapacityError (Symbol × SymbolTable) :=
  match t.symbol? text with
  | some s => .ok (s, t)
  | none => if Symbol.maxIndex < t.size then .error ⟨t.size⟩ else .ok (t.append text)

/-- A new text reads back. -/
theorem text_append_self (t : SymbolTable) (text : String) :
    (t.append text).2.text (t.append text).1 = .ok text :=
  slot_eq_ok_iff.2 Array.getElem?_push_size

/-- A new text leaves the others as they were. -/
theorem text_append_old {t : SymbolTable} {s : Symbol} (text : String) (h : s.index < t.size) :
    (t.append text).2.text s = t.text s := by
  have old : t.text s = .ok t.texts[s.index] := slot_of_lt h
  rw [old]
  exact slot_eq_ok_iff.2 (by
    rw [append, Array.getElem?_push_lt h])

/-- Interning as a step of a computation that threads a table. -/
def internM (text : String) : StateM SymbolTable Symbol :=
  modifyGet (·.intern text)

end SymbolTable

inductive TableAction where
  | intern (text : String)
  /-- The same for a text that is handed over for good. -/
  | internOwned (text : String)
  /-- The same for a caller that wants to hear of a full table. -/
  | tryIntern (text : String)
  | text (s : Symbol)
deriving DecidableEq

inductive TableReply where
  | symbol (s : Symbol)
  | tried (result : Except CapacityError Symbol)
  | text (text : String)

/-- One question to a table: the answer, and the table afterwards. -/
def SymbolTable.step (t : SymbolTable) : TableAction → Except Fault TableReply × SymbolTable
  | .intern text =>
    let (s, t) := t.intern text
    (.ok (.symbol s), t)
  | .internOwned text =>
    let (s, t) := t.internOwned text
    (.ok (.symbol s), t)
  | .tryIntern text =>
    match t.intern? text with
    | .ok (s, t) => (.ok (.tried (.ok s)), t)
    | .error e => (.ok (.tried (.error e)), t)
  | .text s => (.text <$> t.text s, t)

end Scoping
