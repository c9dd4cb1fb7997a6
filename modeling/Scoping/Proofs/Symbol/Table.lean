import Scoping.Symbol.Table

/-!
# Symbol tables that can be reached

In a well-formed table the two directions are inverse to each other (`WF`): the number of a text is
the one symbol that has the text. Interning keeps a table well formed and only ever adds at its end
(`Grows`), so that a symbol that is known once is known for ever, with the same text.
-/

namespace Scoping.SymbolTable

variable {t u v : SymbolTable}

/-! ## Known symbols -/

/-- Whether a symbol is one of the table's. -/
def Knows (t : SymbolTable) (s : Symbol) : Prop := s.index < t.size

theorem text_eq_ok_iff {s : Symbol} {text : String} :
    t.text s = .ok text ↔ t.texts[s.index]? = some text :=
  slot_eq_ok_iff

theorem knows_iff {s : Symbol} : t.Knows s ↔ ∃ text, t.text s = .ok text := by
  constructor
  · exact fun h => ⟨_, slot_of_lt h⟩
  · rintro ⟨text, htext⟩
    exact (Array.getElem?_eq_some_iff.1 (text_eq_ok_iff.1 htext)).1

/-- A table that came from another one by adding texts at the end. -/
def Grows (t u : SymbolTable) : Prop := t.texts.toList <+: u.texts.toList

namespace Grows

theorem refl (t : SymbolTable) : Grows t t := List.prefix_refl _

theorem trans (h : Grows t u) (h' : Grows u v) : Grows t v := List.IsPrefix.trans h h'

theorem text_eq (h : Grows t u) {s : Symbol} {text : String} (hs : t.text s = .ok text) :
    u.text s = .ok text := by
  obtain ⟨added, hadded⟩ := h
  rw [text_eq_ok_iff, ← Array.getElem?_toList] at hs ⊢
  rw [← hadded, List.getElem?_append_left (List.getElem?_eq_some_iff.1 hs).1]
  exact hs

theorem knows (h : Grows t u) {s : Symbol} (hs : t.Knows s) : u.Knows s := by
  obtain ⟨text, htext⟩ := knows_iff.1 hs
  exact knows_iff.2 ⟨text, h.text_eq htext⟩

end Grows

theorem grows_append (t : SymbolTable) (text : String) : Grows t (t.append text).2 := by
  refine ⟨[text], ?_⟩
  rw [append, Array.toList_push]

/-! ## Well-formed tables -/

structure WF (t : SymbolTable) : Prop where
  symbol?_iff : ∀ {text s}, t.symbol? text = some s ↔ t.text s = .ok text

theorem wf_new : new.WF where
  symbol?_iff {text s} := by
    rw [symbol?, new, Std.TreeMap.getElem?_insert, text_eq_ok_iff, Std.TreeMap.getElem?_emptyc]
    obtain ⟨i⟩ := s
    constructor
    · intro h
      split at h
      · next heq =>
        cases h
        rw [Std.LawfulEqCmp.eq_of_compare heq]
        rfl
      · cases h
    · intro h
      have hi : i < 1 := (Array.getElem?_eq_some_iff.1 h).1
      obtain rfl : i = 0 := Nat.lt_one_iff.1 hi
      cases h
      exact if_pos Std.ReflCmp.compare_self

theorem symbol?_append (t : SymbolTable) (new text : String) :
    (t.append new).2.symbol? text = if new = text then some ⟨t.size⟩ else t.symbol? text := by
  rw [append, symbol?, Std.TreeMap.getElem?_insert, symbol?]
  by_cases h : new = text
  · rw [if_pos h, if_pos (h ▸ Std.ReflCmp.compare_self)]
  · rw [if_neg h, if_neg fun heq => h (Std.LawfulEqCmp.eq_of_compare heq)]

/-- A new text gets the number that was free; the others keep theirs. -/
theorem WF.append (wf : t.WF) {new : String} (hnew : t.symbol? new = none) :
    (t.append new).2.WF where
  symbol?_iff {text s} := by
    rw [symbol?_append]
    by_cases hs : s.index < t.size
    · have hold := text_append_old new hs
      rw [hold]
      by_cases htext : new = text
      · rw [if_pos htext, ← htext, ← wf.symbol?_iff, hnew]
        constructor
        · intro h
          cases h
          exact absurd hs (Nat.lt_irrefl _)
        · nofun
      · rw [if_neg htext, wf.symbol?_iff]
    · have hunknown : t.symbol? text ≠ some s := fun h =>
        hs (knows_iff.2 ⟨text, wf.symbol?_iff.1 h⟩)
      have hself := text_append_self t new
      constructor
      · intro h
        by_cases htext : new = text
        · rw [if_pos htext] at h
          cases h
          rw [← htext]
          exact hself
        · rw [if_neg htext] at h
          exact absurd h hunknown
      · intro h
        have hlt : s.index < (t.append new).2.size := knows_iff.2 ⟨text, h⟩
        rw [SymbolTable.append, size, Array.size_push] at hlt
        obtain ⟨i⟩ := s
        obtain rfl : i = t.size := Nat.le_antisymm (Nat.le_of_lt_succ hlt) (Nat.not_lt.1 hs)
        rw [if_pos (Except.ok.inj (hself.symm.trans h))]

/-- Interning a text keeps a table well formed, adds at its end if anything, and answers the symbol
that has the text. -/
theorem WF.intern (wf : t.WF) (text : String) :
    (t.intern text).2.WF ∧ Grows t (t.intern text).2 ∧
      (t.intern text).2.text (t.intern text).1 = .ok text := by
  rw [SymbolTable.intern]
  cases h : t.symbol? text with
  | some s => exact ⟨wf, .refl t, wf.symbol?_iff.1 h⟩
  | none => exact ⟨wf.append h, grows_append t text, text_append_self t text⟩

theorem WF.step (wf : t.WF) (action : TableAction) : (t.step action).2.WF := by
  cases action with
  | intern text | internOwned text => exact (wf.intern text).1
  | text s => exact wf
  | tryIntern text =>
    rw [SymbolTable.step, intern?]
    cases h : t.symbol? text with
    | some s => exact wf
    | none =>
      by_cases hfull : Symbol.maxIndex < t.size
      · simp only [hfull, if_true]
        exact wf
      · simp only [hfull, if_false]
        exact wf.append h

/-- The tables that actions lead to from the one that holds the empty text alone. -/
inductive Reachable : SymbolTable → Prop
  | new : Reachable new
  | step {t : SymbolTable} (h : Reachable t) (action : TableAction) : Reachable (t.step action).2

theorem Reachable.wf (h : t.Reachable) : t.WF := by
  induction h with
  | new => exact wf_new
  | step _ action ih => exact ih.step action

end Scoping.SymbolTable
