import Scoping.Proofs.Symbol.Table

/-!
# Symbols of two tables

Two tables that were filled in different orders number the same texts differently. A naming says
which symbol of the one stands for which symbol of the other; the naming that matters relates the
symbols with the same text (`SameText`). Between well-formed tables it is one to one
(`oneToOne_sameText`), it is never lost when the tables grow (`Grows.within`), and interning a text
in both adds the two answers to it, whether the text was new in both, in one, or in neither
(`sameText_intern`).
-/

namespace Scoping

/-- Which symbol of one table stands for which symbol of another. -/
def Naming : Type := Symbol → Symbol → Prop

/-- What stands for each other in one naming does so in the other. -/
def Naming.Within (R S : Naming) : Prop := ∀ ⦃a b⦄, R a b → S a b

/-- Comparing symbols comes out the same on both sides. -/
def Naming.OneToOne (R : Naming) : Prop := ∀ ⦃a a' b b'⦄, R a b → R a' b' → (a = a' ↔ b = b')

namespace Naming.Within

variable {R S T : Naming}

theorem refl (R : Naming) : R.Within R := fun _ _ h => h

theorem trans (h : R.Within S) (h' : S.Within T) : R.Within T := fun _ _ hab => h' (h hab)

end Naming.Within

namespace SymbolTable

/-- The symbols that have the same text, the first in one table and the second in another. -/
def SameText (t u : SymbolTable) : Naming :=
  fun a b => ∃ text, t.text a = .ok text ∧ u.text b = .ok text

variable {t t' u u' : SymbolTable} {a a' b b' : Symbol}

namespace SameText

theorem text_eq (h : SameText t u a b) : t.text a = u.text b := by
  obtain ⟨text, ha, hb⟩ := h
  exact ha.trans hb.symm

theorem right_unique (hu : u.WF) (h : SameText t u a b) (h' : SameText t u a b') : b = b' := by
  obtain ⟨text, ha, hb⟩ := h
  have hb' : u.text b' = .ok text := h'.text_eq.symm.trans ha
  exact Option.some.inj ((hu.symbol?_iff.2 hb).symm.trans (hu.symbol?_iff.2 hb'))

theorem left_unique (ht : t.WF) (h : SameText t u a b) (h' : SameText t u a' b) : a = a' := by
  obtain ⟨text, ha, hb⟩ := h
  have ha' : t.text a' = .ok text := h'.text_eq.trans hb
  exact Option.some.inj ((ht.symbol?_iff.2 ha).symm.trans (ht.symbol?_iff.2 ha'))

end SameText

/-- Comparing symbols compares their texts. -/
theorem oneToOne_sameText (ht : t.WF) (hu : u.WF) : (SameText t u).OneToOne := by
  intro a a' b b' h h'
  constructor
  · rintro rfl
    exact h.right_unique hu h'
  · rintro rfl
    exact h.left_unique ht h'

theorem Grows.within (ht : t.Grows t') (hu : u.Grows u') :
    (SameText t u).Within (SameText t' u') := by
  rintro a b ⟨text, ha, hb⟩
  exact ⟨text, ht.text_eq ha, hu.text_eq hb⟩

theorem sameText_intern (ht : t.WF) (hu : u.WF) (text : String) :
    SameText (t.intern text).2 (u.intern text).2 (t.intern text).1 (u.intern text).1 :=
  ⟨text, (ht.intern text).2.2, (hu.intern text).2.2⟩

end SymbolTable

end Scoping
