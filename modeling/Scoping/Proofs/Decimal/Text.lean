import Mathlib.Data.List.Basic
import Scoping.Proofs.Decimal.Interval

/-!
# The text of a double says which double it is

A decimal in positional notation is read back as the number that its digits spell, divided by a
power of ten for each place after the point (`positional_eq`), so that decimals with the same text
stand for the same number (`toRat_eq_of_positional`). The digits chosen for a double round to no
other double, and the sign is written in front of them: finite doubles with the same text have the
same bits (`doubleText_injective`).
-/

namespace Scoping

/-! ## Positional notation -/

namespace Decimal

/-- Digits before the point and digits after it; without any after it there is no point. -/
def spelling (before after : List Char) : List Char :=
  if after = [] then before else before ++ '.' :: after

/-- Nothing but decimal digits. -/
def AllDigits (cs : List Char) : Prop := ∀ c ∈ cs, c.isDigit = true

theorem AllDigits.append {cs ds : List Char} (hcs : AllDigits cs) (hds : AllDigits ds) :
    AllDigits (cs ++ ds) := fun c hc => (List.mem_append.1 hc).elim (hcs c) (hds c)

theorem allDigits_toDigits (n : ℕ) : AllDigits (Nat.toDigits 10 n) := fun _ hc =>
  Nat.isDigit_of_mem_toDigits (by decide) (by decide) hc

theorem allDigits_replicate (n : ℕ) : AllDigits (List.replicate n '0') := by
  intro c hc
  rw [List.eq_of_mem_replicate hc]
  rfl

theorem AllDigits.point_not_mem {cs : List Char} (h : AllDigits cs) : '.' ∉ cs := fun hmem =>
  absurd (h _ hmem) (by decide)

theorem spelling_inj {before after before' after' : List Char}
    (hdigits : AllDigits (before ++ after)) (hdigits' : AllDigits (before' ++ after'))
    (h : spelling before after = spelling before' after') : before = before' ∧ after = after' := by
  have hbefore : '.' ∉ before := fun hmem => hdigits.point_not_mem (List.mem_append_left _ hmem)
  have hbefore' : '.' ∉ before' := fun hmem =>
    hdigits'.point_not_mem (List.mem_append_left _ hmem)
  have hafter : '.' ∉ after := fun hmem => hdigits.point_not_mem (List.mem_append_right _ hmem)
  unfold spelling at h
  split at h <;> split at h
  · next hnone hnone' => exact ⟨h, hnone.trans hnone'.symm⟩
  · exact absurd (h ▸ List.mem_append_right _ List.mem_cons_self) hbefore
  · exact absurd (h ▸ List.mem_append_right _ List.mem_cons_self) hbefore'
  · obtain ⟨hb, -, ha⟩ := (List.append_cons_inj_of_notMem hbefore hafter).1 h
    exact ⟨hb, ha⟩

/-- The text of a decimal is digits, with a point among them or without, that spell its number. -/
theorem positional_eq (d : Decimal) : ∃ before after, d.positional = spelling before after ∧
    before ≠ [] ∧ AllDigits (before ++ after) ∧
    d.toRat = Nat.ofDigitChars 10 (before ++ after) 0 / 10 ^ after.length := by
  obtain ⟨coefficient, exponent⟩ := d
  have hdigits := allDigits_toDigits coefficient
  cases exponent with
  | ofNat zeros =>
    refine ⟨Nat.toDigits 10 coefficient ++ List.replicate zeros '0', [], rfl, ?_, ?_, ?_⟩
    · exact List.append_ne_nil_of_left_ne_nil Nat.toDigits_ne_nil _
    · rw [List.append_nil]
      exact hdigits.append (allDigits_replicate zeros)
    · rw [List.append_nil, Nat.ofDigitChars_append, Nat.ofDigitChars_replicate_zero,
        Nat.ofDigitChars_ten_toDigits, toRat]
      push_cast
      rw [List.length_nil, pow_zero, div_one, mul_comm]
      rfl
  | negSucc n =>
    obtain ⟨padded, hpadded⟩ : ∃ padded, padded =
      List.replicate (n + 1 + 1 - (Nat.toDigits 10 coefficient).length) '0' ++
        Nat.toDigits 10 coefficient := ⟨_, rfl⟩
    have hlength : n + 2 ≤ padded.length := by
      rw [hpadded, List.length_append, List.length_replicate]
      omega
    have hafter : (padded.drop (padded.length - (n + 1))).length = n + 1 := by
      rw [List.length_drop]
      omega
    have hall : AllDigits padded := hpadded ▸ (allDigits_replicate _).append hdigits
    refine ⟨padded.take (padded.length - (n + 1)), padded.drop (padded.length - (n + 1)), ?_, ?_,
      ?_, ?_⟩
    · rw [spelling, if_neg (List.ne_nil_of_length_eq_add_one hafter), hpadded]
      rfl
    · refine List.ne_nil_of_length_pos ?_
      rw [List.length_take]
      omega
    · rwa [List.take_append_drop]
    · rw [List.take_append_drop, hafter, hpadded, Nat.ofDigitChars_append,
        Nat.ofDigitChars_replicate_zero, Nat.mul_zero, Nat.ofDigitChars_ten_toDigits, toRat,
        zpow_negSucc, div_eq_mul_inv]

theorem toRat_eq_of_positional {d d' : Decimal} (h : d.positional = d'.positional) :
    d.toRat = d'.toRat := by
  obtain ⟨before, after, heq, -, hdigits, hvalue⟩ := d.positional_eq
  obtain ⟨before', after', heq', -, hdigits', hvalue'⟩ := d'.positional_eq
  obtain ⟨rfl, rfl⟩ := spelling_inj hdigits hdigits' (heq.symm.trans (h.trans heq'))
  rw [hvalue, hvalue']

/-- The text begins with a digit, and has only digits and the point after it. -/
theorem positional_shape (d : Decimal) : ∃ c cs, d.positional = c :: cs ∧ c.isDigit = true ∧
    ∀ x ∈ cs, x.isDigit = true ∨ x = '.' := by
  obtain ⟨before, after, heq, hne, hdigits, -⟩ := d.positional_eq
  obtain ⟨c, cs, rfl⟩ := List.exists_cons_of_ne_nil hne
  have hc := hdigits c List.mem_cons_self
  have hrest : ∀ x ∈ cs ++ after, x.isDigit = true := fun x hx =>
    hdigits x (List.mem_cons_of_mem c hx)
  unfold spelling at heq
  split at heq
  · exact ⟨c, cs, heq, hc, fun x hx => .inl (hrest x (List.mem_append_left _ hx))⟩
  · refine ⟨c, cs ++ '.' :: after, heq, hc, fun x hx => ?_⟩
    rcases List.mem_append.1 hx with hx | hx
    · exact .inl (hrest x (List.mem_append_left _ hx))
    · exact (List.mem_cons.1 hx).symm.imp_left fun hx => hrest x (List.mem_append_right _ hx)

end Decimal

/-! ## Doubles -/

namespace DoubleFields

variable {d d' : DoubleFields}

/-- The decimal whose text the magnitude of a finite double has. -/
def decimal (d : DoubleFields) : Decimal :=
  if d.index = 0 then ⟨0, 0⟩ else d.rounding.shortest

theorem magnitude_eq (d : DoubleFields) : d.magnitude = d.decimal.positional := by
  have hzero : (d.exponent = 0 ∧ d.fraction = 0) ↔ d.index = 0 := by
    unfold index
    omega
  unfold magnitude decimal
  rw [if_congr hzero rfl rfl]
  split <;> rfl

theorem owns_decimal (h : d.fraction < 2 ^ 52) : (roundingAt d.index).Owns d.decimal.toRat := by
  rw [← rounding_eq h]
  unfold decimal
  split
  · next hzero =>
    rw [rounding_eq h, hzero, Rounding.Owns, closed_roundingAt]
    have hlow : (roundingAt 0).low = 0 := zero_mul _
    have htoRat : (⟨0, 0⟩ : Decimal).toRat = 0 := zero_mul _
    rw [htoRat]
    refine (if_pos rfl).mpr ?_
    exact ⟨hlow.le, hlow ▸ (low_lt_high_roundingAt 0).le⟩
  · next hzero => exact Rounding.owns_shortest (below_lt_value hzero) d.value_lt_above

theorem index_eq_of_magnitude (h : d.fraction < 2 ^ 52) (h' : d'.fraction < 2 ^ 52)
    (heq : d.magnitude = d'.magnitude) : d.index = d'.index := by
  rw [magnitude_eq, magnitude_eq] at heq
  have howns := owns_decimal h
  rw [Decimal.toRat_eq_of_positional heq] at howns
  exact index_eq_of_owns howns (owns_decimal h')

theorem fraction_ofBits_lt (bits : UInt64) : (ofBits bits).fraction < 2 ^ 52 :=
  Nat.mod_lt _ (Nat.two_pow_pos 52)

/-- The sign and the place of the magnitude are all that the bits say. -/
theorem ofBits_injective {a b : UInt64} (hnegative : (ofBits a).negative = (ofBits b).negative)
    (hindex : (ofBits a).index = (ofBits b).index) : a = b := by
  have hsign := decide_eq_decide.1 hnegative
  simp only [index, ofBits, Nat.pow_eq] at hsign hindex
  have ha := a.toNat_lt
  have hb := b.toNat_lt
  apply UInt64.toNat_inj.1
  omega

end DoubleFields

/-- Neither an infinity nor not-a-number. -/
def IsFiniteDouble (bits : UInt64) : Prop :=
  (DoubleFields.ofBits bits).exponent ≠ Nat.pow 2 11 - 1

instance (bits : UInt64) : Decidable (IsFiniteDouble bits) :=
  inferInstanceAs (Decidable (_ ≠ _))

section doubleText

variable {a b : UInt64}

theorem toList_doubleText (h : IsFiniteDouble a) :
    (doubleText a).toList = if (DoubleFields.ofBits a).negative = true
      then '-' :: (DoubleFields.ofBits a).magnitude else (DoubleFields.ofBits a).magnitude := by
  unfold doubleText
  simp only
  rw [if_neg h, String.toList_ofList]

/-- A magnitude begins with a digit, and so never with a sign. -/
theorem magnitude_ne_minus (d : DoubleFields) (cs : List Char) : d.magnitude ≠ '-' :: cs := by
  obtain ⟨c, rest, heq, hdigit, -⟩ := d.decimal.positional_shape
  rw [d.magnitude_eq, heq]
  rintro hminus
  cases hminus
  cases hdigit

theorem doubleText_injective (ha : IsFiniteDouble a) (hb : IsFiniteDouble b)
    (h : doubleText a = doubleText b) : a = b := by
  have hlist := congrArg String.toList h
  rw [toList_doubleText ha, toList_doubleText hb] at hlist
  have hmagnitude := DoubleFields.index_eq_of_magnitude (DoubleFields.fraction_ofBits_lt a)
    (DoubleFields.fraction_ofBits_lt b)
  split at hlist <;> split at hlist
  · next hnegative hnegative' =>
    exact DoubleFields.ofBits_injective (hnegative.trans hnegative'.symm)
      (hmagnitude (List.cons.inj hlist).2)
  · exact absurd hlist.symm (magnitude_ne_minus _ _)
  · exact absurd hlist (magnitude_ne_minus _ _)
  · next hnegative hnegative' =>
    refine DoubleFields.ofBits_injective ?_ (hmagnitude hlist)
    rw [Bool.not_eq_true] at hnegative hnegative'
    exact hnegative.trans hnegative'.symm

/-- The text of a finite double: a sign or none, a digit, and then digits and points. -/
theorem doubleText_shape (h : IsFiniteDouble a) : ∃ c cs,
    ((doubleText a).toList = c :: cs ∨ (doubleText a).toList = '-' :: c :: cs) ∧
      c.isDigit = true ∧ ∀ x ∈ cs, x.isDigit = true ∨ x = '.' := by
  obtain ⟨c, cs, heq, hc, hcs⟩ := (DoubleFields.ofBits a).decimal.positional_shape
  refine ⟨c, cs, ?_, hc, hcs⟩
  rw [toList_doubleText h, DoubleFields.magnitude_eq, heq]
  split
  · exact .inr rfl
  · exact .inl rfl

end doubleText

end Scoping
