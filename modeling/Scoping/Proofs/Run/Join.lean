import Scoping.Proofs.Symbol.History
import Scoping.Run.Evaluate

/-!
# Sums of strings

Adding two strings interns the text of the first followed by the text of the second. Nothing else
that a binary operator does reads or changes the table (`applyBinary_cases`). Since a table has
one symbol for each text and keeps what it has, a sum is the symbol of its text, in the table it was
added with and in every later one (`Run.Yields`): what holds of texts put one behind the other holds
of symbols (`concatenates`).
-/

namespace Scoping

variable {a b c : Symbol} {left middle right text : String}

/-! ## Operators and the table -/

theorem BinaryOp.join_eq {t : SymbolTable} (ha : t.text a = .ok left) (hb : t.text b = .ok right) :
    join t a b = .ok (t.intern (left ++ right)) := by
  rw [join, ha, hb]
  rfl

/-- Two strings are added, or the table is neither read nor changed. -/
theorem Script.applyBinary_cases (op : BinaryOp) (span : Span) (v w : Value) :
    (∃ a b, op = .add ∧ v = .str a ∧ w = .str b) ∨
      ∃ result, applyBinary op span v w = Run.ofResult result := by
  have hcases : (∃ a b, op = .add ∧ v = .str a ∧ w = .str b) ∨
      (∃ z, ∀ t, op.apply t v w = .ok (z, t)) ∨
      ∃ e, ∀ t, op.apply t v w = .error (.error e) := by
    unfold BinaryOp.apply
    split
    · exact .inr (.inl ⟨_, fun _ => rfl⟩)
    · exact .inr (.inl ⟨_, fun _ => rfl⟩)
    · exact .inl ⟨_, _, rfl, rfl, rfl⟩
    · exact .inr (.inl ⟨_, fun _ => rfl⟩)
    · exact .inr (.inr ⟨_, fun _ => rfl⟩)
  rcases hcases with hstrings | ⟨z, hz⟩ | ⟨e, he⟩
  · exact .inl hstrings
  · refine .inr ⟨.ok z, funext fun s => ?_⟩
    simp only [applyBinary, hz, Run.ofResult]
  · refine .inr ⟨.error (.error (e.located span)), funext fun s => ?_⟩
    simp only [applyBinary, he, Run.ofResult]

/-! ## Computations of strings -/

namespace Run

/-- From a session, a computation ends in the string with a given text, and adds to the table at
most. -/
def Yields (m : Run Value) (text : String) (s : Session) : Prop :=
  ∃ c t, m s = (.ok (.str c), ⟨s.context, t⟩) ∧ t.WF ∧ s.symbols.Grows t ∧ t.text c = .ok text

theorem Yields.bind {m : Run Value} {k : Value → Run Value} {s : Session} {first last : String}
    (hm : m.Yields first s)
    (hk : ∀ c t, t.WF → s.symbols.Grows t → t.text c = .ok first →
      (k (.str c)).Yields last ⟨s.context, t⟩) :
    (m >>= k).Yields last s := by
  obtain ⟨c, t, hrun, wf, hgrows, htext⟩ := hm
  obtain ⟨d, u, hrest, wf', hgrows', htext'⟩ := hk c t wf hgrows htext
  exact ⟨d, u, (bind_of_ok hrun).trans hrest, wf', hgrows.trans hgrows', htext'⟩

/-- Whatever the second computation finds in the table by then, for the same text it ends in the
same symbol. -/
theorem Yields.pair {m m' : Run Value} {s : Session} (hm : m.Yields text s)
    (hm' : ∀ t, t.WF → s.symbols.Grows t → m'.Yields text ⟨s.context, t⟩) :
    ∃ c t, (do return (← m, ← m')) s = (.ok (.str c, .str c), t) := by
  obtain ⟨c, t, hrun, wf, hgrows, htext⟩ := hm
  obtain ⟨d, u, hrun', wf', hgrows', htext'⟩ := hm' t wf hgrows
  obtain rfl : c = d := wf'.eq_of_text_eq (hgrows'.text_eq htext) htext'
  refine ⟨c, ⟨s.context, u⟩, ?_⟩
  rw [bind_of_ok hrun, bind_of_ok hrun']
  rfl

end Run

namespace Script

variable {s : Session} (span : Span)

section wf

variable (wf : s.symbols.WF) (ha : s.symbols.text a = .ok left) (hb : s.symbols.text b = .ok right)

include wf ha hb

theorem applyBinary_add :
    (applyBinary .add span (.str a) (.str b)).Yields (left ++ right) s := by
  refine ⟨_, _, ?_, wf.intern (left ++ right)⟩
  simp only [applyBinary, BinaryOp.apply, BinaryOp.join_eq ha hb]
  rfl

/-- A sum whose text is there already is the symbol of that text, and adds nothing. -/
theorem applyBinary_add_known (hc : s.symbols.text c = .ok (left ++ right)) :
    applyBinary .add span (.str a) (.str b) s = (.ok (.str c), s) := by
  have hintern : s.symbols.intern (left ++ right) = (c, s.symbols) := by
    rw [SymbolTable.intern, wf.symbol?_iff.2 hc]
  simp only [applyBinary, BinaryOp.apply, BinaryOp.join_eq ha hb, hintern]
  rfl

theorem applyBinary_eq :
    applyBinary .eq span (.str a) (.str b) s = (.ok (.bool (decide (left = right))), s) := by
  have hiff : a = b ↔ left = right := by
    constructor
    · rintro rfl
      exact Except.ok.inj (ha.symm.trans hb)
    · rintro rfl
      exact wf.eq_of_text_eq ha hb
  have hequal : (Value.str a).isEqual (.str b) = decide (left = right) := decide_eq_decide.2 hiff
  rw [← hequal]
  rfl

end wf

variable {span}

theorem applyBinary_of_error {op : BinaryOp} {v w : Value} {i : Interruption RuntimeError}
    {t : Session} (h : applyBinary op span v w s = (.error i, t)) : t = s := by
  unfold applyBinary at h
  split at h <;> cases h <;> rfl

/-- A string without a text cannot be added. -/
theorem texts_or_error (a b : Symbol) (span : Span) (s : Session) :
    (∃ left right, s.symbols.text a = .ok left ∧ s.symbols.text b = .ok right) ∨
      ∃ fault, applyBinary .add span (.str a) (.str b) s = (.error (.fault fault), s) := by
  have hunjoined : ∀ {fault}, BinaryOp.join s.symbols a b = .error fault →
      applyBinary .add span (.str a) (.str b) s = (.error (.fault fault), s) := by
    intro fault hjoin
    simp only [applyBinary, BinaryOp.apply, hjoin]
    rfl
  cases ha : s.symbols.text a with
  | error fault => exact .inr ⟨fault, hunjoined (by rw [BinaryOp.join, ha]; rfl)⟩
  | ok left =>
    cases hb : s.symbols.text b with
    | error fault => exact .inr ⟨fault, hunjoined (by rw [BinaryOp.join, ha, hb]; rfl)⟩
    | ok right => exact .inl ⟨left, right, rfl, rfl⟩

/-- The two ways to add three values. -/
def sums (span : Span) (v w z : Value) : List (Run Value) :=
  [do applyBinary .add span (← applyBinary .add span v w) z,
    do applyBinary .add span v (← applyBinary .add span w z)]

theorem sums_yield (wf : s.symbols.WF) (ha : s.symbols.text a = .ok left)
    (hb : s.symbols.text b = .ok middle) (hc : s.symbols.text c = .ok right) {m : Run Value}
    (hm : m ∈ sums span (.str a) (.str b) (.str c)) : m.Yields (left ++ middle ++ right) s := by
  simp only [sums, List.mem_cons, List.not_mem_nil, or_false] at hm
  rcases hm with rfl | rfl
  · refine (applyBinary_add span wf ha hb).bind fun ab t wf' hgrows hab => ?_
    exact applyBinary_add span wf' hab (hgrows.text_eq hc)
  · refine (applyBinary_add span wf hb hc).bind fun bc t wf' hgrows hbc => ?_
    rw [String.append_assoc]
    exact applyBinary_add span wf' (hgrows.text_eq ha) hbc

/-- Whether two sums with the same first text are equal. -/
theorem eq_sums (wf : s.symbols.WF) (ha : s.symbols.text a = .ok left)
    (hb : s.symbols.text b = .ok middle) (hc : s.symbols.text c = .ok right) :
    ∃ t, (do
      let first ← applyBinary .add span (.str a) (.str b)
      let second ← applyBinary .add span (.str a) (.str c)
      applyBinary .eq span first second) s = (.ok (.bool (decide (middle = right))), t) := by
  obtain ⟨ab, t, hrun, wf', hgrows, hab⟩ := applyBinary_add span wf ha hb
  obtain ⟨ac, u, hrun', wf'', hgrows', hac⟩ := applyBinary_add (s := ⟨s.context, t⟩) span wf'
    (hgrows.text_eq ha) (hgrows.text_eq hc)
  have hcancel : left ++ middle = left ++ right ↔ middle = right := String.append_right_inj left
  refine ⟨⟨s.context, u⟩, ?_⟩
  rw [Run.bind_of_ok hrun, Run.bind_of_ok hrun',
    applyBinary_eq (s := ⟨s.context, u⟩) span wf'' (hgrows'.text_eq hab) hac]
  simp only [hcancel]

end Script

/-! ## The laws of sums -/

/-- In a session, strings are added and compared as their texts are. -/
structure Session.Concatenates (s : Session) : Prop where
  /-- A sum has the two texts one behind the other, and all symbols keep their texts. -/
  add : ∀ {a b left right} span, s.symbols.text a = .ok left → s.symbols.text b = .ok right →
    ∃ c t, Script.applyBinary .add span (.str a) (.str b) s = (.ok (.str c), t) ∧
      t.context = s.context ∧ t.symbols.text c = .ok (left ++ right) ∧
      ∀ d text, s.symbols.text d = .ok text → t.symbols.text d = .ok text
  /-- Both ways to add three strings, one after the other, end in the same symbol. -/
  assoc : ∀ {a b c} span, s.symbols.Knows a → s.symbols.Knows b → s.symbols.Knows c →
    ∀ first ∈ Script.sums span (.str a) (.str b) (.str c),
    ∀ second ∈ Script.sums span (.str a) (.str b) (.str c),
    ∃ d t, (do return (← first, ← second)) s = (.ok (.str d, .str d), t)
  empty : s.symbols.text .empty = .ok ""
  empty_add : ∀ {a} span, s.symbols.Knows a →
    Script.applyBinary .add span (.str .empty) (.str a) s = (.ok (.str a), s)
  add_empty : ∀ {a} span, s.symbols.Knows a →
    Script.applyBinary .add span (.str a) (.str .empty) s = (.ok (.str a), s)
  /-- Comparing the sums has the result of comparing the second strings. -/
  cancel : ∀ {a b c} span, s.symbols.Knows a → s.symbols.Knows b → s.symbols.Knows c →
    ∃ t, (do
      let first ← Script.applyBinary .add span (.str a) (.str b)
      let second ← Script.applyBinary .add span (.str a) (.str c)
      Script.applyBinary .eq span first second) s =
        ((Script.applyBinary .eq span (.str b) (.str c) s).1, t)
  equal : ∀ {a b left right} span, s.symbols.text a = .ok left → s.symbols.text b = .ok right →
    Script.applyBinary .eq span (.str a) (.str b) s = (.ok (.bool (decide (left = right))), s)
  /-- Operands that an operator does not accept leave the session as it is. -/
  rejected : ∀ {op span v w i t}, Script.applyBinary op span v w s = (.error i, t) → t = s

theorem concatenates {s : Session} (h : s.symbols.Reachable) : s.Concatenates where
  add span ha hb := by
    obtain ⟨c, t, hrun, -, hgrows, htext⟩ := Script.applyBinary_add span h.wf ha hb
    exact ⟨c, _, hrun, rfl, htext, fun d text hd => hgrows.text_eq hd⟩
  assoc span ha hb hc first hfirst second hsecond := by
    obtain ⟨left, hleft⟩ := SymbolTable.knows_iff.1 ha
    obtain ⟨middle, hmiddle⟩ := SymbolTable.knows_iff.1 hb
    obtain ⟨right, hright⟩ := SymbolTable.knows_iff.1 hc
    have hyields := Script.sums_yield h.wf hleft hmiddle hright hfirst
    exact hyields.pair fun t wf hgrows =>
      Script.sums_yield (s := ⟨s.context, t⟩) wf (hgrows.text_eq hleft) (hgrows.text_eq hmiddle)
        (hgrows.text_eq hright) hsecond
  empty := h.text_empty
  empty_add span ha := by
    obtain ⟨text, htext⟩ := SymbolTable.knows_iff.1 ha
    exact Script.applyBinary_add_known span h.wf h.text_empty htext (by rwa [String.empty_append])
  add_empty span ha := by
    obtain ⟨text, htext⟩ := SymbolTable.knows_iff.1 ha
    exact Script.applyBinary_add_known span h.wf htext h.text_empty (by rwa [String.append_empty])
  cancel span ha hb hc := by
    obtain ⟨left, hleft⟩ := SymbolTable.knows_iff.1 ha
    obtain ⟨middle, hmiddle⟩ := SymbolTable.knows_iff.1 hb
    obtain ⟨right, hright⟩ := SymbolTable.knows_iff.1 hc
    rw [Script.applyBinary_eq span h.wf hmiddle hright]
    exact Script.eq_sums h.wf hleft hmiddle hright
  equal span := Script.applyBinary_eq span h.wf
  rejected := Script.applyBinary_of_error

/-- The sum of the first two strings is there from the start, that of the last two is not. -/
theorem concatenates_inner :
    let s : Session :=
      .new (((SymbolTable.new.step (.intern "a")).2.step (.tryIntern "b")).2.step (.intern "ab")).2
    let left : Run Value := do
      Script.applyBinary .add .nowhere
        (← Script.applyBinary .add .nowhere (.str ⟨1⟩) (.str ⟨2⟩)) (.str ⟨1⟩)
    let right : Run Value := do
      Script.applyBinary .add .nowhere (.str ⟨1⟩)
        (← Script.applyBinary .add .nowhere (.str ⟨2⟩) (.str ⟨1⟩))
    let both : Run (Value × Value) := do return (← right, ← left)
    s.symbols.Reachable ∧ s.Concatenates ∧ (∃ d t, both s = (.ok (.str d, .str d), t)) ∧
      (both s).1 = .ok (.str ⟨5⟩, .str ⟨5⟩) ∧ (both s).2.symbols.texts =
        #["", "a", "b", "ab", "ba", "aba"] := by
  intro s left right both
  have hreachable : s.symbols.Reachable := .step (.step (.step .new _) _) _
  have hconcatenates := concatenates hreachable
  have hone : s.symbols.Knows ⟨1⟩ := SymbolTable.knows_iff.2 ⟨"a", by decide +kernel⟩
  have htwo : s.symbols.Knows ⟨2⟩ := SymbolTable.knows_iff.2 ⟨"b", by decide +kernel⟩
  have hsame := hconcatenates.assoc .nowhere hone htwo hone right
    (List.mem_cons_of_mem _ List.mem_cons_self) left List.mem_cons_self
  exact ⟨hreachable, hconcatenates, hsame, by decide +kernel, by decide +kernel⟩

end Scoping
