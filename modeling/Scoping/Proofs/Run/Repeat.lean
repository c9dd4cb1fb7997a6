import Scoping.Proofs.Run.Cells
import Scoping.Proofs.Run.Join

/-!
# Evaluating an expression again

An expression that assigns nothing leaves the context alone, but its sums add texts to the table, so
that a second evaluation starts from another session than the first. What it reads is the same
then, and each of its sums finds its text in the table (`applyBinary_repeats`). A part of the
expression is evaluated again when the parts after it have added their texts too: a computation
repeats if it does so in every larger table (`Run.Repeats`). Only an error or a fault may tell how
large the table is, and nothing comes after these.
-/

namespace Scoping

variable {A B : Type}

/-! ## Computations that repeat -/

namespace Run

/-- A computation adds to the table at most; after it, it does the same again and adds nothing. If
it has ended well, texts may have been added by others in between. -/
def Repeats (m : Run A) : Prop :=
  ∀ s, s.symbols.WF → ∃ result t, m s = (result, ⟨s.context, t⟩) ∧ t.WF ∧ s.symbols.Grows t ∧
    ∀ u, u.WF → t.Grows u → (∀ i, result = .error i → u = t) →
      m ⟨s.context, u⟩ = (result, ⟨s.context, u⟩)

namespace Repeats

/-- A computation that leaves the session as it is, and ends well independently of the table. -/
theorem of_quiet {m : Run A} (hquiet : ∀ s, (m s).2 = s)
    (hok : ∀ {s a} u, (m s).1 = .ok a → (m ⟨s.context, u⟩).1 = .ok a) : Repeats m := by
  intro s wf
  refine ⟨(m s).1, s.symbols, Prod.ext rfl (hquiet s), wf, .refl _, fun u _ _ hend => ?_⟩
  cases hresult : (m s).1 with
  | ok a => exact Prod.ext (hok u hresult) (hquiet _)
  | error i =>
    obtain rfl : u = s.symbols := hend i hresult
    exact Prod.ext hresult (hquiet s)

theorem ofResult (r : Except (Interruption RuntimeError) A) : Repeats (Run.ofResult r) :=
  .of_quiet (fun _ => rfl) fun _ h => h

theorem bind {m : Run A} {k : A → Run B} (hm : Repeats m) (hk : ∀ a, Repeats (k a)) :
    Repeats (m >>= k) := by
  intro s wf
  obtain ⟨result, t, hrun, wf', hgrows, hagain⟩ := hm s wf
  cases result with
  | error i =>
    refine ⟨.error i, t, bind_of_error hrun, wf', hgrows, fun u hu ht hend => ?_⟩
    exact bind_of_error (hagain u hu ht fun _ _ => hend i rfl)
  | ok a =>
    obtain ⟨result', t', hrest, wf'', hgrows', hagain'⟩ := hk a ⟨s.context, t⟩ wf'
    refine ⟨result', t', (bind_of_ok hrun).trans hrest, wf'', hgrows.trans hgrows', ?_⟩
    intro u hu ht' hend
    rw [bind_of_ok (hagain u hu (hgrows'.trans ht') nofun)]
    exact hagain' u hu ht' hend

theorem closed : Closed fun _ => Repeats := ⟨ofResult, bind⟩

end Repeats

end Run

/-! ## Expressions -/

namespace Script

variable {x : Script}

theorem readName_repeats (id : ExprId) (who : Occurrence Symbol) :
    Run.Repeats (x.readName id who) := by
  have haccess : ∀ {s : Session} {r : Except (Interruption AccessError) Value} {value} u,
      (Run.ofAccess r s).1 = .ok value → (Run.ofAccess r ⟨s.context, u⟩).1 = .ok value := by
    intro s r value u h
    cases r with
    | ok value => exact h
    | error i =>
      rw [Run.ofAccess_error] at h
      cases h
  refine .of_quiet (x.readName_snd who) fun {s value} u h => ?_
  cases hdistance : x.distance? id with
  | some distance =>
    rw [x.readName_of_some who _ hdistance] at h ⊢
    exact haccess u h
  | none =>
    rw [x.readName_of_none who _ hdistance] at h ⊢
    exact haccess u h

theorem applyBinary_repeats (op : BinaryOp) (span : Span) (v w : Value) :
    Run.Repeats (applyBinary op span v w) := by
  rcases applyBinary_cases op span v w with ⟨a, b, rfl, rfl, rfl⟩ | ⟨result, hresult⟩
  · intro s wf
    rcases texts_or_error a b span s with ⟨left, right, ha, hb⟩ | ⟨fault, hfault⟩
    · obtain ⟨c, t, hrun, wf', hgrows, hc⟩ := applyBinary_add span wf ha hb
      refine ⟨.ok (.str c), t, hrun, wf', hgrows, fun u hu ht _ => ?_⟩
      have hall := hgrows.trans ht
      exact applyBinary_add_known (s := ⟨s.context, u⟩) span hu (hall.text_eq ha) (hall.text_eq hb)
        (ht.text_eq hc)
    · refine ⟨.error (.fault fault), s.symbols, hfault, wf, .refl _, fun u _ _ hend => ?_⟩
      obtain rfl : u = s.symbols := hend _ rfl
      exact hfault
  · rw [hresult]
    exact .ofResult result

theorem evaluateWithin_repeats (fuel : Nat) {id : ExprId}
    (hfree : ∀ name, ¬ x.program.Assigns (.expr id) name) :
    Run.Repeats (x.evaluateWithin fuel id) := by
  refine Run.Repeats.closed.evaluateWithin (fun _ _ => readName_repeats _ _) ?_
    applyBinary_repeats fuel .refl
  intro e target operand span he hexpr value
  exact absurd ⟨e, target, operand, span, he, hexpr, rfl⟩ (hfree target.name)

end Script

/-- Evaluating an expression that assigns nothing leaves the context as it is, however it ends.
Evaluating it again ends in the same way, and leaves the table as it is by then. -/
theorem evaluate_again (x : Script) {id : ExprId} {s : Session} (h : s.symbols.Reachable)
    (hfree : ∀ name, ¬ x.program.Assigns (.expr id) name) :
    (x.evaluate id s).2.context = s.context ∧
      x.evaluate id (x.evaluate id s).2 = x.evaluate id s := by
  obtain ⟨result, t, hrun, wf, -, hagain⟩ := Script.evaluateWithin_repeats _ hfree s h.wf
  have hevaluate : x.evaluate id s = (result, ⟨s.context, t⟩) := hrun
  rw [hevaluate]
  exact ⟨rfl, hagain t wf (.refl t) fun _ _ => rfl⟩

/-- A variable is added to itself and to a string, and the sum to the variable again: of the three
texts, the first is there already. -/
theorem evaluate_again_sums :
    let a : Occurrence Symbol := ⟨⟨1⟩, .nowhere⟩
    let x : Script :=
      { program :=
          { exprs := #[⟨.reference a, .nowhere⟩, ⟨.literal (.str ⟨3⟩), .nowhere⟩,
              ⟨.binary ⟨0⟩ .add ⟨0⟩, .nowhere⟩, ⟨.binary ⟨2⟩ .add ⟨1⟩, .nowhere⟩,
              ⟨.group ⟨3⟩, .nowhere⟩, ⟨.binary ⟨4⟩ .add ⟨0⟩, .nowhere⟩]
            stmts := #[]
            bodies := #[] }
        distances := .empty
        mode := .byName
        spareLevels := 0 }
    let table := ((SymbolTable.new.step (.intern "a")).2.step (.intern "aa")).2
    let s : Session :=
      ⟨Context.new.after [.define a.name (.str a.name)], (table.step (.intern "b")).2⟩
    s.symbols.Reachable ∧ (∀ name, ¬ x.program.Assigns (.expr ⟨5⟩) name) ∧
      (x.evaluate ⟨5⟩ s).1 = .ok (.str ⟨5⟩) ∧
      (x.evaluate ⟨5⟩ s).2.symbols.texts = #["", "a", "aa", "b", "aab", "aaba"] ∧
      x.evaluate ⟨5⟩ (x.evaluate ⟨5⟩ s).2 = x.evaluate ⟨5⟩ s := by
  intro a x table s
  have hreachable : s.symbols.Reachable := .step (.step (.step .new _) _) _
  have hfree : ∀ name, ¬ x.program.Assigns (.expr ⟨5⟩) name := by
    rintro name ⟨id, target, value, span, -, hexpr, -⟩
    have hmem := Array.mem_of_getElem? (slot_eq_ok_iff.1 hexpr)
    simp [x] at hmem
  exact ⟨hreachable, hfree, by decide +kernel, by decide +kernel,
    (evaluate_again x hreachable hfree).2⟩

end Scoping
