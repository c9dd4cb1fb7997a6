import Scoping.Proofs.Context.Reachable

/-!
# What is left of the scopes that were left

A ledger of scopes adds every scope that is opened and strikes off those that are left. Leaving a
scope counts in it only from the contexts that it is told to count; the exact ledger counts the
scopes that nobody captured and that were left while no live frame was inside them (`isSpent`). By
that ledger the frames are `Accounted` for at every moment, whatever order the scopes were opened,
entered and left in: the live frames are the root and the scopes that still stand, nothing else
holds anything, and when none stands the root is alone (`accounted_after`).

Counting every scope that was left, as one would, does not give the number of frames, although
nothing was ever captured (`exit_leaves_frame`): a frame that was left while a live frame was inside
it is kept with all it holds, and is not looked at again when the inner one goes.
-/

namespace Scoping.Context

open FrameTree

variable {V : Type} {c d : Context V}

/-! ## The ledger -/

/-- Whether leaving the current scope ends it: it was not captured and no live frame is inside. -/
def isSpent (c : Context V) : Bool :=
  !c.tree.isCaptured c.current &&
    match c.tree.hasLiveDescendant c.current with
    | .ok inside => !inside
    | .error _ => false

/-- The scopes that stand after an action, given those that stood before it. Leaving a scope strikes
it off if that `counts`. -/
def ledger (counts : Context V → Bool) (c : Context V) (standing : List FrameId)
    (action : ContextAction Symbol V) : List FrameId :=
  match action, c.apply action with
  | .openScope, .ok (_, d) => d.current :: standing
  | .openIn _, .ok (_, d) => d.current :: standing
  | .closeScope, .ok _ => if counts c then standing.erase c.current else standing
  | _, _ => standing

/-- The scopes that stand after some actions. -/
def standing (counts : Context V → Bool) (c : Context V) (before : List FrameId) :
    List (ContextAction Symbol V) → List FrameId
  | [] => before
  | action :: actions => (c.step action).2.standing counts (c.ledger counts before action) actions

theorem ledger_of_isLocal (counts : Context V → Bool) (standing : List FrameId)
    {action : ContextAction Symbol V} (h : action.isLocal = true) :
    c.ledger counts standing action = standing := by
  cases action <;> first | rfl | cases h

/-- The exact ledger strikes off the frames that nobody needs. -/
theorem isSpent_iff (wf : c.WF) (h : c.current ≠ FrameId.root) :
    c.isSpent = true ↔ ¬ c.tree.Needed c.current := by
  obtain ⟨inside, hinside, hiff⟩ := hasLiveDescendant_eq wf.tree c.current
  unfold isSpent Needed
  rw [hinside, ← hiff]
  cases c.tree.isCaptured c.current <;> cases inside <;> simp [h]

/-! ## The live frames are those that stand -/

structure Accounted (c : Context V) (standing : List FrameId) : Prop where
  live_iff : ∀ {f}, c.tree.isLive f = true ↔ f = FrameId.root ∨ f ∈ standing
  nodup : (FrameId.root :: standing).Nodup

theorem accounted_new : Accounted (new : Context V) [] where
  live_iff {f} := by
    refine ⟨fun hf => .inl (Nat.lt_one_iff.1 (lt_of_isLive hf)), fun hf => ?_⟩
    rcases hf with rfl | hf
    · rfl
    · cases hf
  nodup := List.nodup_cons.2 ⟨List.not_mem_nil, List.nodup_nil⟩

namespace Accounted

variable {standing : List FrameId} (h : Accounted c standing)

include h

theorem congr (hlive : ∀ f, d.tree.isLive f = c.tree.isLive f) : Accounted d standing where
  live_iff {f} := by
    rw [hlive]
    exact h.live_iff
  nodup := h.nodup

theorem opened (wf : c.WF) (p : FrameId) :
    Accounted ⟨c.tree.grow p, c.tree.size⟩ (c.tree.size :: standing) where
  live_iff {f} := by
    constructor
    · intro hf
      rcases lt_or_eq_of_lt_grow (lt_of_isLive hf) with hlt | rfl
      · rw [isLive_congr (getElem?_grow_old hlt)] at hf
        exact (h.live_iff.1 hf).imp_right (List.mem_cons_of_mem _)
      · exact .inr List.mem_cons_self
    · intro hf
      by_cases hnew : f = c.tree.size
      · rw [hnew]
        exact isLive_grow_new
      · have hold : c.tree.isLive f = true :=
          h.live_iff.2 (hf.imp_right fun hmem => (List.mem_cons.1 hmem).resolve_left hnew)
        exact (isLive_congr (getElem?_grow_old (lt_of_isLive hold))).trans hold
  nodup := by
    have hroot := lt_of_isLive wf.tree.root_live
    have hfresh : c.tree.size ∉ standing := fun hmem =>
      Nat.lt_irrefl _ (lt_of_isLive (h.live_iff.2 (.inr hmem)))
    have hold := List.nodup_cons.1 h.nodup
    refine List.nodup_cons.2 ⟨fun hmem => ?_, List.nodup_cons.2 ⟨hfresh, hold.2⟩⟩
    rcases List.mem_cons.1 hmem with heq | hmem
    · exact absurd hroot (Nat.not_lt.2 (Nat.le_of_eq heq.symm))
    · exact hold.1 hmem

/-- Giving back the current frame strikes it off, unless somebody needs it. -/
theorem closed (wf : c.WF) {p : FrameId} {u : FrameTree V}
    (hp : c.tree.parent? c.current = some p) (hu : Released c.tree c.current u) :
    Accounted ⟨u, p⟩ (if c.isSpent then standing.erase c.current else standing) := by
  have hroot : c.current ≠ FrameId.root := fun heq => by
    rw [heq, wf.tree.parent?_root] at hp
    cases hp
  have hold := List.nodup_cons.1 h.nodup
  by_cases hspent : c.isSpent = true
  · have hneeded := (isSpent_iff wf hroot).1 hspent
    rw [if_pos hspent]
    refine ⟨fun {f} => ?_, ?_⟩
    · rw [hu.live_iff, h.live_iff, hold.2.mem_erase_iff]
      constructor
      · rintro ⟨hf, hkept⟩
        exact hf.imp_right fun hmem => ⟨fun heq => hneeded (hkept heq), hmem⟩
      · rintro (rfl | ⟨hne, hmem⟩)
        · exact ⟨.inl rfl, fun heq => absurd heq.symm hroot⟩
        · exact ⟨.inr hmem, fun heq => absurd heq hne⟩
    · exact List.nodup_cons.2 ⟨fun hmem => hold.1 (List.mem_of_mem_erase hmem), hold.2.erase _⟩
  · have hneeded : c.tree.Needed c.current := Classical.byContradiction fun hn =>
      hspent ((isSpent_iff wf hroot).2 hn)
    rw [if_neg hspent]
    refine ⟨fun {f} => ?_, h.nodup⟩
    rw [hu.live_iff, h.live_iff]
    exact and_iff_left fun _ => hneeded

theorem step (wf : c.WF) (action : ContextAction Symbol V) :
    Accounted (c.step action).2 (c.ledger isSpent standing action) := by
  by_cases hlocal : action.isLocal = true
  · rw [ledger_of_isLocal _ _ hlocal, Context.step]
    cases happly : c.apply action with
    | error fault => exact h
    | ok result => exact h.congr (apply_touches wf hlocal happly).isLive_eq
  have enters : ∀ f, Accounted { c with current := f } standing :=
    fun f => h.congr fun _ => rfl
  cases action with
  | openScope =>
    simp only [Context.step, ledger, apply_openScope wf]
    exact h.opened wf c.current
  | openIn p =>
    by_cases hp : c.tree.isLive p = true
    · simp only [Context.step, ledger, apply_openIn_of_live hp]
      exact h.opened wf p
    · simp only [Context.step, ledger, apply_openIn_of_not_live hp]
      exact h
  | closeScope =>
    cases hp : c.tree.parent? c.current with
    | none =>
      -- The root is never struck off, for it does not stand in the ledger.
      have hroot : c.current = FrameId.root := Decidable.byContradiction fun hne => by
        obtain ⟨p, hp'⟩ := wf.tree.parent_of_ne_root wf.current_lt hne
        cases hp.symm.trans hp'
      have herase : standing.erase c.current = standing :=
        List.erase_of_not_mem (hroot ▸ (List.nodup_cons.1 h.nodup).1)
      simp only [Context.step, ledger, apply_closeScope_of_root wf hp]
      simp only [herase, ite_self]
      exact h
    | some p =>
      obtain ⟨u, hu, hreleased⟩ := apply_closeScope_of_parent wf hp
      simp only [Context.step, ledger, hu]
      exact h.closed wf hp hreleased
  | enter f =>
    by_cases hf : c.tree.isLive f = true
    · simp only [Context.step, ledger, apply, enter_of_live hf]
      exact enters f
    · simp only [Context.step, ledger, apply, enter_of_not_live hf]
      exact h
  | restore f =>
    by_cases hf : c.tree.isLive f = true
    · simp only [Context.step, ledger, apply, enter_of_live hf]
      exact enters f
    · simp only [Context.step, ledger, apply, enter_of_not_live hf]
      exact h
  | _ => exact absurd rfl hlocal

theorem after (wf : c.WF) (actions : List (ContextAction Symbol V)) :
    Accounted (c.after actions) (c.standing isSpent standing actions) := by
  induction actions generalizing c standing with
  | nil => exact h
  | cons action actions ih => exact ih (h.step wf action) ((step_moves wf action).wf wf)

/-- A frame that does not stand holds nothing. -/
theorem stands_of_held (wf : c.WF) {f : FrameId} {name : Symbol} {cell : Cell V}
    (hheld : c.tree.held f name = some cell) : f = FrameId.root ∨ f ∈ standing := by
  obtain ⟨frame, hframe, hcell⟩ := Option.bind_eq_some_iff.1 hheld
  refine h.live_iff.1 (isLive_iff.2 ⟨frame, hframe, ?_⟩)
  cases hretired : frame.retired with
  | false => rfl
  | true =>
    rw [(wf.bare hframe hretired).1] at hcell
    cases hcell

/-- The newest frame is live, so no slot outlasts the scopes that stand. -/
theorem size_eq_one_iff (wf : c.WF) : c.tree.size = 1 ↔ standing = [] := by
  constructor
  · intro hsize
    rw [List.eq_nil_iff_forall_not_mem]
    intro f hf
    have hlt := lt_of_isLive (h.live_iff.2 (.inr hf))
    obtain rfl : f = FrameId.root := Nat.lt_one_iff.1 (hsize ▸ hlt)
    exact (List.nodup_cons.1 h.nodup).1 hf
  · rintro rfl
    have hnewest : c.tree.size - 1 = FrameId.root :=
      (h.live_iff.1 wf.tree.newest_live).resolve_right List.not_mem_nil
    have hpos := wf.tree.size_pos
    rw [show FrameId.root = 0 from rfl] at hnewest
    omega

end Accounted

/-- At every moment the live frames are the root and the scopes that were opened and not left for
good, each once; the other slots hold nothing; and when no such scope is left, there is only the
root. -/
theorem accounted_after (actions : List (ContextAction Symbol V)) :
    let c : Context V := new.after actions
    let standing := new.standing isSpent [] actions
    (∀ f, c.tree.isLive f = true ↔ f = FrameId.root ∨ f ∈ standing) ∧
      (FrameId.root :: standing).Nodup ∧
      (∀ f name cell, c.tree.held f name = some cell → f = FrameId.root ∨ f ∈ standing) ∧
      (c.tree.size = 1 ↔ standing = []) := by
  have wf : (new.after actions : Context V).WF := wf_new.after actions
  have h := accounted_new.after wf_new actions
  exact ⟨fun _ => h.live_iff, h.nodup, fun _ _ _ => h.stands_of_held wf, h.size_eq_one_iff wf⟩

/-- A scope that holds one name is left while a newer one is inside it, and then the newer one is
left as well. -/
def exitOutOfOrder (name : Symbol) : List (ContextAction Symbol Bool) :=
  [.openScope, .define name true, .openIn 1, .enter 1, .closeScope, .enter 2, .closeScope,
    .restore FrameId.root]

/-- Both scopes were left while they were current, nothing was captured, no action was a fault and
execution is back in the root: the outer frame is still there, with what it held. -/
theorem exit_leaves_frame :
    let actions := exitOutOfOrder ⟨1⟩
    let c := new.after actions
    (.capture ∉ actions ∧ ∀ k < actions.length, ∀ action ∈ actions[k]?,
        ((new.after (actions.take k)).step action).1.isOk = true) ∧
      new.standing (fun _ => true) [] actions = [] ∧ c.current = FrameId.root ∧
      c.tree.size = 2 ∧ c.tree.held 1 ⟨1⟩ = some (.holds true) := by decide

end Scoping.Context
