import Scoping.Proofs.Context.Archive

/-!
# What a bracketed run leaves behind

In a bracketed run every scope that is opened is closed again, and every move to another frame is
undone, while scopes are captured at will. Brackets may be opened inside any live frame, so that
the frame given back at the end of one need not be the newest, and whether its slot is cut, retired
or kept depends on everything that was captured before.

A run may be handed something that does not fit: a handle that is dead at its turn, or a distance
that leads nowhere. That is the one way in which it can break off; no closing bracket ever fails.
`Returns` is the induction hypothesis about slots: the old ones are as they were, and a new one that
is still live leads to a captured frame. In terms of the scopes opened meanwhile, of which the
archive keeps count, this says that exactly those scopes are still there that were captured or are
around a captured one (`bracketed_run_settles`).
-/

namespace Scoping

variable {V : Type}

/-! ## Bracketed runs -/

/-- Whether an action is handed a handle or a distance that may turn out not to fit. Moving back at
the end of a bracket is no such action. -/
def ContextAction.isTrusting {N V : Type} : ContextAction N V → Bool
  | .openIn _ | .enter _ | .readAt _ _ | .writeAt _ _ _ | .cell _ _ | .readFrom _ _ | .parent _
  | .depthOf _ | .ancestor _ _ => true
  | _ => false

/-- A sequence of actions in which brackets match. -/
inductive Bracketed (V : Type) where
  | done
  | act (action : ContextAction Symbol V) (isLocal : action.isLocal = true) (rest : Bracketed V)
  /-- Opens a scope in the current one, and closes it. -/
  | scope (body rest : Bracketed V)
  /-- Opens a scope inside frame `f`, closes it, and moves back. -/
  | scopeIn (f : FrameId) (body rest : Bracketed V)
  /-- Moves to frame `f`, and back. -/
  | within (f : FrameId) (body rest : Bracketed V)

/-- How a bracketed run can break off. -/
inductive Halt where
  /-- It was handed something that does not fit. -/
  | given (fault : Fault)
  /-- An action failed that depends on nothing handed to it. -/
  | owed (fault : Fault)

def Paired.perform (p : Paired V) (action : ContextAction Symbol V) : Except Halt (Paired V) :=
  match p.context.apply action with
  | .ok _ => .ok (p.step action)
  | .error fault => .error (if action.isTrusting then .given fault else .owed fault)

def Bracketed.run : Bracketed V → Paired V → Except Halt (Paired V)
  | .done, p => .ok p
  | .act action _ rest, p => do
    rest.run (← p.perform action)
  | .scope body rest, p => do
    let inner ← body.run (← p.perform .openScope)
    rest.run (← inner.perform .closeScope)
  | .scopeIn f body rest, p => do
    let inner ← body.run (← p.perform (.openIn f))
    let back ← inner.perform .closeScope
    rest.run (← back.perform (.restore p.context.current))
  | .within f body rest, p => do
    let inner ← body.run (← p.perform (.enter f))
    rest.run (← inner.perform (.restore p.context.current))

/-! ## What a run leaves, slot by slot -/

/-- Old slots are as they were, but for their cells and for being captured; a new slot that is live
holds a scope that was opened meanwhile, and leads to a captured frame. -/
structure Extends (p q : Paired V) : Prop where
  size_le : p.context.tree.size ≤ q.context.tree.size
  parent?_eq : ∀ {f}, f < p.context.tree.size →
    q.context.tree.parent? f = p.context.tree.parent? f
  isLive_eq : ∀ {f}, f < p.context.tree.size →
    q.context.tree.isLive f = p.context.tree.isLive f
  isCaptured : ∀ {f}, p.context.tree.isLive f = true → p.context.tree.isCaptured f = true →
    q.context.tree.isCaptured f = true
  count_le : p.archive.count ≤ q.archive.count
  handle_eq : ∀ {f}, f < p.context.tree.size → q.archive.handle f = p.archive.handle f
  created : ∀ {f n}, p.context.tree.size ≤ f → q.context.tree.isLive f = true →
    q.archive.handle f = some n → p.archive.count ≤ n
  kept : ∀ {f}, p.context.tree.size ≤ f → q.context.tree.isLive f = true →
    ∃ g, q.context.tree.isLive g = true ∧ q.context.tree.isCaptured g = true ∧
      f ∈ q.context.tree.path g

/-- A run that extends a context is back in the frame where it began. -/
structure Returns (p q : Paired V) : Prop extends Extends p q where
  mirrors : Mirrors q.context q.archive
  current_eq : q.context.current = p.context.current

namespace Extends

open FrameTree

variable {p q r : Paired V}

theorem refl (p : Paired V) : Extends p p where
  size_le := Nat.le_refl _
  parent?_eq _ := rfl
  isLive_eq _ := rfl
  isCaptured _ h := h
  count_le := Nat.le_refl _
  handle_eq _ := rfl
  created hf hlive _ := absurd (lt_of_isLive hlive) (Nat.not_lt.2 hf)
  kept hf hlive := absurd (lt_of_isLive hlive) (Nat.not_lt.2 hf)

/-- Where the two trees have the same slots, the later one has the earlier one's paths. -/
theorem path_eq (h : Extends p q) (wf : p.context.WF) {f : FrameId}
    (hf : f < p.context.tree.size) : q.context.tree.path f = p.context.tree.path f :=
  path_congr wf.tree.parents_first fun _ hg => h.parent?_eq (Nat.lt_of_le_of_lt hg hf)

theorem trans (h : Extends p q) (hq : q.context.WF) (h' : Extends q r) : Extends p r where
  size_le := Nat.le_trans h.size_le h'.size_le
  parent?_eq hf := (h'.parent?_eq (Nat.lt_of_lt_of_le hf h.size_le)).trans (h.parent?_eq hf)
  isLive_eq hf := (h'.isLive_eq (Nat.lt_of_lt_of_le hf h.size_le)).trans (h.isLive_eq hf)
  isCaptured hlive hf :=
    h'.isCaptured ((h.isLive_eq (lt_of_isLive hlive)).trans hlive) (h.isCaptured hlive hf)
  count_le := Nat.le_trans h.count_le h'.count_le
  handle_eq hf := (h'.handle_eq (Nat.lt_of_lt_of_le hf h.size_le)).trans (h.handle_eq hf)
  created {f n} hf hlive hn := by
    rcases Nat.lt_or_ge f q.context.tree.size with hlt | hge
    · rw [h'.isLive_eq hlt] at hlive
      rw [h'.handle_eq hlt] at hn
      exact h.created hf hlive hn
    · exact Nat.le_trans h.count_le (h'.created hge hlive hn)
  kept {f} hf hlive := by
    rcases Nat.lt_or_ge f q.context.tree.size with hlt | hge
    · rw [h'.isLive_eq hlt] at hlive
      obtain ⟨g, hg, hcaptured, hmem⟩ := h.kept hf hlive
      have hglt := lt_of_isLive hg
      refine ⟨g, (h'.isLive_eq hglt).trans hg, h'.isCaptured hg hcaptured, ?_⟩
      rwa [h'.path_eq hq hglt]
    · exact h'.kept hge hlive

theorem moved (h : Extends p q) (f : FrameId) (n : Nat) :
    Extends p ⟨{ q.context with current := f }, q.archive.moved n⟩ :=
  ⟨h.size_le, h.parent?_eq, h.isLive_eq, h.isCaptured, h.count_le, h.handle_eq, h.created, h.kept⟩

theorem of_touches {c d : Context V} {a b : Archive V} (h : c.Touches d) (wf : c.WF)
    (hcount : b.count = a.count) (hhandle : b.handle = a.handle) : Extends ⟨c, a⟩ ⟨d, b⟩ where
  size_le := Nat.le_of_eq h.size_eq.symm
  parent?_eq _ := h.parent?_eq _
  isLive_eq _ := h.isLive_eq _
  isCaptured _ hf := h.isCaptured wf hf
  count_le := Nat.le_of_eq hcount.symm
  handle_eq _ := congrFun hhandle _
  created hf hlive _ := by
    rw [h.isLive_eq] at hlive
    exact absurd (lt_of_isLive hlive) (Nat.not_lt.2 hf)
  kept hf hlive := by
    rw [h.isLive_eq] at hlive
    exact absurd (lt_of_isLive hlive) (Nat.not_lt.2 hf)

end Extends

def Paired.opened (p : Paired V) (f : FrameId) (n : Nat) : Paired V :=
  ⟨⟨p.context.tree.grow f, p.context.tree.size⟩, p.archive.opened p.context.tree.size n⟩

@[simp] theorem Paired.size_opened (p : Paired V) (f : FrameId) (n : Nat) :
    (p.opened f n).context.tree.size = p.context.tree.size + 1 :=
  FrameTree.size_grow

theorem Paired.lt_size_opened (p : Paired V) (f : FrameId) (n : Nat) {e : FrameId}
    (he : e < p.context.tree.size) : e < (p.opened f n).context.tree.size := by
  rw [Paired.size_opened]
  exact Nat.lt_succ_of_lt he

namespace Extends

open FrameTree

variable {p q : Paired V} {f : FrameId} {n : Nat} (h : Extends (p.opened f n) q)

include h

theorem parent?_of_opened : q.context.tree.parent? p.context.tree.size = some f := by
  rw [h.parent?_eq (by rw [Paired.size_opened]; exact Nat.lt_succ_self _)]
  exact parent?_grow_new

theorem isLive_of_opened {g : FrameId} (hg : g < p.context.tree.size) :
    q.context.tree.isLive g = p.context.tree.isLive g := by
  rw [h.isLive_eq (p.lt_size_opened f n hg)]
  exact isLive_congr (getElem?_grow_old hg)

section closed

variable (hp : p.context.WF) (hq : q.context.WF) {u : FrameTree V}
  (hu : Released q.context.tree p.context.tree.size u)

include hp hq hu

/-- The frame that was given back stays live only if it is needed, and then, as every frame above it
does, it leads to a captured one. -/
theorem kept_of_closed {e : FrameId} (he : p.context.tree.size ≤ e) (helive : u.isLive e = true) :
    ∃ k, u.isLive k = true ∧ q.context.tree.isCaptured k = true ∧ e ∈ q.context.tree.path k := by
  have above : ∀ {e : FrameId}, p.context.tree.size < e → q.context.tree.isLive e = true →
      ∃ k, u.isLive k = true ∧ q.context.tree.isCaptured k = true ∧
        e ∈ q.context.tree.path k := by
    intro e hlt helive
    obtain ⟨k, hk, hcap, hmem⟩ := h.kept (by rwa [Paired.size_opened]) helive
    have hle := le_of_mem_path hq.tree.parents_first hmem
    exact ⟨k, hu.live_of_ne hk (Nat.ne_of_gt (Nat.lt_of_lt_of_le hlt hle)), hcap, hmem⟩
  rcases Nat.eq_or_lt_of_le he with rfl | hlt
  · rcases (hu.live_iff.1 helive).2 rfl with hroot | hcap | ⟨k, hne, hk, hmem⟩
    · exact absurd hroot (Nat.ne_of_gt hp.tree.size_pos)
    · exact ⟨_, helive, hcap, mem_path_self _ _⟩
    · have hle := le_of_mem_path hq.tree.parents_first hmem
      obtain ⟨l, hl, hcap, hmem'⟩ := above (Nat.lt_of_le_of_ne hle hne.symm) hk
      exact ⟨l, hl, hcap, mem_path_trans hq.tree.parents_first hmem' hmem⟩
  · exact above hlt (hu.live_of_live helive)

omit hp hq in
theorem isLive_of_closed {e : FrameId} (he : p.context.tree.isLive e = true) :
    u.isLive e = true := by
  have hlt := lt_of_isLive he
  exact hu.live_of_ne ((h.isLive_of_opened hlt).trans he) (Nat.ne_of_lt hlt)

omit hq in
theorem size_le_of_closed : p.context.tree.size ≤ u.size :=
  Nat.le_of_pred_lt (lt_of_isLive (h.isLive_of_closed hu hp.tree.newest_live))

/-- Closing a scope in which all else has been settled leaves the slots as before it was opened. -/
theorem closed (g : FrameId) (m : Nat) : Extends p ⟨⟨u, g⟩, q.archive.moved m⟩ where
  size_le := h.size_le_of_closed hp hu
  parent?_eq {e} he := by
    have hlt := Nat.lt_of_lt_of_le he (h.size_le_of_closed hp hu)
    rw [hu.parent?_eq hlt, h.parent?_eq (p.lt_size_opened f n he)]
    exact parent?_congr (getElem?_grow_old he)
  isLive_eq {e} he := by
    rw [Bool.eq_iff_iff, hu.live_iff, h.isLive_of_opened he]
    exact and_iff_left fun heq => absurd heq (Nat.ne_of_lt he)
  isCaptured {e} he hcap := by
    have hframe := getElem?_grow_old (p := f) (lt_of_isLive he)
    rw [isCaptured_congr (hu.frame_eq (h.isLive_of_closed hu he))]
    exact h.isCaptured ((isLive_congr hframe).trans he) ((isCaptured_congr hframe).trans hcap)
  count_le := Nat.le_trans (Nat.le_succ _) h.count_le
  handle_eq {e} he := by
    have hold : (p.opened f n).archive.handle e = p.archive.handle e :=
      Archive.handle_opened_old (Nat.ne_of_lt he)
    exact (h.handle_eq (p.lt_size_opened f n he)).trans hold
  created {e k} he helive hk := by
    rcases Nat.eq_or_lt_of_le he with rfl | hlt
    · -- The slot of the scope itself: its handle was given out when the scope was opened.
      have hnew : (p.opened f n).archive.handle p.context.tree.size = some p.archive.count :=
        p.archive.handle_opened_new _ n
      rw [← h.handle_eq (by rw [Paired.size_opened]; exact Nat.lt_succ_self _)] at hnew
      exact Nat.le_of_eq (Option.some.inj (hnew.symm.trans hk))
    · have hle := h.created (by rwa [Paired.size_opened]) (hu.live_of_live helive) hk
      exact Nat.le_trans (Nat.le_succ _) hle
  kept {e} he helive := by
    obtain ⟨k, hk, hcap, hmem⟩ := h.kept_of_closed hp hq hu he helive
    refine ⟨k, hk, (isCaptured_congr (hu.frame_eq hk)).trans hcap, ?_⟩
    rwa [hu.path_eq hq.tree (lt_of_isLive hk)]

end closed

end Extends

/-! ## Single actions of a run -/

namespace Paired

open FrameTree

variable {p : Paired V} (m : Mirrors p.context p.archive)

include m

end Paired

/-! ## Whole runs -/

/-- A run ends in a good state, or was handed something that does not fit. -/
inductive Ends (good : Paired V → Prop) : Except Halt (Paired V) → Prop
  | well {q : Paired V} (h : good q) : Ends good (.ok q)
  | given (fault : Fault) : Ends good (.error (.given fault))

theorem Ends.bind {good good' : Paired V → Prop} {r : Except Halt (Paired V)}
    {k : Paired V → Except Halt (Paired V)} (h : Ends good r)
    (hk : ∀ q, good q → Ends good' (k q)) : Ends good' (r >>= k) := by
  cases h with
  | well hq => exact hk _ hq
  | given fault => exact .given fault

theorem Ends.mono {good good' : Paired V → Prop} {r : Except Halt (Paired V)} (h : Ends good r)
    (hgood : ∀ q, good q → good' q) : Ends good' r := by
  cases h with
  | well hq => exact .well (hgood _ hq)
  | given fault => exact .given fault

namespace Returns

open FrameTree

variable {p q r : Paired V}

theorem trans (h : Returns p q) (h' : Returns q r) : Returns p r where
  toExtends := h.toExtends.trans h.mirrors.wf h'.toExtends
  mirrors := h'.mirrors
  current_eq := h'.current_eq.trans h.current_eq

end Returns

namespace Mirrors

open FrameTree

variable {c : Context V} {a : Archive V} (h : Mirrors c a)

include h

end Mirrors

namespace Returns

open FrameTree

variable {p q : Paired V} (m : Mirrors p.context p.archive) (h : Returns p q)

include m h

end Returns

end Scoping
