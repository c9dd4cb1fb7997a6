import Mathlib.Logic.Function.Basic
import Scoping.Proofs.Context.Reachable

/-!
# Giving back frames cannot be observed

An archive keeps every scope that was ever opened: scopes are numbered in the order of opening, none
is given back, none loses its cells, and leaving a scope only moves to the one around it. A position
of a frame stands for the scope that was opened last under it. `Paired` runs a context and an
archive side by side. Three kinds of actions are given a handle, and the archive skips those of them
that the context rejects because the handle is dead (`rejects_eq`); it skips no others.

The context reuses slots, so that one position stands for many scopes in the course of a run.
`Mirrors` relates the two: each *live* frame is the scope that its position stands for, with the
same scopes around it and the same cells. Nothing is said about retired frames, and nothing needs to
be, because no path of a live frame meets one. Hence the two always agree on what can be seen
(`agrees_after`).
-/

namespace Scoping

variable {V : Type}

/-! ## The archive -/

/-- All scopes ever opened. -/
structure Archive (V : Type) where
  count : Nat
  /-- The scopes around each scope, the innermost first. -/
  around : Nat → List Nat
  cells : Nat → Symbol → Option (Cell V)
  captured : Nat → Bool
  /-- The scope opened last under each position. -/
  handle : FrameId → Option Nat
  current : Nat

namespace Archive

def new : Archive V where
  count := 1
  around _ := []
  cells _ _ := none
  captured _ := false
  handle f := if f = FrameId.root then some 0 else none
  current := 0

/-- A scope and the scopes around it. -/
def chain (a : Archive V) (n : Nat) : List Nat := n :: a.around n

/-- A scope opened inside scope `n`, under a position. -/
def opened (a : Archive V) (fresh : FrameId) (n : Nat) : Archive V where
  count := a.count + 1
  around := Function.update a.around a.count (a.chain n)
  cells := Function.update a.cells a.count fun _ => none
  captured := Function.update a.captured a.count false
  handle := Function.update a.handle fresh (some a.count)
  current := a.count

/-- Back in the scope around the current one, if there is one. -/
def left (a : Archive V) : Archive V :=
  match a.around a.current with
  | [] => a
  | n :: _ => { a with current := n }

def moved (a : Archive V) (n : Nat) : Archive V := { a with current := n }

def kept (a : Archive V) : Archive V :=
  { a with captured := Function.update a.captured a.current true }

def stored (a : Archive V) (n : Nat) (name : Symbol) (cell : Cell V) : Archive V :=
  { a with cells := Function.update a.cells n (Function.update (a.cells n) name (some cell)) }

def nearest (a : Archive V) (name : Symbol) : Option (Nat × Cell V) :=
  (a.chain a.current).findSome? fun n => (a.cells n name).map (n, ·)

def atDistance (a : Archive V) (distance : Nat) (name : Symbol) : Option (Nat × Cell V) :=
  (a.chain a.current)[distance]?.bind fun n => (a.cells n name).map (n, ·)

/-- The archive after an action; a scope opened by it is opened under the position `fresh`. -/
def act (a : Archive V) (fresh : FrameId) : ContextAction Symbol V → Archive V
  | .openScope => a.opened fresh a.current
  | .openIn p =>
    match a.handle p with
    | some n => a.opened fresh n
    | none => a
  | .closeScope => a.left
  | .enter f | .restore f =>
    match a.handle f with
    | some n => a.moved n
    | none => a
  | .capture => a.kept
  | .declare name => a.stored a.current name .unassigned
  | .define name value => a.stored a.current name (.holds value)
  | .write who value =>
    match a.nearest who.name with
    | some (n, _) => a.stored n who.name (.holds value)
    | none => a
  | .writeAt distance who value =>
    match a.atDistance distance who.name with
    | some (n, _) => a.stored n who.name (.holds value)
    | none => a
  | .read _ | .readAt _ _ | .cell _ _ | .readFrom _ _ | .isLive _ | .parent _ | .depthOf _
  | .ancestor _ _ => a

theorem handle_new {f : FrameId} {n : Nat} (h : (new : Archive V).handle f = some n) :
    f = FrameId.root ∧ n = 0 := by
  have h' : (if f = FrameId.root then some 0 else none) = some n := h
  by_cases hroot : f = FrameId.root
  · rw [if_pos hroot] at h'
    exact ⟨hroot, (Option.some.inj h').symm⟩
  · rw [if_neg hroot] at h'
    cases h'

section opened

variable (a : Archive V) (fresh : FrameId) (n : Nat)

theorem handle_opened_new : (a.opened fresh n).handle fresh = some a.count :=
  Function.update_self ..

theorem chain_opened_new : (a.opened fresh n).chain a.count = a.count :: a.chain n :=
  congrArg _ (Function.update_self ..)

theorem cells_opened_new (name : Symbol) : (a.opened fresh n).cells a.count name = none := by
  have hcells : (a.opened fresh n).cells a.count = fun _ => none := Function.update_self ..
  rw [hcells]

theorem captured_opened_new : (a.opened fresh n).captured a.count = false :=
  Function.update_self ..

variable {a fresh n}

theorem handle_opened_old {f : FrameId} (h : f ≠ fresh) :
    (a.opened fresh n).handle f = a.handle f :=
  Function.update_of_ne h ..

theorem chain_opened_old {m : Nat} (h : m ≠ a.count) :
    (a.opened fresh n).chain m = a.chain m :=
  congrArg _ (Function.update_of_ne h ..)

theorem cells_opened_old {m : Nat} (h : m ≠ a.count) (name : Symbol) :
    (a.opened fresh n).cells m name = a.cells m name :=
  congrFun (Function.update_of_ne h ..) name

theorem captured_opened_old {m : Nat} (h : m ≠ a.count) :
    (a.opened fresh n).captured m = a.captured m :=
  Function.update_of_ne h ..

end opened

end Archive

/-! ## What can be seen -/

inductive Access (A : Type) where
  | done (a : A)
  | failed (problem : AccessProblem)
  /-- The distance does not belong to this nesting of scopes. -/
  | mismatch
deriving DecidableEq

/-- How an access ended; a fault that is no mismatch is no end that an access may have. -/
def Access.of? {A : Type} : Except (Interruption AccessError) A → Option (Access A)
  | .ok a => some (.done a)
  | .error (.error e) => some (.failed e.problem)
  | .error (.fault (.pastRoot _ _ _)) | .error (.fault (.notDeclared _ _ _)) => some .mismatch
  | .error (.fault _) => none

def Cell.access : Cell V → Access V
  | .holds value => .done value
  | .unassigned => .failed .unassigned

namespace Archive

/-- The number of scopes from the current one to the root, both included. -/
def depth (a : Archive V) : Nat := (a.chain a.current).length

def read (a : Archive V) (name : Symbol) : Access V :=
  match a.nearest name with
  | some (_, cell) => cell.access
  | none => .failed .undeclared

def write (a : Archive V) (name : Symbol) : Access Unit :=
  match a.nearest name with
  | some _ => .done ()
  | none => .failed .undeclared

def readAt (a : Archive V) (distance : Nat) (name : Symbol) : Access V :=
  match a.atDistance distance name with
  | some (_, cell) => cell.access
  | none => .mismatch

def writeAt (a : Archive V) (distance : Nat) (name : Symbol) : Access Unit :=
  match a.atDistance distance name with
  | some _ => .done ()
  | none => .mismatch

end Archive

/-- The handle that an action is given, to open a scope in its frame or to move there. -/
def ContextAction.handle? {N : Type} : ContextAction N V → Option FrameId
  | .openIn f | .enter f | .restore f => some f
  | _ => none

/-- Whether an action that is given a handle is rejected because the handle is dead. -/
def Context.rejects (c : Context V) (action : ContextAction Symbol V) : Bool :=
  match action, c.apply action with
  | .openIn _, .error (.deadParent _ _) => true
  | .enter _, .error (.deadFrame _) | .restore _, .error (.deadFrame _) => true
  | _, _ => false

/-- A context and an archive that show the same. -/
structure Agrees (c : Context V) (a : Archive V) : Prop where
  /-- Nothing is rejected but what is given the handle of a frame that is not live. -/
  rejects : ∀ action, c.rejects action = action.handle?.any fun f => !c.tree.isLive f
  depth : c.depth = .ok a.depth
  read : ∀ who, Access.of? (c.read who) = some (a.read who.name)
  write : ∀ who value,
    Access.of? ((fun _ => ()) <$> c.write who value) = some (a.write who.name)
  readAt : ∀ distance who,
    Access.of? (c.readAt distance who) = some (a.readAt distance who.name)
  writeAt : ∀ distance who value,
    Access.of? (Interruption.lift ((fun _ => ()) <$> c.writeAt distance who value)) =
      some (a.writeAt distance who.name)

/-! ## Running both -/

structure Paired (V : Type) where
  context : Context V
  archive : Archive V

namespace Paired

def new : Paired V := ⟨.new, .new⟩

/-- One action on both. An action whose handle is rejected is skipped in the archive; a scope that
is opened stands under the position that the context gave it. -/
def step (p : Paired V) (action : ContextAction Symbol V) : Paired V where
  context := (p.context.step action).2
  archive :=
    if p.context.rejects action then p.archive
    else p.archive.act (p.context.step action).2.current action

/-- A context after actions from a fresh one, with its archive. -/
def after (actions : List (ContextAction Symbol V)) : Paired V := actions.foldl step new

end Paired

/-- A handle is rejected if its frame is not live, and no action is rejected for another reason. -/
theorem Context.rejects_eq (c : Context V) (action : ContextAction Symbol V) :
    c.rejects action = action.handle?.any fun f => !c.tree.isLive f := by
  cases action with
  | openIn p =>
    by_cases hp : c.tree.isLive p = true
    · simp [rejects, ContextAction.handle?, apply_openIn_of_live hp, hp]
    · simp [rejects, ContextAction.handle?, apply_openIn_of_not_live hp, hp]
  | enter f | restore f =>
    by_cases hf : c.tree.isLive f = true
    · simp only [rejects, ContextAction.handle?, apply, enter_of_live hf, Option.any_some, hf]
      rfl
    · simp only [rejects, ContextAction.handle?, apply, enter_of_not_live hf, Option.any_some, hf]
      rfl
  | _ => rfl

/-! ## Live frames are the scopes that they stand for -/

/-- Frame `f` is scope `n`: the same scopes are around it, and it has the same cells. -/
structure Stands (t : FrameTree V) (a : Archive V) (f : FrameId) (n : Nat) : Prop where
  chain : (t.path f).map a.handle = (a.chain n).map some
  cells : ∀ name, t.held f name = a.cells n name
  captured : t.isCaptured f = a.captured n

/-- The simulation relation. Different positions stand for different scopes, so that a write to one
frame changes no other; and a scope that was captured is still there. -/
structure Mirrors (c : Context V) (a : Archive V) : Prop where
  wf : c.WF
  handle_lt : ∀ {f n}, a.handle f = some n → n < a.count
  handle_inj : ∀ {f g n}, a.handle f = some n → a.handle g = some n → f = g
  current : a.handle c.current = some a.current
  live : ∀ {f}, c.tree.isLive f = true → ∃ n, a.handle f = some n ∧ Stands c.tree a f n
  captured_live : ∀ {n}, a.captured n = true → ∃ f, c.tree.isLive f = true ∧ a.handle f = some n

namespace Mirrors

open FrameTree

variable {c : Context V} {a : Archive V} (h : Mirrors c a)

theorem fresh : Mirrors (Context.new : Context V) Archive.new where
  wf := Context.wf_new
  handle_lt hf := by
    rw [(Archive.handle_new hf).2]
    exact Nat.one_pos
  handle_inj hf hg := (Archive.handle_new hf).1.trans (Archive.handle_new hg).1.symm
  current := rfl
  live {f} hf := by
    obtain rfl : f = 0 := Nat.lt_one_iff.1 (lt_of_isLive hf)
    exact ⟨0, rfl, rfl, fun _ => rfl, rfl⟩
  captured_live hn := by cases hn

include h

theorem stands {f : FrameId} {n : Nat} (hf : c.tree.isLive f = true)
    (hn : a.handle f = some n) : Stands c.tree a f n := by
  obtain ⟨m, hm, hstands⟩ := h.live hf
  rw [hn] at hm
  cases hm
  exact hstands

theorem stands_current : Stands c.tree a c.current a.current :=
  h.stands h.wf.current_live h.current

/-- The frames on the path of a live frame stand for the scopes of a chain, place by place. -/
theorem path_getElem? {f : FrameId} {n : Nat} (hf : c.tree.isLive f = true)
    (hn : a.handle f = some n) (i : Nat) :
    (c.tree.path f)[i]? = none ∧ (a.chain n)[i]? = none ∨
      ∃ g m, (c.tree.path f)[i]? = some g ∧ (a.chain n)[i]? = some m ∧ a.handle g = some m := by
  have heq := congrArg (·[i]?) (h.stands hf hn).chain
  simp only [List.getElem?_map] at heq
  cases hg : (c.tree.path f)[i]? with
  | none =>
    rw [hg, Option.map_none, eq_comm, Option.map_eq_none_iff] at heq
    exact .inl ⟨rfl, heq⟩
  | some g =>
    rw [hg, Option.map_some, eq_comm, Option.map_eq_some_iff] at heq
    obtain ⟨m, hm, hgm⟩ := heq
    exact .inr ⟨g, m, rfl, hm, hgm.symm⟩

/-! ### Opening a scope -/

/-- The slot after the last one holds no frame of any path, so that its handle is free. -/
theorem map_handle_opened {f : FrameId} (hf : f < c.tree.size) (n : Nat) :
    (c.tree.path f).map (a.opened c.tree.size n).handle = (c.tree.path f).map a.handle := by
  apply List.map_congr_left
  intro g hg
  exact Archive.handle_opened_old (Nat.ne_of_lt (h.wf.tree.lt_size_of_mem_path hf hg))

theorem stands_opened_old {p f : FrameId} {n m : Nat} (hf : f < c.tree.size)
    (hm : a.handle f = some m) (hstands : Stands c.tree a f m) :
    Stands (c.tree.grow p) (a.opened c.tree.size n) f m := by
  have hframe := getElem?_grow_old (p := p) hf
  have hne : m ≠ a.count := Nat.ne_of_lt (h.handle_lt hm)
  refine ⟨?_, ?_, ?_⟩
  · rw [h.wf.tree.path_grow_old hf, h.map_handle_opened hf, hstands.chain,
      Archive.chain_opened_old hne]
  · intro name
    rw [held_congr hframe, hstands.cells, Archive.cells_opened_old hne]
  · rw [isCaptured_congr hframe, hstands.captured, Archive.captured_opened_old hne]

theorem stands_opened_new {p : FrameId} {n : Nat} (hp : c.tree.isLive p = true)
    (hn : a.handle p = some n) :
    Stands (c.tree.grow p) (a.opened c.tree.size n) c.tree.size a.count := by
  refine ⟨?_, ?_, ?_⟩
  · rw [h.wf.tree.path_grow_new hp, List.map_cons, Archive.handle_opened_new,
      h.map_handle_opened (lt_of_isLive hp), (h.stands hp hn).chain, Archive.chain_opened_new,
      List.map_cons]
  · intro name
    rw [held_of_frame getElem?_grow_new, Archive.cells_opened_new]
    rfl
  · rw [isCaptured_of_frame getElem?_grow_new, Archive.captured_opened_new]
    rfl

theorem opened {p : FrameId} {n : Nat} (hp : c.tree.isLive p = true)
    (hn : a.handle p = some n) :
    Mirrors ⟨c.tree.grow p, c.tree.size⟩ (a.opened c.tree.size n) := by
  have hnew := a.handle_opened_new c.tree.size n
  have hcases : ∀ {f m}, (a.opened c.tree.size n).handle f = some m →
      f = c.tree.size ∧ m = a.count ∨ a.handle f = some m := by
    intro f m hf
    by_cases hne : f = c.tree.size
    · rw [hne, hnew] at hf
      exact .inl ⟨hne, (Option.some.inj hf).symm⟩
    · rw [Archive.handle_opened_old hne] at hf
      exact .inr hf
  refine ⟨(Context.Moves.opened hp).wf h.wf, ?_, ?_, hnew, ?_, ?_⟩
  · intro f m hf
    rcases hcases hf with ⟨-, rfl⟩ | hf
    · exact Nat.lt_succ_self _
    · exact Nat.lt_succ_of_lt (h.handle_lt hf)
  · -- The new scope has a number of its own, so that no other position stands for it.
    intro f g m hf hg
    rcases hcases hf with ⟨rfl, rfl⟩ | hf' <;> rcases hcases hg with ⟨rfl, heq⟩ | hg'
    · rfl
    · exact absurd (h.handle_lt hg') (Nat.lt_irrefl _)
    · exact absurd (h.handle_lt hf') (heq ▸ Nat.lt_irrefl _)
    · exact h.handle_inj hf' hg'
  · intro f hf
    rcases lt_or_eq_of_lt_grow (lt_of_isLive hf) with hlt | rfl
    · rw [isLive_congr (getElem?_grow_old hlt)] at hf
      obtain ⟨m, hm, hstands⟩ := h.live hf
      exact ⟨m, (Archive.handle_opened_old (Nat.ne_of_lt hlt)).trans hm,
        h.stands_opened_old hlt hm hstands⟩
    · exact ⟨a.count, hnew, h.stands_opened_new hp hn⟩
  · intro m hm
    have hne : m ≠ a.count := by
      rintro rfl
      rw [Archive.captured_opened_new] at hm
      cases hm
    rw [Archive.captured_opened_old hne] at hm
    obtain ⟨f, hf, hfm⟩ := h.captured_live hm
    have hlt := lt_of_isLive hf
    refine ⟨f, ?_, (Archive.handle_opened_old (Nat.ne_of_lt hlt)).trans hfm⟩
    rwa [isLive_congr (getElem?_grow_old hlt)]

/-! ### Leaving a scope, moving to another -/

theorem moved {f : FrameId} {n : Nat} (hf : c.tree.isLive f = true)
    (hn : a.handle f = some n) : Mirrors { c with current := f } (a.moved n) where
  wf := (Context.Moves.entered hf).wf h.wf
  handle_lt := h.handle_lt
  handle_inj := h.handle_inj
  current := hn
  live hg := by
    obtain ⟨m, hm, hstands⟩ := h.live hg
    exact ⟨m, hm, hstands.chain, hstands.cells, hstands.captured⟩
  captured_live := h.captured_live

theorem left_of_root (hp : c.tree.parent? c.current = none) : a.left = a := by
  have hchain := h.stands_current.chain
  rw [path_of_parent?_eq_none hp, Archive.chain, List.map_cons, List.map_cons] at hchain
  have haround : a.around a.current = [] :=
    List.map_eq_nil_iff.1 (List.cons.inj hchain).2.symm
  rw [Archive.left, haround]

theorem left_of_parent {p : FrameId} (hp : c.tree.parent? c.current = some p) :
    ∃ n, a.handle p = some n ∧ a.left = a.moved n := by
  have hchain := h.stands_current.chain
  obtain ⟨rest, hrest⟩ := head_path c.tree p
  rw [path_of_parent? h.wf.tree.parents_first hp, hrest, Archive.chain, List.map_cons,
    List.map_cons, List.map_cons] at hchain
  obtain ⟨n, scopes, haround, hn, -⟩ := List.map_eq_cons_iff.1 (List.cons.inj hchain).2.symm
  refine ⟨n, hn.symm, ?_⟩
  rw [Archive.left, haround]
  rfl

/-- Giving back the current frame is nothing to the archive: no other live frame is touched, and a
frame whose scope was captured stays live. -/
theorem closed {p : FrameId} {u : FrameTree V} {n : Nat}
    (hp : c.tree.parent? c.current = some p) (hu : Released c.tree c.current u)
    (hn : a.handle p = some n) : Mirrors ⟨u, p⟩ (a.moved n) where
  wf := (Context.Moves.closed hp hu).wf h.wf
  handle_lt := h.handle_lt
  handle_inj := h.handle_inj
  current := hn
  live {f} hf := by
    obtain ⟨m, hm, hstands⟩ := h.live (hu.live_of_live hf)
    have hframe := hu.frame_eq hf
    refine ⟨m, hm, ?_, fun name => ?_, ?_⟩
    · rw [hu.path_eq h.wf.tree (lt_of_isLive hf)]
      exact hstands.chain
    · rw [held_congr hframe]
      exact hstands.cells name
    · rw [isCaptured_congr hframe]
      exact hstands.captured
  captured_live {m} hm := by
    obtain ⟨f, hf, hfm⟩ := h.captured_live hm
    refine ⟨f, hu.live_iff.2 ⟨hf, fun heq => .inr (.inl ?_)⟩, hfm⟩
    rw [← heq, (h.stands hf hfm).captured]
    exact hm

/-! ### Changing a live frame -/

/-- A change of one live frame that is matched by a change of the scope that it stands for. -/
theorem updated {g : FrameId} {m : Nat} (hg : c.tree.isLive g = true) (hm : a.handle g = some m)
    (change : Frame V → Frame V) (hparent : ∀ frame, (change frame).parent = frame.parent)
    (hretired : ∀ frame, (change frame).retired = frame.retired)
    (cells : Nat → Symbol → Option (Cell V)) (captured : Nat → Bool)
    (hcells : ∀ {f n}, a.handle f = some n → Stands c.tree a f n →
      ∀ name, (c.tree.update g change).held f name = cells n name)
    (hcaptured : ∀ {f n}, a.handle f = some n → Stands c.tree a f n →
      (c.tree.update g change).isCaptured f = captured n)
    (hnew : ∀ {n}, captured n = true → a.captured n = true ∨ n = m) :
    Mirrors (c.withTree (c.tree.update g change)) { a with cells, captured } where
  wf := h.wf.update hg change hparent hretired
  handle_lt := h.handle_lt
  handle_inj := h.handle_inj
  current := h.current
  live {f} hf := by
    rw [Context.tree_withTree, isLive_update change hretired] at hf
    obtain ⟨n, hn, hstands⟩ := h.live hf
    refine ⟨n, hn, ?_, hcells hn hstands, hcaptured hn hstands⟩
    rw [Context.tree_withTree, h.wf.tree.path_update change hparent]
    exact hstands.chain
  captured_live {n} hn := by
    rcases hnew hn with hold | rfl
    · obtain ⟨f, hf, hfn⟩ := h.captured_live hold
      exact ⟨f, by rwa [Context.tree_withTree, isLive_update change hretired], hfn⟩
    · exact ⟨g, by rwa [Context.tree_withTree, isLive_update change hretired], hm⟩

theorem kept : Mirrors (c.withTree (c.tree.update c.current Frame.keep)) a.kept := by
  refine h.updated h.wf.current_live h.current Frame.keep (fun _ => rfl) (fun _ => rfl) a.cells
    (Function.update a.captured a.current true) ?_ ?_ ?_
  · intro f n hn hstands name
    rw [held_update Frame.keep fun _ => rfl]
    exact hstands.cells name
  · intro f n hn hstands
    rw [isCaptured_keep h.wf.current_lt]
    by_cases hf : f = c.current
    · subst hf
      rw [h.current] at hn
      rw [if_pos rfl, ← Option.some.inj hn, Function.update_self]
    · have hne : n ≠ a.current := by
        rintro rfl
        exact hf (h.handle_inj hn h.current)
      rw [if_neg hf, Function.update_of_ne hne]
      exact hstands.captured
  · intro n hn
    by_cases hne : n = a.current
    · exact .inr hne
    · rw [Function.update_of_ne hne] at hn
      exact .inl hn

theorem stored {g : FrameId} {m : Nat} (hg : c.tree.isLive g = true) (hm : a.handle g = some m)
    (name : Symbol) (cell : Cell V) :
    Mirrors (c.withTree (c.tree.update g (·.store name cell))) (a.stored m name cell) := by
  refine h.updated hg hm (·.store name cell) (fun _ => rfl) (fun _ => rfl) _ a.captured ?_ ?_
    fun hn => .inl hn
  · intro f n hn hstands name'
    rw [held_store (lt_of_isLive hg)]
    by_cases hf : f = g
    · subst hf
      obtain rfl : m = n := Option.some.inj (hm.symm.trans hn)
      rw [Function.update_self]
      by_cases hname : name' = name
      · rw [if_pos ⟨rfl, hname⟩, hname, Function.update_self]
      · rw [if_neg fun hboth => hname hboth.2, Function.update_of_ne hname]
        exact hstands.cells name'
    · have hne : n ≠ m := by
        rintro rfl
        exact hf (h.handle_inj hn hm)
      rw [if_neg fun hboth => hf hboth.1, Function.update_of_ne hne]
      exact hstands.cells name'
  · intro f n hn hstands
    rw [isCaptured_store]
    exact hstands.captured

/-! ### Names -/

/-- A search along a path and one along the scopes that its frames stand for end alike. -/
theorem findSome?_mirrored {name : Symbol} {frames : List FrameId} {scopes : List Nat}
    (hmap : frames.map a.handle = scopes.map some)
    (hlive : ∀ g ∈ frames, c.tree.isLive g = true) :
    (frames.findSome? fun g => (c.tree.held g name).map (g, ·)) = none ∧
        (scopes.findSome? fun n => (a.cells n name).map (n, ·)) = none ∨
      ∃ g n cell, (frames.findSome? fun g => (c.tree.held g name).map (g, ·)) = some (g, cell) ∧
        (scopes.findSome? fun n => (a.cells n name).map (n, ·)) = some (n, cell) ∧
        c.tree.isLive g = true ∧ a.handle g = some n := by
  induction frames generalizing scopes with
  | nil =>
    rw [List.map_nil, eq_comm, List.map_eq_nil_iff] at hmap
    subst hmap
    exact .inl ⟨rfl, rfl⟩
  | cons g frames ih =>
    rw [List.map_cons] at hmap
    obtain ⟨n, rest, rfl, hn, hrest⟩ := List.map_eq_cons_iff.1 hmap.symm
    have hg := hlive g List.mem_cons_self
    have hheld := (h.stands hg hn.symm).cells name
    rw [List.findSome?_cons, List.findSome?_cons, hheld]
    cases hcell : a.cells n name with
    | some cell => exact .inr ⟨g, n, cell, rfl, rfl, hg, hn.symm⟩
    | none => exact ih hrest.symm fun g hg => hlive g (List.mem_cons_of_mem _ hg)

theorem nearest (name : Symbol) :
    c.tree.nearest c.current name = none ∧ a.nearest name = none ∨
      ∃ g n cell, c.tree.nearest c.current name = some (g, cell) ∧
        a.nearest name = some (n, cell) ∧ c.tree.isLive g = true ∧ a.handle g = some n :=
  h.findSome?_mirrored h.stands_current.chain fun _ hg =>
    h.wf.tree.live_of_mem_path h.wf.current_live hg

theorem atDistance (distance : Nat) (who : Occurrence Symbol) :
    (∃ fault, c.tree.locateAt c.current distance who = .error fault ∧
        Access.of? (A := V) (.error (.fault fault)) = some .mismatch ∧
        a.atDistance distance who.name = none) ∨
      ∃ g n cell, c.tree.locateAt c.current distance who = .ok (g, cell) ∧
        a.atDistance distance who.name = some (n, cell) ∧ c.tree.isLive g = true ∧
        a.handle g = some n := by
  rw [locateAt_eq h.wf.tree h.wf.current_lt, Archive.atDistance]
  rcases h.path_getElem? h.wf.current_live h.current distance with ⟨hg, hn⟩ | ⟨g, n, hg, hn, hgn⟩
  · rw [hg, hn]
    exact .inl ⟨_, rfl, rfl, rfl⟩
  · have hlive := h.wf.tree.live_of_mem_path h.wf.current_live (List.mem_of_getElem? hg)
    have hheld := (h.stands hlive hgn).cells who.name
    simp only [hg, hn, Option.bind_some, hheld]
    cases hcell : a.cells n who.name with
    | none => exact .inl ⟨_, rfl, rfl, rfl⟩
    | some cell => exact .inr ⟨g, n, cell, rfl, rfl, hlive, hgn⟩

theorem agrees : Agrees c a where
  rejects := c.rejects_eq
  depth := by
    have hlength := congrArg List.length h.stands_current.chain
    rw [List.length_map, List.length_map] at hlength
    obtain ⟨rest, hrest⟩ := head_path c.tree c.current
    rw [Context.depth, depth_eq h.wf.tree h.wf.current_lt, Archive.depth, ← hlength, hrest]
    rfl
  read who := by
    rw [Context.read, read_eq h.wf.tree h.wf.current_lt, Archive.read]
    rcases h.nearest who.name with ⟨hg, hn⟩ | ⟨g, n, cell, hg, hn, -⟩
    · rw [hg, hn]
      rfl
    · rw [hg, hn]
      cases cell with
      | unassigned => rfl
      | holds value => rfl
  write who value := by
    rw [Context.write_eq h.wf, Archive.write]
    rcases h.nearest who.name with ⟨hg, hn⟩ | ⟨g, n, cell, hg, hn, -⟩
    · rw [hg, hn]
      rfl
    · rw [hg, hn]
      rfl
  readAt distance who := by
    rw [Context.readAt, FrameTree.readAt, Archive.readAt]
    rcases h.atDistance distance who with ⟨fault, hg, hfault, hn⟩ | ⟨g, n, cell, hg, hn, -⟩
    · rw [hg, hn]
      exact hfault
    · rw [hg, hn]
      cases cell with
      | unassigned => rfl
      | holds value => rfl
  writeAt distance who value := by
    rw [Context.writeAt_eq h.wf, Archive.writeAt]
    rcases h.atDistance distance who with ⟨fault, hg, hfault, hn⟩ | ⟨g, n, cell, hg, hn, -⟩
    · rw [hg, hn]
      cases fault <;> first | rfl | cases hfault
    · rw [hg, hn]
      rfl

end Mirrors

/-! ## Every action keeps the relation -/

namespace Paired

variable {c d : Context V} {a : Archive V} {action : ContextAction Symbol V}

theorem step_of_ok {reply : Reply V} (h : c.apply action = .ok (reply, d)) :
    step ⟨c, a⟩ action = ⟨d, a.act d.current action⟩ := by
  simp only [step, Context.rejects, Context.step, h]
  rfl

theorem step_of_rejected {fault : Fault} (h : c.apply action = .error fault)
    (hdead : c.rejects action = true) : step ⟨c, a⟩ action = ⟨c, a⟩ := by
  simp only [step, hdead, Context.step, h]
  rfl

theorem step_of_quiet (hact : ∀ fresh, a.act fresh action = a)
    (happly : ∀ {reply d}, c.apply action = .ok (reply, d) → d = c) :
    step ⟨c, a⟩ action = ⟨c, a⟩ := by
  cases h : c.apply action with
  | error fault => simp only [step, Context.step, h, hact, ite_self]
  | ok result =>
    obtain ⟨reply, d⟩ := result
    rw [step_of_ok h, hact, happly h]

end Paired

namespace Mirrors

variable {c : Context V} {a : Archive V} (h : Mirrors c a)

include h

theorem step_of_enter {f : FrameId} {action : ContextAction Symbol V} {reply : Reply V}
    (hhandle : action.handle? = some f) (happly : c.apply action = do return (reply, ← c.enter f))
    (hact : ∀ fresh, a.act fresh action = match a.handle f with
      | some n => a.moved n
      | none => a) :
    Mirrors (Paired.step ⟨c, a⟩ action).context (Paired.step ⟨c, a⟩ action).archive := by
  by_cases hf : c.tree.isLive f = true
  · obtain ⟨n, hn, -⟩ := h.live hf
    rw [Context.enter_of_live hf] at happly
    rw [Paired.step_of_ok happly, hact, hn]
    exact h.moved hf hn
  · rw [Context.enter_of_not_live hf] at happly
    have hdead : c.rejects action = true := by simp [c.rejects_eq, hhandle, hf]
    rw [Paired.step_of_rejected happly hdead]
    exact h

theorem step (action : ContextAction Symbol V) :
    Mirrors (Paired.step ⟨c, a⟩ action).context (Paired.step ⟨c, a⟩ action).archive := by
  have quiet : ∀ {action}, (∀ fresh, a.act fresh action = a) →
      (∀ {reply d}, c.apply action = .ok (reply, d) → d = c) →
      Mirrors (Paired.step ⟨c, a⟩ action).context (Paired.step ⟨c, a⟩ action).archive :=
    fun hact happly => by
      rw [Paired.step_of_quiet hact happly]
      exact h
  have answers : ∀ {A : Type} {m : Except Fault A} {k : A → Reply V} {reply : Reply V}
      {d : Context V}, (m >>= fun x => pure (k x, c)) = .ok (reply, d) → d = c := fun hm => by
    obtain ⟨_, _, heq⟩ := bind_eq_ok hm
    cases heq
    rfl
  cases action with
  | openScope =>
    rw [Paired.step_of_ok (Context.apply_openScope h.wf)]
    exact h.opened h.wf.current_live h.current
  | openIn p =>
    by_cases hp : c.tree.isLive p = true
    · obtain ⟨n, hn, -⟩ := h.live hp
      rw [Paired.step_of_ok (Context.apply_openIn_of_live hp), Archive.act, hn]
      exact h.opened hp hn
    · have happly := Context.apply_openIn_of_not_live hp
      have hdead : c.rejects (.openIn p) = true := by simp [c.rejects_eq, ContextAction.handle?, hp]
      rw [Paired.step_of_rejected happly hdead]
      exact h
  | closeScope =>
    cases hp : c.tree.parent? c.current with
    | none =>
      rw [Paired.step_of_ok (Context.apply_closeScope_of_root h.wf hp), Archive.act,
        h.left_of_root hp]
      exact h
    | some p =>
      obtain ⟨u, hu, hreleased⟩ := Context.apply_closeScope_of_parent h.wf hp
      obtain ⟨n, hn, hleft⟩ := h.left_of_parent hp
      rw [Paired.step_of_ok hu, Archive.act, hleft]
      exact h.closed hp hreleased hn
  | capture =>
    rw [Paired.step_of_ok (Context.apply_capture h.wf)]
    exact h.kept
  | enter f => exact h.step_of_enter rfl rfl fun _ => rfl
  | restore f => exact h.step_of_enter rfl rfl fun _ => rfl
  | declare name =>
    rw [Paired.step_of_ok (Context.apply_declare h.wf name)]
    exact h.stored h.wf.current_live h.current name .unassigned
  | define name value =>
    rw [Paired.step_of_ok (Context.apply_define h.wf name value)]
    exact h.stored h.wf.current_live h.current name (.holds value)
  | write who value =>
    have hwrite := Context.write_eq h.wf who value
    rcases h.nearest who.name with ⟨hg, hn⟩ | ⟨g, n, cell, hg, hn, hlive, hgn⟩
    · rw [hg] at hwrite
      refine quiet (fun fresh => by rw [Archive.act, hn]) fun hok => ?_
      rw [Context.apply, hwrite] at hok
      cases hok
      rfl
    · rw [hg] at hwrite
      have happly : c.apply (.write who value) = .ok (.written,
          c.withTree (c.tree.update g (·.store who.name (.holds value)))) := by
        rw [Context.apply, hwrite]
      rw [Paired.step_of_ok happly, Archive.act, hn]
      exact h.stored hlive hgn who.name (.holds value)
  | writeAt distance who value =>
    have hwrite := Context.writeAt_eq h.wf distance who value
    rcases h.atDistance distance who with ⟨fault, hg, -, hn⟩ | ⟨g, n, cell, hg, hn, hlive, hgn⟩
    · rw [hg] at hwrite
      refine quiet (fun fresh => by rw [Archive.act, hn]) fun hok => ?_
      rw [Context.apply, hwrite] at hok
      cases hok
    · rw [hg] at hwrite
      have happly : c.apply (.writeAt distance who value) = .ok (.done,
          c.withTree (c.tree.update g (·.store who.name (.holds value)))) := by
        rw [Context.apply, hwrite]
        rfl
      rw [Paired.step_of_ok happly, Archive.act, hn]
      exact h.stored hlive hgn who.name (.holds value)
  | isLive f =>
    refine quiet (fun _ => rfl) fun hok => ?_
    cases hok
    rfl
  | read who => exact quiet (fun _ => rfl) answers
  | readAt distance who => exact quiet (fun _ => rfl) answers
  | cell f name => exact quiet (fun _ => rfl) answers
  | readFrom f who => exact quiet (fun _ => rfl) answers
  | parent f => exact quiet (fun _ => rfl) answers
  | depthOf f => exact quiet (fun _ => rfl) answers
  | ancestor f distance => exact quiet (fun _ => rfl) answers

end Mirrors

/-- Whatever was done so far, each live frame is the scope that its position stands for. -/
theorem mirrors_after (actions : List (ContextAction Symbol V)) :
    Mirrors (Paired.after actions).context (Paired.after actions).archive := by
  suffices ∀ p : Paired V, Mirrors p.context p.archive →
      Mirrors (actions.foldl Paired.step p).context (actions.foldl Paired.step p).archive from
    this .new .fresh
  induction actions with
  | nil => exact fun p hp => hp
  | cons action actions ih => exact fun p hp => ih (p.step action) (hp.step action)

/-- Giving back frames and reusing their slots cannot be observed: after any actions, whatever
handles they were given, the context shows what the archive shows, which gives nothing back. -/
theorem agrees_after (actions : List (ContextAction Symbol V)) :
    Agrees (Paired.after actions).context (Paired.after actions).archive :=
  (mirrors_after actions).agrees

end Scoping
