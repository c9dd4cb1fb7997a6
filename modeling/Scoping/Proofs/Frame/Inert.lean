import Mathlib.Data.List.Induction
import Mathlib.Order.Basic
import Scoping.Proofs.Frame.Reachable

/-!
# Retired frames

A retired frame holds nothing and is not captured when it is retired. Nothing but opening a frame
asks for a live one, though, so a handle that was not let go of can be used late: a name declared or
defined in a retired frame stays there, and a retired frame that is captured stays retired, and goes
with the others when the frames above it have gone (`late_capture_swept`).

Otherwise retired frames are inert and captured frames stay. `inert_after` traces what a retired
frame has to the `Late` actions that put it there, after it was retired and without a break up to
now, and says that a frame that was live when it was captured is live for ever. It rests on three
facts about single actions: what a retired frame can have got (`Effect.of_retired`), a captured
frame stays captured as long as it has its slot (`Effect.isCaptured`), and, if it is live, it stays
live (`Effect.isLive`).
-/

namespace Scoping.FrameTree

variable {V : Type} {t u : FrameTree V} {f : FrameId} {name : Symbol} {cell : Cell V}
  {action : FrameAction Symbol V} {actions : List (FrameAction Symbol V)}

/-- A frame was retired and still has its slot. -/
def Retired (t : FrameTree V) (f : FrameId) : Prop := f < t.size ∧ t.isLive f = false

instance : Decidable (t.Retired f) := inferInstanceAs (Decidable (_ ∧ _))

theorem not_retired_new : ¬ (new : FrameTree V).Retired f := by
  rintro ⟨hlt, hdead⟩
  obtain rfl : f = FrameId.root := Nat.lt_one_iff.1 hlt
  cases hdead

theorem retired_of_update {g : FrameId} {change : Frame V → Frame V}
    (h : (t.update g change).Retired f) (hlive : (t.update g change).isLive f = t.isLive f) :
    t.Retired f :=
  ⟨size_update change ▸ h.1, hlive ▸ h.2⟩

/-! ## One action -/

/-- A frame was retired before an action, and all that it has after the action it had before or got
from the action. -/
structure Stays (t : FrameTree V) (action : FrameAction Symbol V) (f : FrameId)
    (u : FrameTree V) : Prop where
  retired : t.Retired f
  held : ∀ {name cell}, u.held f name = some cell →
    action.Gives f name ∨ ∃ old, t.held f name = some old
  captured : u.isCaptured f = true → action = .capture f ∨ t.isCaptured f = true

theorem stays_of_getElem? (hf : u.Retired f) (hlt : f < t.size)
    (heq : u.frames[f]? = t.frames[f]?) : t.Stays action f u where
  retired := ⟨hlt, isLive_congr heq ▸ hf.2⟩
  held {name cell} hheld := .inr ⟨cell, held_congr heq name ▸ hheld⟩
  captured hcaptured := .inr (isCaptured_congr heq ▸ hcaptured)

/-- A cell that was not there is one that the action gave the frame. -/
theorem stays_of_store {g : FrameId} (hf : (t.update g (·.store name cell)).Retired f)
    (hg : g < t.size) (hcell : action.Gives g name ∨ ∃ old, t.held g name = some old) :
    t.Stays action f (t.update g (·.store name cell)) where
  retired := retired_of_update hf (isLive_store name cell f)
  held {m new} hheld := by
    rw [held_store hg] at hheld
    split at hheld
    · next heq =>
      obtain ⟨rfl, rfl⟩ := heq
      exact hcell
    · exact .inr ⟨new, hheld⟩
  captured hcaptured := .inr ((isCaptured_store name cell f).symm.trans hcaptured)

namespace Effect

variable (h : t.Effect action u)

include h

/-- A frame that is retired after an action was retired before, or it was this action that retired
it, and then it has nothing. -/
theorem of_retired (hf : u.Retired f) :
    ((∀ name, u.held f name = none) ∧ u.isCaptured f = false) ∨ t.Stays action f u := by
  cases h with
  | nothing => exact .inr (stays_of_getElem? hf hf.1 rfl)
  | opened hp =>
    rcases lt_or_eq_of_lt_grow hf.1 with hlt | rfl
    · exact .inr (stays_of_getElem? hf hlt (getElem?_grow_old hlt))
    · exact absurd (isLive_grow_new.symm.trans hf.2) (by simp)
  | captured hg =>
    refine .inr ⟨retired_of_update hf (isLive_keep f), fun hheld => ?_, fun hcaptured => ?_⟩
    · rw [held_update Frame.keep fun _ => rfl] at hheld
      exact .inr ⟨_, hheld⟩
    · rw [isCaptured_keep hg] at hcaptured
      split at hcaptured
      · next heq => exact .inl (heq ▸ rfl)
      · exact .inr hcaptured
  | given cell hg hgives => exact .inr (stays_of_store hf hg (.inl hgives))
  | written value hold =>
    exact .inr (stays_of_store hf (lt_of_held hold) (.inr ⟨_, hold⟩))
  | released hg hu hneeded =>
    obtain ⟨frame, hframe⟩ := frame_of_lt hf.1
    have hretired : frame.retired = true := by
      simpa [isLive_of_frame hframe] using hf.2
    rcases hu.retired hframe hretired with hold | ⟨rfl, hempty, hcaptured⟩
    · exact .inr (stays_of_getElem? hf (lt_of_frame hold) (hframe.trans hold.symm))
    · refine .inl ⟨fun name => ?_, ?_⟩
      · rw [held_of_frame hframe, hempty]
        rfl
      · rw [isCaptured_of_frame hframe, hcaptured]

/-- A captured frame stays captured as long as it has its slot. -/
theorem isCaptured (hcaptured : t.isCaptured f = true) (hlt : f < u.size) :
    u.isCaptured f = true := by
  cases h with
  | nothing => exact hcaptured
  | opened hp =>
    rw [isCaptured_congr (getElem?_grow_old (lt_of_isCaptured hcaptured))]
    exact hcaptured
  | captured hg => simp [isCaptured_keep hg, hcaptured]
  | given cell hg hgives => simpa using hcaptured
  | written value hold => simpa using hcaptured
  | @released g u hg hu hneeded =>
    by_cases heq : f = g
    · subst heq
      rw [hneeded (.inr (.inl hcaptured))]
      exact hcaptured
    · rw [isCaptured_congr (hu.frame_eq_of_ne hlt heq)]
      exact hcaptured

/-- A captured frame that is live stays live. -/
theorem isLive (hlive : t.isLive f = true) (hcaptured : t.isCaptured f = true) :
    u.isLive f = true := by
  cases h with
  | nothing => exact hlive
  | opened hp =>
    rw [isLive_congr (getElem?_grow_old (lt_of_isLive hlive))]
    exact hlive
  | captured hg => simpa using hlive
  | given cell hg hgives => simpa using hlive
  | written value hold => simpa using hlive
  | released hg hu hneeded =>
    exact hu.live_iff.2 ⟨hlive, fun heq => .inr (.inl (heq ▸ hcaptured))⟩

end Effect

theorem step_capture (hf : f < t.size) : (t.step (.capture f)).2 = t.update f Frame.keep := by
  rw [step, apply, capture_eq hf]
  rfl

/-! ## Many actions -/

/-- An action was done when frame `f` was retired already, and the frame has been retired ever
since. -/
def Late (actions : List (FrameAction Symbol V)) (f : FrameId) (action : FrameAction Symbol V) :
    Prop :=
  ∃ k, actions[k]? = some action ∧
    ∀ n, k ≤ n → n ≤ actions.length → (new.after (actions.take n)).Retired f

theorem after_concat (t : FrameTree V) (actions : List (FrameAction Symbol V))
    (action : FrameAction Symbol V) :
    t.after (actions ++ [action]) = ((t.after actions).step action).2 := by
  rw [after, List.foldl_append]
  rfl

theorem after_take_succ (t : FrameTree V) (actions : List (FrameAction Symbol V)) (n : Nat) :
    t.after (actions.take (n + 1)) = match actions[n]? with
      | some action => ((t.after (actions.take n)).step action).2
      | none => t.after (actions.take n) := by
  rw [List.take_add_one]
  cases actions[n]? with
  | none => rw [Option.toList_none, List.append_nil]
  | some action => exact after_concat t _ action

/-- What is so up to the last action but one, and after the last one, is so all the time. -/
theorem retired_take_concat {n k : Nat}
    (hbefore : ∀ n, k ≤ n → n ≤ actions.length → (new.after (actions.take n)).Retired f)
    (hafter : (new.after (actions ++ [action])).Retired f) (hk : k ≤ n) :
    (new.after ((actions ++ [action]).take n)).Retired f := by
  rcases Nat.lt_or_ge actions.length n with hlt | hle
  · have hall : (actions ++ [action]).length ≤ n := by
      rw [List.length_append, List.length_singleton]
      exact hlt
    rwa [List.take_of_length_le hall]
  · rw [List.take_append_of_le_length hle]
    exact hbefore n hk hle

theorem late_concat (hbefore : (new.after actions).Retired f)
    (hafter : (new.after (actions ++ [action])).Retired f) :
    Late (actions ++ [action]) f action := by
  refine ⟨actions.length, List.getElem?_concat_length, fun n hk _ => ?_⟩
  refine retired_take_concat (fun m hm _ => ?_) hafter hk
  rwa [List.take_of_length_le hm]

theorem Late.concat {late : FrameAction Symbol V} (h : Late actions f late)
    (hafter : (new.after (actions ++ [action])).Retired f) : Late (actions ++ [action]) f late := by
  obtain ⟨k, hk, hretired⟩ := h
  refine ⟨k, ?_, fun n hn _ => retired_take_concat hretired hafter hn⟩
  rw [List.getElem?_append_left (List.getElem?_eq_some_iff.1 hk).1]
  exact hk

/-- What a retired frame holds was put there late. The induction is on the last action. -/
theorem late_of_held (hf : (new.after actions).Retired f)
    (hheld : (new.after actions).held f name = some cell) :
    ∃ action, Late actions f action ∧ action.Gives f name := by
  induction actions using List.reverseRecOn generalizing cell with
  | nil => exact absurd hf not_retired_new
  | append_singleton actions action ih =>
    have heffect := step_effect (wf_new.after actions) action
    rw [← after_concat] at heffect
    rcases heffect.of_retired hf with ⟨hbare, -⟩ | hstays
    · rw [hbare] at hheld
      cases hheld
    · rcases hstays.held hheld with hgives | ⟨old, hold⟩
      · exact ⟨action, late_concat hstays.retired hf, hgives⟩
      · obtain ⟨late, hlate, hgives⟩ := ih hstays.retired hold
        exact ⟨late, hlate.concat hf, hgives⟩

theorem late_of_isCaptured (hf : (new.after actions).Retired f)
    (hcaptured : (new.after actions).isCaptured f = true) : Late actions f (.capture f) := by
  induction actions using List.reverseRecOn with
  | nil => exact absurd hf not_retired_new
  | append_singleton actions action ih =>
    have heffect := step_effect (wf_new.after actions) action
    rw [← after_concat] at heffect
    rcases heffect.of_retired hf with ⟨-, hbare⟩ | hstays
    · rw [hbare] at hcaptured
      cases hcaptured
    · rcases hstays.captured hcaptured with rfl | hold
      · exact late_concat hstays.retired hf
      · exact (ih hstays.retired hold).concat hf

/-- From its capture on, a frame is captured as long as it has its slot. -/
theorem isCaptured_take {k n : Nat} (hk : actions[k]? = some (.capture f))
    (hslot : ∀ m, k ≤ m → m ≤ n → f < (new.after (actions.take m)).size) (hn : k < n) :
    (new.after (actions.take n)).isCaptured f = true := by
  induction n with
  | zero => exact absurd hn (Nat.not_lt_zero k)
  | succ n ih =>
    have hnext := hslot (n + 1) (Nat.le_of_lt hn) (Nat.le_refl _)
    rw [after_take_succ] at hnext ⊢
    rcases Nat.lt_succ_iff_lt_or_eq.1 hn with hlt | rfl
    · have hold := ih (fun m hm hle => hslot m hm (Nat.le_succ_of_le hle)) hlt
      cases hlast : actions[n]? with
      | none => exact hold
      | some action =>
        rw [hlast] at hnext
        exact (step_effect (wf_new.after _) action).isCaptured hold hnext
    · have hf := hslot k (Nat.le_refl _) (Nat.le_succ _)
      simp only [hk, step_capture hf, isCaptured_keep hf, if_true]

/-- From its capture on, a frame that was live then is live. -/
theorem isLive_take {k n : Nat} (hk : actions[k]? = some (.capture f))
    (hlive : (new.after (actions.take k)).isLive f = true) (hn : k < n) :
    (new.after (actions.take n)).isLive f = true ∧
      (new.after (actions.take n)).isCaptured f = true := by
  induction n with
  | zero => exact absurd hn (Nat.not_lt_zero k)
  | succ n ih =>
    rw [after_take_succ]
    rcases Nat.lt_succ_iff_lt_or_eq.1 hn with hlt | rfl
    · obtain ⟨hold, hcaptured⟩ := ih hlt
      cases actions[n]? with
      | none => exact ⟨hold, hcaptured⟩
      | some action =>
        have heffect := step_effect (wf_new.after (actions.take n)) action
        have hnew := heffect.isLive hold hcaptured
        exact ⟨hnew, heffect.isCaptured hcaptured (lt_of_isLive hnew)⟩
    · have hf := lt_of_isLive hlive
      simp only [hk, step_capture hf]
      exact ⟨(isLive_keep f).trans hlive, by rw [isCaptured_keep hf, if_pos rfl]⟩

/-- What can be relied on about retired and captured frames, whatever the actions were handed. -/
structure Inert (actions : List (FrameAction Symbol V)) : Prop where
  /-- A retired frame holds only names that it was given late. -/
  held : ∀ {f name cell}, (new.after actions).Retired f →
    (new.after actions).held f name = some cell →
      ∃ action, Late actions f action ∧ action.Gives f name
  /-- A retired frame is captured only if it was captured late. -/
  captured_iff : ∀ {f}, (new.after actions).Retired f →
    ((new.after actions).isCaptured f = true ↔ Late actions f (.capture f))
  /-- A frame that was live when it was captured is live from then on. -/
  stays : ∀ {k n f}, actions[k]? = some (.capture f) →
    (new.after (actions.take k)).isLive f = true → k < n →
      (new.after (actions.take n)).isLive f = true ∧
        (new.after (actions.take n)).isCaptured f = true

/-- After any actions from a fresh tree, a retired frame to which nothing was done late holds
nothing and is not captured, and a frame that was captured in time stays live. -/
theorem inert_after (actions : List (FrameAction Symbol V)) : Inert actions where
  held := late_of_held
  captured_iff {f} hf := by
    refine ⟨late_of_isCaptured hf, fun ⟨k, hk, hretired⟩ => ?_⟩
    have hlt := (List.getElem?_eq_some_iff.1 hk).1
    have hslot : ∀ m, k ≤ m → m ≤ actions.length → f < (new.after (actions.take m)).size :=
      fun m hm hle => (hretired m hm hle).1
    have hcaptured := isCaptured_take hk hslot hlt
    rwa [List.take_length] at hcaptured
  stays := isLive_take

/-- A scope is retired while another one stands above it, and then defined in and captured. -/
def captureLate (name : Symbol) : List (FrameAction Symbol Bool) :=
  [.extend FrameId.root, .extend FrameId.root, .release 1, .define 1 name true, .capture 1]

/-- The retired frame holds what was defined in it and is captured, and no action was a fault. Its
slot goes all the same when the frame above it is given back. -/
theorem late_capture_swept :
    let actions := captureLate ⟨1⟩
    let t := new.after actions
    (∀ k < actions.length, ∀ action ∈ actions[k]?,
        ((new.after (actions.take k)).step action).1.isOk = true) ∧
      t.Retired 1 ∧ t.held 1 ⟨1⟩ = some (.holds true) ∧ t.isCaptured 1 = true ∧
      (t.step (.release 2)).2.size = 1 ∧ (t.step (.release 2)).2.isLive 1 = false := by decide

end Scoping.FrameTree
