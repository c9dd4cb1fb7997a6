import Scoping.Proofs.Context.Bracket
import Scoping.Proofs.Run.Outline
import Scoping.Run.Step

/-!
# What is left of a scope around some steps

A scope around some steps is opened before the first of them, and when they have ended the scope
that is then current is left (`Leaves`). That never fails, whatever the steps were, and a list of
steps that was cut short by an error or a fault is a list of steps as well. What is current
afterwards is the frame around the one that was current at the end (`inScope_leaves`).

That is the frame where all began if the steps stay put: they may run the program in any way and use
the current scope in any way, but move to no other frame, except inside scopes of their own. Of the
frames that were opened meanwhile, those that are left lead to captured ones (`Resumes`). Steps that
move to another frame and are cut short before they move back end in a frame that the scope knows
nothing of. It is that frame which is then left, and the scope itself stays open
(`inScope_cut_short`).
-/

namespace Scoping

variable {V : Type}

/-! ## Leaving a scope -/

namespace Context

open FrameTree

/-- The context that leaving the current scope leads to. -/
inductive Leaves (c : Context V) : Context V → Prop
  | root (h : c.tree.parent? c.current = none) : c.Leaves c
  | scope {p : FrameId} {u : FrameTree V} (hp : c.tree.parent? c.current = some p)
      (hu : Released c.tree c.current u) : c.Leaves ⟨u, p⟩

variable {c d e : Context V}

theorem closeScope_leaves (wf : c.WF) : ∃ d, c.closeScope = .ok d ∧ c.Leaves d := by
  cases hp : c.tree.parent? c.current with
  | none => exact ⟨c, closeScope_of_root wf hp, .root hp⟩
  | some p =>
    obtain ⟨u, hu, hreleased⟩ := closeScope_of_parent wf hp
    exact ⟨⟨u, p⟩, hu, .scope hp hreleased⟩

theorem Leaves.wf (h : c.Leaves d) (wf : c.WF) : d.WF := by
  cases h with
  | root => exact wf
  | scope hp hu => exact (Moves.closed hp hu).wf wf

theorem Leaves.current_eq (h : c.Leaves d) :
    d.current = (c.tree.parent? c.current).getD c.current := by
  cases h with
  | root hp => rw [hp]; rfl
  | scope hp hu => rw [hp]; rfl

/-- A context that is in the frame of another one, and has its frames; of the others, those that are
live lead to captured ones. -/
structure Resumes (c d : Context V) : Prop where
  current_eq : d.current = c.current
  size_le : c.tree.size ≤ d.tree.size
  parent?_eq : ∀ {f}, f < c.tree.size → d.tree.parent? f = c.tree.parent? f
  isLive_eq : ∀ {f}, f < c.tree.size → d.tree.isLive f = c.tree.isLive f
  kept : ∀ {f}, c.tree.size ≤ f → d.tree.isLive f = true →
    ∃ g, d.tree.isLive g = true ∧ d.tree.isCaptured g = true ∧ f ∈ d.tree.path g

/-- The same, for any account of the scopes that are there. -/
def Stays (c d : Context V) : Prop :=
  d.current = c.current ∧ ∀ a, ∃ b, Extends ⟨c, a⟩ ⟨d, b⟩

namespace Stays

theorem resumes (h : c.Stays d) : c.Resumes d := by
  obtain ⟨b, hb⟩ := h.2 .new
  exact ⟨h.1, hb.size_le, hb.parent?_eq, hb.isLive_eq, hb.kept⟩

theorem refl (c : Context V) : c.Stays c := ⟨rfl, fun a => ⟨a, .refl _⟩⟩

theorem trans (h : c.Stays d) (wf : d.WF) (h' : d.Stays e) : c.Stays e := by
  refine ⟨h'.1.trans h.1, fun a => ?_⟩
  obtain ⟨b, hb⟩ := h.2 a
  obtain ⟨b', hb'⟩ := h'.2 b
  exact ⟨b', hb.trans wf hb'⟩

theorem of_outline (h : d.outline = c.outline) : c.Stays d := by
  obtain ⟨hcurrent, hmarks⟩ := Prod.mk.inj h
  have hlive : ∀ f, d.tree.isLive f = c.tree.isLive f := fun f => by
    rw [isLive_eq_marks, hmarks, ← isLive_eq_marks]
  have hnone : ∀ {f}, c.tree.size ≤ f → d.tree.isLive f ≠ true := fun hf h =>
    absurd (lt_of_isLive (hlive _ ▸ h)) (Nat.not_lt.2 hf)
  refine ⟨hcurrent, fun a => ⟨a, ?_⟩⟩
  exact {
    size_le := Nat.le_of_eq (size_of_marks hmarks).symm
    parent?_eq := fun {f} _ => by rw [parent?_eq_marks, hmarks, ← parent?_eq_marks]
    isLive_eq := fun {f} _ => hlive f
    isCaptured := fun {f} _ h => by rwa [isCaptured_eq_marks, hmarks, ← isCaptured_eq_marks]
    count_le := Nat.le_refl _
    handle_eq := fun _ => rfl
    created := fun hf h _ => absurd h (hnone hf)
    kept := fun hf h => absurd h (hnone hf) }

theorem of_touches (wf : c.WF) (h : c.Touches d) : c.Stays d :=
  ⟨h.current_eq, fun a => ⟨a, .of_touches h wf rfl rfl⟩⟩

/-- A body that stays in the scope that was opened for it. -/
theorem left (wf : c.WF) (wf' : d.WF)
    (h : Stays ⟨c.tree.grow c.current, c.tree.size⟩ d) (hleft : d.Leaves e) : c.Stays e := by
  have opened : ∀ a : Archive V,
      ∃ b, Extends (Paired.opened ⟨c, a⟩ c.current 0) ⟨d, b⟩ := fun a => h.2 _
  have hparent : d.tree.parent? d.current = some c.current := by
    obtain ⟨b, hb⟩ := opened .new
    rw [h.1]
    exact hb.parent?_of_opened
  cases hleft with
  | root hp => cases hp.symm.trans hparent
  | scope hp hu =>
    cases hp.symm.trans hparent
    rw [h.1] at hu
    refine ⟨rfl, fun a => ?_⟩
    obtain ⟨b, hb⟩ := opened a
    exact ⟨b.moved 0, hb.closed wf wf' hu c.current 0⟩

end Stays

end Context

/-! ## Steps that stay put -/

mutual

/-- Whether a step moves to no other frame, except inside a scope of its own. -/
def Step.staysPut : Step → Bool
  | .context action => action.isLocal
  | .inScope steps => Step.allStayPut steps
  | _ => true

def Step.allStayPut : List Step → Bool
  | [] => true
  | step :: rest => step.staysPut && Step.allStayPut rest

end

namespace Script

open Context

theorem step_inScope (x : Script) {steps : List Step} {s t : Session} {answers : List Answer}
    {d : Context Value} (wf : s.context.WF) (hsteps : x.steps steps s.opened = (answers, t))
    (hclose : t.context.closeScope = .ok d) : x.step (.inScope steps) s =
      (.inScope s.opened.context.status answers d.status, ⟨d, t.symbols⟩) := by
  have hbody : x.steps steps ⟨s.opened.context, s.symbols⟩ = (answers, t) := hsteps
  simp only [step, Session.inScope, Session.openScope_ok wf, hbody, hclose]

theorem step_touches {c : Context Value} (wf : c.WF) {action : ContextAction Symbol Value}
    (h : action.isLocal = true) : c.Touches (c.step action).2 := by
  unfold Context.step
  cases happly : c.apply action with
  | error fault => exact .nothing
  | ok result => exact apply_touches wf h happly

/-- Writing a value down leaves the session as it is. -/
theorem show_snd (value : Value) (s : Session) :
    ((do return (value, ← Run.ofFault (value.render (← Run.session).symbols)) :
      Run (Value × String)) s).2 = s := by
  show ((Run.ofFault (value.render s.symbols) >>= fun text => pure (value, text)) s).2 = s
  cases value.render s.symbols <;> rfl

theorem isLocal_intern (action : ContextAction String (Literal String)) (symbols : SymbolTable) :
    (action.intern.run symbols).1.isLocal = action.isLocal := by
  cases action <;> rfl

mutual

theorem step_stays (x : Script) (step : Step) {s : Session} (wf : s.context.WF) :
    (x.step step s).2.context.WF ∧
      (step.staysPut = true → s.context.Stays (x.step step s).2.context) := by
  have outline : ∀ {t : Session}, SameOutline s t → t.context.WF ∧ s.context.Stays t.context :=
    fun h => ⟨(h wf).1, .of_outline (h wf).2⟩
  have respects := SameOutline.respects x
  cases step with
  | execute id => exact (outline (respects.execute id s)).imp_right fun h _ => h
  | interpret ids => exact (outline (respects.interpret ids s)).imp_right fun h _ => h
  | evaluate id =>
    have hshown := Run.Keeps.bind respects.trans (respects.evaluate id) fun value =>
      respects.quiet fun t => show_snd value t
    exact (outline (hshown s)).imp_right fun h _ => h
  | print id => exact ⟨wf, fun _ => .refl _⟩
  | context action =>
    refine ⟨(step_moves wf _).wf wf, fun h => .of_touches wf (step_touches wf ?_)⟩
    exact (isLocal_intern action s.symbols).trans h
  | inScope inner =>
    have hinner := x.steps_stay inner (Session.opened_wf wf)
    obtain ⟨d, hclose, hleaves⟩ := closeScope_leaves hinner.1
    rw [x.step_inScope wf rfl hclose]
    exact ⟨hleaves.wf hinner.1, fun h => (hinner.2 h).left wf hinner.1 hleaves⟩

theorem steps_stay (x : Script) (steps : List Step) {s : Session} (wf : s.context.WF) :
    (x.steps steps s).2.context.WF ∧
      (Step.allStayPut steps = true → s.context.Stays (x.steps steps s).2.context) := by
  cases steps with
  | nil => exact ⟨wf, fun _ => .refl _⟩
  | cons step rest =>
    have hstep := x.step_stays step wf
    have hrest := x.steps_stay rest hstep.1
    refine ⟨hrest.1, fun h => ?_⟩
    obtain ⟨hfirst, hlater⟩ := Bool.and_eq_true_iff.1 h
    exact (hstep.2 hfirst).trans hstep.1 (hrest.2 hlater)

end

end Script

/-! ## A scope around steps -/

/-- A scope around steps is closed without a fault, and it is the scope that is current when the
steps have ended that is left. If they stay put, it is the one that was opened. -/
theorem inScope_leaves (x : Script) (steps : List Step) {s : Session} (h : s.context.Reachable) :
    ∃ answers t d, x.steps steps s.opened = (answers, t) ∧
      x.step (.inScope steps) s =
        (.inScope s.opened.context.status answers d.status, ⟨d, t.symbols⟩) ∧
      t.context.Leaves d ∧
      d.current = (t.context.tree.parent? t.context.current).getD t.context.current ∧
      (Step.allStayPut steps = true → s.context.Resumes d) := by
  have wf := h.wf
  have hopened := (Context.Moves.opened wf.current_live).wf wf
  have hsteps := x.steps_stay steps (s := s.opened) hopened
  obtain ⟨d, hclose, hleaves⟩ := Context.closeScope_leaves hsteps.1
  refine ⟨_, _, d, rfl, x.step_inScope wf rfl hclose, hleaves, hleaves.current_eq, fun hput => ?_⟩
  exact ((hsteps.2 hput).left wf hsteps.1 hleaves).resumes

/-- Steps that run a block with an error in it, and capture the scope of another list of steps. -/
theorem inScope_leaves_captured :
    let x : Script :=
      { program := ⟨#[⟨.reference ⟨⟨1⟩, .nowhere⟩, .nowhere⟩],
          #[⟨.expression ⟨0⟩, .nowhere⟩, ⟨.block ⟨0, 1⟩, .nowhere⟩], #[⟨0⟩]⟩
        distances := .empty
        mode := .byName
        spareLevels := 0 }
    let s : Session := ⟨(Context.new.step .openScope).2, (SymbolTable.new.step (.intern "a")).2⟩
    let steps : List Step := [.inScope [.context .capture], .execute ⟨1⟩]
    let d := (x.step (.inScope steps) s).2.context
    s.context.Reachable ∧ Step.allStayPut steps = true ∧ s.context.Resumes d ∧
      s.context.status = ⟨1, 2, 2⟩ ∧ d.status = ⟨1, 2, 4⟩ := by
  intro x s steps d
  have h : s.context.Reachable := .step .new _
  obtain ⟨answers, t, e, hsteps, hstep, -, -, hresumes⟩ := inScope_leaves x steps h
  have he : d = e := congrArg (·.2.context) hstep
  exact ⟨h, rfl, he ▸ hresumes rfl, by decide +kernel, by decide +kernel⟩

/-- Steps that enter a captured frame and are cut short by an error there, before they move back:
the captured frame is left, for the root, and the scope around the steps is still there. -/
theorem inScope_cut_short :
    let x : Script :=
      { program := ⟨#[⟨.reference ⟨⟨1⟩, .nowhere⟩, .nowhere⟩], #[], #[]⟩
        distances := .empty
        mode := .byName
        spareLevels := 0 }
    let actions : List (ContextAction Symbol Value) :=
      [.openScope, .capture, .closeScope, .openScope]
    let s : Session := ⟨Context.new.after actions, (SymbolTable.new.step (.intern "missing")).2⟩
    let steps : List Step := [.context (.enter 1), .evaluate ⟨0⟩]
    let error : RuntimeError :=
      ⟨.undeclared "missing", "undefined variable: missing", some .nowhere⟩
    let d := (x.step (.inScope steps) s).2.context
    s.context.Reachable ∧ s.context.status = ⟨2, 2, 3⟩ ∧
      (x.step (.inScope steps) s).1 = .inScope ⟨3, 3, 4⟩
        [.context (.ok (.frame 3)) ⟨1, 2, 4⟩, .evaluated (.error (.error error)) ⟨1, 2, 4⟩]
        ⟨0, 1, 4⟩ ∧
      d.current ≠ s.context.current := by
  intro x actions s steps error d
  have h : s.context.Reachable := Context.Reachable.new.after actions
  exact ⟨h, by decide +kernel, rfl, by decide +kernel⟩

end Scoping
