import Scoping.Proofs.Run.Join
import Scoping.Proofs.Run.Resolution
import Scoping.Proofs.Syntax.Reach

/-!
# Sound programs run to an end

A run of a sound program ends in a result or in an error of the program, and every symbol in sight
keeps its text. The invariant is about the session (`Session.Sound`): its context and its symbol
table are well formed, and every symbol that a frame holds, as a name or in a value, is known to the
table. Strings that are joined add texts during a run, so that what is known must be known to every
later table as well; `Run.Safe` therefore speaks of all sound sessions whose table has grown from a
given one, and is closed under sequencing (`Run.Safe.bind`).

The induction is on the levels that may be gone down. They suffice because the rank of a node is at
most the number of nodes and goes down with each level, so that not even a script without spare
levels runs out of them. Distances are not trusted: one that does not belong to the scopes is the
only fault that is left, and there is none without distances (`perform_endsWell`).
-/

namespace Scoping

variable {A B : Type}

/-! ## Symbols that are held -/

namespace Value

def names : Value → List Symbol
  | str s => [s]
  | _ => []

/-- A value whose string, if it is one, has a text. -/
def KnownTo (v : Value) (symbols : SymbolTable) : Prop := ∀ name ∈ v.names, symbols.Knows name

variable {v : Value} {symbols more : SymbolTable}

theorem KnownTo.mono (h : v.KnownTo symbols) (hgrows : symbols.Grows more) : v.KnownTo more :=
  fun name hname => hgrows.knows (h name hname)

theorem knownTo_of_names_eq_nil (h : v.names = []) : v.KnownTo symbols := by
  intro name hname
  rw [h] at hname
  cases hname

theorem knownTo_str {s : Symbol} : (str s).KnownTo symbols ↔ symbols.Knows s :=
  List.forall_mem_singleton

theorem knownTo_ofLiteral {l : Literal Symbol} :
    (ofLiteral l).KnownTo symbols ↔ ∀ name ∈ l.names, symbols.Knows name := by
  cases l <;> rfl

theorem KnownTo.render_ok (h : v.KnownTo symbols) : ∃ text, v.render symbols = .ok text := by
  cases v with
  | nil => exact ⟨_, rfl⟩
  | bool b => exact ⟨_, rfl⟩
  | number x => exact ⟨_, rfl⟩
  | str s => exact SymbolTable.knows_iff.1 (knownTo_str.1 h)

end Value

namespace FrameTree

/-- The symbols that a tree holds, as names or in values, are known. -/
structure Named (t : FrameTree Value) (symbols : SymbolTable) : Prop where
  name : ∀ {f name cell}, t.held f name = some cell → symbols.Knows name
  value : ∀ {f name v}, t.held f name = some (.holds v) → v.KnownTo symbols

variable {t u : FrameTree Value} {symbols more : SymbolTable}

theorem named_new : new.Named symbols := by
  have hbare : ∀ f name, (new : FrameTree Value).held f name = none := by
    intro f name
    rw [held, new]
    cases f <;> rfl
  constructor <;> intro f name _ h <;> rw [hbare] at h <;> cases h

namespace Named

theorem mono (h : t.Named symbols) (hgrows : symbols.Grows more) : t.Named more where
  name hheld := hgrows.knows (h.name hheld)
  value hheld := (h.value hheld).mono hgrows

theorem of_held (h : t.Named symbols)
    (hheld : ∀ {f name cell}, u.held f name = some cell → t.held f name = some cell) :
    u.Named symbols where
  name hcell := h.name (hheld hcell)
  value hcell := h.value (hheld hcell)

theorem store (h : t.Named symbols) {f : FrameId} (hf : f < t.size) {name : Symbol}
    {cell : Cell Value} (hname : symbols.Knows name)
    (hcell : ∀ v, cell = .holds v → v.KnownTo symbols) :
    (t.update f (·.store name cell)).Named symbols where
  name {g m c} hheld := by
    rw [held_store hf] at hheld
    split at hheld
    · next heq => exact heq.2 ▸ hname
    · exact h.name hheld
  value {g m v} hheld := by
    rw [held_store hf] at hheld
    split at hheld
    · exact hcell v (Option.some.inj hheld)
    · exact h.value hheld

end Named

end FrameTree

/-! ## Sound sessions -/

structure Session.Sound (s : Session) : Prop where
  context : s.context.WF
  symbols : s.symbols.WF
  named : s.context.tree.Named s.symbols

namespace Session.Sound

variable {s : Session} (h : s.Sound)

include h

theorem stored {g : FrameId} (hg : g ∈ s.context.tree.path s.context.current) {name : Symbol}
    {cell : Cell Value} (hname : s.symbols.Knows name)
    (hcell : ∀ v, cell = .holds v → v.KnownTo s.symbols) :
    Sound ⟨s.context.withTree (s.context.tree.update g (·.store name cell)), s.symbols⟩ where
  context := (Context.Touches.stored name cell hg).wf h.context
  symbols := h.symbols
  named := h.named.store (h.context.tree.lt_size_of_mem_path h.context.current_lt hg) hname hcell

theorem opened : s.opened.Sound where
  context := Session.opened_wf h.context
  symbols := h.symbols
  named := h.named.of_held fun {f name _} hheld => FrameTree.held_grow f name ▸ hheld

theorem closed : ∃ c, s.context.closeScope = .ok c ∧ Sound ⟨c, s.symbols⟩ := by
  cases hp : s.context.tree.parent? s.context.current with
  | none => exact ⟨s.context, Context.closeScope_of_root h.context hp, h⟩
  | some p =>
    obtain ⟨u, hu, hreleased⟩ := Context.closeScope_of_parent h.context hp
    refine ⟨⟨u, p⟩, hu, (Context.Moves.closed hp hreleased).wf h.context, h.symbols, ?_⟩
    exact h.named.of_held fun hheld => hreleased.held_of_held hheld

theorem grown {more : SymbolTable} (hwf : more.WF) (hgrows : s.symbols.Grows more) :
    Sound ⟨s.context, more⟩ where
  context := h.context
  symbols := hwf
  named := h.named.mono hgrows

end Session.Sound

/-! ## Safe computations -/

namespace Run

/-- A result that is good, an error, or a fault that is tolerated. -/
def Outcome (tolerated : Fault → Prop) (good : A → SymbolTable → Prop) (symbols : SymbolTable) :
    Except (Interruption RuntimeError) A → Prop
  | .ok a => good a symbols
  | .error (.error _) => True
  | .error (.fault fault) => tolerated fault

/-- From a sound session whose table has grown from a given one, a computation leads to a sound
session whose table has grown further, with such an outcome. -/
def Safe (tolerated : Fault → Prop) (good : A → SymbolTable → Prop) (symbols : SymbolTable)
    (m : Run A) : Prop :=
  ∀ ⦃s : Session⦄, s.Sound → symbols.Grows s.symbols →
    (m s).2.Sound ∧ s.symbols.Grows (m s).2.symbols ∧
      Outcome tolerated good (m s).2.symbols (m s).1

variable {tolerated : Fault → Prop} {good : A → SymbolTable → Prop}
  {good' : B → SymbolTable → Prop} {symbols more : SymbolTable}

namespace Safe

theorem pure {a : A} (h : ∀ more, symbols.Grows more → good a more) :
    Safe tolerated good symbols (pure a) :=
  fun _ hs hgrows => ⟨hs, .refl _, h _ hgrows⟩

theorem ofError (e : RuntimeError) :
    Safe tolerated good symbols (Run.ofResult (.error (.error e))) :=
  fun _ hs _ => ⟨hs, .refl _, trivial⟩

theorem mono {m : Run A} (h : Safe tolerated good symbols m) (hgrows : symbols.Grows more) :
    Safe tolerated good more m :=
  fun _ hs hmore => h hs (hgrows.trans hmore)

theorem bind {m : Run A} {k : A → Run B} (hm : Safe tolerated good symbols m)
    (hk : ∀ a more, symbols.Grows more → good a more → Safe tolerated good' more (k a)) :
    Safe tolerated good' symbols (m >>= k) := by
  intro s hs hgrows
  obtain ⟨hsound, hgrows', houtcome⟩ := hm hs hgrows
  rcases hrun : m s with ⟨(e | fault) | a, t⟩
  · rw [hrun] at hsound hgrows'
    rw [bind_of_error hrun]
    exact ⟨hsound, hgrows', trivial⟩
  · rw [hrun] at hsound hgrows' houtcome
    rw [bind_of_error hrun]
    exact ⟨hsound, hgrows', houtcome⟩
  · rw [hrun] at hsound hgrows' houtcome
    rw [bind_of_ok hrun]
    obtain ⟨hsound', hgrows'', houtcome'⟩ :=
      hk a t.symbols (hgrows.trans hgrows') houtcome hsound (.refl _)
    exact ⟨hsound', hgrows'.trans hgrows'', houtcome'⟩

theorem forM {f : A → Run Unit} {l : List A}
    (hf : ∀ a ∈ l, Safe tolerated (fun _ _ => True) symbols (f a)) :
    Safe tolerated (fun _ _ => True) symbols (l.forM f) := by
  induction l generalizing symbols with
  | nil => exact .pure fun _ _ => trivial
  | cons a l ih =>
    refine .bind (hf a List.mem_cons_self) fun _ more hgrows _ => ih fun b hb => ?_
    exact (hf b (List.mem_cons_of_mem a hb)).mono hgrows

theorem inScope {body : Run A} (hbody : Safe tolerated good symbols body) :
    Safe tolerated good symbols (Run.inScope body) := by
  intro s hs hgrows
  obtain ⟨hsound, hgrows', houtcome⟩ := hbody hs.opened hgrows
  obtain ⟨c, hclose, hclosed⟩ := hsound.closed
  have hrun : Run.inScope body s = _ :=
    Run.inScope_of_ok (Session.openScope_ok hs.context) rfl hclose
  rw [hrun]
  exact ⟨hclosed, hgrows', houtcome⟩

end Safe

end Run

/-! ### Accesses to names -/

theorem Interruption.spelled_of_knows {symbols : SymbolTable} {who : Occurrence Symbol}
    (problem : AccessProblem) (h : symbols.Knows who.name) :
    ∃ e, (Interruption.error ⟨problem, who⟩).spelled symbols = .error e := by
  obtain ⟨text, htext⟩ := SymbolTable.knows_iff.1 h
  rw [spelled, AccessError.spell, htext]
  exact ⟨_, rfl⟩

theorem FrameTree.isMismatch_of_locateAt {V : Type} {t : FrameTree V} (wf : t.WF) {f : FrameId}
    (hf : f < t.size) {distance : Nat} {who : Occurrence Symbol} {fault : Fault}
    (h : t.locateAt f distance who = .error fault) : fault.isMismatch = true := by
  rw [locateAt_eq wf hf] at h
  cases hg : (t.path f)[distance]? with
  | none =>
    rw [hg] at h
    cases h
    rfl
  | some g =>
    simp only [hg] at h
    cases hcell : t.held g who.name with
    | none =>
      rw [hcell] at h
      cases h
      rfl
    | some cell =>
      rw [hcell] at h
      cases h

namespace Script

/-- A distance that the script goes by does not belong to the scopes. -/
def Tolerates (x : Script) (fault : Fault) : Prop :=
  fault.isMismatch = true ∧ ∃ id distance, x.distance? id = some distance

variable {x : Script} {symbols : SymbolTable} {id : ExprId} {who : Occurrence Symbol}

/-- A cell that is found ends a read, in its value or in an error that has a text. -/
theorem ofAccess_safe {s : Session} (hs : s.Sound) (hwho : s.symbols.Knows who.name)
    {g : FrameId} {cell : Cell Value} (hcell : s.context.tree.held g who.name = some cell) :
    Run.Outcome x.Tolerates Value.KnownTo s.symbols (Run.ofAccess (cell.read who) s).1 := by
  cases cell with
  | holds v => exact hs.named.value hcell
  | unassigned =>
    obtain ⟨e, he⟩ := Interruption.spelled_of_knows .unassigned hwho
    rw [Cell.read, Run.ofAccess_error, he]
    trivial

theorem readName_safe (hwho : symbols.Knows who.name) :
    Run.Safe x.Tolerates Value.KnownTo symbols (x.readName id who) := by
  intro s hs hgrows
  have hknows := hgrows.knows hwho
  rw [x.readName_snd who s]
  refine ⟨hs, .refl _, ?_⟩
  cases hdistance : x.distance? id with
  | some distance =>
    rw [x.readName_of_some who s hdistance, Context.readAt, FrameTree.readAt]
    cases hfound : s.context.tree.locateAt s.context.current distance who with
    | error fault =>
      exact ⟨FrameTree.isMismatch_of_locateAt hs.context.tree hs.context.current_lt hfound,
        id, distance, hdistance⟩
    | ok found =>
      have hheld := FrameTree.locateAt_eq_ok hs.context.tree hs.context.current_lt hfound
      exact ofAccess_safe hs hknows hheld.2
  | none =>
    rw [x.readName_of_none who s hdistance, Context.read,
      FrameTree.read_eq hs.context.tree hs.context.current_lt]
    cases hfound : s.context.tree.nearest s.context.current who.name with
    | some found => exact ofAccess_safe hs hknows (FrameTree.held_of_nearest hfound).2
    | none =>
      obtain ⟨e, he⟩ := Interruption.spelled_of_knows .undeclared hknows
      simp only [Run.ofAccess_error, he]
      trivial

theorem writeName_safe {value : Value} (hwho : symbols.Knows who.name)
    (hvalue : value.KnownTo symbols) :
    Run.Safe x.Tolerates (fun _ _ => True) symbols (x.writeName id who value) := by
  intro s hs hgrows
  have hknows := hgrows.knows hwho
  have hcell : ∀ v, Cell.holds value = .holds v → v.KnownTo s.symbols := by
    intro v heq
    cases heq
    exact hvalue.mono hgrows
  cases hdistance : x.distance? id with
  | some distance =>
    rw [x.writeName_of_some who value s hdistance, Context.writeAt_eq hs.context]
    cases hfound : s.context.tree.locateAt s.context.current distance who with
    | error fault =>
      exact ⟨hs, .refl _,
        FrameTree.isMismatch_of_locateAt hs.context.tree hs.context.current_lt hfound,
        id, distance, hdistance⟩
    | ok found =>
      have hheld := FrameTree.locateAt_eq_ok hs.context.tree hs.context.current_lt hfound
      exact ⟨hs.stored (List.mem_of_getElem? hheld.1) hknows hcell, .refl _, trivial⟩
  | none =>
    rw [x.writeName_of_none who value s hdistance, Context.write_eq hs.context]
    cases hfound : s.context.tree.nearest s.context.current who.name with
    | some found =>
      exact ⟨hs.stored (FrameTree.held_of_nearest hfound).1 hknows hcell, .refl _, trivial⟩
    | none =>
      obtain ⟨e, he⟩ := Interruption.spelled_of_knows .undeclared hknows
      simp only [he]
      exact ⟨hs, .refl _, trivial⟩

theorem declare_safe {tolerated : Fault → Prop} {name : Symbol} (hname : symbols.Knows name) :
    Run.Safe tolerated (fun _ _ => True) symbols (Run.modifyContext (·.declare name)) := by
  intro s hs hgrows
  rw [Run.modifyContext_of_ok (Context.declare_ok hs.context name)]
  exact ⟨hs.stored (FrameTree.mem_path_self _ _) (hgrows.knows hname) nofun, .refl _, trivial⟩

theorem define_safe {tolerated : Fault → Prop} {name : Symbol} {value : Value}
    (hname : symbols.Knows name) (hvalue : value.KnownTo symbols) :
    Run.Safe tolerated (fun _ _ => True) symbols (Run.modifyContext (·.define name value)) := by
  intro s hs hgrows
  rw [Run.modifyContext_of_ok (Context.define_ok hs.context name value)]
  refine ⟨hs.stored (FrameTree.mem_path_self _ _) (hgrows.knows hname) ?_, .refl _, trivial⟩
  intro v heq
  cases heq
  exact hvalue.mono hgrows

end Script

/-! ### Operators -/

theorem BinaryOp.join_known {symbols : SymbolTable} (wf : symbols.WF) {a b : Symbol}
    (ha : symbols.Knows a) (hb : symbols.Knows b) :
    ∃ joined more, join symbols a b = .ok (joined, more) ∧ more.WF ∧ symbols.Grows more ∧
      more.Knows joined := by
  obtain ⟨left, hleft⟩ := SymbolTable.knows_iff.1 ha
  obtain ⟨right, hright⟩ := SymbolTable.knows_iff.1 hb
  obtain ⟨hwf, hgrows, htext⟩ := wf.intern (left ++ right)
  exact ⟨_, _, join_eq hleft hright, hwf, hgrows, SymbolTable.knows_iff.2 ⟨_, htext⟩⟩

theorem BinaryOp.names_onNumbers (a b : UInt64) (op : BinaryOp) :
    (op.onNumbers a b).names = [] := by
  cases op <;> rfl

/-- An operator on known values ends in an error, or in a known value and a table that has grown. -/
theorem BinaryOp.apply_known {symbols : SymbolTable} (wf : symbols.WF) (op : BinaryOp)
    {left right : Value} (hleft : left.KnownTo symbols) (hright : right.KnownTo symbols) :
    (∃ e, op.apply symbols left right = .error (.error e)) ∨
      ∃ v more, op.apply symbols left right = .ok (v, more) ∧ more.WF ∧ symbols.Grows more ∧
        v.KnownTo more := by
  have quiet : ∀ {v : Value}, v.names = [] → symbols.WF ∧ symbols.Grows symbols ∧
      v.KnownTo symbols := fun hv => ⟨wf, .refl _, Value.knownTo_of_names_eq_nil hv⟩
  unfold apply
  split
  · exact .inr ⟨_, _, rfl, quiet rfl⟩
  · exact .inr ⟨_, _, rfl, quiet rfl⟩
  · obtain ⟨joined, more, hjoin, hwf, hgrows, hknows⟩ :=
      join_known wf (Value.knownTo_str.1 hleft) (Value.knownTo_str.1 hright)
    rw [hjoin]
    exact .inr ⟨_, _, rfl, hwf, hgrows, Value.knownTo_str.2 hknows⟩
  · exact .inr ⟨_, _, rfl, quiet (names_onNumbers _ _ _)⟩
  · exact .inl ⟨_, rfl⟩

namespace Script

variable {symbols : SymbolTable} {tolerated : Fault → Prop}

theorem applyBinary_safe (op : BinaryOp) (span : Span) {left right : Value}
    (hleft : left.KnownTo symbols) (hright : right.KnownTo symbols) :
    Run.Safe tolerated Value.KnownTo symbols (applyBinary op span left right) := by
  intro s hs hgrows
  rw [applyBinary]
  rcases op.apply_known hs.symbols (hleft.mono hgrows) (hright.mono hgrows) with
    ⟨e, he⟩ | ⟨v, more, hv, hwf, hmore, hknown⟩
  · rw [he]
    exact ⟨hs, .refl _, trivial⟩
  · rw [hv]
    exact ⟨hs.grown hwf hmore, hmore, hknown⟩

theorem applyUnary_safe (op : UnaryOp) (span : Span) (operand : Value) :
    Run.Safe tolerated Value.KnownTo symbols (applyUnary op span operand) := by
  unfold applyUnary
  cases happly : op.apply operand with
  | error e => exact .ofError _
  | ok v =>
    refine .pure fun _ _ => Value.knownTo_of_names_eq_nil ?_
    unfold UnaryOp.apply at happly
    split at happly <;> cases happly <;> rfl

/-! ## Runs of sound programs -/

variable {x : Script}

/-- As many levels as the rank are enough: each operand has a smaller rank, and none has rank
zero. -/
theorem evaluateWithin_safe {fuel : Nat} {id : ExprId}
    (h : x.program.Sound symbols (.expr id)) (hfuel : x.program.exprRank (.expr id) ≤ fuel) :
    Run.Safe x.Tolerates Value.KnownTo symbols (x.evaluateWithin fuel id) := by
  induction fuel generalizing id with
  | zero => exact absurd h.exprRank_pos (Nat.not_lt.2 hfuel)
  | succ fuel ih =>
    obtain ⟨⟨form, span⟩, hexpr, hnames, hoperands⟩ := h.expr
    have operand : ∀ e ∈ form.operands,
        Run.Safe x.Tolerates Value.KnownTo symbols (x.evaluateWithin fuel e) := fun e he => by
      obtain ⟨hsound, hrank⟩ := hoperands e he
      exact ih hsound (Nat.le_of_lt_succ (Nat.lt_of_lt_of_le hrank hfuel))
    rw [evaluateWithin, hexpr, Run.ofFault_ok_bind]
    cases form with
    | literal value =>
      exact .pure fun _ => (Value.knownTo_ofLiteral.2 hnames).mono
    | reference who => exact readName_safe (hnames _ List.mem_cons_self)
    | assign target value =>
      -- The value may have added texts before the target is looked for.
      refine .bind (operand value List.mem_cons_self) fun v more hgrows hv => ?_
      have htarget := hgrows.knows (hnames _ List.mem_cons_self)
      exact .bind (writeName_safe htarget hv) fun _ _ hgrows' _ =>
        .pure fun _ hgrows'' => hv.mono (hgrows'.trans hgrows'')
    | binary left op right =>
      refine .bind (operand left List.mem_cons_self) fun a more hgrows ha => ?_
      have hright := operand right (List.mem_cons_of_mem _ List.mem_cons_self)
      refine .bind (hright.mono hgrows) fun b _ hgrows' hb => ?_
      exact applyBinary_safe op span (ha.mono hgrows') hb
    | unary op inner =>
      exact .bind (operand inner List.mem_cons_self) fun v _ _ _ =>
        applyUnary_safe op span v
    | logical left op right =>
      refine .bind (operand left List.mem_cons_self) fun a more hgrows ha => ?_
      by_cases hdecided : op.decidedBy a.isTruthy = true
      · simp only [hdecided, if_true]
        exact .pure fun _ => ha.mono
      · simp only [hdecided]
        exact (operand right (List.mem_cons_of_mem _ List.mem_cons_self)).mono hgrows
    | group inner => exact operand inner List.mem_cons_self

theorem evaluate_safe {id : ExprId} (h : x.program.Sound symbols (.expr id)) :
    Run.Safe x.Tolerates Value.KnownTo symbols (x.evaluate id) :=
  evaluateWithin_safe h (Nat.le_succ_of_le (Nat.le_add_right_of_le h.exprRank_le))

theorem executeWithin_safe {fuel : Nat} {id : StmtId}
    (h : x.program.Sound symbols (.stmt id)) (hfuel : x.program.stmtRank (.stmt id) ≤ fuel) :
    Run.Safe x.Tolerates (fun _ _ => True) symbols (x.executeWithin fuel id) := by
  induction fuel generalizing id with
  | zero => exact absurd h.stmtRank_pos (Nat.not_lt.2 hfuel)
  | succ fuel ih =>
    obtain ⟨⟨form, span⟩, body, hstmt, hbody, hnames, hexprs, hinner⟩ := h.stmt
    rw [executeWithin, hstmt, Run.ofFault_ok_bind]
    cases form with
    | expression e =>
      exact .bind (evaluate_safe (hexprs e List.mem_cons_self)) fun _ _ _ _ =>
        .pure fun _ _ => trivial
    | declare name init =>
      have hname := hnames _ List.mem_cons_self
      cases init with
      | none => exact declare_safe hname
      | some init =>
        exact .bind (evaluate_safe (hexprs init List.mem_cons_self)) fun value _ hgrows hvalue =>
          define_safe (hgrows.knows hname) hvalue
    | block range =>
      simp only [show x.program.body range = .ok body from hbody, Run.ofFault_ok_bind]
      refine .inScope (.forM fun inner hmem => ?_)
      obtain ⟨hsound, hrank⟩ := hinner inner hmem
      exact ih hsound (Nat.le_of_lt_succ (Nat.lt_of_lt_of_le hrank hfuel))

theorem execute_safe {id : StmtId} (h : x.program.Sound symbols (.stmt id)) :
    Run.Safe x.Tolerates (fun _ _ => True) symbols (x.execute id) :=
  executeWithin_safe h (Nat.le_succ_of_le (Nat.le_add_right_of_le h.stmtRank_le))

end Script

theorem Script.perform_safe {x : Script} {symbols : SymbolTable} {job : Job}
    (h : ∀ n ∈ job.roots, x.program.Sound symbols n) :
    Run.Safe x.Tolerates (fun result more => ∀ v ∈ result, v.KnownTo more) symbols
      (x.perform job) := by
  cases job with
  | evaluate id =>
    refine .bind (evaluate_safe (h _ List.mem_cons_self)) fun v _ _ hv => .pure fun _ hgrows => ?_
    intro w hw
    cases hw
    exact hv.mono hgrows
  | execute id =>
    exact .bind (execute_safe (h _ List.mem_cons_self)) fun _ _ _ _ => .pure fun _ _ => nofun
  | interpret ids =>
    refine .bind (.forM fun id hid => ?_) fun _ _ _ _ => .pure fun _ _ => nofun
    exact execute_safe (h _ (List.mem_map_of_mem hid))

/-- What holds after a run, in whatever way it has ended. -/
structure Script.EndsWell (x : Script) (job : Job) (s : Session) : Prop where
  /-- Without distances there is no fault. -/
  faultless : x.mode = .byName ∨ x.distances = .empty →
    ∀ fault, (x.perform job s).1 ≠ .error (.fault fault)
  mismatch : ∀ fault, (x.perform job s).1 = .error (.fault fault) → fault.isMismatch = true
  grows : s.symbols.Grows (x.perform job s).2.symbols
  named : (x.perform job s).2.context.tree.Named (x.perform job s).2.symbols
  known : ∀ v, (x.perform job s).1 = .ok (some v) → v.KnownTo (x.perform job s).2.symbols
  /-- The value of the run and all values that are held have texts. -/
  rendered : ∀ v, ((x.perform job s).1 = .ok (some v) ∨
      ∃ f name, (x.perform job s).2.context.tree.held f name = some (.holds v)) →
    ∃ text, v.render (x.perform job s).2.symbols = .ok text
  /-- All expressions that belong to the job have texts. -/
  printed : ∀ n ∈ job.roots, ∀ id, x.program.Reaches n (.expr id) →
    ∃ text, x.program.reversePolish s.symbols id = .ok text

/-- A job on sound nodes ends in a result or in an error, or else in the fault of a distance that
does not belong to the scopes. No symbol is left without a text, wherever it is held. -/
theorem perform_endsWell (x : Script) (job : Job) {s : Session}
    (hprogram : ∀ n ∈ job.roots, x.program.Sound s.symbols n) (hcontext : s.context.Reachable)
    (hsymbols : s.symbols.Reachable) (hnamed : s.context.tree.Named s.symbols) :
    x.EndsWell job s := by
  have hsound : s.Sound := ⟨hcontext.wf, hsymbols.wf, hnamed⟩
  obtain ⟨hsound', hgrows, houtcome⟩ := x.perform_safe hprogram hsound (.refl _)
  have hfault : ∀ fault, (x.perform job s).1 = .error (.fault fault) → x.Tolerates fault := by
    intro fault heq
    rw [heq] at houtcome
    exact houtcome
  have hknown : ∀ v, (x.perform job s).1 = .ok (some v) →
      v.KnownTo (x.perform job s).2.symbols := by
    intro v heq
    rw [heq] at houtcome
    exact houtcome v rfl
  refine ⟨fun hmode fault heq => ?_, fun fault heq => (hfault fault heq).1, hgrows, hsound'.named,
    hknown, fun v hv => ?_, fun n hn id hreach => ?_⟩
  · obtain ⟨-, id, distance, hdistance⟩ := hfault fault heq
    rw [x.distance?_eq_none hmode] at hdistance
    cases hdistance
  · rcases hv with heq | ⟨f, name, hheld⟩
    · exact (hknown v heq).render_ok
    · exact (hsound'.named.value hheld).render_ok
  · exact Program.reversePolish_ok ((hprogram n hn).of_reaches hreach)

/-- A string that is joined with another one in an inner block, for a target whose distance leads
past the root. -/
theorem perform_endsWell_joined :
    let a : Occurrence Symbol := ⟨⟨1⟩, .nowhere⟩
    let x : Script :=
      { program :=
          { exprs := #[⟨.literal (.str ⟨2⟩), .nowhere⟩, ⟨.reference a, .nowhere⟩,
              ⟨.binary ⟨1⟩ .add ⟨0⟩, .nowhere⟩, ⟨.assign a ⟨2⟩, .nowhere⟩]
            stmts := #[⟨.declare a (some ⟨0⟩), .nowhere⟩, ⟨.expression ⟨3⟩, .nowhere⟩,
              ⟨.block ⟨0, 1⟩, .nowhere⟩]
            bodies := #[⟨1⟩] }
        distances := .ofList [(⟨3⟩, 2)]
        mode := .byDistance
        spareLevels := 0 }
    let s : Session :=
      .new ((SymbolTable.new.step (.intern "a")).2.step (.intern "b")).2
    let job : Job := .interpret [⟨0⟩, ⟨2⟩]
    (∀ n ∈ job.roots, x.program.Sound s.symbols n) ∧ s.context.Reachable ∧ s.symbols.Reachable ∧
      s.context.tree.Named s.symbols ∧ x.EndsWell job s ∧
      (x.perform job s).1 = .error (.fault (.pastRoot 2 1 1)) ∧
      (x.perform job s).2.symbols.texts = #["", "a", "b", "bb"] := by
  intro a x s job
  have hprogram : ∀ n ∈ job.roots, x.program.Sound s.symbols n := by
    have hordered : x.program.isOrdered [.stmt ⟨0⟩, .stmt ⟨2⟩, .stmt ⟨1⟩, .expr ⟨3⟩, .expr ⟨2⟩,
        .expr ⟨1⟩, .expr ⟨0⟩] = true := by decide +kernel
    intro n hn
    refine Program.sound_of_isOrdered hordered ?_ ?_
    · unfold SymbolTable.Knows
      decide +kernel
    · revert n
      decide +kernel
  have hsymbols : s.symbols.Reachable := .step (.step .new _) _
  exact ⟨hprogram, .new, hsymbols, FrameTree.named_new,
    perform_endsWell x job hprogram .new hsymbols FrameTree.named_new, rfl, by decide +kernel⟩

end Scoping
