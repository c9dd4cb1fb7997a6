import Scoping.Proofs.Run.Outline
import Scoping.Proofs.Run.Safety
import Scoping.Proofs.Syntax.Renamed

/-!
# Sessions that differ in their symbols

Two trees of scopes are `Renamed` into each other along a naming when they have the same frames and
hold corresponding cells: each cell of the one has a counterpart in the same frame of the other,
under a name that stands for its name and with a value that stands for its value. Where the naming
is one to one, a name and its counterpart are then found in the same frame, by name
(`nearest_cases`) and by distance (`locateAt_cases`), and storing under both keeps the trees
renamed.

Two sessions are renamed when their trees are, along the symbols with the same text. `Twins` are
renamed sessions that are well formed, which is what a run keeps.
-/

namespace Scoping

variable {R S : Naming}

/-! ## Values -/

inductive Value.Renamed (R : Naming) : Value → Value → Prop
  | nil : Renamed R .nil .nil
  | bool (b : Bool) : Renamed R (.bool b) (.bool b)
  | number (bits : UInt64) : Renamed R (.number bits) (.number bits)
  | str {a b : Symbol} (h : R a b) : Renamed R (.str a) (.str b)

namespace Value

variable {v v' w w' : Value}

theorem Renamed.mono (h : R.Within S) (hv : v.Renamed R v') : v.Renamed S v' := by
  cases hv with
  | nil => exact .nil
  | bool b => exact .bool b
  | number bits => exact .number bits
  | str hab => exact .str (h hab)

theorem renamed_of_names_eq_nil (h : v.names = []) : v.Renamed R v := by
  cases v with
  | nil => exact .nil
  | bool b => exact .bool b
  | number bits => exact .number bits
  | str s => cases h

theorem renamed_ofLiteral {l l' : Literal Symbol} (h : l.Renamed R l') :
    (ofLiteral l).Renamed R (ofLiteral l') := by
  cases h with
  | nil => exact .nil
  | bool b => exact .bool b
  | number bits => exact .number bits
  | str hab => exact .str hab

theorem Renamed.isTruthy_eq (h : v.Renamed R v') : v.isTruthy = v'.isTruthy := by
  cases h <;> rfl

theorem Renamed.isEqual_eq (hR : R.OneToOne) (hv : v.Renamed R v') (hw : w.Renamed R w') :
    v.isEqual w = v'.isEqual w' := by
  cases hv with
  | str h =>
    cases hw with
    | str h' => exact decide_eq_decide.2 (hR h h')
    | _ => rfl
  | _ => cases hw <;> rfl

theorem Renamed.render_ok {t u : SymbolTable} (h : v.Renamed (t.SameText u) v') :
    ∃ text, v.render t = .ok text ∧ v'.render u = .ok text := by
  cases h with
  | nil => exact ⟨_, rfl, rfl⟩
  | bool b => exact ⟨_, rfl, rfl⟩
  | number x => exact ⟨_, rfl, rfl⟩
  | str h => exact h

end Value

/-! ## Trees -/

inductive Cell.Renamed (R : Naming) : Cell Value → Cell Value → Prop
  | unassigned : Renamed R .unassigned .unassigned
  | holds {v w : Value} (h : v.Renamed R w) : Renamed R (.holds v) (.holds w)

theorem Cell.Renamed.mono {c d : Cell Value} (h : R.Within S) (hc : c.Renamed R d) :
    c.Renamed S d := by
  cases hc with
  | unassigned => exact .unassigned
  | holds hv => exact .holds (hv.mono h)

/-- Faults that differ at most in the name that was looked for. -/
inductive Fault.Renamed (R : Naming) : Fault → Fault → Prop
  | same {f : Fault} (h : f.isMismatch = false) : Renamed R f f
  | pastRoot (distance : Nat) (frame : FrameId) (hops : Nat) :
      Renamed R (.pastRoot distance frame hops) (.pastRoot distance frame hops)
  | notDeclared {who who' : Occurrence Symbol} (h : who.Renamed R who') (frame : FrameId)
      (distance : Nat) :
      Renamed R (.notDeclared who frame distance) (.notDeclared who' frame distance)

namespace FrameTree

structure Renamed (R : Naming) (t u : FrameTree Value) : Prop where
  marks : t.marks = u.marks
  forth : ∀ {f a c}, t.held f a = some c → ∃ b d, R a b ∧ u.held f b = some d ∧ c.Renamed R d
  back : ∀ {f b d}, u.held f b = some d → ∃ a c, R a b ∧ t.held f a = some c ∧ c.Renamed R d

theorem renamed_new : (new : FrameTree Value).Renamed R new := by
  have hbare : ∀ f name, (new : FrameTree Value).held f name = none := by
    intro f name
    rw [held, new]
    cases f <;> rfl
  constructor
  · rfl
  · intro f a c hheld
    rw [hbare] at hheld
    cases hheld
  · intro f b d hheld
    rw [hbare] at hheld
    cases hheld

namespace Renamed

variable {t u : FrameTree Value}

theorem mono (h : R.Within S) (ht : t.Renamed R u) : t.Renamed S u where
  marks := ht.marks
  forth hheld := by
    obtain ⟨b, d, hab, hd, hcd⟩ := ht.forth hheld
    exact ⟨b, d, h hab, hd, hcd.mono h⟩
  back hheld := by
    obtain ⟨a, c, hab, hc, hcd⟩ := ht.back hheld
    exact ⟨a, c, h hab, hc, hcd.mono h⟩

variable (h : t.Renamed R u)

include h

theorem size_eq : t.size = u.size := size_of_marks h.marks

theorem path_eq (wf : t.WF) (f : FrameId) : u.path f = t.path f :=
  path_congr wf.parents_first fun g _ => by
    rw [parent?_eq_marks, parent?_eq_marks, h.marks]

theorem grow (p : FrameId) : (t.grow p).Renamed R (u.grow p) where
  marks := by rw [marks_grow, marks_grow, h.marks]
  forth hheld := by
    rw [held_grow] at hheld
    simp only [held_grow]
    exact h.forth hheld
  back hheld := by
    rw [held_grow] at hheld
    simp only [held_grow]
    exact h.back hheld

/-- Giving back the frame at the end of both trees keeps what the other frames hold. -/
theorem released {t' u' : FrameTree Value} {f : FrameId} (ht : Released t f t')
    (hu : Released u f u') (hmarks : t'.marks = u'.marks) (hf : t'.size ≤ f) :
    t'.Renamed R u' where
  marks := hmarks
  forth {g a c} hheld := by
    obtain ⟨b, d, hab, hd, hcd⟩ := h.forth (ht.held_of_held hheld)
    have hlt := lt_of_held hheld
    have hframe := hu.frame_eq_of_ne (size_of_marks hmarks ▸ hlt)
      (Nat.ne_of_lt (Nat.lt_of_lt_of_le hlt hf))
    exact ⟨b, d, hab, (held_congr hframe b).trans hd, hcd⟩
  back {g b d} hheld := by
    obtain ⟨a, c, hab, hc, hcd⟩ := h.back (hu.held_of_held hheld)
    have hlt : g < t'.size := size_of_marks hmarks ▸ lt_of_held hheld
    have hframe := ht.frame_eq_of_ne hlt (Nat.ne_of_lt (Nat.lt_of_lt_of_le hlt hf))
    exact ⟨a, c, hab, (held_congr hframe a).trans hc, hcd⟩

variable (hR : R.OneToOne) {a b : Symbol} (hab : R a b)

include hR hab

theorem held_cases (f : FrameId) :
    (t.held f a = none ∧ u.held f b = none) ∨
      ∃ c d, t.held f a = some c ∧ u.held f b = some d ∧ c.Renamed R d := by
  cases ht : t.held f a with
  | some c =>
    obtain ⟨b', d, hab', hd, hcd⟩ := h.forth ht
    obtain rfl := (hR hab hab').1 rfl
    exact .inr ⟨c, d, rfl, hd, hcd⟩
  | none =>
    cases hu : u.held f b with
    | none => exact .inl ⟨rfl, rfl⟩
    | some d =>
      obtain ⟨a', c, hab', hc, -⟩ := h.back hu
      obtain rfl := (hR hab hab').2 rfl
      cases ht.symm.trans hc

theorem nearest_cases (wf : t.WF) (f : FrameId) :
    (t.nearest f a = none ∧ u.nearest f b = none) ∨
      ∃ g c d, t.nearest f a = some (g, c) ∧ u.nearest f b = some (g, d) ∧ c.Renamed R d := by
  rw [nearest, nearest, h.path_eq wf]
  generalize t.path f = path
  induction path with
  | nil => exact .inl ⟨rfl, rfl⟩
  | cons g path ih =>
    rw [List.findSome?_cons, List.findSome?_cons]
    rcases h.held_cases hR hab g with ⟨ht, hu⟩ | ⟨c, d, ht, hu, hcd⟩
    · rw [ht, hu]
      exact ih
    · rw [ht, hu]
      exact .inr ⟨g, c, d, rfl, rfl, hcd⟩

theorem store {f : FrameId} (hf : f < t.size) {c d : Cell Value} (hcd : c.Renamed R d) :
    (t.update f (·.store a c)).Renamed R (u.update f (·.store b d)) where
  marks := by
    rw [marks_store, marks_store]
    exact h.marks
  forth {g m e} hheld := by
    rw [held_store hf] at hheld
    simp only [held_store (h.size_eq ▸ hf)]
    by_cases hself : g = f ∧ m = a
    · obtain ⟨rfl, rfl⟩ := hself
      rw [if_pos ⟨rfl, rfl⟩] at hheld
      cases hheld
      exact ⟨b, d, hab, if_pos ⟨rfl, rfl⟩, hcd⟩
    · rw [if_neg hself] at hheld
      obtain ⟨n, e', hmn, he', hee'⟩ := h.forth hheld
      -- The counterpart of another name is another name.
      have hother : ¬ (g = f ∧ n = b) := fun hn => hself ⟨hn.1, (hR hmn hab).2 hn.2⟩
      exact ⟨n, e', hmn, by rwa [if_neg hother], hee'⟩
  back {g n e'} hheld := by
    rw [held_store (h.size_eq ▸ hf)] at hheld
    simp only [held_store hf]
    by_cases hself : g = f ∧ n = b
    · obtain ⟨rfl, rfl⟩ := hself
      rw [if_pos ⟨rfl, rfl⟩] at hheld
      cases hheld
      exact ⟨a, c, hab, if_pos ⟨rfl, rfl⟩, hcd⟩
    · rw [if_neg hself] at hheld
      obtain ⟨m, e, hmn, he, hee'⟩ := h.back hheld
      have hother : ¬ (g = f ∧ m = a) := fun hm => hself ⟨hm.1, (hR hmn hab).1 hm.2⟩
      exact ⟨m, e, hmn, by rwa [if_neg hother], hee'⟩

omit hab in
theorem locateAt_cases (wf : t.WF) (wf' : u.WF) {f : FrameId} (hf : f < t.size) (distance : Nat)
    {who who' : Occurrence Symbol} (hwho : who.Renamed R who') :
    (∃ fault fault', t.locateAt f distance who = .error fault ∧
        u.locateAt f distance who' = .error fault' ∧ fault.Renamed R fault') ∨
      ∃ g c d, t.locateAt f distance who = .ok (g, c) ∧ u.locateAt f distance who' = .ok (g, d) ∧
        c.Renamed R d := by
  rw [FrameTree.locateAt_eq wf hf, FrameTree.locateAt_eq wf' (h.size_eq ▸ hf), h.path_eq wf]
  cases (t.path f)[distance]? with
  | none => exact .inl ⟨_, _, rfl, rfl, .pastRoot _ _ _⟩
  | some g =>
    rcases h.held_cases hR hwho.name g with ⟨ht, hu⟩ | ⟨c, d, ht, hu, hcd⟩
    · simp only [ht, hu]
      exact .inl ⟨_, _, rfl, rfl, .notDeclared hwho g distance⟩
    · simp only [ht, hu]
      exact .inr ⟨g, c, d, rfl, rfl, hcd⟩

end Renamed

end FrameTree

/-! ## Sessions -/

namespace Session

/-- The symbols with the same text in both sessions. -/
def naming (s t : Session) : Naming := s.symbols.SameText t.symbols

structure Renamed (s t : Session) : Prop where
  current : s.context.current = t.context.current
  tree : s.context.tree.Renamed (s.naming t) t.context.tree

structure Twins (s t : Session) : Prop extends Renamed s t where
  context : s.context.WF
  context' : t.context.WF
  symbols : s.symbols.WF
  symbols' : t.symbols.WF

namespace Twins

variable {s t : Session} (h : s.Twins t)

include h

theorem oneToOne : (s.naming t).OneToOne := SymbolTable.oneToOne_sameText h.symbols h.symbols'

theorem stored {g : FrameId} (hg : g ∈ s.context.tree.path s.context.current) {a b : Symbol}
    {c d : Cell Value} (hab : s.naming t a b) (hcd : c.Renamed (s.naming t) d) :
    Twins ⟨s.context.withTree (s.context.tree.update g (·.store a c)), s.symbols⟩
      ⟨t.context.withTree (t.context.tree.update g (·.store b d)), t.symbols⟩ where
  current := h.current
  tree := h.tree.store h.oneToOne hab
    (h.context.tree.lt_size_of_mem_path h.context.current_lt hg) hcd
  context := (Context.Touches.stored a c hg).wf h.context
  context' := by
    rw [← h.tree.path_eq h.context.tree, h.current] at hg
    exact (Context.Touches.stored b d hg).wf h.context'
  symbols := h.symbols
  symbols' := h.symbols'

theorem opened : s.opened.Twins t.opened where
  current := h.tree.size_eq
  tree := by
    rw [Session.opened, Session.opened, ← h.current]
    exact h.tree.grow s.context.current
  context := Session.opened_wf h.context
  context' := Session.opened_wf h.context'
  symbols := h.symbols
  symbols' := h.symbols'

/-- The scopes that were opened on both sides are closed again. -/
theorem closed {ended ended' s' t' : Session} (hended : ended.Twins ended')
    (hs : s.Closed ended s') (ht : t.Closed ended' t') : s'.Twins t' where
  current := by
    rw [hs.current, ht.current]
    exact h.current
  tree := by
    have hreleased' := ht.released
    rw [← h.tree.size_eq] at hreleased'
    have hmarks := hs.marks.trans (h.tree.marks.trans ht.marks.symm)
    have htree := hended.tree.released hs.released hreleased' hmarks (Nat.le_of_eq hs.size_eq)
    rwa [naming, ← hs.symbols, ← ht.symbols] at htree
  context := hs.context
  context' := ht.context
  symbols := hs.symbols ▸ hended.symbols
  symbols' := ht.symbols ▸ hended.symbols'

theorem grown {more more' : SymbolTable} (hwf : more.WF) (hwf' : more'.WF)
    (hgrows : s.symbols.Grows more) (hgrows' : t.symbols.Grows more') :
    Twins ⟨s.context, more⟩ ⟨t.context, more'⟩ where
  current := h.current
  tree := h.tree.mono (hgrows.within hgrows')
  context := h.context
  context' := h.context'
  symbols := hwf
  symbols' := hwf'

end Twins

/-- Fresh sessions hold no symbols. -/
theorem twins_new {t u : SymbolTable} (ht : t.WF) (hu : u.WF) :
    (Session.new t).Twins (Session.new u) where
  current := rfl
  tree := FrameTree.renamed_new
  context := Context.wf_new
  context' := Context.wf_new
  symbols := ht
  symbols' := hu

end Session

end Scoping
