import Scoping.Proofs.Frame.Reachable

/-!
# By name and by distance

A name can be looked for from a frame outward, or at a distance from it. A frame `DeclaresAt` a
distance if the frame that the distance leads to declares the name; `distanceTo?` is the least such
distance (`distanceTo?_eq_some_iff`). It leads to what the search by name finds, so that there the
two accesses are the same (`readAt_of_distanceTo?`, `writeAt_of_distanceTo?`).

An access by distance has nothing to fall back on: it goes wrong exactly when the distance passes
the root or leads to a frame without the name. `Addressed` has this together with what every walk
counts, and `addressed_after` says that it holds of every frame of every tree that can be reached.
-/

namespace Scoping

/-- The first entry of a list that has an image is found by place and by image. -/
theorem findSome?_of_findIdx? {A B : Type} {l : List A} {f : A → Option B} {i : Nat}
    (h : l.findIdx? (fun a => (f a).isSome) = some i) :
    ∃ a b, l[i]? = some a ∧ f a = some b ∧
      l.findSome? (fun a => (f a).map (a, ·)) = some (a, b) := by
  induction l generalizing i with
  | nil => cases h
  | cons a l ih =>
    rw [List.findIdx?_cons] at h
    rw [List.findSome?_cons]
    cases ha : f a with
    | some b =>
      simp only [ha, Option.isSome_some, if_true] at h
      cases h
      exact ⟨a, b, rfl, ha, rfl⟩
    | none =>
      simp only [ha, Option.isSome_none] at h
      obtain ⟨j, hj, rfl⟩ := Option.map_eq_some_iff.1 h
      exact ih hj

namespace FrameTree

variable {V : Type} {t : FrameTree V} {f : FrameId}

/-- Frame `f` is frame `g` or around it. -/
def Encloses (t : FrameTree V) (f g : FrameId) : Prop := ∃ distance, t.ancestor g distance = .ok f

/-- The frame at a distance from `f` declares a name. -/
def DeclaresAt (t : FrameTree V) (f : FrameId) (name : Symbol) (distance : Nat) : Prop :=
  ∃ g cell, t.ancestor f distance = .ok g ∧ t.cell? g name = .ok (some cell)

/-- The least distance at which a name is declared. -/
def FirstDeclaredAt (t : FrameTree V) (f : FrameId) (name : Symbol) (distance : Nat) : Prop :=
  t.DeclaresAt f name distance ∧ ∀ nearer < distance, ¬ t.DeclaresAt f name nearer

/-- How many links lead from a frame to the nearest one that declares a name. -/
def distanceTo? (t : FrameTree V) (f : FrameId) (name : Symbol) : Option Nat :=
  (t.path f).findIdx? fun g => (t.held g name).isSome

/-! ## The frames at a distance -/

section distance

variable (wf : t.WF) (hf : f < t.size)

include wf hf

theorem ancestor_eq_ok_iff {distance : Nat} {g : FrameId} :
    t.ancestor f distance = .ok g ↔ (t.path f)[distance]? = some g := by
  rw [ancestor_eq wf hf]
  cases (t.path f)[distance]? with
  | none => simp
  | some h => simp

theorem encloses_iff {g : FrameId} : t.Encloses g f ↔ g ∈ t.path f := by
  unfold Encloses
  simp only [ancestor_eq_ok_iff wf hf, List.mem_iff_getElem?]

/-- Each link leads one level up: what is left of the path is the path of the frame reached. -/
theorem path_ancestor {distance : Nat} {g : FrameId} (hg : t.ancestor f distance = .ok g) :
    t.path g = (t.path f).drop distance := by
  rw [ancestor_eq_ok_iff wf hf] at hg
  induction distance generalizing f with
  | zero =>
    obtain ⟨rest, hrest⟩ := head_path t f
    rw [hrest] at hg
    cases hg
    rfl
  | succ distance ih =>
    cases hp : t.parent? f with
    | none =>
      rw [path_of_parent?_eq_none hp] at hg
      simp at hg
    | some p =>
      rw [path_of_parent? wf.parents_first hp] at hg ⊢
      exact ih (wf.parent_lt_size hp) hg

theorem declaresAt_iff {name : Symbol} {distance : Nat} :
    t.DeclaresAt f name distance ↔
      ∃ g, (t.path f)[distance]? = some g ∧ (t.held g name).isSome = true := by
  unfold DeclaresAt
  constructor
  · rintro ⟨g, cell, hg, hcell⟩
    rw [ancestor_eq_ok_iff wf hf] at hg
    have hlt := wf.lt_size_of_mem_path hf (List.mem_of_getElem? hg)
    rw [cell?_eq hlt] at hcell
    refine ⟨g, hg, ?_⟩
    rw [Except.ok.inj hcell]
    rfl
  · rintro ⟨g, hg, hheld⟩
    have hlt := wf.lt_size_of_mem_path hf (List.mem_of_getElem? hg)
    obtain ⟨cell, hcell⟩ := Option.isSome_iff_exists.1 hheld
    refine ⟨g, cell, (ancestor_eq_ok_iff wf hf).2 hg, ?_⟩
    rw [cell?_eq hlt, hcell]

theorem distanceTo?_eq_some_iff {name : Symbol} {distance : Nat} :
    t.distanceTo? f name = some distance ↔ t.FirstDeclaredAt f name distance := by
  unfold distanceTo? FirstDeclaredAt
  rw [List.findIdx?_eq_some_iff_getElem, declaresAt_iff wf hf]
  constructor
  · rintro ⟨hlt, hheld, hnearer⟩
    refine ⟨⟨_, List.getElem?_eq_getElem hlt, hheld⟩, ?_⟩
    intro nearer hn hdeclares
    obtain ⟨g, hg, hgheld⟩ := (declaresAt_iff wf hf).1 hdeclares
    obtain ⟨hlt', rfl⟩ := List.getElem?_eq_some_iff.1 hg
    exact hnearer nearer hn hgheld
  · rintro ⟨⟨g, hg, hgheld⟩, hnearer⟩
    obtain ⟨hlt, rfl⟩ := List.getElem?_eq_some_iff.1 hg
    refine ⟨hlt, hgheld, ?_⟩
    intro nearer hn hheld
    refine hnearer nearer hn ((declaresAt_iff wf hf).2 ⟨_, ?_, hheld⟩)
    exact List.getElem?_eq_getElem (Nat.lt_trans hn hlt)

theorem distanceTo?_eq_none_iff {name : Symbol} :
    t.distanceTo? f name = none ↔ ∀ distance, ¬ t.DeclaresAt f name distance := by
  unfold distanceTo?
  rw [List.findIdx?_eq_none_iff]
  constructor
  · intro h distance hdeclares
    obtain ⟨g, hg, hheld⟩ := (declaresAt_iff wf hf).1 hdeclares
    rw [h g (List.mem_of_getElem? hg)] at hheld
    cases hheld
  · intro h g hg
    obtain ⟨distance, hlt, rfl⟩ := List.mem_iff_getElem.1 hg
    rw [← Bool.not_eq_true]
    intro hheld
    exact h distance ((declaresAt_iff wf hf).2 ⟨_, List.getElem?_eq_getElem hlt, hheld⟩)

end distance

/-! ## The two accesses at the right distance -/

theorem nearest_eq_none_iff {name : Symbol} :
    t.nearest f name = none ↔ t.distanceTo? f name = none := by
  rw [nearest, distanceTo?, List.findSome?_eq_none_iff, List.findIdx?_eq_none_iff]
  simp only [Option.map_eq_none_iff, Option.isSome_eq_false_iff, Option.isNone_iff_eq_none]

section located

variable (wf : t.WF) (hf : f < t.size) {distance : Nat} {who : Occurrence Symbol}
  (h : t.distanceTo? f who.name = some distance)

include wf hf h

theorem located_of_distanceTo? : ∃ found, t.nearest f who.name = some found ∧
    t.locateAt f distance who = .ok found := by
  obtain ⟨g, cell, hg, hcell, hnearest⟩ := findSome?_of_findIdx? h
  refine ⟨(g, cell), hnearest, ?_⟩
  rw [locateAt_eq wf hf, hg]
  simp only [hcell]

/-- A right distance leads to the cell that is found by name. -/
theorem readAt_of_distanceTo? : t.readAt f distance who = t.read f who := by
  obtain ⟨found, hnearest, hlocate⟩ := located_of_distanceTo? wf hf h
  rw [readAt, hlocate, read_eq wf hf, hnearest]
  rfl

theorem writeAt_of_distanceTo? (value : V) :
    ∃ u, t.writeAt f distance who value = .ok u ∧ t.write f who value = .ok u := by
  obtain ⟨found, hnearest, hlocate⟩ := located_of_distanceTo? wf hf h
  refine ⟨t.update found.1 (·.store who.name (.holds value)), ?_, ?_⟩
  · rw [writeAt_eq wf hf, hlocate]
  · rw [write_eq wf hf, hnearest]

end located

/-! ## What a distance does -/

/-- A distance that an access cannot use: it passes the root, or the frame that it leads to does not
declare the name. -/
def Misses (t : FrameTree V) (f : FrameId) (depth distance : Nat) (name : Symbol) : Prop :=
  depth < distance ∨ ∃ g, t.ancestor f distance = .ok g ∧ t.cell? g name = .ok none

/-- How the walks from a frame agree, given how many links lead from it to the root. -/
structure Addressed (t : FrameTree V) (f : FrameId) (depth : Nat) : Prop where
  depth_eq : t.depth f = .ok depth
  /-- A distance up to the depth leads to a frame that is so much closer to the root. -/
  within : ∀ {distance}, distance ≤ depth →
    ∃ g, t.ancestor f distance = .ok g ∧ t.depth g = .ok (depth - distance)
  at_depth : t.ancestor f depth = .ok FrameId.root
  /-- A larger one is a fault, after all the links there are. -/
  beyond : ∀ {distance}, depth < distance →
    t.ancestor f distance = .error (.pastRoot distance f depth)
  undeclared : ∀ who value, (∀ distance, ¬ t.DeclaresAt f who.name distance) →
    t.read f who = .error (.error ⟨.undeclared, who⟩) ∧
      t.step (.write f who value) = (.ok (.refused ⟨.undeclared, who⟩), t)
  /-- The least distance at which the name is declared is as good as the name. -/
  declared : ∀ who value {distance}, t.FirstDeclaredAt f who.name distance →
    distance ≤ depth ∧ t.read f who = t.readAt f distance who ∧
      ∃ u, t.step (.write f who value) = (.ok .written, u) ∧
        t.step (.writeAt f distance who value) = (.ok .done, u)
  readAt_fault_iff : ∀ distance who,
    (∃ fault, t.readAt f distance who = .error (.fault fault)) ↔ t.Misses f depth distance who.name
  writeAt_fault_iff : ∀ distance who value,
    (∃ fault, (t.step (.writeAt f distance who value)).1 = .error fault) ↔
      t.Misses f depth distance who.name
  readAt_unchanged : ∀ distance who, (t.step (.readAt f distance who)).2 = t
  /-- A write that is a fault changes nothing. -/
  writeAt_unchanged : ∀ distance who value fault,
    (t.step (.writeAt f distance who value)).1 = .error fault →
      (t.step (.writeAt f distance who value)).2 = t

theorem step_write_of_ok {u : FrameTree V} {who : Occurrence Symbol} {value : V}
    (h : t.write f who value = .ok u) : t.step (.write f who value) = (.ok .written, u) := by
  rw [step, apply, h]

theorem step_write_of_error {who : Occurrence Symbol} {value : V} {e : AccessError}
    (h : t.write f who value = .error (.error e)) :
    t.step (.write f who value) = (.ok (.refused e), t) := by
  rw [step, apply, h]

theorem step_writeAt_of_ok {u : FrameTree V} {distance : Nat} {who : Occurrence Symbol} {value : V}
    (h : t.writeAt f distance who value = .ok u) :
    t.step (.writeAt f distance who value) = (.ok .done, u) := by
  rw [step, apply, h]
  rfl

theorem step_writeAt_of_error {distance : Nat} {who : Occurrence Symbol} {value : V} {fault : Fault}
    (h : t.writeAt f distance who value = .error fault) :
    t.step (.writeAt f distance who value) = (.error fault, t) := by
  rw [step, apply, h]
  rfl

/-- A step that ends in a fault leaves the tree as it was. -/
theorem step_snd_of_fault {action : FrameAction Symbol V} {fault : Fault}
    (h : (t.step action).1 = .error fault) : (t.step action).2 = t := by
  unfold step at h ⊢
  cases happly : t.apply action with
  | error _ => rfl
  | ok result =>
    rw [happly] at h
    cases h

theorem length_path : (t.path f).length = (t.path f).tail.length + 1 := by
  obtain ⟨rest, hrest⟩ := head_path t f
  rw [hrest]
  rfl

section addressed

variable (wf : t.WF) (hf : f < t.size)

include wf hf

theorem locateAt_fault_iff {distance : Nat} {who : Occurrence Symbol} :
    (∃ fault, t.locateAt f distance who = .error fault) ↔
      t.Misses f (t.path f).tail.length distance who.name := by
  unfold Misses
  rw [locateAt_eq wf hf]
  cases hg : (t.path f)[distance]? with
  | none =>
    have hle := List.getElem?_eq_none_iff.1 hg
    rw [length_path] at hle
    exact ⟨fun _ => .inl hle, fun _ => ⟨_, rfl⟩⟩
  | some g =>
    have hlt := wf.lt_size_of_mem_path hf (List.mem_of_getElem? hg)
    have hancestor := (ancestor_eq_ok_iff wf hf).2 hg
    have hshort : ¬ (t.path f).tail.length < distance := by
      have := (List.getElem?_eq_some_iff.1 hg).1
      rw [length_path] at this
      omega
    cases hcell : t.held g who.name with
    | none =>
      simp only [hcell]
      refine ⟨fun _ => .inr ⟨g, hancestor, ?_⟩, fun _ => ⟨_, rfl⟩⟩
      rw [cell?_eq hlt, hcell]
    | some cell =>
      simp only [hcell]
      constructor
      · rintro ⟨fault, hfault⟩
        cases hfault
      · rintro (hlong | ⟨g', hg', hnone⟩)
        · exact absurd hlong hshort
        · rw [hancestor] at hg'
          cases hg'
          rw [cell?_eq hlt, hcell] at hnone
          cases hnone

theorem addressed : t.Addressed f (t.path f).tail.length where
  depth_eq := FrameTree.depth_eq wf hf
  within {distance} hle := by
    have hlt : distance < (t.path f).length := by
      rw [length_path]
      omega
    have hg := (ancestor_eq_ok_iff wf hf).2 (List.getElem?_eq_getElem hlt)
    have hmem := wf.lt_size_of_mem_path hf (List.getElem_mem hlt)
    refine ⟨_, hg, ?_⟩
    rw [FrameTree.depth_eq wf hmem, path_ancestor wf hf hg, List.tail_drop, List.length_drop,
      List.length_tail]
    congr 1
    omega
  at_depth := (ancestor_eq_ok_iff wf hf).2 (wf.getElem?_path_root hf)
  beyond {distance} hlt := by
    have hnone : (t.path f)[distance]? = none := by
      rw [List.getElem?_eq_none_iff, length_path]
      omega
    rw [ancestor_eq wf hf, hnone]
  undeclared who value hnone := by
    have hnearest := nearest_eq_none_iff.2 ((distanceTo?_eq_none_iff wf hf).2 hnone)
    constructor
    · rw [read_eq wf hf, hnearest]
    · apply step_write_of_error
      rw [write_eq wf hf, hnearest]
  declared who value {distance} hfirst := by
    have hdistance := (distanceTo?_eq_some_iff wf hf).2 hfirst
    obtain ⟨u, hwriteAt, hwrite⟩ := writeAt_of_distanceTo? wf hf hdistance value
    refine ⟨?_, (readAt_of_distanceTo? wf hf hdistance).symm, u, step_write_of_ok hwrite,
      step_writeAt_of_ok hwriteAt⟩
    obtain ⟨g, hg, -⟩ := (declaresAt_iff wf hf).1 hfirst.1
    have hlt := (List.getElem?_eq_some_iff.1 hg).1
    rw [length_path] at hlt
    omega
  readAt_fault_iff distance who := by
    rw [← locateAt_fault_iff wf hf, readAt]
    cases hlocate : t.locateAt f distance who with
    | error fault => exact ⟨fun _ => ⟨fault, rfl⟩, fun _ => ⟨fault, rfl⟩⟩
    | ok found =>
      constructor
      · rintro ⟨fault, hfault⟩
        obtain ⟨g, cell⟩ := found
        cases cell <;> cases hfault
      · rintro ⟨fault, hfault⟩
        cases hfault
  writeAt_fault_iff distance who value := by
    have hwriteAt := writeAt_eq wf hf distance who value
    rw [← locateAt_fault_iff wf hf]
    cases hlocate : t.locateAt f distance who with
    | error fault =>
      rw [hlocate] at hwriteAt
      rw [step_writeAt_of_error hwriteAt]
      exact ⟨fun _ => ⟨fault, rfl⟩, fun _ => ⟨fault, rfl⟩⟩
    | ok found =>
      rw [hlocate] at hwriteAt
      rw [step_writeAt_of_ok hwriteAt]
      constructor <;> rintro ⟨fault, hfault⟩ <;> cases hfault
  readAt_unchanged distance who := by
    rw [step, apply]
    cases Reply.ofRead (t.readAt f distance who) with
    | error fault => rfl
    | ok reply => rfl
  writeAt_unchanged _ _ _ _ := step_snd_of_fault

end addressed

/-- In a tree that any actions have made, the walks from every frame agree: the search by name finds
what the least fitting distance leads to, and a distance goes wrong exactly when it passes the root
or the frame that it leads to lacks the name. -/
theorem addressed_after (actions : List (FrameAction Symbol V))
    (hf : f < (new.after actions).size) :
    ∃ depth, (new.after actions).Addressed f depth :=
  ⟨_, addressed (wf_new.after actions) hf⟩

/-- From the innermost of three scopes, a name that the one around it declares without a value and so
hides from the one further out. -/
theorem addressed_after_hidden :
    let actions : List (FrameAction Symbol Bool) :=
      [.extend 0, .define 1 ⟨1⟩ true, .extend 1, .declare 2 ⟨1⟩, .extend 2]
    3 < (new.after actions).size ∧ (new.after actions).FirstDeclaredAt 3 ⟨1⟩ 1 ∧
      ∃ depth, (new.after actions).Addressed 3 depth := by
  intro actions
  have hf : 3 < (new.after actions).size := by decide
  have hdistance : (new.after actions).distanceTo? 3 ⟨1⟩ = some 1 := by decide
  exact ⟨hf, (distanceTo?_eq_some_iff (wf_new.after actions) hf).1 hdistance,
    addressed_after actions hf⟩

end FrameTree

end Scoping
