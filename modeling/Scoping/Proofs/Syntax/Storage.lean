import Mathlib.Data.List.Basic
import Scoping.Syntax.Draft

/-!
# What is stored in a program stays there

A program is written down piece by piece: an expression, a statement, or the body of a block. Each
piece is answered by where it went. Nothing that was stored is moved or changed by a later piece
(`Extends`), so that an answer `Holds` its piece in the program it was given for and in every later
one.

Expressions and statements are numbered from zero, each kind for itself. The bodies stand one behind
another in one list, and the runs that were answered cover it from end to end (`Follow`); whether
any other run can be read depends on the length of the list alone (`body_eq_ok_iff`).
`stored_after` has all of this for any pieces in any order.
-/

namespace Scoping

/-- What can be stored in a program. -/
inductive Piece (N : Type) where
  | expr (e : Expr N)
  | stmt (s : Stmt N)
  | body (stmts : List StmtId)

namespace Piece

variable {N : Type}

def expr? : Piece N → Option (Expr N)
  | .expr e => some e
  | _ => none

def stmt? : Piece N → Option (Stmt N)
  | .stmt s => some s
  | _ => none

end Piece

def Added.range? : Added → Option StmtRange
  | .body range => some range
  | _ => none

/-- Runs of entries that follow one another, from one position to another, with nothing between two
of them and nothing in two of them. -/
inductive Follow : Nat → List StmtRange → Nat → Prop
  | nil (stop : Nat) : Follow stop [] stop
  | cons {r : StmtRange} {rest : List StmtRange} {stop : Nat}
      (h : Follow (r.start + r.len) rest stop) : Follow r.start (r :: rest) stop

namespace Program

variable {N : Type} {p q : Program N}

/-- Stores a piece and says where it went. -/
def store (p : Program N) : Piece N → Added × Program N
  | .expr e =>
    let (id, p) := p.addExpr e
    (.expr id, p)
  | .stmt s =>
    let (id, p) := p.addStmt s
    (.stmt id, p)
  | .body stmts =>
    let (range, p) := p.addBody stmts
    (.body range, p)

/-- A program after some more pieces. -/
def after (p : Program N) (pieces : List (Piece N)) : Program N :=
  pieces.foldl (fun p piece => (p.store piece).2) p

/-- Where the pieces went, one after the other. -/
def answers (p : Program N) : List (Piece N) → List Added
  | [] => []
  | piece :: pieces => (p.store piece).1 :: (p.store piece).2.answers pieces

/-! ## Reading -/

/-- A run can be read if and only if it does not reach beyond the end. -/
theorem body_eq_ok_iff {r : StmtRange} {stmts : List StmtId} :
    p.body r = .ok stmts ↔
      r.start + r.len ≤ p.bodies.size ∧ (p.bodies.toList.drop r.start).take r.len = stmts := by
  have hread : (p.bodies.extract r.start (r.start + r.len)).toList =
      (p.bodies.toList.drop r.start).take r.len := by
    rw [Array.toList_extract, List.extract_eq_take_drop, Nat.add_sub_cancel_left]
  rw [body, hread]
  by_cases hstart : p.bodies.size < r.start
  · simp only [if_pos hstart, reduceCtorEq, false_iff, not_and]
    omega
  · by_cases hstop : p.bodies.size < r.start + r.len
    · simp only [if_neg hstart, if_pos hstop, reduceCtorEq, false_iff, not_and]
      omega
    · simp only [if_neg hstart, if_neg hstop, Except.ok.injEq, Nat.not_lt.1 hstop, true_and]

theorem toList_bodies_addBody (p : Program N) (stmts : List StmtId) :
    (p.addBody stmts).2.bodies.toList = p.bodies.toList ++ stmts :=
  Array.toList_appendList

theorem size_bodies_addBody (p : Program N) (stmts : List StmtId) :
    (p.addBody stmts).2.bodies.size = p.bodies.size + stmts.length := by
  rw [← Array.length_toList, toList_bodies_addBody, List.length_append, Array.length_toList]

/-- The run that is answered begins where the list ended, and is as long as the body. -/
theorem range_addBody (p : Program N) (stmts : List StmtId) :
    (p.addBody stmts).1 = ⟨p.bodies.size, stmts.length⟩ :=
  congrArg (StmtRange.mk p.bodies.size)
    (Nat.sub_eq_of_eq_add' (p.size_bodies_addBody stmts))

/-- Everything that can be read in one program can be read in another, and is the same there. -/
structure Extends (p q : Program N) : Prop where
  expr : ∀ {id e}, p.expr id = .ok e → q.expr id = .ok e
  stmt : ∀ {id s}, p.stmt id = .ok s → q.stmt id = .ok s
  body : ∀ {r stmts}, p.body r = .ok stmts → q.body r = .ok stmts

theorem Extends.refl (p : Program N) : p.Extends p := ⟨id, id, id⟩

theorem Extends.trans {r : Program N} (h : p.Extends q) (h' : q.Extends r) : p.Extends r :=
  ⟨fun he => h'.expr (h.expr he), fun hs => h'.stmt (h.stmt hs), fun hb => h'.body (h.body hb)⟩

theorem slot_push {A : Type} {entries : Array A} {index : Nat} {a : A} (new : A)
    (h : slot entries index = .ok a) : slot (entries.push new) index = .ok a := by
  rw [slot_eq_ok_iff] at h ⊢
  have hlt := (Array.getElem?_eq_some_iff.1 h).1
  rw [Array.getElem?_push_lt hlt, ← h, Array.getElem?_eq_getElem hlt]

theorem body_addBody {r : StmtRange} {stmts : List StmtId} (more : List StmtId)
    (h : p.body r = .ok stmts) : (p.addBody more).2.body r = .ok stmts := by
  rw [body_eq_ok_iff] at h ⊢
  obtain ⟨hle, rfl⟩ := h
  rw [size_bodies_addBody, toList_bodies_addBody]
  refine ⟨Nat.le_trans hle (Nat.le_add_right _ _), ?_⟩
  rw [← Array.length_toList] at hle
  rw [List.drop_append_of_le_length (by omega),
    List.take_append_of_le_length (by rw [List.length_drop]; omega)]

theorem extends_store (p : Program N) (piece : Piece N) : p.Extends (p.store piece).2 := by
  cases piece with
  | expr e => exact ⟨slot_push e, id, id⟩
  | stmt s => exact ⟨id, slot_push s, id⟩
  | body stmts => exact ⟨id, id, body_addBody stmts⟩

theorem extends_after (p : Program N) (pieces : List (Piece N)) : p.Extends (p.after pieces) := by
  induction pieces generalizing p with
  | nil => exact .refl p
  | cons piece pieces ih => exact (p.extends_store piece).trans (ih _)

/-! ## One piece -/

/-- The piece is found where the answer says. -/
def Holds (p : Program N) : Added → Piece N → Prop
  | .expr id, .expr e => p.expr id = .ok e
  | .stmt id, .stmt s => p.stmt id = .ok s
  | .body range, .body stmts => p.body range = .ok stmts
  | _, _ => False

theorem Holds.mono {answer : Added} {piece : Piece N} (h : p.Holds answer piece)
    (hext : p.Extends q) : q.Holds answer piece := by
  cases answer <;> cases piece
  case expr.expr => exact hext.expr h
  case stmt.stmt => exact hext.stmt h
  case body.body => exact hext.body h
  all_goals exact h.elim

theorem body_addBody_self (p : Program N) (stmts : List StmtId) :
    (p.addBody stmts).2.body (p.addBody stmts).1 = .ok stmts := by
  rw [range_addBody, body_eq_ok_iff, size_bodies_addBody, toList_bodies_addBody]
  refine ⟨Nat.le_refl _, ?_⟩
  simp

theorem holds_store (p : Program N) (piece : Piece N) :
    (p.store piece).2.Holds (p.store piece).1 piece := by
  cases piece with
  | expr e => exact p.expr_addExpr_self e
  | stmt s => exact p.stmt_addStmt_self s
  | body stmts => exact p.body_addBody_self stmts

/-! ## Many pieces -/

theorem after_append (p : Program N) (pieces more : List (Piece N)) :
    p.after (pieces ++ more) = (p.after pieces).after more :=
  List.foldl_append

theorem getElem?_answers (p : Program N) (pieces : List (Piece N)) (i : Nat) :
    (p.answers pieces)[i]? =
      pieces[i]?.map fun piece => ((p.after (pieces.take i)).store piece).1 := by
  induction pieces generalizing p i with
  | nil => rfl
  | cons piece pieces ih =>
    cases i with
    | zero => rfl
    | succ i => exact ih _ i

theorem answered {pieces : List (Piece N)} {i : Nat} {piece : Piece N}
    (h : pieces[i]? = some piece) :
    (p.answers pieces)[i]? = some ((p.after (pieces.take i)).store piece).1 := by
  rw [getElem?_answers, h]
  rfl

/-- A piece is found where its answer says, in the next program and in all later ones. -/
theorem holds_after {pieces : List (Piece N)} {i n : Nat} {piece : Piece N}
    (h : pieces[i]? = some piece) (hn : i < n) :
    (p.after (pieces.take n)).Holds ((p.after (pieces.take i)).store piece).1 piece := by
  have hsplit := (List.take_append_drop (i + 1) (pieces.take n)).symm
  rw [List.take_take, Nat.min_eq_left hn, List.take_add_one, h, List.append_assoc] at hsplit
  rw [hsplit, after_append, after_append]
  exact (holds_store _ piece).mono (extends_after _ _)

/-- The expressions are in the program in their order. -/
theorem exprs_after (p : Program N) (pieces : List (Piece N)) :
    (p.after pieces).exprs.toList = p.exprs.toList ++ pieces.filterMap Piece.expr? := by
  induction pieces generalizing p with
  | nil => exact (List.append_nil _).symm
  | cons piece pieces ih =>
    refine (ih _).trans ?_
    rw [List.filterMap_cons]
    cases piece <;> simp [store, addExpr, addStmt, addBody, Piece.expr?]

theorem stmts_after (p : Program N) (pieces : List (Piece N)) :
    (p.after pieces).stmts.toList = p.stmts.toList ++ pieces.filterMap Piece.stmt? := by
  induction pieces generalizing p with
  | nil => exact (List.append_nil _).symm
  | cons piece pieces ih =>
    refine (ih _).trans ?_
    rw [List.filterMap_cons]
    cases piece <;> simp [store, addExpr, addStmt, addBody, Piece.stmt?]

/-- The runs that are answered begin where the list of bodies ended, and end where it ends. -/
theorem follow_answers (p : Program N) (pieces : List (Piece N)) :
    Follow p.bodies.size ((p.answers pieces).filterMap Added.range?)
      (p.after pieces).bodies.size := by
  induction pieces generalizing p with
  | nil => exact .nil _
  | cons piece pieces ih =>
    have hrest := ih (p.store piece).2
    cases piece with
    | expr e => exact hrest
    | stmt s => exact hrest
    | body stmts =>
      have hsize : (p.store (.body stmts)).2.bodies.size = p.bodies.size + stmts.length :=
        p.size_bodies_addBody stmts
      have hrange : (p.store (.body stmts)).1.range? = some ⟨p.bodies.size, stmts.length⟩ :=
        congrArg some (p.range_addBody stmts)
      rw [hsize] at hrest
      rw [answers, List.filterMap_cons_some hrange]
      exact .cons (r := ⟨p.bodies.size, stmts.length⟩) hrest

/-- What can be relied on about the pieces of a program. -/
structure Stored (pieces : List (Piece N)) : Prop where
  /-- An expression is numbered by how many came before it, and is found from then on. -/
  expr : ∀ {i e}, pieces[i]? = some (.expr e) → ∃ id : ExprId,
    (empty.answers pieces)[i]? = some (.expr id) ∧
      id.index = ((pieces.take i).filterMap Piece.expr?).length ∧
      ∀ n, i < n → (empty.after (pieces.take n)).expr id = .ok e
  stmt : ∀ {i s}, pieces[i]? = some (.stmt s) → ∃ id : StmtId,
    (empty.answers pieces)[i]? = some (.stmt id) ∧
      id.index = ((pieces.take i).filterMap Piece.stmt?).length ∧
      ∀ n, i < n → (empty.after (pieces.take n)).stmt id = .ok s
  body : ∀ {i stmts}, pieces[i]? = some (.body stmts) → ∃ range : StmtRange,
    (empty.answers pieces)[i]? = some (.body range) ∧
      ∀ n, i < n → (empty.after (pieces.take n)).body range = .ok stmts
  /-- The runs of the bodies cover the list of bodies, each entry once. -/
  follow : Follow 0 ((empty.answers pieces).filterMap Added.range?) (empty.after pieces).bodies.size
  /-- Any run can be read that does not reach beyond the end. -/
  body_ok_iff : ∀ range, (∃ stmts, (empty.after pieces).body range = .ok stmts) ↔
    range.start + range.len ≤ (empty.after pieces).bodies.size

/-- Whatever pieces are stored in an empty program, in whatever order. -/
theorem stored_after (pieces : List (Piece N)) : Stored pieces where
  expr {i e} h := by
    refine ⟨⟨(empty.after (pieces.take i)).exprs.size⟩, answered h, ?_, fun n hn => ?_⟩
    · rw [← Array.length_toList, exprs_after]
      rfl
    · exact holds_after (p := empty) h hn
  stmt {i s} h := by
    refine ⟨⟨(empty.after (pieces.take i)).stmts.size⟩, answered h, ?_, fun n hn => ?_⟩
    · rw [← Array.length_toList, stmts_after]
      rfl
    · exact holds_after (p := empty) h hn
  body {i stmts} h := by
    refine ⟨((empty.after (pieces.take i)).addBody stmts).1, answered h, fun n hn => ?_⟩
    exact holds_after (p := empty) h hn
  follow := follow_answers empty pieces
  body_ok_iff range := by
    simp only [body_eq_ok_iff]
    exact ⟨fun ⟨_, hle, _⟩ => hle, fun hle => ⟨_, hle, rfl⟩⟩

/-- A body without statements is an empty run, and the next one begins where it stands. -/
example : (empty : Program Symbol).answers [.body [⟨0⟩, ⟨2⟩], .body [], .body [⟨0⟩]] =
    [.body ⟨0, 2⟩, .body ⟨2, 0⟩, .body ⟨2, 1⟩] := rfl

end Program

end Scoping
