import Scoping.Context.Basic
import Scoping.Value.Operation

/-!
Sessions: the state that running a program changes, and computations on it.

A computation takes a session to a session in every case, whether it ends in a result, in an error
of the program or in a fault; changes made before the end stay. A scope opened around a computation
is closed again however the computation ends.
-/

namespace Scoping

/-- The state of a running program. -/
structure Session where
  context : Context Value
  symbols : SymbolTable

def Session.new (symbols : SymbolTable) : Session := ⟨.new, symbols⟩

/-- Opens a scope, does something, and then closes the scope that is current at that moment. -/
@[inline] def Session.inScope {A : Type} (s : Session) (body : Session → A × Session) :
    Except Fault A × Session :=
  match s.context.openScope with
  | .error fault => (.error fault, s)
  | .ok context =>
    let (result, s) := body { s with context }
    match s.context.closeScope with
    | .error fault => (.error fault, s)
    | .ok context => (.ok result, { s with context })

inductive Mode where
  /-- A node with a known distance goes by it; the others go by name. -/
  | byDistance
  /-- Every node goes by name. -/
  | byName
deriving DecidableEq

/-- What is being run: a program, the distances known for its nodes, and whether to use them. -/
structure Script where
  program : Program Symbol
  distances : Distances
  mode : Mode
  /-- How many levels deeper than the number of its nodes the program may be run. Only a program
  that refers to itself can need any: its blocks and expressions run again inside themselves until
  a name has the value that ends it. -/
  spareLevels : Nat := Nat.pow 2 32

/-- The distance that a node is resolved by, if it does not go by name. -/
def Script.distance? (x : Script) (id : ExprId) : Option Nat :=
  match x.mode with
  | .byDistance => x.distances.find? id
  | .byName => none

/-- A computation on a session. -/
def Run (A : Type) : Type := Session → Except (Interruption RuntimeError) A × Session

namespace Run

variable {A B : Type}

@[always_inline, inline]
instance : Monad Run where
  pure a := fun s => (.ok a, s)
  bind m k := fun s =>
    match m s with
    | (.ok a, s) => k a s
    | (.error e, s) => (.error e, s)

/-- A computation after one that has ended well. -/
theorem bind_of_ok {m : Run A} {k : A → Run B} {s t : Session} {a : A} (h : m s = (.ok a, t)) :
    (m >>= k) s = k a t := by
  simp [bind, h]

/-- Nothing follows a computation that has not ended well. -/
theorem bind_of_error {m : Run A} {k : A → Run B} {s t : Session}
    {e : Interruption RuntimeError} (h : m s = (.error e, t)) : (m >>= k) s = (.error e, t) := by
  simp [bind, h]

/-- The computation that does nothing and ends in a given way. -/
@[inline] def ofResult (r : Except (Interruption RuntimeError) A) : Run A := fun s => (r, s)

/-- The computation that does nothing and ends in a result or a fault. -/
@[inline] def ofFault (r : Except Fault A) : Run A := ofResult (Interruption.lift r)

@[inline] def session : Run Session := fun s => (.ok s, s)

@[inline] def modifyContext (f : Context Value → Except Fault (Context Value)) : Run Unit :=
  fun s => match f s.context with
  | .ok context => (.ok (), { s with context })
  | .error fault => (.error (.fault fault), s)

/-- Ends as an access to a name ended; the error of a failed access has the name spelled out. -/
@[inline] def ofAccess (r : Except (Interruption AccessError) A) : Run A := fun s =>
  match r with
  | .ok a => (.ok a, s)
  | .error (.fault fault) => (.error (.fault fault), s)
  | .error (.error e) =>
    match e.spell s.symbols with
    | .ok e => (.error (.error e), s)
    | .error fault => (.error (.fault fault), s)

def inScope (body : Run A) : Run A := fun s =>
  match s.inScope body with
  | (.ok result, s) => (result, s)
  | (.error fault, s) => (.error (.fault fault), s)

end Run

end Scoping
