import Scoping.Symbol.Table
import Scoping.Syntax.Program

/-!
Drafts: programs written down node by node.

A draft is a program together with the symbol table that its names go into and the list of block
bodies stored so far. A name is numbered when its node is added. Besides single nodes a draft takes
towers, which put layers around one expression or statement; a tower without layers adds no node
and so numbers no name.
-/

namespace Scoping

/-- One layer around an expression. -/
inductive Wrap (N : Type) where
  | group
  | unary (op : UnaryOp)
  | assign (target : Occurrence N)
  /-- The wrapped expression is the left operand. -/
  | binaryLeft (op : BinaryOp) (right : ExprId)
  /-- The wrapped expression is the right operand. -/
  | binaryRight (left : ExprId) (op : BinaryOp)
  | logicalLeft (op : LogicalOp) (right : ExprId)
  | logicalRight (left : ExprId) (op : LogicalOp)
deriving DecidableEq

def Wrap.form {N : Type} (w : Wrap N) (inner : ExprId) : ExprForm N :=
  match w with
  | .group => .group inner
  | .unary op => .unary op inner
  | .assign target => .assign target inner
  | .binaryLeft op right => .binary inner op right
  | .binaryRight left op => .binary left op inner
  | .logicalLeft op right => .logical inner op right
  | .logicalRight left op => .logical left op inner

/-- The body of a block: the one stored in a given place, or a run given by its numbers. -/
inductive BodyRef where
  | stored (place : Nat)
  | run (range : StmtRange)
deriving DecidableEq

/-- What can be added to a draft. -/
inductive Entry (N : Type) where
  | expr (e : Expr N)
  | stmt (s : Stmt N)
  | block (which : BodyRef) (span : Span)
  | body (stmts : List StmtId)
  /-- Layers around an expression, the innermost first. -/
  | tower (layers : List (Wrap N)) (inner : ExprId) (span : Span)
  /-- `count` blocks around a statement. -/
  | blockTower (inner : StmtId) (count : Nat) (span : Span)
deriving DecidableEq

def Wrap.traverse {N M : Type} {m : Type → Type} [Monad m] (f : N → m M) :
    Wrap N → m (Wrap M)
  | .group => pure .group
  | .unary op => pure (.unary op)
  | .assign target => .assign <$> target.traverse f
  | .binaryLeft op right => pure (.binaryLeft op right)
  | .binaryRight left op => pure (.binaryRight left op)
  | .logicalLeft op right => pure (.logicalLeft op right)
  | .logicalRight left op => pure (.logicalRight left op)

def Entry.traverse {N M : Type} {m : Type → Type} [Monad m] (f : N → m M) :
    Entry N → m (Entry M)
  | .expr e => .expr <$> e.traverse f
  | .stmt s => .stmt <$> s.traverse f
  | .block which span => pure (.block which span)
  | .body stmts => pure (.body stmts)
  | .tower layers inner span => do return .tower (← layers.mapM (·.traverse f)) inner span
  | .blockTower inner count span => pure (.blockTower inner count span)

/-- What an entry became. -/
inductive Added where
  | expr (id : ExprId)
  | stmt (id : StmtId)
  | body (range : StmtRange)
deriving DecidableEq

/-- A program being written down. -/
structure Draft where
  program : Program Symbol
  symbols : SymbolTable
  stored : Array StmtRange

namespace Draft

def new : Draft := ⟨.empty, .new, #[]⟩

def addExpr (d : Draft) (e : Expr Symbol) : ExprId × Draft :=
  let (id, program) := d.program.addExpr e
  (id, { d with program })

def addStmt (d : Draft) (s : Stmt Symbol) : StmtId × Draft :=
  let (id, program) := d.program.addStmt s
  (id, { d with program })

def addBody (d : Draft) (stmts : List StmtId) : StmtRange × Draft :=
  let (range, program) := d.program.addBody stmts
  (range, { d with program, stored := d.stored.push range })

/-- Adds layers around an expression, the innermost first. -/
def addTower (span : Span) : List (Wrap Symbol) → ExprId → Draft → ExprId × Draft
  | [], inner, d => (inner, d)
  | wrap :: layers, inner, d =>
    let (outer, d) := d.addExpr ⟨wrap.form inner, span⟩
    addTower span layers outer d

/-- Adds `count` blocks around a statement, each with a body of its own. -/
def addBlockTower (span : Span) : Nat → StmtId → Draft → StmtId × Draft
  | 0, inner, d => (inner, d)
  | count + 1, inner, d =>
    let (range, d) := d.addBody [inner]
    let (outer, d) := d.addStmt ⟨.block range, span⟩
    addBlockTower span count outer d

/-- The run of statements that a block refers to; a place where nothing was stored is empty. -/
def range (d : Draft) : BodyRef → StmtRange
  | .stored place => d.stored[place]?.getD ⟨0, 0⟩
  | .run range => range

/-- Adds an entry whose names are numbered. -/
def addNumbered (d : Draft) : Entry Symbol → Added × Draft
  | .expr e => let (id, d) := d.addExpr e; (.expr id, d)
  | .stmt s => let (id, d) := d.addStmt s; (.stmt id, d)
  | .block which span => let (id, d) := d.addStmt ⟨.block (d.range which), span⟩; (.stmt id, d)
  | .body stmts => let (range, d) := d.addBody stmts; (.body range, d)
  | .tower layers inner span =>
    let (id, d) := addTower span layers inner d
    (.expr id, d)
  | .blockTower inner count span =>
    let (id, d) := addBlockTower span count inner d
    (.stmt id, d)

/-- Adds an entry: its names are numbered first. -/
def add (d : Draft) (entry : Entry String) : Added × Draft :=
  let (entry, symbols) := (entry.traverse SymbolTable.internM).run d.symbols
  { d with symbols }.addNumbered entry

/-- The draft of a list of entries. -/
def ofEntries (entries : List (Entry String)) : Draft :=
  entries.foldl (fun d entry => (d.add entry).2) new

end Draft

end Scoping
