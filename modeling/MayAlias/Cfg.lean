import MayAlias.Flow
import MayAlias.Procedure
import MayAlias.Sorting

/-!
# Control-flow graphs

A control-flow graph numbers its statements in the order in which they were added.  `Cfg.build`
makes one from a procedure description, `Cfg.toFlow` presents it to the analysis.
-/

namespace MayAlias

/-- A procedure body with one statement at each node. -/
structure Cfg where
  name : String
  stmts : Array Statement
  /-- The edges, each once, in the order in which they were added. -/
  edges : List (Nat × Nat)
  /-- The entry, if one has been chosen. -/
  entry? : Option Nat

namespace Cfg

/-- A procedure without statements. -/
def new (name : String) : Cfg := ⟨name, #[], [], none⟩

/-- The number of nodes. -/
def size (g : Cfg) : Nat := g.stmts.size

/-- Has the graph no nodes? -/
def isEmpty (g : Cfg) : Bool := g.size == 0

/-- The entry; node 0 when none has been chosen. -/
def entry (g : Cfg) : Nat := g.entry?.getD 0

/-- Adds a node, whose number is the size before.  The first node added becomes the entry, unless
one has been chosen. -/
def push (g : Cfg) (s : Statement) : Cfg :=
  { g with stmts := g.stmts.push s, entry? := some (g.entry?.getD g.size) }

/-- Adds an edge between two nodes; an edge that is there already is not added again. -/
def link (g : Cfg) (source target : Nat) : Cfg :=
  if g.edges.contains (source, target) then g
  else { g with edges := g.edges ++ [(source, target)] }

/-- Chooses the entry. -/
def startAt (g : Cfg) (n : Nat) : Cfg := { g with entry? := some n }

/-- Nodes in ascending order. -/
def ascending (nodes : List Nat) : List Nat := sortBy (fun m n => decide (m ≤ n)) nodes

/-- The nodes to which an edge leads from `n`, ascending. -/
def succs (g : Cfg) (n : Nat) : List Nat :=
  ascending ((g.edges.filter fun e => e.1 == n).map Prod.snd)

/-- The nodes from which an edge leads to `n`, ascending. -/
def preds (g : Cfg) (n : Nat) : List Nat :=
  ascending ((g.edges.filter fun e => e.2 == n).map Prod.fst)

/-- The statement at a node, if it is one. -/
def stmt? (g : Cfg) (n : Nat) : Option Statement := g.stmts[n]?

/-- The numbers `0, 1, …, n - 1`, each with its successor. -/
def consecutive (n : Nat) : List (Nat × Nat) := (List.range (n - 1)).map fun i => (i, i + 1)

/-- Adds statements in order. -/
def pushAll (g : Cfg) (stmts : List Statement) : Cfg := stmts.foldl push g

/-- Adds edges in order. -/
def linkAll (g : Cfg) (edges : List (Nat × Nat)) : Cfg :=
  edges.foldl (fun g (source, target) => g.link source target) g

/-- A procedure in which every statement falls through to the next. -/
def ofStatements (name : String) (stmts : List Statement) : Cfg :=
  ((new name).pushAll stmts).linkAll (consecutive stmts.length)

/-- The graph as the analysis sees it. -/
def toFlow (g : Cfg) : Flow Nat where
  entry := g.entry
  nodes := List.range g.size
  preds := g.preds
  succs := g.succs
  stmt n := (g.stmt? n).getD .other

/-- How a node prints. -/
def inspectNode (n : Nat) : String := "NodeIndex(" ++ toString n ++ ")"

/-! ## Building from a description -/

/-- Why a description has no control-flow graph. -/
inductive BuildError where
  /-- An edge leads from or to something that is not one of the `size` statements. -/
  | edgeOutOfRange (source target : UInt64) (size : Nat)
  /-- The entry is not one of the `size` statements. -/
  | entryOutOfRange (entry : UInt64) (size : Nat)
deriving DecidableEq

/-- The text of an error. -/
def BuildError.message : BuildError → String
  | edgeOutOfRange source target size =>
    "edge " ++ toString source.toNat ++ " -> " ++ toString target.toNat
      ++ " refers to a statement outside 0.." ++ toString size
  | entryOutOfRange entry size =>
    "entry " ++ toString entry.toNat ++ " refers to a statement outside 0.." ++ toString size

/-- The name of a procedure that has none. -/
def defaultName : String := "anonymous"

/-- Adds the edges of a description in order, up to the first that leaves the graph. -/
def linkDescribed (g : Cfg) : List (UInt64 × UInt64) → Except BuildError Cfg
  | [] => .ok g
  | (source, target) :: rest =>
    if source.toNat < g.size ∧ target.toNat < g.size then
      linkDescribed (g.link source.toNat target.toNat) rest
    else .error (.edgeOutOfRange source target g.size)

/-- The edges of a description, or those of falling through. -/
def linkFlow (g : Cfg) : Option (List (UInt64 × UInt64)) → Except BuildError Cfg
  | some edges => g.linkDescribed edges
  | none => .ok (g.linkAll (consecutive g.size))

/-- The entry of a description. -/
def chooseEntry (g : Cfg) : Option UInt64 → Except BuildError Cfg
  | some n =>
    if n.toNat < g.size then .ok (g.startAt n.toNat) else .error (.entryOutOfRange n g.size)
  | none => .ok g

/-- The control-flow graph of a description. -/
def build (p : Procedure) : Except BuildError Cfg := do
  let g := (new (p.name.getD defaultName)).pushAll p.statements
  let g ← g.linkFlow p.edges
  g.chooseEntry p.entry

end Cfg

end MayAlias
