import MayAlias.Effect
import MayAlias.Flow

/-!
# Analysis problems

A flow graph is accepted for analysis when it has nodes, starts at one of them, links only its
nodes to each other, reaches all of them from the entry, and names the site of every allocation.
`Problem.ofFlow` checks this and numbers the nodes by their position in program order.
-/

namespace MayAlias

namespace Analysis

/-- Why a procedure cannot be analysed. -/
inductive Failure (N : Type) where
  | missingSite (node : N)
  | emptyGraph
  | unknownEntry (entry : N)
  | danglingEdge (source target : N)
  | unreachable (node : N)
  | passLimit (passes : Nat)
deriving DecidableEq

/-- The text of an error, given how nodes print. -/
def Failure.message {N : Type} (node : N → String) : Failure N → String
  | missingSite n => "allocation at " ++ node n ++ " has no site identifier"
  | emptyGraph => "the control-flow graph has no nodes"
  | unknownEntry n => "entry " ++ node n ++ " is not a node of the control-flow graph"
  | danglingEdge s t => "edge " ++ node s ++ " -> " ++ node t ++ " leaves the control-flow graph"
  | unreachable n => node n ++ " is unreachable from the entry"
  | passLimit passes => "no fixpoint after " ++ toString passes ++ " passes"

/-- A checked procedure.  Nodes are given by their position in program order. -/
structure Problem (N : Type) where
  /-- The nodes in program order. -/
  order : List N
  /-- The positions of every node's predecessors. -/
  preds : Array (List Nat)
  /-- The positions of the nodes without successors. -/
  exits : List Nat
  /-- The effect of every node's statement. -/
  effects : Array Effect
  /-- The allocation sites of the procedure. -/
  sites : SiteTable

/-! ## Positions -/

/-- The position of the last occurrence of a node. -/
def position? {N : Type} [DecidableEq N] (nodes : List N) (n : N) : Option Nat :=
  match nodes with
  | [] => none
  | m :: rest =>
    match position? rest n with
    | some p => some (p + 1)
    | none => if m = n then some 0 else none

/-! ## Reachability -/

/-- The positions reached by following links, given those seen so far and those among them whose
links have still to be followed.  The first argument bounds the number of these. -/
def explore (succs : Array (List Nat)) : Nat → List Nat → List Nat → List Nat
  | 0, _, seen => seen
  | _ + 1, [], seen => seen
  | n + 1, p :: todo, seen =>
    let fresh := ((succs.getD p []).filter fun q => !seen.contains q).eraseDups
    explore succs n (fresh ++ todo) (fresh ++ seen)

/-- The positions reached from `start`; each is visited once. -/
def reached (succs : Array (List Nat)) (start : Nat) : List Nat :=
  explore succs (succs.size + 1) [start] [start]

namespace Problem

variable {N : Type} [DecidableEq N]

/-- The positions of the end points of links, up to the first that leaves the graph. -/
def resolve (nodes : List N) (edge : N → N × N) : List N → Except (Failure N) (List Nat)
  | [] => .ok []
  | n :: rest =>
    match position? nodes n with
    | none => .error (.danglingEdge (edge n).1 (edge n).2)
    | some p => do
      let ps ← resolve nodes edge rest
      .ok (p :: ps)

/-- The positions of the predecessors and successors of nodes, in their order. -/
def links (g : Flow N) : List N → Except (Failure N) (List (List Nat × List Nat))
  | [] => .ok []
  | n :: rest => do
    let preds ← resolve g.nodes (fun p => (p, n)) (g.preds n)
    let succs ← resolve g.nodes (fun s => (n, s)) (g.succs n)
    let others ← links g rest
    .ok ((preds, succs) :: others)

/-- The effects of the statements at nodes, in their order, with the sites met. -/
def effectsOf (g : Flow N) :
    SiteTable → List N → Except (Failure N) (List Effect × SiteTable)
  | sites, [] => .ok ([], sites)
  | sites, n :: rest =>
    match Effect.ofStatement? sites (g.stmt n) with
    | none => .error (.missingSite n)
    | some (effect, sites) => do
      let (effects, sites) ← effectsOf g sites rest
      .ok (effect :: effects, sites)

/-- The first node whose position is not in `seen`. -/
def firstUnseen? (nodes : List N) (seen : List Nat) : Option N :=
  (nodes.zipIdx.find? fun (_, p) => !seen.contains p).map Prod.fst

/-- The positions of the empty lists. -/
def emptyAt (lists : List (List Nat)) : List Nat :=
  (lists.zipIdx.filter fun (l, _) => l.isEmpty).map Prod.snd

/-- Checks a flow graph. -/
def ofFlow (g : Flow N) : Except (Failure N) (Problem N) := do
  if g.nodes.isEmpty then .error .emptyGraph
  else match position? g.nodes g.entry with
    | none => .error (.unknownEntry g.entry)
    | some start =>
      let linked ← links g g.nodes
      let succs := linked.map Prod.snd
      match firstUnseen? g.nodes (reached succs.toArray start) with
      | some n => .error (.unreachable n)
      | none =>
        let (effects, sites) ← effectsOf g .empty g.nodes
        .ok {
          order := g.nodes
          preds := (linked.map Prod.fst).toArray
          exits := emptyAt succs
          effects := effects.toArray
          sites }

/-- The number of nodes. -/
def size (p : Problem N) : Nat := p.order.length

end Problem

end Analysis

end MayAlias
