import MayAlias.FinMap
import MayAlias.AdaptiveSet
import MayAlias.Site
import MayAlias.Sorting
import MayAlias.Text.Order

/-!
# Points-to graphs

A points-to graph says which abstract objects every local variable and every field of an abstract
object may refer to at one point of a procedure.  It is the lattice element of the analysis: graphs
are joined by `union`, whose flag tells whether the first graph grew, and compared by their
contents, not by the order in which these were added.
-/

namespace MayAlias

/-- A set of abstract objects. -/
abbrev ObjectSet := AdaptiveSet ObjectId

/-- Objects of `src` have a field that may refer to objects of `dst`. -/
structure Edge where
  src : ObjectId
  field : String
  dst : ObjectId
deriving DecidableEq

namespace Edge

/-- Edges are ordered by source, then field, then target. -/
def le (e e' : Edge) : Bool :=
  if e.src.toNat < e'.src.toNat then true
  else if e'.src.toNat < e.src.toNat then false
  else match Text.compareNames e.field e'.field with
    | .lt => true
    | .gt => false
    | .eq => e.dst.toNat ≤ e'.dst.toNat

/-- An edge with its objects shown by their sites. -/
def render (sites : SiteTable) (e : Edge) : String :=
  "(" ++ sites.render e.src ++ ", " ++ e.field ++ ", " ++ sites.render e.dst ++ ")"

end Edge

/-- Objects, field edges and the pointees of the tracked variables.  A variable that is not a key
of `vars` is untracked: it was never assigned on a path to this point.  One that is mapped to the
empty set is tracked and points to nothing. -/
structure Graph where
  /-- The objects of the graph. -/
  objects : ObjectSet
  /-- The field edges, newest first. -/
  edges : List Edge
  /-- The targets of the edges, by source and field. -/
  targets : FinMap (ObjectId × String) ObjectSet
  /-- The pointees of the tracked variables. -/
  vars : FinMap String ObjectSet

namespace Graph

/-- The least graph. -/
def empty : Graph := ⟨.empty, [], .empty, .empty⟩

instance : Inhabited Graph := ⟨empty⟩

/-- The least graph, in the place of `g`. -/
def clear (g : Graph) : Graph :=
  { g with objects := g.objects.clear, edges := [], targets := .empty, vars := .empty }

/-- The contents of `source`, in the place of those of `g`. -/
def copy (g source : Graph) : Graph :=
  { g with
    objects := g.objects.copy source.objects
    edges := source.edges
    targets := source.targets
    vars := source.vars }

/-- Has the graph no object, edge and tracked variable? -/
def isEmpty (g : Graph) : Bool := g.objects.isEmpty && g.edges.isEmpty && g.vars.isEmpty

/-! ## Reading -/

/-- What a variable may point to, or `none` for an untracked one. -/
def pointees? (g : Graph) (var : String) : Option ObjectSet := g.vars.get? var

/-- What a variable may point to; nothing for an untracked one. -/
def pointees (g : Graph) (var : String) : ObjectSet := (g.pointees? var).getD .empty

/-- Is the edge in the index? -/
def hasEdge (g : Graph) (e : Edge) : Bool :=
  match g.targets.get? (e.src, e.field) with
  | some dsts => dsts.contains e.dst
  | none => false

/-- The targets of the edges for `field` that leave `src`. -/
def follow (g : Graph) (src : ObjectId) (field : String) : ObjectSet :=
  (g.targets.get? (src, field)).getD .empty

/-- The targets of the edges for `field` that leave an object of `srcs`. -/
def followAll (g : Graph) (srcs : ObjectSet) (field : String) : ObjectSet :=
  srcs.toList.foldl (fun dsts src =>
    match g.targets.get? (src, field) with
    | some more => (dsts.union more).1
    | none => dsts) .empty

/-! ## Writing -/

/-- Lets `var` point to exactly `pts`. -/
def assign (g : Graph) (var : String) (pts : ObjectSet) : Graph :=
  { g with objects := (g.objects.union pts).1, vars := g.vars.insert var pts }

/-- Adds an object to which nothing refers yet; the flag tells whether it is new. -/
def insertObject (g : Graph) (o : ObjectId) : Graph × Bool :=
  let (objects, new) := g.objects.insert o
  ({ g with objects }, new)

/-- Adds an edge and its end points; the flag tells whether the edge is new. -/
def insertEdge (g : Graph) (e : Edge) : Graph × Bool :=
  if g.edges.contains e then (g, false)
  else
    ({ g with
        objects := ((g.objects.insert e.src).1.insert e.dst).1
        edges := e :: g.edges
        targets := g.targets.insert (e.src, e.field) ((g.follow e.src e.field).insert e.dst).1 },
      true)

/-- Adds to the pointees of a variable, which becomes tracked; the flag tells whether this changes
anything. -/
def addPointees (g : Graph) (var : String) (pts : ObjectSet) : Graph × Bool :=
  match g.vars.get? var with
  | some old =>
    let (all, grown) := old.union pts
    ({ g with vars := g.vars.insert var all }, grown)
  | none => ({ g with vars := g.vars.insert var pts }, true)

/-- Does `step` for every element in turn; the flag tells whether one of the steps reported a
change. -/
def foldChanges {α : Type} (step : Graph → α → Graph × Bool) (start : Graph × Bool)
    (elems : List α) : Graph × Bool :=
  elems.foldl (fun (g, changed) a => let (g', new) := step g a; (g', changed || new)) start

/-- The join of two graphs, and whether it is larger than the first. -/
def union (g h : Graph) : Graph × Bool :=
  let (objects, grown) := g.objects.union h.objects
  let start := ({ g with objects }, grown)
  let withEdges := foldChanges insertEdge start h.edges.reverse
  foldChanges (fun g (var, pts) => g.addPointees var pts) withEdges h.vars.entries

/-! ## Comparing -/

/-- Two graphs are equal when they have the same objects, edges and tracked variables with the same
pointees.  The index is made from the edges and is not compared. -/
instance : BEq Graph := ⟨fun g h =>
  g.objects == h.objects
    && (g.edges.length == h.edges.length && g.edges.all h.edges.contains)
    && g.vars.agrees (· == ·) h.vars⟩

/-! ## Sorted views -/

/-- The elements of a set in ascending order. -/
def sortedObjects (s : ObjectSet) : List ObjectId := sortBy ObjectId.le s.toList

/-- The edges in ascending order. -/
def sortedEdges (g : Graph) : List Edge := sortBy Edge.le g.edges.reverse

/-- The tracked variables in ascending order, with their pointees. -/
def sortedVars (g : Graph) : List (String × ObjectSet) :=
  sortBy (fun a b => Text.compareNames a.1 b.1 != .gt) g.vars.entries

end Graph

end MayAlias
