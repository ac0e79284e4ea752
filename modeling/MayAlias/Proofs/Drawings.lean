import MayAlias.Proofs.SortedViews
import MayAlias.Report.Dot

/-!
# Drawings show the whole graph

A drawing is made from the sorted views of a graph.  Its vertices stand for the items of the graph,
which are numbered in order without repetition, and every pointee and every end of a field edge is
an object of the graph.  So no edge is left out, and the drawing shows exactly what the graph
asserts (`Drawing.Shows`).
-/

namespace MayAlias

/-- Without repetition, an item has one place. -/
lemma idxOf_of_getElem? {α : Type} [DecidableEq α] {l : List α} (hl : l.Nodup) {i : ℕ} {x : α}
    (h : l[i]? = some x) : l.idxOf x = i := by
  obtain ⟨hi, rfl⟩ := List.getElem?_eq_some_iff.1 h
  exact hl.idxOf_getElem i hi

/-- The places in a list without repetition number its elements. -/
lemma bijOn_idxOf {α : Type} [DecidableEq α] {l : List α} (hl : l.Nodup) :
    Set.BijOn l.idxOf {x | x ∈ l} (Set.Iio l.length) := by
  refine ⟨fun x hx => List.idxOf_lt_length_of_mem hx, fun x hx y hy h => ?_, fun i hi => ?_⟩
  · exact (List.idxOf_inj hx).1 h
  · exact ⟨l[i], List.getElem_mem hi, hl.idxOf_getElem i hi⟩

namespace Report.Drawing

/-! ## The parts of a drawing -/

/-- What a vertex stands for. -/
inductive Item
  | object (o : ObjectId)
  | var (name : String)
deriving DecidableEq

namespace Item

/-- The label of the item's vertex. -/
def label (sites : SiteTable) : Item → String
  | object o => sites.render o
  | var name => name

/-- The objects and the tracked variables of a graph are its items. -/
def Of (g : Graph) : Item → Prop
  | object o => g.objects.contains o = true
  | var name => (g.pointees? name).isSome = true

end Item

/-- The items of a graph in the order of their vertices. -/
def items (g : Graph) : List Item :=
  (Graph.sortedObjects g.objects).map .object ++ g.listing.map fun entry => .var entry.1

/-- What an edge shows: a pointee of a variable or a field edge. -/
inductive Relation
  | points (var : String) (o : ObjectId)
  | field (e : Edge)

namespace Relation

/-- The item from which the relation leads. -/
def source : Relation → Item
  | points var _ => .var var
  | field e => .object e.src

/-- The item to which the relation leads. -/
def target : Relation → Item
  | points _ o => .object o
  | field e => .object e.dst

/-- The label of the relation's edge; only field edges have one. -/
def label : Relation → String
  | points _ _ => ""
  | field e => e.field

/-- The edge that shows the relation when the items are numbered. -/
def draw (number : Item → ℕ) (r : Relation) : ℕ × ℕ × String :=
  (number r.source, number r.target, r.label)

/-- A relation is determined by its two ends and its label. -/
lemma eq_of_ends {r r' : Relation} (hsource : r.source = r'.source) (htarget : r.target = r'.target)
    (hlabel : r.label = r'.label) : r = r' := by
  cases r with
  | points var o =>
    cases r' with
    | points var' o' => rw [Item.var.inj hsource, Item.object.inj htarget]
    | field e => cases hsource
  | field e =>
    cases r' with
    | points var' o' => cases hsource
    | field e' =>
      obtain ⟨src, field, dst⟩ := e
      obtain rfl := Item.object.inj hsource
      obtain rfl := Item.object.inj htarget
      obtain rfl := hlabel
      rfl

/-- The relations that hold in a graph. -/
def Of (g : Graph) : Relation → Prop
  | points var o => (g.pointees var).contains o = true
  | field e => e ∈ g.edges

end Relation

/-- The relations of a graph in the order of their edges. -/
def relations (g : Graph) : List Relation :=
  (g.listing.flatMap fun entry => entry.2.map fun o => .points entry.1 o)
    ++ g.sortedEdges.map .field

/-- The edges from a variable's vertex to those of its pointees, which are given in order. -/
def listedEdges (objects : List ObjectId) (vertex : ℕ) (pts : List ObjectId) :
    List (ℕ × ℕ × String) :=
  pts.filterMap fun o => (vertexOf? o objects).map fun v => (vertex, v, "")

/-- A drawing is made from the sorted views of a graph. -/
lemma ofGraph_eq (sites : SiteTable) (g : Graph) :
    ofGraph sites g =
      { vertices := (items g).map (Item.label sites)
        edges :=
          (g.listing.zipIdx (Graph.sortedObjects g.objects).length).flatMap
              (fun x => listedEdges (Graph.sortedObjects g.objects) x.2 x.1.2)
            ++ g.sortedEdges.filterMap (fieldEdge? (Graph.sortedObjects g.objects)) } := by
  rw [ofGraph, Graph.listing, List.zipIdx_map, List.flatMap_map, items, Graph.listing,
    List.map_append, List.map_map, List.map_map, List.map_map]
  rfl

/-! ## Numbers of vertices -/

/-- An object that is listed has a vertex, which stands at its place. -/
lemma exists_vertexOf? {o : ObjectId} {objects : List ObjectId} (ho : o ∈ objects) :
    ∃ v, vertexOf? o objects = some v ∧ objects[v]? = some o := by
  induction objects with
  | nil => cases ho
  | cons p objects ih =>
    by_cases hp : p = o
    · exact ⟨0, by rw [vertexOf?, if_pos hp], by rw [hp]; rfl⟩
    · obtain ⟨v, hv, hget⟩ := ih ((List.mem_cons.1 ho).resolve_left (Ne.symm hp))
      exact ⟨v + 1, by rw [vertexOf?, if_neg hp, hv]; rfl, hget⟩

section
variable {g : Graph} (hg : g.WellFormed)
include hg

/-- The vertices stand for all items of the graph. -/
lemma mem_items (x : Item) : x ∈ items g ↔ x.Of g := by
  cases x with
  | object o => simp [items, Item.Of, Graph.mem_sortedObjects hg.objects]
  | var name => simp [items, Item.Of, Graph.mem_listing, Option.isSome_iff_exists]

/-- Objects and variables ascend strictly, so no item has two vertices. -/
lemma nodup_items : (items g).Nodup := by
  rw [items, List.nodup_append']
  refine ⟨(Graph.nodup_sortedObjects hg.objects).map fun _ _ => Item.object.inj, ?_, ?_⟩
  · exact List.pairwise_map.2 (g.pairwise_listing.imp fun h heq => h.ne (by rw [Item.var.inj heq]))
  · simp [List.disjoint_left]

/-- An object of the graph has a vertex, at its place among the items. -/
lemma vertexOf?_eq {o : ObjectId} (ho : g.objects.contains o = true) :
    vertexOf? o (Graph.sortedObjects g.objects) = some ((items g).idxOf (.object o)) := by
  obtain ⟨v, hv, hget⟩ := exists_vertexOf? ((Graph.mem_sortedObjects hg.objects o).2 ho)
  have hitem : (items g)[v]? = some (.object o) := by
    obtain ⟨hlt, _⟩ := List.getElem?_eq_some_iff.1 hget
    rw [items, List.getElem?_append_left (by rwa [List.length_map]), List.getElem?_map, hget]
    rfl
  rw [hv, idxOf_of_getElem? (nodup_items hg) hitem]

/-- The variables are numbered by their places among the items, behind the objects. -/
lemma zipIdx_listing :
    g.listing.zipIdx (Graph.sortedObjects g.objects).length =
      g.listing.map fun entry => (entry, (items g).idxOf (.var entry.1)) := by
  apply List.ext_getElem?
  intro i
  rw [List.getElem?_zipIdx, List.getElem?_map]
  cases hget : g.listing[i]? with
  | none => rfl
  | some entry =>
    have hitem : (items g)[(Graph.sortedObjects g.objects).length + i]? = some (.var entry.1) := by
      rw [items, List.getElem?_append_right (by simp)]
      simp [hget]
    rw [Option.map_some, Option.map_some, idxOf_of_getElem? (nodup_items hg) hitem]

/-! ## Edges -/

/-- No pointee is left out, as all of them are objects of the graph. -/
lemma listedEdges_eq {entry : String × List ObjectId} (hentry : entry ∈ g.listing) (vertex : ℕ) :
    listedEdges (Graph.sortedObjects g.objects) vertex entry.2 =
      entry.2.map fun o => (vertex, (items g).idxOf (.object o), "") := by
  rw [listedEdges, ← List.filterMap_eq_map]
  apply List.filterMap_congr
  intro o ho
  rw [vertexOf?_eq hg (hg.object_of_points ((Graph.mem_listed hg hentry o).1 ho))]
  rfl

/-- No field edge is left out, as both its ends are objects of the graph. -/
lemma fieldEdge?_eq {e : Edge} (he : e ∈ g.edges) :
    fieldEdge? (Graph.sortedObjects g.objects) e =
      some ((items g).idxOf (.object e.src), (items g).idxOf (.object e.dst), e.field) := by
  obtain ⟨hsrc, hdst⟩ := hg.endpoints e he
  rw [fieldEdge?, vertexOf?_eq hg hsrc, vertexOf?_eq hg hdst]
  rfl

/-- No edge is left out. -/
lemma edges_eq (sites : SiteTable) :
    (ofGraph sites g).edges = (relations g).map (Relation.draw (items g).idxOf) := by
  have hfields : g.sortedEdges.filterMap (fieldEdge? (Graph.sortedObjects g.objects)) =
      g.sortedEdges.map fun e => Relation.draw (items g).idxOf (.field e) := by
    rw [← List.filterMap_eq_map]
    apply List.filterMap_congr
    intro e he
    exact fieldEdge?_eq hg ((Graph.mem_sortedEdges g e).1 he)
  have hpointees : (g.listing.flatMap fun entry =>
      listedEdges (Graph.sortedObjects g.objects) ((items g).idxOf (.var entry.1)) entry.2) =
      g.listing.flatMap fun entry =>
        entry.2.map fun o => Relation.draw (items g).idxOf (.points entry.1 o) :=
    List.flatMap_congr fun entry hentry => listedEdges_eq hg hentry _
  rw [ofGraph_eq, zipIdx_listing hg, List.flatMap_map, hfields, hpointees, relations,
    List.map_append, List.map_flatMap]
  simp only [List.map_map]
  rfl

lemma mem_relations (r : Relation) : r ∈ relations g ↔ r.Of g := by
  cases r with
  | points var o =>
    simp only [relations, List.mem_append, List.mem_flatMap, List.mem_map, reduceCtorEq, and_false,
      exists_false, or_false, Relation.points.injEq]
    constructor
    · rintro ⟨entry, hentry, _, ho, rfl, rfl⟩
      exact (Graph.mem_listed hg hentry _).1 ho
    · intro ho
      -- a variable that points to something is tracked, hence listed
      obtain ⟨pts, hpts, _⟩ := Graph.exists_get?_of_points ho
      have hentry : (var, Graph.sortedObjects pts) ∈ g.listing :=
        Graph.mem_listing.2 ⟨pts, hpts, rfl⟩
      exact ⟨_, hentry, o, (Graph.mem_listed hg hentry o).2 ho, rfl, rfl⟩
  | field e => simp [relations, Relation.Of, Graph.mem_sortedEdges]

/-- No relation is listed twice. -/
lemma nodup_relations : (relations g).Nodup := by
  have hedges := (nodup_of_ascending hg.pairwise_sortedEdges).of_map
  rw [relations, List.nodup_append', List.nodup_flatMap]
  refine ⟨⟨fun entry hentry => ?_, ?_⟩, hedges.map fun _ _ => Relation.field.inj, ?_⟩
  · rw [Graph.listed_eq hentry]
    exact (Graph.nodup_sortedObjects (hg.valid_pointees _)).map
      fun _ _ h => (Relation.points.inj h).2
  -- two entries have different names
  · refine g.pairwise_listing.imp fun {a b} hab => ?_
    simp only [Function.onFun, List.disjoint_left, List.mem_map]
    rintro _ ⟨o, _, rfl⟩ ⟨o', _, heq⟩
    exact hab.ne (by rw [(Relation.points.inj heq).1])
  · simp only [List.disjoint_left, List.mem_flatMap, List.mem_map]
    rintro _ ⟨_, _, _, _, rfl⟩ ⟨_, _, heq⟩
    cases heq

/-- The ends of a relation are items. -/
lemma ends_of_relation {r : Relation} (hr : r.Of g) : r.source.Of g ∧ r.target.Of g := by
  cases r with
  | points var o =>
    obtain ⟨pts, hpts, _⟩ := Graph.exists_get?_of_points hr
    exact ⟨Option.isSome_iff_exists.2 ⟨pts, hpts⟩, hg.object_of_points hr⟩
  | field e => exact hg.endpoints e hr

/-- Relations are told apart by their drawings, if items are by their numbers. -/
lemma draw_injOn {number : Item → ℕ} (hnumber : Set.InjOn number {x | x.Of g}) :
    Set.InjOn (Relation.draw number) {r | r.Of g} := by
  intro r hr r' hr' heq
  obtain ⟨hsource, htarget⟩ := ends_of_relation hg hr
  obtain ⟨hsource', htarget'⟩ := ends_of_relation hg hr'
  obtain ⟨hfrom, hrest⟩ := Prod.mk.inj heq
  obtain ⟨hto, hlabel⟩ := Prod.mk.inj hrest
  exact Relation.eq_of_ends (hnumber hsource hsource' hfrom) (hnumber htarget htarget' hto) hlabel

end

/-! ## What is shown -/

/-- With its vertices numbered, the drawing has one vertex for every item of the graph, with the
item's label, one edge for every relation, and nothing else. -/
structure Shows (d : Drawing) (sites : SiteTable) (g : Graph) (number : Item → ℕ) : Prop where
  vertices : Set.BijOn number {x | x.Of g} (Set.Iio d.vertices.length)
  labels : ∀ x, x.Of g → d.vertices[number x]? = some (x.label sites)
  edges : Set.BijOn (Relation.draw number) {r | r.Of g} {edge | edge ∈ d.edges}
  edges_nodup : d.edges.Nodup

/-- The drawing of a well-formed graph shows it, with items numbered by their places. -/
lemma shows_ofGraph {g : Graph} (hg : g.WellFormed) (sites : SiteTable) :
    (ofGraph sites g).Shows sites g (items g).idxOf := by
  have hvertices : (ofGraph sites g).vertices = (items g).map (Item.label sites) := by
    rw [ofGraph_eq]
  have hbij := bijOn_idxOf (nodup_items hg)
  simp only [mem_items hg] at hbij
  have hdraw := draw_injOn hg hbij.injOn
  -- numbers are places in the list of items, so all parts are read off that list
  refine ⟨?_, fun x hx => ?_, ⟨fun r hr => ?_, hdraw, fun edge hedge => ?_⟩, ?_⟩
  · rwa [hvertices, List.length_map]
  · rw [← mem_items hg] at hx
    rw [hvertices, List.getElem?_map, List.getElem?_idxOf hx]
    rfl
  · show r.draw _ ∈ (ofGraph sites g).edges
    rw [edges_eq hg]
    exact List.mem_map_of_mem ((mem_relations hg r).2 hr)
  · obtain ⟨r, hr, rfl⟩ := List.mem_map.1 (edges_eq hg sites ▸ hedge)
    exact ⟨r, (mem_relations hg r).1 hr, rfl⟩
  · rw [edges_eq hg]
    apply (nodup_relations hg).map_on
    intro r hr r' hr'
    exact hdraw ((mem_relations hg r).1 hr) ((mem_relations hg r').1 hr')

/-- The drawing of a graph shows the graph and nothing else.  In particular every pointee and every
field edge is drawn, since its objects have vertices. -/
theorem drawing_shows_graph (sites : SiteTable) (g : Graph) (hg : g.BuiltInAnyOrder) :
    (∃ number, (ofGraph sites g).Shows sites g number) ∧
      (∀ var o, (g.pointees var).contains o = true →
        (vertexOf? o (Graph.sortedObjects g.objects)).isSome = true) ∧
      ∀ e ∈ g.edges, (fieldEdge? (Graph.sortedObjects g.objects) e).isSome = true := by
  have hwell := hg.wellFormed
  refine ⟨⟨_, shows_ofGraph hwell sites⟩, fun var o ho => ?_, fun e he => ?_⟩
  · rw [vertexOf?_eq hwell (hwell.object_of_points ho)]
    rfl
  · rw [fieldEdge?_eq hwell he]
    rfl

/-- A pair of objects, one with a label, that are linked by a field. -/
theorem drawing_shows_linkedPair :
    (ofGraph (SiteTable.empty.intern "7").2 Graph.linkedPair).vertices
        = ["(7)", "NodeId(1)", "x", "y"] ∧
      (ofGraph (SiteTable.empty.intern "7").2 Graph.linkedPair).edges
        = [(2, 0, ""), (3, 1, ""), (0, 1, "f")] ∧
      ∃ number, (ofGraph (SiteTable.empty.intern "7").2 Graph.linkedPair).Shows
        (SiteTable.empty.intern "7").2 Graph.linkedPair number :=
  ⟨by decide +kernel, by decide +kernel,
    (drawing_shows_graph _ _ Graph.builtInAnyOrder_linkedPair).1⟩

end Report.Drawing

end MayAlias
