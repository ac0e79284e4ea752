import Mathlib.Data.Prod.Lex
import MayAlias.Proofs.Congruence
import MayAlias.Proofs.NameOrder
import MayAlias.Proofs.Sorting

/-!
# Sorted views of a graph

The sorted views of a graph ascend strictly: its objects by number, its edges by source, field and
target, and its tracked variables by name, each with its pointees by number (`Graph.listing`).  So
graphs that are alike have the same sorted views, in whatever form and order they keep their
contents.
-/

namespace MayAlias

/-- Objects are told apart by their numbers. -/
lemma ObjectId.toNat_injective : Function.Injective ObjectId.toNat := by
  rintro ⟨v⟩ ⟨w⟩ h
  exact congrArg ObjectId.mk (UInt32.toNat_inj.1 h)

/-- The key by which edges are ordered. -/
def Edge.key (e : Edge) : ℕ ×ₗ List ℕ ×ₗ ℕ :=
  toLex (e.src.toNat, toLex (Text.codePoints e.field, e.dst.toNat))

/-- Edges with one key agree in source, field and target. -/
lemma Edge.key_injective : Function.Injective Edge.key := by
  rintro ⟨src, field, dst⟩ ⟨src', field', dst'⟩ h
  obtain ⟨hsrc, h⟩ := Prod.mk.inj (toLex.injective h)
  obtain ⟨hfield, hdst⟩ := Prod.mk.inj (toLex.injective h)
  obtain rfl := ObjectId.toNat_injective hsrc
  obtain rfl := Text.codePoints_injective hfield
  obtain rfl := ObjectId.toNat_injective hdst
  rfl

/-- The order of edges compares sources, then fields by code points, then targets. -/
lemma Edge.le_iff (e e' : Edge) : e.le e' = true ↔ e.key ≤ e'.key := by
  have hfield := Text.compares_names e.field e'.field
  simp only [Edge.key, Prod.Lex.toLex_le_toLex]
  unfold Edge.le
  -- sources first; equal sources leave it to the fields, and equal fields to the targets
  rcases lt_trichotomy e.src.toNat e'.src.toNat with hlt | heq | hgt
  · simp [hlt]
  · cases hord : Text.compareNames e.field e'.field with
    | lt => simp [heq, hfield.eq_lt.1 hord]
    | eq => simp [heq, hfield.eq_eq.1 hord]
    | gt =>
      have hafter := hfield.eq_gt.1 hord
      simp [heq, hafter.not_gt, hafter.ne']
  · simp [hgt, hgt.not_gt, hgt.ne']

namespace Graph

/-! ## Objects -/

/-- Sorting keeps the elements of a set, whichever form it has. -/
lemma mem_sortedObjects {s : ObjectSet} (hs : s.Valid) (o : ObjectId) :
    o ∈ sortedObjects s ↔ s.contains o = true := by
  rw [sortedObjects, mem_sortBy, hs.mem_toList]

/-- The objects of a set are sorted strictly, since a set lists none twice. -/
lemma pairwise_sortedObjects {s : ObjectSet} (hs : s.Valid) :
    (sortedObjects s).Pairwise fun o p => o.toNat < p.toNat :=
  sortBy_ascends (fun o p => by simp [ObjectId.le]) (hs.nodup_toList.map ObjectId.toNat_injective)

lemma nodup_sortedObjects {s : ObjectSet} (hs : s.Valid) : (sortedObjects s).Nodup :=
  (nodup_of_ascending (pairwise_sortedObjects hs)).of_map

lemma length_sortedObjects {s : ObjectSet} (hs : s.Valid) : (sortedObjects s).length = s.count := by
  rw [sortedObjects, (sortBy_perm _ _).length_eq, hs.count_eq]

/-- The sorted objects depend on the elements only, not on the form of the set. -/
lemma sortedObjects_eq {s t : ObjectSet} (hs : s.Valid) (ht : t.Valid)
    (h : ∀ o, s.contains o = true ↔ t.contains o = true) : sortedObjects s = sortedObjects t := by
  apply eq_of_ascending (pairwise_sortedObjects hs) (pairwise_sortedObjects ht)
  intro o
  rw [mem_sortedObjects hs, mem_sortedObjects ht, h]

/-! ## Edges -/

lemma mem_sortedEdges (g : Graph) (e : Edge) : e ∈ g.sortedEdges ↔ e ∈ g.edges := by
  rw [sortedEdges, mem_sortBy, List.mem_reverse]

/-- The edges of a well-formed graph are sorted strictly, since it lists none twice. -/
lemma WellFormed.pairwise_sortedEdges {g : Graph} (hg : g.WellFormed) :
    g.sortedEdges.Pairwise fun e e' => e.key < e'.key :=
  sortBy_ascends Edge.le_iff ((List.nodup_reverse.2 hg.edges_nodup).map Edge.key_injective)

lemma length_sortedEdges (g : Graph) : g.sortedEdges.length = g.edges.length := by
  rw [sortedEdges, (sortBy_perm _ _).length_eq, List.length_reverse]

/-! ## Variables -/

/-- The sorted variables are the tracked ones, each with its own set. -/
lemma mem_sortedVars (g : Graph) (var : String) (pts : ObjectSet) :
    (var, pts) ∈ g.sortedVars ↔ g.pointees? var = some pts := by
  rw [sortedVars, mem_sortBy, pointees?, FinMap.get?_eq_some_iff]

/-- The tracked variables ascend by name, code point by code point. -/
lemma pairwise_sortedVars (g : Graph) :
    g.sortedVars.Pairwise fun a b => Text.codePoints a.1 < Text.codePoints b.1 := by
  apply sortBy_ascends (fun a b => Text.compareNames_ne_gt_iff a.1 b.1)
  -- a map has no key twice, and names are told apart by their code points
  have hnodup := g.vars.nodup_keys.map Text.codePoints_injective
  rwa [List.map_map] at hnodup

/-- The tracked variables by name, each with its pointees by number. -/
def listing (g : Graph) : List (String × List ObjectId) :=
  g.sortedVars.map fun entry => (entry.1, sortedObjects entry.2)

/-- A listing has an entry for each tracked variable, with its pointees sorted. -/
lemma mem_listing {g : Graph} {entry : String × List ObjectId} :
    entry ∈ g.listing ↔ ∃ pts, g.pointees? entry.1 = some pts ∧ sortedObjects pts = entry.2 := by
  simp only [listing, List.mem_map, Prod.exists, mem_sortedVars]
  constructor
  · rintro ⟨var, pts, hpts, rfl⟩
    exact ⟨pts, hpts, rfl⟩
  · rintro ⟨pts, hpts, hobjects⟩
    exact ⟨entry.1, pts, hpts, by rw [hobjects]⟩

/-- The listing ascends by name, as the variables it is made from do. -/
lemma pairwise_listing (g : Graph) :
    g.listing.Pairwise fun a b => Text.codePoints a.1 < Text.codePoints b.1 :=
  List.pairwise_map.2 g.pairwise_sortedVars

/-- A listed variable has its pointees in order. -/
lemma listed_eq {g : Graph} {entry : String × List ObjectId} (h : entry ∈ g.listing) :
    entry.2 = sortedObjects (g.pointees entry.1) := by
  obtain ⟨pts, hpts, hobjects⟩ := mem_listing.1 h
  rw [← hobjects, pointees_eq_of_get? hpts]

/-- The objects listed for a variable are its pointees. -/
lemma mem_listed {g : Graph} (hg : g.WellFormed) {entry : String × List ObjectId}
    (h : entry ∈ g.listing) (o : ObjectId) :
    o ∈ entry.2 ↔ (g.pointees entry.1).contains o = true := by
  rw [listed_eq h, mem_sortedObjects (hg.valid_pointees _)]

/-! ## Graphs that are alike -/

namespace Alike
variable {g g' : Graph} (hg : g.Alike g')
include hg

/-- Alike graphs list the same objects in the same order. -/
lemma sortedObjects : Graph.sortedObjects g.objects = Graph.sortedObjects g'.objects :=
  sortedObjects_eq hg.left.objects hg.right.objects fun o => hg.mem_iff (.object o)

/-- Alike graphs list the same edges in the same order. -/
lemma sortedEdges : g.sortedEdges = g'.sortedEdges := by
  apply eq_of_ascending hg.left.pairwise_sortedEdges hg.right.pairwise_sortedEdges
  intro e
  rw [mem_sortedEdges, mem_sortedEdges]
  exact hg.mem_iff (.edge e)

/-- A variable that is listed for one graph is listed for the other, with the same pointees. -/
lemma mem_listing_of_mem {entry : String × List ObjectId} (h : entry ∈ g.listing) :
    entry ∈ g'.listing := by
  obtain ⟨pts, hpts, hobjects⟩ := mem_listing.1 h
  -- the other graph tracks the variable as well, but its set may have another form
  have htracked : Atom.tracked entry.1 ∈ g'.atoms :=
    (hg.mem_iff _).1 ((FinMap.mem_keys_iff _ _).2 ⟨pts, hpts⟩)
  obtain ⟨pts', hpts'⟩ := (FinMap.mem_keys_iff _ _).1 htracked
  refine mem_listing.2 ⟨pts', hpts', ?_⟩
  rw [← hobjects]
  apply sortedObjects_eq (hg.right.vars _ _ hpts') (hg.left.vars _ _ hpts)
  intro o
  have hpoints := hg.mem_iff (.points entry.1 o)
  rw [points_mem_atoms, points_mem_atoms, pointees_eq_of_get? hpts, pointees_eq_of_get? hpts']
    at hpoints
  exact hpoints.symm

/-- Alike graphs have the same listing: names and pointees, in the same order. -/
lemma listing : g.listing = g'.listing :=
  eq_of_ascending g.pairwise_listing g'.pairwise_listing
    fun _ => ⟨hg.mem_listing_of_mem, hg.symm.mem_listing_of_mem⟩

end Alike

end Graph

end MayAlias
