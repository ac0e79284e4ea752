import Mathlib.Data.Finset.Option
import Mathlib.Data.Finset.Prod
import MayAlias.Proofs.Congruence

/-!
# What a statement changes

The contents of a graph are finite sets: its objects, its edges, and the pointees of each tracked
variable.  `Statement.Changes` says in these terms what a statement does and what it leaves alone.
An assignment replaces the pointees of the variable it defines, an allocation adds the object of its
site, a store adds an edge from every pointee of its base to every pointee of its operand.  Every
other variable keeps the set it had, and no other object or edge comes or goes.

Everything that is new is computed from the graph before the statement, so it does not matter
whether the variables of the statement are the same.
-/

namespace MayAlias

/-! ## Contents -/

namespace Graph

/-- The objects of the graph. -/
def objectSet (g : Graph) : Finset ObjectId := g.objects.toList.toFinset

/-- The edges of the graph. -/
def edgeSet (g : Graph) : Finset Edge := g.edges.toFinset

/-- What a variable may point to, or `none` for an untracked one. -/
def pointsTo? (g : Graph) (var : String) : Option (Finset ObjectId) :=
  (g.pointees? var).map fun pts => pts.toList.toFinset

/-- What a variable may point to; nothing for an untracked one. -/
def pointsTo (g : Graph) (var : String) : Finset ObjectId := (g.pointsTo? var).getD ∅

lemma mem_edgeSet {g : Graph} {e : Edge} : e ∈ g.edgeSet ↔ Atom.edge e ∈ g.atoms :=
  List.mem_toFinset

namespace WellFormed

variable {g : Graph} (hg : g.WellFormed)

include hg

/-- The finite set of objects holds the objects asserted. -/
lemma mem_objectSet (o : ObjectId) : o ∈ g.objectSet ↔ Atom.object o ∈ g.atoms := by
  rw [objectSet, List.mem_toFinset, hg.objects.mem_toList, object_mem_atoms]

/-- The pointees of a variable are those asserted; there are none for an untracked one. -/
lemma mem_pointsTo (var : String) (o : ObjectId) :
    o ∈ g.pointsTo var ↔ Atom.points var o ∈ g.atoms := by
  rw [points_mem_atoms, pointees, pointsTo, pointsTo?]
  cases hget : g.pointees? var with
  | none => simp
  | some pts => simp [(hg.vars var pts hget).mem_toList]

/-- A tracked variable points to the objects that the graph asserts of it. -/
lemma pointsTo?_eq_some {var : String} (htracked : Atom.tracked var ∈ g.atoms)
    {s : Finset ObjectId} (hs : ∀ o, Atom.points var o ∈ g.atoms ↔ o ∈ s) :
    g.pointsTo? var = some s := by
  obtain ⟨pts, hget⟩ := (FinMap.mem_keys_iff _ var).1 htracked
  have hsome : g.pointsTo? var = some (g.pointsTo var) := by
    rw [pointsTo, pointsTo?, pointees?, hget, Option.map_some, Option.getD_some]
  rw [hsome]
  congr 1
  ext o
  rw [hg.mem_pointsTo, hs]

lemma hasEdge_eq (e : Edge) : g.hasEdge e = decide (e ∈ g.edgeSet) := by
  rw [Bool.eq_iff_iff, hg.hasEdge_iff, decide_eq_true_iff, edgeSet, List.mem_toFinset]

end WellFormed

end Graph

/-! ## Changes -/

namespace Statement

/-- The object of the site at which the statement allocates. -/
def allocated (sites : SiteTable) : Statement → Finset ObjectId
  | alloc _ (some label) => (sites.find? label).toFinset
  | _ => ∅

/-- What the variable that the statement defines points to afterwards. -/
def assigned (sites : SiteTable) (g : Graph) : Statement → Finset ObjectId
  | alloc lhs site => (alloc lhs site).allocated sites
  | copy _ rhs => g.pointsTo rhs
  | load _ base field =>
    (g.edgeSet.filter fun e => e.src ∈ g.pointsTo base ∧ e.field = field).image Edge.dst
  | _ => ∅

/-- The edges that the statement makes sure of. -/
def stored (g : Graph) : Statement → Finset Edge
  | store base field rhs =>
    (g.pointsTo base ×ˢ g.pointsTo rhs).image fun ends => ⟨ends.1, field, ends.2⟩
  | _ => ∅

/-- The graph `g'` is `g` with the changes that the statement makes, and with no others. -/
structure Changes (sites : SiteTable) (s : Statement) (g g' : Graph) : Prop where
  /-- The site of an allocation has an object. -/
  site : ∀ lhs label, s = .alloc lhs (some label) → ∃ o, sites.find? label = some o
  defined : ∀ var, s.definedVar? = some var → g'.pointsTo? var = some (s.assigned sites g)
  others : ∀ var, s.definedVar? ≠ some var → g'.pointees? var = g.pointees? var
  vars : s.definedVar? = none → g'.vars = g.vars
  edges : g'.edgeSet = g.edgeSet ∪ s.stored g
  /-- The index of the new graph has these edges and no others. -/
  hasEdge : ∀ e, g'.hasEdge e = decide (e ∈ g'.edgeSet)
  objects : g'.objectSet = g.objectSet ∪ s.allocated sites

/-- A load assigns the targets of edges from the pointees of its base. -/
lemma mem_assigned_load {g : Graph} (hg : g.WellFormed) (sites : SiteTable)
    (lhs base field : String) (o : ObjectId) :
    o ∈ (load lhs base field).assigned sites g ↔
      ∃ src, Atom.points base src ∈ g.atoms ∧ Atom.edge ⟨src, field, o⟩ ∈ g.atoms := by
  simp only [assigned, Finset.mem_image, Finset.mem_filter, Graph.mem_edgeSet, hg.mem_pointsTo]
  constructor
  · intro h
    obtain ⟨e, ⟨hedge, hsrc, rfl⟩, rfl⟩ := h
    exact ⟨e.src, hsrc, hedge⟩
  · intro h
    obtain ⟨src, hsrc, hedge⟩ := h
    exact ⟨⟨src, field, o⟩, ⟨hedge, hsrc, rfl⟩, rfl⟩

/-- A store adds an edge for each pair of pointees. -/
lemma mem_stored_store {g : Graph} (hg : g.WellFormed) (base field rhs : String) (e : Edge) :
    e ∈ (store base field rhs).stored g ↔
      ∃ src dst, Atom.points base src ∈ g.atoms ∧ Atom.points rhs dst ∈ g.atoms ∧
        e = ⟨src, field, dst⟩ := by
  simp only [stored, Finset.mem_image, Finset.mem_product, hg.mem_pointsTo, Prod.exists, and_assoc,
    eq_comm]

end Statement

namespace Graph

/-- Assigning a variable leaves the others as they are. -/
lemma pointees?_assign_of_ne {g : Graph} {var v : String} (hv : v ≠ var) (pts : ObjectSet) :
    (g.assign var pts).pointees? v = g.pointees? v :=
  FinMap.get?_insert_of_ne g.vars hv pts

lemma vars_insertEdge (g : Graph) (e : Edge) : (g.insertEdge e).1.vars = g.vars := by
  rw [insertEdge]
  split <;> rfl

/-- Edges leave the variables alone. -/
lemma vars_insertEdges (g : Graph) (es : List Edge) :
    (es.foldl (fun g e => (g.insertEdge e).1) g).vars = g.vars := by
  induction es generalizing g with
  | nil => rfl
  | cons e es ih => rw [List.foldl_cons, ih, vars_insertEdge]

/-- A store does not touch the variables. -/
lemma vars_apply_store (g : Graph) (base field rhs : String) :
    ((Effect.store base field rhs).apply g).vars = g.vars := by
  rw [Effect.apply]
  split
  · exact g.vars_insertEdges _
  · rfl

end Graph

namespace Statement

section Changes

variable {sites : SiteTable} {g : Graph} (hg : g.WellFormed)

/-- An assignment stores nothing. -/
lemma stored_eq_empty {s : Statement} {var : String} (hdef : s.definedVar? = some var) :
    s.stored g = ∅ := by
  cases s with
  | store base field rhs => simp [definedVar?] at hdef
  | _ => rfl

include hg

/-- What the three assignments have in common.  The pointees assigned are objects of the graph,
apart from one that the statement allocates. -/
lemma changes_assign {s : Statement} {var : String} {pts : ObjectSet} (hpts : pts.Valid)
    (hsite : ∀ lhs label, s = .alloc lhs (some label) → ∃ o, sites.find? label = some o)
    (hdef : s.definedVar? = some var)
    (hassigned : ∀ o, pts.contains o = true ↔ o ∈ s.assigned sites g)
    (hold : ∀ o ∈ s.assigned sites g, Atom.object o ∈ g.atoms ∨ o ∈ s.allocated sites)
    (hnew : s.allocated sites ⊆ s.assigned sites g) : s.Changes sites g (g.assign var pts) := by
  have hwf : (g.assign var pts).WellFormed := hg.assign hpts
  exact {
    site := hsite
    defined := by
      intro v hv
      obtain rfl := Option.some.inj (hdef.symm.trans hv)
      apply hwf.pointsTo?_eq_some
      · rw [Graph.atoms_assign]
        exact Or.inl rfl
      · intro o
        rw [Graph.points_mem_atoms, Graph.pointees_assign, if_pos rfl, hassigned]
    others := by
      intro v hv
      apply Graph.pointees?_assign_of_ne
      rintro rfl
      exact hv hdef
    vars := by
      intro hnone
      simp [hdef] at hnone
    edges := by
      rw [stored_eq_empty hdef, Finset.union_empty]
      rfl
    hasEdge := hwf.hasEdge_eq
    objects := by
      ext o
      -- pointees become objects of the graph
      have hobject : Atom.object o ∈ (g.assign var pts).atoms ↔
          Atom.object o ∈ g.atoms ∨ o ∈ s.assigned sites g := by
        rw [Graph.atoms_assign, ← hassigned]
        rfl
      rw [Finset.mem_union, hwf.mem_objectSet, hg.mem_objectSet, hobject]
      constructor
      · intro h
        exact h.elim Or.inl (hold o)
      · intro h
        exact h.imp id fun ho => hnew ho }

/-- A store adds its edges and leaves the variables alone; both ends are objects already. -/
lemma changes_store (base field rhs : String) :
    (store base field rhs).Changes sites g ((Effect.store base field rhs).apply g) := by
  have hwf := Effect.wellFormed_apply hg (.store base field rhs)
  have hatoms := Effect.atoms_apply hg (.store base field rhs)
  have hvars := g.vars_apply_store base field rhs
  exact {
    site := by simp
    defined := by simp [definedVar?]
    others := by
      intro v _
      rw [Graph.pointees?, Graph.pointees?, hvars]
    vars := fun _ => hvars
    edges := by
      ext e
      rw [Finset.mem_union, Graph.mem_edgeSet, Graph.mem_edgeSet, hatoms, mem_stored_store hg]
      simp [Effect.after]
    hasEdge := hwf.hasEdge_eq
    -- the pointees that an edge connects are objects of the graph
    objects := by
      ext o
      rw [Finset.mem_union, hwf.mem_objectSet, hg.mem_objectSet, hatoms]
      simp [Effect.after, allocated] }

/-- A statement without effect changes nothing. -/
lemma changes_other : other.Changes sites g g where
  site := by simp
  defined := by simp [definedVar?]
  others _ _ := rfl
  vars _ := rfl
  edges := (Finset.union_empty _).symm
  hasEdge := hg.hasEdge_eq
  objects := (Finset.union_empty _).symm

end Changes

/-- A statement that has an effect makes exactly its changes in every graph made by operations,
whichever of its variables are the same and whichever are untracked. -/
theorem apply_changes_exactly {t sites : SiteTable} {s : Statement} {e : Effect}
    (hs : Effect.ofStatement? t s = some (e, sites)) {g : Graph} (hbuilt : g.BuiltInAnyOrder) :
    s.Changes sites g (e.apply g) := by
  have hg := hbuilt.wellFormed
  cases s with
  | alloc lhs site =>
    cases site with
    | none => simp [Effect.ofStatement?] at hs
    | some label =>
      have hlower : Effect.ofStatement? t (.alloc lhs (some label))
          = some (.alloc lhs (t.intern label).1, (t.intern label).2) := rfl
      obtain ⟨rfl, rfl⟩ := Prod.mk.inj (Option.some.inj (hlower.symm.trans hs))
      -- the label has been added to the table if it was not there
      have hfind := t.find?_intern label
      refine changes_assign hg (AdaptiveSet.valid_ofList _) ?_ rfl ?_ ?_ ?_
      · intro lhs' label' heq
        obtain ⟨rfl, hlabel⟩ := Statement.alloc.inj heq
        obtain rfl := Option.some.inj hlabel
        exact ⟨_, hfind⟩
      · intro o
        rw [AdaptiveSet.contains_ofList, assigned, allocated, hfind]
        simp
      · exact fun o ho => Or.inr ho
      · exact subset_rfl
  | copy lhs rhs =>
    obtain ⟨rfl, rfl⟩ := Prod.mk.inj (Option.some.inj hs)
    refine changes_assign hg (hg.valid_pointees rhs) (by simp) rfl ?_ ?_ (Finset.empty_subset _)
    · exact fun o => (hg.mem_pointsTo rhs o).symm
    · exact fun o ho => Or.inl (hg.object_of_points ((hg.mem_pointsTo rhs o).1 ho))
  | load lhs base field =>
    obtain ⟨rfl, rfl⟩ := Prod.mk.inj (Option.some.inj hs)
    refine changes_assign hg (hg.valid_followAll _ field) (by simp) rfl ?_ ?_
      (Finset.empty_subset _)
    · intro o
      rw [hg.contains_followAll (hg.valid_pointees base), mem_assigned_load hg]
      rfl
    · intro o ho
      obtain ⟨src, _, hedge⟩ := (mem_assigned_load hg _ lhs base field o).1 ho
      exact Or.inl (hg.endpoints _ hedge).2
  | store base field rhs =>
    obtain ⟨rfl, rfl⟩ := Prod.mk.inj (Option.some.inj hs)
    exact changes_store hg base field rhs
  | other =>
    obtain ⟨rfl, rfl⟩ := Prod.mk.inj (Option.some.inj hs)
    exact changes_other hg

/-- In `linkedPair`, loading a field of `x` into `x` itself moves `x` on to the object of `y`, and
storing `x` into its own field links its object to itself. -/
theorem apply_changes_linkedPair :
    Graph.linkedPair.BuiltInAnyOrder ∧
      Effect.ofStatement? .empty (load "x" "x" "f") = some (.load "x" "x" "f", .empty) ∧
      (load "x" "x" "f").Changes .empty Graph.linkedPair
        ((Effect.load "x" "x" "f").apply Graph.linkedPair) ∧
      (load "x" "x" "f").assigned .empty Graph.linkedPair = {⟨1⟩} ∧
      (store "x" "f" "x").Changes .empty Graph.linkedPair
        ((Effect.store "x" "f" "x").apply Graph.linkedPair) ∧
      (store "x" "f" "x").stored Graph.linkedPair = {⟨⟨0⟩, "f", ⟨0⟩⟩} ∧
      (alloc "z" (some "a")).Changes (SiteTable.empty.intern "a").2 Graph.linkedPair
        ((Effect.alloc "z" ⟨0⟩).apply Graph.linkedPair) := by
  have hbuilt := Graph.builtInAnyOrder_linkedPair
  exact ⟨hbuilt, rfl, apply_changes_exactly (t := .empty) rfl hbuilt, by decide,
    apply_changes_exactly (t := .empty) rfl hbuilt, by decide,
    apply_changes_exactly (t := .empty) rfl hbuilt⟩

end Statement

end MayAlias
