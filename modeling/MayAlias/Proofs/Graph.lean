import Mathlib.Data.Set.Lattice
import MayAlias.Summary
import MayAlias.Proofs.AdaptiveSet
import MayAlias.Proofs.FinMap

/-!
# Points-to graphs as sets of atoms

A points-to graph makes four kinds of assertions: an object is present, an edge is present, a
variable is tracked, a tracked variable may point to an object.  `Graph.atoms` is the set of all
that a graph asserts, and everything the analysis does with graphs is read through it:

* two well-formed graphs compare equal exactly when they assert the same (`beq_iff`);
* the join of two graphs asserts what one of them does (`atoms_union`);
* one graph is below another when joining it in changes nothing, which is inclusion of what they
  assert (`below_iff`).

`Graph.WellFormed` is the invariant of the representation: the sets are valid, the index agrees
with the edges, and the end points of edges and the pointees of variables are objects of the graph.
-/

namespace MayAlias

/-- One assertion of a points-to graph. -/
inductive Atom where
  /-- The object is in the graph. -/
  | object (o : ObjectId)
  /-- The edge is in the graph. -/
  | edge (e : Edge)
  /-- The variable is tracked. -/
  | tracked (var : String)
  /-- The variable may point to the object. -/
  | points (var : String) (o : ObjectId)
deriving DecidableEq

namespace Atom

/-- The assertions left when `var` is made to point to the objects with `P` and to no others; these
become objects of the graph. -/
def reassign (var : String) (P : ObjectId → Prop) (A : Set Atom) : Set Atom :=
  { a | match a with
    | .object o => object o ∈ A ∨ P o
    | .edge e => edge e ∈ A
    | .tracked v => v = var ∨ tracked v ∈ A
    | .points v o => if v = var then P o else points v o ∈ A }

/-- A larger set of assertions stays larger when a variable is reassigned in both. -/
lemma reassign_subset {A B : Set Atom} {P Q : ObjectId → Prop} (var : String) (hAB : A ⊆ B)
    (hPQ : ∀ o, P o → Q o) : reassign var P A ⊆ reassign var Q B := by
  intro a ha
  cases a with
  | object o => exact ha.imp (fun h => hAB h) (hPQ o)
  | edge e => exact hAB ha
  | tracked v => exact ha.imp id fun h => hAB h
  | points v o =>
    show if v = var then Q o else points v o ∈ B
    replace ha : if v = var then P o else points v o ∈ A := ha
    split at ha
    · next hv => rw [if_pos hv]; exact hPQ o ha
    · next hv => rw [if_neg hv]; exact hAB ha

/-- What an edge asserts: itself and its end points. -/
def ofEdge (e : Edge) : Set Atom := {edge e, object e.src, object e.dst}

/-- What the pointees of a variable assert. -/
def ofPointees (var : String) (pts : ObjectSet) : Set Atom :=
  { a | a = tracked var ∨ ∃ o, pts.contains o = true ∧ a = points var o }

end Atom

namespace Graph

/-- Does the graph assert the atom? -/
def Asserts (g : Graph) : Atom → Prop
  | .object o => g.objects.contains o = true
  | .edge e => e ∈ g.edges
  | .tracked var => var ∈ g.vars.keys
  | .points var o => (g.pointees var).contains o = true

/-- All that a graph asserts. -/
def atoms (g : Graph) : Set Atom := { a | g.Asserts a }

@[simp] lemma object_mem_atoms {g : Graph} {o : ObjectId} :
    Atom.object o ∈ g.atoms ↔ g.objects.contains o = true := Iff.rfl

@[simp] lemma edge_mem_atoms {g : Graph} {e : Edge} : Atom.edge e ∈ g.atoms ↔ e ∈ g.edges := Iff.rfl

@[simp] lemma tracked_mem_atoms {g : Graph} {var : String} :
    Atom.tracked var ∈ g.atoms ↔ var ∈ g.vars.keys := Iff.rfl

@[simp] lemma points_mem_atoms {g : Graph} {var : String} {o : ObjectId} :
    Atom.points var o ∈ g.atoms ↔ (g.pointees var).contains o = true := Iff.rfl

/-- A tracked variable has the pointees stored for it. -/
lemma pointees_eq_of_get? {g : Graph} {var : String} {pts : ObjectSet}
    (h : g.vars.get? var = some pts) : g.pointees var = pts := by
  rw [pointees, pointees?, h, Option.getD_some]

/-- A variable that points somewhere is tracked. -/
lemma exists_get?_of_points {g : Graph} {var : String} {o : ObjectId}
    (h : Atom.points var o ∈ g.atoms) :
    ∃ pts, g.vars.get? var = some pts ∧ pts.contains o = true := by
  rw [points_mem_atoms, pointees, pointees?] at h
  cases hget : g.vars.get? var with
  | none => simp [hget] at h
  | some pts => exact ⟨pts, rfl, by simpa [hget] using h⟩

/-- The invariant of the representation. -/
structure WellFormed (g : Graph) : Prop where
  objects : g.objects.Valid
  targets : ∀ k dsts, g.targets.get? k = some dsts → dsts.Valid
  vars : ∀ var pts, g.vars.get? var = some pts → pts.Valid
  edges_nodup : g.edges.Nodup
  hasEdge_iff : ∀ e, g.hasEdge e = true ↔ e ∈ g.edges
  endpoints : ∀ e ∈ g.edges, g.objects.contains e.src = true ∧ g.objects.contains e.dst = true
  pointees_mem : ∀ var pts o, g.vars.get? var = some pts → pts.contains o = true →
    g.objects.contains o = true

/-- The empty graph keeps to the invariant, as nothing is in it. -/
lemma wellFormed_empty : empty.WellFormed where
  objects := AdaptiveSet.valid_empty
  targets _ _ h := by simp [empty] at h
  vars _ _ h := by simp [empty] at h
  edges_nodup := List.nodup_nil
  hasEdge_iff e := by simp [empty, hasEdge]
  endpoints _ h := by simp [empty] at h
  pointees_mem _ _ _ h := by simp [empty] at h

/-- Clearing the parts of a graph leaves the least graph. -/
lemma clear_eq_empty (g : Graph) : g.clear = empty := by
  rw [clear, AdaptiveSet.clear_eq_empty]
  rfl

/-- A copy replaces all parts of a graph. -/
lemma copy_eq (g source : Graph) : g.copy source = source := by
  rw [copy, AdaptiveSet.copy_eq]

/-- The empty graph asserts nothing. -/
@[simp] lemma atoms_empty : empty.atoms = ∅ := by
  ext a
  cases a with
  | object o => simp [empty]
  | edge e => simp [empty]
  | tracked var => simp [empty, FinMap.keys, FinMap.empty]
  | points var o => simp [empty, pointees, pointees?]

namespace WellFormed

variable {g h : Graph}

/-- The pointees of a variable form a valid set, also if it is not tracked. -/
lemma valid_pointees (hg : g.WellFormed) (var : String) : (g.pointees var).Valid := by
  rw [pointees, pointees?]
  cases hget : g.vars.get? var with
  | none => exact AdaptiveSet.valid_empty
  | some pts => exact hg.vars var pts hget

/-- More objects do no harm. -/
lemma withObjects (hg : g.WellFormed) {objects : ObjectSet} (hvalid : objects.Valid)
    (hmore : ∀ o, g.objects.contains o = true → objects.contains o = true) :
    ({ g with objects } : Graph).WellFormed :=
  { hg with
    objects := hvalid
    endpoints := fun e he => ⟨hmore _ (hg.endpoints e he).1, hmore _ (hg.endpoints e he).2⟩
    pointees_mem := fun var pts o hv ho => hmore o (hg.pointees_mem var pts o hv ho) }

/-- Whatever a variable points to is an object of the graph. -/
lemma object_of_points (hg : g.WellFormed) {var : String} {o : ObjectId}
    (hp : Atom.points var o ∈ g.atoms) : Atom.object o ∈ g.atoms := by
  obtain ⟨pts, hget, ho⟩ := exists_get?_of_points hp
  exact hg.pointees_mem var pts o hget ho

end WellFormed

/-! ## Equality -/

/-- What a variable points to carries over to a graph that tracks it with no fewer pointees. -/
private lemma points_of_pointees_subset {g h : Graph}
    (hkeys : ∀ v, v ∈ g.vars.keys → v ∈ h.vars.keys)
    (hpts : ∀ v pts pts', g.vars.get? v = some pts → h.vars.get? v = some pts' →
      ∀ o, pts.contains o = true → pts'.contains o = true)
    {var : String} {o : ObjectId} (ha : Atom.points var o ∈ g.atoms) :
    Atom.points var o ∈ h.atoms := by
  obtain ⟨pts, hget, ho⟩ := exists_get?_of_points ha
  have htracked := hkeys var ((FinMap.mem_keys_iff _ var).2 ⟨pts, hget⟩)
  obtain ⟨pts', hget'⟩ := (FinMap.mem_keys_iff _ var).1 htracked
  rw [points_mem_atoms, pointees_eq_of_get? hget']
  exact hpts var pts pts' hget hget' o ho

/-- Well-formed graphs compare equal when they assert the same. -/
theorem WellFormed.beq_iff {g h : Graph} (hg : g.WellFormed) (hh : h.WellFormed) :
    (g == h) = true ↔ g.atoms = h.atoms := by
  have hdef : (g == h) = (g.objects == h.objects
      && (g.edges.length == h.edges.length && g.edges.all h.edges.contains)
      && g.vars.agrees (· == ·) h.vars) := rfl
  rw [hdef, Bool.and_eq_true, Bool.and_eq_true, Bool.and_eq_true, hg.objects.beq_iff hh.objects,
    beq_iff_eq, List.all_eq_true, FinMap.agrees_iff]
  simp only [List.contains_iff_mem]
  constructor
  · intro h
    obtain ⟨⟨hobjects, hlength, hsub⟩, hkeys, hpts⟩ := h
    -- as many edges and no repetition: the inclusion is one in both directions
    have hperm := (hg.edges_nodup.subperm hsub).perm_of_length_le hlength.ge
    ext a
    cases a with
    | object o => exact hobjects o
    | edge e => exact hperm.mem_iff
    | tracked var => exact hkeys var
    | points var o =>
      have hsame : ∀ v pts pts', g.vars.get? v = some pts → h.vars.get? v = some pts' →
          ∀ o, pts.contains o = true ↔ pts'.contains o = true := fun v pts pts' hget hget' =>
        ((hg.vars _ _ hget).beq_iff (hh.vars _ _ hget')).1 (hpts v pts pts' hget hget')
      exact ⟨points_of_pointees_subset (fun v => (hkeys v).1)
          (fun v pts pts' hget hget' o => (hsame v pts pts' hget hget' o).1),
        points_of_pointees_subset (fun v => (hkeys v).2)
          (fun v pts' pts hget' hget o => (hsame v pts pts' hget hget' o).2)⟩
  · intro heq
    have hedges : ∀ e, e ∈ g.edges ↔ e ∈ h.edges := fun e => by
      rw [← edge_mem_atoms, heq, edge_mem_atoms]
    have hperm := (List.perm_ext_iff_of_nodup hg.edges_nodup hh.edges_nodup).2 hedges
    refine ⟨⟨fun o => ?_, hperm.length_eq, fun e => (hedges e).1⟩, fun var => ?_, ?_⟩
    · rw [← object_mem_atoms, heq, object_mem_atoms]
    · rw [← tracked_mem_atoms, heq, tracked_mem_atoms]
    · intro var pts pts' hget hget'
      refine ((hg.vars _ _ hget).beq_iff (hh.vars _ _ hget')).2 fun o => ?_
      rw [← pointees_eq_of_get? hget, ← pointees_eq_of_get? hget', ← points_mem_atoms, heq,
        points_mem_atoms]

/-! ## Following fields -/

/-- One step of following a field from several objects: the targets from one more of them. -/
def followStep (g : Graph) (field : String) (dsts : ObjectSet) (src : ObjectId) : ObjectSet :=
  match g.targets.get? (src, field) with
  | some more => (dsts.union more).1
  | none => dsts

lemma followAll_eq_foldl (g : Graph) (srcs : ObjectSet) (field : String) :
    g.followAll srcs field = srcs.toList.foldl (g.followStep field) .empty := rfl

section Follow

variable {g : Graph} (hg : g.WellFormed)

include hg

lemma WellFormed.valid_followStep {dsts : ObjectSet} (hd : dsts.Valid) (field : String)
    (src : ObjectId) : (g.followStep field dsts src).Valid := by
  rw [followStep]
  cases hget : g.targets.get? (src, field) with
  | none => exact hd
  | some more => exact hd.union (hg.targets _ _ hget)

/-- A step adds the targets of one source, found in the index. -/
lemma WellFormed.contains_followStep (dsts : ObjectSet) (field : String) (src o : ObjectId) :
    (g.followStep field dsts src).contains o = true ↔
      dsts.contains o = true ∨ (⟨src, field, o⟩ : Edge) ∈ g.edges := by
  rw [followStep, ← hg.hasEdge_iff, hasEdge]
  cases g.targets.get? (src, field) with
  | none => simp
  | some more => exact AdaptiveSet.contains_union dsts more o

/-- What is found by following a field is a valid set. -/
lemma WellFormed.valid_followAll (srcs : ObjectSet) (field : String) :
    (g.followAll srcs field).Valid := by
  rw [followAll_eq_foldl]
  have hfold : ∀ (l : List ObjectId) (dsts : ObjectSet), dsts.Valid →
      (l.foldl (g.followStep field) dsts).Valid := by
    intro l
    induction l with
    | nil => exact fun _ hd => hd
    | cons src l ih => exact fun dsts hd => ih _ (hg.valid_followStep hd field src)
  exact hfold _ _ AdaptiveSet.valid_empty

/-- Following a field leads along the edges that leave one of the sources. -/
lemma WellFormed.contains_followAll {srcs : ObjectSet} (hs : srcs.Valid) (field : String)
    (o : ObjectId) :
    (g.followAll srcs field).contains o = true ↔
      ∃ src, srcs.contains src = true ∧ (⟨src, field, o⟩ : Edge) ∈ g.edges := by
  have hfold : ∀ (l : List ObjectId) (dsts : ObjectSet),
      (l.foldl (g.followStep field) dsts).contains o = true ↔
        dsts.contains o = true ∨ ∃ src ∈ l, (⟨src, field, o⟩ : Edge) ∈ g.edges := by
    intro l
    induction l with
    | nil => simp
    | cons src l ih =>
      intro dsts
      rw [List.foldl_cons, ih, hg.contains_followStep, or_assoc, List.exists_mem_cons_iff]
  rw [followAll_eq_foldl, hfold, AdaptiveSet.contains_empty]
  simp [hs.mem_toList]

end Follow

/-! ## Assigning a variable -/

section Assign

variable {g : Graph} {var : String} {pts : ObjectSet}

/-- An assignment changes the pointees of one variable. -/
lemma pointees_assign (v : String) :
    (g.assign var pts).pointees v = if v = var then pts else g.pointees v := by
  rw [pointees, pointees?, assign, FinMap.get?_insert]
  split <;> rfl

/-- An assignment replaces what is said of its variable, and its pointees become objects. -/
lemma atoms_assign :
    (g.assign var pts).atoms = Atom.reassign var (pts.contains · = true) g.atoms := by
  ext a
  cases a with
  | object o => exact AdaptiveSet.contains_union _ _ o
  | edge e => exact Iff.rfl
  | tracked v => exact FinMap.mem_keys_insert _ _ _ _
  | points v o =>
    rw [points_mem_atoms, pointees_assign]
    show _ ↔ if v = var then pts.contains o = true else Atom.points v o ∈ g.atoms
    split <;> rfl

/-- Assigning a valid set keeps to the invariant. -/
lemma WellFormed.assign (hg : g.WellFormed) (hpts : pts.Valid) : (g.assign var pts).WellFormed where
  objects := hg.objects.union hpts
  targets := hg.targets
  vars v s hs := by
    rw [Graph.assign, FinMap.get?_insert] at hs
    split at hs
    · exact Option.some.inj hs ▸ hpts
    · exact hg.vars v s hs
  edges_nodup := hg.edges_nodup
  hasEdge_iff := hg.hasEdge_iff
  endpoints e he := by
    have h := hg.endpoints e he
    exact ⟨(AdaptiveSet.contains_union _ _ _).2 (Or.inl h.1),
      (AdaptiveSet.contains_union _ _ _).2 (Or.inl h.2)⟩
  pointees_mem v s o hs ho := by
    rw [Graph.assign, FinMap.get?_insert] at hs
    apply (AdaptiveSet.contains_union _ _ _).2
    split at hs
    · exact Or.inr (Option.some.inj hs ▸ ho)
    · exact Or.inl (hg.pointees_mem v s o hs ho)

end Assign

/-! ## Adding edges -/

section InsertEdge

variable {g : Graph} (hg : g.WellFormed) (e : Edge)

include hg

/-- The index leads to the targets of the edges. -/
lemma WellFormed.contains_follow (src : ObjectId) (field : String) (o : ObjectId) :
    (g.follow src field).contains o = true ↔ (⟨src, field, o⟩ : Edge) ∈ g.edges := by
  rw [← hg.hasEdge_iff, follow, hasEdge]
  cases g.targets.get? (src, field) with
  | none => simp
  | some dsts => rfl

lemma WellFormed.valid_follow (src : ObjectId) (field : String) : (g.follow src field).Valid := by
  rw [follow]
  cases hget : g.targets.get? (src, field) with
  | none => exact AdaptiveSet.valid_empty
  | some dsts => exact hg.targets _ _ hget

/-- Adding an edge adds it and its end points, whether or not it was there before. -/
lemma WellFormed.atoms_insertEdge : (g.insertEdge e).1.atoms = g.atoms ∪ Atom.ofEdge e := by
  rw [insertEdge]
  split
  · next hthere =>
    rw [List.contains_iff_mem] at hthere
    -- an edge that is there has its end points among the objects
    have hends := hg.endpoints e hthere
    symm
    apply Set.union_eq_self_of_subset_right
    intro a h
    rcases h with rfl | rfl | rfl
    · exact hthere
    · exact hends.1
    · exact hends.2
  · ext a
    rw [Set.mem_union, Atom.ofEdge, Set.mem_insert_iff, Set.mem_insert_iff, Set.mem_singleton_iff]
    cases a with
    | object o =>
      simp only [object_mem_atoms, AdaptiveSet.contains_insert, reduceCtorEq, false_or,
        Atom.object.injEq, or_assoc]
    | edge e' =>
      simp only [edge_mem_atoms, List.mem_cons, Atom.edge.injEq, reduceCtorEq, or_false]
      exact or_comm
    | tracked v => simp
    | points v o => simp [pointees, pointees?]

/-- The index with one more edge finds this edge and those that it found before. -/
lemma WellFormed.hasEdge_withTarget (e' : Edge) :
    hasEdge { g with
      targets := g.targets.insert (e.src, e.field) ((g.follow e.src e.field).insert e.dst).1 } e'
        = true ↔ e' = e ∨ e' ∈ g.edges := by
  rw [hasEdge, FinMap.get?_insert]
  by_cases hk : (e'.src, e'.field) = (e.src, e.field)
  · -- the entry of the index that was rewritten
    obtain ⟨hsrc, hfield⟩ := Prod.mk.inj hk
    rw [if_pos hk]
    simp only [AdaptiveSet.contains_insert, hg.contains_follow]
    rw [← hsrc, ← hfield]
    constructor
    · intro h
      rcases h with h | h
      · exact Or.inr h
      · exact Or.inl (by cases e; cases e'; simp_all)
    · intro h
      rcases h with h | h
      · exact Or.inr (congrArg Edge.dst h)
      · exact Or.inl h
  · have hne : e' ≠ e := fun h => hk (by rw [h])
    rw [if_neg hk, ← hg.hasEdge_iff, hasEdge]
    simp [hne]

/-- The end points of a new edge become objects, and the index takes it up. -/
lemma WellFormed.insertEdge : (g.insertEdge e).1.WellFormed := by
  rw [Graph.insertEdge]
  split
  · exact hg
  next hnew =>
  have hobject : ∀ o, g.objects.contains o = true →
      ((g.objects.insert e.src).1.insert e.dst).1.contains o = true := by
    intro o ho
    simp only [AdaptiveSet.contains_insert]
    exact Or.inl (Or.inl ho)
  exact {
    objects := (hg.objects.insert e.src).insert e.dst
    targets := by
      intro k dsts hk
      rw [FinMap.get?_insert] at hk
      split at hk
      · exact Option.some.inj hk ▸ (hg.valid_follow e.src e.field).insert e.dst
      · exact hg.targets k dsts hk
    vars := hg.vars
    edges_nodup := List.nodup_cons.2 ⟨fun h => hnew (List.contains_iff_mem.2 h), hg.edges_nodup⟩
    hasEdge_iff := by
      intro e'
      rw [List.mem_cons]
      exact hg.hasEdge_withTarget e e'
    endpoints := by
      intro e' he'
      rcases List.mem_cons.1 he' with rfl | he'
      · simp [AdaptiveSet.contains_insert]
      · have h := hg.endpoints e' he'
        exact ⟨hobject _ h.1, hobject _ h.2⟩
    pointees_mem := fun v pts o hv ho => hobject o (hg.pointees_mem v pts o hv ho) }

/-- Edges are added one after the other. -/
lemma WellFormed.insertEdges (es : List Edge) :
    (es.foldl (fun g e => (g.insertEdge e).1) g).WellFormed := by
  induction es generalizing g with
  | nil => exact hg
  | cons e es ih => exact ih (hg.insertEdge e)

/-- Edges bring themselves and their end points, and nothing else. -/
lemma WellFormed.mem_atoms_insertEdges (es : List Edge) (a : Atom) :
    a ∈ (es.foldl (fun g e => (g.insertEdge e).1) g).atoms ↔
      a ∈ g.atoms ∨ ∃ e ∈ es, a ∈ Atom.ofEdge e := by
  induction es generalizing g with
  | nil => simp
  | cons e es ih =>
    rw [List.foldl_cons, ih (hg.insertEdge e), hg.atoms_insertEdge, Set.mem_union, or_assoc,
      List.exists_mem_cons_iff]

end InsertEdge

/-! ## Adding pointees -/

section AddPointees

variable {g : Graph} {var : String} {pts : ObjectSet}

/-- Only the pointees of one variable grow, from none if it was not tracked. -/
lemma pointees_addPointees (v : String) (o : ObjectId) :
    ((g.addPointees var pts).1.pointees v).contains o = true ↔
      (g.pointees v).contains o = true ∨ v = var ∧ pts.contains o = true := by
  rw [addPointees]
  cases hget : g.vars.get? var with
  | none =>
    simp only [pointees, pointees?, FinMap.get?_insert]
    by_cases hv : v = var
    · subst hv
      simp [hget]
    · simp [hv]
  | some old =>
    simp only [pointees, pointees?, FinMap.get?_insert]
    by_cases hv : v = var
    · subst hv
      simp [hget, AdaptiveSet.contains_union]
    · simp [hv]

/-- Added pointees are the only new assertions; they have to be objects already. -/
lemma atoms_addPointees :
    (g.addPointees var pts).1.atoms = g.atoms ∪ Atom.ofPointees var pts := by
  -- both branches write one entry of the map and leave the rest
  have hkeys : ∀ v, v ∈ (g.addPointees var pts).1.vars.keys ↔ v = var ∨ v ∈ g.vars.keys := by
    intro v
    rw [addPointees]
    cases g.vars.get? var <;> exact FinMap.mem_keys_insert _ _ _ _
  have hobjects : (g.addPointees var pts).1.objects = g.objects := by
    rw [addPointees]
    cases g.vars.get? var <;> rfl
  have hedges : (g.addPointees var pts).1.edges = g.edges := by
    rw [addPointees]
    cases g.vars.get? var <;> rfl
  ext a
  rw [Set.mem_union, Atom.ofPointees, Set.mem_ofPred_eq]
  cases a with
  | object o => simp [hobjects]
  | edge e => simp [hedges]
  | tracked v => simp [hkeys, or_comm]
  | points v o =>
    rw [points_mem_atoms, pointees_addPointees]
    simp only [points_mem_atoms, reduceCtorEq, false_or, Atom.points.injEq]
    constructor
    · intro h
      rcases h with h | ⟨hv, ho⟩
      · exact Or.inl h
      · exact Or.inr ⟨o, ho, hv, rfl⟩
    · intro h
      rcases h with h | ⟨o', ho, hv, rfl⟩
      · exact Or.inl h
      · exact Or.inr ⟨hv, ho⟩

/-- Pointees that are objects of the graph can be added. -/
lemma WellFormed.addPointees (hg : g.WellFormed) (hpts : pts.Valid)
    (hobj : ∀ o, pts.contains o = true → g.objects.contains o = true) :
    (g.addPointees var pts).1.WellFormed := by
  -- in both cases one entry of the map is written, with a valid set of objects of the graph
  have hwrite : ∀ all : ObjectSet, all.Valid →
      (∀ o, all.contains o = true → g.objects.contains o = true) →
      ({ g with vars := g.vars.insert var all } : Graph).WellFormed := by
    intro all hall hmem
    exact { hg with
      vars := by
        intro v s hs
        rw [FinMap.get?_insert] at hs
        split at hs
        · exact Option.some.inj hs ▸ hall
        · exact hg.vars v s hs
      pointees_mem := by
        intro v s o hs ho
        rw [FinMap.get?_insert] at hs
        split at hs
        · exact hmem o (Option.some.inj hs ▸ ho)
        · exact hg.pointees_mem v s o hs ho }
  rw [Graph.addPointees]
  cases hget : g.vars.get? var with
  | none => exact hwrite pts hpts hobj
  | some old =>
    apply hwrite _ ((hg.vars _ _ hget).union hpts)
    intro o ho
    rcases (AdaptiveSet.contains_union _ _ _).1 ho with ho | ho
    · exact hg.pointees_mem _ _ o hget ho
    · exact hobj o ho

end AddPointees

/-! ## Joining -/

/-- The entries of a map of pointees can be added when their objects are in the graph. -/
private lemma addAll_spec (l : List (String × ObjectSet)) {g : Graph} (hg : g.WellFormed)
    (hl : ∀ entry ∈ l, entry.2.Valid ∧
      ∀ o, entry.2.contains o = true → Atom.object o ∈ g.atoms) :
    (l.foldl (fun g entry => (g.addPointees entry.1 entry.2).1) g).WellFormed ∧
      ∀ a, a ∈ (l.foldl (fun g entry => (g.addPointees entry.1 entry.2).1) g).atoms ↔
        a ∈ g.atoms ∨ ∃ entry ∈ l, a ∈ Atom.ofPointees entry.1 entry.2 := by
  induction l generalizing g with
  | nil => exact ⟨hg, by simp⟩
  | cons entry l ih =>
    have hentry := hl entry List.mem_cons_self
    have hg' : (g.addPointees entry.1 entry.2).1.WellFormed :=
      hg.addPointees hentry.1 hentry.2
    -- no object is lost on the way
    have hl' : ∀ entry' ∈ l, entry'.2.Valid ∧ ∀ o, entry'.2.contains o = true →
        Atom.object o ∈ (g.addPointees entry.1 entry.2).1.atoms := by
      intro entry' hmem
      refine ⟨(hl entry' (List.mem_cons_of_mem _ hmem)).1, fun o ho => ?_⟩
      rw [atoms_addPointees]
      exact Or.inl ((hl entry' (List.mem_cons_of_mem _ hmem)).2 o ho)
    obtain ⟨hwf, hatoms⟩ := ih hg' hl'
    refine ⟨hwf, fun a => ?_⟩
    rw [List.foldl_cons, hatoms, atoms_addPointees, Set.mem_union, or_assoc,
      List.exists_mem_cons_iff]

/-- The graph that a fold makes does not depend on its flag. -/
lemma foldChanges_fst {α : Type} (step : Graph → α → Graph × Bool) (start : Graph × Bool)
    (elems : List α) :
    (foldChanges step start elems).1 = elems.foldl (fun g a => (step g a).1) start.1 :=
  foldl_flag_fst step elems start

/-- The steps of a join without their flags. -/
lemma union_eq_foldl (g h : Graph) :
    (g.union h).1 = h.vars.entries.foldl (fun g entry => (g.addPointees entry.1 entry.2).1)
      (h.edges.reverse.foldl (fun g e => (g.insertEdge e).1)
        { g with objects := (g.objects.union h.objects).1 }) := by
  show (foldChanges (fun g entry => g.addPointees entry.1 entry.2)
    (foldChanges insertEdge _ h.edges.reverse) h.vars.entries).1 = _
  rw [foldChanges_fst, foldChanges_fst]
  rfl

/-- A graph asserts what its objects, its edges and its variables do. -/
lemma WellFormed.mem_atoms_iff_parts {g : Graph} (hg : g.WellFormed) (a : Atom) :
    a ∈ g.atoms ↔ (∃ o, g.objects.contains o = true ∧ a = Atom.object o) ∨
      (∃ e ∈ g.edges, a ∈ Atom.ofEdge e) ∨
        ∃ entry ∈ g.vars.entries, a ∈ Atom.ofPointees entry.1 entry.2 := by
  constructor
  · intro ha
    cases a with
    | object o => exact Or.inl ⟨o, ha, rfl⟩
    | edge e => exact Or.inr (Or.inl ⟨e, ha, Or.inl rfl⟩)
    | tracked v =>
      obtain ⟨pts, hget⟩ := (FinMap.mem_keys_iff _ _).1 ha
      exact Or.inr (Or.inr ⟨(v, pts), (FinMap.get?_eq_some_iff _ _ _).1 hget, Or.inl rfl⟩)
    | points v o =>
      obtain ⟨pts, hget, ho⟩ := exists_get?_of_points ha
      have hentry := (FinMap.get?_eq_some_iff _ _ _).1 hget
      exact Or.inr (Or.inr ⟨(v, pts), hentry, Or.inr ⟨o, ho, rfl⟩⟩)
  · intro ha
    rcases ha with ⟨o, ho, rfl⟩ | ⟨e, he, ha⟩ | ⟨entry, hentry, ha⟩
    · exact ho
    · -- the end points of an edge are objects of the graph
      have hends := hg.endpoints e he
      rcases ha with rfl | rfl | rfl
      · exact he
      · exact hends.1
      · exact hends.2
    · have hget := (FinMap.get?_eq_some_iff g.vars entry.1 entry.2).2 hentry
      rcases ha with rfl | ⟨o, ho, rfl⟩
      · exact (FinMap.mem_keys_iff _ _).2 ⟨_, hget⟩
      · rw [points_mem_atoms, pointees_eq_of_get? hget]
        exact ho

section Union

variable {g h : Graph} (hg : g.WellFormed) (hh : h.WellFormed)

include hg hh

/-- The first step of a join: the objects of both graphs. -/
private lemma withObjects_spec :
    ({ g with objects := (g.objects.union h.objects).1 } : Graph).WellFormed ∧
      ∀ a, a ∈ ({ g with objects := (g.objects.union h.objects).1 } : Graph).atoms ↔
        a ∈ g.atoms ∨ ∃ o, h.objects.contains o = true ∧ a = Atom.object o := by
  constructor
  · exact hg.withObjects (hg.objects.union hh.objects)
      fun o ho => (AdaptiveSet.contains_union _ _ _).2 (Or.inl ho)
  · intro a
    cases a with
    | object o => simp [AdaptiveSet.contains_union]
    | edge e => simp
    | tracked v => simp
    | points v o => simp [pointees, pointees?]

/-- The join of well-formed graphs is well-formed and asserts what one of them asserts. -/
private lemma union_spec :
    (g.union h).1.WellFormed ∧ ∀ a, a ∈ (g.union h).1.atoms ↔ a ∈ g.atoms ∨ a ∈ h.atoms := by
  obtain ⟨hwf₁, hatoms₁⟩ := withObjects_spec hg hh
  have hwf₂ := hwf₁.insertEdges h.edges.reverse
  have hatoms₂ := hwf₁.mem_atoms_insertEdges h.edges.reverse
  -- the objects come first, so the pointees of `h` are in the graph when they are added
  have hentries : ∀ entry ∈ h.vars.entries, entry.2.Valid ∧ ∀ o, entry.2.contains o = true →
      Atom.object o ∈ (h.edges.reverse.foldl (fun (g : Graph) e => (g.insertEdge e).1)
        { g with objects := (g.objects.union h.objects).1 }).atoms := by
    intro entry hentry
    have hget := (FinMap.get?_eq_some_iff h.vars entry.1 entry.2).2 hentry
    refine ⟨hh.vars _ _ hget, fun o ho => ?_⟩
    rw [hatoms₂, hatoms₁]
    exact Or.inl (Or.inr ⟨o, hh.pointees_mem _ _ o hget ho, rfl⟩)
  obtain ⟨hwf₃, hatoms₃⟩ := addAll_spec h.vars.entries hwf₂ hentries
  rw [union_eq_foldl]
  refine ⟨hwf₃, fun a => ?_⟩
  rw [hatoms₃, hatoms₂, hatoms₁, hh.mem_atoms_iff_parts]
  simp only [List.mem_reverse, or_assoc]

/-- A union keeps to the invariant. -/
lemma WellFormed.union : (g.union h).1.WellFormed := (union_spec hg hh).1

/-- A join asserts what one of the two graphs asserts. -/
theorem atoms_union : (g.union h).1.atoms = g.atoms ∪ h.atoms := Set.ext (union_spec hg hh).2

end Union

/-- Joining `g` into `h` leaves `h` as it is. -/
def below (g h : Graph) : Bool := (h.union g).1 == h

/-- On well-formed graphs the order is inclusion of the assertions. -/
theorem below_iff {g h : Graph} (hg : g.WellFormed) (hh : h.WellFormed) :
    g.below h = true ↔ g.atoms ⊆ h.atoms := by
  rw [below, (hh.union hg).beq_iff hh, atoms_union hh hg, Set.union_eq_left]

end Graph

namespace SummaryRule

/-- Unions one after the other assert what one of the graphs does. -/
lemma foldl_union_spec {gs : List Graph} (hgs : ∀ g ∈ gs, g.WellFormed) {acc : Graph}
    (hacc : acc.WellFormed) :
    (gs.foldl (fun acc g => (acc.union g).1) acc).WellFormed ∧
      ∀ a, a ∈ (gs.foldl (fun acc g => (acc.union g).1) acc).atoms ↔
        a ∈ acc.atoms ∨ ∃ g ∈ gs, a ∈ g.atoms := by
  induction gs generalizing acc with
  | nil => exact ⟨hacc, by simp⟩
  | cons g gs ih =>
    have hg := hgs g List.mem_cons_self
    obtain ⟨hwf, hatoms⟩ := ih (fun g' hg' => hgs g' (List.mem_cons_of_mem _ hg')) (hacc.union hg)
    refine ⟨hwf, fun a => ?_⟩
    rw [List.foldl_cons, hatoms, Graph.atoms_union hacc hg, Set.mem_union, or_assoc,
      List.exists_mem_cons_iff]

/-- A join of well-formed graphs is well-formed and asserts what one of them asserts. -/
lemma join_spec {gs : List Graph} (hgs : ∀ g ∈ gs, g.WellFormed) :
    (join gs).WellFormed ∧ ∀ a, a ∈ (join gs).atoms ↔ ∃ g ∈ gs, a ∈ g.atoms := by
  obtain ⟨hwf, hatoms⟩ := foldl_union_spec hgs Graph.wellFormed_empty
  refine ⟨hwf, fun a => ?_⟩
  rw [join, hatoms, Graph.atoms_empty]
  simp

end SummaryRule

end MayAlias
