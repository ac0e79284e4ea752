import MayAlias.Proofs.Coherence

/-!
# The join of graphs

Graphs that the operations make, with contents in any order, form a join-semilattice under
comparison by contents: the join is commutative, associative and idempotent, the empty graph is
neutral, and the join is the least graph of which both graphs are part (`Graph.PartOf`).

A join also reports whether the first graph grew.  It collects this report from its steps, each of
which adds an object set, an edge or the pointees of a variable.  `Graph.Grown` says of one step
that nothing is lost and that the report is right; it composes, so it holds of the whole join.
-/

namespace MayAlias.Graph

/-! ## Parts of a graph -/

/-- The objects, edges and tracked variables of `g` are among those of `h`, and what a variable
points to in `g` it points to in `h`. -/
structure PartOf (g h : Graph) : Prop where
  objects : ∀ o, g.objects.contains o = true → h.objects.contains o = true
  edges : ∀ e ∈ g.edges, e ∈ h.edges
  vars : ∀ var pts, g.pointees? var = some pts →
    ∃ pts', h.pointees? var = some pts' ∧ ∀ o, pts.contains o = true → pts'.contains o = true

/-- A part of a graph asserts a part of what the graph asserts. -/
lemma partOf_iff {g h : Graph} : g.PartOf h ↔ g.atoms ⊆ h.atoms := by
  constructor
  · intro hpart a ha
    cases a with
    | object o => exact hpart.objects o ha
    | edge e => exact hpart.edges e ha
    | tracked var =>
      obtain ⟨pts, hpts⟩ := (FinMap.mem_keys_iff _ var).1 ha
      obtain ⟨pts', hpts', _⟩ := hpart.vars var pts hpts
      exact (FinMap.mem_keys_iff _ var).2 ⟨pts', hpts'⟩
    | points var o =>
      obtain ⟨pts, hpts, ho⟩ := exists_get?_of_points ha
      obtain ⟨pts', hpts', hsub⟩ := hpart.vars var pts hpts
      rw [points_mem_atoms, pointees_eq_of_get? hpts']
      exact hsub o ho
  · intro hsub
    refine ⟨fun o ho => hsub (a := .object o) ho, fun e he => hsub (a := .edge e) he, ?_⟩
    intro var pts hpts
    have htracked : Atom.tracked var ∈ h.atoms :=
      hsub (tracked_mem_atoms.2 ((FinMap.mem_keys_iff _ var).2 ⟨pts, hpts⟩))
    -- the variable is tracked in the larger graph, with a set of its own
    obtain ⟨pts', hpts'⟩ := (FinMap.mem_keys_iff _ var).1 htracked
    refine ⟨pts', hpts', fun o ho => ?_⟩
    have hpoints : Atom.points var o ∈ h.atoms := by
      apply hsub
      rw [points_mem_atoms, pointees_eq_of_get? hpts]
      exact ho
    rwa [points_mem_atoms, pointees_eq_of_get? hpts'] at hpoints

/-! ## The report of a change -/

/-- The graph in `r` asserts all that `g` does, and the flag tells whether it asserts more. -/
structure Grown (g : Graph) (r : Graph × Bool) : Prop where
  subset : g.atoms ⊆ r.1.atoms
  flag : r.2 = true ↔ ¬ r.1.atoms ⊆ g.atoms

/-- Two steps together lose nothing, and the report is right if both reports are. -/
lemma Grown.trans {g : Graph} {r r' : Graph × Bool} (hr : Grown g r) (hr' : Grown r.1 r') :
    Grown g (r'.1, r.2 || r'.2) := by
  refine ⟨hr.subset.trans hr'.subset, ?_⟩
  -- nothing grew on the whole when nothing grew in either step
  rw [Bool.or_eq_true, hr.flag, hr'.flag, ← not_and_or, not_iff_not]
  constructor
  · intro h
    exact h.2.trans h.1
  · intro h
    exact ⟨hr'.subset.trans h, h.trans hr.subset⟩

/-- Steps that report rightly, one after the other, report rightly together. -/
lemma Grown.foldChanges {α : Type} (step : Graph → α → Graph × Bool) (Inv : Graph → Prop)
    {l : List α} (hinv : ∀ g, ∀ a ∈ l, Inv g → Inv (step g a).1)
    (hstep : ∀ g, ∀ a ∈ l, Inv g → Grown g (step g a)) {g : Graph} {start : Graph × Bool}
    (hstart : Inv start.1) (hg : Grown g start) : Grown g (foldChanges step start l) := by
  induction l generalizing start with
  | nil => exact hg
  | cons a l ih =>
    have hnext : Grown g ((step start.1 a).1, start.2 || (step start.1 a).2) :=
      hg.trans (hstep start.1 a List.mem_cons_self hstart)
    exact ih (fun g b hb => hinv g b (List.mem_cons_of_mem a hb))
      (fun g b hb => hstep g b (List.mem_cons_of_mem a hb))
      (hinv start.1 a List.mem_cons_self hstart) hnext

/-- The union of two sets reports whether the second has an element that the first has not. -/
lemma union_snd_iff_not {s t : ObjectSet} (ht : t.Valid) :
    (s.union t).2 = true ↔ ¬ ∀ o, t.contains o = true → s.contains o = true := by
  rw [ht.union_snd_iff]
  simp

/-- The report of a set is the report of the graph that takes it up. -/
lemma grown_withObjects (g : Graph) {more : ObjectSet} (hmore : more.Valid) :
    Grown g ({ g with objects := (g.objects.union more).1 }, (g.objects.union more).2) := by
  have hobject : ∀ o, (g.objects.union more).1.contains o = true ↔
      g.objects.contains o = true ∨ more.contains o = true :=
    AdaptiveSet.contains_union g.objects more
  constructor
  · intro a ha
    cases a with
    | object o => exact (hobject o).2 (Or.inl ha)
    | edge e => exact ha
    | tracked var => exact ha
    | points var o => exact ha
  · rw [union_snd_iff_not hmore, not_iff_not]
    constructor
    · intro hsub a ha
      cases a with
      | object o => exact ((hobject o).1 ha).elim id (hsub o)
      | edge e => exact ha
      | tracked var => exact ha
      | points var o => exact ha
    · intro hsub o ho
      exact hsub (a := .object o) ((hobject o).2 (Or.inr ho))

/-- An edge is reported when it is new. -/
lemma WellFormed.grown_insertEdge {g : Graph} (hg : g.WellFormed) (e : Edge) :
    Grown g (g.insertEdge e) := by
  have hatoms := hg.atoms_insertEdge e
  refine ⟨hatoms ▸ Set.subset_union_left, ?_⟩
  rw [Graph.insertEdge]
  split
  · simp
  · next hnew =>
    refine iff_of_true rfl fun hsub => ?_
    -- the edge is in the larger graph only
    have he : Atom.edge e ∈ g.atoms := hsub (edge_mem_atoms.2 List.mem_cons_self)
    exact hnew (List.contains_iff_mem.2 he)

/-- Pointees are reported when one of them is new, or the variable is. -/
lemma grown_addPointees (g : Graph) (var : String) {pts : ObjectSet} (hpts : pts.Valid) :
    Grown g (g.addPointees var pts) := by
  refine ⟨atoms_addPointees.symm ▸ Set.subset_union_left, ?_⟩
  rw [atoms_addPointees, Set.union_subset_iff, and_iff_right subset_rfl, addPointees]
  cases hget : g.vars.get? var with
  | none =>
    -- a variable that becomes tracked is a change, even without pointees
    refine iff_of_true rfl fun hsub => ?_
    obtain ⟨old, hold⟩ := (FinMap.mem_keys_iff _ var).1 (hsub (a := .tracked var) (Or.inl rfl))
    simp [hget] at hold
  | some old =>
    show (old.union pts).2 = true ↔ _
    rw [union_snd_iff_not hpts, not_iff_not]
    constructor
    · intro hsub a ha
      rcases ha with rfl | ⟨o, ho, rfl⟩
      · exact (FinMap.mem_keys_iff _ var).2 ⟨old, hget⟩
      · rw [points_mem_atoms, pointees_eq_of_get? hget]
        exact hsub o ho
    · intro hsub o ho
      have hpoints : Atom.points var o ∈ g.atoms := hsub (Or.inr ⟨o, ho, rfl⟩)
      rwa [points_mem_atoms, pointees_eq_of_get? hget] at hpoints

/-- A join reports whether the first graph grew. -/
lemma WellFormed.grown_union {g h : Graph} (hg : g.WellFormed) (hh : h.WellFormed) :
    Grown g (g.union h) := by
  have hwf : ({ g with objects := (g.objects.union h.objects).1 } : Graph).WellFormed :=
    hg.withObjects (hg.objects.union hh.objects)
      fun o ho => (AdaptiveSet.contains_union _ _ _).2 (Or.inl ho)
  have hedges := Grown.foldChanges Graph.insertEdge WellFormed (l := h.edges.reverse)
    (fun _ e _ hg' => hg'.insertEdge e) (fun _ e _ hg' => hg'.grown_insertEdge e) hwf
    (g.grown_withObjects hh.objects)
  have hvars : ∀ entry ∈ h.vars.entries, entry.2.Valid := fun entry hentry =>
    hh.vars _ _ ((FinMap.get?_eq_some_iff h.vars entry.1 entry.2).2 hentry)
  exact Grown.foldChanges (fun g' entry => g'.addPointees entry.1 entry.2) (fun _ => True)
    (fun _ _ _ _ => trivial)
    (fun g' entry hentry _ => g'.grown_addPointees entry.1 (hvars entry hentry)) trivial hedges

/-! ## The laws -/

/-- The laws of the join for the graphs `g`, `h` and `k`, which are compared by contents. -/
structure JoinLaws (g h k : Graph) : Prop where
  comm : ((g.union h).1 == (h.union g).1) = true
  assoc : (((g.union h).1.union k).1 == (g.union (h.union k).1).1) = true
  idem : ((g.union g).1 == g) = true
  empty_union : ((empty.union g).1 == g) = true
  union_empty : ((g.union empty).1 == g) = true
  /-- Graphs that are part of each other are equal. -/
  beq_iff : (g == h) = true ↔ g.PartOf h ∧ h.PartOf g
  partOf_union_left : g.PartOf (g.union h).1
  partOf_union_right : h.PartOf (g.union h).1
  /-- No smaller graph has both as parts. -/
  union_partOf : g.PartOf k → h.PartOf k → (g.union h).1.PartOf k
  /-- The flag tells whether the first graph is changed by the join. -/
  flag_iff_ne : (g.union h).2 = true ↔ ((g.union h).1 == g) = false
  /-- The flag tells whether the second graph has something that the first has not. -/
  flag_iff_not_partOf : (g.union h).2 = true ↔ ¬ h.PartOf g

/-- Graphs made by operations obey the laws of the join, because the join of what two graphs assert
is a union of sets. -/
theorem union_joinLaws {g h k : Graph} (hgb : g.BuiltInAnyOrder) (hhb : h.BuiltInAnyOrder)
    (hkb : k.BuiltInAnyOrder) : JoinLaws g h k := by
  have hg := hgb.wellFormed
  have hh := hhb.wellFormed
  have hk := hkb.wellFormed
  -- every law is one of sets of atoms
  exact {
    comm := by
      rw [(hg.union hh).beq_iff (hh.union hg), atoms_union hg hh, atoms_union hh hg, Set.union_comm]
    assoc := by
      rw [((hg.union hh).union hk).beq_iff (hg.union (hh.union hk)), atoms_union (hg.union hh) hk,
        atoms_union hg (hh.union hk), atoms_union hg hh, atoms_union hh hk, Set.union_assoc]
    idem := by
      rw [(hg.union hg).beq_iff hg, atoms_union hg hg, Set.union_self]
    empty_union := by
      rw [(wellFormed_empty.union hg).beq_iff hg, atoms_union wellFormed_empty hg, atoms_empty,
        Set.empty_union]
    union_empty := by
      rw [(hg.union wellFormed_empty).beq_iff hg, atoms_union hg wellFormed_empty, atoms_empty,
        Set.union_empty]
    beq_iff := by
      rw [hg.beq_iff hh, partOf_iff, partOf_iff, Set.Subset.antisymm_iff]
    partOf_union_left := by
      rw [partOf_iff, atoms_union hg hh]
      exact Set.subset_union_left
    partOf_union_right := by
      rw [partOf_iff, atoms_union hg hh]
      exact Set.subset_union_right
    union_partOf := by
      rw [partOf_iff, partOf_iff, partOf_iff, atoms_union hg hh]
      exact Set.union_subset
    flag_iff_ne := by
      rw [(hg.grown_union hh).flag, ← Bool.not_eq_true, (hg.union hh).beq_iff hg, not_iff_not]
      exact ⟨fun hsub => hsub.antisymm (hg.grown_union hh).subset, fun heq => heq.subset⟩
    flag_iff_not_partOf := by
      rw [(hg.grown_union hh).flag, partOf_iff, atoms_union hg hh, Set.union_subset_iff,
        and_iff_right subset_rfl] }

/-- A variable that points nowhere is all that is new in the second graph, and the join reports it
once. -/
theorem union_joinLaws_linkedPair :
    linkedPair.BuiltInAnyOrder ∧ (empty.assign "z" .empty).BuiltInAnyOrder ∧
      JoinLaws linkedPair (empty.assign "z" .empty) linkedPair ∧
      (linkedPair.union (empty.assign "z" .empty)).2 = true ∧
      ((linkedPair.union (empty.assign "z" .empty)).1.union
        (empty.assign "z" .empty)).2 = false := by
  have hnowhere : (empty.assign "z" .empty).BuiltInAnyOrder :=
    BuiltInAnyOrder.empty.assign AdaptiveSet.valid_empty "z"
  have hpair := builtInAnyOrder_linkedPair
  exact ⟨hpair, hnowhere, union_joinLaws hpair hnowhere hpair, by decide, by decide⟩

end MayAlias.Graph
