import MayAlias.Effect
import MayAlias.Proofs.Graph

/-!
# Effects on sets of atoms

`Effect.after` says what is asserted after a statement in terms of what was asserted before it: the
three assignments replace what one variable points to, a store adds edges, and nothing else changes.
Applying an effect to a well-formed graph does exactly that, and more assertions before give more
assertions after.
-/

namespace MayAlias.Effect

/-- What is asserted after a statement, given what was asserted before. -/
def after (e : Effect) (A : Set Atom) : Set Atom :=
  match e with
  | alloc lhs object => Atom.reassign lhs (· = object) A
  | copy lhs rhs => Atom.reassign lhs (fun o => Atom.points rhs o ∈ A) A
  | load lhs base field =>
    Atom.reassign lhs
      (fun o => ∃ src, Atom.points base src ∈ A ∧ Atom.edge ⟨src, field, o⟩ ∈ A) A
  | store base field rhs =>
    A ∪ { a | ∃ src dst, Atom.points base src ∈ A ∧ Atom.points rhs dst ∈ A ∧
      a = Atom.edge ⟨src, field, dst⟩ }
  | nothing => A

/-- Every effect is monotone. -/
theorem after_subset (e : Effect) {A B : Set Atom} (hAB : A ⊆ B) : e.after A ⊆ e.after B := by
  cases e with
  | alloc lhs object => exact Atom.reassign_subset lhs hAB fun _ h => h
  | copy lhs rhs => exact Atom.reassign_subset lhs hAB fun o h => hAB h
  | load lhs base field =>
    apply Atom.reassign_subset lhs hAB
    intro o h
    obtain ⟨src, hbase, hedge⟩ := h
    exact ⟨src, hAB hbase, hAB hedge⟩
  | store base field rhs =>
    apply Set.union_subset_union hAB
    intro a h
    obtain ⟨src, dst, hbase, hrhs, ha⟩ := h
    exact ⟨src, dst, hAB hbase, hAB hrhs, ha⟩
  | nothing => exact hAB

/-- A store makes an edge from every object of its base to every object of its operand. -/
lemma mem_storeEdges (srcs : List ObjectId) (field : String) (dsts : List ObjectId) (e : Edge) :
    e ∈ storeEdges srcs field dsts ↔ ∃ src ∈ srcs, ∃ dst ∈ dsts, e = ⟨src, field, dst⟩ := by
  simp only [storeEdges, List.mem_flatMap, List.mem_map, eq_comm]

section Apply

variable {g : Graph} (hg : g.WellFormed)

include hg

/-- Every effect keeps to the invariant of the representation. -/
lemma wellFormed_apply (e : Effect) : (e.apply g).WellFormed := by
  cases e with
  | alloc lhs object => exact hg.assign (AdaptiveSet.valid_ofList _)
  | copy lhs rhs => exact hg.assign (hg.valid_pointees rhs)
  | load lhs base field => exact hg.assign (hg.valid_followAll _ field)
  | store base field rhs =>
    rw [apply]
    split
    · exact hg.insertEdges _
    · exact hg
  | nothing => exact hg

/-- A store adds an edge from every pointee of the base to every pointee of the operand. -/
private lemma atoms_apply_store (base field rhs : String) :
    ((store base field rhs).apply g).atoms = (store base field rhs).after g.atoms := by
  ext a
  rw [apply, after, Set.mem_union, Set.mem_ofPred_eq]
  split
  · next srcs dsts hsrcs hdsts =>
    rw [hg.mem_atoms_insertEdges]
    simp only [mem_storeEdges, ← Graph.pointees_eq_of_get? hsrcs,
      ← Graph.pointees_eq_of_get? hdsts, (hg.valid_pointees base).mem_toList,
      (hg.valid_pointees rhs).mem_toList]
    constructor
    · intro h
      rcases h with ha | ⟨_, ⟨src, hsrc, dst, hdst, rfl⟩, ha⟩
      · exact Or.inl ha
      -- the end points are pointees, hence objects of the graph already
      · rcases ha with rfl | rfl | rfl
        · exact Or.inr ⟨src, dst, hsrc, hdst, rfl⟩
        · exact Or.inl (hg.object_of_points hsrc)
        · exact Or.inl (hg.object_of_points hdst)
    · intro h
      rcases h with ha | ⟨src, dst, hsrc, hdst, rfl⟩
      · exact Or.inl ha
      · exact Or.inr ⟨_, ⟨src, hsrc, dst, hdst, rfl⟩, Or.inl rfl⟩
  · next huntracked =>
    constructor
    · exact Or.inl
    · intro h
      rcases h with ha | ⟨src, dst, hsrc, hdst, _⟩
      · exact ha
      · obtain ⟨srcs, hsrcs, _⟩ := Graph.exists_get?_of_points hsrc
        obtain ⟨dsts, hdsts, _⟩ := Graph.exists_get?_of_points hdst
        exact absurd hdsts (huntracked srcs dsts hsrcs)

/-- Applying an effect to a graph does to its assertions what `after` says. -/
theorem atoms_apply (e : Effect) : (e.apply g).atoms = e.after g.atoms := by
  cases e with
  | alloc lhs object =>
    rw [apply, Graph.atoms_assign, after]
    congr 1
    -- only the pointees of the variable are left to compare
    ext o
    rw [AdaptiveSet.contains_ofList, List.mem_singleton]
  | copy lhs rhs =>
    rw [apply, Graph.atoms_assign, after]
    rfl
  | load lhs base field =>
    rw [apply, Graph.atoms_assign, after]
    congr 1
    ext o
    rw [hg.contains_followAll (hg.valid_pointees base)]
    rfl
  | store base field rhs => exact atoms_apply_store hg base field rhs
  | nothing => rfl

end Apply

end MayAlias.Effect
