import Mathlib.Logic.Relation
import MayAlias.Proofs.PassBound
import MayAlias.Proofs.Relabelling

/-!
# Where tracked variables and objects come from

A variable is tracked after a node when it is assigned at a node that leads there along links to
predecessors, and an object is in the fact after a node when it is allocated at such a node.

Whatever is tracked or present stays so: statements take nothing back but what a variable points to
(`Atom.Lasting`), so what a node asserts is asserted wherever it leads.  Conversely the assertions
about what is assigned and allocated up to each node are never left by a pass, hence the facts
assert nothing else.
-/

namespace MayAlias

/-! ## What statements do not take back -/

/-- Assertions that no statement takes back: all but those about what a variable points to. -/
def Atom.Lasting : Atom → Prop
  | .points _ _ => False
  | _ => True

/-- An assignment takes back only what its variable points to. -/
lemma Atom.mem_reassign_of_lasting {a : Atom} (ha : a.Lasting) {A : Set Atom} (h : a ∈ A)
    (var : String) (P : ObjectId → Prop) : a ∈ reassign var P A := by
  cases a with
  | object o => exact Or.inl h
  | edge e => exact h
  | tracked v => exact Or.inr h
  | points v o => exact ha.elim

namespace Effect

/-- No statement takes back an object, an edge or a variable that is tracked. -/
lemma mem_after_of_lasting (e : Effect) {a : Atom} (ha : a.Lasting) {A : Set Atom} (h : a ∈ A) :
    a ∈ e.after A := by
  cases e with
  | store base field rhs => exact Or.inl h
  | nothing => exact h
  | _ => exact Atom.mem_reassign_of_lasting ha h _ _

/-- A variable is tracked once it is assigned. -/
lemma tracked_mem_after {e : Effect} {v : String} (h : e.assignedVar? = some v) (A : Set Atom) :
    Atom.tracked v ∈ e.after A := by
  cases e with
  | store base field rhs => simp [assignedVar?] at h
  | nothing => simp [assignedVar?] at h
  | _ => exact Or.inl (Option.some.inj h).symm

/-- An object is there once it is allocated. -/
lemma object_mem_after {e : Effect} {o : ObjectId} (h : e.allocated? = some o) (A : Set Atom) :
    Atom.object o ∈ e.after A := by
  cases e with
  | alloc lhs object => exact Or.inr (Option.some.inj h).symm
  | _ => simp [allocated?] at h

end Effect

/-- More objects and variables make for more assertions about them. -/
lemma Atom.about_mono {objects objects' : Finset ObjectId} {vars vars' fields : Finset String}
    (hobjects : objects ⊆ objects') (hvars : vars ⊆ vars') :
    about objects vars fields ⊆ about objects' vars' fields := by
  intro a ha
  cases a with
  | object o => exact object_mem_about.2 (hobjects (object_mem_about.1 ha))
  | edge e =>
    obtain ⟨hsrc, hfield, hdst⟩ := edge_mem_about.1 ha
    exact edge_mem_about.2 ⟨hobjects hsrc, hfield, hobjects hdst⟩
  | tracked v => exact tracked_mem_about.2 (hvars (tracked_mem_about.1 ha))
  | points v o =>
    obtain ⟨hv, ho⟩ := points_mem_about.1 ha
    exact points_mem_about.2 ⟨hvars hv, hobjects ho⟩

/-! ## Nodes that lead to a node -/

lemma Statement.site?_eq_some_iff {s : Statement} {label : String} :
    s.site? = some label ↔ ∃ lhs, s = .alloc lhs (some label) := by
  cases s <;> simp [Statement.site?]

namespace Flow

variable {N : Type} (g : Flow N)

/-- Following links to predecessors backwards, `m` leads to `n`. -/
def LeadsTo : N → N → Prop := Relation.ReflTransGen fun m n => m ∈ g.preds n

/-- The variable is assigned at a node that leads to `n`. -/
def AssignedUpTo (n : N) (v : String) : Prop :=
  ∃ m, g.LeadsTo m n ∧ (g.stmt m).definedVar? = some v

/-- The site belongs to an allocation at a node that leads to `n`. -/
def AllocatedUpTo (n : N) (label : String) : Prop :=
  ∃ m, g.LeadsTo m n ∧ (g.stmt m).site? = some label

variable {g}

lemma AssignedUpTo.of_leadsTo {m n : N} {v : String} (h : g.AssignedUpTo m v)
    (hmn : g.LeadsTo m n) : g.AssignedUpTo n v := by
  obtain ⟨l, hlm, hv⟩ := h
  exact ⟨l, hlm.trans hmn, hv⟩

lemma AllocatedUpTo.of_leadsTo {m n : N} {label : String} (h : g.AllocatedUpTo m label)
    (hmn : g.LeadsTo m n) : g.AllocatedUpTo n label := by
  obtain ⟨l, hlm, hlabel⟩ := h
  exact ⟨l, hlm.trans hmn, hlabel⟩

open Classical in
/-- The objects of the sites allocated up to a node. -/
noncomputable def objectsUpTo (g : Flow N) (sites : SiteTable) (n : N) : Finset ObjectId :=
  (g.siteLabels.filter (g.AllocatedUpTo n)).image fun label => (sites.intern label).1

open Classical in
/-- The variables assigned up to a node. -/
noncomputable def varsUpTo (g : Flow N) (n : N) : Finset String :=
  g.assignedVars.filter (g.AssignedUpTo n)

/-- The objects of the labels allocated up to a node. -/
lemma mem_objectsUpTo {sites : SiteTable} {n : N} {o : ObjectId} :
    o ∈ g.objectsUpTo sites n ↔
      ∃ label ∈ g.siteLabels, g.AllocatedUpTo n label ∧ (sites.intern label).1 = o := by
  simp only [objectsUpTo, Finset.mem_image, Finset.mem_filter, and_assoc]

lemma mem_varsUpTo {n : N} {v : String} :
    v ∈ g.varsUpTo n ↔ v ∈ g.assignedVars ∧ g.AssignedUpTo n v := by
  simp only [varsUpTo, Finset.mem_filter]

/-- The assertions about what is assigned and allocated up to a node. -/
noncomputable def assertionsUpTo (g : Flow N) (sites : SiteTable) (n : N) : Finset Atom :=
  Atom.about (g.objectsUpTo sites n) (g.varsUpTo n) g.storedFields

/-- What is assigned and allocated up to a node is so wherever the node leads. -/
lemma assertionsUpTo_subset {m n : N} (hmn : g.LeadsTo m n) (sites : SiteTable) :
    g.assertionsUpTo sites m ⊆ g.assertionsUpTo sites n := by
  apply Atom.about_mono
  · intro o ho
    obtain ⟨label, hmem, hlabel, rfl⟩ := mem_objectsUpTo.1 ho
    exact mem_objectsUpTo.2 ⟨label, hmem, hlabel.of_leadsTo hmn, rfl⟩
  · intro v hv
    obtain ⟨hmem, hv⟩ := mem_varsUpTo.1 hv
    exact mem_varsUpTo.2 ⟨hmem, hv.of_leadsTo hmn⟩

end Flow

namespace Analysis

variable {N : Type} [DecidableEq N] {g : Flow N} {p : Problem N}

namespace Problem.Represents

variable (hr : p.Represents g)

include hr

/-- What leads to a node is a node. -/
lemma mem_of_leadsTo {m n : N} (hmn : g.LeadsTo m n) (hn : n ∈ g.nodes) : m ∈ g.nodes := by
  induction hmn with
  | refl => exact hn
  | tail _ hlink ih => exact ih (hr.preds_mem _ hn _ hlink)

/-- The effect of a node writes nothing but what is assigned and allocated up to it. -/
lemma fits_upTo {i : ℕ} {n : N} (hi : g.nodes[i]? = some n) :
    (p.effects.getD i .nothing).Fits (g.objectsUpTo p.sites n) (g.varsUpTo n) g.storedFields := by
  have hfits := hr.fits hi
  obtain ⟨hvar, _, hobject⟩ := Effect.parts_of_ofStatement? (hr.effects i n hi)
  constructor
  · intro o ho
    obtain ⟨label, hlabel, rfl⟩ := Option.map_eq_some_iff.1 (hobject.symm.trans ho)
    refine Flow.mem_objectsUpTo.2 ⟨label, ?_, ⟨n, .refl, hlabel⟩, rfl⟩
    exact List.mem_toFinset.2 (List.mem_filterMap.2 ⟨n, List.mem_of_getElem? hi, hlabel⟩)
  · intro v hv
    exact Flow.mem_varsUpTo.2 ⟨hfits.assigned v hv, n, .refl, hvar.symm.trans hv⟩
  · exact hfits.stored

/-- No visit leaves the assertions about what is assigned and allocated up to each node. -/
lemma closed_assertionsUpTo :
    Facts.Closed p
      (fun i => { a | ∀ n, g.nodes[i]? = some n → a ∈ g.assertionsUpTo p.sites n })
      (fun i => { a | ∀ n, g.nodes[i]? = some n → a ∈ g.assertionsUpTo p.sites n }) := by
  constructor
  · intro i _ q hq a ha n hn
    obtain ⟨m, hm, hqpos⟩ := (hr.mem_preds hn q).1 hq
    rw [hr.order] at hqpos
    exact Flow.assertionsUpTo_subset (.single hm) p.sites (ha m (getElem?_of_position? hqpos))
  · intro i _ a ha n hn
    have hbefore : { a | ∀ n, g.nodes[i]? = some n → a ∈ g.assertionsUpTo p.sites n } ⊆
        (g.assertionsUpTo p.sites n : Set Atom) := fun b hb => hb n hn
    exact (hr.fits_upTo hn).after_subset (Effect.after_subset _ hbefore ha)

/-- What is asserted after a node and never taken back is asserted wherever the node leads. -/
lemma mem_atoms_of_leadsTo {ins outs : N → Graph} (hsol : IsSolution g p.sites ins outs)
    (hwf : WellFormedAt g ins outs) {a : Atom} (ha : a.Lasting) {m n : N}
    (hmn : g.LeadsTo m n) (hn : n ∈ g.nodes) (hm : a ∈ (outs m).atoms) : a ∈ (outs n).atoms := by
  induction hmn with
  | refl => exact hm
  | tail _ hlink ih =>
    have hprev := ih (hr.preds_mem _ hn _ hlink)
    obtain ⟨hins, e, _, houts⟩ := hr.atoms_of_isSolution hsol hwf hn
    rw [houts]
    exact e.mem_after_of_lasting ha ((hins a).2 ⟨_, hlink, hprev⟩)

/-- After a node, the variables assigned and the objects allocated up to it are there. -/
lemma upTo_mem_atoms {ins outs : N → Graph} (hsol : IsSolution g p.sites ins outs)
    (hwf : WellFormedAt g ins outs) {n : N} (hn : n ∈ g.nodes) :
    (∀ v, g.AssignedUpTo n v → Atom.tracked v ∈ (outs n).atoms) ∧
      ∀ label, g.AllocatedUpTo n label →
        Atom.object (p.sites.intern label).1 ∈ (outs n).atoms := by
  constructor
  · intro v h
    obtain ⟨m, hmn, hv⟩ := h
    obtain ⟨_, e, he, houts⟩ := hr.atoms_of_isSolution hsol hwf (hr.mem_of_leadsTo hmn hn)
    -- it is tracked after `m` and stays so on the way to `n`
    refine hr.mem_atoms_of_leadsTo hsol hwf (a := .tracked v) trivial hmn hn ?_
    rw [houts]
    exact Effect.tracked_mem_after ((Effect.parts_of_ofStatement? he).1.trans hv) _
  · intro label h
    obtain ⟨m, hmn, hlabel⟩ := h
    obtain ⟨_, e, he, houts⟩ := hr.atoms_of_isSolution hsol hwf (hr.mem_of_leadsTo hmn hn)
    refine hr.mem_atoms_of_leadsTo hsol hwf (a := .object _) trivial hmn hn ?_
    rw [houts]
    apply Effect.object_mem_after
    rw [(Effect.parts_of_ofStatement? he).2.2, hlabel, Option.map_some]

end Problem.Represents

/-! ## The facts that solving returns -/

/-- The object of a site that the procedure allocates is the one the table has for it. -/
lemma Problem.Represents.find?_eq_intern (hr : p.Represents g) {m : N} (hm : m ∈ g.nodes)
    {label : String} (hlabel : (g.stmt m).site? = some label) :
    p.sites.find? label = some (p.sites.intern label).1 := by
  obtain ⟨lhs, hstmt⟩ := Statement.site?_eq_some_iff.1 hlabel
  obtain ⟨o, ho⟩ := (hr.sites_inStep.exists_find?_iff label).2
    ((hr.mem_labels label).2 ⟨m, hm, lhs, hstmt⟩)
  rw [SiteTable.intern_of_find? ho, ho]

/-- Solved facts assert nothing but what is assigned and allocated up to each node. -/
lemma Problem.Represents.atoms_subset_upTo (hr : p.Represents g) {k : ℕ} {limit : Option ℕ}
    {f : Facts} (hs : (Facts.afterPasses p k).solve p limit = (f, .ok ())) {n : N}
    (hn : n ∈ g.nodes) : ∀ a ∈ (p.factAt f.after n).atoms, a ∈ g.assertionsUpTo p.sites n := by
  intro a ha
  obtain ⟨i, hpos, hi, _⟩ := hr.exists_position hn
  rw [p.factAt_eq f.after hpos] at ha
  exact (Facts.within_of_solve hr.closed_assertionsUpTo hs).after i ha n hi

/-- In solved facts the variables tracked are those assigned up to the node, and the objects are
those of the sites allocated up to it. -/
lemma Problem.Represents.upTo_iff_mem_atoms (hr : p.Represents g) {k : ℕ} {limit : Option ℕ}
    {f : Facts} (hs : (Facts.afterPasses p k).solve p limit = (f, .ok ())) {n : N}
    (hn : n ∈ g.nodes) :
    (∀ v, Atom.tracked v ∈ (p.factAt f.after n).atoms ↔ g.AssignedUpTo n v) ∧
      ∀ o, Atom.object o ∈ (p.factAt f.after n).atoms ↔
        ∃ label, g.AllocatedUpTo n label ∧ p.sites.find? label = some o := by
  have hf := Facts.valid_of_solve hs
  have hsol := hr.isSolution hf (Facts.settled_of_solve hs)
  have hwithin := hr.atoms_subset_upTo hs hn
  obtain ⟨htracked, hobject⟩ := hr.upTo_mem_atoms hsol (hr.wellFormedAt hf) hn
  refine ⟨fun v => ⟨fun h => ?_, htracked v⟩, fun o => ⟨fun h => ?_, fun h => ?_⟩⟩
  · exact (Flow.mem_varsUpTo.1 (Atom.tracked_mem_about.1 (hwithin _ h))).2
  · obtain ⟨label, _, hup, rfl⟩ := Flow.mem_objectsUpTo.1 (Atom.object_mem_about.1 (hwithin _ h))
    obtain ⟨m, hmn, hlabel⟩ := hup
    exact ⟨label, ⟨m, hmn, hlabel⟩, hr.find?_eq_intern (hr.mem_of_leadsTo hmn hn) hlabel⟩
  · obtain ⟨label, hup, ho⟩ := h
    have hatom := hobject label hup
    rwa [SiteTable.intern_of_find? ho] at hatom

/-- When solving succeeds, the variables tracked after a node are those assigned at a node that
leads to it, and the objects are those of the sites allocated at such a node.  So a variable is
untracked when it is assigned at none of them. -/
theorem solve_provenance (hp : Problem.ofFlow g = .ok p) {k : ℕ} {limit : Option ℕ} {f : Facts}
    (hs : (Facts.afterPasses p k).solve p limit = (f, .ok ())) {n : N} (hn : n ∈ g.nodes) :
    ∃ G, p.fact? f.after n = some G ∧
      (∀ v, (G.pointees? v).isSome = true ↔
        ∃ m, g.LeadsTo m n ∧ (g.stmt m).definedVar? = some v) ∧
      (∀ v, G.pointees? v = none ↔
        ∀ m, g.LeadsTo m n → (g.stmt m).definedVar? ≠ some v) ∧
      ∀ o, G.objects.contains o = true ↔
        ∃ m, g.LeadsTo m n ∧ ∃ lhs label, g.stmt m = .alloc lhs (some label) ∧
          p.sites.find? label = some o := by
  have hr := Problem.represents_of_ofFlow hp
  obtain ⟨htracked, hobject⟩ := hr.upTo_iff_mem_atoms hs hn
  -- tracked variables are the keys of the map
  have hisSome : ∀ v, ((p.factAt f.after n).pointees? v).isSome = true ↔ g.AssignedUpTo n v := by
    intro v
    rw [Option.isSome_iff_exists, Graph.pointees?, ← FinMap.mem_keys_iff, ← Graph.tracked_mem_atoms,
      htracked]
  have hfact := hr.fact?_eq_some (Facts.valid_of_solve hs).after_size hn
  refine ⟨_, hfact, hisSome, fun v => ?_, fun o => ?_⟩
  · rw [← Option.not_isSome_iff_eq_none, hisSome]
    simp [Flow.AssignedUpTo]
  · rw [← Graph.object_mem_atoms, hobject]
    simp only [Flow.AllocatedUpTo, Statement.site?_eq_some_iff]
    constructor
    · intro h
      obtain ⟨label, ⟨m, hmn, lhs, hstmt⟩, ho⟩ := h
      exact ⟨m, hmn, lhs, label, hstmt, ho⟩
    · intro h
      obtain ⟨m, hmn, lhs, label, hstmt, ho⟩ := h
      exact ⟨label, ⟨m, hmn, lhs, hstmt⟩, ho⟩

/-- The loop of `selfLink` brings the load of `z` back to the store before it, while `y` is
untracked until it is allocated. -/
theorem solve_provenance_selfLink :
    ∃ p f, Problem.ofFlow selfLink.toFlow = .ok p ∧
      (Facts.afterPasses p 0).solve p none = (f, .ok ()) ∧
      (∃ G, p.fact? f.after 2 = some G ∧ (G.pointees? "z").isSome = true) ∧
      ∃ G, p.fact? f.after 0 = some G ∧ G.pointees? "y" = none := by
  obtain ⟨result, hrun⟩ := exists_run_selfLink
  obtain ⟨p, f, hp, hs, _⟩ := run_eq_ok hrun
  obtain ⟨G, hG, htracked, _, _⟩ :=
    solve_provenance hp hs (show 2 ∈ selfLink.toFlow.nodes by decide +kernel)
  obtain ⟨G', hG', _, huntracked, _⟩ :=
    solve_provenance hp hs (show 0 ∈ selfLink.toFlow.nodes by decide +kernel)
  have hback : selfLink.toFlow.LeadsTo 3 2 := by
    have h34 : 3 ∈ selfLink.toFlow.preds 4 := by decide +kernel
    have h42 : 4 ∈ selfLink.toFlow.preds 2 := by decide +kernel
    exact (Relation.ReflTransGen.single h34).tail h42
  refine ⟨p, f, hp, hs, ⟨G, hG, (htracked "z").2 ⟨3, hback, by decide +kernel⟩⟩,
    G', hG', (huntracked "y").2 fun m hm => ?_⟩
  -- nothing comes before the entry
  rcases hm.cases_tail with rfl | ⟨l, _, hl⟩
  · decide +kernel
  · have hnone : selfLink.toFlow.preds 0 = [] := by decide +kernel
    rw [hnone] at hl
    exact absurd hl List.not_mem_nil

end Analysis

end MayAlias
