import Mathlib.Algebra.Order.Group.Nat
import MayAlias.Analysis.Facts
import MayAlias.Proofs.Effect

/-!
# Passes over the facts

A visit replaces the two facts of one node and touches no other.  `Facts.Visited` says this once, in
terms of what the facts assert, and every invariant of the passes follows from it:

* facts stay well-formed (`Facts.Valid`);
* every fact is below what a visit would make of it (`Facts.Ascending`), so facts only grow;
* facts stay below any facts that no visit would enlarge (`Facts.Within`).

A pass that reports no change leaves the facts exactly as they are, and then a visit to any of the
nodes would find its facts equal to those stored.
-/

namespace MayAlias.Analysis.Facts

variable {N : Type} (p : Problem N)

/-- What the graph at position `i` asserts. -/
def asserted (graphs : Array Graph) (i : ℕ) : Set Atom := (graphs.getD i .empty).atoms

/-- What the facts after the predecessors of the node at position `i` assert together. -/
def flowsIn (f : Facts) (i : ℕ) : Set Atom :=
  { a | ∃ q ∈ p.preds.getD i [], a ∈ asserted f.after q }

/-- What a visit to the node at position `i` makes of the fact after it. -/
def flowsOut (f : Facts) (i : ℕ) : Set Atom :=
  (p.effects.getD i .nothing).after (flowsIn p f i)

/-- One fact before and one after every node, all of them well-formed. -/
structure Valid (f : Facts) : Prop where
  before_size : f.before.size = p.order.length
  after_size : f.after.size = p.order.length
  before_wf : ∀ i, (f.before.getD i .empty).WellFormed
  after_wf : ∀ i, (f.after.getD i .empty).WellFormed

variable {p}

lemma flowsIn_subset {f f' : Facts} (h : ∀ i, asserted f.after i ⊆ asserted f'.after i) (i : ℕ) :
    flowsIn p f i ⊆ flowsIn p f' i := by
  intro a ha
  obtain ⟨q, hq, ha⟩ := ha
  exact ⟨q, hq, h q ha⟩

/-- What flows into and out of a node depends on the facts after its predecessors only, and grows
with them. -/
lemma flowsOut_subset {f f' : Facts} (h : ∀ i, asserted f.after i ⊆ asserted f'.after i) (i : ℕ) :
    flowsOut p f i ⊆ flowsOut p f' i :=
  Effect.after_subset _ (flowsIn_subset h i)

/-- The graph that a visit works with is well-formed and asserts what flows into the node. -/
lemma Valid.incoming {f : Facts} (hf : f.Valid p) (i : ℕ) :
    (f.incoming p i).WellFormed ∧ (f.incoming p i).atoms = flowsIn p f i := by
  have hwf : ∀ g ∈ (p.preds.getD i []).map fun q => f.after.getD q .empty, g.WellFormed := by
    intro g hg
    obtain ⟨q, _, rfl⟩ := List.mem_map.1 hg
    exact hf.after_wf q
  obtain ⟨hjoin, hatoms⟩ := SummaryRule.join_spec hwf
  refine ⟨hjoin, Set.ext fun a => ?_⟩
  rw [Facts.incoming, hatoms]
  simp [flowsIn, asserted]

/-! ## One visit -/

lemma getElem?_eq_some_getD {α : Type} {a : Array α} {i : ℕ} (hi : i < a.size) (d : α) :
    a[i]? = some (a.getD i d) := by
  rw [Array.getD_eq_getD_getElem?, Array.getElem?_eq_getElem hi, Option.getD_some]

/-- Storing a graph changes what is found at its own position and nowhere else. -/
lemma getD_setIfInBounds (graphs : Array Graph) {pos : ℕ} (hpos : pos < graphs.size) (g : Graph)
    (i : ℕ) :
    (graphs.setIfInBounds pos g).getD i .empty = if i = pos then g else graphs.getD i .empty := by
  simp only [Array.getD_eq_getD_getElem?, Array.getElem?_setIfInBounds]
  by_cases hi : i = pos
  · subst hi
    simp [hpos]
  · rw [if_neg (Ne.symm hi), if_neg hi]

/-- Storing a graph keeps the old one when it is equal; what is asserted is that of the new one in
either case. -/
lemma store_spec {graphs : Array Graph} (hwf : ∀ i, (graphs.getD i .empty).WellFormed) {pos : ℕ}
    (hpos : pos < graphs.size) {g : Graph} (hg : g.WellFormed) :
    (store graphs pos g).1.size = graphs.size ∧
      (∀ i, ((store graphs pos g).1.getD i .empty).WellFormed) ∧
      (∀ i, asserted (store graphs pos g).1 i = if i = pos then g.atoms else asserted graphs i) ∧
      ((store graphs pos g).2 = true ↔ g.atoms ≠ asserted graphs pos) := by
  rw [store]
  by_cases hbeq : (g == graphs.getD pos .empty) = true
  · have heq : g.atoms = asserted graphs pos := (hg.beq_iff (hwf pos)).1 hbeq
    rw [if_pos hbeq]
    refine ⟨rfl, hwf, fun i => ?_, by simp [heq]⟩
    split
    · next hi => rw [hi, heq]
    · rfl
  · have hne : g.atoms ≠ asserted graphs pos := fun h => hbeq ((hg.beq_iff (hwf pos)).2 h)
    rw [if_neg hbeq]
    refine ⟨Array.size_setIfInBounds, fun i => ?_, fun i => ?_, by simp [hne]⟩
    · rw [getD_setIfInBounds graphs hpos]
      split
      · exact hg
      · exact hwf i
    · rw [asserted, getD_setIfInBounds graphs hpos]
      split <;> rfl

/-- What a visit to the node at `pos` does to the facts. -/
structure Visited (p : Problem N) (f : Facts) (pos : ℕ) (f' : Facts) : Prop where
  valid : f'.Valid p
  before_self : asserted f'.before pos = flowsIn p f pos
  after_self : asserted f'.after pos = flowsOut p f pos
  before_of_ne : ∀ i ≠ pos, asserted f'.before i = asserted f.before i
  after_of_ne : ∀ i ≠ pos, asserted f'.after i = asserted f.after i

/-- A visit to valid facts is as `Visited` says, and it reports a change when a fact of the node
asserts something else than before, or when a change was reported already. -/
lemma Valid.visited {f : Facts} (hf : f.Valid p) {pos : ℕ} (hpos : pos < p.order.length)
    (changed : Bool) :
    Visited p f pos (visit p (f, changed) pos).1 ∧
      ((visit p (f, changed) pos).2 = true ↔ changed = true ∨
        flowsOut p f pos ≠ asserted f.after pos ∨ flowsIn p f pos ≠ asserted f.before pos) := by
  obtain ⟨hinput, hatoms⟩ := hf.incoming pos
  have houtput := Effect.wellFormed_apply hinput (p.effects.getD pos .nothing)
  have hafter : ((p.effects.getD pos .nothing).apply (f.incoming p pos)).atoms
      = flowsOut p f pos := by
    rw [Effect.atoms_apply hinput, hatoms, flowsOut]
  obtain ⟨hsize₁, hwf₁, hatoms₁, hflag₁⟩ :=
    store_spec hf.after_wf (hf.after_size.symm ▸ hpos) houtput
  obtain ⟨hsize₂, hwf₂, hatoms₂, hflag₂⟩ :=
    store_spec hf.before_wf (hf.before_size.symm ▸ hpos) hinput
  constructor
  · exact {
      valid := ⟨hsize₂.trans hf.before_size, hsize₁.trans hf.after_size, hwf₂, hwf₁⟩
      before_self := by
        refine (hatoms₂ pos).trans ?_
        rw [if_pos rfl, hatoms]
      after_self := by
        refine (hatoms₁ pos).trans ?_
        rw [if_pos rfl, hafter]
      before_of_ne := fun i hi => (hatoms₂ i).trans (if_neg hi)
      after_of_ne := fun i hi => (hatoms₁ i).trans (if_neg hi) }
  · show (changed || (store f.after pos _).2 || (store f.before pos _).2) = true ↔ _
    rw [Bool.or_eq_true, Bool.or_eq_true, hflag₁, hflag₂, hafter, hatoms, or_assoc]

lemma Valid.visited_fst {f : Facts} (hf : f.Valid p) {pos : ℕ} (hpos : pos < p.order.length)
    (changed : Bool) : Visited p f pos (visit p (f, changed) pos).1 :=
  (hf.visited hpos changed).1

/-! ## Runs of passes -/

/-- The facts after `k` passes over a procedure of which nothing is known. -/
def afterPasses (p : Problem N) : ℕ → Facts
  | 0 => initial p
  | k + 1 => ((afterPasses p k).pass p).1

/-- What every visit preserves holds after visits to any positions. -/
lemma foldl_visit_invariant {Inv : Facts → Prop}
    (hvisit : ∀ f pos changed, pos < p.order.length → Inv f → Inv (visit p (f, changed) pos).1)
    {l : List ℕ} (hl : ∀ pos ∈ l, pos < p.order.length) {state : Facts × Bool}
    (hstate : Inv state.1) : Inv (l.foldl (visit p) state).1 := by
  induction l generalizing state with
  | nil => exact hstate
  | cons pos l ih =>
    apply ih fun q hq => hl q (List.mem_cons_of_mem _ hq)
    exact hvisit state.1 pos state.2 (hl pos List.mem_cons_self) hstate

/-- What holds of the first facts and is preserved by every visit holds after any number of
passes. -/
theorem afterPasses_invariant {Inv : Facts → Prop} (hinit : Inv (initial p))
    (hcount : ∀ (f : Facts) (passes : ℕ), Inv f → Inv { f with passes })
    (hvisit : ∀ f pos changed, pos < p.order.length → Inv f → Inv (visit p (f, changed) pos).1)
    (k : ℕ) : Inv (afterPasses p k) := by
  induction k with
  | zero => exact hinit
  | succ k ih =>
    apply foldl_visit_invariant hvisit
    · exact fun pos hpos => List.mem_range.1 hpos
    · exact hcount _ _ ih

lemma getD_replicate_empty (n i : ℕ) : (Array.replicate n Graph.empty).getD i .empty = .empty := by
  rw [Array.getD_eq_getD_getElem?, Array.getElem?_replicate]
  split <;> rfl

lemma asserted_replicate (n i : ℕ) : asserted (Array.replicate n Graph.empty) i = ∅ := by
  rw [asserted, getD_replicate_empty, Graph.atoms_empty]

/-- The passes start from valid facts, since the empty graph is well-formed. -/
lemma valid_initial : (initial p).Valid p where
  before_size := Array.size_replicate
  after_size := Array.size_replicate
  before_wf i := by
    rw [initial, getD_replicate_empty]
    exact Graph.wellFormed_empty
  after_wf i := by
    rw [initial, getD_replicate_empty]
    exact Graph.wellFormed_empty

/-- The number of passes does not count for validity. -/
lemma Valid.withPasses {f : Facts} (hf : f.Valid p) (passes : ℕ) : { f with passes }.Valid p :=
  ⟨hf.before_size, hf.after_size, hf.before_wf, hf.after_wf⟩

/-- The facts are valid after any number of passes. -/
theorem valid_afterPasses (k : ℕ) : (afterPasses p k).Valid p :=
  afterPasses_invariant valid_initial (fun _ passes hf => hf.withPasses passes)
    (fun _ _ changed hpos hf => (hf.visited_fst hpos changed).valid) k

/-! ## Facts only grow -/

/-- Every fact is below what a visit would make of it. -/
structure Ascending (p : Problem N) (f : Facts) : Prop where
  valid : f.Valid p
  before : ∀ i, asserted f.before i ⊆ flowsIn p f i
  after : ∀ i, asserted f.after i ⊆ flowsOut p f i

/-- A visit to one node of ascending facts lets no fact shrink. -/
lemma Ascending.subset_of_visited {f f' : Facts} (hf : f.Ascending p) {pos : ℕ}
    (hv : Visited p f pos f') (i : ℕ) :
    asserted f.before i ⊆ asserted f'.before i ∧ asserted f.after i ⊆ asserted f'.after i := by
  by_cases hi : i = pos
  · subst hi
    rw [hv.before_self, hv.after_self]
    exact ⟨hf.before i, hf.after i⟩
  · rw [hv.before_of_ne i hi, hv.after_of_ne i hi]
    exact ⟨le_rfl, le_rfl⟩

/-- A visit keeps the facts ascending: it brings one node up to what flows through it, and what
flows through the others can only have grown. -/
lemma Ascending.visited {f f' : Facts} (hf : f.Ascending p) {pos : ℕ} (hv : Visited p f pos f') :
    f'.Ascending p := by
  have hgrow := hf.subset_of_visited hv
  -- what flows into and out of a node only grows with the facts
  have hin := flowsIn_subset (p := p) fun i => (hgrow i).2
  have hout := flowsOut_subset (p := p) fun i => (hgrow i).2
  refine ⟨hv.valid, fun i => ?_, fun i => ?_⟩
  · by_cases hi : i = pos
    · subst hi
      rw [hv.before_self]
      exact hin i
    · rw [hv.before_of_ne i hi]
      exact (hf.before i).trans (hin i)
  · by_cases hi : i = pos
    · subst hi
      rw [hv.after_self]
      exact hout i
    · rw [hv.after_of_ne i hi]
      exact (hf.after i).trans (hout i)

lemma Ascending.withPasses {f : Facts} (hf : f.Ascending p) (passes : ℕ) :
    { f with passes }.Ascending p :=
  ⟨hf.valid.withPasses passes, hf.before, hf.after⟩

/-- The facts are ascending after any number of passes: they start empty, below everything. -/
theorem ascending_afterPasses (k : ℕ) : (afterPasses p k).Ascending p := by
  apply afterPasses_invariant
  · refine ⟨valid_initial, fun i => ?_, fun i => ?_⟩ <;>
      rw [initial, asserted_replicate] <;> exact Set.empty_subset _
  · exact fun f passes hf => hf.withPasses passes
  · exact fun f pos changed hpos hf => hf.visited (hf.valid.visited_fst hpos changed)

/-! ## Facts stay below every closed assignment -/

/-- Sets of assertions before and after every position that no visit would leave. -/
structure Closed (p : Problem N) (ins outs : ℕ → Set Atom) : Prop where
  preds : ∀ i < p.order.length, ∀ q ∈ p.preds.getD i [], outs q ⊆ ins i
  effect : ∀ i < p.order.length, (p.effects.getD i .nothing).after (ins i) ⊆ outs i

/-- The facts assert no more than the given sets. -/
structure Within (p : Problem N) (ins outs : ℕ → Set Atom) (f : Facts) : Prop where
  valid : f.Valid p
  before : ∀ i, asserted f.before i ⊆ ins i
  after : ∀ i, asserted f.after i ⊆ outs i

/-- A visit keeps the facts within every closed assignment. -/
lemma Within.visited {ins outs : ℕ → Set Atom} (hc : Closed p ins outs) {f f' : Facts}
    (hf : f.Within p ins outs) {pos : ℕ} (hpos : pos < p.order.length)
    (hv : Visited p f pos f') : f'.Within p ins outs := by
  -- only the node visited has new facts, and these come from facts within the sets
  have hin : flowsIn p f pos ⊆ ins pos := by
    intro a ha
    obtain ⟨q, hq, ha⟩ := ha
    exact hc.preds pos hpos q hq (hf.after q ha)
  have hout : flowsOut p f pos ⊆ outs pos :=
    (Effect.after_subset _ hin).trans (hc.effect pos hpos)
  refine ⟨hv.valid, fun i => ?_, fun i => ?_⟩
  · by_cases hi : i = pos
    · subst hi
      rw [hv.before_self]
      exact hin
    · rw [hv.before_of_ne i hi]
      exact hf.before i
  · by_cases hi : i = pos
    · subst hi
      rw [hv.after_self]
      exact hout
    · rw [hv.after_of_ne i hi]
      exact hf.after i

lemma Within.withPasses {ins outs : ℕ → Set Atom} {f : Facts} (hf : f.Within p ins outs)
    (passes : ℕ) : { f with passes }.Within p ins outs :=
  ⟨hf.valid.withPasses passes, hf.before, hf.after⟩

/-- The facts are within every closed assignment after any number of passes. -/
theorem within_afterPasses {ins outs : ℕ → Set Atom} (hc : Closed p ins outs) (k : ℕ) :
    (afterPasses p k).Within p ins outs := by
  apply afterPasses_invariant
  · refine ⟨valid_initial, fun i => ?_, fun i => ?_⟩ <;>
      rw [initial, asserted_replicate] <;> exact Set.empty_subset _
  · exact fun f passes hf => hf.withPasses passes
  · exact fun f pos changed hpos hf => hf.visited hc hpos (hf.valid.visited_fst hpos changed)

/-! ## Passes without a change -/

/-- A visit would find the facts of the node at `pos` equal to those stored. -/
def Settled (p : Problem N) (f : Facts) (pos : ℕ) : Prop :=
  ((p.effects.getD pos .nothing).apply (f.incoming p pos) == f.after.getD pos .empty) = true ∧
    (f.incoming p pos == f.before.getD pos .empty) = true

/-- A node is settled when a visit would make of its facts what they assert already. -/
lemma Valid.settled_iff {f : Facts} (hf : f.Valid p) (pos : ℕ) :
    Settled p f pos ↔
      flowsOut p f pos = asserted f.after pos ∧ flowsIn p f pos = asserted f.before pos := by
  obtain ⟨hwf, hatoms⟩ := hf.incoming pos
  unfold Settled
  rw [(Effect.wellFormed_apply hwf _).beq_iff (hf.after_wf pos), hwf.beq_iff (hf.before_wf pos),
    Effect.atoms_apply hwf, hatoms]
  rfl

/-- A fact that is stored without a change was equal to the one in its place, which stays. -/
lemma store_quiet {graphs : Array Graph} {pos : ℕ} {g : Graph}
    (h : (store graphs pos g).2 = false) :
    (store graphs pos g).1 = graphs ∧ (g == graphs.getD pos .empty) = true := by
  rw [store] at h ⊢
  by_cases hbeq : (g == graphs.getD pos .empty) = true
  · rw [if_pos hbeq]
    exact ⟨rfl, hbeq⟩
  · rw [if_neg hbeq] at h
    simp at h

/-- A visit that raises no flag changes nothing at all. -/
lemma visit_quiet {state : Facts × Bool} {pos : ℕ} (h : (visit p state pos).2 = false) :
    visit p state pos = state ∧ Settled p state.1 pos := by
  obtain ⟨f, changed⟩ := state
  have hflags : (changed || (store f.after pos
      ((p.effects.getD pos .nothing).apply (f.incoming p pos))).2 ||
        (store f.before pos (f.incoming p pos)).2) = false := h
  rw [Bool.or_eq_false_iff, Bool.or_eq_false_iff] at hflags
  obtain ⟨⟨hchanged, hafter⟩, hbefore⟩ := hflags
  obtain ⟨hsame₁, hbeq₁⟩ := store_quiet hafter
  obtain ⟨hsame₂, hbeq₂⟩ := store_quiet hbefore
  refine ⟨Prod.ext ?_ (h.trans hchanged.symm), hbeq₁, hbeq₂⟩
  show { f with before := (store f.before pos _).1, after := (store f.after pos _).1 } = f
  rw [hsame₁, hsame₂]

/-- The flag of a pass stays raised, so a quiet pass has quiet visits only. -/
lemma foldl_visit_quiet {l : List ℕ} {state : Facts × Bool}
    (h : (l.foldl (visit p) state).2 = false) :
    l.foldl (visit p) state = state ∧ ∀ pos ∈ l, Settled p state.1 pos := by
  induction l generalizing state with
  | nil => exact ⟨rfl, by simp⟩
  | cons pos l ih =>
    rw [List.foldl_cons] at h ⊢
    obtain ⟨hrest, hsettled⟩ := ih h
    -- the later visits changed nothing, so the flag behind this one is the last flag
    have hflag : (visit p state pos).2 = false := by rw [← hrest]; exact h
    obtain ⟨hsame, hpos⟩ := visit_quiet hflag
    rw [hsame] at hrest hsettled ⊢
    refine ⟨hrest, fun q hq => ?_⟩
    rcases List.mem_cons.1 hq with rfl | hq
    · exact hpos
    · exact hsettled q hq

/-- A pass that reports no change leaves the facts as they are, and all nodes are settled. -/
theorem pass_quiet {f : Facts} (h : (f.pass p).2 = false) :
    (f.pass p).1 = { f with passes := f.passes + 1 } ∧
      ∀ pos < p.order.length, Settled p f pos := by
  obtain ⟨hsame, hsettled⟩ := foldl_visit_quiet h
  refine ⟨congrArg Prod.fst hsame, fun pos hpos => ?_⟩
  exact hsettled pos (List.mem_range.2 hpos)

/-! ## Solving -/

/-- When the iteration stops by itself, its last pass was the first to report no change. -/
lemma iterate_eq_true {n k : ℕ} {f : Facts} (h : iterate p n (afterPasses p k) = (f, true)) :
    ∃ m, f = afterPasses p (m + 1) ∧ ((afterPasses p m).pass p).2 = false := by
  induction n generalizing k with
  | zero => simp [iterate] at h
  | succ n ih =>
    rw [iterate] at h
    split at h
    · next f' hpass =>
      obtain ⟨rfl, _⟩ := Prod.mk.inj h
      exact ⟨k, (congrArg Prod.fst hpass).symm, congrArg Prod.snd hpass⟩
    · next f' hpass =>
      have hf' : f' = afterPasses p (k + 1) := (congrArg Prod.fst hpass).symm
      rw [hf'] at h
      exact ih h

/-- Solving succeeds at the end of a quiet pass. -/
theorem solve_eq_ok {k : ℕ} {limit : Option ℕ} {f : Facts}
    (h : (afterPasses p k).solve p limit = (f, .ok ())) :
    ∃ m, f = afterPasses p (m + 1) ∧ ((afterPasses p m).pass p).2 = false := by
  rw [solve] at h
  split at h
  · next f' hiter =>
    obtain ⟨rfl, _⟩ := Prod.mk.inj h
    exact iterate_eq_true hiter
  · simp at h

/-- The facts of a solved problem are valid. -/
lemma valid_of_solve {k : ℕ} {limit : Option ℕ} {f : Facts}
    (h : (afterPasses p k).solve p limit = (f, .ok ())) : f.Valid p := by
  obtain ⟨m, rfl, _⟩ := solve_eq_ok h
  exact valid_afterPasses (m + 1)

/-- The facts of a solved problem are within every closed assignment. -/
lemma within_of_solve {ins outs : ℕ → Set Atom} (hc : Closed p ins outs) {k : ℕ}
    {limit : Option ℕ} {f : Facts} (h : (afterPasses p k).solve p limit = (f, .ok ())) :
    f.Within p ins outs := by
  obtain ⟨m, rfl, _⟩ := solve_eq_ok h
  exact within_afterPasses hc (m + 1)

/-- All nodes are settled in the facts that solving returns. -/
theorem settled_of_solve {k : ℕ} {limit : Option ℕ} {f : Facts}
    (h : (afterPasses p k).solve p limit = (f, .ok ())) :
    ∀ pos < p.order.length, Settled p f pos := by
  obtain ⟨m, rfl, hquiet⟩ := solve_eq_ok h
  obtain ⟨hsame, hsettled⟩ := pass_quiet hquiet
  -- what the quiet pass found holds of its outcome, which differs in the count only
  intro pos hpos
  rw [afterPasses, hsame]
  exact hsettled pos hpos

end MayAlias.Analysis.Facts
