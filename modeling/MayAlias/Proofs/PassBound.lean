import Mathlib.Algebra.BigOperators.Group.Finset.Basic
import Mathlib.Algebra.Order.BigOperators.Group.Finset
import Mathlib.Data.Finset.Prod
import Mathlib.Data.Set.Card
import Mathlib.Tactic.Ring
import MayAlias.Proofs.Equations

/-!
# A bound on the number of passes

The facts of a procedure mention only its own sites, assigned variables and stored fields, so there
are finitely many assertions that they can make (`Atom.about`).  A pass that reports a change makes
one more of them at one of the nodes and takes none back (`Facts.weight`).  Hence there are at most
as many such passes as there are assertions to make before and after all nodes, and the pass behind
them is quiet.
-/

namespace MayAlias

/-! ## The assertions a procedure can make -/

namespace Atom

/-- The assertions about the given objects, variables and fields. -/
def about (objects : Finset ObjectId) (vars fields : Finset String) : Finset Atom :=
  objects.image object ∪ vars.image tracked ∪ (vars ×ˢ objects).image (fun x => points x.1 x.2)
    ∪ (objects ×ˢ fields ×ˢ objects).image (fun x => edge ⟨x.1, x.2.1, x.2.2⟩)

variable {objects : Finset ObjectId} {vars fields : Finset String}

@[simp] lemma object_mem_about {o : ObjectId} :
    object o ∈ about objects vars fields ↔ o ∈ objects := by
  simp [about]

@[simp] lemma edge_mem_about {e : Edge} :
    edge e ∈ about objects vars fields ↔
      e.src ∈ objects ∧ e.field ∈ fields ∧ e.dst ∈ objects := by
  obtain ⟨src, field, dst⟩ := e
  simp [about]

@[simp] lemma tracked_mem_about {v : String} :
    tracked v ∈ about objects vars fields ↔ v ∈ vars := by
  simp [about]

@[simp] lemma points_mem_about {v : String} {o : ObjectId} :
    points v o ∈ about objects vars fields ↔ v ∈ vars ∧ o ∈ objects := by
  simp [about]

/-- Objects, tracked variables, pointees and edges are counted apart. -/
lemma card_about_le :
    (about objects vars fields).card ≤ objects.card + vars.card + vars.card * objects.card
      + objects.card * objects.card * fields.card := by
  have hobjects := Finset.card_image_le (s := objects) (f := object)
  have hvars := Finset.card_image_le (s := vars) (f := tracked)
  have hpoints := Finset.card_image_le (s := vars ×ˢ objects) (f := fun x => points x.1 x.2)
  have hedges := Finset.card_image_le (s := objects ×ˢ fields ×ˢ objects)
    (f := fun x => edge ⟨x.1, x.2.1, x.2.2⟩)
  rw [Finset.card_product] at hpoints
  rw [Finset.card_product, Finset.card_product] at hedges
  have hswap : objects.card * (fields.card * objects.card)
      = objects.card * objects.card * fields.card := by ring
  have h₁ := Finset.card_union_le (objects.image object) (vars.image tracked)
  have h₂ := Finset.card_union_le (objects.image object ∪ vars.image tracked)
    ((vars ×ˢ objects).image fun x => points x.1 x.2)
  have h₃ := Finset.card_union_le (objects.image object ∪ vars.image tracked
    ∪ (vars ×ˢ objects).image fun x => points x.1 x.2)
    ((objects ×ˢ fields ×ˢ objects).image fun x => edge ⟨x.1, x.2.1, x.2.2⟩)
  unfold about
  omega

/-- Pointing a known variable at known objects asserts nothing about others. -/
lemma reassign_subset_about {var : String} (hvar : var ∈ vars) {P : ObjectId → Prop}
    (hP : ∀ o, P o → o ∈ objects) :
    reassign var P (about objects vars fields : Set Atom) ⊆ about objects vars fields := by
  intro a ha
  rw [Finset.mem_coe]
  cases a with
  | object o =>
    rw [object_mem_about]
    exact ha.elim (fun h => object_mem_about.1 h) (hP o)
  | edge e => exact ha
  | tracked v =>
    rw [tracked_mem_about]
    exact ha.elim (fun h => h ▸ hvar) (fun h => tracked_mem_about.1 h)
  | points v o =>
    replace ha : if v = var then P o else points v o ∈ about objects vars fields := ha
    split at ha
    · next hv => exact points_mem_about.2 ⟨hv ▸ hvar, hP o ha⟩
    · exact ha

end Atom

namespace Effect

/-- The variable that the effect assigns. -/
def assignedVar? : Effect → Option String
  | alloc lhs _ => some lhs
  | copy lhs _ => some lhs
  | load lhs _ _ => some lhs
  | _ => none

/-- The field to which the effect stores. -/
def storedField? : Effect → Option String
  | store _ field _ => some field
  | _ => none

/-- The object that the effect allocates. -/
def allocated? : Effect → Option ObjectId
  | alloc _ object => some object
  | _ => none

/-- The effect writes nothing but the given objects, variables and fields. -/
structure Fits (objects : Finset ObjectId) (vars fields : Finset String) (e : Effect) : Prop where
  allocated : ∀ o, e.allocated? = some o → o ∈ objects
  assigned : ∀ v, e.assignedVar? = some v → v ∈ vars
  stored : ∀ f, e.storedField? = some f → f ∈ fields

/-- An effect that fits leads to no assertion about anything else. -/
lemma Fits.after_subset {objects : Finset ObjectId} {vars fields : Finset String} {e : Effect}
    (he : e.Fits objects vars fields) :
    e.after (Atom.about objects vars fields : Set Atom) ⊆ Atom.about objects vars fields := by
  cases e with
  | alloc lhs object =>
    apply Atom.reassign_subset_about (he.assigned lhs rfl)
    intro o ho
    rw [ho]
    exact he.allocated object rfl
  | copy lhs rhs =>
    apply Atom.reassign_subset_about (he.assigned lhs rfl)
    intro o ho
    exact (Atom.points_mem_about.1 ho).2
  | load lhs base field =>
    apply Atom.reassign_subset_about (he.assigned lhs rfl)
    intro o ho
    obtain ⟨src, _, hedge⟩ := ho
    exact (Atom.edge_mem_about.1 hedge).2.2
  | store base field rhs =>
    apply Set.union_subset le_rfl
    intro a ha
    obtain ⟨src, dst, hsrc, hdst, rfl⟩ := ha
    have hsrc := (Atom.points_mem_about.1 hsrc).2
    have hdst := (Atom.points_mem_about.1 hdst).2
    exact Atom.edge_mem_about.2 ⟨hsrc, he.stored field rfl, hdst⟩
  | nothing => exact le_rfl

end Effect

namespace Analysis

/-! ## The weight of the facts -/

namespace Facts

variable {N : Type} {p : Problem N} {U : Finset Atom}

/-- The number of assertions before and after the nodes. -/
noncomputable def weight (p : Problem N) (f : Facts) : ℕ :=
  ∑ i ∈ Finset.range p.order.length,
    ((asserted f.before i).ncard + (asserted f.after i).ncard)

/-- Ascending facts that make assertions of a finite set only. -/
structure Bounded (p : Problem N) (U : Finset Atom) (f : Facts) : Prop where
  ascending : f.Ascending p
  within : f.Within p (fun _ => U) (fun _ => U)

/-- The facts are bounded after any number of passes. -/
lemma bounded_afterPasses (hU : Closed p (fun _ => U) (fun _ => U)) (k : ℕ) :
    (afterPasses p k).Bounded p U :=
  ⟨ascending_afterPasses k, within_afterPasses hU k⟩

/-- A visit keeps the facts bounded. -/
lemma Bounded.visited (hU : Closed p (fun _ => U) (fun _ => U)) {f : Facts}
    (hf : f.Bounded p U) {pos : ℕ} (hpos : pos < p.order.length) (changed : Bool) :
    (visit p (f, changed) pos).1.Bounded p U := by
  have hv := hf.ascending.valid.visited_fst hpos changed
  exact ⟨hf.ascending.visited hv, hf.within.visited hU hpos hv⟩

/-- The weight counts what is asserted before and after each node, so bounded facts weigh at most
twice the bound for each node. -/
lemma Bounded.weight_le {f : Facts} (hf : f.Bounded p U) :
    f.weight p ≤ 2 * p.order.length * U.card := by
  have hnode : ∀ i ∈ Finset.range p.order.length,
      (asserted f.before i).ncard + (asserted f.after i).ncard ≤ 2 * U.card := by
    intro i _
    have hbefore := Set.ncard_le_ncard (hf.within.before i) U.finite_toSet
    have hafter := Set.ncard_le_ncard (hf.within.after i) U.finite_toSet
    rw [Set.ncard_coe_finset] at hbefore hafter
    omega
  calc f.weight p
      ≤ ∑ _i ∈ Finset.range p.order.length, 2 * U.card := Finset.sum_le_sum hnode
    _ = 2 * p.order.length * U.card := by
      rw [Finset.sum_const, Finset.card_range, Nat.nsmul_eq_mul]
      ring

/-- A visit takes no assertion back, and makes a new one when it raises the flag. -/
lemma Bounded.weight_visit (hU : Closed p (fun _ => U) (fun _ => U)) {f : Facts}
    (hf : f.Bounded p U) {pos : ℕ} (hpos : pos < p.order.length) (changed : Bool) :
    f.weight p ≤ (visit p (f, changed) pos).1.weight p ∧
      (changed = false → (visit p (f, changed) pos).2 = true →
        f.weight p < (visit p (f, changed) pos).1.weight p) := by
  obtain ⟨hv, hflag⟩ := hf.ascending.valid.visited hpos changed
  have hf' := (hf.visited hU hpos changed).within
  have hsubset := hf.ascending.subset_of_visited hv
  have hfinite : ∀ {A : Set Atom}, A ⊆ U → A.Finite := fun hA => U.finite_toSet.subset hA
  have hnode : ∀ i, (asserted f.before i).ncard + (asserted f.after i).ncard ≤
      (asserted (visit p (f, changed) pos).1.before i).ncard
        + (asserted (visit p (f, changed) pos).1.after i).ncard := by
    intro i
    have hbefore := Set.ncard_le_ncard (hsubset i).1 (hfinite (hf'.before i))
    have hafter := Set.ncard_le_ncard (hsubset i).2 (hfinite (hf'.after i))
    omega
  refine ⟨Finset.sum_le_sum fun i _ => hnode i, fun hchanged hraised => ?_⟩
  apply Finset.sum_lt_sum (fun i _ => hnode i)
  refine ⟨pos, Finset.mem_range.2 hpos, ?_⟩
  have hbefore := Set.ncard_le_ncard (hsubset pos).1 (hfinite (hf'.before pos))
  have hafter := Set.ncard_le_ncard (hsubset pos).2 (hfinite (hf'.after pos))
  -- the flag tells which of the two facts of the node is strictly larger now
  rcases hflag.1 hraised with htrue | hne | hne
  · simp [hchanged] at htrue
  · rw [← hv.after_self] at hne
    have hlt := Set.ncard_lt_ncard ((hsubset pos).2.ssubset_of_ne hne.symm)
      (hfinite (hf'.after pos))
    omega
  · rw [← hv.before_self] at hne
    have hlt := Set.ncard_lt_ncard ((hsubset pos).1.ssubset_of_ne hne.symm)
      (hfinite (hf'.before pos))
    omega

/-- Visits to any positions, by what single visits do. -/
lemma Bounded.weight_foldl_visit (hU : Closed p (fun _ => U) (fun _ => U)) {l : List ℕ}
    (hl : ∀ pos ∈ l, pos < p.order.length) (state : Facts × Bool) (hf : state.1.Bounded p U) :
    state.1.weight p ≤ (l.foldl (visit p) state).1.weight p ∧
      (state.2 = false → (l.foldl (visit p) state).2 = true →
        state.1.weight p < (l.foldl (visit p) state).1.weight p) := by
  induction l generalizing state with
  | nil => exact ⟨le_rfl, fun hquiet hraised => absurd hraised (by simp [hquiet])⟩
  | cons pos l ih =>
    have hpos := hl pos List.mem_cons_self
    obtain ⟨hle, hlt⟩ := hf.weight_visit hU hpos state.2
    obtain ⟨hle', hlt'⟩ := ih (fun q hq => hl q (List.mem_cons_of_mem _ hq)) (visit p state pos)
      (hf.visited hU hpos state.2)
    rw [List.foldl_cons]
    refine ⟨hle.trans hle', fun hquiet hraised => ?_⟩
    -- the flag is raised by this visit or by a later one
    by_cases hnow : (visit p state pos).2 = true
    · exact (hlt hquiet hnow).trans_le hle'
    · exact hle.trans_lt (hlt' (Bool.eq_false_iff.2 hnow) hraised)

/-- A pass that reports a change adds to the weight of the facts. -/
theorem Bounded.weight_pass_lt (hU : Closed p (fun _ => U) (fun _ => U)) {f : Facts}
    (hf : f.Bounded p U) (hchange : (f.pass p).2 = true) :
    f.weight p < (f.pass p).1.weight p := by
  have hstart : { f with passes := f.passes + 1 }.Bounded p U :=
    ⟨hf.ascending.withPasses _, hf.within.withPasses _⟩
  have hvisits := Bounded.weight_foldl_visit hU (fun pos hpos => List.mem_range.1 hpos)
    ({ f with passes := f.passes + 1 }, false) hstart
  exact hvisits.2 rfl hchange

/-! ## The first quiet pass -/

/-- Passes that report changes add up. -/
lemma le_weight_of_changes (hU : Closed p (fun _ => U) (fun _ => U)) {k m : ℕ}
    (hchange : ∀ j < m, ((afterPasses p (k + j)).pass p).2 = true) :
    m ≤ (afterPasses p (k + m)).weight p := by
  induction m with
  | zero => exact Nat.zero_le _
  | succ m ih =>
    have hm := ih fun j hj => hchange j (Nat.lt_succ_of_lt hj)
    have hlt := (bounded_afterPasses hU (k + m)).weight_pass_lt hU (hchange m (Nat.lt_succ_self m))
    exact Nat.succ_le_of_lt (hm.trans_lt hlt)

/-- Among the passes from any point on, one is quiet, and soon. -/
lemma exists_quiet (hU : Closed p (fun _ => U) (fun _ => U)) (k : ℕ) :
    ∃ m ≤ 2 * p.order.length * U.card, ((afterPasses p (k + m)).pass p).2 = false ∧
      ∀ j < m, ((afterPasses p (k + j)).pass p).2 = true := by
  have hbound : ∀ m, (∀ j < m, ((afterPasses p (k + j)).pass p).2 = true) →
      m ≤ 2 * p.order.length * U.card := fun m hm =>
    (le_weight_of_changes hU hm).trans (bounded_afterPasses hU (k + m)).weight_le
  -- otherwise more passes would report changes than there are assertions to make
  have hexists : ∃ m, ((afterPasses p (k + m)).pass p).2 = false := by
    by_contra hnone
    have hall : ∀ m, ((afterPasses p (k + m)).pass p).2 = true := fun m =>
      Bool.eq_true_of_not_eq_false fun h => hnone ⟨m, h⟩
    have habsurd := hbound (2 * p.order.length * U.card + 1) fun j _ => hall j
    omega
  have hbefore : ∀ j < Nat.find hexists, ((afterPasses p (k + j)).pass p).2 = true := fun j hj =>
    Bool.eq_true_of_not_eq_false (Nat.find_min hexists hj)
  exact ⟨Nat.find hexists, hbound _ hbefore, Nat.find_spec hexists, hbefore⟩

/-- Passes that report changes only use up what is left. -/
lemma iterate_add_of_changes {k m n : ℕ}
    (hchange : ∀ j < m, ((afterPasses p (k + j)).pass p).2 = true) :
    iterate p (m + n) (afterPasses p k) = iterate p n (afterPasses p (k + m)) := by
  induction m generalizing k with
  | zero => rw [Nat.zero_add, Nat.add_zero]
  | succ m ih =>
    have hpass : (afterPasses p k).pass p = (afterPasses p (k + 1), true) :=
      Prod.ext rfl (hchange 0 (Nat.succ_pos m))
    -- what is the next pass from here is the first one from one pass later
    have hshift : ∀ j, k + 1 + j = k + (j + 1) := fun j => by omega
    have hrest : iterate p (m + n) (afterPasses p (k + 1))
        = iterate p n (afterPasses p (k + 1 + m)) := by
      apply ih
      intro j hj
      rw [hshift]
      exact hchange (j + 1) (by omega)
    rw [show m + 1 + n = m + n + 1 by omega, iterate, hpass]
    show iterate p (m + n) (afterPasses p (k + 1)) = _
    rw [hrest, hshift]

/-- Iterating with enough passes left stops behind the first quiet one. -/
lemma iterate_of_quiet {k m n : ℕ} (hn : m < n)
    (hquiet : ((afterPasses p (k + m)).pass p).2 = false)
    (hchange : ∀ j < m, ((afterPasses p (k + j)).pass p).2 = true) :
    iterate p n (afterPasses p k) = (afterPasses p (k + m + 1), true) := by
  obtain ⟨left, rfl⟩ : ∃ left, n = m + (left + 1) := ⟨n - m - 1, by omega⟩
  have hpass : (afterPasses p (k + m)).pass p = (afterPasses p (k + m + 1), false) :=
    Prod.ext rfl hquiet
  rw [iterate_add_of_changes hchange, iterate, hpass]

/-- Visits do not count passes. -/
lemma passes_foldl_visit (l : List ℕ) (state : Facts × Bool) :
    (l.foldl (visit p) state).1.passes = state.1.passes := by
  induction l generalizing state with
  | nil => rfl
  | cons pos l ih => exact ih (visit p state pos)

/-- The passes are counted. -/
lemma passes_afterPasses (k : ℕ) : (afterPasses p k).passes = k := by
  induction k with
  | zero => rfl
  | succ k ih => rw [afterPasses, pass, passes_foldl_visit, ih]

end Facts

end Analysis

/-! ## Counting what a procedure mentions -/

namespace Statement

/-- The field to which the statement stores. -/
def storedField? : Statement → Option String
  | store _ field _ => some field
  | _ => none

/-- The label of the allocation site, if the statement allocates. -/
def site? : Statement → Option String
  | alloc _ site => site
  | _ => none

end Statement

namespace Flow

variable {N : Type} (g : Flow N)

/-- The labels of the allocation sites. -/
def siteLabels : Finset String := (g.nodes.filterMap fun n => (g.stmt n).site?).toFinset

/-- The variables that allocations, copies and loads assign. -/
def assignedVars : Finset String := (g.nodes.filterMap fun n => (g.stmt n).definedVar?).toFinset

/-- The fields to which stores write. -/
def storedFields : Finset String := (g.nodes.filterMap fun n => (g.stmt n).storedField?).toFinset

/-- The number of assertions that a fact can make about a procedure with `S` sites, `V` assigned
variables and `F` stored fields, twice for every node, and one. -/
def passBound : ℕ :=
  let S := g.siteLabels.card
  let V := g.assignedVars.card
  let F := g.storedFields.card
  1 + 2 * g.nodes.length * (S + V + V * S + S * S * F)

/-- The labels of a flow graph are those of its allocations. -/
lemma mem_siteLabels (label : String) :
    label ∈ g.siteLabels ↔ ∃ n ∈ g.nodes, ∃ lhs, g.stmt n = .alloc lhs (some label) := by
  simp only [siteLabels, List.mem_toFinset, List.mem_filterMap]
  refine exists_congr fun n => and_congr_right fun _ => ?_
  cases g.stmt n <;> simp [Statement.site?]

/-- The assertions about what the procedure mentions, given the table of its sites. -/
def assertions (sites : SiteTable) : Finset Atom :=
  Atom.about (g.siteLabels.image fun label => (sites.intern label).1) g.assignedVars g.storedFields

/-- The bound on passes is enough for all assertions at all nodes and one quiet pass. -/
lemma card_assertions_le (sites : SiteTable) :
    1 + 2 * g.nodes.length * (g.assertions sites).card ≤ g.passBound := by
  have hobjects : (g.siteLabels.image fun label => (sites.intern label).1).card
      ≤ g.siteLabels.card := Finset.card_image_le
  refine Nat.add_le_add_left (Nat.mul_le_mul_left _ (Atom.card_about_le.trans ?_)) 1
  gcongr

end Flow

/-- The effect of a statement assigns, stores to and allocates what the statement names. -/
lemma Effect.parts_of_ofStatement? {t t' : SiteTable} {s : Statement} {e : Effect}
    (h : Effect.ofStatement? t s = some (e, t')) :
    e.assignedVar? = s.definedVar? ∧ e.storedField? = s.storedField? ∧
      e.allocated? = s.site?.map fun label => (t.intern label).1 := by
  rcases Effect.ofStatement?_cases h with ⟨lhs, label, rfl, rfl, _⟩ | ⟨hstmt, _, hlower⟩
  · exact ⟨rfl, rfl, rfl⟩
  · have hsome := hlower t
    cases s with
    | alloc lhs site => exact absurd rfl (hstmt lhs site)
    | copy lhs rhs => obtain ⟨rfl, _⟩ := Prod.mk.inj (Option.some.inj hsome); exact ⟨rfl, rfl, rfl⟩
    | load lhs base field =>
      obtain ⟨rfl, _⟩ := Prod.mk.inj (Option.some.inj hsome)
      exact ⟨rfl, rfl, rfl⟩
    | store base field rhs =>
      obtain ⟨rfl, _⟩ := Prod.mk.inj (Option.some.inj hsome)
      exact ⟨rfl, rfl, rfl⟩
    | other => obtain ⟨rfl, _⟩ := Prod.mk.inj (Option.some.inj hsome); exact ⟨rfl, rfl, rfl⟩

namespace Analysis

lemma assignedVars_eq (es : List Effect) :
    assignedVars es = (es.filterMap Effect.assignedVar?).eraseDups := rfl

lemma storedFields_eq (es : List Effect) :
    storedFields es = (es.filterMap Effect.storedField?).eraseDups := rfl

namespace Problem.Represents

variable {N : Type} [DecidableEq N] {g : Flow N} {p : Problem N} (hr : p.Represents g)

include hr

/-- The effect of a node writes nothing but what the procedure mentions. -/
lemma fits {i : ℕ} {n : N} (hi : g.nodes[i]? = some n) :
    (p.effects.getD i .nothing).Fits
      (g.siteLabels.image fun label => (p.sites.intern label).1) g.assignedVars g.storedFields := by
  have hn := List.mem_of_getElem? hi
  obtain ⟨hvar, hfield, hobject⟩ := Effect.parts_of_ofStatement? (hr.effects i n hi)
  constructor
  · intro o ho
    obtain ⟨label, hlabel, rfl⟩ := Option.map_eq_some_iff.1 (hobject.symm.trans ho)
    apply Finset.mem_image_of_mem
    exact List.mem_toFinset.2 (List.mem_filterMap.2 ⟨n, hn, hlabel⟩)
  · intro v hv
    exact List.mem_toFinset.2 (List.mem_filterMap.2 ⟨n, hn, hvar.symm.trans hv⟩)
  · intro field hf
    exact List.mem_toFinset.2 (List.mem_filterMap.2 ⟨n, hn, hfield.symm.trans hf⟩)

/-- No visit leads out of the assertions that a procedure can make. -/
lemma closed_assertions :
    Facts.Closed p (fun _ => g.assertions p.sites) (fun _ => g.assertions p.sites) := by
  refine ⟨fun _ _ _ _ => le_rfl, fun i hi => ?_⟩
  rw [hr.order] at hi
  exact (hr.fits (List.getElem?_eq_getElem hi)).after_subset

/-- The effect of every node is among those of the problem. -/
lemma exists_effect {n : N} (hn : n ∈ g.nodes) :
    ∃ e ∈ p.effects.toList, Effect.ofStatement? p.sites (g.stmt n) = some (e, p.sites) := by
  obtain ⟨i, hi⟩ := List.mem_iff_getElem?.1 hn
  have hlt : i < p.effects.size := hr.effects_size ▸ (List.getElem?_eq_some_iff.1 hi).1
  have hget := Facts.getElem?_eq_some_getD hlt Effect.nothing
  exact ⟨_, Array.mem_toList_iff.2 (Array.mem_of_getElem? hget), hr.effects i n hi⟩

/-- The table holds the labels of the procedure, each once. -/
lemma size_sites : p.sites.size = g.siteLabels.card := by
  have hlabels : p.sites.labels.toFinset = g.siteLabels := by
    ext label
    rw [List.mem_toFinset, hr.mem_labels, Flow.mem_siteLabels]
  rw [← hlabels, List.toFinset_card_of_nodup hr.sites_inStep.nodup, SiteTable.size]

/-- The problem allows itself at least as many passes as the count over its statements gives. -/
lemma passBound_le : g.passBound ≤ p.passBound := by
  have hsites : g.siteLabels.card ≤ p.sites.size := hr.size_sites.ge
  have hvars : g.assignedVars.card ≤ (assignedVars p.effects.toList).length := by
    refine (Finset.card_le_card fun v hv => ?_).trans (List.toFinset_card_le _)
    obtain ⟨n, hn, hvar⟩ := List.mem_filterMap.1 (List.mem_toFinset.1 hv)
    obtain ⟨e, he, hstmt⟩ := hr.exists_effect hn
    rw [List.mem_toFinset, assignedVars_eq, List.mem_eraseDups]
    exact List.mem_filterMap.2 ⟨e, he, (Effect.parts_of_ofStatement? hstmt).1.trans hvar⟩
  have hfields : g.storedFields.card ≤ (storedFields p.effects.toList).length := by
    refine (Finset.card_le_card fun field hf => ?_).trans (List.toFinset_card_le _)
    obtain ⟨n, hn, hfield⟩ := List.mem_filterMap.1 (List.mem_toFinset.1 hf)
    obtain ⟨e, he, hstmt⟩ := hr.exists_effect hn
    rw [List.mem_toFinset, storedFields_eq, List.mem_eraseDups]
    exact List.mem_filterMap.2 ⟨e, he, (Effect.parts_of_ofStatement? hstmt).2.1.trans hfield⟩
  unfold Flow.passBound Problem.passBound
  rw [hr.order]
  dsimp only
  gcongr

/-- Among the passes from any point on, the first quiet one is among those that the problem allows
itself. -/
lemma exists_quiet_within (k : ℕ) :
    ∃ m < p.passBound, ((Facts.afterPasses p (k + m)).pass p).2 = false ∧
      ∀ j < m, ((Facts.afterPasses p (k + j)).pass p).2 = true := by
  obtain ⟨m, hm, hquiet, hchange⟩ := Facts.exists_quiet hr.closed_assertions k
  have hcard := g.card_assertions_le p.sites
  have hbound := hr.passBound_le
  rw [hr.order] at hm
  exact ⟨m, by omega, hquiet, hchange⟩

end Problem.Represents

/-! ## Solving without a limit -/

/-- Without a limit, and after any number of single passes before it, solving succeeds.  It stops at
the first quiet pass, and makes no more passes than the bound of the procedure. -/
theorem solve_within_passBound {N : Type} [DecidableEq N] {g : Flow N} {p : Problem N}
    (hp : Problem.ofFlow g = .ok p) (k : ℕ) :
    ∃ m, m + 1 ≤ g.passBound ∧
      (Facts.afterPasses p k).solve p none = (Facts.afterPasses p (k + m + 1), .ok ()) ∧
      (Facts.afterPasses p (k + m + 1)).passes = k + m + 1 ∧
      ((Facts.afterPasses p (k + m)).pass p).2 = false ∧
      ∀ j < m, ((Facts.afterPasses p (k + j)).pass p).2 = true := by
  have hr := Problem.represents_of_ofFlow hp
  obtain ⟨m, hm, hquiet, hchange⟩ := Facts.exists_quiet hr.closed_assertions k
  rw [hr.order] at hm
  have hbound : m + 1 ≤ g.passBound := by
    have hcard := g.card_assertions_le p.sites
    omega
  refine ⟨m, hbound, ?_, Facts.passes_afterPasses _, hquiet, hchange⟩
  have hfuel : m < p.passBound := Nat.lt_of_succ_le (hbound.trans hr.passBound_le)
  rw [Facts.solve, Facts.passesLeft, Facts.iterate_of_quiet hfuel hquiet hchange]

/-- Two sites, three variables and one field allow 181 passes over the six nodes of `selfLink`. -/
theorem solve_within_passBound_selfLink :
    selfLink.toFlow.passBound = 181 ∧
      ∃ p, Problem.ofFlow selfLink.toFlow = .ok p ∧
        ∃ m, m + 1 ≤ selfLink.toFlow.passBound ∧
          (Facts.initial p).solve p none = (Facts.afterPasses p (0 + m + 1), .ok ()) ∧
          (Facts.afterPasses p (0 + m + 1)).passes = 0 + m + 1 ∧
          ((Facts.afterPasses p (0 + m)).pass p).2 = false ∧
          ∀ j < m, ((Facts.afterPasses p (0 + j)).pass p).2 = true := by
  obtain ⟨result, hrun⟩ := exists_run_selfLink
  obtain ⟨p, _, hp, _, _⟩ := run_eq_ok hrun
  exact ⟨by decide +kernel, p, hp, solve_within_passBound hp 0⟩

end Analysis

end MayAlias
