import Mathlib.Logic.Function.Basic
import MayAlias.Proofs.Equations

/-!
# The facts describe every execution

A state of a procedure maps variables to objects and the fields of objects to objects, both
partially.  `State.Exec` is the meaning of one statement, `Flow.Reaches` that of a run along the
edges from the entry.  Each object carries the label of the site that created it.

A graph describes a state when every binding is among the pointees of its variable and every field
that holds something is an edge, objects being replaced by the abstract objects of their sites.  One
statement keeps to the description that its effect gives (`Atom.Describe.exec`); along a run this
makes the facts of each node describe the states before and after it.
-/

namespace MayAlias

/-- An object, told apart from the others of its site by a number. -/
structure Object where
  /-- The label of the allocation site. -/
  site : String
  serial : ℕ
deriving DecidableEq

/-- What the variables and the fields of objects hold. -/
structure State where
  vars : String → Option Object
  fields : Object → String → Option Object

namespace State

/-- Nothing holds an object. -/
def initial : State := ⟨fun _ => none, fun _ _ => none⟩

/-- The state with a variable bound to an object, or unbound. -/
def bind (σ : State) (var : String) (x : Option Object) : State :=
  { σ with vars := Function.update σ.vars var x }

/-- The state with a field of an object overwritten. -/
def setField (σ : State) (o : Object) (field : String) (x : Option Object) : State :=
  { σ with fields := Function.update σ.fields o (Function.update (σ.fields o) field x) }

/-- What `var.field` holds. -/
def fieldOf (σ : State) (var field : String) : Option Object :=
  (σ.vars var).bind fun o => σ.fields o field

/-- The object occurs nowhere in the state. -/
structure Fresh (σ : State) (o : Object) : Prop where
  vars : ∀ v, σ.vars v ≠ some o
  fields : ∀ f, σ.fields o f = none
  held : ∀ o' f, σ.fields o' f ≠ some o

/-- The execution of one statement.  An allocation may pick any fresh object of its site. -/
inductive Exec (σ : State) : Statement → State → Prop
  | alloc (lhs : String) (o : Object) (hfresh : σ.Fresh o) :
    Exec σ (.alloc lhs (some o.site)) (σ.bind lhs (some o))
  | copy (lhs rhs : String) : Exec σ (.copy lhs rhs) (σ.bind lhs (σ.vars rhs))
  | load (lhs base field : String) :
    Exec σ (.load lhs base field) (σ.bind lhs (σ.fieldOf base field))
  | store (base field rhs : String) (o : Object) (hbase : σ.vars base = some o) :
    Exec σ (.store base field rhs) (σ.setField o field (σ.vars rhs))
  | storeUnbound (base field rhs : String) (hbase : σ.vars base = none) :
    Exec σ (.store base field rhs) σ
  | other : Exec σ .other σ

end State

namespace Flow

variable {N : Type} (g : Flow N)

/-- Predecessors and successors describe the same edges. -/
def Consistent : Prop := ∀ m ∈ g.nodes, ∀ n ∈ g.nodes, n ∈ g.succs m ↔ m ∈ g.preds n

/-- Some run from the entry ends with the execution of a node, in the given states before and after
that. -/
inductive Reaches : N → State → State → Prop
  | entry {σ : State} (hexec : State.initial.Exec (g.stmt g.entry) σ) :
    Reaches g.entry State.initial σ
  | next {m n : N} {σ₀ σ σ' : State} (hrun : Reaches m σ₀ σ) (hedge : n ∈ g.succs m)
    (hexec : σ.Exec (g.stmt n) σ') : Reaches n σ σ'

end Flow

/-! ## Runs do not get stuck -/

namespace State

/-- All objects in the state have smaller numbers. -/
structure Below (k : ℕ) (σ : State) : Prop where
  vars : ∀ v o, σ.vars v = some o → o.serial < k
  owners : ∀ o f o', σ.fields o f = some o' → o.serial < k ∧ o'.serial < k

lemma below_initial : initial.Below 0 :=
  ⟨fun v o h => by simp [initial] at h, fun o f o' h => by simp [initial] at h⟩

/-- An object with a serial number that is not used yet is fresh. -/
lemma Below.fresh {k : ℕ} {σ : State} (h : σ.Below k) (site : String) : σ.Fresh ⟨site, k⟩ where
  vars v hv := Nat.lt_irrefl k (h.vars v _ hv)
  fields f := by
    cases hf : σ.fields ⟨site, k⟩ f with
    | none => rfl
    | some o' => exact absurd (h.owners _ f o' hf).1 (Nat.lt_irrefl k)
  held o' f hf := Nat.lt_irrefl k (h.owners o' f _ hf).2

/-- Binding a variable to an object in use brings nothing new. -/
lemma Below.bind {k : ℕ} {σ : State} (h : σ.Below k) (var : String) {x : Option Object}
    (hx : ∀ o, x = some o → o.serial < k) : (σ.bind var x).Below k := by
  refine ⟨fun v o hv => ?_, h.owners⟩
  by_cases hvar : v = var
  · subst hvar
    exact hx o (by simpa [State.bind] using hv)
  · exact h.vars v o (by simpa [State.bind, hvar] using hv)

lemma Below.mono {k k' : ℕ} {σ : State} (h : σ.Below k) (hk : k ≤ k') : σ.Below k' :=
  ⟨fun v o hv => (h.vars v o hv).trans_le hk,
    fun o f o' hf => ⟨(h.owners o f o' hf).1.trans_le hk, (h.owners o f o' hf).2.trans_le hk⟩⟩

/-- Only the one field of the one object is set. -/
lemma fields_setField (σ : State) (o : Object) (field : String) (x : Option Object) (o' : Object)
    (f : String) :
    (σ.setField o field x).fields o' f = if o' = o ∧ f = field then x else σ.fields o' f := by
  by_cases ho : o' = o
  · subst ho
    by_cases hf : f = field <;> simp [setField, hf]
  · simp [setField, ho]

/-- Execution uses finitely many objects. -/
lemma Exec.below {k : ℕ} {σ σ' : State} {s : Statement} (hexec : σ.Exec s σ') (h : σ.Below k) :
    ∃ k', σ'.Below k' := by
  cases hexec with
  | alloc lhs o _ =>
    -- the new object may have any serial number
    refine ⟨max k (o.serial + 1), (h.mono (le_max_left _ _)).bind lhs fun o' ho' => ?_⟩
    obtain rfl := Option.some.inj ho'
    exact lt_max_of_lt_right (Nat.lt_succ_self _)
  | copy lhs rhs => exact ⟨k, h.bind lhs (h.vars rhs)⟩
  | load lhs base field =>
    refine ⟨k, h.bind lhs fun o' ho' => ?_⟩
    obtain ⟨o, _, hfield⟩ := Option.bind_eq_some_iff.1 ho'
    exact (h.owners o field o' hfield).2
  | store base field rhs o hbase =>
    refine ⟨k, h.vars, fun o₁ f o₂ hf => ?_⟩
    rw [fields_setField] at hf
    split at hf
    · next heq => exact ⟨heq.1 ▸ h.vars base o hbase, h.vars rhs o₂ hf⟩
    · exact h.owners o₁ f o₂ hf
  | storeUnbound base field rhs _ => exact ⟨k, h⟩
  | other => exact ⟨k, h⟩

/-- Every statement but an allocation without a site can be executed. -/
lemma Below.exists_exec {k : ℕ} {σ : State} (h : σ.Below k) {s : Statement}
    (hs : ∀ lhs, s ≠ .alloc lhs none) : ∃ σ', σ.Exec s σ' := by
  cases s with
  | alloc lhs site =>
    cases site with
    | none => exact absurd rfl (hs lhs)
    | some site => exact ⟨_, .alloc lhs ⟨site, k⟩ (h.fresh site)⟩
  | copy lhs rhs => exact ⟨_, .copy lhs rhs⟩
  | load lhs base field => exact ⟨_, .load lhs base field⟩
  | store base field rhs =>
    cases hbase : σ.vars base with
    | none => exact ⟨_, .storeUnbound base field rhs hbase⟩
    | some o => exact ⟨_, .store base field rhs o hbase⟩
  | other => exact ⟨_, .other⟩

end State

namespace Flow

variable {N : Type} {g : Flow N}

/-- Every run uses finitely many objects, so there is always a fresh one. -/
lemma Reaches.exists_below {n : N} {σ σ' : State} (h : g.Reaches n σ σ') : ∃ k, σ'.Below k := by
  induction h with
  | entry hexec => exact hexec.below State.below_initial
  | next _ _ hexec ih =>
    obtain ⟨k, hk⟩ := ih
    exact hexec.below hk

/-- In an accepted procedure every run goes on along every edge. -/
theorem Reaches.exists_next [DecidableEq N] {p : Analysis.Problem N}
    (hp : Analysis.Problem.ofFlow g = .ok p) {m n : N} {σ σ' : State} (h : g.Reaches m σ σ')
    (hn : n ∈ g.nodes) (hedge : n ∈ g.succs m) : ∃ σ'', g.Reaches n σ' σ'' := by
  have hr := Analysis.Problem.represents_of_ofFlow hp
  obtain ⟨i, _, hi, _⟩ := hr.exists_position hn
  have hsite : ∀ lhs, g.stmt n ≠ .alloc lhs none := by
    intro lhs hstmt
    have heffect := hr.effects i n hi
    rw [hstmt] at heffect
    simp [Effect.ofStatement?] at heffect
  obtain ⟨k, hk⟩ := h.exists_below
  obtain ⟨σ'', hexec⟩ := hk.exists_exec hsite
  exact ⟨σ'', .next h hedge hexec⟩

end Flow

/-! ## Descriptions of states -/

/-- The graph describes the state, given the table of sites: variables are tracked with the sites of
what they are bound to, and fields that hold something are edges. -/
structure Graph.Describes (sites : SiteTable) (G : Graph) (σ : State) : Prop where
  vars : ∀ v o, σ.vars v = some o →
    ∃ id pts, sites.find? o.site = some id ∧ G.pointees? v = some pts ∧ pts.contains id = true
  fields : ∀ o f o', σ.fields o f = some o' →
    ∃ id id', sites.find? o.site = some id ∧ sites.find? o'.site = some id' ∧
      G.hasEdge ⟨id, f, id'⟩ = true

namespace Atom

/-- The assertions describe the state, given the table of sites. -/
structure Describe (sites : SiteTable) (A : Set Atom) (σ : State) : Prop where
  vars : ∀ v o, σ.vars v = some o → ∃ id, sites.find? o.site = some id ∧ points v id ∈ A
  fields : ∀ o f o', σ.fields o f = some o' →
    ∃ id id', sites.find? o.site = some id ∧ sites.find? o'.site = some id' ∧
      edge ⟨id, f, id'⟩ ∈ A

variable {sites : SiteTable} {A B : Set Atom} {σ σ' : State}

/-- Nothing is bound at the start, so anything describes it. -/
lemma describe_initial : Describe sites A State.initial :=
  ⟨fun v o h => by simp [State.initial] at h, fun o f o' h => by simp [State.initial] at h⟩

/-- More assertions still describe the state. -/
lemma Describe.mono (h : Describe sites A σ) (hAB : A ⊆ B) : Describe sites B σ := by
  refine ⟨fun v o hv => ?_, fun o f o' hf => ?_⟩
  · obtain ⟨id, hid, hmem⟩ := h.vars v o hv
    exact ⟨id, hid, hAB hmem⟩
  · obtain ⟨id, id', hid, hid', hmem⟩ := h.fields o f o' hf
    exact ⟨id, id', hid, hid', hAB hmem⟩

/-- Assignments rebind one variable; what it points to now has to cover its new binding. -/
lemma Describe.reassign (h : Describe sites A σ) (var : String) {x : Option Object}
    {P : ObjectId → Prop}
    (hx : ∀ o, x = some o → ∃ id, sites.find? o.site = some id ∧ P id) :
    Describe sites (Atom.reassign var P A) (σ.bind var x) := by
  refine ⟨fun v o hv => ?_, h.fields⟩
  by_cases hvar : v = var
  · subst hvar
    obtain ⟨id, hid, hP⟩ := hx o (by simpa [State.bind] using hv)
    refine ⟨id, hid, ?_⟩
    show if v = v then P id else _
    rw [if_pos rfl]
    exact hP
  · obtain ⟨id, hid, hmem⟩ := h.vars v o (by simpa [State.bind, hvar] using hv)
    refine ⟨id, hid, ?_⟩
    show if v = var then P id else points v id ∈ A
    rw [if_neg hvar]
    exact hmem

/-- A store overwrites one field; the edge of its new content is among those it adds. -/
lemma Describe.store (h : Describe sites A σ) {base : String} {o : Object}
    (hbase : σ.vars base = some o) (field rhs : String) :
    Describe sites ((Effect.store base field rhs).after A) (σ.setField o field (σ.vars rhs)) := by
  refine ⟨fun v o' hv => ?_, fun o₁ f o₂ hf => ?_⟩
  · obtain ⟨id, hid, hmem⟩ := h.vars v o' hv
    exact ⟨id, hid, Or.inl hmem⟩
  · rw [State.fields_setField] at hf
    split at hf
    · next heq =>
      obtain ⟨rfl, rfl⟩ := heq
      obtain ⟨src, hsrc, hpoints⟩ := h.vars base o₁ hbase
      obtain ⟨dst, hdst, hpoints'⟩ := h.vars rhs o₂ hf
      exact ⟨src, dst, hsrc, hdst, Or.inr ⟨src, dst, hpoints, hpoints', rfl⟩⟩
    · -- a store takes no edge back, so the other fields stay described
      obtain ⟨id, id', hid, hid', hmem⟩ := h.fields o₁ f o₂ hf
      exact ⟨id, id', hid, hid', Or.inl hmem⟩

/-- The effect of a statement describes the state after it. -/
theorem Describe.exec {s : Statement} {e : Effect} (h : Describe sites A σ)
    (hexec : σ.Exec s σ') (he : Effect.ofStatement? sites s = some (e, sites)) :
    Describe sites (e.after A) σ' := by
  cases hexec with
  | alloc lhs o _ =>
    have hlower : Effect.ofStatement? sites (.alloc lhs (some o.site))
        = some (.alloc lhs (sites.intern o.site).1, (sites.intern o.site).2) := rfl
    rw [hlower] at he
    obtain ⟨rfl, hsites⟩ := Prod.mk.inj (Option.some.inj he)
    have hfind := sites.find?_intern o.site
    rw [hsites] at hfind
    refine h.reassign lhs fun o' ho' => ?_
    obtain rfl := Option.some.inj ho'
    exact ⟨_, hfind, rfl⟩
  | copy lhs rhs =>
    obtain ⟨rfl, _⟩ := Prod.mk.inj (Option.some.inj he)
    exact h.reassign lhs (h.vars rhs)
  | load lhs base field =>
    obtain ⟨rfl, _⟩ := Prod.mk.inj (Option.some.inj he)
    refine h.reassign lhs fun o' ho' => ?_
    obtain ⟨o, hbase, hfield⟩ := Option.bind_eq_some_iff.1 ho'
    obtain ⟨src, hsrc, hpoints⟩ := h.vars base o hbase
    obtain ⟨id, id', hid, hid', hedge⟩ := h.fields o field o' hfield
    -- both facts speak of the site of the base object, hence of one abstract object
    obtain rfl : src = id := Option.some.inj (hsrc.symm.trans hid)
    exact ⟨id', hid', src, hpoints, hedge⟩
  | store base field rhs o hbase =>
    obtain ⟨rfl, _⟩ := Prod.mk.inj (Option.some.inj he)
    exact h.store hbase field rhs
  | storeUnbound base field rhs _ =>
    obtain ⟨rfl, _⟩ := Prod.mk.inj (Option.some.inj he)
    exact h.mono fun a ha => Or.inl ha
  | other =>
    obtain ⟨rfl, _⟩ := Prod.mk.inj (Option.some.inj he)
    exact h

end Atom

/-- A graph describes what its assertions do. -/
lemma Graph.WellFormed.describes {G : Graph} (hG : G.WellFormed) {sites : SiteTable} {σ : State}
    (h : Atom.Describe sites G.atoms σ) : G.Describes sites σ := by
  refine ⟨fun v o hv => ?_, fun o f o' hf => ?_⟩
  · obtain ⟨id, hid, hmem⟩ := h.vars v o hv
    obtain ⟨pts, hpts, hcontains⟩ := Graph.exists_get?_of_points hmem
    exact ⟨id, pts, hid, hpts, hcontains⟩
  · obtain ⟨id, id', hid, hid', hmem⟩ := h.fields o f o' hf
    exact ⟨id, id', hid, hid', (hG.hasEdge_iff _).2 hmem⟩

/-! ## Runs -/

namespace Analysis

variable {N : Type} [DecidableEq N] {g : Flow N} {p : Problem N}

/-- A solution of the equations describes the states of every run. -/
theorem IsSolution.describe {ins outs : N → Graph} (hsol : IsSolution g p.sites ins outs)
    (hwf : WellFormedAt g ins outs) (hr : p.Represents g)
    (hg : g.Consistent) {n : N} {σ σ' : State} (hrun : g.Reaches n σ σ') :
    n ∈ g.nodes ∧ Atom.Describe p.sites (ins n).atoms σ ∧
      Atom.Describe p.sites (outs n).atoms σ' := by
  -- one node: a description of the state before it is carried through its statement
  have hnode : ∀ {n : N} {σ σ' : State}, n ∈ g.nodes → σ.Exec (g.stmt n) σ' →
      Atom.Describe p.sites (ins n).atoms σ → Atom.Describe p.sites (outs n).atoms σ' := by
    intro n σ σ' hn hexec hin
    obtain ⟨e, he, hout⟩ := (hr.atoms_of_isSolution hsol hwf hn).2
    rw [hout]
    exact hin.exec hexec he
  induction hrun with
  | entry hexec =>
    exact ⟨hr.entry_mem, Atom.describe_initial, hnode hr.entry_mem hexec Atom.describe_initial⟩
  | @next m n σ₀ σ σ' _ hedge hexec ih =>
    obtain ⟨hm, _, hout⟩ := ih
    have hn := hr.succs_mem m hm n hedge
    have hpred := (hg m hm n hn).1 hedge
    -- the join before a node asserts what the fact after the predecessor does
    have hin : Atom.Describe p.sites (ins n).atoms σ :=
      hout.mono fun a ha => ((hr.atoms_of_isSolution hsol hwf hn).1 a).2 ⟨m, hpred, ha⟩
    exact ⟨hn, hin, hnode hn hexec hin⟩

/-- When solving succeeds on a procedure with consistent edges, after any number of single passes
before it, the facts of a node describe the states before and after it in every run. -/
theorem solve_describes_runs (hp : Problem.ofFlow g = .ok p) (hg : g.Consistent) {k : ℕ}
    {limit : Option ℕ} {f : Facts} (hs : (Facts.afterPasses p k).solve p limit = (f, .ok ()))
    {n : N} {σ σ' : State} (hrun : g.Reaches n σ σ') :
    ∃ before after, p.fact? f.before n = some before ∧ p.fact? f.after n = some after ∧
      before.Describes p.sites σ ∧ after.Describes p.sites σ' := by
  have hr := Problem.represents_of_ofFlow hp
  have hf := Facts.valid_of_solve hs
  have hwf := hr.wellFormedAt hf
  have hsol := hr.isSolution hf (Facts.settled_of_solve hs)
  obtain ⟨hn, hin, hout⟩ := hsol.describe hwf hr hg hrun
  exact ⟨_, _, hr.fact?_eq_some hf.before_size hn, hr.fact?_eq_some hf.after_size hn,
    (hwf n hn).1.describes hin, (hwf n hn).2.describes hout⟩

/-- The links of `selfLink` are the same in both directions. -/
lemma consistent_selfLink : selfLink.toFlow.Consistent := by
  have hedges : ∀ m ∈ List.range 6, ∀ n ∈ List.range 6,
      n ∈ selfLink.succs m ↔ m ∈ selfLink.preds n := by decide +kernel
  exact hedges

/-- A run of `selfLink` that takes the loop once. -/
lemma exists_reaches_selfLink :
    ∃ σ σ', selfLink.toFlow.Reaches 5 σ σ' ∧ σ'.vars "x" = some ⟨"b", 1⟩ ∧
      σ'.vars "y" = some ⟨"b", 1⟩ ∧ σ'.fields ⟨"b", 1⟩ "f" = some ⟨"b", 1⟩ := by
  have hbelow : (State.initial.bind "x" (some ⟨"a", 0⟩)).Below 1 := by
    refine (State.below_initial.mono (Nat.zero_le 1)).bind "x" fun o ho => ?_
    obtain rfl := Option.some.inj ho
    exact Nat.zero_lt_one
  have h₀ : selfLink.toFlow.Reaches 0 _ _ :=
    .entry (.alloc "x" ⟨"a", 0⟩ (State.below_initial.fresh "a"))
  have h₁ : selfLink.toFlow.Reaches 1 _ _ :=
    .next h₀ (by decide +kernel) (.alloc "y" ⟨"b", 1⟩ (hbelow.fresh "b"))
  have h₂ : selfLink.toFlow.Reaches 2 _ _ :=
    .next h₁ (by decide +kernel) (.store "x" "f" "y" ⟨"a", 0⟩ (by decide +kernel))
  have h₃ : selfLink.toFlow.Reaches 3 _ _ := .next h₂ (by decide +kernel) (.load "z" "x" "f")
  have h₄ : selfLink.toFlow.Reaches 4 _ _ := .next h₃ (by decide +kernel) (.copy "x" "z")
  -- the loop is gone through once more, now from the second object
  have h₅ : selfLink.toFlow.Reaches 2 _ _ :=
    .next h₄ (by decide +kernel) (.store "x" "f" "y" ⟨"b", 1⟩ (by decide +kernel))
  have h₆ : selfLink.toFlow.Reaches 3 _ _ := .next h₅ (by decide +kernel) (.load "z" "x" "f")
  have h₇ : selfLink.toFlow.Reaches 5 _ _ := .next h₆ (by decide +kernel) .other
  exact ⟨_, _, h₇, by decide +kernel, by decide +kernel, by decide +kernel⟩

/-- The facts behind the loop of `selfLink` describe a run through it, which leaves an object in its
own field. -/
theorem solve_describes_selfLink :
    ∃ p f σ σ', Problem.ofFlow selfLink.toFlow = .ok p ∧ selfLink.toFlow.Consistent ∧
      (Facts.initial p).solve p none = (f, .ok ()) ∧ selfLink.toFlow.Reaches 5 σ σ' ∧
      σ'.fields ⟨"b", 1⟩ "f" = some ⟨"b", 1⟩ ∧
      ∃ before after, p.fact? f.before 5 = some before ∧ p.fact? f.after 5 = some after ∧
        before.Describes p.sites σ ∧ after.Describes p.sites σ' := by
  obtain ⟨result, hrun⟩ := exists_run_selfLink
  obtain ⟨p, f, hp, hs, _⟩ := run_eq_ok hrun
  obtain ⟨σ, σ', hreach, _, _, hfield⟩ := exists_reaches_selfLink
  exact ⟨p, f, σ, σ', hp, consistent_selfLink, hs, hreach, hfield,
    solve_describes_runs hp consistent_selfLink hs hreach⟩

end Analysis

end MayAlias
