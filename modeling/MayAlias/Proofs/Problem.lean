import Mathlib.Data.List.Forall2
import MayAlias.Analysis.Problem
import MayAlias.Proofs.Except
import MayAlias.Proofs.Site

/-!
# What acceptance means

A flow graph that passes the checks becomes a problem over positions.  `Problem.Represents` lists
what such a problem knows about the flow graph: its predecessors by position, its exits, and the
effect of every statement against the final table of sites.
-/

namespace MayAlias

namespace Analysis

variable {N : Type} [DecidableEq N]

/-! ## Positions -/

/-- The position of a node is one where the node stands. -/
lemma getElem?_of_position? {nodes : List N} {n : N} {i : ℕ} (h : position? nodes n = some i) :
    nodes[i]? = some n := by
  induction nodes generalizing i with
  | nil => simp [position?] at h
  | cons m rest ih =>
    rw [position?] at h
    split at h
    · next j hj =>
      obtain rfl := Option.some.inj h
      rw [List.getElem?_cons_succ, ih hj]
    · split at h
      · next hm =>
        obtain rfl := Option.some.inj h
        rw [List.getElem?_cons_zero, hm]
      · simp at h

/-- Exactly the nodes of the list have a position. -/
lemma exists_position?_iff (nodes : List N) (n : N) :
    (∃ i, position? nodes n = some i) ↔ n ∈ nodes := by
  constructor
  · intro h
    obtain ⟨i, hi⟩ := h
    exact List.mem_of_getElem? (getElem?_of_position? hi)
  · intro hmem
    induction nodes with
    | nil => simp at hmem
    | cons m rest ih =>
      rw [position?]
      cases hrest : position? rest n with
      | some j => exact ⟨j + 1, rfl⟩
      | none =>
        rcases List.mem_cons.1 hmem with rfl | hmem
        · exact ⟨0, by simp⟩
        · obtain ⟨i, hi⟩ := ih hmem
          rw [hi] at hrest
          simp at hrest

/-- Behind the position of a node the node does not occur again. -/
lemma getElem?_ne_of_position? {nodes : List N} {n : N} {i j : ℕ}
    (h : position? nodes n = some i) (hij : i < j) : nodes[j]? ≠ some n := by
  induction nodes generalizing i j with
  | nil => simp
  | cons m rest ih =>
    obtain ⟨j, rfl⟩ := Nat.exists_eq_succ_of_ne_zero (Nat.ne_of_gt (Nat.zero_lt_of_lt hij))
    rw [List.getElem?_cons_succ]
    rw [position?] at h
    split at h
    · next k hk =>
      obtain rfl := Option.some.inj h
      exact ih hk (Nat.lt_of_succ_lt_succ hij)
    · next hnone =>
      intro hj
      obtain ⟨k, hk⟩ := (exists_position?_iff rest n).2 (List.mem_of_getElem? hj)
      simp [hk] at hnone

/-- The position of a node is that of its last occurrence. -/
lemma position?_eq_some_iff {nodes : List N} {n : N} {i : ℕ} :
    position? nodes n = some i ↔
      nodes[i]? = some n ∧ ∀ j, i < j → nodes[j]? ≠ some n := by
  constructor
  · intro h
    exact ⟨getElem?_of_position? h, fun j hij => getElem?_ne_of_position? h hij⟩
  · intro h
    obtain ⟨hi, hlast⟩ := h
    obtain ⟨k, hk⟩ := (exists_position?_iff nodes n).2 (List.mem_of_getElem? hi)
    have hle : ¬ i < k := fun hlt => hlast k hlt (getElem?_of_position? hk)
    have hge : ¬ k < i := fun hlt => getElem?_ne_of_position? hk hlt hi
    rw [hk, show k = i by omega]

/-- Without repetitions every place is the position of its node. -/
lemma position?_of_nodup {nodes : List N} (hnodup : nodes.Nodup) {n : N} {i : ℕ}
    (hi : nodes[i]? = some n) : position? nodes n = some i := by
  rw [position?_eq_some_iff]
  refine ⟨hi, fun j hij hj => ?_⟩
  have hlt : i < nodes.length := (List.getElem?_eq_some_iff.1 hi).1
  have hsame : i = j := (List.getElem?_inj hlt hnodup).1 (hi.trans hj.symm)
  omega

/-! ## Links -/

namespace Problem

/-- Nodes that are resolved are replaced by their positions, all of them and in order. -/
lemma map_position?_of_resolve {nodes : List N} {edge : N → N × N} {l : List N} {ps : List ℕ}
    (h : resolve nodes edge l = .ok ps) : l.map (position? nodes) = ps.map some := by
  induction l generalizing ps with
  | nil =>
    rw [resolve] at h
    obtain rfl := Except.ok.inj h
    rfl
  | cons n rest ih =>
    rw [resolve] at h
    split at h
    · simp at h
    · next p hp =>
      obtain ⟨qs, hqs, hok⟩ := bind_eq_ok_iff.1 h
      obtain rfl := Except.ok.inj hok
      rw [List.map_cons, List.map_cons, hp, ih hqs]

/-- The links of a node are the positions of its predecessors and of its successors. -/
lemma forall₂_links {g : Flow N} {l : List N} {ls : List (List ℕ × List ℕ)}
    (h : links g l = .ok ls) :
    List.Forall₂ (fun n (ps : List ℕ × List ℕ) =>
      (g.preds n).map (position? g.nodes) = ps.1.map some ∧
        (g.succs n).map (position? g.nodes) = ps.2.map some) l ls := by
  induction l generalizing ls with
  | nil =>
    rw [links] at h
    obtain rfl := Except.ok.inj h
    exact .nil
  | cons n rest ih =>
    rw [links] at h
    obtain ⟨preds, hpreds, h⟩ := bind_eq_ok_iff.1 h
    obtain ⟨succs, hsuccs, h⟩ := bind_eq_ok_iff.1 h
    obtain ⟨others, hothers, h⟩ := bind_eq_ok_iff.1 h
    obtain rfl := Except.ok.inj h
    exact .cons ⟨map_position?_of_resolve hpreds, map_position?_of_resolve hsuccs⟩ (ih hothers)

/-! ## Effects -/

omit [DecidableEq N] in
/-- Every effect is that of its statement against the final table, which extends the first one. -/
lemma forall₂_effectsOf {g : Flow N} {l : List N} {t t' : SiteTable} {es : List Effect}
    (h : effectsOf g t l = .ok (es, t')) :
    t.Extends t' ∧
      List.Forall₂ (fun n e => Effect.ofStatement? t' (g.stmt n) = some (e, t')) l es := by
  induction l generalizing t es with
  | nil =>
    rw [effectsOf] at h
    obtain ⟨rfl, rfl⟩ := Prod.mk.inj (Except.ok.inj h)
    exact ⟨SiteTable.Extends.refl t, .nil⟩
  | cons n rest ih =>
    rw [effectsOf] at h
    split at h
    · simp at h
    · next e t₁ he =>
      obtain ⟨⟨es', t₂⟩, hes, hok⟩ := bind_eq_ok_iff.1 h
      obtain ⟨rfl, rfl⟩ := Prod.mk.inj (Except.ok.inj hok)
      obtain ⟨hext, hall⟩ := ih hes
      -- later statements only extend the table, which keeps this effect as it is
      exact ⟨(Effect.extends_of_ofStatement? he).trans hext,
        .cons (Effect.ofStatement?_of_extends he hext) hall⟩

omit [DecidableEq N] in
/-- The final table is in step when the first one is, and its labels are those of the first one and
of the allocations. -/
lemma labels_effectsOf {g : Flow N} {l : List N} {t t' : SiteTable} {es : List Effect}
    (h : effectsOf g t l = .ok (es, t')) (ht : t.InStep) :
    t'.InStep ∧ ∀ label, label ∈ t'.labels ↔
      label ∈ t.labels ∨ ∃ n ∈ l, ∃ lhs, g.stmt n = .alloc lhs (some label) := by
  induction l generalizing t es with
  | nil =>
    rw [effectsOf] at h
    obtain ⟨rfl, rfl⟩ := Prod.mk.inj (Except.ok.inj h)
    exact ⟨ht, by simp⟩
  | cons n rest ih =>
    rw [effectsOf] at h
    split at h
    · simp at h
    · next e t₁ he =>
      obtain ⟨⟨es', t₂⟩, hes, hok⟩ := bind_eq_ok_iff.1 h
      obtain ⟨rfl, rfl⟩ := Prod.mk.inj (Except.ok.inj hok)
      -- only an allocation can put a label into the table
      rcases Effect.ofStatement?_cases he with ⟨lhs, site, hstmt, _, rfl⟩ | ⟨hstmt, rfl, _⟩
      · obtain ⟨hstep, hmem⟩ := ih hes (ht.intern site)
        refine ⟨hstep, fun label => ?_⟩
        rw [hmem, SiteTable.mem_labels_intern ht, or_assoc, List.exists_mem_cons_iff, hstmt]
        simp [eq_comm]
      · obtain ⟨hstep, hmem⟩ := ih hes ht
        refine ⟨hstep, fun label => ?_⟩
        rw [hmem, List.exists_mem_cons_iff]
        simp [hstmt]

/-! ## Acceptance -/

/-- What a problem knows about the flow graph it was made from. -/
structure Represents (p : Problem N) (g : Flow N) : Prop where
  order : p.order = g.nodes
  entry_mem : g.entry ∈ g.nodes
  succs_mem : ∀ n ∈ g.nodes, ∀ m ∈ g.succs n, m ∈ g.nodes
  preds : ∀ i n, g.nodes[i]? = some n →
    (g.preds n).map (position? g.nodes) = (p.preds.getD i []).map some
  mem_exits : ∀ i, i ∈ p.exits ↔ ∃ n, g.nodes[i]? = some n ∧ g.succs n = []
  effects_size : p.effects.size = g.nodes.length
  effects : ∀ i n, g.nodes[i]? = some n →
    Effect.ofStatement? p.sites (g.stmt n) = some (p.effects.getD i .nothing, p.sites)
  sites_inStep : p.sites.InStep
  mem_labels : ∀ label, label ∈ p.sites.labels ↔
    ∃ n ∈ g.nodes, ∃ lhs, g.stmt n = .alloc lhs (some label)

lemma getElem?_of_forall₂ {α β : Type} {R : α → β → Prop} {l : List α} {l' : List β}
    (h : List.Forall₂ R l l') {i : ℕ} {a : α} (ha : l[i]? = some a) :
    ∃ b, l'[i]? = some b ∧ R a b := by
  induction h generalizing i with
  | nil => simp at ha
  | cons hR _ ih =>
    cases i with
    | zero =>
      rw [List.getElem?_cons_zero] at ha ⊢
      exact ⟨_, rfl, Option.some.inj ha ▸ hR⟩
    | succ i =>
      rw [List.getElem?_cons_succ] at ha ⊢
      exact ih ha

/-- `emptyAt` finds the places of the empty lists. -/
lemma mem_emptyAt (lists : List (List ℕ)) (i : ℕ) : i ∈ emptyAt lists ↔ lists[i]? = some [] := by
  simp only [emptyAt, List.mem_map, List.mem_filter, Prod.exists, List.mem_zipIdx_iff_getElem?,
    List.isEmpty_iff]
  constructor
  · intro h
    obtain ⟨l, j, ⟨hl, hempty⟩, rfl⟩ := h
    rw [← hempty]
    exact hl
  · intro h
    exact ⟨[], i, ⟨h, rfl⟩, rfl⟩

/-- A position has no links to successors when its node has no successors. -/
lemma mem_exits_of_links {g : Flow N} {linked : List (List ℕ × List ℕ)}
    (h : links g g.nodes = .ok linked) (i : ℕ) :
    i ∈ emptyAt (linked.map Prod.snd) ↔ ∃ n, g.nodes[i]? = some n ∧ g.succs n = [] := by
  have hlinks := forall₂_links h
  rw [mem_emptyAt, List.getElem?_map]
  constructor
  · intro hi
    obtain ⟨ps, hps, hempty⟩ := Option.map_eq_some_iff.1 hi
    obtain ⟨n, hn, _, hsuccs⟩ := getElem?_of_forall₂ hlinks.flip hps
    rw [hempty] at hsuccs
    exact ⟨n, hn, List.map_eq_nil_iff.1 hsuccs⟩
  · intro hi
    obtain ⟨n, hn, hsuccs⟩ := hi
    obtain ⟨ps, hps, _, hmap⟩ := getElem?_of_forall₂ hlinks hn
    rw [hsuccs] at hmap
    rw [hps, Option.map_some, List.map_eq_nil_iff.1 hmap.symm]

/-- A flow graph that is accepted is represented by the problem made from it. -/
theorem represents_of_ofFlow {g : Flow N} {p : Problem N} (h : ofFlow g = .ok p) :
    p.Represents g := by
  rw [ofFlow] at h
  split at h
  · simp at h
  split at h
  · simp at h
  next start hstart =>
  obtain ⟨linked, hlinked, h⟩ := bind_eq_ok_iff.1 h
  dsimp only at h
  split at h
  · simp at h
  obtain ⟨⟨effects, sites⟩, heffects, h⟩ := bind_eq_ok_iff.1 h
  obtain rfl := Except.ok.inj h
  -- what the checks have produced, by position
  have hlinks := forall₂_links hlinked
  have heffs := (forall₂_effectsOf heffects).2
  have hlabels := labels_effectsOf heffects SiteTable.inStep_empty
  exact {
    order := rfl
    entry_mem := (exists_position?_iff _ _).1 ⟨start, hstart⟩
    succs_mem := by
      intro n hn m hm
      obtain ⟨i, hi⟩ := List.mem_iff_getElem?.1 hn
      obtain ⟨ps, _, _, hsuccs⟩ := getElem?_of_forall₂ hlinks hi
      have hpos : position? g.nodes m ∈ ps.2.map some := hsuccs ▸ List.mem_map_of_mem hm
      obtain ⟨j, _, hj⟩ := List.mem_map.1 hpos
      exact (exists_position?_iff _ _).1 ⟨j, hj.symm⟩
    preds := by
      intro i n hi
      obtain ⟨ps, hps, hpreds, _⟩ := getElem?_of_forall₂ hlinks hi
      rw [hpreds]
      simp [Array.getD_eq_getD_getElem?, hps]
    mem_exits := mem_exits_of_links hlinked
    effects_size := by
      rw [List.size_toArray]
      exact heffs.length_eq.symm
    effects := by
      intro i n hi
      obtain ⟨e, he, hstmt⟩ := getElem?_of_forall₂ heffs hi
      rw [hstmt]
      simp [Array.getD_eq_getD_getElem?, he]
    sites_inStep := hlabels.1
    mem_labels := by
      intro label
      rw [hlabels.2]
      simp [SiteTable.empty] }

namespace Represents

variable {g : Flow N} {p : Problem N} (hr : p.Represents g)

include hr

/-- Every node has a position. -/
lemma exists_position {n : N} (hn : n ∈ g.nodes) :
    ∃ i, position? p.order n = some i ∧ g.nodes[i]? = some n ∧ i < p.order.length := by
  obtain ⟨i, hi⟩ := (exists_position?_iff g.nodes n).2 hn
  have hget := getElem?_of_position? hi
  rw [hr.order]
  exact ⟨i, hi, hget, (List.getElem?_eq_some_iff.1 hget).1⟩

/-- The predecessors of a position are the positions of the predecessors. -/
lemma mem_preds {i : ℕ} {n : N} (hi : g.nodes[i]? = some n) (q : ℕ) :
    q ∈ p.preds.getD i [] ↔ ∃ m ∈ g.preds n, position? p.order m = some q := by
  have hmap : q ∈ p.preds.getD i [] ↔ some q ∈ (g.preds n).map (position? g.nodes) := by
    rw [hr.preds i n hi]
    simp
  rw [hmap, List.mem_map, hr.order]

/-- The predecessors of a node are nodes too, since all of them have positions. -/
lemma preds_mem (n : N) (hn : n ∈ g.nodes) (m : N) (hm : m ∈ g.preds n) : m ∈ g.nodes := by
  obtain ⟨i, hi⟩ := List.mem_iff_getElem?.1 hn
  have hmap : position? g.nodes m ∈ (p.preds.getD i []).map some := by
    rw [← hr.preds i n hi]
    exact List.mem_map_of_mem hm
  obtain ⟨q, _, hq⟩ := List.mem_map.1 hmap
  exact (exists_position?_iff _ _).1 ⟨q, hq.symm⟩

end Represents

end Problem

end Analysis

end MayAlias
