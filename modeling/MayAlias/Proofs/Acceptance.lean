import MayAlias.Proofs.Problem
import MayAlias.Proofs.Reachability

/-!
# Which flow graphs are accepted, and what is reported of the others

`Flow.Analysable` says what a flow graph has to be like to be analysed, and `Flow.Fault` says, check
by check and without regard to the other checks, which failure describes what is wrong with it.  The
checks are made in the order of `Failure.stage`, and `Flow.Meets` is what each of them asks.  A flow
graph is accepted exactly when it is analysable, and otherwise the failure is its fault of the
earliest stage.

A node that is listed twice is known by its last position only.  Its earlier positions are never
reached, so a repetition comes out as an unreachable node.
-/

namespace MayAlias

/-! ## First elements -/

/-- The element is the first of the list with the property. -/
def First {α : Type} (P : α → Prop) (l : List α) (a : α) : Prop :=
  ∃ before behind, l = before ++ a :: behind ∧ P a ∧ ∀ b ∈ before, ¬ P b

section First

variable {α : Type} {P Q : α → Prop} {l l' : List α} {a a' : α}

/-- For a test, the first element is what a search finds. -/
lemma first_iff_find? (p : α → Bool) : First (p · = true) l a ↔ l.find? p = some a := by
  rw [List.find?_eq_some_iff_append, First]
  constructor
  · intro h
    obtain ⟨before, behind, hl, ha, hbefore⟩ := h
    exact ⟨ha, before, behind, hl, by simpa using hbefore⟩
  · intro h
    obtain ⟨ha, before, behind, hl, hbefore⟩ := h
    exact ⟨before, behind, hl, ha, by simpa using hbefore⟩

lemma First.mem (h : First P l a) : a ∈ l := by
  obtain ⟨before, behind, rfl, _⟩ := h
  simp

lemma First.property (h : First P l a) : P a := by
  obtain ⟨_, _, _, ha, _⟩ := h
  exact ha

/-- Only the property on the elements of the list matters. -/
lemma First.congr (h : First P l a) (hPQ : ∀ b ∈ l, P b ↔ Q b) : First Q l a := by
  obtain ⟨before, behind, rfl, ha, hbefore⟩ := h
  refine ⟨before, behind, rfl, (hPQ a (by simp)).1 ha, fun b hb hQ => ?_⟩
  exact hbefore b hb ((hPQ b (List.mem_append_left _ hb)).2 hQ)

/-- There is one first element with the property. -/
lemma First.unique (h : First P l a) (h' : First P l a') : a = a' := by
  classical
  have hdecide : ∀ b ∈ l, P b ↔ decide (P b) = true := fun b _ => (decide_eq_true_iff).symm
  have hfind := (first_iff_find? _).1 (h.congr hdecide)
  have hfind' := (first_iff_find? _).1 (h'.congr hdecide)
  exact Option.some.inj (hfind.symm.trans hfind')

/-- If any element has the property, one of them is the first. -/
lemma exists_first (P : α → Prop) (h : ¬ ∀ a ∈ l, ¬ P a) : ∃ a, First P l a := by
  classical
  have hdecide : ∀ b ∈ l, decide (P b) = true ↔ P b := fun b _ => decide_eq_true_iff
  cases hfind : l.find? (fun b => decide (P b)) with
  | some a => exact ⟨a, ((first_iff_find? _).2 hfind).congr hdecide⟩
  | none => exact absurd (fun a ha => by simpa using List.find?_eq_none.1 hfind a ha) h

lemma first_cons_self (ha : P a) : First P (a :: l) a := ⟨[], l, rfl, ha, by simp⟩

lemma First.append_left (h : First P l a) (l' : List α) : First P (l ++ l') a := by
  obtain ⟨before, behind, rfl, ha, hbefore⟩ := h
  exact ⟨before, behind ++ l', by simp, ha, hbefore⟩

/-- If no element of the first part has the property, the first of the second part is the first. -/
lemma First.append_right (h : First P l' a) (hl : ∀ b ∈ l, ¬ P b) : First P (l ++ l') a := by
  obtain ⟨before, behind, rfl, ha, hbefore⟩ := h
  refine ⟨l ++ before, behind, by simp, ha, fun b hb => ?_⟩
  exact (List.mem_append.1 hb).elim (hl b) (hbefore b)

lemma First.map {β : Type} {f : α → β} {R : β → Prop} (h : First P l a)
    (hR : ∀ b, R (f b) ↔ P b) : First R (l.map f) (f a) := by
  obtain ⟨before, behind, rfl, ha, hbefore⟩ := h
  refine ⟨before.map f, behind.map f, by simp, (hR a).2 ha, fun c hc => ?_⟩
  obtain ⟨b, hb, rfl⟩ := List.mem_map.1 hc
  exact fun h => hbefore b hb ((hR b).1 h)

end First

/-! ## Faults -/

/-- A link as one of its ends lists it. -/
structure Link (N : Type) where
  source : N
  target : N
  /-- The end that is not the one which lists the link. -/
  far : N

namespace Flow

variable {N : Type} (g : Flow N)

/-- A path of successors leads from the entry to the node. -/
def Reachable (n : N) : Prop := Relation.ReflTransGen (fun m m' => m' ∈ g.succs m) g.entry n

/-- The links that a node lists, predecessors before successors. -/
def linksAt (n : N) : List (Link N) :=
  (g.preds n).map (fun m => ⟨m, n, m⟩) ++ (g.succs n).map fun m => ⟨n, m, m⟩

/-- An occurrence of a node, given with its position, is not reachable or not the last one. -/
def Stray (occurrence : N × ℕ) : Prop :=
  ¬ g.Reachable occurrence.1 ∨
    ∃ j, occurrence.2 < j ∧ g.nodes[j]? = some occurrence.1

/-- What a flow graph has to be like for its analysis. -/
structure Analysable : Prop where
  nonempty : g.nodes ≠ []
  nodup : g.nodes.Nodup
  entry_mem : g.entry ∈ g.nodes
  preds_mem : ∀ n ∈ g.nodes, ∀ m ∈ g.preds n, m ∈ g.nodes
  succs_mem : ∀ n ∈ g.nodes, ∀ m ∈ g.succs n, m ∈ g.nodes
  reachable : ∀ n ∈ g.nodes, g.Reachable n
  sites : ∀ n ∈ g.nodes, ∀ lhs, g.stmt n ≠ .alloc lhs none

/-- The failures that describe what is wrong with a flow graph: at most one for each check. -/
inductive Fault : Analysis.Failure N → Prop
  | emptyGraph (h : g.nodes = []) : Fault .emptyGraph
  | unknownEntry (h : g.entry ∉ g.nodes) : Fault (.unknownEntry g.entry)
  | danglingEdge (link : Link N)
    (h : First (fun l => l.far ∉ g.nodes) (g.nodes.flatMap g.linksAt) link) :
    Fault (.danglingEdge link.source link.target)
  | unreachable (occurrence : N × ℕ) (h : First g.Stray g.nodes.zipIdx occurrence) :
    Fault (.unreachable occurrence.1)
  | missingSite (n : N) (h : First (fun m => ∃ lhs, g.stmt m = .alloc lhs none) g.nodes n) :
    Fault (.missingSite n)

/-- What the check of a stage asks of a flow graph. -/
def Meets : ℕ → Prop
  | 0 => g.nodes ≠ []
  | 1 => g.entry ∈ g.nodes
  | 2 => ∀ link ∈ g.nodes.flatMap g.linksAt, link.far ∈ g.nodes
  | 3 => ∀ occurrence ∈ g.nodes.zipIdx, ¬ g.Stray occurrence
  | 4 => ∀ n ∈ g.nodes, ¬ ∃ lhs, g.stmt n = .alloc lhs none
  | _ => True

variable {g}

/-- One more check is passed. -/
lemma meets_lt_succ {k : ℕ} (hbefore : ∀ j < k, g.Meets j) (hk : g.Meets k) :
    ∀ j < k + 1, g.Meets j := by
  intro j hj
  rcases Nat.lt_succ_iff_lt_or_eq.1 hj with hj | rfl
  · exact hbefore j hj
  · exact hk

/-- No link leaves the graph when the nodes list nodes only. -/
lemma far_mem_iff :
    (∀ link ∈ g.nodes.flatMap g.linksAt, link.far ∈ g.nodes) ↔
      (∀ n ∈ g.nodes, ∀ m ∈ g.preds n, m ∈ g.nodes) ∧
        ∀ n ∈ g.nodes, ∀ m ∈ g.succs n, m ∈ g.nodes := by
  constructor
  · intro h
    refine ⟨fun n hn m hm => ?_, fun n hn m hm => ?_⟩
    · refine h ⟨m, n, m⟩ (List.mem_flatMap.2 ⟨n, hn, List.mem_append_left _ ?_⟩)
      exact List.mem_map.2 ⟨m, hm, rfl⟩
    · refine h ⟨n, m, m⟩ (List.mem_flatMap.2 ⟨n, hn, List.mem_append_right _ ?_⟩)
      exact List.mem_map.2 ⟨m, hm, rfl⟩
  · intro h link hlink
    obtain ⟨n, hn, hlink⟩ := List.mem_flatMap.1 hlink
    rcases List.mem_append.1 hlink with hlink | hlink
    · obtain ⟨m, hm, rfl⟩ := List.mem_map.1 hlink
      exact h.1 n hn m hm
    · obtain ⟨m, hm, rfl⟩ := List.mem_map.1 hlink
      exact h.2 n hn m hm

/-- No occurrence is stray when every node occurs once and is reachable. -/
lemma forall_not_stray_iff :
    (∀ occurrence ∈ g.nodes.zipIdx, ¬ g.Stray occurrence) ↔
      g.nodes.Nodup ∧ ∀ n ∈ g.nodes, g.Reachable n := by
  constructor
  · intro h
    have hat : ∀ i n, g.nodes[i]? = some n → ¬ g.Stray (n, i) := fun i n hi =>
      h (n, i) (List.mem_zipIdx_iff_getElem?.2 hi)
    constructor
    -- of two occurrences of a node, the earlier one would be stray
    · rw [List.nodup_iff_getElem?_ne_getElem?]
      intro i j hij hj heq
      have hnode := List.getElem?_eq_getElem hj
      exact hat i _ (heq.trans hnode) (Or.inr ⟨j, hij, hnode⟩)
    · intro n hn
      obtain ⟨i, hi⟩ := List.mem_iff_getElem?.1 hn
      by_contra hnot
      exact hat i n hi (Or.inl hnot)
  · intro h occurrence hmem hstray
    have hi := List.mem_zipIdx_iff_getElem?.1 hmem
    rcases hstray with hnot | ⟨j, hij, hj⟩
    · exact hnot (h.2 _ (List.mem_of_getElem? hi))
    · have hlt := (List.getElem?_eq_some_iff.1 hj).1
      exact List.nodup_iff_getElem?_ne_getElem?.1 h.1 _ j hij hlt (hi.trans hj.symm)

end Flow

namespace Analysis

/-- The place of a check in the order in which checks are made.  Running out of passes comes after
all of them. -/
def Failure.stage {N : Type} : Failure N → ℕ
  | emptyGraph => 0
  | unknownEntry _ => 1
  | danglingEdge _ _ => 2
  | unreachable _ => 3
  | missingSite _ => 4
  | passLimit _ => 5

section Faults

variable {N : Type} {g : Flow N}

/-- A check reports one failure only. -/
lemma fault_unique {e e' : Failure N} (h : g.Fault e) (h' : g.Fault e')
    (hstage : e.stage = e'.stage) : e = e' := by
  cases h with
  | emptyGraph _ =>
    cases h' with
    | emptyGraph _ => rfl
    | _ => simp [Failure.stage] at hstage
  | unknownEntry _ =>
    cases h' with
    | unknownEntry _ => rfl
    | _ => simp [Failure.stage] at hstage
  | danglingEdge link hfirst =>
    cases h' with
    | danglingEdge link' hfirst' => rw [hfirst.unique hfirst']
    | _ => simp [Failure.stage] at hstage
  | unreachable occurrence hfirst =>
    cases h' with
    | unreachable occurrence' hfirst' => rw [hfirst.unique hfirst']
    | _ => simp [Failure.stage] at hstage
  | missingSite n hfirst =>
    cases h' with
    | missingSite n' hfirst' => rw [hfirst.unique hfirst']
    | _ => simp [Failure.stage] at hstage

/-- A fault says that the check of its stage fails. -/
lemma not_meets_of_fault {e : Failure N} (he : g.Fault e) : ¬ g.Meets e.stage := by
  intro hmeets
  cases he with
  | emptyGraph hempty => exact hmeets hempty
  | unknownEntry hnot => exact hnot hmeets
  | danglingEdge link hfirst => exact hfirst.property (hmeets link hfirst.mem)
  | unreachable occurrence hfirst => exact hmeets occurrence hfirst.mem hfirst.property
  | missingSite n hfirst => exact hmeets n hfirst.mem hfirst.property

/-- A check that fails finds a fault. -/
lemma exists_fault_of_not_meets {k : ℕ} (hk : ¬ g.Meets k) : ∃ e, g.Fault e ∧ e.stage = k := by
  match k with
  | 0 => exact ⟨_, .emptyGraph (not_not.1 hk), rfl⟩
  | 1 => exact ⟨_, .unknownEntry hk, rfl⟩
  | 2 =>
    obtain ⟨link, hfirst⟩ := exists_first (fun link : Link N => link.far ∉ g.nodes)
      fun hall => hk fun link hlink => not_not.1 (hall link hlink)
    exact ⟨_, .danglingEdge link hfirst, rfl⟩
  | 3 =>
    obtain ⟨occurrence, hfirst⟩ := exists_first g.Stray hk
    exact ⟨_, .unreachable occurrence hfirst, rfl⟩
  | 4 =>
    obtain ⟨n, hfirst⟩ := exists_first (fun n => ∃ lhs, g.stmt n = .alloc lhs none) hk
    exact ⟨_, .missingSite n hfirst, rfl⟩
  | _ + 5 => exact absurd trivial hk

/-- A flow graph that passes the checks before a stage has no fault of an earlier stage. -/
lemma le_stage_of_fault {k : ℕ} (hk : ∀ j < k, g.Meets j) {e : Failure N} (he : g.Fault e) :
    k ≤ e.stage := by
  by_contra hlt
  exact not_meets_of_fault he (hk e.stage (Nat.lt_of_not_le hlt))

/-- Nothing is wrong with a flow graph that can be analysed. -/
lemma not_fault_of_analysable (hg : g.Analysable) (e : Failure N) : ¬ g.Fault e := by
  intro he
  apply not_meets_of_fault he
  cases he with
  | emptyGraph _ => exact hg.nonempty
  | unknownEntry _ => exact hg.entry_mem
  | danglingEdge _ _ => exact Flow.far_mem_iff.2 ⟨hg.preds_mem, hg.succs_mem⟩
  | unreachable _ _ => exact Flow.forall_not_stray_iff.2 ⟨hg.nodup, hg.reachable⟩
  | missingSite _ _ => exact fun n hn => not_exists.2 (hg.sites n hn)

end Faults

namespace Problem

variable {N : Type} [DecidableEq N] {g : Flow N}

/-! ## The check of the links -/

/-- Resolving fails at the first neighbour that is not a node. -/
lemma resolve_eq_error {nodes : List N} {edge : N → N × N} {l : List N} {e : Failure N}
    (h : resolve nodes edge l = .error e) :
    ∃ n, First (· ∉ nodes) l n ∧ e = .danglingEdge (edge n).1 (edge n).2 := by
  induction l with
  | nil => simp [resolve] at h
  | cons n rest ih =>
    rw [resolve] at h
    split at h
    · next hnone =>
      have hnot : n ∉ nodes := by
        intro hn
        obtain ⟨i, hi⟩ := (exists_position?_iff nodes n).2 hn
        simp [hi] at hnone
      exact ⟨n, first_cons_self hnot, (Except.error.inj h).symm⟩
    · next p hp =>
      have hn : n ∈ nodes := (exists_position?_iff nodes n).1 ⟨p, hp⟩
      rcases bind_eq_error_iff.1 h with hrest | ⟨_, _, hok⟩
      · obtain ⟨m, hfirst, he⟩ := ih hrest
        -- the neighbour in front is a node, so the first that is none comes later
        exact ⟨m, hfirst.append_right (l := [n]) (by simpa using hn), he⟩
      · simp at hok

/-- Resolving succeeds if all neighbours are nodes. -/
lemma mem_of_resolve {nodes : List N} {edge : N → N × N} {l : List N} {ps : List ℕ}
    (h : resolve nodes edge l = .ok ps) : ∀ n ∈ l, n ∈ nodes := by
  intro n hn
  have hpos : position? nodes n ∈ ps.map some :=
    map_position?_of_resolve h ▸ List.mem_map_of_mem hn
  obtain ⟨i, _, hi⟩ := List.mem_map.1 hpos
  exact (exists_position?_iff nodes n).1 ⟨i, hi.symm⟩

/-- No link checked before leaves the graph. -/
lemma far_mem_of_links {l : List N} {linked : List (List ℕ × List ℕ)}
    (h : links g l = .ok linked) : ∀ link ∈ l.flatMap g.linksAt, link.far ∈ g.nodes := by
  induction l generalizing linked with
  | nil => simp
  | cons n rest ih =>
    rw [links] at h
    obtain ⟨preds, hpreds, h⟩ := bind_eq_ok_iff.1 h
    obtain ⟨succs, hsuccs, h⟩ := bind_eq_ok_iff.1 h
    obtain ⟨others, hothers, _⟩ := bind_eq_ok_iff.1 h
    intro link hlink
    rw [List.flatMap_cons, Flow.linksAt, List.mem_append, List.mem_append] at hlink
    rcases hlink with (hlink | hlink) | hlink
    · obtain ⟨m, hm, rfl⟩ := List.mem_map.1 hlink
      exact mem_of_resolve hpreds m hm
    · obtain ⟨m, hm, rfl⟩ := List.mem_map.1 hlink
      exact mem_of_resolve hsuccs m hm
    · exact ih hothers link hlink

/-- The link reported is the first that leaves the graph. -/
lemma links_eq_error {l : List N} {e : Failure N} (h : links g l = .error e) :
    ∃ link, First (fun k => k.far ∉ g.nodes) (l.flatMap g.linksAt) link ∧
      e = .danglingEdge link.source link.target := by
  induction l with
  | nil => simp [links] at h
  | cons n rest ih =>
    rw [links] at h
    rw [List.flatMap_cons, Flow.linksAt]
    rcases bind_eq_error_iff.1 h with hpreds | ⟨preds, hpreds, h⟩
    · obtain ⟨m, hfirst, he⟩ := resolve_eq_error hpreds
      have hlink := hfirst.map (f := fun m => (⟨m, n, m⟩ : Link N))
        (R := fun k => k.far ∉ g.nodes) fun _ => Iff.rfl
      exact ⟨_, (hlink.append_left _).append_left _, he⟩
    -- the predecessors are checked first, and all of them are nodes
    have hbefore : ∀ k ∈ (g.preds n).map (fun m => (⟨m, n, m⟩ : Link N)), ¬ k.far ∉ g.nodes := by
      intro k hk
      obtain ⟨m, hm, rfl⟩ := List.mem_map.1 hk
      exact not_not_intro (mem_of_resolve hpreds m hm)
    rcases bind_eq_error_iff.1 h with hsuccs | ⟨succs, hsuccs, h⟩
    · obtain ⟨m, hfirst, he⟩ := resolve_eq_error hsuccs
      have hlink := hfirst.map (f := fun m => (⟨n, m, m⟩ : Link N))
        (R := fun k => k.far ∉ g.nodes) fun _ => Iff.rfl
      exact ⟨_, (hlink.append_right hbefore).append_left _, he⟩
    rcases bind_eq_error_iff.1 h with hothers | ⟨_, _, hok⟩
    · obtain ⟨link, hfirst, he⟩ := ih hothers
      refine ⟨link, hfirst.append_right fun k hk => ?_, he⟩
      rcases List.mem_append.1 hk with hk | hk
      · exact hbefore k hk
      · obtain ⟨m, hm, rfl⟩ := List.mem_map.1 hk
        exact not_not_intro (mem_of_resolve hsuccs m hm)
    · simp at hok

/-! ## The check of the reachable nodes -/

section Reached

variable {linked : List (List ℕ × List ℕ)} (hlinked : links g g.nodes = .ok linked)

include hlinked

/-- The links between positions are those between the nodes there. -/
lemma linked_iff (p q : ℕ) :
    Linked (linked.map Prod.snd).toArray p q ↔
      ∃ n, g.nodes[p]? = some n ∧ ∃ m ∈ g.succs n, position? g.nodes m = some q := by
  have hlinks := forall₂_links hlinked
  rw [Linked, Array.getD_eq_getD_getElem?, List.getElem?_toArray, List.getElem?_map]
  constructor
  · intro hq
    cases hps : linked[p]? with
    | none => simp [hps] at hq
    | some ps =>
      rw [hps, Option.map_some, Option.getD_some] at hq
      -- the positions at `p` are those of the successors of its node
      obtain ⟨n, hn, _, hsuccs⟩ := getElem?_of_forall₂ hlinks.flip hps
      have hmem : some q ∈ (g.succs n).map (position? g.nodes) :=
        hsuccs ▸ List.mem_map_of_mem hq
      obtain ⟨m, hm, hpos⟩ := List.mem_map.1 hmem
      exact ⟨n, hn, m, hm, hpos⟩
  · intro h
    obtain ⟨n, hn, m, hm, hpos⟩ := h
    obtain ⟨ps, hps, _, hsuccs⟩ := getElem?_of_forall₂ hlinks hn
    have hmem : some q ∈ ps.2.map some := by
      rw [← hsuccs, ← hpos]
      exact List.mem_map_of_mem hm
    rw [hps, Option.map_some, Option.getD_some]
    simpa using hmem

/-- Each node has its links. -/
lemma size_linked : (linked.map Prod.snd).toArray.size = g.nodes.length := by
  rw [List.size_toArray, List.length_map]
  exact (forall₂_links hlinked).length_eq.symm

/-- The positions of the reachable nodes are the positions to which links lead from the entry. -/
lemma reaches_iff {start : ℕ} (hstart : position? g.nodes g.entry = some start) (q : ℕ) :
    Relation.ReflTransGen (Linked (linked.map Prod.snd).toArray) start q ↔
      ∃ m, g.Reachable m ∧ position? g.nodes m = some q := by
  -- successors of nodes are nodes, since no link leaves the graph
  have hlisted : ∀ m, g.Reachable m → m ∈ g.nodes := by
    intro m hm
    induction hm with
    | refl => exact (exists_position?_iff _ _).1 ⟨start, hstart⟩
    | tail _ hsucc ih => exact (Flow.far_mem_iff.1 (far_mem_of_links hlinked)).2 _ ih _ hsucc
  constructor
  · intro h
    induction h with
    | refl => exact ⟨g.entry, .refl, hstart⟩
    | tail _ hlink ih =>
      obtain ⟨m, hm, hpos⟩ := ih
      obtain ⟨n, hn, m', hm', hpos'⟩ := (linked_iff hlinked _ _).1 hlink
      obtain rfl : m = n := Option.some.inj ((getElem?_of_position? hpos).symm.trans hn)
      exact ⟨m', hm.tail hm', hpos'⟩
  · intro h
    obtain ⟨m, hm, hpos⟩ := h
    induction hm generalizing q with
    | refl =>
      obtain rfl : start = q := Option.some.inj (hstart.symm.trans hpos)
      exact .refl
    | @tail m m' hm hsucc ih =>
      obtain ⟨p, hp⟩ := (exists_position?_iff g.nodes m).2 (hlisted m hm)
      apply (ih p hp).tail
      exact (linked_iff hlinked p q).2 ⟨m, getElem?_of_position? hp, m', hsucc, hpos⟩

/-- The positions that are not reached are those of the stray occurrences. -/
lemma not_mem_reached_iff {start : ℕ} (hstart : position? g.nodes g.entry = some start)
    {occurrence : N × ℕ} (hmem : occurrence ∈ g.nodes.zipIdx) :
    occurrence.2 ∉ reached (linked.map Prod.snd).toArray start ↔ g.Stray occurrence := by
  obtain ⟨n, i⟩ := occurrence
  have hi : g.nodes[i]? = some n := List.mem_zipIdx_iff_getElem?.1 hmem
  have hbound : ∀ {m : N} {q : ℕ}, position? g.nodes m = some q →
      q < (linked.map Prod.snd).toArray.size := by
    intro m q hq
    rw [size_linked hlinked]
    exact (List.getElem?_eq_some_iff.1 (getElem?_of_position? hq)).1
  have hlinks : ∀ p q, Linked (linked.map Prod.snd).toArray p q →
      q < (linked.map Prod.snd).toArray.size := by
    intro p q hpq
    obtain ⟨_, _, m, _, hq⟩ := (linked_iff hlinked p q).1 hpq
    exact hbound hq
  -- only the last occurrence of a node has its position
  have hlast : (∃ m, g.Reachable m ∧ position? g.nodes m = some i) ↔
      g.Reachable n ∧ ∀ j, i < j → g.nodes[j]? ≠ some n := by
    constructor
    · intro h
      obtain ⟨m, hm, hpos⟩ := h
      obtain rfl : m = n := Option.some.inj ((getElem?_of_position? hpos).symm.trans hi)
      exact ⟨hm, (position?_eq_some_iff.1 hpos).2⟩
    · intro h
      exact ⟨n, h.1, position?_eq_some_iff.2 ⟨hi, h.2⟩⟩
  rw [mem_reached hlinks (hbound hstart), reaches_iff hlinked hstart, hlast, not_and_or]
  simp only [Flow.Stray, not_forall, not_not, exists_prop]

/-- The node reported is that of the first stray occurrence. -/
lemma firstUnseen?_eq_some {start : ℕ} (hstart : position? g.nodes g.entry = some start) {n : N}
    (h : firstUnseen? g.nodes (reached (linked.map Prod.snd).toArray start) = some n) :
    ∃ occurrence, First g.Stray g.nodes.zipIdx occurrence ∧ n = occurrence.1 := by
  obtain ⟨occurrence, hfind, rfl⟩ := Option.map_eq_some_iff.1 h
  refine ⟨occurrence, ((first_iff_find? _).2 hfind).congr fun x hx => ?_, rfl⟩
  rw [← not_mem_reached_iff hlinked hstart hx]
  simp

/-- If no node is reported, no occurrence is stray. -/
lemma not_stray_of_firstUnseen? {start : ℕ} (hstart : position? g.nodes g.entry = some start)
    (h : firstUnseen? g.nodes (reached (linked.map Prod.snd).toArray start) = none) :
    ∀ occurrence ∈ g.nodes.zipIdx, ¬ g.Stray occurrence := by
  intro occurrence hmem
  have hseen := List.find?_eq_none.1 (Option.map_eq_none_iff.1 h) occurrence hmem
  rw [← not_mem_reached_iff hlinked hstart hmem]
  simpa using hseen

end Reached

/-! ## The check of the sites -/

omit [DecidableEq N] in
/-- The node reported is the first allocation without a site. -/
lemma effectsOf_eq_error {l : List N} {t : SiteTable} {e : Failure N}
    (h : effectsOf g t l = .error e) :
    ∃ n, First (fun m => ∃ lhs, g.stmt m = .alloc lhs none) l n ∧ e = .missingSite n := by
  induction l generalizing t with
  | nil => simp [effectsOf] at h
  | cons n rest ih =>
    rw [effectsOf] at h
    split at h
    · next hnone =>
      exact ⟨n, first_cons_self (Effect.ofStatement?_eq_none_iff.1 hnone),
        (Except.error.inj h).symm⟩
    · next effect t' hsome =>
      have hsite : ¬ ∃ lhs, g.stmt n = .alloc lhs none := by
        rw [← Effect.ofStatement?_eq_none_iff (t := t), hsome]
        simp
      rcases bind_eq_error_iff.1 h with hrest | ⟨_, _, hok⟩
      · obtain ⟨m, hfirst, he⟩ := ih hrest
        exact ⟨m, hfirst.append_right (l := [n]) (by simpa using hsite), he⟩
      · simp at hok

omit [DecidableEq N] in
/-- If no allocation is reported, all of them have sites. -/
lemma site_of_effectsOf {l : List N} {t t' : SiteTable} {es : List Effect}
    (h : effectsOf g t l = .ok (es, t')) : ∀ n ∈ l, ∀ lhs, g.stmt n ≠ .alloc lhs none := by
  intro n hn lhs hstmt
  obtain ⟨i, hi⟩ := List.mem_iff_getElem?.1 hn
  obtain ⟨e, _, heffect⟩ := getElem?_of_forall₂ (forall₂_effectsOf h).2 hi
  rw [Effect.ofStatement?_eq_none_iff.2 ⟨lhs, hstmt⟩] at heffect
  simp at heffect

/-! ## All checks -/

/-- The failure reported is a fault, and no check before it fails. -/
theorem fault_of_ofFlow {e : Failure N} (h : ofFlow g = .error e) :
    g.Fault e ∧ ∀ e', g.Fault e' → e.stage ≤ e'.stage := by
  rw [ofFlow] at h
  split at h
  · next hempty =>
    obtain rfl := Except.error.inj h
    exact ⟨.emptyGraph (List.isEmpty_iff.1 hempty), fun _ _ => Nat.zero_le _⟩
  next hnonempty =>
  rw [List.isEmpty_iff] at hnonempty
  -- every check that does not fail adds to what the flow graph is known to meet
  have hmeets : ∀ j < 1, g.Meets j :=
    Flow.meets_lt_succ (fun j hj => absurd hj (Nat.not_lt_zero j)) hnonempty
  split at h
  · next hnone =>
    obtain rfl := Except.error.inj h
    have hnot : g.entry ∉ g.nodes := by
      rw [← exists_position?_iff, hnone]
      simp
    exact ⟨.unknownEntry hnot, fun e' => le_stage_of_fault hmeets⟩
  next start hstart =>
  have hmeets := Flow.meets_lt_succ hmeets ((exists_position?_iff _ _).1 ⟨start, hstart⟩)
  rcases bind_eq_error_iff.1 h with hlinks | ⟨linked, hlinked, h⟩
  · obtain ⟨link, hfirst, rfl⟩ := links_eq_error hlinks
    exact ⟨.danglingEdge link hfirst, fun e' => le_stage_of_fault hmeets⟩
  have hmeets := Flow.meets_lt_succ hmeets (far_mem_of_links hlinked)
  dsimp only at h
  split at h
  · next n hunseen =>
    obtain rfl := Except.error.inj h
    obtain ⟨occurrence, hfirst, rfl⟩ := firstUnseen?_eq_some hlinked hstart hunseen
    exact ⟨.unreachable occurrence hfirst, fun e' => le_stage_of_fault hmeets⟩
  next hseen =>
  have hmeets := Flow.meets_lt_succ hmeets (not_stray_of_firstUnseen? hlinked hstart hseen)
  rcases bind_eq_error_iff.1 h with heffects | ⟨_, _, hok⟩
  · obtain ⟨n, hfirst, rfl⟩ := effectsOf_eq_error heffects
    exact ⟨.missingSite n hfirst, fun e' => le_stage_of_fault hmeets⟩
  · simp at hok

/-- A flow graph that is accepted can be analysed. -/
theorem analysable_of_ofFlow {p : Problem N} (h : ofFlow g = .ok p) : g.Analysable := by
  rw [ofFlow] at h
  split at h
  · simp at h
  next hnonempty =>
  split at h
  · simp at h
  next start hstart =>
  obtain ⟨linked, hlinked, h⟩ := bind_eq_ok_iff.1 h
  dsimp only at h
  split at h
  · simp at h
  next hseen =>
  obtain ⟨⟨effects, sites⟩, heffects, _⟩ := bind_eq_ok_iff.1 h
  have hreach := Flow.forall_not_stray_iff.1 (not_stray_of_firstUnseen? hlinked hstart hseen)
  have hfar := Flow.far_mem_iff.1 (far_mem_of_links hlinked)
  exact {
    nonempty := by rwa [List.isEmpty_iff] at hnonempty
    nodup := hreach.1
    entry_mem := (exists_position?_iff _ _).1 ⟨start, hstart⟩
    preds_mem := hfar.1
    succs_mem := hfar.2
    reachable := hreach.2
    sites := site_of_effectsOf heffects }

/-- A flow graph that can be analysed is accepted. -/
theorem exists_ofFlow (hg : g.Analysable) : ∃ p, ofFlow g = .ok p := by
  cases h : ofFlow g with
  | ok p => exact ⟨p, rfl⟩
  | error e => exact absurd (fault_of_ofFlow h).1 (not_fault_of_analysable hg e)

/-- A flow graph is accepted exactly when it can be analysed, and otherwise the failure reported is
its fault of the earliest stage. -/
theorem ofFlow_accepts_analysable (g : Flow N) :
    ((∃ p, ofFlow g = .ok p) ↔ g.Analysable) ∧
      ∀ e, ofFlow g = .error e ↔ g.Fault e ∧ ∀ e', g.Fault e' → e.stage ≤ e'.stage := by
  constructor
  · constructor
    · intro h
      obtain ⟨p, hp⟩ := h
      exact analysable_of_ofFlow hp
    · exact exists_ofFlow
  · intro e
    constructor
    · exact fault_of_ofFlow
    · intro h
      obtain ⟨hfault, hfirst⟩ := h
      cases hresult : ofFlow g with
      | ok p => exact absurd hfault (not_fault_of_analysable (analysable_of_ofFlow hresult) e)
      | error e₀ =>
        -- both failures are faults of the earliest stage
        obtain ⟨hfault₀, hfirst₀⟩ := fault_of_ofFlow hresult
        have hstage := Nat.le_antisymm (hfirst₀ e hfault) (hfirst e₀ hfault₀)
        rw [fault_unique hfault₀ hfault hstage]

end Problem

end Analysis

end MayAlias
