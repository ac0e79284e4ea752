import MayAlias.Cfg
import MayAlias.Proofs.Acceptance
import MayAlias.Proofs.Sorting

/-!
# Control-flow graphs

Adding statements appends them and keeps the links; adding links keeps the statements, and a link is
there when it was or is one of those added, but never twice.  What leads to a node and what follows
it is read off the links, and it ascends strictly because no link is there twice.  A procedure in
which every statement falls through to the next has the links of consecutive nodes, and it can be
analysed once it has a statement and all its allocations have sites.
-/

namespace MayAlias.Cfg

/-! ## Adding statements -/

/-- Statements are appended in the order in which they are given. -/
lemma toList_stmts_pushAll (g : Cfg) (stmts : List Statement) :
    (g.pushAll stmts).stmts.toList = g.stmts.toList ++ stmts := by
  unfold pushAll
  induction stmts generalizing g with
  | nil => rw [List.foldl_nil, List.append_nil]
  | cons s stmts ih =>
    rw [List.foldl_cons, ih]
    simp [push]

/-- Adding statements adds no links. -/
lemma edges_pushAll (g : Cfg) (stmts : List Statement) : (g.pushAll stmts).edges = g.edges := by
  unfold pushAll
  induction stmts generalizing g with
  | nil => rfl
  | cons s stmts ih =>
    rw [List.foldl_cons, ih]
    rfl

/-- An entry once chosen stays. -/
lemma entry?_pushAll {g : Cfg} {n : ℕ} (h : g.entry? = some n) (stmts : List Statement) :
    entry? (g.pushAll stmts) = some n := by
  unfold pushAll
  induction stmts generalizing g with
  | nil => exact h
  | cons s stmts ih =>
    apply ih
    -- the node added becomes the entry only if there was none
    show some (g.entry?.getD g.size) = some n
    rw [h, Option.getD_some]

/-- The first statement is the entry. -/
lemma entry_pushAll_new (name : String) (stmts : List Statement) :
    ((new name).pushAll stmts).entry = 0 := by
  cases stmts with
  | nil => rfl
  | cons s stmts =>
    have hfirst : entry? ((new name).push s) = some 0 := rfl
    have hall : entry? ((new name).pushAll (s :: stmts)) = some 0 := entry?_pushAll hfirst stmts
    unfold entry
    rw [hall, Option.getD_some]

/-! ## Adding links -/

lemma stmts_link (g : Cfg) (source target : ℕ) : (g.link source target).stmts = g.stmts := by
  unfold link
  split <;> rfl

/-- Links do not choose an entry. -/
lemma entry?_link (g : Cfg) (source target : ℕ) :
    entry? (g.link source target) = g.entry? := by
  unfold link
  split <;> rfl

/-- A link is there if it was there or is the one added. -/
lemma mem_edges_link (g : Cfg) (source target : ℕ) (e : ℕ × ℕ) :
    e ∈ (g.link source target).edges ↔ e ∈ g.edges ∨ e = (source, target) := by
  unfold link
  split
  · next hmem =>
    have hpresent : (source, target) ∈ g.edges := List.contains_iff_mem.1 hmem
    constructor
    · exact Or.inl
    · rintro (he | rfl)
      · exact he
      · exact hpresent
  · show e ∈ g.edges ++ [(source, target)] ↔ _
    rw [List.mem_append, List.mem_singleton]

/-- No link is added twice. -/
lemma nodup_edges_link {g : Cfg} (hg : g.edges.Nodup) (source target : ℕ) :
    (g.link source target).edges.Nodup := by
  unfold link
  split
  · exact hg
  -- a link is appended only if it is not there yet
  · next hnew =>
    have hnotMem : (source, target) ∉ g.edges := fun h => hnew (List.contains_iff_mem.2 h)
    show (g.edges ++ [(source, target)]).Nodup
    rw [← List.concat_eq_append]
    exact hg.concat hnotMem

/-- Adding links one after the other keeps the statements. -/
lemma stmts_linkAll (g : Cfg) (edges : List (ℕ × ℕ)) : (g.linkAll edges).stmts = g.stmts := by
  induction edges generalizing g with
  | nil => rfl
  | cons edge edges ih => exact (ih (g.link edge.1 edge.2)).trans (stmts_link g _ _)

lemma entry?_linkAll (g : Cfg) (edges : List (ℕ × ℕ)) :
    entry? (g.linkAll edges) = g.entry? := by
  induction edges generalizing g with
  | nil => rfl
  | cons edge edges ih => exact (ih (g.link edge.1 edge.2)).trans (entry?_link g _ _)

/-- The links are the old ones and those added. -/
lemma mem_edges_linkAll (g : Cfg) (edges : List (ℕ × ℕ)) (e : ℕ × ℕ) :
    e ∈ (g.linkAll edges).edges ↔ e ∈ g.edges ∨ e ∈ edges := by
  induction edges generalizing g with
  | nil => simp [linkAll]
  | cons edge edges ih =>
    refine (ih (g.link edge.1 edge.2)).trans ?_
    rw [mem_edges_link, List.mem_cons, or_assoc]

/-- No link is there twice, even if it is given twice. -/
lemma nodup_edges_linkAll {g : Cfg} (hg : g.edges.Nodup) (edges : List (ℕ × ℕ)) :
    (g.linkAll edges).edges.Nodup := by
  induction edges generalizing g with
  | nil => exact hg
  | cons edge edges ih => exact ih (nodup_edges_link hg edge.1 edge.2)

/-! ## Following links -/

lemma mem_ascending {nodes : List ℕ} {n : ℕ} : n ∈ ascending nodes ↔ n ∈ nodes := mem_sortBy _ _

/-- The nodes behind `n` are the targets of its links. -/
lemma mem_succs {g : Cfg} {n m : ℕ} : m ∈ g.succs n ↔ (n, m) ∈ g.edges := by
  unfold succs
  rw [mem_ascending]
  simp

/-- The nodes before `n` are the sources of the links to it. -/
lemma mem_preds {g : Cfg} {n m : ℕ} : m ∈ g.preds n ↔ (m, n) ∈ g.edges := by
  unfold preds
  rw [mem_ascending]
  simp

/-- The far ends of the links at one node ascend strictly.  Both ends together tell a link from all
others, so links that share the near end differ in the far one. -/
lemma pairwise_ascending {g : Cfg} (hg : g.edges.Nodup) {near far : ℕ × ℕ → ℕ}
    (hends : ∀ e e', near e = near e' → far e = far e' → e = e') (n : ℕ) :
    (ascending ((g.edges.filter fun e => near e == n).map far)).Pairwise (· < ·) := by
  -- links at `n` that share the far end are equal
  have hnodup : ((g.edges.filter fun e => near e == n).map far).Nodup := by
    apply (hg.filter _).map_on
    intro e he e' he' hfar
    rw [List.mem_filter, beq_iff_eq] at he he'
    exact hends e e' (he.2.trans he'.2.symm) hfar
  have hle : ∀ a b : ℕ, decide (a ≤ b) = true ↔ id a ≤ id b := fun a b => decide_eq_true_iff
  exact sortBy_ascends hle (by rwa [List.map_id])

/-- The nodes behind a node ascend strictly. -/
lemma pairwise_succs {g : Cfg} (hg : g.edges.Nodup) (n : ℕ) : (g.succs n).Pairwise (· < ·) :=
  pairwise_ascending hg (fun _ _ => Prod.ext) n

/-- The nodes before a node ascend strictly. -/
lemma pairwise_preds {g : Cfg} (hg : g.edges.Nodup) (n : ℕ) : (g.preds n).Pairwise (· < ·) :=
  pairwise_ascending hg (fun _ _ htarget hsource => Prod.ext hsource htarget) n

/-! ## Falling through -/

/-- The links of `n` consecutive nodes lead from each but the last to the next. -/
lemma mem_consecutive {n : ℕ} {e : ℕ × ℕ} : e ∈ consecutive n ↔ e.2 = e.1 + 1 ∧ e.2 < n := by
  obtain ⟨source, target⟩ := e
  simp only [consecutive, List.mem_map, List.mem_range, Prod.mk.injEq]
  constructor
  · intro h
    obtain ⟨i, hi, rfl, rfl⟩ := h
    exact ⟨rfl, by omega⟩
  · intro h
    exact ⟨source, by omega, rfl, h.1.symm⟩

section OfStatements

variable (name : String) (stmts : List Statement)

/-- The statements of the procedure are those given, in order. -/
lemma toList_stmts_ofStatements : (ofStatements name stmts).stmts.toList = stmts := by
  unfold ofStatements
  rw [stmts_linkAll, toList_stmts_pushAll]
  rfl

lemma size_ofStatements : (ofStatements name stmts).size = stmts.length := by
  unfold size
  rw [← Array.length_toList, toList_stmts_ofStatements]

lemma stmt?_ofStatements (n : ℕ) : (ofStatements name stmts).stmt? n = stmts[n]? := by
  unfold stmt?
  rw [← Array.getElem?_toList, toList_stmts_ofStatements]

/-- The procedure is entered at its first statement. -/
lemma entry_ofStatements : (ofStatements name stmts).entry = 0 := by
  have hentry := entry_pushAll_new name stmts
  unfold entry at hentry ⊢
  unfold ofStatements
  rw [entry?_linkAll, hentry]

/-- Each statement but the last is linked to the next, and there are no other links. -/
lemma mem_edges_ofStatements (e : ℕ × ℕ) :
    e ∈ (ofStatements name stmts).edges ↔ e.2 = e.1 + 1 ∧ e.2 < stmts.length := by
  unfold ofStatements
  rw [mem_edges_linkAll, edges_pushAll, mem_consecutive]
  simp [new]

/-- Only the statement before leads to a statement. -/
lemma mem_preds_ofStatements {n m : ℕ} :
    m ∈ (ofStatements name stmts).preds n ↔ n = m + 1 ∧ n < stmts.length := by
  rw [mem_preds, mem_edges_ofStatements]

/-- A statement leads to the next one only. -/
lemma mem_succs_ofStatements {n m : ℕ} :
    m ∈ (ofStatements name stmts).succs n ↔ m = n + 1 ∧ m < stmts.length := by
  rw [mem_succs, mem_edges_ofStatements]

/-- The nodes are the places of the statements. -/
lemma nodes_ofStatements : (ofStatements name stmts).toFlow.nodes = List.range stmts.length := by
  show List.range (ofStatements name stmts).size = _
  rw [size_ofStatements]

lemma mem_nodes_ofStatements {n : ℕ} :
    n ∈ (ofStatements name stmts).toFlow.nodes ↔ n < stmts.length := by
  rw [nodes_ofStatements, List.mem_range]

/-- The statement at a node, as the analysis sees it. -/
lemma stmt_ofStatements {n : ℕ} (hn : n < stmts.length) :
    (ofStatements name stmts).toFlow.stmt n = stmts[n] := by
  show ((ofStatements name stmts).stmt? n).getD .other = _
  rw [stmt?_ofStatements, List.getElem?_eq_getElem hn, Option.getD_some]

/-- The analysis sees the statements in the order in which they are given. -/
lemma map_stmt_ofStatements :
    (ofStatements name stmts).toFlow.nodes.map (ofStatements name stmts).toFlow.stmt = stmts := by
  rw [nodes_ofStatements]
  apply List.ext_getElem
  · rw [List.length_map, List.length_range]
  · intro i _ hi
    rw [List.getElem_map, List.getElem_range, stmt_ofStatements name stmts hi]

/-- Falling through, every node is reached. -/
lemma reachable_ofStatements {n : ℕ} (hn : n < stmts.length) :
    (ofStatements name stmts).toFlow.Reachable n := by
  induction n with
  | zero =>
    have hentry : (ofStatements name stmts).toFlow.entry = 0 := entry_ofStatements name stmts
    unfold Flow.Reachable
    rw [hentry]
  | succ n ih =>
    -- the node before falls through to this one
    apply (ih (by omega)).tail
    exact (mem_succs_ofStatements name stmts).2 ⟨rfl, hn⟩

/-- A procedure without branches can be analysed if it has a statement and its allocations have
sites. -/
lemma analysable_ofStatements (hne : stmts ≠ [])
    (hsites : ∀ s ∈ stmts, ∀ lhs, s ≠ .alloc lhs none) :
    (ofStatements name stmts).toFlow.Analysable where
  nonempty := by
    apply List.ne_nil_of_mem (a := 0)
    rw [mem_nodes_ofStatements]
    exact List.length_pos_of_ne_nil hne
  nodup := List.nodup_range
  entry_mem := by
    rw [mem_nodes_ofStatements]
    show (ofStatements name stmts).entry < _
    rw [entry_ofStatements]
    exact List.length_pos_of_ne_nil hne
  preds_mem := by
    intro n _ m hm
    rw [mem_nodes_ofStatements]
    have hlink := (mem_preds_ofStatements name stmts).1 hm
    omega
  succs_mem := by
    intro n _ m hm
    rw [mem_nodes_ofStatements]
    exact ((mem_succs_ofStatements name stmts).1 hm).2
  reachable := by
    intro n hn
    rw [mem_nodes_ofStatements] at hn
    exact reachable_ofStatements name stmts hn
  sites := by
    intro n hn lhs
    rw [mem_nodes_ofStatements] at hn
    rw [stmt_ofStatements name stmts hn]
    exact hsites _ (List.getElem_mem hn) lhs

end OfStatements

end MayAlias.Cfg
