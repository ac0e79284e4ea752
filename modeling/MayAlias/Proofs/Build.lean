import Mathlib.Data.List.Induction
import MayAlias.Proofs.Cfg

/-!
# The graph of a description

Edges are added in the order of the description, up to the first that leaves the statements.  When
all of them stay inside, the graph has exactly the links that the description lists, or those of
falling through when it lists none, and both directions of its links are read off the same pairs.
Falling through can be had in three ways, which all make the same graph: by listing no edges, by
listing every pair of neighbours, and by adding one statement after the other.
-/

namespace MayAlias

/-! ## What a description says -/

namespace Procedure

variable (p : Procedure)

/-- The edges that are written down. -/
def listedEdges : List (UInt64 × UInt64) := p.edges.getD []

/-- The edge leads from a statement to a statement. -/
def InRange (edge : UInt64 × UInt64) : Prop :=
  edge.1.toNat < p.statements.length ∧ edge.2.toNat < p.statements.length

instance (edge : UInt64 × UInt64) : Decidable (p.InRange edge) :=
  inferInstanceAs (Decidable (_ ∧ _))

/-- Control may pass from statement `i` to statement `j`. -/
def Flows (i j : ℕ) : Prop :=
  match p.edges with
  | some edges => ∃ edge ∈ edges, edge.1.toNat = i ∧ edge.2.toNat = j
  | none => j = i + 1 ∧ j < p.statements.length

/-- The links of a description by the numbers of the statements. -/
def links : List (ℕ × ℕ) :=
  match p.edges with
  | some edges => edges.map fun edge => (edge.1.toNat, edge.2.toNat)
  | none => Cfg.consecutive p.statements.length

/-- The links of a description are the pairs between which control passes. -/
lemma mem_links {i j : ℕ} : (i, j) ∈ p.links ↔ p.Flows i j := by
  unfold links Flows
  cases p.edges with
  | none => exact Cfg.mem_consecutive
  | some edges => simp [List.mem_map]

end Procedure

namespace Cfg

/-- The graph `g` is the one that the description `p` speaks of. -/
structure Realises (g : Cfg) (p : Procedure) : Prop where
  name : g.name = p.name.getD "anonymous"
  nodes : g.toFlow.nodes = List.range p.statements.length
  stmt : ∀ i (hi : i < p.statements.length), g.toFlow.stmt i = p.statements[i]
  succs_ascending : ∀ i, (g.toFlow.succs i).Pairwise (· < ·)
  mem_succs : ∀ i j, j ∈ g.toFlow.succs i ↔ p.Flows i j
  preds_ascending : ∀ j, (g.toFlow.preds j).Pairwise (· < ·)
  mem_preds : ∀ i j, i ∈ g.toFlow.preds j ↔ p.Flows i j
  entry : g.toFlow.entry = (p.entry.map UInt64.toNat).getD 0

/-! ## Adding the edges of a description -/

lemma size_pushAll_new (name : String) (stmts : List Statement) :
    ((new name).pushAll stmts).size = stmts.length := by
  unfold size
  rw [← Array.length_toList, toList_stmts_pushAll]
  rfl

lemma size_linkAll (g : Cfg) (edges : List (ℕ × ℕ)) : (g.linkAll edges).size = g.size := by
  unfold size
  rw [stmts_linkAll]

lemma name_pushAll (g : Cfg) (stmts : List Statement) : (g.pushAll stmts).name = g.name := by
  unfold pushAll
  induction stmts generalizing g with
  | nil => rfl
  | cons s stmts ih => exact ih (g.push s)

lemma name_linkAll (g : Cfg) (edges : List (ℕ × ℕ)) : (g.linkAll edges).name = g.name := by
  induction edges generalizing g with
  | nil => rfl
  | cons edge edges ih =>
    refine (ih (g.link edge.1 edge.2)).trans ?_
    unfold link
    split <;> rfl

/-- Edges between nodes are added one after the other. -/
lemma linkDescribed_append {g : Cfg} {before : List (UInt64 × UInt64)}
    (hbefore : ∀ edge ∈ before, edge.1.toNat < g.size ∧ edge.2.toNat < g.size)
    (rest : List (UInt64 × UInt64)) :
    g.linkDescribed (before ++ rest) =
      (g.linkAll (before.map fun edge => (edge.1.toNat, edge.2.toNat))).linkDescribed rest := by
  induction before generalizing g with
  | nil => rfl
  | cons edge before ih =>
    obtain ⟨hedge, hbefore⟩ := List.forall_mem_cons.1 hbefore
    have hsize : (g.link edge.1.toNat edge.2.toNat).size = g.size :=
      congrArg Array.size (stmts_link g _ _)
    rw [List.cons_append, linkDescribed, if_pos hedge, ih (by rwa [hsize])]
    rfl

section Build

variable (p : Procedure)

/-- The graph of a description before an entry is chosen. -/
def linked : Cfg := ((new (p.name.getD defaultName)).pushAll p.statements).linkAll p.links

/-- Links add no statements. -/
lemma size_linked : (linked p).size = p.statements.length := by
  unfold linked
  rw [size_linkAll, size_pushAll_new]

lemma build_eq : build p =
    ((new (p.name.getD defaultName)).pushAll p.statements).linkFlow p.edges >>=
      fun g => g.chooseEntry p.entry := rfl

/-- The first edge that leaves the statements is reported. -/
lemma build_of_outOfRange {before behind : List (UInt64 × UInt64)} {edge : UInt64 × UInt64}
    (hedges : p.edges = some (before ++ edge :: behind))
    (hbefore : ∀ edge ∈ before, p.InRange edge) (hedge : ¬ p.InRange edge) :
    build p = .error (.edgeOutOfRange edge.1 edge.2 p.statements.length) := by
  have hsize := size_pushAll_new (p.name.getD defaultName) p.statements
  unfold Procedure.InRange at hbefore hedge
  rw [build_eq, hedges, linkFlow, linkDescribed_append (by rwa [hsize]), linkDescribed,
    size_linkAll, hsize, if_neg hedge]
  rfl

/-- When all edges stay inside, only the entry is left to check. -/
lemma build_of_inRange (hedges : ∀ edge ∈ p.listedEdges, p.InRange edge) :
    build p = (linked p).chooseEntry p.entry := by
  have hsize := size_pushAll_new (p.name.getD defaultName) p.statements
  have hflow : ((new (p.name.getD defaultName)).pushAll p.statements).linkFlow p.edges
      = .ok (linked p) := by
    unfold linked Procedure.links
    -- without a list of edges there is nothing to check
    cases hcase : p.edges with
    | none => rw [linkFlow, hsize]
    | some edges =>
      unfold Procedure.listedEdges Procedure.InRange at hedges
      simp only [hcase, Option.getD_some] at hedges
      have happend := linkDescribed_append (by rwa [hsize]) []
      rwa [List.append_nil] at happend
  rw [build_eq, hflow]
  rfl

/-- Either all edges stay inside, or one of them is the first that does not. -/
lemma inRange_or_first :
    (∀ edge ∈ p.listedEdges, p.InRange edge) ∨
      ∃ before edge behind, p.edges = some (before ++ edge :: behind) ∧
        (∀ edge ∈ before, p.InRange edge) ∧ ¬ p.InRange edge := by
  cases hfind : p.listedEdges.find? (fun edge => !decide (p.InRange edge)) with
  | none =>
    left
    simpa using hfind
  | some edge =>
    right
    obtain ⟨hedge, before, behind, hlisted, hbefore⟩ := List.find?_eq_some_iff_append.1 hfind
    refine ⟨before, edge, behind, ?_, by simpa using hbefore, by simpa using hedge⟩
    cases hcase : p.edges with
    | none => simp [Procedure.listedEdges, hcase] at hlisted
    | some edges => rw [← hlisted, Procedure.listedEdges, hcase, Option.getD_some]

/-- When all edges stay inside, only an entry that does not is reported. -/
lemma build_eq_error_of_inRange (hedges : ∀ edge ∈ p.listedEdges, p.InRange edge)
    {e : BuildError} :
    build p = .error e ↔ ∃ entry, p.entry = some entry ∧ p.statements.length ≤ entry.toNat ∧
      e = .entryOutOfRange entry p.statements.length := by
  rw [build_of_inRange p hedges]
  cases hentry : p.entry with
  | none => simp [chooseEntry]
  | some entry =>
    rw [chooseEntry, size_linked]
    split
    · next hlt => simp [Nat.not_le.2 hlt]
    · next hge => simp [Nat.not_lt.1 hge, eq_comm]

/-- An edge is reported when it is the first that leaves the statements. -/
lemma build_eq_edgeOutOfRange_iff {source target : UInt64} {size : ℕ} :
    build p = .error (.edgeOutOfRange source target size) ↔ size = p.statements.length ∧
      ∃ before behind, p.edges = some (before ++ (source, target) :: behind) ∧
        (∀ edge ∈ before, p.InRange edge) ∧ ¬ p.InRange (source, target) := by
  constructor
  · intro h
    -- if all edges stay inside, only an entry can be reported
    rcases inRange_or_first p with hedges | ⟨before, edge, behind, hedges, hbefore, hedge⟩
    · obtain ⟨_, _, _, he⟩ := (build_eq_error_of_inRange p hedges).1 h
      simp at he
    · rw [build_of_outOfRange p hedges hbefore hedge] at h
      obtain ⟨rfl, rfl, rfl⟩ := BuildError.edgeOutOfRange.inj (Except.error.inj h)
      exact ⟨rfl, before, behind, hedges, hbefore, hedge⟩
  · intro h
    obtain ⟨rfl, before, behind, hedges, hbefore, hedge⟩ := h
    exact build_of_outOfRange p hedges hbefore hedge

/-- An entry is reported when all edges stay inside and it does not. -/
lemma build_eq_entryOutOfRange_iff {entry : UInt64} {size : ℕ} :
    build p = .error (.entryOutOfRange entry size) ↔ size = p.statements.length ∧
      (∀ edge ∈ p.listedEdges, p.InRange edge) ∧ p.entry = some entry ∧
        p.statements.length ≤ entry.toNat := by
  constructor
  · intro h
    rcases inRange_or_first p with hedges | ⟨before, edge, behind, hedges, hbefore, hedge⟩
    · obtain ⟨_, hentry, hle, he⟩ := (build_eq_error_of_inRange p hedges).1 h
      obtain ⟨rfl, rfl⟩ := BuildError.entryOutOfRange.inj he
      exact ⟨rfl, hedges, hentry, hle⟩
    · rw [build_of_outOfRange p hedges hbefore hedge] at h
      simp at h
  · intro h
    obtain ⟨rfl, hedges, hentry, hle⟩ := h
    exact (build_eq_error_of_inRange p hedges).2 ⟨entry, hentry, hle, rfl⟩

/-- The graph of a description with all edges and the entry between the statements. -/
lemma build_eq_ok (hedges : ∀ edge ∈ p.listedEdges, p.InRange edge)
    (hentry : ∀ entry ∈ p.entry, entry.toNat < p.statements.length) :
    build p = .ok ((p.entry.map fun entry => (linked p).startAt entry.toNat).getD (linked p)) := by
  rw [build_of_inRange p hedges]
  cases hcase : p.entry with
  | none => rfl
  | some entry =>
    rw [chooseEntry, size_linked, if_pos (hentry entry hcase)]
    rfl

/-- Without anything to report, all edges and the entry are between the statements. -/
lemma inRange_of_build {g : Cfg} (h : build p = .ok g) :
    (∀ edge ∈ p.listedEdges, p.InRange edge) ∧
      ∀ entry ∈ p.entry, entry.toNat < p.statements.length := by
  have hedges : ∀ edge ∈ p.listedEdges, p.InRange edge := by
    rcases inRange_or_first p with hedges | ⟨before, edge, behind, hedges, hbefore, hedge⟩
    · exact hedges
    · simp [build_of_outOfRange p hedges hbefore hedge] at h
  refine ⟨hedges, fun entry hentry => ?_⟩
  -- an entry outside would have been reported
  by_contra hge
  have herror := (build_eq_error_of_inRange p hedges).2 ⟨entry, hentry, Nat.not_lt.1 hge, rfl⟩
  simp [herror] at h

end Build

/-! ## The graph that is built -/

/-- Edges that a description lists twice are one link. -/
lemma nodup_edges_linked (p : Procedure) : (linked p).edges.Nodup := by
  apply nodup_edges_linkAll
  rw [edges_pushAll]
  exact List.nodup_nil

/-- Up to its entry, the graph of a description is read off its parts. -/
lemma realises_of_parts {p : Procedure} {g : Cfg} (hname : g.name = (linked p).name)
    (hstmts : g.stmts = (linked p).stmts) (hlinks : g.edges = (linked p).edges)
    (hentry : g.entry = (p.entry.map UInt64.toNat).getD 0) : g.Realises p := by
  have hsize : g.size = p.statements.length := (congrArg Array.size hstmts).trans (size_linked p)
  have hmem : ∀ i j, (i, j) ∈ g.edges ↔ p.Flows i j := by
    intro i j
    rw [hlinks, linked, mem_edges_linkAll, edges_pushAll, Procedure.mem_links]
    simp [new]
  have hnodup : g.edges.Nodup := hlinks ▸ nodup_edges_linked p
  exact {
    name := by
      rw [hname, linked, name_linkAll, name_pushAll]
      rfl
    nodes := congrArg List.range hsize
    stmt := by
      intro i hi
      have hlist : g.stmts.toList = p.statements := by
        rw [hstmts, linked, stmts_linkAll, toList_stmts_pushAll]
        rfl
      show (g.stmt? i).getD .other = _
      rw [stmt?, ← Array.getElem?_toList, hlist, List.getElem?_eq_getElem hi, Option.getD_some]
    succs_ascending := pairwise_succs hnodup
    mem_succs := fun i j => Cfg.mem_succs.trans (hmem i j)
    preds_ascending := pairwise_preds hnodup
    mem_preds := fun i j => Cfg.mem_preds.trans (hmem i j)
    entry := hentry }

/-- Without a choice, the first statement is the entry. -/
lemma entry_linked (p : Procedure) : (linked p).entry = 0 := by
  have hfirst := entry_pushAll_new (p.name.getD defaultName) p.statements
  unfold entry at hfirst ⊢
  rw [linked, entry?_linkAll, hfirst]

/-- What is built is what the description speaks of. -/
lemma realises_of_build {p : Procedure} {g : Cfg} (h : build p = .ok g) : g.Realises p := by
  obtain ⟨hedges, hentry⟩ := inRange_of_build p h
  -- the graph is `linked p`, with another entry if one is given
  obtain rfl := Except.ok.inj (h.symm.trans (build_eq_ok p hedges hentry))
  cases hcase : p.entry with
  | none => exact realises_of_parts rfl rfl rfl (by rw [hcase]; exact entry_linked p)
  | some entry => exact realises_of_parts rfl rfl rfl (by rw [hcase]; rfl)

/-! ## Falling through -/

/-- Adds a statement, to which the one before it falls through if there is one. -/
def follow (g : Cfg) (s : Statement) : Cfg :=
  if g.isEmpty then g.push s else (g.push s).link (g.size - 1) g.size

/-- A link may be added before or after a statement. -/
lemma link_push (g : Cfg) (s : Statement) (source target : ℕ) :
    (g.push s).link source target = (g.link source target).push s := by
  unfold link push
  split <;> rfl

/-- So may any number of links. -/
lemma linkAll_push (g : Cfg) (s : Statement) (edges : List (ℕ × ℕ)) :
    (g.push s).linkAll edges = (g.linkAll edges).push s := by
  induction edges generalizing g with
  | nil => rfl
  | cons edge edges ih =>
    show ((g.push s).link edge.1 edge.2).linkAll edges
      = ((g.link edge.1 edge.2).linkAll edges).push s
    rw [link_push, ih]

/-- One more node has one more link, from the node before it. -/
lemma consecutive_succ {n : ℕ} (hn : n ≠ 0) :
    consecutive (n + 1) = consecutive n ++ [(n - 1, n)] := by
  obtain ⟨n, rfl⟩ := Nat.exists_eq_succ_of_ne_zero hn
  simp [consecutive, List.range_succ]

/-- One more statement is linked to the last one. -/
lemma ofStatements_concat (name : String) (stmts : List Statement) (s : Statement) :
    ofStatements name (stmts ++ [s]) = (ofStatements name stmts).follow s := by
  have hpush : (new name).pushAll (stmts ++ [s]) = ((new name).pushAll stmts).push s := by
    unfold pushAll
    rw [List.foldl_append, List.foldl_cons, List.foldl_nil]
  unfold follow isEmpty
  rw [size_ofStatements]
  unfold ofStatements
  -- the new statement can as well be pushed after the links between the old ones
  rw [hpush, linkAll_push, List.length_append, List.length_singleton]
  by_cases hn : stmts.length = 0
  · simp [hn, consecutive, linkAll]
  · rw [consecutive_succ hn, if_neg (by simpa using hn), link_push]
    unfold linkAll
    rw [List.foldl_append, List.foldl_cons, List.foldl_nil]

/-- A procedure that falls through is made by adding one statement after the other. -/
lemma ofStatements_eq_foldl (name : String) (stmts : List Statement) :
    ofStatements name stmts = stmts.foldl follow (new name) := by
  induction stmts using List.reverseRecOn with
  | nil => rfl
  | append_singleton stmts s ih =>
    rw [ofStatements_concat, ih, List.foldl_append, List.foldl_cons, List.foldl_nil]

section FallThrough

variable {p : Procedure} (hnone : p.edges = none)

include hnone

lemma inRange_of_edges_none : ∀ edge ∈ p.listedEdges, p.InRange edge := by
  simp [Procedure.listedEdges, hnone]

/-- Without listed edges, the statements fall through. -/
lemma linked_of_edges_none : linked p = ofStatements (p.name.getD defaultName) p.statements := by
  unfold linked Procedure.links ofStatements
  rw [hnone]

/-- Listing every pair of neighbours makes the graph of falling through. -/
lemma build_consecutive {edges : List (UInt64 × UInt64)}
    (hedges : edges.map (fun edge => (edge.1.toNat, edge.2.toNat))
      = consecutive p.statements.length) :
    build { p with edges := some edges } = build p := by
  -- neighbours are statements, so no edge is out of range
  have hrange : ∀ edge ∈ edges, p.InRange edge := by
    intro edge hedge
    have hmem := hedges ▸ List.mem_map_of_mem hedge
    have hpair := mem_consecutive.1 hmem
    unfold Procedure.InRange
    omega
  rw [build_of_inRange p (inRange_of_edges_none hnone),
    build_of_inRange { p with edges := some edges } hrange, linked_of_edges_none hnone]
  unfold linked Procedure.links ofStatements
  dsimp only
  rw [hedges]

end FallThrough

/-! ## Descriptions and their graphs -/

/-- Building reports the first edge that leaves the statements, then an entry that does, and
otherwise makes the graph that the description speaks of.  A description without edges has the graph
of one that lists every pair of neighbours, which is that of its statements falling through, added
one after the other. -/
theorem build_realises_description (p : Procedure) :
    (∀ source target size, build p = .error (.edgeOutOfRange source target size) ↔
      size = p.statements.length ∧
        ∃ before behind, p.edges = some (before ++ (source, target) :: behind) ∧
          (∀ edge ∈ before, p.InRange edge) ∧ ¬ p.InRange (source, target)) ∧
    (∀ entry size, build p = .error (.entryOutOfRange entry size) ↔
      size = p.statements.length ∧ (∀ edge ∈ p.listedEdges, p.InRange edge) ∧
        p.entry = some entry ∧ p.statements.length ≤ entry.toNat) ∧
    ((∃ g, build p = .ok g) ↔ (∀ edge ∈ p.listedEdges, p.InRange edge) ∧
      ∀ entry ∈ p.entry, entry.toNat < p.statements.length) ∧
    (∀ g, build p = .ok g → g.Realises p ∧
      ∀ i j, j ∈ g.toFlow.succs i ↔ i ∈ g.toFlow.preds j) ∧
    (p.edges = none →
      (∀ edges : List (UInt64 × UInt64), edges.map (fun edge => (edge.1.toNat, edge.2.toNat))
          = consecutive p.statements.length → build { p with edges := some edges } = build p) ∧
      (p.entry = none → build p = .ok (ofStatements (p.name.getD "anonymous") p.statements)) ∧
      (∀ entry, p.entry = some entry → entry.toNat < p.statements.length → build p
        = .ok ((ofStatements (p.name.getD "anonymous") p.statements).startAt entry.toNat))) ∧
    ∀ name, ofStatements name p.statements = p.statements.foldl follow (new name) := by
  refine ⟨fun _ _ _ => build_eq_edgeOutOfRange_iff p, fun _ _ => build_eq_entryOutOfRange_iff p,
    ?_, ?_, ?_, fun name => ofStatements_eq_foldl name p.statements⟩
  · constructor
    · intro h
      obtain ⟨g, hg⟩ := h
      exact inRange_of_build p hg
    · intro h
      exact ⟨_, build_eq_ok p h.1 h.2⟩
  · intro g hg
    have hreal := realises_of_build hg
    exact ⟨hreal, fun i j => (hreal.mem_succs i j).trans (hreal.mem_preds i j).symm⟩
  · intro hnone
    have hedges := inRange_of_edges_none hnone
    refine ⟨fun edges => build_consecutive hnone, fun hentry => ?_, fun entry hentry hlt => ?_⟩
    · rw [build_eq_ok p hedges (by simp [hentry]), linked_of_edges_none hnone, hentry]
      rfl
    · rw [build_eq_ok p hedges (by simpa [hentry] using hlt), linked_of_edges_none hnone, hentry]
      rfl

/-- Two ways from the first statement to the last; the edges are out of order and one is listed
twice. -/
def diamond : Procedure where
  name := some "diamond"
  entry := none
  statements := [.other, .other, .other, .other]
  edges := some [(0, 2), (0, 1), (0, 1), (2, 3), (1, 3)]

/-- Each end of `diamond` has its two neighbours once, in order.  Of several numbers that leave it
the first edge is reported, and the entry only when there is no such edge. -/
theorem build_realises_diamond :
    (∃ g, build diamond = .ok g ∧ g.Realises diamond ∧ g.toFlow.succs 0 = [1, 2] ∧
      g.toFlow.preds 3 = [1, 2]) ∧
    build { diamond with edges := some [(0, 1), (0, 4), (9, 9)], entry := some 7 }
      = .error (.edgeOutOfRange 0 4 4) ∧
    build { diamond with entry := some 4 } = .error (.entryOutOfRange 4 4) ∧
    build { diamond with edges := some [(0, 1), (1, 2), (2, 3)] }
      = .ok (ofStatements "diamond" [.other, .other, .other, .other]) := by
  refine ⟨?_, ?_, ?_, ?_⟩
  · obtain ⟨_, _, hok, hreal, _⟩ := build_realises_description diamond
    obtain ⟨g, hg⟩ := hok.2 (by simp [diamond, Procedure.listedEdges, Procedure.InRange])
    have hlinks : (build diamond).toOption.map (fun g => (g.toFlow.succs 0, g.toFlow.preds 3))
        = some ([1, 2], [1, 2]) := by decide +kernel
    rw [hg] at hlinks
    obtain ⟨hsuccs, hpreds⟩ := Prod.mk.inj (Option.some.inj hlinks)
    exact ⟨g, hg, (hreal g hg).1, hsuccs, hpreds⟩
  · obtain ⟨hedge, _⟩ := build_realises_description
      { diamond with edges := some [(0, 1), (0, 4), (9, 9)], entry := some 7 }
    exact (hedge 0 4 4).2 ⟨rfl, [(0, 1)], [(9, 9)], rfl, by simp [diamond, Procedure.InRange],
      by simp [diamond, Procedure.InRange]⟩
  · obtain ⟨_, hentry, _⟩ := build_realises_description { diamond with entry := some 4 }
    exact (hentry 4 4).2 ⟨rfl, by simp [diamond, Procedure.listedEdges, Procedure.InRange],
      rfl, by simp [diamond]⟩
  · obtain ⟨_, _, _, _, hthrough, _⟩ := build_realises_description { diamond with edges := none }
    obtain ⟨hexplicit, hstraight, _⟩ := hthrough rfl
    exact (hexplicit [(0, 1), (1, 2), (2, 3)] (by decide)).trans (hstraight rfl)

end Cfg

end MayAlias
