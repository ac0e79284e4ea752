import MayAlias.Proofs.Acceptance
import MayAlias.Proofs.PassBound
import MayAlias.Proofs.Relabelling

/-!
# Independence from the program order

`Flow.Reordered` relates flow graphs that list the same nodes and links in another order.  The order
decides in which sequence nodes are visited and how sites are numbered, and for a flow graph that
is refused it decides which node the failure names.  It decides neither the kind of failure nor,
up to the numbering of the sites, the facts.

The facts of one problem are a closed assignment of the other once their objects are translated, so
the facts of the other stay within them, and this holds both ways.
-/

namespace MayAlias

/-! ## Reordered flow graphs -/

namespace Flow

variable {N : Type} {g h : Flow N}

/-- The flow graphs differ in the order of the nodes and of the links of each node only. -/
structure Reordered (g h : Flow N) : Prop where
  entry : g.entry = h.entry
  nodes : g.nodes.Perm h.nodes
  stmt : ∀ n ∈ g.nodes, g.stmt n = h.stmt n
  preds : ∀ n ∈ g.nodes, ∀ m, m ∈ g.preds n ↔ m ∈ h.preds n
  succs : ∀ n ∈ g.nodes, ∀ m, m ∈ g.succs n ↔ m ∈ h.succs n

namespace Reordered

variable (hgh : g.Reordered h)

include hgh

lemma symm : h.Reordered g where
  entry := hgh.entry.symm
  nodes := hgh.nodes.symm
  stmt n hn := (hgh.stmt n (hgh.nodes.mem_iff.2 hn)).symm
  preds n hn m := (hgh.preds n (hgh.nodes.mem_iff.2 hn) m).symm
  succs n hn m := (hgh.succs n (hgh.nodes.mem_iff.2 hn) m).symm

lemma succs_eq_nil_iff {n : N} (hn : n ∈ g.nodes) : g.succs n = [] ↔ h.succs n = [] := by
  rw [List.eq_nil_iff_forall_not_mem, List.eq_nil_iff_forall_not_mem]
  exact forall_congr' fun m => not_congr (hgh.succs n hn m)

lemma siteLabels_subset : g.siteLabels ⊆ h.siteLabels := by
  intro label hlabel
  obtain ⟨n, hn, lhs, hstmt⟩ := (g.mem_siteLabels label).1 hlabel
  rw [hgh.stmt n hn] at hstmt
  exact (h.mem_siteLabels label).2 ⟨n, hgh.nodes.mem_iff.1 hn, lhs, hstmt⟩

lemma siteLabels_eq : g.siteLabels = h.siteLabels :=
  hgh.siteLabels_subset.antisymm hgh.symm.siteLabels_subset

/-! ## The kind of failure -/

/-- As long as paths stay among the nodes, both flow graphs have the same. -/
lemma reachable (hentry : g.entry ∈ g.nodes) (hsuccs : ∀ n ∈ g.nodes, ∀ m ∈ g.succs n, m ∈ g.nodes)
    {n : N} (hn : g.Reachable n) : n ∈ g.nodes ∧ h.Reachable n := by
  induction hn with
  | refl => exact ⟨hentry, hgh.entry ▸ Relation.ReflTransGen.refl⟩
  | @tail m n _ hstep ih =>
    obtain ⟨hm, hreach⟩ := ih
    exact ⟨hsuccs m hm n hstep, hreach.tail ((hgh.succs m hm n).1 hstep)⟩

/-- A flow graph that comes as far as a check and passes it does so in any order. -/
lemma meets {k : ℕ} (hbefore : ∀ j < k, g.Meets j) (hk : g.Meets k) : h.Meets k := by
  have hmem : ∀ n, n ∈ g.nodes ↔ n ∈ h.nodes := fun n => hgh.nodes.mem_iff
  match k with
  | 0 =>
    intro hempty
    have hnodes := hgh.nodes
    rw [hempty, List.perm_nil] at hnodes
    exact hk hnodes
  | 1 =>
    show h.entry ∈ h.nodes
    rw [← hgh.entry, ← hmem]
    exact hk
  | 2 =>
    obtain ⟨hpreds, hsuccs⟩ := far_mem_iff.1 hk
    refine far_mem_iff.2 ⟨fun n hn m hm => ?_, fun n hn m hm => ?_⟩
    · rw [← hmem] at hn ⊢
      exact hpreds n hn m ((hgh.preds n hn m).2 hm)
    · rw [← hmem] at hn ⊢
      exact hsuccs n hn m ((hgh.succs n hn m).2 hm)
  | 3 =>
    have hentry : g.entry ∈ g.nodes := hbefore 1 (by decide)
    have hsuccs := (far_mem_iff.1 (hbefore 2 (by decide))).2
    obtain ⟨hnodup, hreach⟩ := forall_not_stray_iff.1 hk
    refine forall_not_stray_iff.2 ⟨hgh.nodes.nodup_iff.1 hnodup, fun n hn => ?_⟩
    exact (hgh.reachable hentry hsuccs (hreach n ((hmem n).2 hn))).2
  | 4 =>
    intro n hn
    rw [← hmem] at hn
    rw [← hgh.stmt n hn]
    exact hk n hn
  | _ + 5 => trivial

/-- The earliest fault of a flow graph has a counterpart in every other order. -/
lemma exists_fault {e : Analysis.Failure N} (he : g.Fault e)
    (hfirst : ∀ e', g.Fault e' → e.stage ≤ e'.stage) :
    ∃ e', h.Fault e' ∧ e'.stage = e.stage := by
  apply Analysis.exists_fault_of_not_meets
  intro hmeets
  have hbefore : ∀ j < e.stage, g.Meets j := by
    intro j hj
    by_contra hnot
    obtain ⟨e', he', rfl⟩ := Analysis.exists_fault_of_not_meets hnot
    have hle := hfirst e' he'
    omega
  have hbefore' : ∀ j < e.stage, h.Meets j := fun j hj =>
    hgh.meets (fun i hi => hbefore i (hi.trans hj)) (hbefore j hj)
  exact Analysis.not_meets_of_fault he (hgh.symm.meets hbefore' hmeets)

end Reordered

end Flow

/-! ## The facts -/

namespace Analysis

variable {N : Type} [DecidableEq N] {g h : Flow N} {p q : Problem N} {f f' : Facts}

/-- The flow graph is accepted, and solving without a limit comes to the facts. -/
structure Solved (g : Flow N) (p : Problem N) (f : Facts) : Prop where
  accepted : Problem.ofFlow g = .ok p
  solve : (Facts.afterPasses p 0).solve p none = (f, .ok ())

lemma exists_solved (hp : Problem.ofFlow g = .ok p) : ∃ f, Solved g p f := by
  obtain ⟨m, hfuel, hquiet, hchange⟩ := (Problem.represents_of_ofFlow hp).exists_quiet_within 0
  have hsolve : (Facts.afterPasses p 0).solve p none
      = (Facts.afterPasses p (0 + m + 1), .ok ()) := by
    rw [Facts.solve, Facts.passesLeft, Facts.iterate_of_quiet hfuel hquiet hchange]
  exact ⟨_, hp, hsolve⟩

/-- A graph that asserts nothing but what the procedure mentions has labels for its objects. -/
lemma Problem.Represents.knownTo (hr : p.Represents g) (hsize : p.sites.size ≤ 2 ^ 32) {G : Graph}
    (hG : G.atoms ⊆ g.assertions p.sites) : G.KnownTo p.sites := by
  intro o ho
  have hmem : Atom.object o ∈ g.assertions p.sites := hG ho
  rw [Flow.assertions, Atom.object_mem_about, Finset.mem_image] at hmem
  obtain ⟨label, hlabel, rfl⟩ := hmem
  rw [Flow.mem_siteLabels, ← hr.mem_labels] at hlabel
  obtain ⟨o, ho⟩ := (hr.sites_inStep.exists_find?_iff label).2 hlabel
  rw [SiteTable.intern_of_find? ho]
  exact ⟨label, (hr.sites_inStep.find?_iff_label? hsize label o).1 ho⟩

/-- The sites of a reordered procedure are the same sites. -/
lemma Problem.Represents.renumbers (hr : p.Represents g) (hr' : q.Represents h)
    (hgh : g.Reordered h) (hsites : g.siteLabels.card ≤ 2 ^ 32) : p.sites.Renumbers q.sites where
  inStep := hr.sites_inStep
  inStep' := hr'.sites_inStep
  mem_labels label := by
    rw [hr.mem_labels, hr'.mem_labels, ← Flow.mem_siteLabels, ← Flow.mem_siteLabels,
      hgh.siteLabels_eq]
  size_le := by rw [hr.size_sites]; exact hsites
  size_le' := by rw [hr'.size_sites, ← hgh.siteLabels_eq]; exact hsites

/-- Graphs about two orders of a procedure that translate to each other are equal by labels. -/
lemma Problem.Represents.sameByLabels (hr : p.Represents g) (hr' : q.Represents h)
    (hsites : p.sites.Renumbers q.sites) {G G' : Graph} (hG : G.WellFormed) (hG' : G'.WellFormed)
    (hsub : G.atoms ⊆ g.assertions p.sites) (hsub' : G'.atoms ⊆ h.assertions q.sites)
    (hmap : Set.MapsTo (Atom.map (p.sites.translate q.sites)) G.atoms G'.atoms)
    (hmap' : Set.MapsTo (Atom.map (q.sites.translate p.sites)) G'.atoms G.atoms) :
    Graph.SameByLabels p.sites G q.sites G' := by
  have hknown := hr.knownTo hsites.size_le hsub
  have hknown' := hr'.knownTo hsites.size_le' hsub'
  have hle := Graph.labelled_subset hsites hG hG' hknown hmap
  have hge := Graph.labelled_subset hsites.symm hG' hG hknown' hmap'
  exact ⟨hknown, hknown', hle.antisymm hge⟩

/-- A solution for one order, with its objects translated, is closed under the visits of the
other. -/
lemma Problem.Represents.closed_translate (hr : p.Represents g) (hr' : q.Represents h)
    (hgh : g.Reordered h) (hsites : q.sites.Renumbers p.sites) {ins outs : N → Graph}
    (hwf : WellFormedAt g ins outs) (hsol : IsSolution g p.sites ins outs) :
    Facts.Closed q
      (fun i => { a | ∀ n, h.nodes[i]? = some n →
        a.map (q.sites.translate p.sites) ∈ (ins n).atoms })
      (fun i => { a | ∀ n, h.nodes[i]? = some n →
        a.map (q.sites.translate p.sites) ∈ (outs n).atoms }) := by
  have hnode : ∀ {i n}, h.nodes[i]? = some n → n ∈ g.nodes := fun hi =>
    hgh.nodes.mem_iff.2 (List.mem_of_getElem? hi)
  constructor
  · intro i _ j hj a ha n hn
    obtain ⟨m, hm, hpos⟩ := (hr'.mem_preds hn j).1 hj
    rw [hr'.order] at hpos
    have hm' : m ∈ g.preds n := (hgh.preds n (hnode hn) m).2 hm
    apply ((hr.atoms_of_isSolution hsol hwf (hnode hn)).1 _).2
    exact ⟨m, hm', ha m (getElem?_of_position? hpos)⟩
  · intro i _ a ha n hn
    obtain ⟨e, he, hout⟩ := (hr.atoms_of_isSolution hsol hwf (hnode hn)).2
    -- the statement has the same effect in both orders, up to the object it allocates
    rw [hgh.stmt n (hnode hn)] at he
    have hmap := Effect.eq_map_of_ofStatement? hsites (hr'.effects i n hn) he
    rw [hout, hmap]
    refine Effect.mapsTo_after ?_ _ ha
    exact fun b hb => hb n hn

namespace Solved

lemma represents (hs : Solved g p f) : p.Represents g := Problem.represents_of_ofFlow hs.accepted

lemma valid (hs : Solved g p f) : f.Valid p := Facts.valid_of_solve hs.solve

lemma wellFormedAt (hs : Solved g p f) : WellFormedAt g (p.factAt f.before) (p.factAt f.after) :=
  hs.represents.wellFormedAt hs.valid

/-- The facts of one order translate to those of any other. -/
lemma mapsTo (hs : Solved g p f) (hs' : Solved h q f') (hgh : g.Reordered h)
    (hsites : q.sites.Renumbers p.sites) {n : N} (hn : n ∈ g.nodes) :
    Set.MapsTo (Atom.map (q.sites.translate p.sites)) (q.factAt f'.before n).atoms
        (p.factAt f.before n).atoms ∧
      Set.MapsTo (Atom.map (q.sites.translate p.sites)) (q.factAt f'.after n).atoms
        (p.factAt f.after n).atoms := by
  have hsol := hs.represents.isSolution hs.valid (Facts.settled_of_solve hs.solve)
  have hwithin := Facts.within_of_solve
    (hs.represents.closed_translate hs'.represents hgh hsites hs.wellFormedAt hsol) hs'.solve
  obtain ⟨i, hpos, hi, _⟩ := hs'.represents.exists_position (hgh.nodes.mem_iff.1 hn)
  rw [q.factAt_eq f'.before hpos, q.factAt_eq f'.after hpos]
  exact ⟨fun a ha => hwithin.before i ha n hi, fun a ha => hwithin.after i ha n hi⟩

/-- The facts assert nothing but what the procedure mentions. -/
lemma subset_assertions (hs : Solved g p f) {n : N} (hn : n ∈ g.nodes) :
    (p.factAt f.before n).atoms ⊆ g.assertions p.sites ∧
      (p.factAt f.after n).atoms ⊆ g.assertions p.sites := by
  have hwithin := Facts.within_of_solve hs.represents.closed_assertions hs.solve
  obtain ⟨i, hpos, _, _⟩ := hs.represents.exists_position hn
  rw [p.factAt_eq f.before hpos, p.factAt_eq f.after hpos]
  exact ⟨hwithin.before i, hwithin.after i⟩

/-- The summary asserts what the fact after one of the nodes joined does. -/
lemma summary_spec (hs : Solved g p f) :
    (f.summary p .joinExits).WellFormed ∧
      ∀ a, a ∈ (f.summary p .joinExits).atoms ↔
        ∃ n ∈ g.nodes, (g.succs n = [] ∨ ∀ m ∈ g.nodes, g.succs m ≠ []) ∧
          a ∈ (p.factAt f.after n).atoms := by
  have hr := hs.represents
  have hnodup := (Problem.analysable_of_ofFlow hs.accepted).nodup
  -- no node is listed twice, so each has one position
  have hfact : ∀ {i n}, g.nodes[i]? = some n →
      (p.factAt f.after n).atoms = Facts.asserted f.after i := by
    intro i n hi
    obtain ⟨j, hpos, hj, _⟩ := hr.exists_position (List.mem_of_getElem? hi)
    have hlt := (List.getElem?_eq_some_iff.1 hi).1
    obtain rfl : i = j := (List.getElem?_inj hlt hnodup).1 (hi.trans hj.symm)
    rw [p.factAt_eq f.after hpos, Facts.asserted]
  obtain ⟨hwf, hatoms⟩ := Facts.summary_spec hs.valid hr.exits_lt
  refine ⟨hwf, fun a => ?_⟩
  rw [hatoms]
  constructor
  · intro ha
    obtain ⟨i, hi, ha⟩ := ha
    obtain ⟨n, hn, hend⟩ := (hr.mem_joined_iff i).1 hi
    exact ⟨n, List.mem_of_getElem? hn, hend, hfact hn ▸ ha⟩
  · intro ha
    obtain ⟨n, hn, hend, ha⟩ := ha
    obtain ⟨i, hi⟩ := List.mem_iff_getElem?.1 hn
    exact ⟨i, (hr.mem_joined_iff i).2 ⟨n, hi, hend⟩, hfact hi ▸ ha⟩

lemma summary_subset (hs : Solved g p f) :
    (f.summary p .joinExits).atoms ⊆ g.assertions p.sites := by
  intro a ha
  obtain ⟨n, hn, _, ha⟩ := (hs.summary_spec.2 a).1 ha
  exact (hs.subset_assertions hn).2 ha

lemma mapsTo_summary (hs : Solved g p f) (hs' : Solved h q f') (hgh : g.Reordered h)
    (hsites : q.sites.Renumbers p.sites) :
    Set.MapsTo (Atom.map (q.sites.translate p.sites)) (f'.summary q .joinExits).atoms
      (f.summary p .joinExits).atoms := by
  intro a ha
  obtain ⟨n, hn, hend, ha⟩ := (hs'.summary_spec.2 a).1 ha
  have hn' := hgh.nodes.mem_iff.2 hn
  refine (hs.summary_spec.2 _).2 ⟨n, hn', ?_, (hs.mapsTo hs' hgh hsites hn').2 ha⟩
  -- the same nodes are exits in both orders
  refine hend.imp (hgh.succs_eq_nil_iff hn').2 fun hall m hm => ?_
  rw [Ne, hgh.succs_eq_nil_iff hm]
  exact hall m (hgh.nodes.mem_iff.1 hm)

end Solved

/-- The facts of two problems about the nodes of `g` are equal up to the numbering of the sites, and
so are their summaries, which give the same answers. -/
structure SameFacts (g : Flow N) (p : Problem N) (f : Facts) (q : Problem N) (f' : Facts) :
    Prop where
  before : ∀ n ∈ g.nodes, ∃ G G', p.fact? f.before n = some G ∧ q.fact? f'.before n = some G' ∧
    Graph.SameByLabels p.sites G q.sites G'
  after : ∀ n ∈ g.nodes, ∃ G G', p.fact? f.after n = some G ∧ q.fact? f'.after n = some G' ∧
    Graph.SameByLabels p.sites G q.sites G'
  summary :
    Graph.SameByLabels p.sites (f.summary p .joinExits) q.sites (f'.summary q .joinExits)
  answers : ∀ query,
    (f.summary p .joinExits).answer query = (f'.summary q .joinExits).answer query

/-- Facts that translate to each other are the same facts. -/
lemma Solved.sameFacts (hs : Solved g p f) (hs' : Solved h q f') (hgh : g.Reordered h)
    (hsites : p.sites.Renumbers q.sites) : SameFacts g p f q f' := by
  have hr := hs.represents
  have hr' := hs'.represents
  have hnodes : ∀ {n}, n ∈ g.nodes → n ∈ h.nodes := hgh.nodes.mem_iff.1
  have hsummaryTo := hs'.mapsTo_summary hs hgh.symm hsites
  have hsummaryFrom := hs.mapsTo_summary hs' hgh hsites.symm
  obtain ⟨hwf, _⟩ := hs.summary_spec
  obtain ⟨hwf', _⟩ := hs'.summary_spec
  exact {
    before := by
      intro n hn
      refine ⟨_, _, hr.fact?_eq_some hs.valid.before_size hn,
        hr'.fact?_eq_some hs'.valid.before_size (hnodes hn), ?_⟩
      exact hr.sameByLabels hr' hsites (hs.wellFormedAt n hn).1
        (hs'.wellFormedAt n (hnodes hn)).1 (hs.subset_assertions hn).1
        (hs'.subset_assertions (hnodes hn)).1 (hs'.mapsTo hs hgh.symm hsites (hnodes hn)).1
        (hs.mapsTo hs' hgh hsites.symm hn).1
    after := by
      intro n hn
      refine ⟨_, _, hr.fact?_eq_some hs.valid.after_size hn,
        hr'.fact?_eq_some hs'.valid.after_size (hnodes hn), ?_⟩
      exact hr.sameByLabels hr' hsites (hs.wellFormedAt n hn).2
        (hs'.wellFormedAt n (hnodes hn)).2 (hs.subset_assertions hn).2
        (hs'.subset_assertions (hnodes hn)).2 (hs'.mapsTo hs hgh.symm hsites (hnodes hn)).2
        (hs.mapsTo hs' hgh hsites.symm hn).2
    summary := hr.sameByLabels hr' hsites hwf hwf' hs.summary_subset hs'.summary_subset
      hsummaryTo hsummaryFrom
    answers := by
      intro query
      rw [Bool.eq_iff_iff]
      exact ⟨Graph.answer_of_mapsTo hwf hwf' hsummaryTo,
        Graph.answer_of_mapsTo hwf' hwf hsummaryFrom⟩ }

/-! ## Acceptance and facts together -/

/-- A flow graph is accepted in every order or in none. -/
lemma exists_ofFlow_of_reordered (hgh : g.Reordered h) (hp : Problem.ofFlow g = .ok p) :
    ∃ q, Problem.ofFlow h = .ok q := by
  cases hresult : Problem.ofFlow h with
  | ok q => exact ⟨q, rfl⟩
  | error e =>
    obtain ⟨hfault, hfirst⟩ := Problem.fault_of_ofFlow hresult
    obtain ⟨e', he', _⟩ := hgh.symm.exists_fault hfault hfirst
    exact absurd he' (not_fault_of_analysable (Problem.analysable_of_ofFlow hp) e')

/-- No order of a flow graph fails at a later check than another. -/
lemma stage_le_of_reordered (hgh : g.Reordered h) {e e' : Failure N}
    (he : Problem.ofFlow g = .error e) (he' : Problem.ofFlow h = .error e') :
    e'.stage ≤ e.stage := by
  obtain ⟨hfault, hfirst⟩ := Problem.fault_of_ofFlow he
  obtain ⟨e₀, he₀, hstage⟩ := hgh.exists_fault hfault hfirst
  rw [← hstage]
  exact (Problem.fault_of_ofFlow he').2 e₀ he₀

/-- The order in which a flow graph lists its nodes and links decides neither whether it is accepted
nor the kind of failure.  When it is accepted, solving without a limit succeeds in both orders and
comes to the same facts, up to the numbering of the sites.  Objects have numbers of 32 bits, so
there are no more sites than that to be numbered. -/
theorem reordered_analysis (hgh : g.Reordered h) :
    ((∃ p, Problem.ofFlow g = .ok p) ↔ ∃ q, Problem.ofFlow h = .ok q) ∧
      (∀ e e', Problem.ofFlow g = .error e → Problem.ofFlow h = .error e' →
        e.stage = e'.stage) ∧
      ∀ p q, Problem.ofFlow g = .ok p → Problem.ofFlow h = .ok q →
        g.siteLabels.card ≤ 2 ^ 32 →
          ∃ f f', (Facts.initial p).solve p none = (f, .ok ()) ∧
            (Facts.initial q).solve q none = (f', .ok ()) ∧ SameFacts g p f q f' := by
  refine ⟨⟨fun hg => ?_, fun hh => ?_⟩, fun e e' he he' => ?_, fun p q hp hq hsites => ?_⟩
  · obtain ⟨p, hp⟩ := hg
    exact exists_ofFlow_of_reordered hgh hp
  · obtain ⟨q, hq⟩ := hh
    exact exists_ofFlow_of_reordered hgh.symm hq
  · have hle := stage_le_of_reordered hgh he he'
    have hge := stage_le_of_reordered hgh.symm he' he
    omega
  · obtain ⟨f, hs⟩ := exists_solved hp
    obtain ⟨f', hs'⟩ := exists_solved hq
    have hrenumbers := hs.represents.renumbers hs'.represents hgh hsites
    exact ⟨f, f', hs.solve, hs'.solve, hs.sameFacts hs' hgh hrenumbers⟩

/-- `selfLink` with its nodes listed from the last to the first. -/
def selfLinkBackwards : Flow ℕ :=
  { selfLink.toFlow with nodes := selfLink.toFlow.nodes.reverse }

/-- Read backwards, `selfLink` numbers its two sites the other way round. -/
theorem reordered_analysis_selfLink :
    selfLink.toFlow.Reordered selfLinkBackwards ∧ selfLink.toFlow.siteLabels.card ≤ 2 ^ 32 ∧
      ∃ p q, Problem.ofFlow selfLink.toFlow = .ok p ∧ Problem.ofFlow selfLinkBackwards = .ok q ∧
        p.sites.labels = ["a", "b"] ∧ q.sites.labels = ["b", "a"] ∧
        ∃ f f', (Facts.initial p).solve p none = (f, .ok ()) ∧
          (Facts.initial q).solve q none = (f', .ok ()) ∧
          SameFacts selfLink.toFlow p f q f' := by
  have hreordered : selfLink.toFlow.Reordered selfLinkBackwards :=
    ⟨rfl, (List.reverse_perm _).symm, fun _ _ => rfl, fun _ _ _ => Iff.rfl, fun _ _ _ => Iff.rfl⟩
  have hcard : selfLink.toFlow.siteLabels.card ≤ 2 ^ 32 := by decide +kernel
  obtain ⟨result, hrun⟩ := exists_run_selfLink
  obtain ⟨p, _, hp, _, _⟩ := run_eq_ok hrun
  obtain ⟨q, hq⟩ := (reordered_analysis hreordered).1.1 ⟨p, hp⟩
  have hlabels : (Problem.ofFlow selfLink.toFlow).toOption.map (·.sites.labels)
      = some ["a", "b"] := by decide +kernel
  have hlabels' : (Problem.ofFlow selfLinkBackwards).toOption.map (·.sites.labels)
      = some ["b", "a"] := by decide +kernel
  rw [hp] at hlabels
  rw [hq] at hlabels'
  exact ⟨hreordered, hcard, p, q, hp, hq, Option.some.inj hlabels, Option.some.inj hlabels',
    (reordered_analysis hreordered).2.2 p q hp hq hcard⟩

end Analysis

end MayAlias
