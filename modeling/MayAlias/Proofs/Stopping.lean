import MayAlias.Proofs.Acceptance
import MayAlias.Proofs.PassBound

/-!
# When passes stop

A pass compares the facts of one node after the other with those stored, while it replaces them.
Still its flag speaks about all of them at once: it stays down exactly when the facts before the
pass satisfy all equations of the procedure.  A pass that keeps its flag down leaves every fact in
its place, so all passes behind it do the same.

Solving therefore ends behind the first quiet pass (`Facts.StopsAfter`), and a limit on the number
of passes decides only whether it gets there.
-/

namespace MayAlias.Analysis

namespace Facts

variable {N : Type} {p : Problem N}

/-! ## Quiet passes -/

lemma store_of_beq {graphs : Array Graph} {pos : ℕ} {g : Graph}
    (h : (g == graphs.getD pos .empty) = true) : store graphs pos g = (graphs, false) := by
  unfold store
  rw [if_pos h]

/-- A visit to a settled node changes nothing. -/
lemma visit_of_settled {state : Facts × Bool} {pos : ℕ} (h : Settled p state.1 pos) :
    visit p state pos = state := by
  unfold visit
  simp only [store_of_beq h.1, store_of_beq h.2, Bool.or_false]

lemma foldl_visit_of_settled {l : List ℕ} {state : Facts × Bool}
    (h : ∀ pos ∈ l, Settled p state.1 pos) : l.foldl (visit p) state = state := by
  induction l with
  | nil => rfl
  | cons pos l ih =>
    rw [List.foldl_cons, visit_of_settled (h pos List.mem_cons_self)]
    exact ih fun q hq => h q (List.mem_cons_of_mem _ hq)

/-- A pass is quiet exactly when it starts from facts in which all nodes are settled. -/
theorem quiet_iff_settled {f : Facts} :
    (f.pass p).2 = false ↔ ∀ pos < p.order.length, Settled p f pos := by
  constructor
  · exact fun h => (pass_quiet h).2
  · intro h
    have hsame : (List.range p.order.length).foldl (visit p)
        ({ f with passes := f.passes + 1 }, false) = ({ f with passes := f.passes + 1 }, false) :=
      foldl_visit_of_settled fun pos hpos => h pos (List.mem_range.1 hpos)
    unfold pass
    rw [hsame]

/-- Behind a quiet pass all passes are quiet. -/
theorem quiet_of_le {k j : ℕ} (hkj : k ≤ j) (hk : ((afterPasses p k).pass p).2 = false) :
    ((afterPasses p j).pass p).2 = false := by
  induction j, hkj using Nat.le_induction with
  | base => exact hk
  | succ j _ ih =>
    obtain ⟨hsame, hsettled⟩ := pass_quiet ih
    -- the facts are the same as one pass earlier, only the count is not
    rw [afterPasses, hsame, quiet_iff_settled]
    exact hsettled

/-! ## The first quiet pass -/

/-- Pass number `m + 1` is the first quiet one. -/
structure StopsAfter (p : Problem N) (m : ℕ) : Prop where
  loud : ∀ j < m, ((afterPasses p j).pass p).2 = true
  quiet : ((afterPasses p m).pass p).2 = false

lemma StopsAfter.le {m m' : ℕ} (h : StopsAfter p m) (h' : StopsAfter p m') : m ≤ m' := by
  by_contra hlt
  have hloud := h.loud m' (by omega)
  rw [h'.quiet] at hloud
  exact Bool.false_ne_true hloud

/-- With more passes left than there are loud ones, iterating stops behind the first quiet one. -/
lemma StopsAfter.iterate_of_lt {m n : ℕ} (h : StopsAfter p m) (hn : m < n) :
    iterate p n (initial p) = (afterPasses p (m + 1), true) := by
  have hquiet : ((afterPasses p (0 + m)).pass p).2 = false := by
    rw [Nat.zero_add]
    exact h.quiet
  have hloud : ∀ j < m, ((afterPasses p (0 + j)).pass p).2 = true := by
    intro j hj
    rw [Nat.zero_add]
    exact h.loud j hj
  have hiter := iterate_of_quiet hn hquiet hloud
  rwa [Nat.zero_add] at hiter

/-- With no more passes left than there are loud ones, iterating makes them all. -/
lemma StopsAfter.iterate_of_le {m n : ℕ} (h : StopsAfter p m) (hn : n ≤ m) :
    iterate p n (initial p) = (afterPasses p n, false) := by
  have hloud : ∀ j < n, ((afterPasses p (0 + j)).pass p).2 = true := by
    intro j hj
    rw [Nat.zero_add]
    exact h.loud j (by omega)
  have hiter : iterate p (n + 0) (afterPasses p 0) = iterate p 0 (afterPasses p (0 + n)) :=
    iterate_add_of_changes hloud
  rwa [Nat.zero_add] at hiter

end Facts

variable {N : Type} [DecidableEq N] {g : Flow N} {p : Problem N}

/-! ## Solutions are settled -/

/-- In an accepted procedure, facts that satisfy the equations are settled at all nodes: every
position is that of its node. -/
lemma Problem.settled_of_isSolution (hp : Problem.ofFlow g = .ok p) {f : Facts} (hf : f.Valid p)
    (hsol : IsSolution g p.sites (p.factAt f.before) (p.factAt f.after)) :
    ∀ pos < p.order.length, f.Settled p pos := by
  have hr := Problem.represents_of_ofFlow hp
  have hnodup := (Problem.analysable_of_ofFlow hp).nodup
  intro pos hlt
  rw [hr.order] at hlt
  have hpos : position? p.order g.nodes[pos] = some pos := by
    rw [hr.order]
    exact position?_of_nodup hnodup (List.getElem?_eq_getElem hlt)
  exact (hr.equations_iff_settled hf hpos).1 (hsol _ (List.getElem_mem hlt))

/-! ## The flag of a pass -/

/-- What the flag of the pass behind the first `k` passes says about their facts, `ins` before and
`outs` after the nodes. -/
structure ExactFlag (g : Flow N) (p : Problem N) (k : ℕ) (ins outs : N → Graph) : Prop where
  facts : ∀ n ∈ g.nodes, p.fact? (Facts.afterPasses p k).before n = some (ins n) ∧
    p.fact? (Facts.afterPasses p k).after n = some (outs n)
  quiet_iff : ((Facts.afterPasses p k).pass p).2 = false ↔ IsSolution g p.sites ins outs
  /-- A quiet pass leaves all facts in their places. -/
  unchanged : ((Facts.afterPasses p k).pass p).2 = false →
    ((Facts.afterPasses p k).pass p).1.before = (Facts.afterPasses p k).before ∧
      ((Facts.afterPasses p k).pass p).1.after = (Facts.afterPasses p k).after
  later : ((Facts.afterPasses p k).pass p).2 = false →
    ∀ j ≥ k, ((Facts.afterPasses p j).pass p).2 = false

lemma exactFlag_factAt (hp : Problem.ofFlow g = .ok p) (k : ℕ) :
    ExactFlag g p k (p.factAt (Facts.afterPasses p k).before)
      (p.factAt (Facts.afterPasses p k).after) := by
  have hr := Problem.represents_of_ofFlow hp
  have hf : (Facts.afterPasses p k).Valid p := Facts.valid_afterPasses k
  constructor
  · exact fun n hn => ⟨hr.fact?_eq_some hf.before_size hn, hr.fact?_eq_some hf.after_size hn⟩
  · rw [Facts.quiet_iff_settled]
    exact ⟨hr.isSolution hf, Problem.settled_of_isSolution hp hf⟩
  · intro hquiet
    rw [(Facts.pass_quiet hquiet).1]
    exact ⟨rfl, rfl⟩
  · exact fun hquiet j hj => Facts.quiet_of_le hj hquiet

/-- After any number of passes, the next one reports no change exactly when the facts satisfy all
equations; then it changes none, and no later pass reports a change.  Where solving succeeds it has
come to such facts. -/
theorem pass_flag_exact (hp : Problem.ofFlow g = .ok p) (k : ℕ) :
    (∃ ins outs, ExactFlag g p k ins outs) ∧
      ∀ limit f, (Facts.afterPasses p k).solve p limit = (f, .ok ()) →
        (f.pass p).2 = false ∧ ∃ m, f = Facts.afterPasses p m ∧
          ∃ ins outs, ExactFlag g p m ins outs ∧ IsSolution g p.sites ins outs := by
  refine ⟨⟨_, _, exactFlag_factAt hp k⟩, fun limit f hs => ?_⟩
  obtain ⟨m, rfl, hquiet⟩ := Facts.solve_eq_ok hs
  have hnext := Facts.quiet_of_le (Nat.le_succ m) hquiet
  have hflag := exactFlag_factAt hp (m + 1)
  exact ⟨hnext, m + 1, rfl, _, _, hflag, hflag.quiet_iff.1 hnext⟩

/-- The facts of `selfLink` solve the equations after three passes and not after two, and the flags
of the third and the fourth pass tell. -/
theorem pass_flag_selfLink :
    ∃ p, Problem.ofFlow selfLink.toFlow = .ok p ∧
      (∃ ins outs, ExactFlag selfLink.toFlow p 2 ins outs ∧
        ¬ IsSolution selfLink.toFlow p.sites ins outs) ∧
      ∃ ins outs, ExactFlag selfLink.toFlow p 3 ins outs ∧
        IsSolution selfLink.toFlow p.sites ins outs := by
  have hflags : (Problem.ofFlow selfLink.toFlow).map (fun p => [2, 3].map fun k =>
      ((Facts.afterPasses p k).pass p).2) = .ok [true, false] := by decide +kernel
  obtain ⟨p, hp⟩ := exists_ofFlow_selfLink
  obtain ⟨⟨ins, outs, hflag⟩, _⟩ := pass_flag_exact hp 2
  obtain ⟨⟨ins', outs', hflag'⟩, _⟩ := pass_flag_exact hp 3
  simp only [hp, Except.map, List.map_cons, List.map_nil, Except.ok.injEq, List.cons.injEq,
    and_true] at hflags
  refine ⟨p, hp, ⟨ins, outs, hflag, fun hsol => ?_⟩, ins', outs', hflag', ?_⟩
  · have hquiet := hflag.quiet_iff.2 hsol
    simp [hflags.1] at hquiet
  · exact hflag'.quiet_iff.1 hflags.2

/-! ## Limits -/

/-- Some pass of an accepted procedure is the first quiet one, and soon enough for solving without
a limit. -/
lemma Problem.Represents.exists_stopsAfter (hr : p.Represents g) :
    ∃ m < p.passBound, Facts.StopsAfter p m := by
  obtain ⟨m, hm, hquiet, hloud⟩ := hr.exists_quiet_within 0
  simp only [Nat.zero_add] at hquiet hloud
  exact ⟨m, hm, hloud, hquiet⟩

lemma run_of_solve_ok (hp : Problem.ofFlow g = .ok p) {limit : Option ℕ} {f : Facts}
    (hs : (Facts.initial p).solve p limit = (f, .ok ())) (rule : SummaryRule) :
    run g rule limit = .ok (Result.ofFacts p rule f) := by
  simp only [run, hp, bind, Except.bind, hs]

lemma run_of_solve_error (hp : Problem.ofFlow g = .ok p) {limit : Option ℕ} {f : Facts}
    {e : Failure N} (hs : (Facts.initial p).solve p limit = (f, .error e)) (rule : SummaryRule) :
    run g rule limit = .error e := by
  simp only [run, hp, bind, Except.bind, hs]

namespace Facts.StopsAfter

variable {m : ℕ} (hp : Problem.ofFlow g = .ok p) (h : StopsAfter p m) (rule : SummaryRule)

include hp h

/-- Without a limit the analysis gives the facts behind the first quiet pass. -/
lemma run_none : run g rule none = .ok (Result.ofFacts p rule (afterPasses p (m + 1))) := by
  obtain ⟨m', hm', h'⟩ := (Problem.represents_of_ofFlow hp).exists_stopsAfter
  have hfuel : m < p.passBound := (h.le h').trans_lt hm'
  apply run_of_solve_ok hp
  unfold solve
  rw [show (initial p).passesLeft p none = p.passBound from rfl, h.iterate_of_lt hfuel]

/-- A limit behind the first quiet pass makes no difference. -/
lemma run_of_lt {limit : ℕ} (hlt : m < limit) :
    run g rule (some limit) = .ok (Result.ofFacts p rule (afterPasses p (m + 1))) := by
  apply run_of_solve_ok hp
  unfold solve
  rw [show (initial p).passesLeft p (some limit) = limit from rfl, h.iterate_of_lt hlt]

/-- A limit in front of the first quiet pass is used up. -/
lemma run_of_le {limit : ℕ} (hle : limit ≤ m) :
    run g rule (some limit) = .error (.passLimit limit) := by
  have hsolve : (initial p).solve p (some limit)
      = (afterPasses p limit, .error (.passLimit limit)) := by
    unfold solve
    rw [show (initial p).passesLeft p (some limit) = limit from rfl, h.iterate_of_le hle]
    show (_, Except.error (Failure.passLimit (afterPasses p limit).passes)) = _
    rw [passes_afterPasses]
  exact run_of_solve_error hp hsolve rule

end Facts.StopsAfter

/-- The analysis of an accepted procedure succeeds without a limit, behind the first quiet pass.
With a limit it succeeds exactly when that pass is allowed, with the same result, and otherwise it
fails once the limit is used up. -/
theorem limit_cuts_off (hp : Problem.ofFlow g = .ok p) :
    ∃ m, Facts.StopsAfter p m ∧ ∀ rule, ∃ result, run g rule none = .ok result ∧
      result.passes = m + 1 ∧
      ∀ limit, ((∃ result', run g rule (some limit) = .ok result') ↔ result.passes ≤ limit) ∧
        (result.passes ≤ limit → run g rule (some limit) = .ok result) ∧
        (limit < result.passes → run g rule (some limit) = .error (.passLimit limit)) := by
  obtain ⟨m, _, hstops⟩ := (Problem.represents_of_ofFlow hp).exists_stopsAfter
  refine ⟨m, hstops, fun rule => ⟨_, hstops.run_none hp rule, ?_, fun limit => ?_⟩⟩
  · exact Facts.passes_afterPasses (m + 1)
  rw [show (Result.ofFacts p rule (Facts.afterPasses p (m + 1))).passes = m + 1 from
    Facts.passes_afterPasses (m + 1)]
  refine ⟨⟨fun hok => ?_, fun hle => ?_⟩, fun hle => ?_, fun hlt => ?_⟩
  · obtain ⟨result', hok⟩ := hok
    by_contra hlt
    rw [hstops.run_of_le hp rule (by omega)] at hok
    simp at hok
  · exact ⟨_, hstops.run_of_lt hp rule hle⟩
  · exact hstops.run_of_lt hp rule hle
  · exact hstops.run_of_le hp rule (Nat.le_of_lt_succ hlt)

/-- The fourth pass over `selfLink` is the first quiet one: three passes are too few, and four give
what is found without a limit. -/
theorem limit_cuts_off_selfLink :
    ∃ p, Problem.ofFlow selfLink.toFlow = .ok p ∧ Facts.StopsAfter p 3 ∧ ∀ rule,
      run selfLink.toFlow rule (some 3) = .error (.passLimit 3) ∧
        ∃ result, run selfLink.toFlow rule none = .ok result ∧
          run selfLink.toFlow rule (some 4) = .ok result ∧ result.passes = 4 := by
  have hpasses : (run selfLink.toFlow .joinExits none).map (·.passes) = .ok 4 := by decide +kernel
  obtain ⟨p, hp⟩ := exists_ofFlow_selfLink
  obtain ⟨m, hstops, hrules⟩ := limit_cuts_off hp
  have hm : m = 3 := by
    obtain ⟨result, hresult, hcount, _⟩ := hrules .joinExits
    rw [hresult, Except.map, Except.ok.injEq] at hpasses
    omega
  subst hm
  refine ⟨p, hp, hstops, fun rule => ?_⟩
  obtain ⟨result, hresult, hcount, hlimits⟩ := hrules rule
  refine ⟨(hlimits 3).2.2 (by omega), result, hresult, (hlimits 4).2.1 (by omega), hcount⟩

end MayAlias.Analysis
