import Mathlib.Data.List.Nodup
import Mathlib.Data.List.Perm.Subperm
import Mathlib.Logic.Relation
import Mathlib.Tactic.Common
import MayAlias.Analysis.Problem

/-!
# The search for reachable positions

The search keeps the positions seen so far and those among them whose links have still to be
followed.  `Search` is what holds of the two lists at every step: whatever has been seen is
reachable, and what is no longer to be followed has all its links among the positions seen.  Every
position is followed at most once, so the search is given enough steps to end with nothing left to
follow, and then the positions seen are exactly the reachable ones.
-/

namespace MayAlias.Analysis

/-- A link leads from one position to another. -/
def Linked (succs : Array (List ℕ)) (p q : ℕ) : Prop := q ∈ succs.getD p []

/-- The links of a position that lead to something new, each once. -/
def fresh (succs : Array (List ℕ)) (seen : List ℕ) (p : ℕ) : List ℕ :=
  ((succs.getD p []).filter fun q => !seen.contains q).eraseDups

lemma nodup_eraseDups (l : List ℕ) : l.eraseDups.Nodup := by
  cases l with
  | nil => exact List.nodup_nil
  | cons q l =>
    rw [List.eraseDups_cons, List.nodup_cons, List.mem_eraseDups]
    exact ⟨by simp, nodup_eraseDups _⟩
termination_by l.length
decreasing_by
  have hlength := List.length_filter_le (fun r => !r == q) l
  rw [List.length_cons]
  omega

section Search

variable {succs : Array (List ℕ)} {start : ℕ}

lemma mem_fresh {seen : List ℕ} {p q : ℕ} :
    q ∈ fresh succs seen p ↔ Linked succs p q ∧ q ∉ seen := by
  simp [fresh, Linked]

/-- What holds of the positions to follow and the positions seen throughout a search. -/
structure Search (succs : Array (List ℕ)) (start : ℕ) (todo seen : List ℕ) : Prop where
  start_mem : start ∈ seen
  sound : ∀ q ∈ seen, Relation.ReflTransGen (Linked succs) start q
  pending : ∀ q ∈ todo, q ∈ seen
  followed : ∀ q ∈ seen, q ∉ todo → ∀ r, Linked succs q r → r ∈ seen
  bounded : ∀ q ∈ seen, q < succs.size
  nodup : seen.Nodup

lemma search_start (hstart : start < succs.size) : Search succs start [start] [start] where
  start_mem := List.mem_singleton_self start
  sound q hq := by
    rw [List.mem_singleton.1 hq]
  pending _ hq := hq
  followed _ hq hnot := absurd hq hnot
  bounded q hq := by
    rw [List.mem_singleton.1 hq]
    exact hstart
  nodup := List.nodup_singleton start

/-- Following the links of one position keeps the state of the search. -/
lemma Search.step (hlinks : ∀ p q, Linked succs p q → q < succs.size) {p : ℕ} {todo seen : List ℕ}
    (h : Search succs start (p :: todo) seen) :
    Search succs start (fresh succs seen p ++ todo) (fresh succs seen p ++ seen) where
  start_mem := List.mem_append_right _ h.start_mem
  sound q hq := by
    rcases List.mem_append.1 hq with hnew | hold
    · have hp := h.sound p (h.pending p List.mem_cons_self)
      exact hp.tail (mem_fresh.1 hnew).1
    · exact h.sound q hold
  pending q hq := by
    rcases List.mem_append.1 hq with hnew | hrest
    · exact List.mem_append_left _ hnew
    · exact List.mem_append_right _ (h.pending q (List.mem_cons_of_mem p hrest))
  followed q hq hdone r hr := by
    rw [List.mem_append, not_or] at hdone
    have hold : q ∈ seen := (List.mem_append.1 hq).resolve_left hdone.1
    rw [List.mem_append]
    by_cases hqp : q = p
    · -- the links just followed lead to positions seen before or to new ones
      subst hqp
      by_cases hseen : r ∈ seen
      · exact Or.inr hseen
      · exact Or.inl (mem_fresh.2 ⟨hr, hseen⟩)
    · have hnot : q ∉ p :: todo := by simp [hqp, hdone.2]
      exact Or.inr (h.followed q hold hnot r hr)
  bounded q hq := by
    rcases List.mem_append.1 hq with hnew | hold
    · exact hlinks p q (mem_fresh.1 hnew).1
    · exact h.bounded q hold
  nodup := by
    refine List.nodup_append.2 ⟨nodup_eraseDups _, h.nodup, ?_⟩
    intro q hnew r hold hqr
    exact (mem_fresh.1 hnew).2 (hqr ▸ hold)

/-- No more positions are seen than there are. -/
lemma Search.length_le {todo seen : List ℕ} (h : Search succs start todo seen) :
    seen.length ≤ succs.size := by
  have hsub : seen ⊆ List.range succs.size := fun q hq => List.mem_range.2 (h.bounded q hq)
  have hlength := (h.nodup.subperm hsub).length_le
  rwa [List.length_range] at hlength

/-- A search with a step for every position to follow and every position not yet seen leaves nothing
to follow. -/
lemma Search.explore (hlinks : ∀ p q, Linked succs p q → q < succs.size) {n : ℕ}
    {todo seen : List ℕ} (h : Search succs start todo seen)
    (hn : todo.length + succs.size ≤ n + seen.length) :
    Search succs start [] (explore succs n todo seen) := by
  induction n generalizing todo seen with
  | zero =>
    have hlength := h.length_le
    obtain rfl : todo = [] := List.eq_nil_of_length_eq_zero (by omega)
    exact h
  | succ n ih =>
    cases todo with
    | nil => exact h
    | cons p todo =>
      -- each new position costs one step and is one position less that is not yet seen
      apply ih (h.step hlinks)
      rw [List.length_cons] at hn
      rw [List.length_append, List.length_append]
      omega

/-- When nothing is left to follow, the positions seen are the reachable ones. -/
lemma Search.mem_iff {seen : List ℕ} (h : Search succs start [] seen) (q : ℕ) :
    q ∈ seen ↔ Relation.ReflTransGen (Linked succs) start q := by
  constructor
  · exact h.sound q
  · intro hreach
    induction hreach with
    | refl => exact h.start_mem
    | tail _ hlink ih => exact h.followed _ ih List.not_mem_nil _ hlink

/-- The search finds the positions to which a path of links leads, and no others. -/
theorem mem_reached (hlinks : ∀ p q, Linked succs p q → q < succs.size)
    (hstart : start < succs.size) (q : ℕ) :
    q ∈ reached succs start ↔ Relation.ReflTransGen (Linked succs) start q := by
  have hdone := (search_start hstart).explore hlinks (n := succs.size + 1)
    (by simp only [List.length_singleton]; omega)
  exact hdone.mem_iff q

end Search

end MayAlias.Analysis
