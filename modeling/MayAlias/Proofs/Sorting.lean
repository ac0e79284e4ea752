import Mathlib.Data.List.Nodup
import Mathlib.Order.Lattice
import MayAlias.Sorting

/-!
# Sorted lists

Lists are sorted by keys from a linear order.  When no two elements share a key, the sorted list
ascends strictly, and a list that ascends strictly is determined by its elements.
-/

namespace MayAlias

variable {α β : Type} [LinearOrder β] {le : α → α → Bool} {key : α → β}

lemma nodup_of_ascending {l : List α} (hl : l.Pairwise fun a b => key a < key b) :
    (l.map key).Nodup :=
  List.pairwise_map.2 (hl.imp fun hab => hab.ne)

/-- Lists that ascend strictly are equal when they have the same elements. -/
lemma eq_of_ascending {l l' : List α} (hl : l.Pairwise fun a b => key a < key b)
    (hl' : l'.Pairwise fun a b => key a < key b) (hmem : ∀ a, a ∈ l ↔ a ∈ l') : l = l' := by
  have hperm := (List.perm_ext_iff_of_nodup (nodup_of_ascending hl).of_map
    (nodup_of_ascending hl').of_map).2 hmem
  exact hperm.eq_of_pairwise (fun _ _ _ _ hab hba => absurd hab hba.asymm) hl hl'

/-- Sorting by a key that no two elements share makes the keys ascend strictly. -/
lemma sortBy_ascends (hle : ∀ a b, le a b = true ↔ key a ≤ key b) {l : List α}
    (hl : (l.map key).Nodup) : (sortBy le l).Pairwise fun a b => key a < key b := by
  have hsorted : (sortBy le l).Pairwise fun a b => le a b = true :=
    sortBy_pairwise
      (fun a b c hab hbc => (hle a c).2 (((hle a b).1 hab).trans ((hle b c).1 hbc)))
      (fun a b => (le_total (key a) (key b)).imp (hle a b).2 (hle b a).2) l
  have hdistinct : (sortBy le l).Pairwise fun a b => key a ≠ key b :=
    List.pairwise_map.1 (((sortBy_perm le l).map key).nodup_iff.2 hl)
  exact (hsorted.and hdistinct).imp fun h => lt_of_le_of_ne ((hle _ _).1 h.1) h.2

end MayAlias
