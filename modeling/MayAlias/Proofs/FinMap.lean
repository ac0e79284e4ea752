import Mathlib.Data.List.Nodup
import Mathlib.Data.List.Perm.Subperm
import Mathlib.Tactic.Common
import MayAlias.FinMap

/-!
# Finite maps by look-up

The entries of a finite map are its look-ups, and two maps that pass the comparison have the same
keys with values that the comparison of values accepts.
-/

namespace MayAlias.FinMap

variable {κ ν : Type} [DecidableEq κ]

private lemma find?_eq_some_iff {l : List (κ × ν)} (hl : (l.map Prod.fst).Nodup) (k : κ) (v : ν) :
    find? k l = some v ↔ (k, v) ∈ l := by
  induction l with
  | nil => simp [find?]
  | cons e rest ih =>
    obtain ⟨k', v'⟩ := e
    rw [List.map_cons, List.nodup_cons] at hl
    rw [find?]
    by_cases hk : k' = k
    · subst hk
      rw [if_pos rfl, List.mem_cons, Option.some_inj]
      constructor
      · intro h
        subst h
        exact Or.inl rfl
      · intro h
        rcases h with h | h
        · exact (Prod.mk.inj h).2.symm
        -- a second entry with the key is ruled out
        · exact absurd (List.mem_map_of_mem h) hl.1
    · rw [if_neg hk, ih hl.2, List.mem_cons]
      constructor
      · exact Or.inr
      · intro h
        rcases h with h | h
        · exact absurd (Prod.mk.inj h).1.symm hk
        · exact h

/-- A look-up finds the entry with the key, of which there is one at most. -/
lemma get?_eq_some_iff (m : FinMap κ ν) (k : κ) (v : ν) :
    m.get? k = some v ↔ (k, v) ∈ m.entries := find?_eq_some_iff m.nodup_keys k v

/-- The keys are those that a look-up finds. -/
lemma mem_keys_iff (m : FinMap κ ν) (k : κ) : k ∈ m.keys ↔ ∃ v, m.get? k = some v := by
  simp only [keys, List.mem_map, get?_eq_some_iff]
  constructor
  · intro h
    obtain ⟨⟨k', v⟩, he, rfl⟩ := h
    exact ⟨v, he⟩
  · intro h
    obtain ⟨v, he⟩ := h
    exact ⟨(k, v), he, rfl⟩

/-- What the comparison of two maps decides. -/
lemma agrees_iff (eq : ν → ν → Bool) (m m' : FinMap κ ν) :
    m.agrees eq m' = true ↔
      (∀ k, k ∈ m.keys ↔ k ∈ m'.keys) ∧
        ∀ k v v', m.get? k = some v → m'.get? k = some v' → eq v v' = true := by
  rw [agrees, Bool.and_eq_true, beq_iff_eq, List.all_eq_true]
  constructor
  · intro h
    obtain ⟨hsize, hall⟩ := h
    have hfind : ∀ k v, m.get? k = some v → ∃ v', m'.get? k = some v' ∧ eq v v' = true := by
      intro k v hv
      have h := hall (k, v) ((get?_eq_some_iff m k v).1 hv)
      cases hv' : m'.get? k with
      | none => simp [hv'] at h
      | some v' => exact ⟨v', rfl, by simpa [hv'] using h⟩
    have hsub : m.keys ⊆ m'.keys := by
      intro k hk
      obtain ⟨v, hv⟩ := (mem_keys_iff m k).1 hk
      obtain ⟨v', hv', _⟩ := hfind k v hv
      exact (mem_keys_iff m' k).2 ⟨v', hv'⟩
    -- as many keys on both sides, so the inclusion is an equality
    have hperm : m.keys.Perm m'.keys :=
      (m.nodup_keys.subperm hsub).perm_of_length_le
        (by simpa [keys, size] using Nat.le_of_eq hsize.symm)
    refine ⟨fun k => hperm.mem_iff, ?_⟩
    intro k v v' hv hv'
    obtain ⟨w, hw, heq⟩ := hfind k v hv
    rw [hv'] at hw
    exact Option.some.inj hw ▸ heq
  · intro h
    obtain ⟨hkeys, heq⟩ := h
    refine ⟨?_, ?_⟩
    · have hperm : m.keys.Perm m'.keys :=
        (List.perm_ext_iff_of_nodup m.nodup_keys m'.nodup_keys).2 hkeys
      have hlength := hperm.length_eq
      simpa [keys, size] using hlength
    · intro h he
      obtain ⟨k, v⟩ := h
      have hv := (get?_eq_some_iff m k v).2 he
      obtain ⟨v', hv'⟩ := (mem_keys_iff m' k).1 ((hkeys k).1 ((mem_keys_iff m k).2 ⟨v, hv⟩))
      simpa [hv'] using heq k v v' hv hv'

/-- Insertion adds one key. -/
lemma mem_keys_insert (m : FinMap κ ν) (k j : κ) (v : ν) :
    j ∈ (m.insert k v).keys ↔ j = k ∨ j ∈ m.keys := by
  rw [mem_keys_iff, mem_keys_iff, get?_insert]
  by_cases h : j = k
  · simp [h]
  · simp [h]

end MayAlias.FinMap
