/-!
# Dense indices

Elements of the sets in this library are numbered by machine words.  `DenseIndex` is the
numbering: `index` reads the number of an element, `ofIndex?` gives the element back, and fails
when the number is too large for the element's type.
-/

namespace MayAlias

/-- A type whose elements are numbered from zero by 64-bit words. -/
class DenseIndex (α : Type) where
  /-- The number of an element. -/
  index : α → UInt64
  /-- The element with a given number, if the type reaches that far. -/
  ofIndex? : UInt64 → Option α
  /-- An element is found again under its number. -/
  ofIndex?_index : ∀ a, ofIndex? (index a) = some a
  /-- Only one number leads to an element. -/
  index_of_ofIndex? : ∀ i a, ofIndex? i = some a → index a = i

namespace DenseIndex

/-- Every word is its own number. -/
instance : DenseIndex UInt64 where
  index i := i
  ofIndex? i := some i
  ofIndex?_index _ := rfl
  index_of_ofIndex? _ _ h := (Option.some.inj h).symm

/-- Half words reach up to `2 ^ 32 - 1`. -/
instance : DenseIndex UInt32 where
  index i := i.toUInt64
  ofIndex? i := if i.toNat < 4294967296 then some i.toUInt32 else none
  ofIndex?_index a := by
    have h : a.toUInt64.toNat < 4294967296 := by
      rw [UInt32.toNat_toUInt64]
      exact a.toNat_lt
    rw [if_pos h, UInt32.toUInt32_toUInt64]
  index_of_ofIndex? i a h := by
    split at h
    · rename_i hi
      obtain rfl := Option.some.inj h
      apply UInt64.toNat_inj.1
      rw [UInt32.toNat_toUInt64, UInt64.toNat_toUInt32]
      exact Nat.mod_eq_of_lt hi
    · simp at h

/-- Distinct elements have distinct numbers. -/
theorem index_injective {α : Type} [DenseIndex α] {a b : α} (h : index a = index b) : a = b := by
  have hb := ofIndex?_index b
  rw [← h, ofIndex?_index a] at hb
  exact Option.some.inj hb

end DenseIndex

end MayAlias
