import MayAlias.Proofs.BitSet

/-!
# The walk over a bit set

`Cursor.remaining` lists the indices that a cursor still has to visit, in the arithmetic of 64-bit
words that the cursor itself uses.  Every step takes the head of this list, so the walk over a bit
set yields the numbers held, ascending, and on a valid set the elements, each once.
-/

namespace MayAlias

/-! ## The lowest bit -/

namespace Word

lemma firstFrom_eq_headD (w : UInt64) (k : ℕ) {n : ℕ} (hn : k + n ≤ 64) :
    firstFrom w k n = ((List.range' k n).filter fun j => w.toNat.testBit j).headD (k + n) := by
  induction n generalizing k with
  | zero => rfl
  | succ n ih =>
    rw [firstFrom, bit_eq_testBit w (by omega), List.range'_succ, List.filter_cons]
    split
    · rfl
    · rw [ih (k + 1) (by omega), show k + 1 + n = k + (n + 1) by omega]

lemma lowest_eq_headD (w : UInt64) : lowest w = (bitList w).headD 64 := by
  rw [lowest, firstFrom_eq_headD w 0 (by omega), bitList, List.range_eq_range']

lemma bitList_zero : bitList 0 = [] := by
  simp [bitList]

/-- The set bits of a word are its lowest one and those left when that one is cleared. -/
lemma bitList_eq_cons {w : UInt64} (hw : w ≠ 0) :
    bitList w = lowest w :: bitList (w ^^^ single (lowest w)) := by
  obtain ⟨k, hk, hbit⟩ := (ne_zero_iff w).1 hw
  obtain ⟨m, rest, hlist⟩ : ∃ m rest, bitList w = m :: rest := by
    apply List.exists_cons_of_ne_nil
    exact List.ne_nil_of_mem (mem_bitList.2 ⟨hk, hbit⟩)
  have hlow : lowest w = m := by rw [lowest_eq_headD, hlist, List.headD_cons]
  have hm : m < 64 ∧ w.toNat.testBit m = true := by
    rw [← mem_bitList, hlist]
    exact List.mem_cons_self
  have hnodup : (m :: rest).Nodup := hlist ▸ List.nodup_range.filter _
  -- clearing the lowest bit filters it out of the list of set bits
  have hclear : bitList (w ^^^ single m) = (bitList w).filter (· ≠ m) := by
    rw [bitList, bitList, List.filter_filter]
    apply List.filter_congr
    intro j _
    rw [UInt64.toNat_xor, Nat.testBit_xor, testBit_single hm.1]
    by_cases hj : j = m
    · subst hj
      simp [hm.2]
    · simp [hj]
  rw [hlow, hclear, hlist, List.filter_cons_of_neg (by simp), List.filter_eq_self.2]
  intro j hj
  have hne : j ≠ m := fun h => (List.nodup_cons.1 hnodup).1 (h ▸ hj)
  simpa using hne

end Word

/-! ## Steps of the walk -/

namespace Cursor

/-- The indices of the set bits of a word whose lowest bit has index `offset`. -/
def wordIndices (w offset : UInt64) : List UInt64 :=
  (Word.bitList w).map fun k => UInt64.ofNat k + offset

/-- The indices of the set bits of the last `n` words, when the word before them starts at
`offset`. -/
def tailIndices (words : Array UInt64) : ℕ → UInt64 → List UInt64
  | 0, _ => []
  | n + 1, offset =>
    wordIndices (words.getD (words.size - (n + 1)) 0) (offset + 64)
      ++ tailIndices words n (offset + 64)

/-- The indices that the walk has still to visit. -/
def remaining (words : Array UInt64) (c : Cursor) : List UInt64 :=
  wordIndices c.word c.offset ++ tailIndices words c.rest c.offset

lemma wordIndices_eq_cons {w : UInt64} (hw : w ≠ 0) (offset : UInt64) :
    wordIndices w offset = (UInt64.ofNat (Word.lowest w) + offset) ::
      wordIndices (w ^^^ Word.single (Word.lowest w)) offset := by
  rw [wordIndices, Word.bitList_eq_cons hw, List.map_cons]
  rfl

lemma remaining_zero (words : Array UInt64) (offset : UInt64) (rest : ℕ) :
    remaining words ⟨0, offset, rest⟩ = tailIndices words rest offset := by
  rw [remaining, wordIndices, Word.bitList_zero, List.map_nil, List.nil_append]

/-- A step takes the head of the indices to visit, and there is none at the end. -/
lemma advance_eq (words : Array UInt64) (w offset : UInt64) (rest : ℕ) :
    (advance words w offset rest = none ∧ remaining words ⟨w, offset, rest⟩ = []) ∨
      ∃ i c, advance words w offset rest = some (i, c) ∧
        remaining words ⟨w, offset, rest⟩ = i :: c.remaining words := by
  fun_induction advance words w offset rest with
  | case1 rest w offset hw k =>
    refine Or.inr ⟨_, _, rfl, ?_⟩
    rw [remaining, wordIndices_eq_cons (bne_iff_ne.1 hw), List.cons_append]
    rfl
  | case2 w offset hw =>
    obtain rfl : w = 0 := by simpa using hw
    exact Or.inl ⟨rfl, remaining_zero words offset 0⟩
  | case3 w offset hw n ih =>
    -- a word without bits is skipped, and the step is made in the next one
    obtain rfl : w = 0 := by simpa using hw
    rw [remaining_zero, tailIndices]
    exact ih

lemma take_eq (words : Array UInt64) (c : Cursor) (n : ℕ) :
    c.take words n = (c.remaining words).take n := by
  induction n generalizing c with
  | zero => rfl
  | succ n ih =>
    rcases advance_eq words c.word c.offset c.rest with ⟨hnone, hrem⟩ | ⟨i, c', hsome, hrem⟩
    · rw [take, next?, hnone, show c.remaining words = [] from hrem]
      rfl
    · rw [take, next?, hsome, show c.remaining words = _ from hrem, List.take_succ_cons, ← ih c']

lemma tailIndices_eq_flatMap (words : Array UInt64) {n : ℕ} (hn : n ≤ words.size) :
    tailIndices words n (UInt64.ofNat (64 * (words.size - n)) - 64) =
      (List.range' (words.size - n) n).flatMap fun j =>
        wordIndices (words.getD j 0) (UInt64.ofNat (64 * j)) := by
  induction n with
  | zero => rfl
  | succ n ih =>
    -- before the first word the offset is below zero; 64-bit arithmetic wraps around and back
    have hoffset : UInt64.ofNat (64 * (words.size - (n + 1)))
        = UInt64.ofNat (64 * (words.size - n)) - 64 := by
      rw [show 64 * (words.size - n) = 64 * (words.size - (n + 1)) + 64 by omega,
        UInt64.ofNat_add]
      exact (UInt64.add_sub_cancel _ _).symm
    rw [tailIndices, UInt64.sub_add_cancel, List.range'_succ, List.flatMap_cons,
      show words.size - (n + 1) + 1 = words.size - n by omega, ← ih (by omega), ← hoffset]

end Cursor

/-! ## What the walk yields -/

namespace BitSet

variable {α : Type}

/-- Before its first step, the walk has to visit the numbers held, ascending, as words. -/
lemma remaining_start (s : BitSet α) :
    (Cursor.start s.words).remaining s.words = s.numbers.map UInt64.ofNat := by
  have htail := Cursor.tailIndices_eq_flatMap s.words (le_refl s.words.size)
  rw [Nat.sub_self] at htail
  rw [Cursor.start, Cursor.remaining_zero]
  refine htail.trans ?_
  rw [numbers_eq_flatMap, List.map_flatMap, ← List.range_eq_range']
  refine List.flatMap_congr fun j _ => ?_
  rw [Cursor.wordIndices, List.map_map]
  refine List.map_congr_left fun k _ => ?_
  rw [Function.comp_apply, UInt64.ofNat_add, UInt64.add_comm]

/-- The walk yields the numbers held, ascending, as words. -/
theorem indices_eq (s : BitSet α) : s.indices = s.numbers.map UInt64.ofNat := by
  have hlength : s.numbers.length ≤ 64 * s.words.size := by
    have := List.length_filter_le s.holds (List.range (64 * s.words.size))
    rwa [List.length_range] at this
  rw [indices, Cursor.take_eq, remaining_start, List.take_of_length_le (by rwa [List.length_map])]

section Elements

variable [DenseIndex α]

/-- The element behind a number held by a valid set. -/
lemma Valid.ofIndex? {s : BitSet α} (hs : s.Valid) {i : ℕ} (hi : s.holds i = true) :
    ∃ a : α, DenseIndex.ofIndex? (UInt64.ofNat i) = some a ∧ number a = i := by
  obtain ⟨a, rfl⟩ := hs i hi
  exact ⟨a, by rw [UInt64.ofNat_toNat, DenseIndex.ofIndex?_index], rfl⟩

/-- The numbers of the elements listed are the numbers held. -/
lemma Valid.map_number_toList {s : BitSet α} (hs : s.Valid) : s.toList.map number = s.numbers := by
  have hstep : ∀ l : List ℕ, (∀ i ∈ l, s.holds i = true) →
      ((l.map UInt64.ofNat).filterMap DenseIndex.ofIndex?).map (number : α → ℕ) = l := by
    intro l
    induction l with
    | nil => exact fun _ => rfl
    | cons i l ih =>
      intro hl
      obtain ⟨a, ha, hnum⟩ := hs.ofIndex? (hl i List.mem_cons_self)
      rw [List.map_cons, List.filterMap_cons_some ha, List.map_cons, hnum,
        ih fun j hj => hl j (List.mem_cons_of_mem i hj)]
  rw [toList, indices_eq]
  exact hstep s.numbers fun i hi => (mem_numbers s i).1 hi

lemma Valid.mem_toList {s : BitSet α} (hs : s.Valid) (a : α) :
    a ∈ s.toList ↔ s.contains a = true := by
  rw [contains_eq_holds, ← mem_numbers, ← hs.map_number_toList, List.mem_map]
  constructor
  · exact fun h => ⟨a, h, rfl⟩
  · intro h
    obtain ⟨b, hb, hnum⟩ := h
    exact number_injective hnum ▸ hb

lemma Valid.nodup_toList {s : BitSet α} (hs : s.Valid) : s.toList.Nodup :=
  List.Nodup.of_map number (hs.map_number_toList ▸ nodup_numbers s)

/-- The elements are listed in ascending order of their numbers. -/
lemma Valid.pairwise_toList {s : BitSet α} (hs : s.Valid) :
    s.toList.Pairwise fun a b => number a < number b := by
  have hnumbers := pairwise_numbers s
  rwa [← hs.map_number_toList, List.pairwise_map] at hnumbers

lemma Valid.count_eq {s : BitSet α} (hs : s.Valid) : s.count = s.toList.length := by
  rw [count_eq_length, ← hs.map_number_toList, List.length_map]

end Elements

end BitSet

end MayAlias
