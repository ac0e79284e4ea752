import Mathlib.Data.List.Nodup
import Mathlib.Data.List.Range
import Mathlib.Tactic.Common
import Mathlib.Tactic.NormNum
import MayAlias.BitSet

/-!
# Bit sets as sets of numbers

Every operation on the words of a bit set is read back through one function: `BitSet.holds s i`
says whether the bit of number `i` is set.  Insertion and union set exactly the bits they should,
and the comparisons are those of the sets of numbers held.

`BitSet.Valid` is what every bit set over an element type has to satisfy for its bits to be read
back as elements: a bit that is set is the number of an element.
-/

namespace MayAlias

/-! ## Bits of one word -/

namespace Word

/-- The bit found by shifting is that of the number the word stands for. -/
lemma bit_eq_testBit (w : UInt64) {k : ℕ} (hk : k < 64) : bit w k = w.toNat.testBit k := by
  have hshift : (w >>> UInt64.ofNat k).toNat = w.toNat >>> k := by
    rw [UInt64.toNat_shiftRight, UInt64.toNat_ofNat', Nat.mod_eq_of_lt (show k < 2 ^ 64 by omega),
      Nat.mod_eq_of_lt hk]
  have hne : ((w >>> UInt64.ofNat k) &&& 1 != 0) = ((w.toNat >>> k) &&& 1 != 0) := by
    rw [Bool.eq_iff_iff, bne_iff_ne, bne_iff_ne, Ne, Ne, ← UInt64.toNat_inj, UInt64.toNat_and,
      hshift]
    rfl
  rw [bit, hne, Nat.testBit, Nat.and_comm]

/-- A word has no bits from the 64th on. -/
lemma testBit_eq_false (w : UInt64) {k : ℕ} (hk : 64 ≤ k) : w.toNat.testBit k = false :=
  Nat.testBit_lt_two_pow
    (Nat.lt_of_lt_of_le w.toNat_lt (Nat.pow_le_pow_right (by norm_num) hk))

/-- Two words with the same bits are equal. -/
lemma eq_of_testBit_eq {v w : UInt64} (h : ∀ k < 64, v.toNat.testBit k = w.toNat.testBit k) :
    v = w := by
  apply UInt64.toNat_inj.1
  apply Nat.eq_of_testBit_eq
  intro k
  by_cases hk : k < 64
  · exact h k hk
  · rw [testBit_eq_false v (by omega), testBit_eq_false w (by omega)]

/-- A word is not zero when one of its bits is set. -/
lemma ne_zero_iff (w : UInt64) : w ≠ 0 ↔ ∃ k < 64, w.toNat.testBit k = true := by
  constructor
  · intro h
    by_contra hno
    -- a word without bits has the bits of zero
    push Not at hno
    apply h
    apply eq_of_testBit_eq
    intro k hk
    rw [Bool.eq_false_iff.2 (hno k hk)]
    simp
  · intro h hzero
    obtain ⟨k, _, hk⟩ := h
    simp [hzero] at hk

/-- A word with a single bit has no other. -/
lemma testBit_single {k : ℕ} (hk : k < 64) (j : ℕ) :
    (single k).toNat.testBit j = decide (j = k) := by
  have hsingle : (single k).toNat = 2 ^ k := by
    rw [single, UInt64.toNat_shiftLeft, UInt64.toNat_ofNat',
      Nat.mod_eq_of_lt (show k < 2 ^ 64 by omega), Nat.mod_eq_of_lt hk, Nat.shiftLeft_eq]
    rw [show (1 : UInt64).toNat = 1 from rfl, Nat.one_mul]
    exact Nat.mod_eq_of_lt (Nat.pow_lt_pow_right (by norm_num) hk)
  rw [hsingle, Nat.testBit_two_pow]
  simp only [eq_comm]

/-- Testing a word against a single bit. -/
lemma and_single_ne_zero (w : UInt64) {k : ℕ} (hk : k < 64) :
    (w &&& single k) ≠ 0 ↔ w.toNat.testBit k = true := by
  rw [ne_zero_iff]
  constructor
  · intro h
    obtain ⟨j, _, hj⟩ := h
    rw [UInt64.toNat_and, Nat.testBit_and, testBit_single hk, Bool.and_eq_true,
      decide_eq_true_eq] at hj
    exact hj.2 ▸ hj.1
  · intro h
    refine ⟨k, hk, ?_⟩
    rw [UInt64.toNat_and, Nat.testBit_and, testBit_single hk, h]
    simp

/-- Masking with a word keeps it when all its bits are there. -/
lemma and_eq_right_iff (w v : UInt64) :
    w &&& v = v ↔ ∀ k < 64, v.toNat.testBit k = true → w.toNat.testBit k = true := by
  constructor
  · intro h k _ hv
    rw [← h, UInt64.toNat_and, Nat.testBit_and, Bool.and_eq_true] at hv
    exact hv.1
  · intro h
    apply eq_of_testBit_eq
    intro k hk
    rw [UInt64.toNat_and, Nat.testBit_and]
    have := h k hk
    cases hv : v.toNat.testBit k <;> simp_all

/-- Adding the bits of a word changes nothing when all of them are there. -/
lemma or_eq_left_iff (w v : UInt64) :
    w ||| v = w ↔ ∀ k < 64, v.toNat.testBit k = true → w.toNat.testBit k = true := by
  constructor
  · intro h k _ hv
    rw [← h, UInt64.toNat_or, Nat.testBit_or, hv, Bool.or_true]
  · intro h
    apply eq_of_testBit_eq
    intro k hk
    rw [UInt64.toNat_or, Nat.testBit_or]
    have := h k hk
    cases hv : v.toNat.testBit k <;> simp_all

/-- The numbers of the set bits of a word, ascending. -/
def bitList (w : UInt64) : List ℕ := (List.range 64).filter fun k => w.toNat.testBit k

lemma mem_bitList {w : UInt64} {k : ℕ} :
    k ∈ bitList w ↔ k < 64 ∧ w.toNat.testBit k = true := by
  rw [bitList, List.mem_filter, List.mem_range]

lemma onesBelow_eq_length (w : UInt64) {k : ℕ} (hk : k ≤ 64) :
    onesBelow w k = ((List.range k).filter fun j => w.toNat.testBit j).length := by
  induction k with
  | zero => rfl
  | succ k ih =>
    rw [onesBelow, ih (by omega), bit_eq_testBit w (by omega), List.range_succ,
      List.filter_append, List.length_append]
    cases h : w.toNat.testBit k <;> simp [h]

/-- The count of ones, with its short cut for zero, is the number of set bits. -/
lemma ones_eq_length (w : UInt64) : ones w = (bitList w).length := by
  unfold ones
  split
  · next h =>
    rw [beq_iff_eq.1 h]
    rfl
  · exact onesBelow_eq_length w le_rfl

/-! ### Combining words -/

section Combine

variable (op : UInt64 → UInt64 → UInt64)

lemma combine_cons (changed old w : UInt64) (out ins : List UInt64) :
    combine op changed (old :: out) (w :: ins) =
      (op old w :: (combine op (changed ||| (old ^^^ op old w)) out ins).1,
        (combine op (changed ||| (old ^^^ op old w)) out ins).2) := rfl

/-- Words without a counterpart are left as they are. -/
lemma combine_nil (changed : UInt64) (out : List UInt64) :
    combine op changed out [] = (out, changed) := by
  cases out <;> rfl

/-- A word with a counterpart is combined with it, and the others stay. -/
lemma getElem?_combine (changed : UInt64) (out ins : List UInt64) (i : ℕ) :
    (combine op changed out ins).1[i]? = out[i]?.map fun old => (ins[i]?).elim old (op old) := by
  induction out generalizing changed ins i with
  | nil => rfl
  | cons old out ih =>
    cases ins with
    | nil => rw [combine_nil]; simp
    | cons w ins =>
      rw [combine_cons]
      cases i with
      | zero => rfl
      | succ i => exact ih _ ins i

@[simp] lemma length_combine (changed : UInt64) (out ins : List UInt64) :
    (combine op changed out ins).1.length = out.length := by
  induction out generalizing changed ins with
  | nil => rfl
  | cons old out ih =>
    cases ins with
    | nil => rw [combine_nil]
    | cons w ins => rw [combine_cons, List.length_cons, List.length_cons, ih]

/-- The words gathered are zero when no word is changed. -/
lemma combine_snd_eq_zero_iff (changed : UInt64) (out ins : List UInt64) :
    (combine op changed out ins).2 = 0 ↔
      changed = 0 ∧ ∀ pair ∈ out.zip ins, op pair.1 pair.2 = pair.1 := by
  induction out generalizing changed ins with
  | nil => simp [combine]
  | cons old out ih =>
    cases ins with
    | nil => rw [combine_nil]; simp
    | cons w ins =>
      rw [combine_cons, ih, UInt64.or_eq_zero_iff, UInt64.xor_eq_zero_iff, List.zip_cons_cons,
        List.forall_mem_cons, and_assoc, @eq_comm _ old]

end Combine
end Word

/-! ## Numbers held by a bit set -/

private lemma all_below_iff (n : ℕ) (f : ℕ → Bool) :
    (n.all fun i _ => f i) = true ↔ ∀ i < n, f i = true := by
  simp [Nat.all_eq_finRange_all, Fin.forall_iff]

/-- Two words that go together in a zip stand at one place. -/
private lemma exists_mem_zip_iff (v w : Array UInt64) (P : UInt64 → UInt64 → Prop) :
    (∃ pair ∈ v.toList.zip w.toList, P pair.1 pair.2) ↔
      ∃ i, i < v.size ∧ i < w.size ∧ P (v.getD i 0) (w.getD i 0) := by
  simp only [List.mem_iff_getElem?, List.getElem?_zip_eq_some, Array.getElem?_toList,
    Array.getD_eq_getD_getElem?]
  constructor
  · intro h
    -- the two words are found at one place, which both arrays have
    obtain ⟨pair, ⟨i, hv, hw⟩, hP⟩ := h
    refine ⟨i, (Array.getElem?_eq_some_iff.1 hv).1, (Array.getElem?_eq_some_iff.1 hw).1, ?_⟩
    rwa [hv, hw]
  · intro h
    obtain ⟨i, hv, hw, hP⟩ := h
    rw [Array.getElem?_eq_getElem hv, Array.getElem?_eq_getElem hw] at hP
    exact ⟨(v[i], w[i]), ⟨i, Array.getElem?_eq_getElem hv, Array.getElem?_eq_getElem hw⟩, hP⟩

namespace BitSet

variable {α : Type}

/-- Is the bit of number `i` set? -/
def holds (s : BitSet α) (i : ℕ) : Bool := (s.word (i / 64)).toNat.testBit (i % 64)

/-- The number `64 * j + k` is bit `k` of word `j`. -/
lemma holds_mul_add (s : BitSet α) (j : ℕ) {k : ℕ} (hk : k < 64) :
    s.holds (64 * j + k) = (s.word j).toNat.testBit k := by
  rw [holds, show (64 * j + k) / 64 = j by omega, show (64 * j + k) % 64 = k by omega]

/-- Behind the last word, words read as zero. -/
lemma word_eq_zero (s : BitSet α) {i : ℕ} (hi : s.words.size ≤ i) : s.word i = 0 := by
  simp [word, Array.getD_eq_getD_getElem?, Array.getElem?_eq_none hi]

/-- No bit lies behind the last word. -/
lemma lt_of_holds {s : BitSet α} {i : ℕ} (hi : s.holds i = true) : i / 64 < s.words.size := by
  by_contra hlt
  rw [holds, word_eq_zero s (by omega)] at hi
  simp at hi

@[simp] lemma holds_empty (i : ℕ) : (empty : BitSet α).holds i = false := by
  rw [holds, word_eq_zero empty (Nat.zero_le _)]
  simp

lemma clear_eq_empty (s : BitSet α) : s.clear = empty := rfl

lemma copy_eq (s source : BitSet α) : s.copy source = source := rfl

lemma size_grow (words : Array UInt64) (n : ℕ) : (grow words n).size = max words.size n := by
  simp only [grow, Array.size_append, Array.size_replicate]
  omega

/-- The words that are added to an array are zero, as they were read before. -/
lemma getD_grow (words : Array UInt64) (n i : ℕ) : (grow words n).getD i 0 = words.getD i 0 := by
  simp only [grow, Array.getD_eq_getD_getElem?, Array.getElem?_append]
  split
  · rfl
  · next hi =>
    rw [Array.getElem?_eq_none (show words.size ≤ i by omega), Array.getElem?_replicate]
    split <;> rfl

/-! ### Comparisons -/

/-- Two bit sets compare by inclusion of the numbers they hold. -/
lemma superset_iff (s t : BitSet α) :
    s.superset t = true ↔ ∀ i, t.holds i = true → s.holds i = true := by
  simp only [superset, all_below_iff, beq_iff_eq, Word.and_eq_right_iff]
  constructor
  · intro h i hi
    -- number `i` is bit `i % 64` of word `i / 64`
    exact h (i / 64) (lt_of_holds hi) (i % 64) (by omega) hi
  · intro h j _ k hk hv
    rw [← holds_mul_add s j hk]
    apply h
    rw [holds_mul_add t j hk]
    exact hv

/-- Words that both sets have are enough to find a number that both hold. -/
lemma intersects_iff (s t : BitSet α) :
    s.intersects t = true ↔ ∃ i, s.holds i = true ∧ t.holds i = true := by
  have hzip : s.intersects t = true ↔
      ∃ pair ∈ s.words.toList.zip t.words.toList, (pair.1 &&& pair.2) ≠ 0 := by
    simp [intersects]
  rw [hzip, exists_mem_zip_iff s.words t.words fun a b => (a &&& b) ≠ 0]
  simp only [Word.ne_zero_iff, UInt64.toNat_and, Nat.testBit_and, Bool.and_eq_true]
  constructor
  · intro h
    obtain ⟨j, _, _, k, hk, hs, ht⟩ := h
    refine ⟨64 * j + k, ?_, ?_⟩
    · rw [holds_mul_add s j hk]
      exact hs
    · rw [holds_mul_add t j hk]
      exact ht
  · intro h
    obtain ⟨i, hs, ht⟩ := h
    exact ⟨i / 64, lt_of_holds hs, lt_of_holds ht, i % 64, by omega, hs, ht⟩

/-- Zero words hold no number. -/
lemma isEmpty_iff (s : BitSet α) : s.isEmpty = true ↔ ∀ i, s.holds i = false := by
  have hwords : s.isEmpty = true ↔ ∀ j < s.words.size, s.word j = 0 := by
    simp only [isEmpty, Array.all_eq_true, beq_iff_eq]
    refine forall_congr' fun j => forall_congr' fun hj => ?_
    rw [word, Array.getD_eq_getD_getElem?, Array.getElem?_eq_getElem hj, Option.getD_some]
  rw [hwords]
  constructor
  · intro h i
    by_cases hi : i / 64 < s.words.size
    · rw [holds, h _ hi]
      simp
    · exact Bool.eq_false_iff.2 fun hholds => hi (lt_of_holds hholds)
  · intro h j _
    apply Word.eq_of_testBit_eq
    intro k hk
    rw [← holds_mul_add s j hk, h]
    simp

/-- Bit sets that hold the same numbers have the same words, up to zero words at the end. -/
lemma word_eq_of_holds_eq {s t : BitSet α} (h : ∀ i, s.holds i = t.holds i) (j : ℕ) :
    s.word j = t.word j := by
  apply Word.eq_of_testBit_eq
  intro k hk
  rw [← holds_mul_add s j hk, ← holds_mul_add t j hk, h]

lemma toList_words (s : BitSet α) : s.words.toList = (List.range s.words.size).map s.word := by
  apply List.ext_getElem
  · simp
  · intro i h₁ h₂
    simp at h₁
    simp [word, Array.getD_eq_getD_getElem?, h₁]

/-! ### The last word -/

/-- The last word, if there is one, is not zero. -/
def Trimmed (s : BitSet α) : Prop := s.words.back? ≠ some 0

/-- The last word in terms of the look-up. -/
lemma trimmed_iff (s : BitSet α) :
    s.Trimmed ↔ (0 < s.words.size → s.word (s.words.size - 1) ≠ 0) := by
  rw [Trimmed, Array.back?_eq_getElem?, word, Array.getD_eq_getD_getElem?]
  by_cases hsize : 0 < s.words.size <;> simp [hsize]

/-- Sets without zero words at the end that hold the same numbers have the same words. -/
lemma Trimmed.words_eq {s t : BitSet α} (hs : s.Trimmed) (ht : t.Trimmed)
    (h : ∀ i, s.holds i = t.holds i) : s.words = t.words := by
  rw [trimmed_iff] at hs ht
  have hword := word_eq_of_holds_eq h
  -- the longer set would have a word that is not zero behind the end of the other
  have hsize : s.words.size = t.words.size := by
    by_contra hne
    rcases Nat.lt_or_gt_of_ne hne with hlt | hlt
    · exact ht (by omega) (by rw [← hword, word_eq_zero s (by omega)])
    · exact hs (by omega) (by rw [hword, word_eq_zero t (by omega)])
  rw [← Array.toList_inj, toList_words, toList_words, hsize]
  exact List.map_congr_left fun i _ => hword i

lemma significant_le (s : BitSet α) (n : ℕ) : s.significant n ≤ n := by
  induction n with
  | zero => exact Nat.le_refl 0
  | succ n ih =>
    rw [significant]
    split
    · exact Nat.le_refl _
    · exact Nat.le_succ_of_le ih

/-- The last of the significant words is not zero. -/
lemma word_significant_ne_zero (s : BitSet α) {n : ℕ} (hpos : 0 < s.significant n) :
    s.word (s.significant n - 1) ≠ 0 := by
  induction n with
  | zero => exact absurd hpos (Nat.lt_irrefl 0)
  | succ n ih =>
    rw [significant] at hpos ⊢
    split at hpos
    · next hne =>
      rw [if_pos hne]
      exact bne_iff_ne.1 hne
    · next hzero =>
      rw [if_neg hzero]
      exact ih hpos

/-- Behind the significant words there are only zero words. -/
lemma word_eq_zero_of_significant_le (s : BitSet α) {n i : ℕ} (hi : s.significant n ≤ i)
    (hn : i < n) : s.word i = 0 := by
  induction n with
  | zero => exact absurd hn (Nat.not_lt_zero i)
  | succ n ih =>
    rw [significant] at hi
    split at hi
    · exact absurd hn (Nat.not_lt_of_le hi)
    · next hzero =>
      rcases Nat.lt_succ_iff_lt_or_eq.1 hn with hlt | rfl
      · exact ih hi hlt
      · simpa using hzero

/-- The set with the significant words only. -/
def trim (s : BitSet α) : BitSet α := ⟨s.significantWords⟩

lemma size_trim (s : BitSet α) : s.trim.words.size = s.significant s.words.size := by
  rw [trim, significantWords, Array.take_eq_extract, Array.size_extract,
    Nat.min_eq_left (s.significant_le _), Nat.sub_zero]

/-- Only zero words are cut off, so every word reads as before. -/
lemma word_trim (s : BitSet α) (i : ℕ) : s.trim.word i = s.word i := by
  by_cases hi : i < s.significant s.words.size
  · have hsize : i < s.words.size := Nat.lt_of_lt_of_le hi (s.significant_le _)
    simp [word, trim, significantWords, Array.getD_eq_getD_getElem?, hi, hsize]
  · rw [word_eq_zero s.trim (by rw [size_trim]; omega)]
    by_cases hsize : i < s.words.size
    · exact (s.word_eq_zero_of_significant_le (by omega) hsize).symm
    · exact (word_eq_zero s (by omega)).symm

/-- What is left after trimming ends with a word that is not zero. -/
lemma trimmed_trim (s : BitSet α) : s.trim.Trimmed := by
  rw [trimmed_iff, size_trim, word_trim]
  exact s.word_significant_ne_zero

/-- The comparison of the significant words is that of the numbers held. -/
lemma beq_iff (s t : BitSet α) : (s == t) = true ↔ ∀ i, s.holds i = t.holds i := by
  have hholds : ∀ (u : BitSet α) i, u.trim.holds i = u.holds i := fun u i => by
    rw [holds, holds, word_trim]
  have hwords : (s == t) = true ↔ s.trim.words = t.trim.words := by
    show (s.significantWords == t.significantWords) = true ↔ _
    rw [beq_iff_eq]
    rfl
  rw [hwords]
  constructor
  · intro h i
    rw [← hholds s, ← hholds t, holds, holds, word, word, h]
  · intro h
    apply s.trimmed_trim.words_eq t.trimmed_trim
    intro i
    rw [hholds, hholds, h]

/-! ### Union -/

/-- Room for all bits of `n` words is room for `n` words. -/
lemma wordsFor_mul (n : ℕ) : wordsFor (64 * n) = n := by
  rw [wordsFor]
  omega

lemma words_union (s t : BitSet α) :
    (s.union t).1.words =
      (Word.combine (· ||| ·) 0 (grow s.words t.words.size).toList t.words.toList).1.toArray := by
  rw [union, wordsFor_mul]

/-- A union has as many words as the longer set. -/
lemma size_union (s t : BitSet α) :
    (s.union t).1.words.size = max s.words.size t.words.size := by
  rw [words_union, List.size_toArray, Word.length_combine, Array.length_toList, size_grow]

/-- Words are joined place by place, where a missing word is zero. -/
lemma word_union (s t : BitSet α) (i : ℕ) : (s.union t).1.word i = s.word i ||| t.word i := by
  by_cases hi : i < (grow s.words t.words.size).size
  · have hgrow : (grow s.words t.words.size)[i]? = some (s.word i) := by
      have hget := getD_grow s.words t.words.size i
      rw [Array.getD_eq_getD_getElem?, Array.getElem?_eq_getElem hi, Option.getD_some] at hget
      rw [Array.getElem?_eq_getElem hi, hget, word]
    have hother : t.word i = t.words[i]?.getD 0 := Array.getD_eq_getD_getElem?
    rw [hother, word, words_union, Array.getD_eq_getD_getElem?, List.getElem?_toArray,
      Word.getElem?_combine, Array.getElem?_toList, Array.getElem?_toList, hgrow]
    cases t.words[i]? with
    | none => simp
    | some w => rfl
  -- behind the end of the longer array both words are zero
  · rw [size_grow] at hi
    rw [word_eq_zero _ (by rw [size_union]; omega), word_eq_zero s (by omega),
      word_eq_zero t (by omega), UInt64.or_self]

/-- A union holds the numbers of both sets. -/
@[simp] lemma holds_union (s t : BitSet α) (i : ℕ) :
    (s.union t).1.holds i = (s.holds i || t.holds i) := by
  rw [holds, word_union, UInt64.toNat_or, Nat.testBit_or]
  rfl

/-- The bits that a union gathers are those of the words which it changes. -/
lemma union_snd_iff_words (s t : BitSet α) :
    (s.union t).2 = true ↔ ∃ j < t.words.size, s.word j ||| t.word j ≠ s.word j := by
  have hzip : (s.union t).2 = true ↔
      ∃ pair ∈ (grow s.words t.words.size).toList.zip t.words.toList,
        pair.1 ||| pair.2 ≠ pair.1 := by
    show ((Word.combine (· ||| ·) 0 (grow s.words (wordsFor (64 * t.words.size))).toList
      t.words.toList).2 != 0) = true ↔ _
    rw [wordsFor_mul, bne_iff_ne, Ne, Word.combine_snd_eq_zero_iff]
    simp
  rw [hzip, exists_mem_zip_iff _ t.words fun a b => a ||| b ≠ a]
  simp only [getD_grow, size_grow]
  refine exists_congr fun j => ⟨fun h => h.2, fun h => ⟨?_, h⟩⟩
  exact Nat.lt_of_lt_of_le h.1 (Nat.le_max_right _ _)

/-- The flag of a union is raised when a number is held that was not held before. -/
lemma union_snd_iff (s t : BitSet α) :
    (s.union t).2 = true ↔ ∃ i, t.holds i = true ∧ s.holds i = false := by
  rw [union_snd_iff_words]
  simp only [Ne, Word.or_eq_left_iff]
  constructor
  · intro h
    obtain ⟨j, _, h⟩ := h
    push Not at h
    obtain ⟨k, hk, ht, hs⟩ := h
    refine ⟨64 * j + k, ?_, ?_⟩
    · rw [holds_mul_add t j hk]
      exact ht
    · rw [holds_mul_add s j hk]
      exact Bool.eq_false_iff.2 hs
  · intro h
    obtain ⟨i, ht, hs⟩ := h
    refine ⟨i / 64, lt_of_holds ht, fun hall => ?_⟩
    have hbit := hall (i % 64) (by omega) ht
    exact Bool.false_ne_true (hs.symm.trans hbit)

/-! ### Counting -/

/-- The numbers held, ascending. -/
def numbers (s : BitSet α) : List ℕ := (List.range (64 * s.words.size)).filter s.holds

/-- All numbers held lie within the words. -/
lemma mem_numbers (s : BitSet α) (i : ℕ) : i ∈ s.numbers ↔ s.holds i = true := by
  rw [numbers, List.mem_filter, List.mem_range]
  constructor
  · exact fun h => h.2
  · intro h
    have := lt_of_holds h
    exact ⟨by omega, h⟩

lemma nodup_numbers (s : BitSet α) : s.numbers.Nodup := List.nodup_range.filter _

lemma pairwise_numbers (s : BitSet α) : s.numbers.Pairwise (· < ·) :=
  List.pairwise_lt_range.filter _

/-- The numbers held, word by word. -/
lemma numbers_eq_flatMap (s : BitSet α) :
    s.numbers =
      (List.range s.words.size).flatMap fun j => (Word.bitList (s.word j)).map (64 * j + ·) := by
  unfold numbers
  induction s.words.size with
  | zero => rfl
  | succ n ih =>
    -- the last 64 numbers are the bits of the last word
    have hword : (List.range 64).filter (s.holds ∘ (64 * n + ·)) = Word.bitList (s.word n) := by
      apply List.filter_congr
      intro k hk
      exact holds_mul_add s n (List.mem_range.1 hk)
    rw [Nat.mul_succ, List.range_add, List.filter_append, ih, List.filter_map, hword,
      List.range_succ, List.flatMap_append, List.flatMap_singleton]

/-- The bits of the single words add up to the number of elements. -/
lemma count_eq_length (s : BitSet α) : s.count = s.numbers.length := by
  have hfold : ∀ (ws : List UInt64) (n : ℕ),
      ws.foldl (fun n w => n + Word.ones w) n = n + (ws.map Word.ones).sum := by
    intro ws
    induction ws with
    | nil => simp
    | cons w ws ih =>
      intro n
      rw [List.foldl_cons, ih, List.map_cons, List.sum_cons]
      omega
  rw [count, ← Array.foldl_toList, hfold, toList_words, numbers_eq_flatMap, List.length_flatMap,
    List.map_map, Nat.zero_add]
  simp only [Function.comp_def, List.length_map, Word.ones_eq_length]

/-! ## Elements -/

section Elements

variable [DenseIndex α]

/-- The number of an element. -/
abbrev number (a : α) : ℕ := (DenseIndex.index a).toNat

/-- Elements are told apart by their numbers. -/
lemma number_injective {a b : α} (h : number a = number b) : a = b :=
  DenseIndex.index_injective (UInt64.toNat_inj.1 h)

/-- Every bit that is set is the number of an element. -/
def Valid (s : BitSet α) : Prop := ∀ i, s.holds i = true → ∃ a : α, number a = i

/-- An element is contained when its number is held. -/
lemma contains_eq_holds (s : BitSet α) (a : α) : s.contains a = s.holds (number a) := by
  rw [Bool.eq_iff_iff, contains, bne_iff_ne, mask, Word.and_single_ne_zero _ (by omega)]
  rfl

/-- Once there is room for an element, the word with its bit is there. -/
lemma wordIndex_lt_size_room (s : BitSet α) (a : α) : wordIndex a < (s.room a).size := by
  rw [room, size_grow, wordIndex, wordsFor]
  omega

/-- Insertion changes only the word with the bit of the element. -/
lemma word_insert (s : BitSet α) (a : α) (i : ℕ) :
    (s.insert a).1.word i = if i = wordIndex a then s.word i ||| mask a else s.word i := by
  have hroom := wordIndex_lt_size_room s a
  have hgrow : (s.room a).getD i 0 = s.word i := getD_grow s.words _ i
  simp only [Array.getD_eq_getD_getElem?] at hgrow
  simp only [insert, word, Array.getD_eq_getD_getElem?, Array.getElem?_setIfInBounds]
  by_cases hi : i = wordIndex a
  · subst hi
    simp [hroom]
  · rw [if_neg (Ne.symm hi), if_neg hi, hgrow]
    simp [word, Array.getD_eq_getD_getElem?]

/-- Insertion adds the number of the element and no other. -/
@[simp] lemma holds_insert (s : BitSet α) (a : α) (i : ℕ) :
    (s.insert a).1.holds i = (s.holds i || decide (i = number a)) := by
  rw [holds, word_insert, holds]
  by_cases hi : i / 64 = wordIndex a
  · rw [if_pos hi, UInt64.toNat_or, Nat.testBit_or, mask, Word.testBit_single (by omega)]
    congr 1
    rw [decide_eq_decide]
    -- in the word of `a`, a number is that of `a` when the places in the word agree
    unfold wordIndex at hi
    unfold number
    omega
  · have hne : i ≠ number a := fun h => hi (by rw [h]; rfl)
    rw [if_neg hi, decide_eq_false hne, Bool.or_false]

/-- Insertion adds one element. -/
lemma contains_insert (s : BitSet α) (a b : α) :
    (s.insert a).1.contains b = true ↔ s.contains b = true ∨ b = a := by
  rw [contains_eq_holds, contains_eq_holds, holds_insert, Bool.or_eq_true, decide_eq_true_eq]
  exact or_congr_right ⟨number_injective, fun h => h ▸ rfl⟩

/-- The flag of an insertion is raised when the element is new. -/
lemma insert_snd_iff (s : BitSet α) (a : α) : (s.insert a).2 = true ↔ s.contains a = false := by
  have hk : number a % 64 < 64 := Nat.mod_lt _ (by omega)
  show (s.word (wordIndex a) ||| mask a != s.word (wordIndex a)) = true ↔ _
  rw [bne_iff_ne, Ne, Word.or_eq_left_iff, contains_eq_holds, ← Bool.not_eq_true]
  apply not_congr
  constructor
  · intro h
    exact h _ hk (by rw [mask, Word.testBit_single hk]; simp)
  · intro h k _ hmask
    rw [mask, Word.testBit_single hk, decide_eq_true_eq] at hmask
    rw [hmask]
    exact h

/-- A union has the elements of both sets. -/
lemma contains_union (s t : BitSet α) (a : α) :
    (s.union t).1.contains a = true ↔ s.contains a = true ∨ t.contains a = true := by
  simp only [contains_eq_holds, holds_union, Bool.or_eq_true]

@[simp] lemma contains_empty (a : α) : (empty : BitSet α).contains a = false := by
  rw [contains_eq_holds, holds_empty]

lemma valid_empty : (empty : BitSet α).Valid := by
  intro i hi
  simp at hi

/-- The bit that is added is the number of an element. -/
lemma Valid.insert {s : BitSet α} (hs : s.Valid) (a : α) : (s.insert a).1.Valid := by
  intro i hi
  rw [holds_insert, Bool.or_eq_true, decide_eq_true_eq] at hi
  rcases hi with hi | hi
  · exact hs i hi
  · exact ⟨a, hi.symm⟩

/-- A union adds no bit that neither set had. -/
lemma Valid.union {s t : BitSet α} (hs : s.Valid) (ht : t.Valid) : (s.union t).1.Valid := by
  intro i hi
  rw [holds_union, Bool.or_eq_true] at hi
  exact hi.elim (hs i) (ht i)

/-- On valid sets, inclusion is a question about elements. -/
lemma superset_iff_contains {s t : BitSet α} (ht : t.Valid) :
    s.superset t = true ↔ ∀ a, t.contains a = true → s.contains a = true := by
  simp only [superset_iff, contains_eq_holds]
  constructor
  · exact fun h a => h (number a)
  · intro h i hi
    obtain ⟨a, rfl⟩ := ht i hi
    exact h a hi

/-- A number that both valid sets hold is that of a shared element. -/
lemma intersects_iff_contains {s t : BitSet α} (hs : s.Valid) :
    s.intersects t = true ↔ ∃ a, s.contains a = true ∧ t.contains a = true := by
  simp only [intersects_iff, contains_eq_holds]
  constructor
  · intro h
    obtain ⟨i, hi, hti⟩ := h
    obtain ⟨a, rfl⟩ := hs i hi
    exact ⟨a, hi, hti⟩
  · intro h
    obtain ⟨a, ha⟩ := h
    exact ⟨number a, ha⟩

/-- A valid set without elements has no bits. -/
lemma isEmpty_iff_contains {s : BitSet α} (hs : s.Valid) :
    s.isEmpty = true ↔ ∀ a, s.contains a = false := by
  simp only [isEmpty_iff, contains_eq_holds]
  constructor
  · exact fun h a => h (number a)
  · intro h i
    by_contra hi
    obtain ⟨a, rfl⟩ := hs i (Bool.eq_true_of_not_eq_false hi)
    exact hi (h a)

/-- Valid sets with the same elements hold the same numbers. -/
lemma holds_eq_of_contains {s t : BitSet α} (hs : s.Valid) (ht : t.Valid)
    (h : ∀ a, s.contains a = true ↔ t.contains a = true) (i : ℕ) : s.holds i = t.holds i := by
  simp only [contains_eq_holds] at h
  rw [Bool.eq_iff_iff]
  constructor
  · intro hi
    obtain ⟨a, rfl⟩ := hs i hi
    exact (h a).1 hi
  · intro hi
    obtain ⟨a, rfl⟩ := ht i hi
    exact (h a).2 hi

/-- On valid sets, the comparison of words is that of elements. -/
lemma beq_iff_contains {s t : BitSet α} (hs : s.Valid) (ht : t.Valid) :
    (s == t) = true ↔ ∀ a, s.contains a = true ↔ t.contains a = true := by
  rw [beq_iff]
  constructor
  · intro h a
    rw [contains_eq_holds, contains_eq_holds, h]
  · exact holds_eq_of_contains hs ht

/-- On valid sets, the flag of a union is raised by a new element. -/
lemma union_snd_iff_contains {s t : BitSet α} (ht : t.Valid) :
    (s.union t).2 = true ↔ ∃ a, t.contains a = true ∧ s.contains a = false := by
  simp only [union_snd_iff, contains_eq_holds]
  constructor
  · intro h
    obtain ⟨i, hi, hsi⟩ := h
    obtain ⟨a, rfl⟩ := ht i hi
    exact ⟨a, hi, hsi⟩
  · intro h
    obtain ⟨a, ha⟩ := h
    exact ⟨number a, ha⟩

end Elements

end BitSet

end MayAlias
