import MayAlias.Proofs.BitSetScript

/-!
# Places in the walk over a bit set

The walk computes with 64-bit words, which wrap around, and its offset starts 64 below zero.  Here
every place that the walk comes to, between two steps or in the middle of one (`Cursor.Reached`), is
described in natural numbers: behind the start, the offset is 64 times the index of the current word
(`Cursor.InWord`).

On a set that a script made, the words end where the 32-bit numbers end.  So the index of a bit that
is found does not wrap around and is the index of an element, and the walk yields the elements of
the set, each once and ascending, before it ends (`BitSet.Walkable`).
-/

namespace MayAlias

/-! ## Clearing the lowest bit -/

namespace Word

/-- A word that is not zero has a lowest bit. -/
lemma lowest_mem_bitList {w : UInt64} (hw : w ≠ 0) : lowest w ∈ bitList w := by
  rw [bitList_eq_cons hw]
  exact List.mem_cons_self

/-- Without its lowest bit, a word has the later ones of its bits. -/
lemma bitList_clear_isSuffix {w : UInt64} (hw : w ≠ 0) :
    bitList (w ^^^ single (lowest w)) <:+ bitList w := by
  rw [bitList_eq_cons hw]
  exact List.suffix_cons _ _

end Word

namespace Cursor

/-! ## Where the walk gets to -/

/-- The places that the walk over `words` comes to.  It loads the next word when the current one has
no bits left, and it clears the bit that it yields. -/
inductive Reached (words : Array UInt64) : Cursor → Prop
  | start : Reached words (start words)
  | load {offset : UInt64} {n : ℕ} : Reached words ⟨0, offset, n + 1⟩ →
      Reached words ⟨words.getD (words.size - (n + 1)) 0, offset + 64, n⟩
  | clear {word offset : UInt64} {rest : ℕ} : Reached words ⟨word, offset, rest⟩ → word ≠ 0 →
      Reached words ⟨word ^^^ Word.single (Word.lowest word), offset, rest⟩

/-- A step yields the index of the lowest bit at a place reached, and it ends at a place reached. -/
lemma Reached.next? {words : Array UInt64} {c d : Cursor} {i : UInt64} (hc : c.Reached words)
    (hstep : c.next? words = some (i, d)) :
    d.Reached words ∧ ∃ e : Cursor, e.Reached words ∧ e.word ≠ 0 ∧
      i = UInt64.ofNat (Word.lowest e.word) + e.offset := by
  obtain ⟨word, offset, rest⟩ := c
  rw [Cursor.next?] at hstep
  -- the recursion of the search: a word without bits is followed by the next word
  fun_induction advance words word offset rest with
  | case1 rest word offset hword k =>
    have hne : word ≠ 0 := bne_iff_ne.1 hword
    obtain ⟨rfl, rfl⟩ := Prod.mk.inj (Option.some.inj hstep)
    exact ⟨hc.clear hne, _, hc, hne, rfl⟩
  | case2 => exact absurd hstep (by simp)
  | case3 word offset hword n ih =>
    have hzero : word = 0 := by simpa using hword
    subst hzero
    exact ih hc.load hstep

/-- `c` stands in word `j`: the words behind that one are still to come, the offset is the index of
its first bit, and some of its lowest bits are cleared. -/
structure InWord (words : Array UInt64) (c : Cursor) (j : ℕ) : Prop where
  rest_eq : j + 1 + c.rest = words.size
  offset_eq : c.offset.toNat = 64 * j
  bits : Word.bitList c.word <:+ Word.bitList (words.getD j 0)

/-- From the start, the offset wraps around to zero with the first word. -/
lemma inWord_load_start {words : Array UInt64} {n : ℕ} (hn : n + 1 = words.size) :
    InWord words ⟨words.getD (words.size - (n + 1)) 0, 0 - 64 + 64, n⟩ 0 where
  rest_eq := by
    show 0 + 1 + n = words.size
    omega
  offset_eq := by
    show (0 - 64 + 64 : UInt64).toNat = 64 * 0
    rw [UInt64.sub_add_cancel]
    rfl
  bits := by
    rw [hn, Nat.sub_self]

/-- From one word to the next, the offset grows by 64. -/
lemma InWord.load {words : Array UInt64} {word offset : UInt64} {n j : ℕ}
    (h : InWord words ⟨word, offset, n + 1⟩ j) (hsize : 64 * words.size ≤ 18446744073709551616) :
    InWord words ⟨words.getD (words.size - (n + 1)) 0, offset + 64, n⟩ (j + 1) := by
  have hrest : j + 1 + (n + 1) = words.size := h.rest_eq
  have hoffset : offset.toNat = 64 * j := h.offset_eq
  refine ⟨?_, ?_, ?_⟩
  · show j + 1 + 1 + n = words.size
    omega
  -- no wrap-around: the words that are there have indices of 64 bits
  · show (offset + 64).toNat = 64 * (j + 1)
    rw [UInt64.toNat_add, hoffset, show (64 : UInt64).toNat = 64 from rfl]
    omega
  · rw [show words.size - (n + 1) = j + 1 by omega]

/-- Clearing the lowest bit stays in the word. -/
lemma InWord.clear {words : Array UInt64} {word offset : UInt64} {rest j : ℕ}
    (h : InWord words ⟨word, offset, rest⟩ j) (hword : word ≠ 0) :
    InWord words ⟨word ^^^ Word.single (Word.lowest word), offset, rest⟩ j :=
  ⟨h.rest_eq, h.offset_eq, (Word.bitList_clear_isSuffix hword).trans h.bits⟩

/-- The walk is before the first word or in one of the words. -/
lemma Reached.start_or_inWord {words : Array UInt64} {c : Cursor} (hc : c.Reached words)
    (hsize : 64 * words.size ≤ 18446744073709551616) :
    c = Cursor.start words ∨ ∃ j, c.InWord words j := by
  induction hc with
  | start => exact Or.inl rfl
  | load _ ih =>
    rcases ih with hstart | ⟨j, hj⟩
    · obtain ⟨-, rfl, hn⟩ := Cursor.mk.inj hstart
      exact Or.inr ⟨0, inWord_load_start hn⟩
    · exact Or.inr ⟨j + 1, hj.load hsize⟩
  | clear _ hword ih =>
    rcases ih with hstart | ⟨j, hj⟩
    -- there is nothing to clear before the first word
    · exact absurd (Cursor.mk.inj hstart).1 hword
    · exact Or.inr ⟨j, hj.clear hword⟩

/-! ## What is yielded -/

/-- The steps from `c` yield the listed elements, one after the other, and then there is no step
left.  Each index that a step yields is the index of an element. -/
def Yields {α : Type} [DenseIndex α] (words : Array UInt64) (c : Cursor) : List α → Prop
  | [] => c.next? words = none
  | a :: l => ∃ i d, c.next? words = some (i, d) ∧ DenseIndex.ofIndex? i = some a ∧
      d.Yields words l

/-- The walk yields the elements whose indices are still to be visited. -/
lemma yields_of_remaining {α : Type} [DenseIndex α] {words : Array UInt64} {c : Cursor}
    {l : List α} (h : c.remaining words = l.map DenseIndex.index) : c.Yields words l := by
  induction l generalizing c with
  | nil =>
    rcases advance_eq words c.word c.offset c.rest with ⟨hnone, -⟩ | ⟨i, d, -, hrem⟩
    · exact hnone
    · exact absurd (h.symm.trans hrem) (List.cons_ne_nil _ _).symm
  | cons a l ih =>
    rcases advance_eq words c.word c.offset c.rest with ⟨-, hrem⟩ | ⟨i, d, hsome, hrem⟩
    · exact absurd (h.symm.trans hrem) (List.cons_ne_nil _ _)
    · obtain ⟨hi, hd⟩ := List.cons.inj (hrem.symm.trans h)
      refine ⟨i, d, hsome, ?_, ih hd⟩
      rw [hi, DenseIndex.ofIndex?_index]

end Cursor

namespace BitSet

variable {α : Type}

/-- The lowest bit at a place in a word is a bit of the set. -/
lemma holds_lowest {s : BitSet α} {c : Cursor} {j : ℕ} (h : c.InWord s.words j)
    (hword : c.word ≠ 0) : s.holds (Word.lowest c.word + c.offset.toNat) = true := by
  obtain ⟨hlt, hbit⟩ := Word.mem_bitList.1 (h.bits.subset (Word.lowest_mem_bitList hword))
  rw [h.offset_eq, Nat.add_comm, holds_mul_add s j hlt]
  exact hbit

variable [DenseIndex α]

/-- From the start, the walk yields the elements listed. -/
lemma Valid.yields_toList {s : BitSet α} (hs : s.Valid) :
    (Cursor.start s.words).Yields s.words s.toList := by
  apply Cursor.yields_of_remaining
  rw [remaining_start, ← hs.map_number_toList, List.map_map]
  refine List.map_congr_left fun a _ => ?_
  rw [Function.comp_apply, number, UInt64.ofNat_toNat]

/-- The last word holds a number of 32 bits, so no word lies behind these numbers. -/
lemma Trimmed.size_le {s : BitSet α} (ht : s.Trimmed) (hs : s.Valid)
    (hα : ∀ a : α, number a < 4294967296) : 64 * s.words.size ≤ 4294967296 := by
  by_cases hpos : 0 < s.words.size
  -- the last word holds a number, which is that of an element
  · obtain ⟨k, hk, hbit⟩ := (Word.ne_zero_iff _).1 ((trimmed_iff s).1 ht hpos)
    rw [← holds_mul_add s _ hk] at hbit
    obtain ⟨a, ha⟩ := hs _ hbit
    have hlt := hα a
    omega
  · omega

/-- The lowest bit at a place in a word is that of an element, and its index does not wrap
around. -/
lemma Valid.element_at {s : BitSet α} (hs : s.Valid) {c : Cursor} {j : ℕ}
    (h : c.InWord s.words j) (hword : c.word ≠ 0) :
    Word.lowest c.word + c.offset.toNat < 18446744073709551616 ∧
      ∃ a : α, DenseIndex.ofIndex? (UInt64.ofNat (Word.lowest c.word) + c.offset) = some a ∧
        s.contains a = true := by
  have hholds := holds_lowest h hword
  obtain ⟨a, ha, hnum⟩ := hs.ofIndex? hholds
  refine ⟨?_, a, ?_, ?_⟩
  · rw [← hnum]
    exact UInt64.toNat_lt _
  · rw [← ha, UInt64.ofNat_add, UInt64.ofNat_toNat]
  · rw [contains_eq_holds, hnum]
    exact hholds

/-- Nothing goes wrong when the elements of `s` are visited one after the other, or when an element
is added. -/
structure Walkable (s : BitSet α) : Prop where
  /-- The walk yields the elements listed and then ends. -/
  yields : (Cursor.start s.words).Yields s.words s.toList
  mem_toList : ∀ a, a ∈ s.toList ↔ s.contains a = true
  ascending : s.toList.Pairwise fun a b => number a < number b
  /-- The offset starts 64 below zero and wraps around with the first word. -/
  start_offset : (Cursor.start s.words).offset.toNat = 18446744073709551615 - 63 ∧
    (Cursor.start s.words).offset + 64 = 0
  /-- Behind the start, the offset is that of the current word. -/
  places : ∀ c : Cursor, c.Reached s.words →
    c = Cursor.start s.words ∨ ∃ j, c.InWord s.words j
  /-- A step finds its bit at one of the places. -/
  steps : ∀ (c d : Cursor) (i : UInt64), c.Reached s.words → c.next? s.words = some (i, d) →
    d.Reached s.words ∧ ∃ e : Cursor, e.Reached s.words ∧ e.word ≠ 0 ∧
      i = UInt64.ofNat (Word.lowest e.word) + e.offset
  /-- The index of a bit that is found fits into 64 bits, and is that of an element. -/
  found : ∀ c : Cursor, c.Reached s.words → c.word ≠ 0 →
    Word.lowest c.word + c.offset.toNat < 18446744073709551616 ∧
      ∃ a : α, DenseIndex.ofIndex? (UInt64.ofNat (Word.lowest c.word) + c.offset) = some a ∧
        s.contains a = true
  /-- An element can be added, and the word for its bit is there once the words have grown. -/
  insertable : ∀ a, s.insert? a = some (s.insert a) ∧ wordIndex a < (s.room a).size

lemma Valid.walkable {s : BitSet α} (hs : s.Valid) (ht : s.Trimmed)
    (hα : ∀ a : α, number a < 4294967296) : s.Walkable := by
  have hplaces : ∀ c : Cursor, c.Reached s.words →
      c = Cursor.start s.words ∨ ∃ j, c.InWord s.words j := by
    intro c hc
    have hsize := ht.size_le hs hα
    exact hc.start_or_inWord (by omega)
  refine
    { yields := hs.yields_toList
      mem_toList := hs.mem_toList
      ascending := hs.pairwise_toList
      start_offset := ⟨rfl, UInt64.sub_add_cancel 0 64⟩
      places := hplaces
      steps := fun c d i hc hstep => hc.next? hstep
      found := fun c hc hword => ?_
      insertable := fun a =>
        ⟨if_pos (storable_of_number_lt (hα a)), wordIndex_lt_size_room s a⟩ }
  rcases hplaces c hc with rfl | ⟨j, hj⟩
  -- before the first word there is no bit
  · exact absurd rfl hword
  · exact hs.element_at hj hword

lemma exists_walkable [DecidableEq α] (hα : ∀ a : α, number a < 4294967296) {ρ : Type}
    [DecidableEq ρ] (script : List (SetStep ρ α)) :
    ∃ sets answers, (kind α).run? script = some (sets, answers) ∧ ∀ r, (sets r).Walkable := by
  have hsim := SetKind.simulates_of_byMembership
    (kind_byMembership fun a => storable_of_number_lt (hα a))
  obtain ⟨sets, _, answers, hrun, -, hholds⟩ := hsim.run script
  refine ⟨sets, answers, hrun, fun r => ?_⟩
  obtain ⟨hvalid, htrimmed⟩ := (hholds r).valid
  exact hvalid.walkable htrimmed hα

/-- Every script on bit sets of 32-bit numbers or of abstract objects runs to its end, and the walk
over each set that it leaves is exact and meets no failure. -/
theorem scripts_leave_walkable_sets {ρ : Type} [DecidableEq ρ] :
    (∀ script : List (SetStep ρ UInt32), ∃ sets answers,
      (kind UInt32).run? script = some (sets, answers) ∧ ∀ r, (sets r).Walkable) ∧
    ∀ script : List (SetStep ρ ObjectId), ∃ sets answers,
      (kind ObjectId).run? script = some (sets, answers) ∧ ∀ r, (sets r).Walkable :=
  ⟨exists_walkable number_lt_uint32, exists_walkable number_lt_objectId⟩

end BitSet

end MayAlias
