import MayAlias.Proofs.AdaptiveSet
import MayAlias.Proofs.SetScript
import MayAlias.Site

/-!
# Scripts on bit sets

Elements with numbers of 32 bits can always be stored, so a script on bit sets of such elements runs
to its end, and its answers are those of finite sets.

Words are added to a bit set only to store a bit in the last of them.  Hence the last word of a set
that operations made is never zero (`BitSet.Trimmed`), and its words depend on its elements alone.
-/

namespace MayAlias.BitSet

variable {α : Type}

/-! ## The last word -/

/-- A set without words has no last one. -/
lemma trimmed_empty : (empty : BitSet α).Trimmed := by
  simp [Trimmed, empty]

/-- The last word of a union is the last word of the longer set with more bits. -/
lemma Trimmed.union {s t : BitSet α} (hs : s.Trimmed) (ht : t.Trimmed) :
    (s.union t).1.Trimmed := by
  rw [trimmed_iff] at *
  rw [size_union]
  intro hpos hzero
  rw [word_union, UInt64.or_eq_zero_iff] at hzero
  -- the last word of the union stands where the longer set has its last word
  rcases Nat.le_total s.words.size t.words.size with hle | hle
  · rw [max_eq_right hle] at hpos hzero
    exact ht hpos hzero.2
  · rw [max_eq_left hle] at hpos hzero
    exact hs hpos hzero.1

variable [DenseIndex α]

/-- Insertion makes room up to the word with the new bit. -/
lemma size_insert (s : BitSet α) (a : α) :
    (s.insert a).1.words.size = max s.words.size (wordIndex a + 1) := by
  rw [insert, Array.size_setIfInBounds, room, size_grow, wordsFor, wordIndex]
  omega

/-- Insertion adds words only up to the one with the new bit. -/
lemma Trimmed.insert {s : BitSet α} (hs : s.Trimmed) (a : α) : (s.insert a).1.Trimmed := by
  rw [trimmed_iff] at *
  rw [size_insert, word_insert]
  intro _
  split
  · rw [mask]
    intro hzero
    rw [UInt64.or_eq_zero_iff] at hzero
    -- the word with the new bit is the last one, and the bit is set in it
    have hbit := Word.testBit_single (k := number a % 64) (Nat.mod_lt _ (by omega)) (number a % 64)
    rw [hzero.2] at hbit
    simp at hbit
  · next hne =>
    have hmax : max s.words.size (wordIndex a + 1) = s.words.size := by omega
    rw [hmax]
    exact hs (by omega)

/-- Insertions one after the other leave a last word that is not zero. -/
lemma trimmed_toBits (elems : List α) : (AdaptiveSet.toBits elems).Trimmed := by
  have hfold : ∀ s : BitSet α, s.Trimmed →
      (elems.foldl (fun s a => (s.insert a).1) s).Trimmed := by
    induction elems with
    | nil => exact fun _ hs => hs
    | cons a elems ih => exact fun s hs => ih _ (hs.insert a)
  rw [AdaptiveSet.toBits, AdaptiveSet.insertAll, foldl_flag_fst]
  exact hfold _ trimmed_empty

/-! ## Storing elements with 32-bit numbers -/

/-- A number of 32 bits leaves room for the words below it. -/
lemma storable_of_number_lt {a : α} (h : number a < 4294967296) : storable a = true := by
  rw [storable, decide_eq_true_eq]
  exact Nat.lt_of_lt_of_le (Nat.add_lt_add_right h 65) (by norm_num)

lemma number_lt_uint32 (i : UInt32) : number i < 4294967296 := by
  show i.toUInt64.toNat < _
  rw [UInt32.toNat_toUInt64]
  exact i.toNat_lt

lemma number_lt_objectId (o : ObjectId) : number o < 4294967296 := number_lt_uint32 o.val

lemma storable_uint32 (i : UInt32) : storable i = true := storable_of_number_lt (number_lt_uint32 i)

lemma storable_objectId (o : ObjectId) : storable o = true := storable_uint32 o.val

/-! ## Operations and questions -/

variable (α) in
/-- Bit sets, with the operations that the library has for them. -/
def kind : SetKind (BitSet α) α where
  empty := empty
  collect := AdaptiveSet.toBits
  insert? := insert?
  union? s t := some (s.union t)
  clear := clear
  copy := copy
  contains := contains
  count := count
  isEmpty := isEmpty
  superset := superset
  intersects := intersects
  equal s t := s == t

/-- Bit sets of elements that can be stored are described by membership. -/
lemma kind_byMembership (hα : ∀ a : α, storable a = true) :
    (kind α).ByMembership fun s => s.Valid ∧ s.Trimmed where
  empty := ⟨valid_empty, trimmed_empty⟩
  contains_empty := contains_empty
  collect elems := ⟨AdaptiveSet.valid_toBits elems, trimmed_toBits elems⟩
  contains_collect := AdaptiveSet.contains_toBits
  insert {s} hs a :=
    ⟨_, _, if_pos (hα a), ⟨hs.1.insert a, hs.2.insert a⟩, contains_insert s a, insert_snd_iff s a⟩
  union {s t} hs ht :=
    ⟨_, _, rfl, ⟨hs.1.union ht.1, hs.2.union ht.2⟩, contains_union s t,
      union_snd_iff_contains ht.1⟩
  clear_eq := clear_eq_empty
  copy_eq := copy_eq
  count {s} hs := ⟨s.toList, hs.1.nodup_toList, hs.1.mem_toList, hs.1.count_eq⟩
  isEmpty hs := isEmpty_iff_contains hs.1
  superset _ ht := superset_iff_contains ht.1
  intersects hs _ := intersects_iff_contains hs.1
  equal hs ht := beq_iff_contains hs.1 ht.1

/-- A script on bit sets and the same script on finite sets. -/
structure RunsAsFinsets {ρ : Type} [DecidableEq ρ] [DecidableEq α] (script : List (SetStep ρ α))
    (sets : ρ → BitSet α) (finsets : ρ → Finset α) (answers : List SetAnswer) : Prop where
  run_sets : (kind α).run? script = some (sets, answers)
  run_finsets : SetKind.finsets.run? script = some (finsets, answers)
  last_word : ∀ r, (sets r).words.back? ≠ some 0
  words_eq : ∀ r q, finsets r = finsets q → (sets r).words = (sets q).words

/-- A script runs on bit sets as on finite sets, when every element can be stored. -/
lemma exists_runsAsFinsets (hα : ∀ a : α, storable a = true) {ρ : Type} [DecidableEq ρ]
    [DecidableEq α] (script : List (SetStep ρ α)) :
    ∃ sets finsets answers, RunsAsFinsets script sets finsets answers := by
  have hsim := SetKind.simulates_of_byMembership (kind_byMembership hα)
  obtain ⟨sets, finsets, answers, hsets, hfinsets, hholds⟩ := hsim.run script
  refine ⟨sets, finsets, answers, hsets, hfinsets, fun r => (hholds r).valid.2, ?_⟩
  intro r q hrq
  -- the same finite set means the same elements, hence the same numbers held
  obtain ⟨⟨hvalid, htrimmed⟩, hmem⟩ := hholds r
  obtain ⟨⟨hvalid', htrimmed'⟩, hmem'⟩ := hholds q
  apply htrimmed.words_eq htrimmed'
  apply holds_eq_of_contains hvalid hvalid'
  intro a
  exact (hmem a).trans (hrq ▸ (hmem' a).symm)

/-- Every script on bit sets of 32-bit numbers or of abstract objects runs to its end with the
answers of finite sets.  It leaves no set with a zero word at the end, and sets with the same
elements have the same words. -/
theorem scripts_run_as_finsets {ρ : Type} [DecidableEq ρ] :
    (∀ script : List (SetStep ρ UInt32),
      ∃ sets finsets answers, RunsAsFinsets script sets finsets answers) ∧
    ∀ script : List (SetStep ρ ObjectId),
      ∃ sets finsets answers, RunsAsFinsets script sets finsets answers :=
  ⟨exists_runsAsFinsets storable_uint32, exists_runsAsFinsets storable_objectId⟩

end MayAlias.BitSet
