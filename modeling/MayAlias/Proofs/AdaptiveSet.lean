import Mathlib.Data.List.Perm.Subperm
import MayAlias.AdaptiveSet
import MayAlias.Proofs.BitWalk

/-!
# Hybrid sets as finite sets

A hybrid set is read through `contains`, whichever of its two forms it has.  On valid sets (no
element listed twice, no bit without an element) insertion and union are those of finite sets, the
list of the elements has each of them once, and the comparisons agree with membership.
-/

namespace MayAlias

/-- A fold that collects a change flag makes the same steps as the one without the flag. -/
lemma foldl_flag_fst {σ α : Type} (step : σ → α → σ × Bool) (l : List α) (start : σ × Bool) :
    (l.foldl (fun (s, changed) a => let (s', new) := step s a; (s', changed || new)) start).1
      = l.foldl (fun s a => (step s a).1) start.1 := by
  induction l generalizing start with
  | nil => rfl
  | cons a l ih => rw [List.foldl_cons, ih, List.foldl_cons]

/-- Insertions one after the other raise the flag when one of the elements is new. -/
lemma foldl_insert_snd {σ α : Type} {insert : σ → α → σ × Bool} {contains : σ → α → Bool}
    (hcontains : ∀ s a b, contains (insert s a).1 b = true ↔ contains s b = true ∨ b = a)
    (hflag : ∀ s a, (insert s a).2 = true ↔ contains s a = false) (l : List α)
    (start : σ × Bool) :
    (l.foldl (fun state a => ((insert state.1 a).1, state.2 || (insert state.1 a).2)) start).2
      = true ↔ start.2 = true ∨ ∃ a ∈ l, contains start.1 a = false := by
  induction l generalizing start with
  | nil => simp
  | cons a l ih =>
    rw [List.foldl_cons, ih, Bool.or_eq_true, hflag, or_assoc, List.exists_mem_cons_iff]
    apply or_congr_right
    -- either the first element raises the flag, or it changes nothing for the others
    cases ha : contains start.1 a with
    | false => simp
    | true =>
      have hsame : ∀ b, contains (insert start.1 a).1 b = contains start.1 b := by
        intro b
        rw [Bool.eq_iff_iff, hcontains]
        exact ⟨fun h => h.elim id fun h => h ▸ ha, Or.inl⟩
      simp only [hsame]

namespace AdaptiveSet

variable {α : Type} [DenseIndex α]

/-- A small set lists no element twice, a large one has no bit without an element. -/
def Valid : AdaptiveSet α → Prop
  | small elems => elems.Nodup
  | large bits => bits.Valid

lemma valid_empty : (empty : AdaptiveSet α).Valid := List.nodup_nil

omit [DenseIndex α] in
/-- A set that is cleared is small, whichever form it had. -/
lemma clear_eq_empty (s : AdaptiveSet α) : s.clear = empty := by
  cases s <;> rfl

omit [DenseIndex α] in
/-- A copy has the form of its source, whichever form it had. -/
lemma copy_eq (s source : AdaptiveSet α) : s.copy source = source := by
  cases source <;> rfl

/-- A valid set lists no element twice, in either form. -/
lemma Valid.nodup_toList {s : AdaptiveSet α} (hs : s.Valid) : s.toList.Nodup := by
  cases s with
  | small elems => exact hs
  | large bits => exact BitSet.Valid.nodup_toList hs

/-- A large set lists its elements in ascending order of their numbers. -/
lemma Valid.pairwise_toList {s : AdaptiveSet α} (hs : s.Valid) (hlarge : s.isLarge = true) :
    s.toList.Pairwise fun a b => BitSet.number a < BitSet.number b := by
  cases s with
  | small elems => exact absurd hlarge Bool.false_ne_true
  | large bits => exact BitSet.Valid.pairwise_toList hs

/-- The count is the number of elements listed: for a large set, of the bits set. -/
lemma Valid.count_eq {s : AdaptiveSet α} (hs : s.Valid) : s.count = s.toList.length := by
  cases s with
  | small elems => rfl
  | large bits => exact BitSet.Valid.count_eq hs

/-! ## Insertion -/

/-- Adding a list of elements to a bit set, one after the other. -/
lemma contains_insertAll (bits : BitSet α) (l : List α) (a : α) :
    (insertAll bits l).1.contains a = true ↔ bits.contains a = true ∨ a ∈ l := by
  rw [insertAll, foldl_flag_fst]
  induction l generalizing bits with
  | nil => simp
  | cons b l ih =>
    rw [List.foldl_cons, ih, BitSet.contains_insert, List.mem_cons, or_assoc]

lemma valid_insertAll {bits : BitSet α} (hb : bits.Valid) (l : List α) :
    (insertAll bits l).1.Valid := by
  rw [insertAll, foldl_flag_fst]
  induction l generalizing bits with
  | nil => exact hb
  | cons a l ih => exact ih (hb.insert a)

/-- The bits of a list are those of its elements. -/
lemma contains_toBits (l : List α) (a : α) : (toBits l).contains a = true ↔ a ∈ l := by
  rw [toBits, contains_insertAll, BitSet.contains_empty]
  simp

lemma valid_toBits (l : List α) : (toBits l).Valid := valid_insertAll BitSet.valid_empty l

variable [DecidableEq α]

@[simp] lemma contains_empty (a : α) : (empty : AdaptiveSet α).contains a = false := rfl

/-- The elements listed are those the set contains. -/
lemma Valid.mem_toList {s : AdaptiveSet α} (hs : s.Valid) (a : α) :
    a ∈ s.toList ↔ s.contains a = true := by
  cases s with
  | small elems => simp [toList, contains]
  | large bits => exact BitSet.Valid.mem_toList hs a

/-- Insertion adds one element, whether it stays small, becomes large or was large. -/
lemma contains_insert (s : AdaptiveSet α) (a b : α) :
    (s.insert a).1.contains b = true ↔ s.contains b = true ∨ b = a := by
  cases s with
  | small elems =>
    rw [insert]
    split
    · next ha =>
      have hmem : a ∈ elems := by simpa using ha
      simp only [contains, List.contains_iff_mem]
      exact ⟨Or.inl, fun h => h.elim id fun h => h ▸ hmem⟩
    · split
      · simp [contains]
      -- no room for one more element: all of them move into bits
      · show ((toBits elems).insert a).1.contains b = true ↔ _
        rw [BitSet.contains_insert, contains_toBits]
        simp [contains]
  | large bits => exact BitSet.contains_insert bits a b

/-- A small set is extended only by an element that it does not list. -/
lemma Valid.insert {s : AdaptiveSet α} (hs : s.Valid) (a : α) : (s.insert a).1.Valid := by
  cases s with
  | small elems =>
    rw [AdaptiveSet.insert]
    split
    · exact hs
    · next ha =>
      split
      -- there is room for one more element in the list
      · have hnot : a ∉ elems := by simpa using ha
        exact List.nodup_append.2 ⟨hs, List.nodup_singleton a, by
          intro b hb c hc hbc
          rw [List.mem_singleton.1 hc] at hbc
          exact hnot (hbc ▸ hb)⟩
      · exact (valid_toBits elems).insert a
  | large bits => exact BitSet.Valid.insert hs a

/-- Adding a list of elements, one after the other. -/
lemma contains_foldl_insert (s : AdaptiveSet α) (l : List α) (a : α) :
    (l.foldl (fun s b => (s.insert b).1) s).contains a = true ↔
      s.contains a = true ∨ a ∈ l := by
  induction l generalizing s with
  | nil => simp
  | cons b l ih => rw [List.foldl_cons, ih, contains_insert, List.mem_cons, or_assoc]

lemma Valid.foldl_insert {s : AdaptiveSet α} (hs : s.Valid) (l : List α) :
    (l.foldl (fun s b => (s.insert b).1) s).Valid := by
  induction l generalizing s with
  | nil => exact hs
  | cons b l ih => exact ih (hs.insert b)

/-- A set made from a list has the elements of the list. -/
lemma contains_ofList (l : List α) (a : α) : (ofList l).contains a = true ↔ a ∈ l := by
  rw [ofList, contains_foldl_insert, contains_empty]
  simp

lemma valid_ofList (l : List α) : (ofList l).Valid := valid_empty.foldl_insert l

/-! ## Union -/

/-- In all four pairs of forms, a union has the elements of both sets. -/
lemma contains_union (s t : AdaptiveSet α) (a : α) :
    (s.union t).1.contains a = true ↔ s.contains a = true ∨ t.contains a = true := by
  cases s with
  | small elems =>
    cases t with
    | small other =>
      rw [union, foldl_flag_fst, contains_foldl_insert]
      simp [contains]
    | large other =>
      show ((toBits elems).union other).1.contains a = true ↔ _
      rw [BitSet.contains_union, contains_toBits]
      simp [contains]
  | large bits =>
    cases t with
    | small other =>
      show (insertAll bits other).1.contains a = true ↔ _
      rw [contains_insertAll]
      simp [contains]
    | large other => exact BitSet.contains_union bits other a

/-- In all four pairs of forms, a union of valid sets is valid. -/
lemma Valid.union {s t : AdaptiveSet α} (hs : s.Valid) (ht : t.Valid) : (s.union t).1.Valid := by
  cases s with
  | small elems =>
    cases t with
    | small other =>
      rw [AdaptiveSet.union, foldl_flag_fst]
      exact hs.foldl_insert other
    | large other => exact (valid_toBits elems).union ht
  | large bits =>
    cases t with
    | small other => exact valid_insertAll hs other
    | large other => exact BitSet.Valid.union hs ht

/-! ## Change flags -/

omit [DecidableEq α] in
/-- Adding a list to a bit set raises the flag when one of its elements is new. -/
lemma insertAll_snd_iff (bits : BitSet α) (l : List α) :
    (insertAll bits l).2 = true ↔ ∃ a ∈ l, bits.contains a = false := by
  refine (foldl_insert_snd BitSet.contains_insert BitSet.insert_snd_iff l (bits, false)).trans ?_
  simp

/-- Moving into bits changes the form only. -/
lemma contains_toBits_eq (l : List α) (a : α) : (toBits l).contains a = (small l).contains a := by
  rw [Bool.eq_iff_iff, contains_toBits]
  simp [contains]

/-- The flag of an insertion is raised when the element is new. -/
lemma insert_snd_iff (s : AdaptiveSet α) (a : α) :
    (s.insert a).2 = true ↔ s.contains a = false := by
  cases s with
  | small elems =>
    rw [insert]
    split
    · next ha =>
      have hthere : (small elems).contains a = true := ha
      simp [hthere]
    · next ha =>
      have hnot : (small elems).contains a = false := Bool.eq_false_iff.2 ha
      split
      · simp [hnot]
      -- the elements move into bits, where the new one is new as well
      · show ((toBits elems).insert a).2 = true ↔ _
        rw [BitSet.insert_snd_iff, contains_toBits_eq]
  | large bits => exact BitSet.insert_snd_iff bits a

/-- The flag of a union is raised when an element is new. -/
lemma Valid.union_snd_iff {s t : AdaptiveSet α} (ht : t.Valid) :
    (s.union t).2 = true ↔ ∃ a, t.contains a = true ∧ s.contains a = false := by
  cases s with
  | small elems =>
    cases t with
    | small other =>
      refine (foldl_insert_snd contains_insert insert_snd_iff other (small elems, false)).trans ?_
      simp [contains]
    | large other =>
      show ((toBits elems).union other).2 = true ↔ _
      rw [BitSet.union_snd_iff_contains ht]
      simp only [contains_toBits_eq]
      rfl
  | large bits =>
    cases t with
    | small other =>
      show (insertAll bits other).2 = true ↔ _
      rw [insertAll_snd_iff]
      simp [contains]
    | large other => exact BitSet.union_snd_iff_contains ht

/-! ## Comparisons -/

/-- A set is empty when it contains nothing. -/
lemma Valid.isEmpty_iff {s : AdaptiveSet α} (hs : s.Valid) :
    s.isEmpty = true ↔ ∀ a, s.contains a = false := by
  cases s with
  | small elems => simp [isEmpty, contains, List.eq_nil_iff_forall_not_mem]
  | large bits => exact BitSet.isEmpty_iff_contains hs

/-- Inclusion is checked on the list of the smaller set, or word by word if both are large. -/
lemma Valid.superset_iff {s t : AdaptiveSet α} (ht : t.Valid) :
    s.superset t = true ↔ ∀ a, t.contains a = true → s.contains a = true := by
  have hlist : t.toList.all s.contains = true ↔ ∀ a, t.contains a = true → s.contains a = true := by
    simp only [List.all_eq_true, ht.mem_toList]
  cases s with
  | small elems => exact hlist
  | large bits =>
    cases t with
    | small other => exact hlist
    | large other => exact BitSet.superset_iff_contains ht

/-- Whichever set is walked through, a shared element is found. -/
lemma Valid.intersects_iff {s t : AdaptiveSet α} (hs : s.Valid) :
    s.intersects t = true ↔ ∃ a, s.contains a = true ∧ t.contains a = true := by
  cases s with
  | small elems =>
    rw [intersects, List.any_eq_true]
    simp [contains]
  | large bits =>
    cases t with
    | small other =>
      rw [intersects, List.any_eq_true]
      constructor
      · intro h
        obtain ⟨a, ha, hbits⟩ := h
        exact ⟨a, hbits, by simpa [contains] using ha⟩
      · intro h
        obtain ⟨a, hbits, ha⟩ := h
        exact ⟨a, by simpa [contains] using ha, hbits⟩
    | large other => exact BitSet.intersects_iff_contains hs

/-- Equal counts and one inclusion decide equality, because no set counts an element twice. -/
lemma Valid.beq_iff {s t : AdaptiveSet α} (hs : s.Valid) (ht : t.Valid) :
    (s == t) = true ↔ ∀ a, s.contains a = true ↔ t.contains a = true := by
  show (s.count == t.count && s.superset t) = true ↔ _
  rw [Bool.and_eq_true, beq_iff_eq, ht.superset_iff, hs.count_eq, ht.count_eq]
  simp only [← hs.mem_toList, ← ht.mem_toList]
  constructor
  · intro h a
    obtain ⟨hcount, hsub⟩ := h
    -- the inclusion is one between lists of equal length without duplicates
    have hperm := (ht.nodup_toList.subperm hsub).perm_of_length_le hcount.le
    exact hperm.mem_iff.symm
  · intro h
    have hperm := (List.perm_ext_iff_of_nodup hs.nodup_toList ht.nodup_toList).2 h
    exact ⟨hperm.length_eq, fun a => (h a).2⟩

end AdaptiveSet

end MayAlias
