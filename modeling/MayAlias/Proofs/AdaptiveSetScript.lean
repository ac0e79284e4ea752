import MayAlias.Proofs.BitSetScript

/-!
# Scripts on hybrid sets

A script on hybrid sets has the answers of finite sets, whichever forms the sets take on the way.
The form and the order of the elements follow a second reference, the elements in the order of their
first insertion: a hybrid set lists them in this order while there are at most `smallCapacity` of
them, and is large from the next one on (`AdaptiveSet.Keeps`).
-/

namespace MayAlias.AdaptiveSet

variable {α : Type} [DenseIndex α] [DecidableEq α]

/-! ## Operations and questions -/

variable (α) in
/-- Hybrid sets, with the operations that the library has for them. -/
def kind : SetKind (AdaptiveSet α) α where
  empty := empty
  collect := ofList
  insert? := insert?
  union? := union?
  clear := clear
  copy := copy
  contains := contains
  count := count
  isEmpty := isEmpty
  superset := superset
  intersects := intersects
  equal s t := s == t

/-- Steps that never fail make a fold that never fails. -/
private lemma foldlM_eq_some {β γ : Type} {step? : β → γ → Option β} {step : β → γ → β}
    (hstep : ∀ b c, step? b c = some (step b c)) (l : List γ) (b : β) :
    l.foldlM step? b = some (l.foldl step b) := by
  induction l generalizing b with
  | nil => rfl
  | cons c l ih =>
    rw [List.foldlM_cons, hstep, List.foldl_cons]
    exact ih (step b c)

section Storable

variable (hα : ∀ a : α, BitSet.storable a = true)

include hα

/-- Insertion succeeds when every element can be stored. -/
lemma insert?_eq (s : AdaptiveSet α) (a : α) : s.insert? a = some (s.insert a) := by
  cases s with
  | small elems => simp [insert?, hα]
  | large bits => simp [insert?, hα]

/-- So does a union, in all four pairs of forms. -/
lemma union?_eq (s t : AdaptiveSet α) : s.union? t = some (s.union t) := by
  cases s with
  | small elems =>
    cases t with
    | small other =>
      refine foldlM_eq_some (fun state a => ?_) other (small elems, false)
      simp [insert?_eq hα]
    | large other => simp [union?, hα]
  | large bits =>
    cases t with
    | small other => simp [union?, hα]
    | large other => rfl

/-- Hybrid sets of elements that can be stored are described by membership. -/
lemma kind_byMembership : (kind α).ByMembership Valid where
  empty := valid_empty
  contains_empty := contains_empty
  collect := valid_ofList
  contains_collect := contains_ofList
  insert {s} hs a :=
    ⟨_, _, insert?_eq hα s a, hs.insert a, contains_insert s a, insert_snd_iff s a⟩
  union {s t} hs ht :=
    ⟨_, _, union?_eq hα s t, hs.union ht, contains_union s t, ht.union_snd_iff⟩
  clear_eq := clear_eq_empty
  copy_eq := copy_eq
  count {s} hs := ⟨s.toList, hs.nodup_toList, hs.mem_toList, hs.count_eq⟩
  isEmpty hs := hs.isEmpty_iff
  superset _ ht := ht.superset_iff
  intersects hs _ := hs.intersects_iff
  equal hs ht := hs.beq_iff ht

end Storable

/-! ## Form and order -/

/-- The set has the elements of `l`.  As long as they are few, it lists them as `l` does. -/
structure Keeps (s : AdaptiveSet α) (l : List α) : Prop where
  valid : s.Valid
  nodup : l.Nodup
  contains : ∀ a, s.contains a = true ↔ a ∈ l
  form : if smallCapacity < l.length then s.isLarge = true else s = .small l

namespace Keeps

variable {s t : AdaptiveSet α} {l m : List α}

/-- The set is large when the list is longer than a small set may be. -/
lemma isLarge_iff (h : s.Keeps l) : s.isLarge = true ↔ smallCapacity < l.length := by
  have hform := h.form
  split at hform
  · next hlen => exact iff_of_true hform hlen
  · next hlen => exact iff_of_false (by rw [hform]; exact Bool.false_ne_true) hlen

lemma eq_small (h : s.Keeps l) (hsmall : s.isLarge = false) : s = .small l := by
  have hform := h.form
  rwa [if_neg fun hlen => Bool.false_ne_true (hsmall.symm.trans (h.isLarge_iff.2 hlen))] at hform

/-- As far as membership goes, the set stands for the elements of the list. -/
lemma holds (h : s.Keeps l) : (kind α).Holds Valid s l.toFinset :=
  ⟨h.valid, fun a => (h.contains a).trans List.mem_toFinset.symm⟩

lemma lists (h : s.Keeps l) : SetKind.Lists l l.toFinset := ⟨h.nodup, rfl⟩

lemma empty : (AdaptiveSet.empty : AdaptiveSet α).Keeps [] where
  valid := valid_empty
  nodup := List.nodup_nil
  contains a := by simp
  form := rfl

/-- The form after an insertion: a full small set becomes large with the next new element. -/
private lemma form_insert (h : s.Keeps l) (a : α) :
    if smallCapacity < (SetKind.appendNew l a).length then (s.insert a).1.isLarge = true
      else (s.insert a).1 = .small (SetKind.appendNew l a) := by
  have hmono : l.length ≤ (SetKind.appendNew l a).length := by
    rw [SetKind.appendNew]
    split <;> simp
  cases hlarge : s.isLarge with
  | false =>
    obtain rfl := h.eq_small hlarge
    have hlen : ¬ smallCapacity < l.length := fun hlen => Bool.false_ne_true (h.isLarge_iff.2 hlen)
    by_cases ha : a ∈ l
    · have hthere : (small l).insert a = (small l, false) := by simp [insert, ha]
      rw [SetKind.appendNew_of_mem ha, hthere]
      exact h.form
    · rw [SetKind.appendNew_of_notMem ha, List.length_append, List.length_singleton]
      by_cases hroom : l.length < smallCapacity
      -- there is room, and the element goes to the end of the list
      · rw [if_neg (by omega)]
        simp [insert, ha, hroom]
      · rw [if_pos (by omega)]
        simp [insert, ha, hroom, isLarge]
  | true =>
    -- a large set stays large
    have hlen := h.isLarge_iff.1 hlarge
    rw [if_pos (by omega)]
    cases s with
    | small elems => exact absurd hlarge Bool.false_ne_true
    | large bits => rfl

/-- The list takes a new element at its end, and the set follows. -/
lemma insert (h : s.Keeps l) (a : α) : (s.insert a).1.Keeps (SetKind.appendNew l a) where
  valid := h.valid.insert a
  nodup := (h.lists.insert a).1
  contains b := by
    rw [contains_insert, h.contains, ← List.mem_toFinset, ← List.mem_toFinset,
      (h.lists.insert a).2, Finset.mem_insert, or_comm]
  form := h.form_insert a

/-- Insertions one after the other keep the set in step with the list. -/
lemma foldl_insert (h : s.Keeps l) (elems : List α) :
    (elems.foldl (fun s a => (s.insert a).1) s).Keeps (elems.foldl SetKind.appendNew l) := by
  induction elems generalizing s l with
  | nil => exact h
  | cons a elems ih => exact ih (h.insert a)

lemma ofList (elems : List α) :
    (AdaptiveSet.ofList elems).Keeps (elems.foldl SetKind.appendNew []) := empty.foldl_insert elems

/-- The form after a union.  Two small sets become large on the way when they have enough elements
together; otherwise one of the sets is large already. -/
private lemma form_union (h : s.Keeps l) (h' : t.Keeps m) :
    if smallCapacity < (l ++ m.filter (· ∉ l)).length then (s.union t).1.isLarge = true
      else (s.union t).1 = .small (l ++ m.filter (· ∉ l)) := by
  have hl : l.length ≤ (l ++ m.filter (· ∉ l)).length := by simp
  have hm : m.length ≤ (l ++ m.filter (· ∉ l)).length := by
    apply h'.nodup.length_le_of_subset
    intro a ha
    by_cases hal : a ∈ l <;> simp [ha, hal]
  cases s with
  | small elems =>
    cases t with
    | small other =>
      have hother : other = m := by simpa using h'.eq_small rfl
      rw [union, foldl_flag_fst, hother, ← SetKind.foldl_appendNew_eq h'.nodup]
      exact (h.foldl_insert m).form
    | large other =>
      -- the second set is large, so its list alone is long enough
      have hlen := h'.isLarge_iff.1 rfl
      rw [if_pos (by omega)]
      rfl
  | large bits =>
    have hlen := h.isLarge_iff.1 rfl
    rw [if_pos (by omega)]
    cases t <;> rfl

/-- A union appends the new elements of the second list. -/
lemma union (h : s.Keeps l) (h' : t.Keeps m) :
    (s.union t).1.Keeps (l ++ m.filter (· ∉ l)) where
  valid := h.valid.union h'.valid
  nodup := (h.lists.union h'.lists).1
  contains a := by
    rw [contains_union, h.contains, h'.contains, ← List.mem_toFinset, ← List.mem_toFinset,
      ← List.mem_toFinset, (h.lists.union h'.lists).2, Finset.mem_union]
  form := h.form_union h'

end Keeps

/-- Hybrid sets follow the order of first insertion, and answer as finite sets do. -/
lemma simulates_firstInsertions (hα : ∀ a : α, BitSet.storable a = true) :
    SetKind.Simulates (kind α) SetKind.firstInsertions Keeps := by
  have hsim := SetKind.simulates_of_byMembership (kind_byMembership hα)
  exact {
    empty := Keeps.empty
    collect := Keeps.ofList
    insert := by
      intro s l h a
      -- the flag speaks of the set, and the list has the same elements
      have hflag : (s.insert a).2 = decide (a ∉ l) := by
        rw [Bool.eq_iff_iff, insert_snd_iff, ← Bool.not_eq_true, h.contains, decide_eq_true_eq]
      exact ⟨_, _, _, by rw [← hflag]; exact insert?_eq hα s a, rfl, h.insert a⟩
    union := by
      intro s l t m h h'
      have hflag : (s.union t).2 = decide (∃ a ∈ m, a ∉ l) := by
        rw [Bool.eq_iff_iff, h'.valid.union_snd_iff, decide_eq_true_eq]
        simp only [← Bool.not_eq_true, h.contains, h'.contains]
      exact ⟨_, _, _, by rw [← hflag]; exact union?_eq hα s t, rfl, h.union h'⟩
    clear := by
      intro s l _
      show s.clear.Keeps []
      rw [clear_eq_empty]
      exact Keeps.empty
    copy := by
      intro s l t m _ h'
      show (s.copy t).Keeps m
      rw [copy_eq]
      exact h'
    contains := fun h => hsim.contains h.holds
    count := fun h => hsim.count h.holds
    isEmpty := fun h => hsim.isEmpty h.holds
    superset := fun h h' => hsim.superset h.holds h'.holds
    intersects := fun h h' => hsim.intersects h.holds h'.holds
    equal := fun h h' => hsim.equal h.holds h'.holds }

/-! ## Scripts -/

/-- A script on hybrid sets and the same script on the two references. -/
structure RunsAsFinsets {ρ : Type} [DecidableEq ρ] (script : List (SetStep ρ α))
    (sets : ρ → AdaptiveSet α) (finsets : ρ → Finset α) (orders : ρ → List α)
    (answers : List SetAnswer) : Prop where
  run_sets : (kind α).run? script = some (sets, answers)
  run_finsets : SetKind.finsets.run? script = some (finsets, answers)
  run_orders : SetKind.firstInsertions.run? script = some (orders, answers)
  small_nodup : ∀ r elems, sets r = .small elems → elems.Nodup
  isLarge_iff : ∀ r, (sets r).isLarge = true ↔ 32 < (finsets r).card
  nodup_toList : ∀ r, (sets r).toList.Nodup
  mem_toList : ∀ r a, a ∈ (sets r).toList ↔ a ∈ finsets r
  toList_of_small : ∀ r, (sets r).isLarge = false → (sets r).toList = orders r
  toList_of_large : ∀ r, (sets r).isLarge = true →
    (sets r).toList.Pairwise fun a b => BitSet.number a < BitSet.number b

lemma exists_runsAsFinsets (hα : ∀ a : α, BitSet.storable a = true) {ρ : Type} [DecidableEq ρ]
    (script : List (SetStep ρ α)) :
    ∃ sets finsets orders answers, RunsAsFinsets script sets finsets orders answers := by
  obtain ⟨sets, orders, answers, hsets, horders, hkeeps⟩ :=
    (simulates_firstInsertions hα).run script
  obtain ⟨orders', finsets, answers', horders', hfinsets, hlists⟩ :=
    SetKind.simulates_firstInsertions.run script
  -- both simulations speak of the one run on lists
  obtain ⟨rfl, rfl⟩ := Prod.mk.inj (Option.some.inj (horders.symm.trans horders'))
  have hcard : ∀ r, (finsets r).card = (orders r).length := fun r => by
    rw [← (hlists r).2, List.toFinset_card_of_nodup (hlists r).1]
  exact ⟨sets, finsets, orders, answers, {
    run_sets := hsets
    run_finsets := hfinsets
    run_orders := horders
    small_nodup := by
      intro r elems hsmall
      have hvalid := (hkeeps r).valid
      rwa [hsmall] at hvalid
    isLarge_iff := by
      intro r
      rw [hcard, (hkeeps r).isLarge_iff]
      rfl
    nodup_toList := fun r => (hkeeps r).valid.nodup_toList
    mem_toList := by
      intro r a
      rw [(hkeeps r).valid.mem_toList, (hkeeps r).contains, ← (hlists r).2, List.mem_toFinset]
    toList_of_small := by
      intro r hsmall
      rw [(hkeeps r).eq_small hsmall]
      rfl
    toList_of_large := fun r hlarge => (hkeeps r).valid.pairwise_toList hlarge }⟩

/-- Every script on hybrid sets of 32-bit numbers or of abstract objects runs to its end with the
answers of finite sets.  A set is large when it has more than 32 elements.  It lists each of them
once, a small set in the order of first insertion and a large one in ascending order. -/
theorem hybrid_scripts_run_as_finsets {ρ : Type} [DecidableEq ρ] :
    (∀ script : List (SetStep ρ UInt32),
      ∃ sets finsets orders answers, RunsAsFinsets script sets finsets orders answers) ∧
    ∀ script : List (SetStep ρ ObjectId),
      ∃ sets finsets orders answers, RunsAsFinsets script sets finsets orders answers :=
  ⟨exists_runsAsFinsets BitSet.storable_uint32, exists_runsAsFinsets BitSet.storable_objectId⟩

end MayAlias.AdaptiveSet
