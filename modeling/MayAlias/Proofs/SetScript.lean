import Mathlib.Data.Finset.Card
import Mathlib.Logic.Function.Basic
import Mathlib.Tactic.Common

/-!
# Scripts of set operations

A script is a sequence of operations on registers, each of which holds a set, and of questions about
these sets.  `SetKind` says how sets of one kind are operated and questioned, so one script can be
run on sets of different kinds.  Here are two kinds that serve as references:

* `SetKind.finsets`, the finite sets of mathematics;
* `SetKind.firstInsertions`, finite sets that remember in which order their elements came.

A kind simulates another along a relation between their sets when related sets give the same
answers and operations lead from related sets to related sets (`SetKind.Simulates`).  Then every
script has the same answers on both kinds and leaves related sets in the registers.
-/

namespace MayAlias

/-- An operation on registers that hold sets, or a question about them. -/
inductive SetStep (ρ α : Type) where
  /-- Adds an element to the set in `r`. -/
  | insert (r : ρ) (a : α)
  /-- Puts the set of the listed elements into `r`. -/
  | collect (r : ρ) (elems : List α)
  /-- Adds the elements of the set in `q` to the set in `r`. -/
  | union (r q : ρ)
  /-- Takes all elements out of the set in `r`. -/
  | clear (r : ρ)
  /-- Puts a copy of the set in `q` into `r`. -/
  | copy (r q : ρ)
  | contains (r : ρ) (a : α)
  | count (r : ρ)
  | isEmpty (r : ρ)
  | superset (r q : ρ)
  | intersects (r q : ρ)
  | equal (r q : ρ)

/-- What a step answers. -/
inductive SetAnswer where
  | done
  | flag (b : Bool)
  | number (n : ℕ)
deriving DecidableEq

/-- How sets of one kind are operated and questioned.  Insertion and union tell whether the set
grew; they fail when an element cannot be stored. -/
structure SetKind (σ α : Type) where
  empty : σ
  collect : List α → σ
  insert? : σ → α → Option (σ × Bool)
  union? : σ → σ → Option (σ × Bool)
  clear : σ → σ
  /-- The first set after the second is copied over it. -/
  copy : σ → σ → σ
  contains : σ → α → Bool
  count : σ → ℕ
  isEmpty : σ → Bool
  /-- Does the first set hold every element of the second? -/
  superset : σ → σ → Bool
  intersects : σ → σ → Bool
  equal : σ → σ → Bool

namespace SetKind

variable {σ τ ρ α : Type}

/-! ## Running a script -/

variable [DecidableEq ρ]

/-- The registers after a step, and its answer. -/
def step? (K : SetKind σ α) (sets : ρ → σ) : SetStep ρ α → Option ((ρ → σ) × SetAnswer)
  | .insert r a =>
    (K.insert? (sets r) a).map fun s => (Function.update sets r s.1, .flag s.2)
  | .collect r elems => some (Function.update sets r (K.collect elems), .done)
  | .union r q =>
    (K.union? (sets r) (sets q)).map fun s => (Function.update sets r s.1, .flag s.2)
  | .clear r => some (Function.update sets r (K.clear (sets r)), .done)
  | .copy r q => some (Function.update sets r (K.copy (sets r) (sets q)), .done)
  | .contains r a => some (sets, .flag (K.contains (sets r) a))
  | .count r => some (sets, .number (K.count (sets r)))
  | .isEmpty r => some (sets, .flag (K.isEmpty (sets r)))
  | .superset r q => some (sets, .flag (K.superset (sets r) (sets q)))
  | .intersects r q => some (sets, .flag (K.intersects (sets r) (sets q)))
  | .equal r q => some (sets, .flag (K.equal (sets r) (sets q)))

/-- The registers after a script, and the answers to its steps. -/
def runFrom? (K : SetKind σ α) (sets : ρ → σ) :
    List (SetStep ρ α) → Option ((ρ → σ) × List SetAnswer)
  | [] => some (sets, [])
  | step :: rest =>
    (K.step? sets step).bind fun s =>
      (K.runFrom? s.1 rest).map fun t => (t.1, s.2 :: t.2)

/-- Runs a script on registers that hold the set without elements. -/
def run? (K : SetKind σ α) (script : List (SetStep ρ α)) :
    Option ((ρ → σ) × List SetAnswer) := K.runFrom? (fun _ => K.empty) script

/-! ## Simulation -/

/-- Both succeed, with the same report and with results that are related. -/
def Agree {β : Type} (R : σ → τ → Prop) (x : Option (σ × β)) (y : Option (τ × β)) : Prop :=
  ∃ s t b, x = some (s, b) ∧ y = some (t, b) ∧ R s t

/-- Related sets are operated and questioned alike. -/
structure Simulates (K : SetKind σ α) (L : SetKind τ α) (R : σ → τ → Prop) : Prop where
  empty : R K.empty L.empty
  collect : ∀ elems, R (K.collect elems) (L.collect elems)
  insert : ∀ {s t}, R s t → ∀ a, Agree R (K.insert? s a) (L.insert? t a)
  union : ∀ {s t s' t'}, R s t → R s' t' → Agree R (K.union? s s') (L.union? t t')
  clear : ∀ {s t}, R s t → R (K.clear s) (L.clear t)
  copy : ∀ {s t s' t'}, R s t → R s' t' → R (K.copy s s') (L.copy t t')
  contains : ∀ {s t}, R s t → ∀ a, K.contains s a = L.contains t a
  count : ∀ {s t}, R s t → K.count s = L.count t
  isEmpty : ∀ {s t}, R s t → K.isEmpty s = L.isEmpty t
  superset : ∀ {s t s' t'}, R s t → R s' t' → K.superset s s' = L.superset t t'
  intersects : ∀ {s t s' t'}, R s t → R s' t' → K.intersects s s' = L.intersects t t'
  equal : ∀ {s t s' t'}, R s t → R s' t' → K.equal s s' = L.equal t t'

namespace Simulates

variable {K : SetKind σ α} {L : SetKind τ α} {R : σ → τ → Prop} (h : Simulates K L R)

include h

omit h in
/-- Registers that are related stay so when related sets are put into the same register. -/
lemma update {sets : ρ → σ} {refs : ρ → τ} (hR : ∀ q, R (sets q) (refs q)) (r : ρ) {s : σ} {t : τ}
    (hst : R s t) (q : ρ) : R (Function.update sets r s q) (Function.update refs r t q) := by
  by_cases hq : q = r
  · subst hq
    rw [Function.update_self, Function.update_self]
    exact hst
  · rw [Function.update_of_ne hq, Function.update_of_ne hq]
    exact hR q

/-- A step has one answer on related registers and leaves them related. -/
lemma step {sets : ρ → σ} {refs : ρ → τ} (hR : ∀ q, R (sets q) (refs q)) (step : SetStep ρ α) :
    Agree (fun sets refs => ∀ q : ρ, R (sets q) (refs q)) (K.step? sets step)
      (L.step? refs step) := by
  -- the first five steps change a register, the others only ask
  cases step with
  | insert r a =>
    obtain ⟨s, t, grown, hs, ht, hst⟩ := h.insert (hR r) a
    refine ⟨_, _, .flag grown, ?_, ?_, update hR r hst⟩
    · rw [step?, hs, Option.map_some]
    · rw [step?, ht, Option.map_some]
  | collect r elems => exact ⟨_, _, .done, rfl, rfl, update hR r (h.collect elems)⟩
  | union r q =>
    obtain ⟨s, t, grown, hs, ht, hst⟩ := h.union (hR r) (hR q)
    refine ⟨_, _, .flag grown, ?_, ?_, update hR r hst⟩
    · rw [step?, hs, Option.map_some]
    · rw [step?, ht, Option.map_some]
  | clear r => exact ⟨_, _, .done, rfl, rfl, update hR r (h.clear (hR r))⟩
  | copy r q => exact ⟨_, _, .done, rfl, rfl, update hR r (h.copy (hR r) (hR q))⟩
  | contains r a => exact ⟨sets, refs, _, rfl, by rw [step?, h.contains (hR r)], hR⟩
  | count r => exact ⟨sets, refs, _, rfl, by rw [step?, h.count (hR r)], hR⟩
  | isEmpty r => exact ⟨sets, refs, _, rfl, by rw [step?, h.isEmpty (hR r)], hR⟩
  | superset r q => exact ⟨sets, refs, _, rfl, by rw [step?, h.superset (hR r) (hR q)], hR⟩
  | intersects r q => exact ⟨sets, refs, _, rfl, by rw [step?, h.intersects (hR r) (hR q)], hR⟩
  | equal r q => exact ⟨sets, refs, _, rfl, by rw [step?, h.equal (hR r) (hR q)], hR⟩

/-- The same for a whole script, step by step. -/
lemma runFrom {sets : ρ → σ} {refs : ρ → τ} (hR : ∀ q, R (sets q) (refs q))
    (script : List (SetStep ρ α)) :
    Agree (fun sets refs => ∀ q : ρ, R (sets q) (refs q)) (K.runFrom? sets script)
      (L.runFrom? refs script) := by
  induction script generalizing sets refs with
  | nil => exact ⟨sets, refs, [], rfl, rfl, hR⟩
  | cons step script ih =>
    obtain ⟨sets', refs', answer, hs, ht, hR'⟩ := h.step hR step
    obtain ⟨sets'', refs'', answers, hs', ht', hR''⟩ := ih hR'
    refine ⟨sets'', refs'', answer :: answers, ?_, ?_, hR''⟩
    · rw [runFrom?, hs, Option.bind_some, hs', Option.map_some]
    · rw [runFrom?, ht, Option.bind_some, ht', Option.map_some]

/-- A script runs to its end on both kinds, with the same answers, and leaves related sets. -/
theorem run (script : List (SetStep ρ α)) :
    Agree (fun sets refs => ∀ q : ρ, R (sets q) (refs q)) (K.run? script) (L.run? script) :=
  h.runFrom (fun _ => h.empty) script

end Simulates

/-! ## The kinds of reference -/

section References

variable [DecidableEq α]

/-- Finite sets.  The flag of an operation tells whether the set grew. -/
def finsets : SetKind (Finset α) α where
  empty := ∅
  collect := List.toFinset
  insert? F a := some (insert a F, decide (F ⊂ insert a F))
  union? F G := some (F ∪ G, decide (F ⊂ F ∪ G))
  clear _ := ∅
  copy _ G := G
  contains F a := decide (a ∈ F)
  count F := F.card
  isEmpty F := decide (F = ∅)
  superset F G := decide (G ⊆ F)
  intersects F G := decide (F ∩ G).Nonempty
  equal F G := decide (F = G)

/-- A list with an element appended, unless it is listed already. -/
def appendNew (l : List α) (a : α) : List α := if a ∈ l then l else l ++ [a]

/-- Elements in the order of their first insertion.  A union lists a set's own elements, then the
new ones of the other set in the order of that set.  Questions are those about the finite set of the
elements. -/
def firstInsertions : SetKind (List α) α where
  empty := []
  collect elems := elems.foldl appendNew []
  insert? l a := some (appendNew l a, decide (a ∉ l))
  union? l m := some (l ++ m.filter (· ∉ l), decide (∃ a ∈ m, a ∉ l))
  clear _ := []
  copy _ m := m
  contains l a := finsets.contains l.toFinset a
  count l := finsets.count l.toFinset
  isEmpty l := finsets.isEmpty l.toFinset
  superset l m := finsets.superset l.toFinset m.toFinset
  intersects l m := finsets.intersects l.toFinset m.toFinset
  equal l m := finsets.equal l.toFinset m.toFinset

/-- An insertion enlarges a set exactly when the element is new. -/
lemma ssubset_insert_iff (F : Finset α) (a : α) : F ⊂ insert a F ↔ a ∉ F := by
  rw [Finset.ssubset_iff_subset_ne, and_iff_right (Finset.subset_insert a F), ne_comm, Ne,
    Finset.insert_eq_self]

/-- A union enlarges a set exactly when the other set has a new element. -/
lemma ssubset_union_iff (F G : Finset α) : F ⊂ F ∪ G ↔ ∃ a ∈ G, a ∉ F := by
  rw [Finset.ssubset_iff_subset_ne, and_iff_right Finset.subset_union_left, ne_comm, Ne,
    Finset.union_eq_left, Finset.not_subset]

lemma appendNew_of_mem {l : List α} {a : α} (ha : a ∈ l) : appendNew l a = l := if_pos ha

lemma appendNew_of_notMem {l : List α} {a : α} (ha : a ∉ l) : appendNew l a = l ++ [a] := if_neg ha

/-- Appending the new ones among distinct elements, one after the other. -/
lemma foldl_appendNew_eq {m : List α} (hm : m.Nodup) (l : List α) :
    m.foldl appendNew l = l ++ m.filter (· ∉ l) := by
  induction m generalizing l with
  | nil => simp
  | cons a m ih =>
    obtain ⟨ham, hm⟩ := List.nodup_cons.1 hm
    rw [List.foldl_cons, ih hm]
    by_cases ha : a ∈ l
    · rw [appendNew_of_mem ha, List.filter_cons_of_neg (by simp [ha])]
    · rw [appendNew_of_notMem ha, List.filter_cons_of_pos (by simp [ha]), List.append_assoc,
        List.singleton_append]
      -- `a` does not occur again, so that it is listed now makes no difference
      have hfilter : m.filter (· ∉ l ++ [a]) = m.filter (· ∉ l) := by
        apply List.filter_congr
        intro b hb
        have hba : b ≠ a := fun h => ham (h ▸ hb)
        simp [hba]
      rw [hfilter]

/-- The elements of the set are listed, each once. -/
def Lists (l : List α) (F : Finset α) : Prop := l.Nodup ∧ l.toFinset = F

/-- Appending a new element, or nothing, lists the set with the element inserted. -/
lemma Lists.insert {l : List α} {F : Finset α} (h : Lists l F) (a : α) :
    Lists (appendNew l a) (insert a F) := by
  obtain ⟨hnodup, rfl⟩ := h
  by_cases ha : a ∈ l
  · rw [appendNew_of_mem ha]
    exact ⟨hnodup, (Finset.insert_eq_self.2 (List.mem_toFinset.2 ha)).symm⟩
  · rw [appendNew_of_notMem ha, ← List.concat_eq_append]
    refine ⟨hnodup.concat ha, ?_⟩
    ext b
    simp

/-- Appending the new ones among some elements lists the set together with these. -/
lemma Lists.foldl_appendNew {l : List α} {F : Finset α} (h : Lists l F) (elems : List α) :
    Lists (elems.foldl appendNew l) (F ∪ elems.toFinset) := by
  induction elems generalizing l F with
  | nil => simpa using h
  | cons a elems ih =>
    rw [List.foldl_cons, List.toFinset_cons, Finset.union_insert, ← Finset.insert_union]
    exact ih (h.insert a)

/-- A union appends the elements of the second list that the first one does not have. -/
lemma Lists.union {l m : List α} {F G : Finset α} (hl : Lists l F) (hm : Lists m G) :
    Lists (l ++ m.filter (· ∉ l)) (F ∪ G) := by
  obtain ⟨hnodup, rfl⟩ := hl
  obtain ⟨hnodup', rfl⟩ := hm
  refine ⟨hnodup.append (hnodup'.filter _) ?_, ?_⟩
  · intro a ha hnew
    simp [ha] at hnew
  · ext a
    simp only [List.mem_toFinset, List.mem_append, List.mem_filter, decide_eq_true_eq,
      Finset.mem_union]
    tauto

/-- What is remembered besides the elements does not show in the answers. -/
theorem simulates_firstInsertions : Simulates (firstInsertions (α := α)) finsets Lists where
  empty := ⟨List.nodup_nil, rfl⟩
  collect elems := by
    have hlists : Lists ([] : List α) ∅ := ⟨List.nodup_nil, rfl⟩
    have hfold := hlists.foldl_appendNew elems
    rwa [Finset.empty_union] at hfold
  insert {l F} h a := by
    refine ⟨_, _, _, rfl, ?_, h.insert a⟩
    rw [← h.2]
    simp [finsets, ssubset_insert_iff]
  union {l F m G} hl hm := by
    refine ⟨_, _, _, rfl, ?_, hl.union hm⟩
    rw [← hl.2, ← hm.2]
    simp [finsets, ssubset_union_iff]
  clear _ := ⟨List.nodup_nil, rfl⟩
  copy _ h' := h'
  contains h a := by rw [← h.2]; rfl
  count h := by rw [← h.2]; rfl
  isEmpty h := by rw [← h.2]; rfl
  superset h h' := by rw [← h.2, ← h'.2]; rfl
  intersects h h' := by rw [← h.2, ← h'.2]; rfl
  equal h h' := by rw [← h.2, ← h'.2]; rfl

/-! ## Kinds that are described by membership -/

/-- On sets that satisfy `P`, operations and questions are a matter of the elements. -/
structure ByMembership (K : SetKind σ α) (P : σ → Prop) : Prop where
  empty : P K.empty
  contains_empty : ∀ a, K.contains K.empty a = false
  collect : ∀ elems, P (K.collect elems)
  contains_collect : ∀ elems a, K.contains (K.collect elems) a = true ↔ a ∈ elems
  insert : ∀ {s}, P s → ∀ a, ∃ s' grown, K.insert? s a = some (s', grown) ∧ P s' ∧
    (∀ b, K.contains s' b = true ↔ K.contains s b = true ∨ b = a) ∧
    (grown = true ↔ K.contains s a = false)
  union : ∀ {s t}, P s → P t → ∃ s' grown, K.union? s t = some (s', grown) ∧ P s' ∧
    (∀ a, K.contains s' a = true ↔ K.contains s a = true ∨ K.contains t a = true) ∧
    (grown = true ↔ ∃ a, K.contains t a = true ∧ K.contains s a = false)
  /-- Nothing is left of a set that is cleared, not even its form. -/
  clear_eq : ∀ s, K.clear s = K.empty
  copy_eq : ∀ s t, K.copy s t = t
  /-- The elements can be listed, each once. -/
  count : ∀ {s}, P s →
    ∃ l : List α, l.Nodup ∧ (∀ a, a ∈ l ↔ K.contains s a = true) ∧ K.count s = l.length
  isEmpty : ∀ {s}, P s → (K.isEmpty s = true ↔ ∀ a, K.contains s a = false)
  superset : ∀ {s t}, P s → P t →
    (K.superset s t = true ↔ ∀ a, K.contains t a = true → K.contains s a = true)
  intersects : ∀ {s t}, P s → P t →
    (K.intersects s t = true ↔ ∃ a, K.contains s a = true ∧ K.contains t a = true)
  equal : ∀ {s t}, P s → P t →
    (K.equal s t = true ↔ ∀ a, K.contains s a = true ↔ K.contains t a = true)

/-- The set satisfies `P` and has the elements of `F`. -/
structure Holds (K : SetKind σ α) (P : σ → Prop) (s : σ) (F : Finset α) : Prop where
  valid : P s
  contains : ∀ a, K.contains s a = true ↔ a ∈ F

omit [DecidableEq α] in
/-- What a set does not contain is what the finite set that it holds does not have. -/
lemma Holds.contains_eq_false {K : SetKind σ α} {P : σ → Prop} {s : σ} {F : Finset α}
    (h : K.Holds P s F) (a : α) : K.contains s a = false ↔ a ∉ F := by
  rw [← Bool.not_eq_true, h.contains]

omit [DecidableEq α] in
lemma holds_empty {K : SetKind σ α} {P : σ → Prop} (hK : K.ByMembership P) :
    K.Holds P K.empty ∅ :=
  ⟨hK.empty, fun a => by simp [hK.contains_empty]⟩

/-- A kind described by membership answers every script as finite sets do. -/
theorem simulates_of_byMembership {K : SetKind σ α} {P : σ → Prop}
    (hK : K.ByMembership P) : Simulates K finsets (K.Holds P) where
  empty := holds_empty hK
  collect elems := by
    refine ⟨hK.collect elems, fun a => ?_⟩
    rw [hK.contains_collect]
    exact List.mem_toFinset.symm
  insert {s F} h a := by
    obtain ⟨s', grown, hs, hP, hmem, hflag⟩ := hK.insert h.valid a
    -- the flag of both kinds is that the set has grown
    have hgrown : grown = decide (F ⊂ insert a F) := by
      rw [Bool.eq_iff_iff, hflag, h.contains_eq_false, decide_eq_true_eq, ssubset_insert_iff]
    refine ⟨s', insert a F, grown, hs, by rw [hgrown]; rfl, hP, fun b => ?_⟩
    rw [hmem, h.contains, Finset.mem_insert, or_comm]
  union {s F t G} h h' := by
    obtain ⟨s', grown, hs, hP, hmem, hflag⟩ := hK.union h.valid h'.valid
    have hgrown : grown = decide (F ⊂ F ∪ G) := by
      rw [Bool.eq_iff_iff, hflag, decide_eq_true_eq, ssubset_union_iff]
      simp only [h'.contains, h.contains_eq_false]
    refine ⟨s', F ∪ G, grown, hs, by rw [hgrown]; rfl, hP, fun a => ?_⟩
    rw [hmem, h.contains, h'.contains, Finset.mem_union]
  clear {s F} _ := by
    rw [hK.clear_eq]
    exact holds_empty hK
  copy {s F t G} _ h' := by
    rw [hK.copy_eq]
    exact h'
  contains {s F} h a := by
    show _ = decide (a ∈ F)
    rw [Bool.eq_iff_iff, h.contains, decide_eq_true_eq]
  count {s F} h := by
    -- a list of the elements without repetition has the right length
    obtain ⟨l, hnodup, hmem, hcount⟩ := hK.count h.valid
    have hl : l.toFinset = F := by
      ext a
      rw [List.mem_toFinset, hmem, h.contains]
    show _ = F.card
    rw [hcount, ← hl, List.toFinset_card_of_nodup hnodup]
  isEmpty {s F} h := by
    show _ = decide (F = ∅)
    rw [Bool.eq_iff_iff, hK.isEmpty h.valid, decide_eq_true_eq, Finset.eq_empty_iff_forall_notMem]
    simp only [h.contains_eq_false]
  superset {s F t G} h h' := by
    show _ = decide (G ⊆ F)
    rw [Bool.eq_iff_iff, hK.superset h.valid h'.valid, decide_eq_true_eq]
    simp only [h.contains, h'.contains]
    rfl
  intersects {s F t G} h h' := by
    show _ = decide (F ∩ G).Nonempty
    rw [Bool.eq_iff_iff, hK.intersects h.valid h'.valid, decide_eq_true_eq]
    simp only [h.contains, h'.contains, Finset.Nonempty, Finset.mem_inter]
  equal {s F t G} h h' := by
    show _ = decide (F = G)
    rw [Bool.eq_iff_iff, hK.equal h.valid h'.valid, decide_eq_true_eq, Finset.ext_iff]
    simp only [h.contains, h'.contains]

end References

end SetKind

end MayAlias
