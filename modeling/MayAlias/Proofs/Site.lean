import Mathlib.Data.List.Nodup
import Mathlib.Tactic.Common
import MayAlias.Effect

/-!
# Tables of allocation sites

A table keeps its sites twice, as a list of labels and as a map from labels to objects.  `InStep`
says that the two are inverse to each other, and interning a label keeps them so.

Interning only adds sites, so the object of a label never changes once the label is in the table,
and lowering a statement again against a later table gives the same effect.
-/

namespace MayAlias

namespace SiteTable

/-! ## The list and the map -/

/-- The list and the map are in step: no label is listed twice, and the map has under a label the
object that is numbered by the place of the label in the list, and has nothing else. -/
structure InStep (t : SiteTable) : Prop where
  nodup : t.labels.Nodup
  find?_iff : ∀ label o, t.find? label = some o ↔
    ∃ i, t.labels[i]? = some label ∧ o = ObjectId.ofNat i

lemma inStep_empty : empty.InStep where
  nodup := List.nodup_nil
  find?_iff label o := by simp [empty, find?]

/-- The map has the labels that are listed. -/
lemma InStep.exists_find?_iff {t : SiteTable} (ht : t.InStep) (label : String) :
    (∃ o, t.find? label = some o) ↔ label ∈ t.labels := by
  rw [List.mem_iff_getElem?]
  constructor
  · intro h
    obtain ⟨o, ho⟩ := h
    obtain ⟨i, hi, _⟩ := (ht.find?_iff label o).1 ho
    exact ⟨i, hi⟩
  · intro h
    obtain ⟨i, hi⟩ := h
    exact ⟨ObjectId.ofNat i, (ht.find?_iff label _).2 ⟨i, hi, rfl⟩⟩

/-- A label that the map does not have is not listed either. -/
lemma InStep.notMem_of_find? {t : SiteTable} (ht : t.InStep) {label : String}
    (h : t.find? label = none) : label ∉ t.labels := by
  intro hmem
  obtain ⟨o, ho⟩ := (ht.exists_find?_iff label).2 hmem
  simp [h] at ho

/-! ## Interning -/

lemma intern_of_find? {t : SiteTable} {label : String} {o : ObjectId}
    (h : t.find? label = some o) : t.intern label = (o, t) := by
  rw [intern, h]

/-- A label that is new to the map is written into both structures. -/
lemma intern_of_find?_eq_none {t : SiteTable} {label : String} (h : t.find? label = none) :
    t.intern label = (ObjectId.ofNat t.size,
      ⟨t.labels ++ [label], t.objects.insert label (ObjectId.ofNat t.size)⟩) := by
  rw [intern, h]

private lemma getElem?_concat_iff {l : List String} {a b : String} {i : ℕ} :
    (l ++ [a])[i]? = some b ↔ l[i]? = some b ∨ i = l.length ∧ a = b := by
  rcases Nat.lt_trichotomy i l.length with hi | rfl | hi
  · have hne : i ≠ l.length := by omega
    rw [List.getElem?_append_left hi]
    simp [hne]
  · simp
  · have hne : i ≠ l.length := by omega
    have hlength : (l ++ [a]).length ≤ i := by
      rw [List.length_append, List.length_singleton]
      omega
    rw [List.getElem?_eq_none hlength, List.getElem?_eq_none (by omega)]
    simp [hne]

/-- Interning keeps the list and the map in step. -/
lemma InStep.intern {t : SiteTable} (ht : t.InStep) (label : String) :
    (t.intern label).2.InStep := by
  cases h : t.find? label with
  | some o =>
    rw [intern_of_find? h]
    exact ht
  | none =>
    have hnew : label ∉ t.labels := ht.notMem_of_find? h
    rw [intern_of_find?_eq_none h]
    refine ⟨?_, fun l o => ?_⟩
    · rw [← List.concat_eq_append]
      exact ht.nodup.concat hnew
    · show (t.objects.insert label (ObjectId.ofNat t.size)).get? l = some o ↔ _
      rw [FinMap.get?_insert]
      simp only [getElem?_concat_iff]
      by_cases hl : l = label
      · -- the label is at the end of the list and nowhere else
        subst hl
        have hplace : ∀ i, t.labels[i]? ≠ some l := fun i hi => hnew (List.mem_of_getElem? hi)
        simp [hplace, size, eq_comm]
      · have hne : label ≠ l := fun heq => hl heq.symm
        simp only [if_neg hl, hne, and_false, or_false]
        exact ht.find?_iff l o

lemma find?_intern (t : SiteTable) (label : String) :
    (t.intern label).2.find? label = some (t.intern label).1 := by
  cases h : t.find? label with
  | some o =>
    rw [intern_of_find? h]
    exact h
  | none =>
    rw [intern_of_find?_eq_none h]
    exact FinMap.get?_insert_self _ _ _

lemma mem_labels_intern {t : SiteTable} (ht : t.InStep) (label l : String) :
    l ∈ (t.intern label).2.labels ↔ l ∈ t.labels ∨ l = label := by
  cases h : t.find? label with
  | some o =>
    have hmem : label ∈ t.labels := (ht.exists_find?_iff label).1 ⟨o, h⟩
    rw [intern_of_find? h]
    exact ⟨Or.inl, fun h => h.elim id fun h => h ▸ hmem⟩
  | none =>
    rw [intern_of_find?_eq_none h]
    simp

/-! ## Later tables -/

/-- The table `t'` has the sites of `t` and perhaps more: its list goes on where the list of `t`
ends, and its map has what the map of `t` has. -/
structure Extends (t t' : SiteTable) : Prop where
  labels : t.labels <+: t'.labels
  find? : ∀ {label o}, t.find? label = some o → t'.find? label = some o

lemma Extends.refl (t : SiteTable) : t.Extends t := ⟨List.prefix_rfl, id⟩

lemma Extends.trans {t t' t'' : SiteTable} (h : t.Extends t') (h' : t'.Extends t'') :
    t.Extends t'' := ⟨h.labels.trans h'.labels, fun ho => h'.find? (h.find? ho)⟩

/-- Interning changes nothing that has been handed out. -/
lemma extends_intern (t : SiteTable) (label : String) : t.Extends (t.intern label).2 := by
  cases h : t.find? label with
  | some o =>
    rw [intern_of_find? h]
    exact Extends.refl t
  | none =>
    rw [intern_of_find?_eq_none h]
    refine ⟨List.prefix_append _ _, fun {l o} ho => ?_⟩
    have hl : l ≠ label := by
      rintro rfl
      simp [h] at ho
    exact (FinMap.get?_insert_of_ne _ hl _).trans ho

end SiteTable

namespace Effect

/-- Only an allocation without a site has no effect. -/
lemma ofStatement?_eq_none_iff {t : SiteTable} {s : Statement} :
    ofStatement? t s = none ↔ ∃ lhs, s = .alloc lhs none := by
  cases s with
  | alloc lhs site => cases site <;> simp [ofStatement?]
  | _ => simp [ofStatement?]

/-- A statement that has an effect is an allocation, whose site is added to the table, or its effect
does not depend on the table, which stays as it is. -/
lemma ofStatement?_cases {t t' : SiteTable} {s : Statement} {e : Effect}
    (h : ofStatement? t s = some (e, t')) :
    (∃ lhs label, s = .alloc lhs (some label) ∧ e = alloc lhs (t.intern label).1 ∧
        t' = (t.intern label).2) ∨
      (∀ lhs site, s ≠ .alloc lhs site) ∧ t' = t ∧ ∀ t'', ofStatement? t'' s = some (e, t'') := by
  cases s with
  | alloc lhs site =>
    cases site with
    | none => simp [ofStatement?] at h
    | some label =>
      obtain ⟨rfl, rfl⟩ := Prod.mk.inj (Option.some.inj h)
      exact Or.inl ⟨lhs, label, rfl, rfl, rfl⟩
  | copy lhs rhs =>
    obtain ⟨rfl, rfl⟩ := Prod.mk.inj (Option.some.inj h)
    exact Or.inr ⟨by simp, rfl, fun _ => rfl⟩
  | load lhs base field =>
    obtain ⟨rfl, rfl⟩ := Prod.mk.inj (Option.some.inj h)
    exact Or.inr ⟨by simp, rfl, fun _ => rfl⟩
  | store base field rhs =>
    obtain ⟨rfl, rfl⟩ := Prod.mk.inj (Option.some.inj h)
    exact Or.inr ⟨by simp, rfl, fun _ => rfl⟩
  | other =>
    obtain ⟨rfl, rfl⟩ := Prod.mk.inj (Option.some.inj h)
    exact Or.inr ⟨by simp, rfl, fun _ => rfl⟩

lemma extends_of_ofStatement? {t t' : SiteTable} {s : Statement} {e : Effect}
    (h : ofStatement? t s = some (e, t')) : t.Extends t' := by
  rcases ofStatement?_cases h with ⟨lhs, label, _, _, rfl⟩ | ⟨_, rfl, _⟩
  · exact t.extends_intern label
  · exact SiteTable.Extends.refl _

/-- Lowered again against a later table, a statement has the same effect and adds no site. -/
lemma ofStatement?_of_extends {t t' t'' : SiteTable} {s : Statement} {e : Effect}
    (h : ofStatement? t s = some (e, t')) (hext : t'.Extends t'') :
    ofStatement? t'' s = some (e, t'') := by
  rcases ofStatement?_cases h with ⟨lhs, label, rfl, rfl, rfl⟩ | ⟨_, _, hsame⟩
  -- the label is in the later table, so interning it finds the object it has
  · rw [ofStatement?, SiteTable.intern_of_find? (hext.find? (t.find?_intern label))]
  · exact hsame t''

end Effect

end MayAlias
