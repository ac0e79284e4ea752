import Mathlib.Data.Finset.Dedup
import MayAlias.Proofs.AliasAnswers

/-!
# Graphs up to the numbering of the sites

The number of an object says nothing by itself: another table may number the same labels in another
order.  `SiteTable.translate` takes an object of one table to the object of the same label in
another, and effects respect it: whatever holds of the assertions before a statement under a
translation holds of those after it (`Effect.mapsTo_after`).

What remains of a graph when its objects are replaced by their labels is `Graph.labelled`.  Graphs
whose assertions translate to each other agree on it, and give the same answers to queries.
-/

namespace MayAlias

/-! ## Tables that number the same labels -/

lemma ObjectId.toNat_ofNat {i : ℕ} (h : i < 2 ^ 32) : (ofNat i).toNat = i := by
  rw [ofNat, toNat, UInt32.toNat_ofNat']
  exact Nat.mod_eq_of_lt h

namespace SiteTable

/-- In a table with a number for each of its labels, the map is the inverse of the list. -/
lemma InStep.find?_iff_label? {t : SiteTable} (ht : t.InStep) (hsize : t.size ≤ 2 ^ 32)
    (label : String) (o : ObjectId) : t.find? label = some o ↔ t.label? o = some label := by
  rw [ht.find?_iff, label?]
  constructor
  · intro h
    obtain ⟨i, hi, rfl⟩ := h
    have hlt : i < t.size := (List.getElem?_eq_some_iff.1 hi).1
    rw [ObjectId.toNat_ofNat (hlt.trans_le hsize)]
    exact hi
  · intro h
    refine ⟨o.toNat, h, ?_⟩
    rw [ObjectId.ofNat, ObjectId.toNat, UInt32.ofNat_toNat]

/-- The tables have the same labels, and few enough to number them all. -/
structure Renumbers (t t' : SiteTable) : Prop where
  inStep : t.InStep
  inStep' : t'.InStep
  mem_labels : ∀ label, label ∈ t.labels ↔ label ∈ t'.labels
  size_le : t.size ≤ 2 ^ 32
  size_le' : t'.size ≤ 2 ^ 32

lemma Renumbers.symm {t t' : SiteTable} (h : t.Renumbers t') : t'.Renumbers t :=
  ⟨h.inStep', h.inStep, fun label => (h.mem_labels label).symm, h.size_le', h.size_le⟩

/-- The object of the same label in another table. -/
def translate (t t' : SiteTable) (o : ObjectId) : ObjectId := ((t.label? o).bind t'.find?).getD o

section Renumbers

variable {t t' : SiteTable} (h : t.Renumbers t') {label : String} {o o' : ObjectId}

include h

/-- The object of a label is taken to the other object of that label. -/
lemma Renumbers.translate_of_find? (ho : t.find? label = some o) (ho' : t'.find? label = some o') :
    t.translate t' o = o' := by
  have hlabel := (h.inStep.find?_iff_label? h.size_le label o).1 ho
  rw [translate, hlabel, Option.bind_some, ho', Option.getD_some]

/-- A translated object has the label it had before. -/
lemma Renumbers.label?_translate (ho : t.label? o = some label) :
    t'.label? (t.translate t' o) = some label := by
  have hmem : label ∈ t'.labels := (h.mem_labels label).1 (List.mem_of_getElem? ho)
  obtain ⟨o', ho'⟩ := (h.inStep'.exists_find?_iff label).2 hmem
  rw [translate, ho, Option.bind_some, ho', Option.getD_some]
  exact (h.inStep'.find?_iff_label? h.size_le' label o').1 ho'

end Renumbers

end SiteTable

/-! ## Assertions and effects under a change of objects -/

/-- The assertion with its objects changed. -/
def Atom.map (φ : ObjectId → ObjectId) : Atom → Atom
  | object o => object (φ o)
  | edge e => edge ⟨φ e.src, e.field, φ e.dst⟩
  | tracked var => tracked var
  | points var o => points var (φ o)

/-- Assigning translated pointees translates what is asserted. -/
lemma Atom.mapsTo_reassign {φ : ObjectId → ObjectId} {A B : Set Atom}
    (hAB : Set.MapsTo (map φ) A B) {P Q : ObjectId → Prop} (hPQ : ∀ o, P o → Q (φ o))
    (var : String) : Set.MapsTo (map φ) (reassign var P A) (reassign var Q B) := by
  intro a ha
  cases a with
  | object o => exact ha.imp (fun h : object o ∈ A => hAB h) (hPQ o)
  | edge e => exact hAB (show edge e ∈ A from ha)
  | tracked v => exact ha.imp id fun h : tracked v ∈ A => hAB h
  | points v o =>
    show if v = var then Q (φ o) else points v (φ o) ∈ B
    replace ha : if v = var then P o else points v o ∈ A := ha
    split at ha
    · next hv => rw [if_pos hv]; exact hPQ o ha
    · next hv => rw [if_neg hv]; exact hAB ha

namespace Effect

/-- The effect with its object changed. -/
def map (φ : ObjectId → ObjectId) : Effect → Effect
  | alloc lhs object => alloc lhs (φ object)
  | copy lhs rhs => copy lhs rhs
  | load lhs base field => load lhs base field
  | store base field rhs => store base field rhs
  | nothing => nothing

/-- Effects do not look at the numbers of objects. -/
theorem mapsTo_after {φ : ObjectId → ObjectId} {A B : Set Atom}
    (hAB : Set.MapsTo (Atom.map φ) A B) (e : Effect) :
    Set.MapsTo (Atom.map φ) (e.after A) ((e.map φ).after B) := by
  cases e with
  | alloc lhs object =>
    apply Atom.mapsTo_reassign hAB
    exact fun o ho => congrArg φ ho
  | copy lhs rhs => exact Atom.mapsTo_reassign hAB (fun o ho => hAB ho) lhs
  | load lhs base field =>
    apply Atom.mapsTo_reassign hAB
    intro o h
    obtain ⟨src, hbase, hedge⟩ := h
    exact ⟨φ src, hAB hbase, hAB hedge⟩
  | store base field rhs =>
    intro a ha
    rcases ha with ha | ⟨src, dst, hbase, hrhs, rfl⟩
    · exact Or.inl (hAB ha)
    · exact Or.inr ⟨φ src, φ dst, hAB hbase, hAB hrhs, rfl⟩
  | nothing => exact hAB

/-- A statement has the same effect under both numberings of the sites. -/
lemma eq_map_of_ofStatement? {t t' : SiteTable} (h : t.Renumbers t') {s : Statement}
    {e e' : Effect} (he : ofStatement? t s = some (e, t))
    (he' : ofStatement? t' s = some (e', t')) : e' = e.map (t.translate t') := by
  rcases ofStatement?_cases he with ⟨lhs, label, rfl, rfl, ht⟩ | ⟨hstmt, _, hsame⟩
  · have hlower : ofStatement? t' (.alloc lhs (some label))
        = some (alloc lhs (t'.intern label).1, (t'.intern label).2) := rfl
    obtain ⟨rfl, ht'⟩ := Prod.mk.inj (Option.some.inj (hlower.symm.trans he'))
    -- the label is in both tables already, so interning it adds nothing
    have hfind := t.find?_intern label
    have hfind' := t'.find?_intern label
    rw [← ht] at hfind
    rw [ht'] at hfind'
    rw [map, h.translate_of_find? hfind hfind']
  · obtain ⟨rfl, _⟩ := Prod.mk.inj (Option.some.inj ((hsame t').symm.trans he'))
    cases e with
    | alloc lhs object =>
      cases s with
      | alloc lhs' site => exact absurd rfl (hstmt lhs' site)
      | _ => simp [ofStatement?] at he
    | _ => rfl

end Effect

/-! ## Graphs with labels for objects -/

/-- An assertion about sites, which are given by their labels if they have one. -/
inductive SiteAtom where
  | object (site : Option String)
  | edge (src : Option String) (field : String) (dst : Option String)
  | tracked (var : String)
  | points (var : String) (site : Option String)
deriving DecidableEq

/-- The assertion with its objects replaced by the labels of their sites. -/
def Atom.label (t : SiteTable) : Atom → SiteAtom
  | object o => .object (t.label? o)
  | edge e => .edge (t.label? e.src) e.field (t.label? e.dst)
  | tracked var => .tracked var
  | points var o => .points var (t.label? o)

namespace Graph

/-- The assertions of a graph, one after the other. -/
def atomList (g : Graph) : List Atom :=
  g.objects.toList.map .object ++ g.edges.map .edge ++ g.vars.keys.map .tracked ++
    g.vars.entries.flatMap fun entry => entry.2.toList.map (.points entry.1)

/-- What a graph asserts, with its objects replaced by the labels of their sites. -/
def labelled (t : SiteTable) (g : Graph) : Finset SiteAtom :=
  (g.atomList.map (Atom.label t)).toFinset

/-- The list has all that a graph asserts. -/
lemma WellFormed.mem_atomList {g : Graph} (hg : g.WellFormed) (a : Atom) :
    a ∈ g.atomList ↔ a ∈ g.atoms := by
  simp only [atomList, List.mem_append, List.mem_map, List.mem_flatMap]
  cases a with
  | object o => simp [hg.objects.mem_toList]
  | edge e => simp
  | tracked var => simp
  | points var o =>
    simp only [reduceCtorEq, and_false, exists_false, false_or, Atom.points.injEq]
    constructor
    · intro h
      -- an entry of the map is what a look-up of its key finds
      obtain ⟨entry, hentry, _, ho, rfl, rfl⟩ := h
      have hget := (FinMap.get?_eq_some_iff g.vars entry.1 entry.2).2 hentry
      rw [points_mem_atoms, pointees_eq_of_get? hget]
      exact ((hg.vars _ _ hget).mem_toList _).1 ho
    · intro h
      obtain ⟨pts, hget, ho⟩ := exists_get?_of_points h
      exact ⟨(var, pts), (FinMap.get?_eq_some_iff _ _ _).1 hget, o,
        ((hg.vars _ _ hget).mem_toList o).2 ho, rfl, rfl⟩

/-- What remains of a graph are the labels of its assertions. -/
lemma WellFormed.mem_labelled {g : Graph} (hg : g.WellFormed) (t : SiteTable) (x : SiteAtom) :
    x ∈ g.labelled t ↔ ∃ a ∈ g.atoms, a.label t = x := by
  simp only [labelled, List.mem_toFinset, List.mem_map, hg.mem_atomList]

/-- Every object of the graph has a label. -/
def KnownTo (g : Graph) (t : SiteTable) : Prop :=
  ∀ o, g.objects.contains o = true → ∃ label, t.label? o = some label

section Translate

variable {t t' : SiteTable} (h : t.Renumbers t') {G G' : Graph} (hG : G.WellFormed)

include h hG

/-- A translation does not change the labels. -/
lemma label_map_translate (hknown : G.KnownTo t) {a : Atom} (ha : a ∈ G.atoms) :
    (a.map (t.translate t')).label t' = a.label t := by
  have hlabel : ∀ o, Atom.object o ∈ G.atoms → t'.label? (t.translate t' o) = t.label? o := by
    intro o ho
    obtain ⟨label, hl⟩ := hknown o ho
    rw [h.label?_translate hl, hl]
  cases a with
  | object o => rw [Atom.map, Atom.label, hlabel o ha, Atom.label]
  | edge e =>
    obtain ⟨hsrc, hdst⟩ := hG.endpoints e ha
    rw [Atom.map, Atom.label, hlabel _ hsrc, hlabel _ hdst, Atom.label]
  | tracked var => rfl
  | points var o => rw [Atom.map, Atom.label, hlabel o (hG.object_of_points ha), Atom.label]

/-- If all assertions translate, the labels are among those of the other graph. -/
lemma labelled_subset (hG' : G'.WellFormed) (hknown : G.KnownTo t)
    (hmap : Set.MapsTo (Atom.map (t.translate t')) G.atoms G'.atoms) :
    G.labelled t ⊆ G'.labelled t' := by
  intro x hx
  obtain ⟨a, ha, rfl⟩ := (hG.mem_labelled t x).1 hx
  rw [hG'.mem_labelled]
  exact ⟨_, hmap ha, label_map_translate h hG hknown ha⟩

end Translate

/-- The graphs are equal when every object is replaced by its label, which all objects have. -/
structure SameByLabels (t : SiteTable) (G : Graph) (t' : SiteTable) (G' : Graph) : Prop where
  known : G.KnownTo t
  known' : G'.KnownTo t'
  labelled_eq : G.labelled t = G'.labelled t'

/-- Queries do not look at the numbers of objects. -/
lemma answer_of_mapsTo {φ : ObjectId → ObjectId} {G G' : Graph} (hG : G.WellFormed)
    (hG' : G'.WellFormed) (hmap : Set.MapsTo (Atom.map φ) G.atoms G'.atoms) {q : Query}
    (hq : G.answer q = true) : G'.answer q = true := by
  cases q with
  | vars left right =>
    obtain ⟨o, hl, hr⟩ := (hG.mayAlias_iff left right).1 hq
    exact (hG'.mayAlias_iff left right).2 ⟨φ o, hmap hl, hmap hr⟩
  | field left name right =>
    obtain ⟨src, o, hl, he, hr⟩ := (hG.mayAliasVia_iff left name right).1 hq
    exact (hG'.mayAliasVia_iff left name right).2 ⟨φ src, φ o, hmap hl, hmap he, hmap hr⟩

end Graph

end MayAlias
