import Mathlib.Data.List.Induction
import MayAlias.Proofs.Cfg
import MayAlias.Proofs.Monotonicity
import MayAlias.Proofs.Relabelling

/-!
# Numbering of allocation sites

Interning labels one after the other leaves the distinct ones in the table, in the order in which
they first occur.  The list and the map of the table are in step after every call, so a label's
place in this order is the number of its object.  As long as there are not more labels than numbers,
looking up a label in the map and looking up an object in the list undo each other, and what has
been handed out stays as it is.  The table of a procedure is the one that its allocations leave, in
program order, and so two of them share their object when they have the same label.
-/

namespace MayAlias

namespace SiteTable

/-! ## Interning one label after the other -/

/-- The objects of labels, each of which is added to the table on first use. -/
def internAll (t : SiteTable) : List String → List ObjectId × SiteTable
  | [] => ([], t)
  | label :: rest =>
    ((t.intern label).1 :: ((t.intern label).2.internAll rest).1,
      ((t.intern label).2.internAll rest).2)

/-- The table after interning labels. -/
def ofLabels (labels : List String) : SiteTable := (empty.internAll labels).2

/-- The table numbers the labels in the order in which they first occur. -/
structure Numbers (t : SiteTable) (labels : List String) : Prop where
  numbered : ∀ i label, labels.eraseDups[i]? = some label →
    ∃ o, t.find? label = some o ∧ o.toNat = i
  known : ∀ label, (∃ o, t.find? label = some o) ↔ label ∈ labels
  find?_iff_label? : ∀ label o, t.find? label = some o ↔ t.label? o = some label
  distinct : ∀ label label' o o', t.find? label = some o → t.find? label' = some o' →
    (o = o' ↔ label = label')
  size : t.size = labels.toFinset.card

/-- Labels are interned in order, the later ones into the table that the earlier ones leave. -/
lemma internAll_append (t : SiteTable) (before behind : List String) :
    t.internAll (before ++ behind) =
      ((t.internAll before).1 ++ ((t.internAll before).2.internAll behind).1,
        ((t.internAll before).2.internAll behind).2) := by
  induction before generalizing t with
  | nil => rfl
  | cons label before ih =>
    show ((t.intern label).1 :: ((t.intern label).2.internAll (before ++ behind)).1,
      ((t.intern label).2.internAll (before ++ behind)).2) = _
    rw [ih]
    rfl

/-- No object that has been handed out is lost. -/
lemma extends_internAll (t : SiteTable) (labels : List String) :
    t.Extends (t.internAll labels).2 := by
  induction labels generalizing t with
  | nil => exact Extends.refl t
  | cons label labels ih => exact (t.extends_intern label).trans (ih _)

/-- More labels behind the others leave their objects as they are. -/
lemma extends_ofLabels (labels more : List String) :
    (ofLabels labels).Extends (ofLabels (labels ++ more)) := by
  unfold ofLabels
  rw [internAll_append]
  exact extends_internAll _ more

lemma ofLabels_concat (labels : List String) (label : String) :
    ofLabels (labels ++ [label]) = ((ofLabels labels).intern label).2 :=
  congrArg Prod.snd (internAll_append empty labels [label])

/-- Any number of calls leaves the list and the map in step. -/
lemma InStep.internAll {t : SiteTable} (ht : t.InStep) (labels : List String) :
    (t.internAll labels).2.InStep := by
  induction labels generalizing t with
  | nil => exact ht
  | cons label labels ih => exact ih (ht.intern label)

/-- List and map of a table made by interning are inverse to each other. -/
lemma inStep_ofLabels (labels : List String) : (ofLabels labels).InStep :=
  inStep_empty.internAll labels

/-- A label is appended unless it is there. -/
lemma labels_intern {t : SiteTable} (ht : t.InStep) (label : String) :
    (t.intern label).2.labels = if label ∈ t.labels then t.labels else t.labels ++ [label] := by
  cases h : t.find? label with
  | some o =>
    have hmem : label ∈ t.labels := (ht.exists_find?_iff label).1 ⟨o, h⟩
    rw [intern_of_find? h, if_pos hmem]
  | none => rw [intern_of_find?_eq_none h, if_neg (ht.notMem_of_find? h)]

/-- The table has the distinct labels in the order in which they first occur. -/
lemma labels_ofLabels (labels : List String) :
    (ofLabels labels).labels = labels.eraseDups := by
  induction labels using List.reverseRecOn with
  | nil => rfl
  | append_singleton labels label ih =>
    rw [ofLabels_concat, labels_intern (inStep_ofLabels labels), ih, List.eraseDups_append]
    by_cases hmem : label ∈ labels
    · simp [hmem, List.removeAll]
    · simp [hmem, List.removeAll, List.eraseDups_cons]

/-- There are as many sites as distinct labels. -/
lemma size_ofLabels (labels : List String) :
    (ofLabels labels).size = labels.toFinset.card := by
  have hsame : (ofLabels labels).labels.toFinset = labels.toFinset := by
    ext label
    rw [labels_ofLabels, List.mem_toFinset, List.mem_eraseDups, List.mem_toFinset]
  rw [← hsame, List.toFinset_card_of_nodup (inStep_ofLabels labels).nodup, size]

/-- Every label is found again under the object that was handed out for it. -/
lemma map_find?_internAll (t : SiteTable) (labels : List String) :
    labels.map (t.internAll labels).2.find? = (t.internAll labels).1.map some := by
  induction labels generalizing t with
  | nil => rfl
  | cons label labels ih =>
    have hfind : (t.internAll (label :: labels)).2.find? label = some (t.intern label).1 :=
      (extends_internAll _ labels).find? (t.find?_intern label)
    rw [List.map_cons, hfind]
    exact congrArg (some (t.intern label).1 :: ·) (ih (t.intern label).2)

/-! ## Labels and objects -/

/-- The objects of a table that numbers its labels are told apart by their labels. -/
lemma InStep.eq_iff_of_find? {t : SiteTable} (ht : t.InStep) (hsize : t.size ≤ 2 ^ 32)
    {label label' : String} {o o' : ObjectId} (h : t.find? label = some o)
    (h' : t.find? label' = some o') : o = o' ↔ label = label' := by
  constructor
  · rintro rfl
    have hlabel := (ht.find?_iff_label? hsize label o).1 h
    rw [(ht.find?_iff_label? hsize label' o).1 h'] at hlabel
    exact (Option.some.inj hlabel).symm
  · rintro rfl
    exact Option.some.inj (h.symm.trans h')

/-- Interning labels into the empty table numbers them. -/
lemma numbers_ofLabels {labels : List String} (hcard : labels.toFinset.card ≤ 2 ^ 32) :
    (ofLabels labels).Numbers labels := by
  have hsize := size_ofLabels labels
  have hstep := inStep_ofLabels labels
  rw [← hsize] at hcard
  exact {
    numbered := by
      intro i label hi
      rw [← labels_ofLabels] at hi
      have hlt : i < 2 ^ 32 := (List.getElem?_eq_some_iff.1 hi).1.trans_le hcard
      exact ⟨ObjectId.ofNat i, (hstep.find?_iff label _).2 ⟨i, hi, rfl⟩, ObjectId.toNat_ofNat hlt⟩
    known := by
      intro label
      rw [hstep.exists_find?_iff, labels_ofLabels, List.mem_eraseDups]
    find?_iff_label? := hstep.find?_iff_label? hcard
    distinct := fun label label' o o' => hstep.eq_iff_of_find? hcard
    size := hsize }

/-! ## What has been handed out stays -/

/-- Every label of a table has the same object in a later one. -/
lemma Extends.label? {t t' : SiteTable} (h : t.Extends t') {o : ObjectId} {label : String}
    (ho : t.label? o = some label) : t'.label? o = some label := by
  obtain ⟨more, hmore⟩ := h.labels
  have hlt : o.toNat < t.labels.length := (List.getElem?_eq_some_iff.1 ho).1
  rw [SiteTable.label?, ← hmore, List.getElem?_append_left hlt]
  exact ho

end SiteTable

/-! ## The table of a procedure -/

/-- The labels of the allocations in program order. -/
def Flow.siteSequence {N : Type} (g : Flow N) : List String :=
  g.nodes.filterMap fun n => (g.stmt n).site?

namespace Analysis

variable {N : Type} {g : Flow N}

/-- A statement adds its site to the table, if it has one. -/
lemma sites_of_ofStatement? {t t' : SiteTable} {s : Statement} {e : Effect}
    (h : Effect.ofStatement? t s = some (e, t')) : t' = (t.internAll s.site?.toList).2 := by
  rcases Effect.ofStatement?_cases h with ⟨lhs, label, rfl, _, rfl⟩ | ⟨hstmt, rfl, _⟩
  · rfl
  · cases s with
    | alloc lhs site => exact absurd rfl (hstmt lhs site)
    | _ => rfl

/-- The statements of nodes add their sites to the table in order. -/
lemma Problem.sites_of_effectsOf {l : List N} {t t' : SiteTable} {es : List Effect}
    (h : effectsOf g t l = .ok (es, t')) :
    t' = (t.internAll (l.filterMap fun n => (g.stmt n).site?)).2 := by
  induction l generalizing t es with
  | nil =>
    rw [effectsOf] at h
    obtain ⟨rfl, rfl⟩ := Prod.mk.inj (Except.ok.inj h)
    rfl
  | cons n rest ih =>
    rw [effectsOf] at h
    split at h
    · simp at h
    · next e t₁ he =>
      obtain ⟨⟨es', t₂⟩, hes, hok⟩ := bind_eq_ok_iff.1 h
      obtain ⟨rfl, rfl⟩ := Prod.mk.inj (Except.ok.inj hok)
      -- a statement that allocates nothing adds no label
      have hcons : (n :: rest).filterMap (fun n => (g.stmt n).site?)
          = (g.stmt n).site?.toList ++ rest.filterMap fun n => (g.stmt n).site? := by
        rw [List.filterMap_cons]
        cases (g.stmt n).site? <;> rfl
      rw [ih hes, sites_of_ofStatement? he, hcons, SiteTable.internAll_append]

variable [DecidableEq N] {p : Problem N} (hp : Problem.ofFlow g = .ok p)

include hp

/-- The table of a procedure is the one that its allocations leave. -/
lemma Problem.sites_eq_ofLabels : p.sites = SiteTable.ofLabels g.siteSequence :=
  sites_of_effectsOf (effectsOf_of_ofFlow hp)

/-- The effect of an allocation has the object of its label. -/
lemma Problem.effect_of_alloc {i : ℕ} {n : N} {lhs label : String} (hi : g.nodes[i]? = some n)
    (hstmt : g.stmt n = .alloc lhs (some label)) :
    ∃ o, p.effects[i]? = some (.alloc lhs o) ∧ p.sites.find? label = some o := by
  have hr := represents_of_ofFlow hp
  have heffect := hr.effects i n hi
  have hlt : i < p.effects.size := hr.effects_size ▸ (List.getElem?_eq_some_iff.1 hi).1
  rcases Effect.ofStatement?_cases heffect with ⟨x, l, hsame, halloc, hsites⟩ | ⟨hno, _⟩
  · rw [hstmt] at hsame
    obtain ⟨rfl, rfl⟩ : lhs = x ∧ label = l := by simpa using hsame
    refine ⟨(p.sites.intern label).1, ?_, ?_⟩
    · rw [Facts.getElem?_eq_some_getD hlt .nothing, halloc]
    · have hfind := p.sites.find?_intern label
      rwa [← hsites] at hfind
  · exact absurd hstmt (hno lhs (some label))

/-- Two allocations share their object when their sites have the same label. -/
lemma Problem.object_eq_iff (hcard : g.siteLabels.card ≤ 2 ^ 32) {i j : ℕ} {n m : N}
    {lhs lhs' label label' : String} (hi : g.nodes[i]? = some n) (hj : g.nodes[j]? = some m)
    (hstmt : g.stmt n = .alloc lhs (some label)) (hstmt' : g.stmt m = .alloc lhs' (some label')) :
    ∃ o o', p.effects[i]? = some (.alloc lhs o) ∧ p.effects[j]? = some (.alloc lhs' o') ∧
      (o = o' ↔ label = label') := by
  obtain ⟨o, heffect, ho⟩ := effect_of_alloc hp hi hstmt
  obtain ⟨o', heffect', ho'⟩ := effect_of_alloc hp hj hstmt'
  have hr := represents_of_ofFlow hp
  have hsize : p.sites.size ≤ 2 ^ 32 := hr.size_sites.trans_le hcard
  exact ⟨o, o', heffect, heffect', hr.sites_inStep.eq_iff_of_find? hsize ho ho'⟩

omit hp

/-! ## The numbering -/

/-- Interning any labels numbers them in the order in which they first occur: labels and objects
determine each other, every call hands out the object of its label, and later calls change none of
this.  The table of an accepted procedure is the one that its allocations leave in program order,
and two allocations share their object exactly when their labels are the same. -/
theorem sites_numbered_stably :
    (∀ labels : List String, labels.toFinset.card ≤ 2 ^ 32 →
      (SiteTable.ofLabels labels).Numbers labels ∧
      (SiteTable.empty.internAll labels).1.map some
        = labels.map (SiteTable.ofLabels labels).find? ∧
      ∀ more,
        (∀ label o, (SiteTable.ofLabels labels).find? label = some o →
          (SiteTable.ofLabels (labels ++ more)).find? label = some o) ∧
        (∀ o label, (SiteTable.ofLabels labels).label? o = some label →
          (SiteTable.ofLabels (labels ++ more)).label? o = some label)) ∧
      ∀ (N : Type) [DecidableEq N] (g : Flow N) (p : Problem N), Problem.ofFlow g = .ok p →
        g.siteLabels.card ≤ 2 ^ 32 →
        p.sites = SiteTable.ofLabels g.siteSequence ∧ p.sites.Numbers g.siteSequence ∧
        ∀ (i j : ℕ) (n m : N) (lhs lhs' label label' : String),
          g.nodes[i]? = some n → g.nodes[j]? = some m →
          g.stmt n = .alloc lhs (some label) → g.stmt m = .alloc lhs' (some label') →
          ∃ o o', p.effects[i]? = some (.alloc lhs o) ∧ p.effects[j]? = some (.alloc lhs' o') ∧
            (o = o' ↔ label = label') := by
  constructor
  · intro labels hcard
    refine ⟨SiteTable.numbers_ofLabels hcard, (SiteTable.map_find?_internAll _ labels).symm,
      fun more => ?_⟩
    -- the larger table extends the smaller one in both directions
    have hext := SiteTable.extends_ofLabels labels more
    exact ⟨fun _ _ => hext.find?, fun _ _ => hext.label?⟩
  · intro N _ g p hp hcard
    refine ⟨Problem.sites_eq_ofLabels hp, ?_, ?_⟩
    · rw [Problem.sites_eq_ofLabels hp]
      exact SiteTable.numbers_ofLabels hcard
    · intro i j n m lhs lhs' label label' hi hj hstmt hstmt'
      exact Problem.object_eq_iff hp hcard hi hj hstmt hstmt'

/-- Of three allocations the first and the last have the same label.  They share object 0, and the
one between them has object 1. -/
theorem sites_numbered_twice :
    (∃ o o', (SiteTable.ofLabels ["7", "8", "7"]).find? "7" = some o ∧ o.toNat = 0 ∧
      (SiteTable.ofLabels ["7", "8", "7"]).find? "8" = some o' ∧ o'.toNat = 1) ∧
      ∃ p o o', Problem.ofFlow (Cfg.ofStatements "twice" [.alloc "x" (some "7"),
          .alloc "y" (some "8"), .alloc "z" (some "7")]).toFlow = .ok p ∧
        p.effects[0]? = some (.alloc "x" o) ∧ p.effects[1]? = some (.alloc "y" o') ∧
        p.effects[2]? = some (.alloc "z" o) ∧ o ≠ o' := by
  obtain ⟨hcalls, hproc⟩ := sites_numbered_stably
  obtain ⟨hnumbers, _⟩ := hcalls ["7", "8", "7"] (by decide)
  refine ⟨?_, ?_⟩
  · obtain ⟨o, ho, hzero⟩ := hnumbers.numbered 0 "7" (by decide)
    obtain ⟨o', ho', hone⟩ := hnumbers.numbered 1 "8" (by decide)
    exact ⟨o, o', ho, hzero, ho', hone⟩
  · obtain ⟨p, hp⟩ := Problem.exists_ofFlow (Cfg.analysable_ofStatements "twice"
      [.alloc "x" (some "7"), .alloc "y" (some "8"), .alloc "z" (some "7")] (by simp) (by simp))
    obtain ⟨_, _, hshare⟩ := hproc ℕ _ p hp (by decide +kernel)
    obtain ⟨o, o', hfirst, hsecond, hne⟩ := hshare 0 1 0 1 "x" "y" "7" "8"
      (by decide +kernel) (by decide +kernel) (by decide +kernel) (by decide +kernel)
    obtain ⟨o₁, o'', hfirst', hthird, heq⟩ := hshare 0 2 0 2 "x" "z" "7" "7"
      (by decide +kernel) (by decide +kernel) (by decide +kernel) (by decide +kernel)
    obtain rfl : o = o₁ := by simpa using hfirst.symm.trans hfirst'
    obtain rfl := heq.2 rfl
    exact ⟨p, o, o', hp, hfirst, hsecond, hthird, fun h => absurd (hne.1 h) (by decide)⟩

end Analysis

end MayAlias
