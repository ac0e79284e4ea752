import MayAlias.Proofs.JoinLaws

/-!
# Equal graphs cannot be told apart

The comparison of graphs looks at objects, edges and variables.  It looks neither at the index from
which fields are followed, nor at the form and the order in which sets and maps keep their contents.

`Graph.Alike` relates well-formed graphs that assert the same, which is what the comparison decides.
Every operation takes graphs that are alike to graphs that are alike and every question has the same
answer about both, so the comparison is a congruence (`Graph.Congruent`).  Summaries of facts that
are alike one by one are alike for the same reason.
-/

namespace MayAlias

/-- Lists that are related one by one are related at every place, and end at the same place. -/
lemma rel_getElem? {α β : Type} {R : α → β → Prop} {l : List α} {l' : List β}
    (h : List.Forall₂ R l l') (i : ℕ) : Option.Rel R l[i]? l'[i]? := by
  induction h generalizing i with
  | nil => exact .none
  | cons hR _ ih =>
    cases i with
    | zero => exact .some hR
    | succ i => exact ih i

namespace Graph

/-! ## Graphs that are alike -/

/-- Well-formed graphs that assert the same. -/
structure Alike (g g' : Graph) : Prop where
  left : g.WellFormed
  right : g'.WellFormed
  atoms : g.atoms = g'.atoms

/-- The comparison decides whether graphs are alike. -/
lemma WellFormed.alike_iff {g g' : Graph} (hg : g.WellFormed) (hg' : g'.WellFormed) :
    g.Alike g' ↔ (g == g') = true := by
  rw [hg.beq_iff hg']
  exact ⟨fun h => h.atoms, fun h => ⟨hg, hg', h⟩⟩

namespace Alike

variable {g g' h h' : Graph} (hg : g.Alike g')

include hg

lemma beq : (g == g') = true := (hg.left.alike_iff hg.right).1 hg

/-- Being alike goes both ways, as neither graph is singled out. -/
lemma symm : g'.Alike g := ⟨hg.right, hg.left, hg.atoms.symm⟩

/-- Graphs that are alike to one graph are alike to each other. -/
lemma trans {k : Graph} (hk : g'.Alike k) : g.Alike k :=
  ⟨hg.left, hk.right, hg.atoms.trans hk.atoms⟩

/-- What one graph asserts, the other asserts too. -/
lemma mem_iff (a : Atom) : a ∈ g.atoms ↔ a ∈ g'.atoms := by rw [hg.atoms]

/-! ### Operations -/

/-- The atoms of a union are those of its two parts, so alike parts have alike unions. -/
lemma union (hh : h.Alike h') : (g.union h).1.Alike (g'.union h').1 where
  left := hg.left.union hh.left
  right := hg.right.union hh.right
  atoms := by rw [atoms_union hg.left hh.left, atoms_union hg.right hh.right, hg.atoms, hh.atoms]

/-- Both unions report a change or neither does. -/
lemma union_snd (hh : h.Alike h') : (g.union h).2 = (g'.union h').2 := by
  rw [Bool.eq_iff_iff, (hg.left.grown_union hh.left).flag, (hg.right.grown_union hh.right).flag,
    (hg.union hh).atoms, hg.atoms]

/-- An effect takes its new atoms from old ones, and those are shared. -/
lemma apply (e : Effect) : (e.apply g).Alike (e.apply g') where
  left := Effect.wellFormed_apply hg.left e
  right := Effect.wellFormed_apply hg.right e
  atoms := by rw [Effect.atoms_apply hg.left, Effect.atoms_apply hg.right, hg.atoms]

/-- Assigning equal sets to one variable keeps graphs alike, whatever form the sets have. -/
lemma assign {pts pts' : ObjectSet} (hpts : pts.Valid) (hpts' : pts'.Valid)
    (heq : (pts == pts') = true) (var : String) :
    (g.assign var pts).Alike (g'.assign var pts') where
  left := hg.left.assign hpts
  right := hg.right.assign hpts'
  atoms := by
    have hsame : ∀ o, pts.contains o = true ↔ pts'.contains o = true :=
      (hpts.beq_iff hpts').1 heq
    simp only [atoms_assign, hg.atoms, hsame]

lemma contains_objects (o : ObjectId) : g.objects.contains o = g'.objects.contains o :=
  Bool.eq_iff_iff.2 (hg.mem_iff (.object o))

lemma insertObject (o : ObjectId) : (g.insertObject o).1.Alike (g'.insertObject o).1 where
  left := hg.left.insertObject o
  right := hg.right.insertObject o
  atoms := by
    -- only the new object differs from the atoms there were
    ext a
    cases a with
    | object o' =>
      show (g.objects.insert o).1.contains o' = true ↔ (g'.objects.insert o).1.contains o' = true
      rw [AdaptiveSet.contains_insert, AdaptiveSet.contains_insert, hg.contains_objects]
    | edge e => exact hg.mem_iff (.edge e)
    | tracked var => exact hg.mem_iff (.tracked var)
    | points var o' => exact hg.mem_iff (.points var o')

/-- Both graphs had the object or neither had it. -/
lemma insertObject_snd (o : ObjectId) : (g.insertObject o).2 = (g'.insertObject o).2 := by
  show (g.objects.insert o).2 = (g'.objects.insert o).2
  rw [Bool.eq_iff_iff, AdaptiveSet.insert_snd_iff, AdaptiveSet.insert_snd_iff, hg.contains_objects]

/-- An edge is new to both graphs or to neither, and the index is brought up to date in both. -/
lemma insertEdge (e : Edge) : (g.insertEdge e).1.Alike (g'.insertEdge e).1 where
  left := hg.left.insertEdge e
  right := hg.right.insertEdge e
  atoms := by rw [hg.left.atoms_insertEdge, hg.right.atoms_insertEdge, hg.atoms]

/-- The edge is reported as new for both graphs or for neither. -/
lemma insertEdge_snd (e : Edge) : (g.insertEdge e).2 = (g'.insertEdge e).2 := by
  rw [Bool.eq_iff_iff, (hg.left.grown_insertEdge e).flag, (hg.right.grown_insertEdge e).flag,
    (hg.insertEdge e).atoms, hg.atoms]

/-! ### Questions -/

/-- A variable has equal pointees in both graphs, none if it is not tracked. -/
lemma pointees (var : String) : (g.pointees var == g'.pointees var) = true :=
  ((hg.left.valid_pointees var).beq_iff (hg.right.valid_pointees var)).2
    fun o => hg.mem_iff (.points var o)

/-- A variable is tracked in both graphs or in neither, and then its pointees are equal. -/
lemma pointees? (var : String) : (g.pointees? var == g'.pointees? var) = true := by
  have htracked := hg.mem_iff (.tracked var)
  rw [tracked_mem_atoms, tracked_mem_atoms, FinMap.mem_keys_iff, FinMap.mem_keys_iff] at htracked
  have hpts := hg.pointees var
  rw [Graph.pointees, Graph.pointees, Graph.pointees?, Graph.pointees?] at hpts
  rw [Graph.pointees?, Graph.pointees?]
  -- tracked in one graph only would contradict `htracked`
  cases hget : g.vars.get? var with
  | none =>
    cases hget' : g'.vars.get? var with
    | none => rfl
    | some pts' => simp [hget, hget'] at htracked
  | some pts =>
    cases hget' : g'.vars.get? var with
    | none => simp [hget, hget'] at htracked
    | some pts' => simpa [hget, hget'] using hpts

/-- The index is not compared, but it agrees with the edges, which are. -/
lemma hasEdge (e : Edge) : g.hasEdge e = g'.hasEdge e := by
  rw [Bool.eq_iff_iff, hg.left.hasEdge_iff, hg.right.hasEdge_iff]
  exact hg.mem_iff (.edge e)

/-- Following a field reads the index, and both indices hold the edges. -/
lemma follow (src : ObjectId) (field : String) :
    (g.follow src field == g'.follow src field) = true := by
  rw [(hg.left.valid_follow src field).beq_iff (hg.right.valid_follow src field)]
  intro o
  rw [hg.left.contains_follow, hg.right.contains_follow]
  exact hg.mem_iff (.edge ⟨src, field, o⟩)

/-- Following a field from equal sets of objects leads to equal sets. -/
lemma followAll {srcs srcs' : ObjectSet} (hsrcs : srcs.Valid) (hsrcs' : srcs'.Valid)
    (heq : (srcs == srcs') = true) (field : String) :
    (g.followAll srcs field == g'.followAll srcs' field) = true := by
  rw [(hg.left.valid_followAll srcs field).beq_iff (hg.right.valid_followAll srcs' field)]
  intro o
  rw [hg.left.contains_followAll hsrcs, hg.right.contains_followAll hsrcs']
  exact exists_congr fun src =>
    and_congr ((hsrcs.beq_iff hsrcs').1 heq src) (hg.mem_iff (.edge ⟨src, field, o⟩))

/-- Variables that share a pointee do so in both graphs. -/
lemma mayAlias (a b : String) : g.mayAlias a b = g'.mayAlias a b := by
  rw [Bool.eq_iff_iff, hg.left.mayAlias_iff, hg.right.mayAlias_iff, hg.atoms]

/-- The two-level question has one answer, too. -/
lemma mayAliasVia (a field b : String) : g.mayAliasVia a field b = g'.mayAliasVia a field b := by
  rw [Bool.eq_iff_iff, hg.left.mayAliasVia_iff, hg.right.mayAliasVia_iff, hg.atoms]

/-- What a variable's field points to is the same. -/
lemma fieldPointees (a field : String) :
    (g.fieldPointees a field == g'.fieldPointees a field) = true := by
  rw [(hg.left.valid_fieldPointees a field).beq_iff (hg.right.valid_fieldPointees a field)]
  intro o
  rw [hg.left.contains_fieldPointees, hg.right.contains_fieldPointees, hg.atoms]

end Alike

lemma alike_empty : empty.Alike empty := ⟨wellFormed_empty, wellFormed_empty, rfl⟩

/-- Lists of well-formed graphs that compare equal one by one are alike one by one. -/
lemma forall₂_alike {gs gs' : List Graph} (hgs : ∀ G ∈ gs, G.WellFormed)
    (hgs' : ∀ G ∈ gs', G.WellFormed)
    (heq : List.Forall₂ (fun G G' : Graph => (G == G') = true) gs gs') :
    List.Forall₂ Alike gs gs' := by
  induction heq with
  | nil => exact .nil
  | cons hG _ ih =>
    rw [List.forall_mem_cons] at hgs hgs'
    exact .cons ((hgs.1.alike_iff hgs'.1).2 hG) (ih hgs.2 hgs'.2)

/-- Alike results compare equal, and so do two results that are absent. -/
lemma beq_of_rel {o o' : Option Graph} (h : Option.Rel Alike o o') : (o == o') = true := by
  cases h with
  | none => rfl
  | some h => exact h.beq

end Graph

/-! ## Summaries -/

namespace SummaryRule

/-- Joins of graphs that are alike one by one are alike. -/
lemma alike_join {gs gs' : List Graph} (hgs : List.Forall₂ Graph.Alike gs gs') :
    (join gs).Alike (join gs') := by
  have hfold : ∀ acc acc' : Graph, acc.Alike acc' →
      (gs.foldl (fun acc g => (acc.union g).1) acc).Alike
        (gs'.foldl (fun acc g => (acc.union g).1) acc') := by
    induction hgs with
    | nil => exact fun _ _ hacc => hacc
    | cons hg _ ih => exact fun _ _ hacc => ih _ _ (hacc.union hg)
  exact hfold _ _ Graph.alike_empty

/-- Picking the facts at some places succeeds for both lists of facts or for neither. -/
lemma rel_mapM_getElem? {facts facts' : Array Graph}
    (hfacts : List.Forall₂ Graph.Alike facts.toList facts'.toList) (exits : List ℕ) :
    Option.Rel (List.Forall₂ Graph.Alike) (exits.mapM fun i => facts[i]?)
      (exits.mapM fun i => facts'[i]?) := by
  induction exits with
  | nil => exact .some .nil
  | cons i exits ih =>
    have hhead := rel_getElem? hfacts i
    rw [Array.getElem?_toList, Array.getElem?_toList] at hhead
    rw [List.mapM_cons, List.mapM_cons]
    -- only the relations of head and tail matter from here on
    generalize facts[i]? = head, facts'[i]? = head' at hhead ⊢
    generalize (exits.mapM fun i => facts[i]?) = tail, (exits.mapM fun i => facts'[i]?) = tail'
      at ih ⊢
    cases hhead with
    | none => exact .none
    | some hhead =>
      cases ih with
      | none => exact .none
      | some htail => exact .some (.cons hhead htail)

/-- Every summary rule gives alike graphs for facts that are alike one by one. -/
lemma rel_summarize? {facts facts' : Array Graph}
    (hfacts : List.Forall₂ Graph.Alike facts.toList facts'.toList) (rule : SummaryRule)
    (exits : List ℕ) (last : ℕ) :
    Option.Rel Graph.Alike (rule.summarize? facts exits last)
      (rule.summarize? facts' exits last) := by
  cases rule with
  | lastVisited =>
    have hlast := rel_getElem? hfacts last
    rw [Array.getElem?_toList, Array.getElem?_toList] at hlast
    rw [summarize?, summarize?, Array.getD_eq_getD_getElem?, Array.getD_eq_getD_getElem?]
    generalize facts[last]? = fact, facts'[last]? = fact' at hlast ⊢
    cases hlast with
    | none => exact .some Graph.alike_empty
    | some hlast => exact .some hlast
  | joinExits =>
    rw [summarize?, summarize?]
    split
    -- without exits, all facts are joined
    · exact .some (alike_join hfacts)
    · have hexits := rel_mapM_getElem? hfacts exits
      generalize (exits.mapM fun i => facts[i]?) = gs, (exits.mapM fun i => facts'[i]?) = gs'
        at hexits ⊢
      cases hexits with
      | none => exact .none
      | some hgs => exact .some (alike_join hgs)

end SummaryRule

/-! ## The congruence -/

namespace Graph

/-- Graphs `g` and `g'`, joined with `h` and `h'`, are not told apart by any operation or
question. -/
structure Congruent (g g' h h' : Graph) : Prop where
  symm : (g' == g) = true
  trans : ∀ k, k.BuiltInAnyOrder → (g' == k) = true → (g == k) = true
  union : ((g.union h).1 == (g'.union h').1) = true ∧ (g.union h).2 = (g'.union h').2
  clear : (g.clear == g'.clear) = true
  copy : (h.copy g == h'.copy g') = true
  apply : ∀ e : Effect, (e.apply g == e.apply g') = true
  assign : ∀ var (pts pts' : ObjectSet), pts.Valid → pts'.Valid → (pts == pts') = true →
    (g.assign var pts == g'.assign var pts') = true
  insertObject : ∀ o, ((g.insertObject o).1 == (g'.insertObject o).1) = true ∧
    (g.insertObject o).2 = (g'.insertObject o).2
  insertEdge : ∀ e, ((g.insertEdge e).1 == (g'.insertEdge e).1) = true ∧
    (g.insertEdge e).2 = (g'.insertEdge e).2
  pointees? : ∀ var, (g.pointees? var == g'.pointees? var) = true
  hasEdge : ∀ e, g.hasEdge e = g'.hasEdge e
  follow : ∀ src field, (g.follow src field == g'.follow src field) = true
  followAll : ∀ (srcs srcs' : ObjectSet) field, srcs.Valid → srcs'.Valid →
    (srcs == srcs') = true → (g.followAll srcs field == g'.followAll srcs' field) = true
  mayAlias : ∀ a b, g.mayAlias a b = g'.mayAlias a b
  mayAliasVia : ∀ a field b, g.mayAliasVia a field b = g'.mayAliasVia a field b
  pointees : ∀ var, (g.pointees var == g'.pointees var) = true
  fieldPointees : ∀ var field, (g.fieldPointees var field == g'.fieldPointees var field) = true

/-- Alike graphs agree on everything the library offers, case by case. -/
lemma Alike.congruent {g g' h h' : Graph} (hg : g.Alike g') (hh : h.Alike h') :
    Congruent g g' h h' where
  symm := hg.symm.beq
  trans _ hk heq := (hg.trans ((hg.right.alike_iff hk.wellFormed).2 heq)).beq
  union := ⟨(hg.union hh).beq, hg.union_snd hh⟩
  clear := by
    rw [clear_eq_empty, clear_eq_empty]
    exact alike_empty.beq
  copy := by
    rw [copy_eq, copy_eq]
    exact hg.beq
  apply e := (hg.apply e).beq
  assign var _ _ hpts hpts' heq := (hg.assign hpts hpts' heq var).beq
  insertObject o := ⟨(hg.insertObject o).beq, hg.insertObject_snd o⟩
  insertEdge e := ⟨(hg.insertEdge e).beq, hg.insertEdge_snd e⟩
  pointees? := hg.pointees?
  hasEdge := hg.hasEdge
  follow := hg.follow
  followAll _ _ field hsrcs hsrcs' heq := hg.followAll hsrcs hsrcs' heq field
  mayAlias := hg.mayAlias
  mayAliasVia := hg.mayAliasVia
  pointees := hg.pointees
  fieldPointees := hg.fieldPointees

/-- Graphs that compare equal, in whatever order they were made, are not told apart by any operation
or question, and neither are facts that compare equal one by one by their summaries. -/
theorem equal_graphs_congruent :
    (∀ g g' h h' : Graph, g.BuiltInAnyOrder → g'.BuiltInAnyOrder → h.BuiltInAnyOrder →
      h'.BuiltInAnyOrder → (g == g') = true → (h == h') = true → Congruent g g' h h') ∧
    ∀ facts facts' : Array Graph, (∀ G ∈ facts, G.BuiltInAnyOrder) →
      (∀ G ∈ facts', G.BuiltInAnyOrder) →
      List.Forall₂ (fun G G' => (G == G') = true) facts.toList facts'.toList →
      ∀ (rule : SummaryRule) exits last,
        (rule.summarize? facts exits last == rule.summarize? facts' exits last) = true := by
  constructor
  · intro g g' h h' hg hg' hh hh' heq heq'
    have hgAlike := (hg.wellFormed.alike_iff hg'.wellFormed).2 heq
    have hhAlike := (hh.wellFormed.alike_iff hh'.wellFormed).2 heq'
    exact hgAlike.congruent hhAlike
  · intro facts facts' hfacts hfacts' heq rule exits last
    have halike := forall₂_alike (fun G hG => (hfacts G (Array.mem_def.2 hG)).wellFormed)
      (fun G hG => (hfacts' G (Array.mem_def.2 hG)).wellFormed) heq
    exact beq_of_rel (SummaryRule.rel_summarize? halike rule exits last)

/-- The contents of `linkedPair` made from the other end, with a bit set for one variable. -/
def linkedPairReversed : Graph :=
  ((empty.assign "y" (.large (AdaptiveSet.toBits [⟨1⟩]))).insertEdge ⟨⟨0⟩, "f", ⟨1⟩⟩).1.assign "x"
    (.ofList [⟨0⟩])

/-- The reversed pair is made by operations, one of which takes a bit set. -/
lemma builtInAnyOrder_linkedPairReversed : linkedPairReversed.BuiltInAnyOrder := by
  have hbits : (AdaptiveSet.large (AdaptiveSet.toBits [⟨1⟩]) : ObjectSet).Valid :=
    AdaptiveSet.valid_toBits _
  exact ((BuiltInAnyOrder.empty.assign hbits "y").insertEdge _).assign
    (AdaptiveSet.valid_ofList _) "x"

/-- The two linked pairs keep their objects in different forms and their variables in different
orders, and are not told apart. -/
theorem equal_graphs_congruent_linkedPair :
    linkedPair.objects.isLarge = false ∧ linkedPairReversed.objects.isLarge = true ∧
      linkedPair.vars.keys ≠ linkedPairReversed.vars.keys ∧
      linkedPair.BuiltInAnyOrder ∧ linkedPairReversed.BuiltInAnyOrder ∧
      Congruent linkedPair linkedPairReversed linkedPairReversed linkedPair ∧
      (SummaryRule.joinExits.summarize? #[linkedPair, empty] [0] 1 ==
        SummaryRule.joinExits.summarize? #[linkedPairReversed, empty] [0] 1) = true := by
  have hpair := builtInAnyOrder_linkedPair
  have hreversed := builtInAnyOrder_linkedPairReversed
  have heq : (linkedPair == linkedPairReversed) = true := by decide +kernel
  have heq' : (linkedPairReversed == linkedPair) = true := by decide +kernel
  refine ⟨by decide +kernel, by decide +kernel, by decide +kernel, hpair, hreversed,
    equal_graphs_congruent.1 _ _ _ _ hpair hreversed hreversed hpair heq heq', ?_⟩
  refine equal_graphs_congruent.2 _ _ ?_ ?_ ?_ _ _ _
  · simp [hpair, BuiltInAnyOrder.empty]
  · simp [hreversed, BuiltInAnyOrder.empty]
  · exact .cons heq (.cons (by decide) .nil)

end Graph

end MayAlias
