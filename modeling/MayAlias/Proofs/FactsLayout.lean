import Mathlib.Algebra.Order.BigOperators.Group.List
import MayAlias.Cfg
import MayAlias.Proofs.Build
import MayAlias.Proofs.Lines
import MayAlias.Proofs.PassBound
import MayAlias.Proofs.Reports

/-!
# The layout of the facts listing

The facts listing is made of rows: the header of a node, below it the lines of the listing of its
fact, indented, and one row for every field edge.  A row takes one line unless a name in it has a
line feed, so the listing is laid out as one header for every node with one indented line for every
tracked variable and every edge just when no name that it shows has a line feed (`LaidOut`).
-/

namespace MayAlias

namespace Report

/-! ## Rows -/

/-- The row of a listed variable. -/
def listedRow (sites : SiteTable) (entry : String × List ObjectId) : List Char :=
  entry.1.toList ++ " (".toList ++ (toString entry.2.length).toList ++ ") ==> \x7b ".toList
    ++ (entry.2.flatMap fun o => (sites.render o).toList ++ [' ']) ++ ['\x7d']

/-- The row of a field edge. -/
def edgeRow (sites : SiteTable) (e : Edge) : List Char := '\t' :: (e.render sites).toList

/-- The rows of the tracked variables and the field edges. -/
def shownRows (sites : SiteTable) (g : Graph) : List (List Char) :=
  g.listing.map (listedRow sites) ++ g.sortedEdges.map (edgeRow sites)

/-- The rows below the header of a node. -/
def factRows (sites : SiteTable) (g : Graph) : List (List Char) :=
  (Text.lines (pointsTo sites g).toList).map (fun line => '\t' :: line)
    ++ g.sortedEdges.map (edgeRow sites)

/-- The points-to listing has a row for each tracked variable. -/
lemma toList_pointsTo (sites : SiteTable) (g : Graph) :
    (pointsTo sites g).toList = Text.endRows (g.listing.map (listedRow sites)) := by
  rw [pointsTo_eq, String.toList_join, List.flatMap_map, Text.endRows, List.flatMap_map]
  refine List.flatMap_congr fun entry _ => ?_
  simp [listedLine, listedRow, List.flatMap_map]

/-- The entry of a node is its header and the rows of its fact. -/
lemma toList_factEntry {N : Type} (node : N → String) (sites : SiteTable) (n : N) (g : Graph) :
    (factEntry node sites n g).toList =
      Text.endRows ((node n ++ ":").toList :: factRows sites g) := by
  simp [factEntry, indent, edgeLines, factRows, edgeRow, Text.endRows, List.flatMap_map]

/-! ## How many lines the rows take -/

/-- There is one row for every tracked variable and one for every edge. -/
lemma length_shownRows (sites : SiteTable) (g : Graph) :
    (shownRows sites g).length = g.vars.size + g.edges.length := by
  rw [shownRows, List.length_append, List.length_map, List.length_map, ← size_vars,
    Graph.length_sortedEdges]

/-- The lines of the listing are indented one by one, so the variables take as many lines as their
rows do. -/
lemma span_factRows (sites : SiteTable) (g : Graph) :
    Text.span (factRows sites g) = Text.span (shownRows sites g) := by
  have hlines : Text.span ((Text.lines (pointsTo sites g).toList).map fun line => '\t' :: line) =
      Text.span (g.listing.map (listedRow sites)) := by
    rw [← Text.length_lines_endRows (g.listing.map _), ← toList_pointsTo, ← List.length_map,
      Text.span_eq_length_iff]
    intro row hrow
    obtain ⟨line, hline, rfl⟩ := List.mem_map.1 hrow
    simp [Text.lf_notMem_of_mem_lines hline]
  rw [factRows, shownRows, Text.span_append, Text.span_append, hlines]

/-! ## Names without line feeds -/

/-- No name that the listing of a fact shows has a line feed. -/
structure ShownOnLines (sites : SiteTable) (g : Graph) : Prop where
  vars : ∀ var, (g.pointees? var).isSome = true → '\n' ∉ var.toList
  pointees : ∀ var o, (g.pointees var).contains o = true → '\n' ∉ (sites.render o).toList
  edges : ∀ e ∈ g.edges, '\n' ∉ (sites.render e.src).toList ∧ '\n' ∉ e.field.toList ∧
    '\n' ∉ (sites.render e.dst).toList

/-- A number is written without line feeds. -/
lemma lf_notMem_toDigits (n : ℕ) : '\n' ∉ Nat.toDigits 10 n := by
  intro h
  have hdigit := Nat.isDigit_of_mem_toDigits (by decide) (by decide) h
  revert hdigit
  decide

/-- The row of a variable shows its name and the sites of its pointees. -/
lemma lf_notMem_listedRow (sites : SiteTable) (entry : String × List ObjectId) :
    '\n' ∉ listedRow sites entry ↔
      '\n' ∉ entry.1.toList ∧ ∀ o ∈ entry.2, '\n' ∉ (sites.render o).toList := by
  simp [listedRow, lf_notMem_toDigits]

/-- The row of an edge shows the sites of its ends and its field. -/
lemma lf_notMem_edgeRow (sites : SiteTable) (e : Edge) :
    '\n' ∉ edgeRow sites e ↔ '\n' ∉ (sites.render e.src).toList ∧ '\n' ∉ e.field.toList ∧
      '\n' ∉ (sites.render e.dst).toList := by
  simp [edgeRow, Edge.render]

/-- The rows are lines when no name that they show has a line feed. -/
lemma lf_notMem_shownRows (sites : SiteTable) {g : Graph} (hg : g.WellFormed) :
    (∀ row ∈ shownRows sites g, '\n' ∉ row) ↔ ShownOnLines sites g := by
  simp only [shownRows, List.forall_mem_append, List.forall_mem_map, lf_notMem_listedRow,
    lf_notMem_edgeRow, Graph.mem_sortedEdges]
  constructor
  · rintro ⟨hlisted, hedges⟩
    -- every tracked variable has a row, and every pointee is shown in one
    have hentry : ∀ {var pts}, g.pointees? var = some pts →
        (var, Graph.sortedObjects pts) ∈ g.listing := fun h => Graph.mem_listing.2 ⟨_, h, rfl⟩
    refine ⟨fun var hvar => ?_, fun var o ho => ?_, hedges⟩
    · obtain ⟨pts, hpts⟩ := Option.isSome_iff_exists.1 hvar
      exact (hlisted _ (hentry hpts)).1
    · obtain ⟨pts, hpts, _⟩ := Graph.exists_get?_of_points ho
      exact (hlisted _ (hentry hpts)).2 o ((Graph.mem_listed hg (hentry hpts) o).2 ho)
  · intro hshown
    refine ⟨fun entry hentry => ⟨?_, fun o ho => ?_⟩, hshown.edges⟩
    · obtain ⟨pts, hpts, _⟩ := Graph.mem_listing.1 hentry
      exact hshown.vars _ (Option.isSome_iff_exists.2 ⟨pts, hpts⟩)
    · exact hshown.pointees _ o ((Graph.mem_listed hg hentry o).1 ho)

/-- A fact whose rows take no more lines than it has variables and edges shows no line feed. -/
lemma span_factRows_eq_iff (sites : SiteTable) {g : Graph} (hg : g.WellFormed) :
    Text.span (factRows sites g) = g.vars.size + g.edges.length ↔ ShownOnLines sites g := by
  rw [span_factRows, ← length_shownRows sites, Text.span_eq_length_iff,
    lf_notMem_shownRows sites hg]

/-- A name with a line feed can only add lines. -/
lemma le_span_factRows (sites : SiteTable) (g : Graph) :
    g.vars.size + g.edges.length ≤ Text.span (factRows sites g) := by
  rw [span_factRows, ← length_shownRows sites]
  exact Text.length_le_span _

/-! ## The layout -/

/-- The header of a node. -/
def header (n : ℕ) : List Char := (Cfg.inspectNode n ++ ":").toList

/-- The nodes with the facts after them. -/
def nodeFacts (r : Analysis.Result ℕ) : List (ℕ × Graph) := r.order.zip r.after.toList

/-- The lines of the facts listing that are not indented are the headers of the nodes in program
order, and below each stands one indented line for every tracked variable and every edge of the
fact after the node. -/
def LaidOut (r : Analysis.Result ℕ) : Prop :=
  Text.outline (Text.lines (facts Cfg.inspectNode r).toList) =
    (0, (nodeFacts r).map fun x => (header x.1, x.2.vars.size + x.2.edges.length))

instance (r : Analysis.Result ℕ) : Decidable (LaidOut r) := inferInstanceAs (Decidable (_ = _))

/-- The rows of a node: its header and those of its fact. -/
def nodeRows (sites : SiteTable) (x : ℕ × Graph) : List (List Char) :=
  header x.1 :: factRows sites x.2

/-- When no node is listed twice, the fact that is looked up for a node stands at its place. -/
lemma factAfter?_of_mem {r : Analysis.Result ℕ} (hnodup : r.order.Nodup) {x : ℕ × Graph}
    (hx : x ∈ nodeFacts r) : r.factAfter? x.1 = some x.2 := by
  obtain ⟨i, hi⟩ := List.mem_iff_getElem?.1 hx
  obtain ⟨hnode, hfact⟩ := List.getElem?_zip_eq_some.1 hi
  rw [Analysis.Result.factAfter?, Analysis.position?_of_nodup hnodup hnode, Option.bind_some,
    ← Array.getElem?_toList, hfact]

/-- The listing has the rows of one node after the other. -/
lemma toList_facts {r : Analysis.Result ℕ} (hnodup : r.order.Nodup)
    (hsize : r.after.size = r.order.length) :
    (facts Cfg.inspectNode r).toList =
      Text.endRows ((nodeFacts r).flatMap (nodeRows r.sites)) := by
  have hfst : (nodeFacts r).map Prod.fst = r.order :=
    List.map_fst_zip (by rw [Array.length_toList, hsize])
  -- a node that is listed once is looked up at its own place
  have hentries : r.order.filterMap
      (fun n => (r.factAfter? n).map (factEntry Cfg.inspectNode r.sites n)) =
        (nodeFacts r).map fun x => factEntry Cfg.inspectNode r.sites x.1 x.2 := by
    rw [← hfst, List.filterMap_map, ← List.filterMap_eq_map]
    apply List.filterMap_congr
    intro x hx
    rw [Function.comp_apply, factAfter?_of_mem hnodup hx]
    rfl
  rw [facts, hentries, String.toList_join, List.flatMap_map, Text.endRows_flatMap]
  exact List.flatMap_congr fun x _ => toList_factEntry _ _ _ _

/-- The header of a node is a line. -/
lemma lf_notMem_header (n : ℕ) : '\n' ∉ header n := by
  simp [header, Cfg.inspectNode, lf_notMem_toDigits]

lemma head?_header (n : ℕ) : (header n).head? = some 'N' := by
  simp [header, Cfg.inspectNode]

lemma dropReturn_header (n : ℕ) : Text.dropReturn (header n) = header n := by
  rw [header, String.toList_append]
  exact Text.dropReturn_concat _ (by decide)

lemma span_nodeRows (sites : SiteTable) (x : ℕ × Graph) :
    Text.span (nodeRows sites x) = Text.span (factRows sites x.2) + 1 := by
  rw [nodeRows, Text.span, List.map_cons, List.sum_cons,
    List.count_eq_zero_of_not_mem (lf_notMem_header _), Nat.add_comm]
  rfl

section Rows
variable {sites : SiteTable} {g : Graph} (hshown : ShownOnLines sites g)
include hshown

lemma lf_notMem_factRows : ∀ row ∈ factRows sites g, '\n' ∉ row := by
  rw [factRows, List.forall_mem_append, List.forall_mem_map, List.forall_mem_map]
  constructor
  · intro line hline
    simp [Text.lf_notMem_of_mem_lines hline]
  · intro e he
    exact (lf_notMem_edgeRow sites e).2 (hshown.edges e ((Graph.mem_sortedEdges g e).1 he))

lemma length_factRows (hg : g.WellFormed) :
    (factRows sites g).length = g.vars.size + g.edges.length := by
  rw [← (span_factRows_eq_iff sites hg).2 hshown]
  exact ((Text.span_eq_length_iff _).2 (lf_notMem_factRows hshown)).symm

end Rows

/-- All rows below a header are indented, and no carriage return changes that. -/
lemma indented_factRows (sites : SiteTable) (g : Graph) :
    ∀ line ∈ (factRows sites g).map Text.dropReturn, line.head? = some '\t' := by
  have htab : ∀ row ∈ factRows sites g, ∃ rest, row = '\t' :: rest := by
    rw [factRows, List.forall_mem_append, List.forall_mem_map, List.forall_mem_map]
    exact ⟨fun line _ => ⟨line, rfl⟩, fun e _ => ⟨_, rfl⟩⟩
  intro line hline
  obtain ⟨row, hrow, rfl⟩ := List.mem_map.1 hline
  obtain ⟨rest, rfl⟩ := htab row hrow
  exact Text.head?_dropReturn_cons rest (by decide)

/-- Every node adds its header, and below it as many indented lines as its fact has variables and
edges. -/
lemma outline_nodeRows (sites : SiteTable) {nodes : List (ℕ × Graph)}
    (hwf : ∀ x ∈ nodes, x.2.WellFormed) (hshown : ∀ x ∈ nodes, ShownOnLines sites x.2) :
    Text.outline ((nodes.flatMap (nodeRows sites)).map Text.dropReturn) =
      (0, nodes.map fun x => (header x.1, x.2.vars.size + x.2.edges.length)) := by
  induction nodes with
  | nil => rfl
  | cons x nodes ih =>
    rw [List.forall_mem_cons] at hwf hshown
    rw [List.flatMap_cons, List.map_append, nodeRows, List.map_cons, List.cons_append,
      Text.outline, dropReturn_header, head?_header, if_neg (by decide),
      Text.outline_append (indented_factRows sites x.2), ih hwf.2 hshown.2, List.length_map,
      length_factRows hshown.1 hwf.1]
    rfl

/-- The facts of the nodes are all facts. -/
lemma forall_nodeFacts {r : Analysis.Result ℕ} (hsize : r.after.size = r.order.length)
    (P : Graph → Prop) : (∀ x ∈ nodeFacts r, P x.2) ↔ ∀ G ∈ r.after, P G := by
  have hsnd : (nodeFacts r).map Prod.snd = r.after.toList :=
    List.map_snd_zip (by rw [Array.length_toList, hsize])
  simp only [← Array.mem_toList_iff, ← hsnd, List.forall_mem_map]

/-- The listing is laid out just when it shows no name with a line feed. -/
lemma laidOut_iff {r : Analysis.Result ℕ} (hnodup : r.order.Nodup)
    (hsize : r.after.size = r.order.length) (hwf : ∀ x ∈ nodeFacts r, x.2.WellFormed) :
    LaidOut r ↔ ∀ x ∈ nodeFacts r, ShownOnLines r.sites x.2 := by
  rw [LaidOut, toList_facts hnodup hsize]
  constructor
  · intro hlayout
    -- both sides tell how many lines there are, and no row takes less than a line
    have hlength := Text.length_eq_outline
      (Text.lines (Text.endRows ((nodeFacts r).flatMap (nodeRows r.sites))))
    rw [hlayout, Text.length_lines_endRows, Text.span_flatMap, Nat.zero_add, List.map_map]
      at hlength
    by_contra! hnot
    obtain ⟨x, hx, hnot⟩ := hnot
    refine absurd hlength (ne_of_gt (List.sum_lt_sum _ _ (fun y _ => ?_) ⟨x, hx, ?_⟩))
    · rw [span_nodeRows]
      exact Nat.succ_le_succ (le_span_factRows r.sites y.2)
    · rw [span_nodeRows]
      refine Nat.succ_lt_succ (lt_of_le_of_ne (le_span_factRows r.sites x.2) fun heq => ?_)
      exact hnot ((span_factRows_eq_iff r.sites (hwf x hx)).1 heq.symm)
  · intro hshown
    rw [Text.lines_endRows, outline_nodeRows r.sites hwf hshown]
    intro row hrow
    obtain ⟨x, hx, hrow⟩ := List.mem_flatMap.1 hrow
    rcases List.mem_cons.1 hrow with rfl | hrow
    · exact lf_notMem_header x.1
    · exact lf_notMem_factRows (hshown x hx) row hrow

end Report

/-! ## Procedures -/

/-- The names that facts about a statement can show: the variable it assigns, the field to which it
stores and the label of its site. -/
def Statement.shownNames (s : Statement) : List String :=
  s.definedVar?.toList ++ s.storedField?.toList ++ s.site?.toList

namespace Report

/-- Objects are shown by their labels, or by number if they have none. -/
lemma lf_notMem_render {sites : SiteTable} (hlabels : ∀ label ∈ sites.labels, '\n' ∉ label.toList)
    (o : ObjectId) : '\n' ∉ (sites.render o).toList := by
  rw [SiteTable.render]
  cases hlabel : sites.label? o with
  | none => simp [ObjectId.inspect, lf_notMem_toDigits]
  | some label => simp [hlabels label (List.mem_of_getElem? hlabel)]

section
variable {N : Type} [DecidableEq N] {flow : Flow N} {p : Analysis.Problem N}

/-- Facts that assert nothing but what the procedure mentions show its names only. -/
lemma shownOnLines_of_subset (hr : p.Represents flow)
    (hnames : ∀ n ∈ flow.nodes, ∀ name ∈ (flow.stmt n).shownNames, '\n' ∉ name.toList) {G : Graph}
    (hG : G.atoms ⊆ flow.assertions p.sites) : ShownOnLines p.sites G := by
  have hrender : ∀ o, '\n' ∉ (p.sites.render o).toList := by
    apply lf_notMem_render
    intro label hlabel
    obtain ⟨n, hn, lhs, hstmt⟩ := (hr.mem_labels label).1 hlabel
    exact hnames n hn label (by simp [Statement.shownNames, hstmt, Statement.site?])
  refine ⟨fun var hvar => ?_, fun _ o _ => hrender o, fun e he => ⟨hrender _, ?_, hrender _⟩⟩
  -- a variable is tracked because a statement assigns it
  · obtain ⟨pts, hpts⟩ := Option.isSome_iff_exists.1 hvar
    have htracked : Atom.tracked var ∈ G.atoms := (FinMap.mem_keys_iff _ _).2 ⟨pts, hpts⟩
    obtain ⟨n, hn, hdefined⟩ := List.mem_filterMap.1
      (List.mem_toFinset.1 (Atom.tracked_mem_about.1 (hG htracked)))
    exact hnames n hn var (by simp [Statement.shownNames, hdefined])
  · have hedge : Atom.edge e ∈ G.atoms := he
    obtain ⟨n, hn, hstored⟩ := List.mem_filterMap.1
      (List.mem_toFinset.1 (Atom.edge_mem_about.1 (hG hedge)).2.1)
    exact hnames n hn e.field (by simp [Statement.shownNames, hstored])

/-- Solved facts are well formed and assert nothing but what the procedure mentions. -/
lemma fact_of_solve (hr : p.Represents flow) {k : ℕ} {limit : Option ℕ} {f : Analysis.Facts}
    (hs : (Analysis.Facts.afterPasses p k).solve p limit = (f, .ok ())) {G : Graph}
    (hG : G ∈ f.after) : G.WellFormed ∧ G.atoms ⊆ flow.assertions p.sites := by
  have hwithin := Analysis.Facts.within_of_solve hr.closed_assertions hs
  obtain ⟨i, hi⟩ := Array.mem_iff_getElem?.1 hG
  have hget : f.after.getD i .empty = G := by
    rw [Array.getD_eq_getD_getElem?, hi, Option.getD_some]
  rw [← hget]
  exact ⟨hwithin.valid.after_wf i, hwithin.after i⟩

end

/-- The facts listing of a procedure is laid out just when no name that it shows has a line feed;
it is when no name that a statement assigns, stores to or gives to a site has one. -/
theorem facts_laidOut_iff {proc : Procedure} {g : Cfg} (hbuild : Cfg.build proc = .ok g)
    {rule : SummaryRule} {limit : Option ℕ} {r : Analysis.Result ℕ}
    (hrun : Analysis.run g.toFlow rule limit = .ok r) :
    r.order = List.range proc.statements.length ∧ r.after.size = proc.statements.length ∧
      (LaidOut r ↔ ∀ G ∈ r.after, ShownOnLines r.sites G) ∧
      ((∀ s ∈ proc.statements, ∀ name ∈ s.shownNames, '\n' ∉ name.toList) → LaidOut r) := by
  have hrealises := Cfg.realises_of_build hbuild
  obtain ⟨p, f, hp, hs, rfl⟩ := Analysis.run_eq_ok hrun
  have hr := Analysis.Problem.represents_of_ofFlow hp
  have hvalid := Analysis.Facts.valid_of_solve hs
  have horder : p.order = List.range proc.statements.length := hr.order.trans hrealises.nodes
  have hnodup : p.order.Nodup := horder ▸ List.nodup_range
  have hsize : f.after.size = proc.statements.length := by
    rw [hvalid.after_size, horder, List.length_range]
  have hiff : LaidOut (Analysis.Result.ofFacts p rule f) ↔
      ∀ G ∈ f.after, ShownOnLines p.sites G := by
    have hall := forall_nodeFacts (r := Analysis.Result.ofFacts p rule f) hvalid.after_size
    have hwf := (hall _).2 fun G hG => (fact_of_solve hr hs hG).1
    rw [laidOut_iff hnodup hvalid.after_size hwf, hall]
    rfl
  refine ⟨horder, hsize, hiff, fun hnames => hiff.2 fun G hG => ?_⟩
  apply shownOnLines_of_subset hr _ (fact_of_solve hr hs hG).2
  intro n hn
  rw [hrealises.nodes, List.mem_range] at hn
  rw [hrealises.stmt n hn]
  exact hnames _ (List.getElem_mem hn)

/-! ## Two procedures -/

/-- What is read off the result of analysing a procedure, if there is one. -/
def analysed {α : Type} (read : Analysis.Result ℕ → α) (proc : Procedure) : Option α :=
  (Cfg.build proc).toOption.bind fun g =>
    (Analysis.run g.toFlow .lastVisited none).toOption.map read

lemma exists_run_of_analysed {α : Type} {read : Analysis.Result ℕ → α} {proc : Procedure} {a : α}
    (h : analysed read proc = some a) :
    ∃ g r, Cfg.build proc = .ok g ∧ Analysis.run g.toFlow .lastVisited none = .ok r ∧
      read r = a := by
  obtain ⟨g, hbuild, h⟩ := Option.bind_eq_some_iff.1 h
  obtain ⟨r, hrun, hread⟩ := Option.map_eq_some_iff.1 h
  exact ⟨g, r, eq_ok_of_toOption hbuild, eq_ok_of_toOption hrun, hread⟩

/-- Two objects that are linked by a field. -/
def linkedProcedure : Procedure where
  name := none
  entry := none
  statements := [.alloc "y" (some "8"), .alloc "x" (some "7"), .store "x" "f" "y"]
  edges := none

/-- The facts listing of `linkedProcedure`. -/
def linkedListing : String :=
  "NodeIndex(0):\n\ty (1) ==> \x7b (8) \x7d\n" ++
  "NodeIndex(1):\n\tx (1) ==> \x7b (7) \x7d\n\ty (1) ==> \x7b (8) \x7d\n" ++
  "NodeIndex(2):\n\tx (1) ==> \x7b (7) \x7d\n\ty (1) ==> \x7b (8) \x7d\n\t((7), f, (8))\n"

/-- The facts of `linkedProcedure` take a line for each variable and for the edge. -/
theorem facts_laidOut_linked :
    ∃ g r, Cfg.build linkedProcedure = .ok g ∧ Analysis.run g.toFlow .lastVisited none = .ok r ∧
      facts Cfg.inspectNode r = linkedListing ∧ LaidOut r := by
  have hread : analysed (facts Cfg.inspectNode) linkedProcedure = some linkedListing := by
    decide +kernel
  obtain ⟨g, r, hbuild, hrun, htext⟩ := exists_run_of_analysed hread
  exact ⟨g, r, hbuild, hrun, htext, (facts_laidOut_iff hbuild hrun).2.2.2 (by decide)⟩

/-- An object that refers to itself, with line feeds in the names of the variable and the field. -/
def splitNames : Procedure where
  name := none
  entry := none
  statements := [.alloc "x\ny" (some "1"), .store "x\ny" "f\ng" "x\ny"]
  edges := none

/-- The facts listing of `splitNames`: a line of the edge looks like a header, and one variable has
two indented lines. -/
def splitListing : String :=
  "NodeIndex(0):\n\tx\n\ty (1) ==> \x7b (1) \x7d\n" ++
  "NodeIndex(1):\n\tx\n\ty (1) ==> \x7b (1) \x7d\n\t((1), f\ng, (1))\n"

/-- With a line feed in a name, the listing has lines that are neither headers nor indented. -/
theorem facts_not_laidOut_splitNames :
    ∃ g r, Cfg.build splitNames = .ok g ∧ Analysis.run g.toFlow .lastVisited none = .ok r ∧
      facts Cfg.inspectNode r = splitListing ∧ ¬ LaidOut r := by
  have hread : analysed (fun r => (facts Cfg.inspectNode r, decide (LaidOut r))) splitNames =
      some (splitListing, false) := by
    decide +kernel
  obtain ⟨g, r, hbuild, hrun, hresult⟩ := exists_run_of_analysed hread
  obtain ⟨htext, hlayout⟩ := Prod.mk.inj hresult
  exact ⟨g, r, hbuild, hrun, htext, of_decide_eq_false hlayout⟩

end Report

end MayAlias
