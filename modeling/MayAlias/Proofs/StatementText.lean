import Mathlib.Data.List.Nodup
import MayAlias.Proofs.JsonGrammar
import MayAlias.Statement.Json

/-!
# Statements and their texts

A statement may be written in many ways: its members in any order, the site left out when there is
none, other members among them, or all of it as an array.  `Statement.Written` are these texts, and
the reader takes each of them for the statement (`Statement.Written.textOf`).

The members of a statement are kept as values until its closing brace and interpreted then, so
reading has two halves.  `Statement.Gathers` says what is kept of the members, one after the other;
and as only the members under the keys of the operands are looked at, and each of these keys occurs
at most once, the order and the other members do not matter (`ofMembers_of_rearranged`).
-/

namespace MayAlias

open Json

/-! ## Members in another order -/

namespace Json

/-- An object with these members. -/
def objectText (members : List Member) : List Char :=
  '\x7b' :: (commaSep (members.map Member.text) ++ ['\x7d'])

/-- What the printer writes is the text of its members with plain labels. -/
lemma printObject_eq (members : List (String × List Char)) :
    printObject members = objectText (members.map fun m => .plain m.1 m.2) := by
  have htext : ∀ m : String × List Char,
      quote m.1 ++ ':' :: m.2 = (Member.plain m.1 m.2).text := by
    intro m
    simp [Member.plain, Member.text]
  simp only [printObject, objectText, List.map_map, htext]
  rfl

lemma objectText_append (members : List Member) (rest : List Char) :
    objectText members ++ rest
      = '\x7b' :: (commaSep (members.map Member.text) ++ '\x7d' :: rest) := by
  simp [objectText]

lemma opens_objectText (members : List Member) : Opens (objectText members) :=
  ⟨'\x7b', _, rfl, by decide, by decide, by decide⟩

/-- A member that stands for nothing to a reader who knows the given keys. -/
structure AddedTo (keys : List String) (d : ℕ) (m : Member) : Prop where
  labelled : m.Labelled
  unknown : m.key ∉ keys
  value : ValueText d m.value

/-- The members are the known ones in any order, without some of those that are `null`, and with
others among them. -/
def Rearranged (Added : Member → Prop) (known members : List Member) : Prop :=
  ∃ kept dropped added, known.Perm (kept ++ dropped) ∧ members.Perm (kept ++ added) ∧
    (∀ m ∈ dropped, m.value = "null".toList) ∧ ∀ m ∈ added, Added m

/-- Members in their own order, with nothing dropped and nothing added. -/
lemma rearranged_refl (Added : Member → Prop) (known : List Member) :
    Rearranged Added known known :=
  ⟨known, [], [], by simp, by simp, by simp, by simp⟩

namespace Rearranged

variable {Added : Member → Prop} {known members : List Member}
  (h : Rearranged Added known members)

include h

/-- A member is one of the known ones, or it was added. -/
lemma mem_or_added {m : Member} (hm : m ∈ members) : m ∈ known ∨ Added m := by
  obtain ⟨kept, dropped, added, hknown, hmembers, _, hadded⟩ := h
  rcases List.mem_append.1 (hmembers.mem_iff.1 hm) with hkept | hnew
  · exact Or.inl (hknown.mem_iff.2 (List.mem_append_left _ hkept))
  · exact Or.inr (hadded m hnew)

/-- A known member that is not `null` stands somewhere, and the others are rearranged around it. -/
lemma split {m : Member} {others : List Member} (hm : m.value ≠ "null".toList)
    (hknown : known = m :: others) :
    ∃ before after, members = before ++ m :: after ∧
      Rearranged Added others (before ++ after) := by
  subst hknown
  obtain ⟨kept, dropped, added, hknown, hmembers, hnull, hadded⟩ := h
  -- a member that is not `null` cannot have been dropped
  have hkept : m ∈ kept := by
    rcases List.mem_append.1 (hknown.mem_iff.1 List.mem_cons_self) with hkept | hdropped
    · exact hkept
    · exact absurd (hnull m hdropped) hm
  obtain ⟨kept₁, kept₂, rfl⟩ := List.append_of_mem hkept
  have hmem : m ∈ members := hmembers.mem_iff.2 (List.mem_append_left _ hkept)
  obtain ⟨before, after, rfl⟩ := List.append_of_mem hmem
  refine ⟨before, after, rfl, kept₁ ++ kept₂, dropped, added, ?_, ?_, hnull, hadded⟩
  · rw [List.append_assoc, List.cons_append] at hknown
    have hothers := (hknown.trans List.perm_middle).cons_inv
    rwa [← List.append_assoc] at hothers
  · rw [List.append_assoc, List.cons_append] at hmembers
    have hothers := (List.perm_middle.symm.trans (hmembers.trans List.perm_middle)).cons_inv
    rwa [← List.append_assoc] at hothers

/-- A known member is there, unless it is `null` and was dropped. -/
lemma mem_or_null {m : Member} (hm : m ∈ known) : m ∈ members ∨ m.value = "null".toList := by
  obtain ⟨kept, dropped, added, hknown, hmembers, hnull, _⟩ := h
  rcases List.mem_append.1 (hknown.mem_iff.1 hm) with hkept | hdropped
  · exact Or.inl (hmembers.mem_iff.2 (List.mem_append_left _ hkept))
  · exact Or.inr (hnull m hdropped)

variable (hkeys : (known.map Member.key).Nodup)
  (hadded : ∀ m, Added m → m.key ∉ known.map Member.key)

include hkeys hadded

/-- No key of a known member occurs twice. -/
lemma pairwise : members.Pairwise fun a b => a.key ∈ known.map Member.key → a.key ≠ b.key := by
  obtain ⟨kept, dropped, added, hknown, hmembers, _, hnew⟩ := h
  have hkept : ((kept ++ dropped).map Member.key).Nodup := (hknown.map _).nodup_iff.1 hkeys
  rw [List.map_append, List.nodup_append] at hkept
  have hsymm : ∀ {a b : Member}, (a.key ∈ known.map Member.key → a.key ≠ b.key) →
      b.key ∈ known.map Member.key → b.key ≠ a.key := by
    intro a b hab hb heq
    exact hab (heq ▸ hb) heq.symm
  rw [hmembers.pairwise_iff hsymm, List.pairwise_append]
  refine ⟨?_, ?_, ?_⟩
  · have hdistinct := List.pairwise_map.1 hkept.1
    exact hdistinct.imp fun {a b} (hne : a.key ≠ b.key) _ => hne
  · exact List.pairwise_of_forall_mem_list fun a ha b _ hmem =>
      absurd hmem (hadded a (hnew a ha))
  · intro a _ b hb hmem heq
    exact hadded b (hnew b hb) (heq ▸ hmem)

/-- Under the key of a known member stands that member, or nothing if it is `null`. -/
lemma filter_key {m : Member} (hm : m ∈ known) :
    members.filter (·.key == m.key) = [m] ∨
      m.value = "null".toList ∧ members.filter (·.key == m.key) = [] := by
  have hmkey : m.key ∈ known.map Member.key := List.mem_map_of_mem hm
  have hunique : ∀ m' ∈ members.filter (·.key == m.key), m' = m := by
    intro m' hm'
    rw [List.mem_filter, beq_iff_eq] at hm'
    rcases h.mem_or_added hm'.1 with hknown | hnew
    · exact List.inj_on_of_nodup_map hkeys hknown hm hm'.2
    · exact absurd (hm'.2 ▸ hmkey) (hadded m' hnew)
  -- all that stands there is `m`, and it does not stand there twice
  have hpairwise := (h.pairwise hkeys hadded).filter (·.key == m.key)
  cases hfilter : members.filter (·.key == m.key) with
  | nil =>
    refine Or.inr ⟨(h.mem_or_null hm).resolve_left fun hmem => ?_, rfl⟩
    have hself : m ∈ members.filter (·.key == m.key) := List.mem_filter.2 ⟨hmem, beq_self_eq_true _⟩
    simp [hfilter] at hself
  | cons a as =>
    rw [hfilter] at hunique hpairwise
    obtain rfl := hunique a List.mem_cons_self
    cases as with
    | nil => exact Or.inl rfl
    | cons b bs =>
      obtain rfl := hunique b (List.mem_cons_of_mem _ List.mem_cons_self)
      exact absurd rfl ((List.pairwise_cons.1 hpairwise).1 b List.mem_cons_self hmkey)

end Rearranged

end Json

/-! ## Kinds and operands -/

namespace Json

/-- Only an absent value is written as `null`. -/
lemma printOptional_eq_null_iff {α : Type} {print : α → List Char} (h : ∀ a, Opens (print a))
    (o : Option α) : printOptional print o = "null".toList ↔ o = none := by
  cases o with
  | none => exact iff_of_true rfl rfl
  | some a =>
    obtain ⟨c, cs, htext, _, _, hn⟩ := h a
    refine iff_of_false (fun heq => hn ?_) (by simp)
    rw [printOptional, htext] at heq
    exact (List.cons.inj heq).1

lemma quote_ne_null (s : String) : quote s ≠ "null".toList := by
  intro h
  exact absurd (List.cons.inj h).1 (by decide)

/-- What the reader of values makes of a text. -/
def valueOf (depth : Depth) (text : List Char) : Value :=
  match value depth text with
  | .ok (v, _) => v
  | .error _ => .null

/-- The value of a text is what the reader takes it for. -/
lemma ReadsOff.valueOf_eq {depth : Depth} {text : List Char} {v : Value}
    (h : ReadsOff (value depth) text v) : valueOf depth text = v := by
  obtain ⟨ws, _, hread⟩ := h [] ends_nil
  rw [List.append_nil] at hread
  rw [valueOf, hread]

/-- A quoted string is read as the string. -/
lemma readsWithin_quote (depth : Depth) (s : String) : ReadsWithin depth (quote s) (.string s) :=
  (spells_quoted s.toList).readsWithin depth

/-- A value that may be absent is read as `null` or as the string. -/
lemma readsWithin_printOptional (depth : Depth) (o : Option String) :
    ReadsWithin depth (printOptional quote o) (o.elim .null .string) := by
  cases o with
  | none => exact readsWithin_null depth
  | some s => exact readsWithin_quote depth s

end Json

namespace StatementKind

/-- Kinds are told apart by their names. -/
lemma ofName?_name (kind : StatementKind) : ofName? kind.name = some kind := by
  cases kind <;> decide

lemma readsBack_name (kind : StatementKind) : ReadsBack read (quote kind.name) kind := by
  intro rest hrest
  rw [read, inverts_text.reads _ rest hrest]
  simp only [bind, Except.bind, ofName?_name]

end StatementKind

namespace Statement

/-- The member that names the kind. -/
def kindMember (s : Statement) : Member := .plain "kind" (quote s.kind.name)

/-- The members for the operands. -/
def operandMembers (s : Statement) : List Member := s.operands.map fun o => .plain o.1 o.2

/-- The keys that mean something in a statement of the same kind. -/
def keys (s : Statement) : List String := "kind" :: s.operandMembers.map Member.key

/-- The texts of a statement.  Values that are added are nested at most `d` deep. -/
inductive Written (d : ℕ) (s : Statement) : List Char → Prop
  | object {members : List Member}
    (h : Rearranged (AddedTo s.keys d) (s.kindMember :: s.operandMembers) members) :
    Written d s (objectText members)
  | array : Written d s ('[' :: (commaSep (quote s.kind.name :: s.operands.map Prod.snd) ++ [']']))

/-- A statement is printed with its kind first and its operands in order. -/
lemma print_eq (s : Statement) : s.print = objectText (s.kindMember :: s.operandMembers) :=
  printObject_eq _

/-- What is printed is one of the ways to write a statement. -/
lemma written_print (d : ℕ) (s : Statement) : Written d s s.print := by
  rw [print_eq]
  exact .object (rearranged_refl _ _)

/-- No key is used for two operands. -/
lemma nodup_keys (s : Statement) : s.keys.Nodup := by
  cases s <;> simp [keys, operandMembers, operands, Member.plain]

/-! ## Interpreting the members -/

section Interpret

variable {s : Statement} {d : ℕ} {members : List Member} (depth : Depth)
  (h : Rearranged (AddedTo s.keys d) s.operandMembers members)

include h

/-- The members under the key of an operand: that operand alone, or none if it was dropped. -/
lemma filter_members {m : Member} (hm : m ∈ s.operandMembers) :
    (members.map fun m => (m.key, valueOf depth m.value)).filter (·.1 == m.key)
        = [(m.key, valueOf depth m.value)] ∨
      m.value = "null".toList ∧
        (members.map fun m => (m.key, valueOf depth m.value)).filter (·.1 == m.key) = [] := by
  have hkeys : (s.operandMembers.map Member.key).Nodup := (List.nodup_cons.1 s.nodup_keys).2
  -- members that were added have other keys
  have hadded : ∀ m, AddedTo s.keys d m → m.key ∉ s.operandMembers.map Member.key :=
    fun m hm hmem => hm.unknown (List.mem_cons_of_mem _ hmem)
  have hfilter : (members.map fun m => (m.key, valueOf depth m.value)).filter (·.1 == m.key)
      = (members.filter (·.key == m.key)).map fun m => (m.key, valueOf depth m.value) := by
    rw [List.filter_map]
    rfl
  rw [hfilter]
  refine (h.filter_key hkeys hadded hm).imp (fun hone => ?_) (And.imp_right fun hnone => ?_)
  · rw [hone, List.map_singleton]
  · rw [hnone, List.map_nil]

/-- A required operand is found, since only `null` may be dropped. -/
lemma required_of_rearranged {key text : String}
    (hm : Member.plain key (quote text) ∈ s.operandMembers) :
    required (members.map fun m => (m.key, valueOf depth m.value)) key = .ok text := by
  rcases filter_members depth h hm with hone | ⟨hnull, _⟩
  · rw [required]
    simp only [Member.plain] at hone
    rw [hone, (readsWithin_quote depth text).value.valueOf_eq]
    rfl
  · exact absurd hnull (quote_ne_null text)

/-- An optional operand is found, or it was dropped and is absent. -/
lemma allowed_of_rearranged {key : String} {o : Option String}
    (hm : Member.plain key (printOptional quote o) ∈ s.operandMembers) :
    allowed (members.map fun m => (m.key, valueOf depth m.value)) key = .ok o := by
  rw [allowed]
  rcases filter_members depth h hm with hone | ⟨hnull, hnone⟩
  · simp only [Member.plain] at hone
    rw [hone, (readsWithin_printOptional depth o).value.valueOf_eq]
    cases o <;> rfl
  · obtain rfl := (printOptional_eq_null_iff opens_quote o).1 hnull
    simp only [Member.plain] at hnone
    rw [hnone]

/-- The operands make the statement again, in whatever order they come and whatever is among
them. -/
lemma ofMembers_of_rearranged :
    ofMembers s.kind (members.map fun m => (m.key, valueOf depth m.value)) = .ok s := by
  have hrequired : ∀ key text, Member.plain key (quote text) ∈ s.operandMembers →
      required (members.map fun m => (m.key, valueOf depth m.value)) key = .ok text :=
    fun _ _ hm => required_of_rearranged depth h hm
  cases s with
  | alloc lhs site =>
    have hlhs := hrequired "lhs" lhs (by simp [operandMembers, operands])
    have hsite : allowed _ "site" = .ok site :=
      allowed_of_rearranged depth h (by simp [operandMembers, operands])
    simp only [kind, ofMembers, bind, Except.bind, hlhs, hsite]
  | copy lhs rhs =>
    have hlhs := hrequired "lhs" lhs (by simp [operandMembers, operands])
    have hrhs := hrequired "rhs" rhs (by simp [operandMembers, operands])
    simp only [kind, ofMembers, bind, Except.bind, hlhs, hrhs]
  | load lhs base field =>
    have hlhs := hrequired "lhs" lhs (by simp [operandMembers, operands])
    have hbase := hrequired "base" base (by simp [operandMembers, operands])
    have hfield := hrequired "field" field (by simp [operandMembers, operands])
    simp only [kind, ofMembers, bind, Except.bind, hlhs, hbase, hfield]
  | store base field rhs =>
    have hbase := hrequired "base" base (by simp [operandMembers, operands])
    have hfield := hrequired "field" field (by simp [operandMembers, operands])
    have hrhs := hrequired "rhs" rhs (by simp [operandMembers, operands])
    simp only [kind, ofMembers, bind, Except.bind, hbase, hfield, hrhs]
  | other => rfl

end Interpret

/-! ## Gathering the members -/

/-- Reading the members one after the other, with the kind known so far, ends with the second kind
and keeps the operands. -/
inductive Gathers (depth : Depth) :
    Option StatementKind → List Member → Option StatementKind → List (String × Value) → Prop
  | nil (kind? : Option StatementKind) : Gathers depth kind? [] kind? []
  | kind {m : Member} {members : List Member} {kind : StatementKind}
    {kind? : Option StatementKind} {operands : List (String × Value)} (hlabel : m.Labelled)
    (hkey : m.key = "kind") (hvalue : ReadsBack StatementKind.read m.value kind)
    (h : Gathers depth (some kind) members kind? operands) :
    Gathers depth none (m :: members) kind? operands
  | operand {m : Member} {members : List Member} {v : Value} {kind? kind?' : Option StatementKind}
    {operands : List (String × Value)} (hlabel : m.Labelled) (hkey : m.key ≠ "kind")
    (hvalue : ReadsOff (value depth) m.value v) (h : Gathers depth kind? members kind?' operands) :
    Gathers depth kind? (m :: members) kind?' ((m.key, v) :: operands)

/-- What is gathered of the members is what reading them returns. -/
lemma Gathers.membersWithin {depth : Depth} {kind? kind?' : Option StatementKind}
    {members : List Member} {operands : List (String × Value)}
    (h : Gathers depth kind? members kind?' operands) (first : Bool) {ws : List Char}
    (hws : Blanks ws) {n : ℕ} (hn : members.length < n) (rest : List Char) :
    Statement.membersWithin depth n first kind?
        (ws ++ (listed first (members.map Member.text) ++ '\x7d' :: rest))
      = .ok ((kind?', operands), rest) := by
  obtain ⟨n, rfl⟩ := Nat.exists_eq_succ_of_ne_zero (Nat.ne_of_gt (Nat.zero_lt_of_lt hn))
  -- a value may leave blanks behind it, which come before the next comma or brace
  induction h generalizing first ws n with
  | nil kind? =>
    rw [List.map_nil, listed_nil, List.nil_append, Statement.membersWithin, hws.nextMember,
      nextMember_close]
    rfl
  | @kind m members kind kind? operands hlabel hkey hvalue _ ih =>
    rw [List.length_cons] at hn
    obtain ⟨n, rfl⟩ := Nat.exists_eq_succ_of_ne_zero (show n ≠ 0 by omega)
    have hread := hvalue _ (ends_listed (members.map Member.text) (Or.inr rfl) rest)
    have hmembers := ih false blanks_nil n (by omega)
    obtain ⟨behind, colonAndRest, hnext, hstring, hcolon⟩ := hlabel.next .exact first
      (m.value ++ (listed false (members.map Member.text) ++ '\x7d' :: rest))
    rw [List.map_cons, listed_cons, Member.text, List.append_assoc, Statement.membersWithin,
      hws.nextMember, hnext]
    simp only [bind, Except.bind, hstring, hkey, if_true, Option.isSome_none, Bool.false_eq_true,
      if_false, hcolon, hread]
    exact hmembers
  | @operand m members v kind? kind?' operands hlabel hkey hvalue _ ih =>
    rw [List.length_cons] at hn
    obtain ⟨n, rfl⟩ := Nat.exists_eq_succ_of_ne_zero (show n ≠ 0 by omega)
    obtain ⟨ws', hws', hread⟩ :=
      hvalue _ (ends_listed (members.map Member.text) (Or.inr rfl) rest)
    have hmembers := ih false hws' n (by omega)
    obtain ⟨behind, colonAndRest, hnext, hstring, hcolon⟩ := hlabel.next .exact first
      (m.value ++ (listed false (members.map Member.text) ++ '\x7d' :: rest))
    rw [List.map_cons, listed_cons, Member.text, List.append_assoc, Statement.membersWithin,
      hws.nextMember, hnext]
    simp only [bind, Except.bind, hstring, if_neg hkey, hcolon, hread, hmembers]

/-- Members that are not the kind are kept as values. -/
lemma gathers_operands {depth : Depth} (kind? : Option StatementKind) {members : List Member}
    (h : ∀ m ∈ members, m.Labelled ∧ m.key ≠ "kind" ∧
      ReadsOff (value depth) m.value (valueOf depth m.value)) :
    Gathers depth kind? members kind? (members.map fun m => (m.key, valueOf depth m.value)) := by
  induction members with
  | nil => exact .nil kind?
  | cons m members ih =>
    rw [List.forall_mem_cons] at h
    exact .operand h.1.1 h.1.2.1 h.1.2.2 (ih h.2)

/-- The kind may stand anywhere among the operands. -/
lemma gathers_around_kind {depth : Depth} (s : Statement) {before after : List Member}
    (h : ∀ m ∈ before ++ after, m.Labelled ∧ m.key ≠ "kind" ∧
      ReadsOff (value depth) m.value (valueOf depth m.value)) :
    Gathers depth none (before ++ s.kindMember :: after) (some s.kind)
      ((before ++ after).map fun m => (m.key, valueOf depth m.value)) := by
  induction before with
  | nil =>
    exact .kind (Member.labelled_plain _ _) rfl s.kind.readsBack_name
      (gathers_operands (some s.kind) h)
  | cons m before ih =>
    rw [List.cons_append, List.forall_mem_cons] at h
    exact .operand h.1.1 h.1.2.1 h.1.2.2 (ih h.2)

/-! ## Reading -/

section Reading

variable {s : Statement} {d : ℕ} {depth : Depth} (hroom : Room d depth)

/-- Operands are strings, or `null` for a site that is missing. -/
lemma valueText_operand (d : ℕ) (s : Statement) : ∀ o ∈ s.operands, ValueText d o.2 := by
  have hquote : ∀ t, ValueText d (quote t) := fun t => .string d (spells_quoted t.toList)
  cases s with
  | alloc lhs site =>
    cases site with
    | none => simpa [operands, printOptional, hquote] using ValueText.null d
    | some label => simp [operands, printOptional, hquote]
  | _ => simp [operands, hquote]

include hroom

/-- The members for the operands, and those that are added, are read as values. -/
lemma readsOff_member {members : List Member}
    (h : Rearranged (AddedTo s.keys d) s.operandMembers members) :
    ∀ m ∈ members, m.Labelled ∧ m.key ≠ "kind" ∧
      ReadsOff (value depth) m.value (valueOf depth m.value) := by
  intro m hm
  have hmember : m.Labelled ∧ m.key ≠ "kind" ∧ ValueText d m.value := by
    rcases h.mem_or_added hm with hknown | hadded
    · have hkey : m.key ≠ "kind" := fun heq =>
        (List.nodup_cons.1 s.nodup_keys).1 (heq ▸ List.mem_map_of_mem hknown)
      obtain ⟨o, ho, rfl⟩ := List.mem_map.1 hknown
      exact ⟨Member.labelled_plain _ _, hkey, valueText_operand d s o ho⟩
    · exact ⟨hadded.labelled, fun heq => hadded.unknown (heq ▸ List.mem_cons_self), hadded.value⟩
  obtain ⟨v, hv⟩ := hmember.2.2.reads hroom
  refine ⟨hmember.1, hmember.2.1, ?_⟩
  rw [hv.value.valueOf_eq]
  exact hv.value

/-- A statement is read from its members in any order. -/
lemma readObject_of_rearranged {members : List Member}
    (h : Rearranged (AddedTo s.keys d) (s.kindMember :: s.operandMembers) members)
    (rest : List Char) :
    readObject depth (commaSep (members.map Member.text) ++ '\x7d' :: rest) = .ok (s, rest) := by
  obtain ⟨before, after, rfl, hothers⟩ := h.split (quote_ne_null _) rfl
  -- the kind may stand anywhere among the members
  have hgather := gathers_around_kind s (readsOff_member hroom hothers)
  have hlength := length_lt_commaSep ((before ++ s.kindMember :: after).map Member.text) '\x7d' rest
  rw [List.length_map] at hlength
  have hmembers := hgather.membersWithin true blanks_nil hlength rest
  rw [List.nil_append, listed_true] at hmembers
  rw [readObject, hmembers]
  simp only [bind, Except.bind, ofMembers_of_rearranged depth hothers]

omit hroom

/-- The operands in order. -/
def operandValues : Statement → List Value
  | alloc lhs site => [.string lhs, site.elim .null .string]
  | copy lhs rhs => [.string lhs, .string rhs]
  | load lhs base field => [.string lhs, .string base, .string field]
  | store base field rhs => [.string base, .string field, .string rhs]
  | other => []

/-- The operands by place make up the statement. -/
lemma ofElements_operandValues (s : Statement) : ofElements s.kind s.operandValues = .ok s := by
  cases s with
  | alloc lhs site => cases site <;> rfl
  | _ => rfl

lemma forall₂_operandValues (depth : Depth) (s : Statement) :
    List.Forall₂ (ReadsWithin depth) (s.operands.map Prod.snd) s.operandValues := by
  have hquote := readsWithin_quote depth
  cases s with
  | alloc lhs site => exact .cons (hquote lhs) (.cons (readsWithin_printOptional depth site) .nil)
  | copy lhs rhs => exact .cons (hquote lhs) (.cons (hquote rhs) .nil)
  | load lhs base field =>
    exact .cons (hquote lhs) (.cons (hquote base) (.cons (hquote field) .nil))
  | store base field rhs =>
    exact .cons (hquote base) (.cons (hquote field) (.cons (hquote rhs) .nil))
  | other => exact .nil

/-- A statement is read from its kind and its operands in order. -/
lemma readArray_operands (depth : Depth) (s : Statement) (rest : List Char) :
    readArray depth (commaSep (quote s.kind.name :: s.operands.map Prod.snd) ++ ']' :: rest)
      = .ok (s, rest) := by
  have hlisted : commaSep (quote s.kind.name :: s.operands.map Prod.snd) ++ ']' :: rest
      = quote s.kind.name ++ (listed false (s.operands.map Prod.snd) ++ ']' :: rest) :=
    listed_cons true _ _ _
  have hnext := nextElement_separated true (opens_quote s.kind.name)
    (listed false (s.operands.map Prod.snd) ++ ']' :: rest)
  have hkind := s.kind.readsBack_name _ (ends_listed (s.operands.map Prod.snd) (Or.inl rfl) rest)
  have hoperands := elementsWithin_listed (forall₂_operandValues depth s) false blanks_nil
    (n := 2 * (listed false (s.operands.map Prod.snd) ++ ']' :: rest).length + 2)
    (by rw [List.length_append, Bool.toNat_false]; omega) rest
  rw [List.nil_append] at hoperands
  rw [hlisted, readArray]
  simp only [separated, if_true] at hnext
  simp only [bind, Except.bind, hnext, hkind, moreElements, hoperands, ofElements_operandValues]

/-- A statement is read from each of its texts, wherever there is room for one more object with the
values that are added. -/
theorem Written.textOf {text : List Char} (h : Written d s text) {depth : ℕ}
    (hdepth : d + 1 < depth) : TextOf (read depth) text s := by
  have hdescend : descend (some depth) = .ok (some (depth - 1)) := if_neg (by omega)
  cases h with
  | @object members h =>
    refine ⟨opens_objectText members, fun rest _ => ?_⟩
    have hroom : Room d (some (depth - 1)) := by
      show d < depth - 1
      omega
    rw [objectText_append, read, skipBlanks_cons (by decide)]
    simp only [bind, Except.bind, hdescend]
    exact readObject_of_rearranged hroom h rest
  | array =>
    -- all operands are strings or `null`, so here the nesting does not matter
    refine ⟨⟨'[', _, rfl, by decide, by decide, by decide⟩, fun rest _ => ?_⟩
    have htext : '[' :: (commaSep (quote s.kind.name :: s.operands.map Prod.snd) ++ [']']) ++ rest
        = '[' :: (commaSep (quote s.kind.name :: s.operands.map Prod.snd) ++ ']' :: rest) := by
      simp
    rw [htext, read, skipBlanks_cons (by decide)]
    simp only [bind, Except.bind, hdescend]
    exact readArray_operands _ s rest

/-- Statements are read back as they were printed. -/
theorem inverts_read {depth : ℕ} (hdepth : 1 < depth) : Inverts (read depth) print where
  opens s := ((s.written_print 0).textOf hdepth).opens
  reads s := ((s.written_print 0).textOf hdepth).reads

end Reading

end Statement

end MayAlias
