import Mathlib.Data.List.DropRight
import MayAlias.Proofs.JsonShapes

/-!
# Texts of JSON values

`ValueText d text` is a grammar: the text is a JSON value whose arrays and objects are nested at
most `d` deep, whose numbers are 64-bit words and whose strings do without surrogates.  Blanks may
stand between any two words, and the characters of a string may be spelled in any way.  The reader
of values takes every such text, in either manner, provided that the nesting leaves room for it
(`ValueText.reads`).

The reader leaves the blanks behind a value to whoever reads on, so what it returns is the rest of
the text up to blanks (`ReadsOff`).
-/

namespace MayAlias.Json

/-! ## Blanks -/

/-- A text of blanks. -/
def Blanks (ws : List Char) : Prop := ∀ c ∈ ws, isBlank c = true

lemma blanks_nil : Blanks [] := by simp [Blanks]

lemma Blanks.append {ws ws' : List Char} (hws : Blanks ws) (hws' : Blanks ws') :
    Blanks (ws ++ ws') := by
  intro c hc
  exact (List.mem_append.1 hc).elim (hws c) (hws' c)

/-- Blanks may follow a number. -/
lemma Blanks.ends {ws : List Char} (hws : Blanks ws) {rest : List Char} (hrest : Ends rest) :
    Ends (ws ++ rest) := by
  cases ws with
  | nil => exact hrest
  | cons c ws =>
    intro d hd
    obtain rfl := Option.some.inj hd
    exact Or.inl (hws _ List.mem_cons_self)

section Skip

variable {ws : List Char} (hws : Blanks ws) (cs : List Char)

include hws

/-- Blanks in front are skipped. -/
lemma Blanks.skip : skipBlanks (ws ++ cs) = skipBlanks cs := List.dropWhile_append_of_pos hws

/-- Blanks before an element or a bracket are skipped. -/
lemma Blanks.nextElement (first : Bool) :
    nextElement first (ws ++ cs) = Json.nextElement first cs := by
  rw [Json.nextElement, Json.nextElement, hws.skip]

/-- Blanks before a key or a brace are skipped. -/
lemma Blanks.nextMember (first : Bool) :
    nextMember first (ws ++ cs) = Json.nextMember first cs := by
  rw [Json.nextMember, Json.nextMember, hws.skip]

lemma Blanks.colon : colon (ws ++ cs) = Json.colon cs := by rw [Json.colon, Json.colon, hws.skip]

end Skip

/-- The reader takes the text for `a`, and leaves at most blanks before what follows. -/
def ReadsOff {α : Type} (item : Reader α) (text : List Char) (a : α) : Prop :=
  ∀ rest, Ends rest → ∃ ws, Blanks ws ∧ item (text ++ rest) = .ok (a, ws ++ rest)

/-! ## Objects -/

/-- A member of an object. -/
structure Member where
  key : String
  /-- The key as it is spelled, up to the colon. -/
  label : List Char
  /-- The text behind the colon. -/
  value : List Char
deriving DecidableEq

/-- The text of a member. -/
def Member.text (m : Member) : List Char := m.label ++ m.value

/-- The label spells the key. -/
def Member.Labelled (m : Member) : Prop :=
  ∃ ws body ws', Blanks ws ∧ Blanks ws' ∧ Spells body m.key.toList ∧
    m.label = ws ++ '"' :: (body ++ '"' :: (ws' ++ [':']))

/-- A member as the printer writes it. -/
def Member.plain (key : String) (value : List Char) : Member := ⟨key, quote key ++ [':'], value⟩

/-- The printer's label is one of the spellings of a key. -/
lemma Member.labelled_plain (key : String) (value : List Char) : (plain key value).Labelled :=
  ⟨[], _, [], blanks_nil, blanks_nil, spells_quoted key.toList, by simp [plain, quote]⟩

/-- A labelled key is found, read, and followed by its colon. -/
lemma Member.Labelled.next {m : Member} (h : m.Labelled) (manner : Manner) (first : Bool)
    (rest : List Char) :
    ∃ behind colonAndRest,
      nextMember first (separated first (m.label ++ rest)) = .ok (.item behind) ∧
      string manner behind = .ok (m.key, colonAndRest) ∧ colon colonAndRest = .ok rest := by
  obtain ⟨ws, body, ws', hws, hws', hbody, hlabel⟩ := h
  -- the blanks before the quote are skipped, those behind it come before the colon
  have hquote : skipBlanks (m.label ++ rest) = '"' :: (body ++ '"' :: (ws' ++ ':' :: rest)) := by
    rw [hlabel, List.append_assoc, hws.skip, List.cons_append, skipBlanks_cons (by decide)]
    simp
  refine ⟨body ++ '"' :: (ws' ++ ':' :: rest), ws' ++ ':' :: rest, ?_, hbody.string manner _, ?_⟩
  · cases first with
    | true =>
      rw [nextMember, separated, if_pos rfl, hquote]
      rfl
    | false =>
      rw [nextMember, separated, if_neg Bool.false_ne_true, skipBlanks_cons (by decide)]
      simp [hquote, openKey]
  · rw [hws'.colon, colon_cons]

/-! ## Values -/

/-- The text is a JSON value with arrays and objects nested at most `d` deep. -/
inductive ValueText : ℕ → List Char → Prop
  | null (d : ℕ) : ValueText d "null".toList
  | bool (d : ℕ) (b : Bool) : ValueText d (if b then "true".toList else "false".toList)
  | word (d : ℕ) (w : UInt64) : ValueText d (printWord w)
  | string (d : ℕ) {body cs : List Char} (h : Spells body cs) :
    ValueText d ('"' :: (body ++ ['"']))
  | array {d : ℕ} {ws : List Char} {items : List (List Char)} (hws : Blanks ws)
    (h : ∀ item ∈ items, ValueText d item) :
    ValueText (d + 1) ('[' :: (ws ++ (commaSep items ++ [']'])))
  | object {d : ℕ} {ws : List Char} {members : List Member} (hws : Blanks ws)
    (hlabels : ∀ m ∈ members, m.Labelled) (hvalues : ∀ m ∈ members, ValueText d m.value) :
    ValueText (d + 1) ('\x7b' :: (ws ++ (commaSep (members.map Member.text) ++ ['\x7d'])))
  | padded {d : ℕ} {ws text ws' : List Char} (hws : Blanks ws) (h : ValueText d text)
    (hws' : Blanks ws') : ValueText d (ws ++ (text ++ ws'))

/-- Arrays and objects nested `d` deep may be opened. -/
def Room (d : ℕ) : Depth → Prop
  | none => True
  | some n => d < n

/-- Where there is room for one more level, a bracket may be opened. -/
lemma Room.descend {d : ℕ} {depth : Depth} (h : Room (d + 1) depth) :
    ∃ depth', descend depth = .ok depth' ∧ Room d depth' := by
  cases depth with
  | none => exact ⟨none, rfl, trivial⟩
  | some n =>
    have hn : d + 1 < n := h
    refine ⟨some (n - 1), if_neg (by omega), ?_⟩
    show d < n - 1
    omega

/-- The reader takes the text for `v`, whenever it may make two calls for each character. -/
def ReadsWithin (depth : Depth) (text : List Char) (v : Value) : Prop :=
  ∀ n, 2 * text.length < n → ReadsOff (valueWithin n depth) text v

/-- The bound with which values are read is enough for the text alone. -/
lemma ReadsWithin.value {depth : Depth} {text : List Char} {v : Value}
    (h : ReadsWithin depth text v) : ReadsOff (value depth) text v := by
  intro rest hrest
  refine h _ ?_ rest hrest
  rw [List.length_append]
  omega

/-! ### Single values -/

/-- A value may have blanks before it. -/
lemma valueWithin_skipBlanks (n : ℕ) (depth : Depth) (cs : List Char) :
    valueWithin n depth (skipBlanks cs) = valueWithin n depth cs := by
  have hskip : skipBlanks (skipBlanks cs) = skipBlanks cs := List.dropWhile_idempotent _ _
  cases n with
  | zero => rfl
  | succ n => rw [valueWithin, valueWithin, hskip]

/-- What reads as a value starts, behind blanks, with something else than a closing bracket. -/
lemma exists_skipBlanks_of_valueWithin {n : ℕ} {depth : Depth} {cs : List Char}
    {r : Value × List Char} (h : valueWithin n depth cs = .ok r) :
    ∃ c rest, skipBlanks cs = c :: rest ∧ c ≠ ']' := by
  cases n with
  | zero => simp [valueWithin] at h
  | succ n =>
    rw [valueWithin] at h
    cases hskip : skipBlanks cs with
    | nil => simp [hskip] at h
    | cons c rest =>
      refine ⟨c, rest, rfl, ?_⟩
      rintro rfl
      simp [hskip, isDigit] at h

lemma readsWithin_null (depth : Depth) : ReadsWithin depth "null".toList .null := by
  intro n hn rest _
  obtain ⟨n, rfl⟩ := Nat.exists_eq_succ_of_ne_zero (Nat.ne_of_gt (Nat.zero_lt_of_lt hn))
  exact ⟨[], blanks_nil, rfl⟩

lemma readsWithin_bool (depth : Depth) (b : Bool) :
    ReadsWithin depth (if b then "true".toList else "false".toList) (.bool b) := by
  intro n hn rest _
  obtain ⟨n, rfl⟩ := Nat.exists_eq_succ_of_ne_zero (Nat.ne_of_gt (Nat.zero_lt_of_lt hn))
  refine ⟨[], blanks_nil, ?_⟩
  cases b <;> rfl

/-- A word is read as a number, digit by digit. -/
lemma readsWithin_word (depth : Depth) (w : UInt64) :
    ReadsWithin depth (printWord w) (.number ⟨false, printWord w, [], none⟩) := by
  intro n hn rest hrest
  obtain ⟨n, rfl⟩ := Nat.exists_eq_succ_of_ne_zero (Nat.ne_of_gt (Nat.zero_lt_of_lt hn))
  have hnumeral := numeral_toDigits (mannerOf depth) (toNat_le_maxWord w) hrest
  obtain ⟨d, ds, hds, hd⟩ := exists_toDigits_eq_cons w.toNat
  refine ⟨[], blanks_nil, ?_⟩
  rw [hds, List.cons_append, ← hds] at hnumeral
  -- a digit is told apart from the first letters of the names
  have hne : d ≠ 'n' ∧ d ≠ 't' ∧ d ≠ 'f' :=
    ⟨ne_of_isDigit hd (by decide), ne_of_isDigit hd (by decide), ne_of_isDigit hd (by decide)⟩
  rw [printWord, hds, List.cons_append, valueWithin, skipBlanks_cons (isBlank_of_isDigit hd), ← hds]
  simp [hne, hd, hnumeral, bind, Except.bind]

/-- A string is read as it is spelled. -/
lemma Spells.readsWithin {body : List Char} {s : String} (h : Spells body s.toList)
    (depth : Depth) : ReadsWithin depth ('"' :: (body ++ ['"'])) (.string s) := by
  intro n hn rest _
  obtain ⟨n, rfl⟩ := Nat.exists_eq_succ_of_ne_zero (Nat.ne_of_gt (Nat.zero_lt_of_lt hn))
  refine ⟨[], blanks_nil, ?_⟩
  have htext : '"' :: (body ++ ['"']) ++ rest = '"' :: (body ++ '"' :: rest) := by simp
  rw [htext, valueWithin, skipBlanks_cons (by decide)]
  simp [isDigit, h.string, bind, Except.bind]

/-- Blanks around a text do not change its value. -/
lemma ReadsWithin.padded {depth : Depth} {ws text ws' : List Char} {v : Value} (hws : Blanks ws)
    (h : ReadsWithin depth text v) (hws' : Blanks ws') :
    ReadsWithin depth (ws ++ (text ++ ws')) v := by
  intro n hn rest hrest
  have hlength : 2 * text.length < n := by
    simp only [List.length_append] at hn
    omega
  obtain ⟨ws'', hws'', hread⟩ := h n hlength (ws' ++ rest) (hws'.ends hrest)
  refine ⟨ws'' ++ ws', hws''.append hws', ?_⟩
  rw [List.append_assoc, ← valueWithin_skipBlanks, hws.skip, valueWithin_skipBlanks,
    List.append_assoc, hread, List.append_assoc]

/-! ### Arrays and objects -/

/-- The elements of an array come out one after the other. -/
lemma elementsWithin_listed {depth : Depth} {items : List (List Char)} {vs : List Value}
    (h : List.Forall₂ (ReadsWithin depth) items vs) (first : Bool) {ws : List Char}
    (hws : Blanks ws) {n : ℕ} (hn : 2 * (listed first items).length + first.toNat < n)
    (rest : List Char) :
    elementsWithin n depth first (ws ++ (listed first items ++ ']' :: rest)) = .ok (vs, rest) := by
  induction h generalizing first ws n with
  | nil =>
    obtain ⟨n, rfl⟩ := Nat.exists_eq_succ_of_ne_zero (Nat.ne_of_gt (Nat.zero_lt_of_lt hn))
    rw [listed_nil, List.nil_append, elementsWithin, hws.nextElement, nextElement_close]
    rfl
  | @cons item v items vs hitem _ ih =>
    obtain ⟨n, rfl⟩ := Nat.exists_eq_succ_of_ne_zero (Nat.ne_of_gt (Nat.zero_lt_of_lt hn))
    -- a comma before the element makes up for the call, and there is one to spare for the first
    have hlength : 2 * item.length < n ∧ 2 * (listed false items).length + false.toNat < n := by
      have hcons := congrArg List.length (listed_cons first item items [])
      cases first <;> simp [separated] at hcons hn <;> simp <;> omega
    obtain ⟨ws', hws', hread⟩ := hitem n hlength.1 _ (ends_listed items (Or.inl rfl) rest)
    have hitems := ih false hws' hlength.2
    obtain ⟨c, cs, hskip, hc⟩ := exists_skipBlanks_of_valueWithin hread
    have hnext : nextElement first (separated first (item ++ (listed false items ++ ']' :: rest)))
        = .ok (.item (c :: cs)) := by
      cases first <;> simp [nextElement, separated, hskip, hc, skipBlanks_cons, isBlank]
    have hvalue := (congrArg (valueWithin n depth) hskip).symm.trans
      ((valueWithin_skipBlanks n depth _).trans hread)
    rw [elementsWithin, hws.nextElement, listed_cons, hnext]
    simp only [bind, Except.bind, hvalue, hitems]

/-- The members of an object come out one after the other. -/
lemma membersWithin_listed {depth : Depth} {members : List Member} {val : Member → Value}
    (h : ∀ m ∈ members, m.Labelled ∧ ReadsWithin depth m.value (val m)) (first : Bool)
    {ws : List Char} (hws : Blanks ws) {n : ℕ}
    (hn : 2 * (listed first (members.map Member.text)).length + first.toNat < n)
    (rest : List Char) :
    membersWithin n depth first (ws ++ (listed first (members.map Member.text) ++ '\x7d' :: rest))
      = .ok (members.map fun m => (m.key, val m), rest) := by
  induction members generalizing first ws n with
  | nil =>
    obtain ⟨n, rfl⟩ := Nat.exists_eq_succ_of_ne_zero (Nat.ne_of_gt (Nat.zero_lt_of_lt hn))
    rw [List.map_nil, listed_nil, List.nil_append, membersWithin, hws.nextMember, nextMember_close]
    rfl
  | cons m members ih =>
    obtain ⟨n, rfl⟩ := Nat.exists_eq_succ_of_ne_zero (Nat.ne_of_gt (Nat.zero_lt_of_lt hn))
    rw [List.forall_mem_cons] at h
    have hlength : 2 * m.value.length < n ∧
        2 * (listed false (members.map Member.text)).length + false.toNat < n := by
      have hcons := congrArg List.length (listed_cons first m.text (members.map Member.text) [])
      cases first <;> simp [separated, Member.text] at hcons hn <;> simp <;> omega
    obtain ⟨ws', hws', hread⟩ := h.1.2 n hlength.1 _
      (ends_listed (members.map Member.text) (Or.inr rfl) rest)
    have hmembers := ih h.2 false hws' hlength.2
    obtain ⟨behind, colonAndRest, hnext, hkey, hcolon⟩ := h.1.1.next (mannerOf depth) first
      (m.value ++ (listed false (members.map Member.text) ++ '\x7d' :: rest))
    rw [List.map_cons, listed_cons, Member.text, List.append_assoc, membersWithin, hws.nextMember,
      hnext]
    simp only [bind, Except.bind, hkey, hcolon, hread, hmembers, List.map_cons]

/-- Every text of the grammar is read as a value, if the nesting leaves room for it. -/
theorem ValueText.reads {d : ℕ} {text : List Char} (h : ValueText d text) {depth : Depth}
    (hroom : Room d depth) : ∃ v, ReadsWithin depth text v := by
  have hvalue : Nonempty Value := ⟨.null⟩
  induction h generalizing depth with
  | null d => exact ⟨_, readsWithin_null depth⟩
  | bool d b => exact ⟨_, readsWithin_bool depth b⟩
  | word d w => exact ⟨_, readsWithin_word depth w⟩
  | @string d body cs h =>
    rw [← String.toList_ofList (l := cs)] at h
    exact ⟨_, h.readsWithin depth⟩
  | @array d ws items hws _ ih =>
    obtain ⟨depth', hdescend, hroom'⟩ := hroom.descend
    -- the induction gives a value for each element on its own
    choose! val hval using fun item hitem => ih item hitem hroom'
    have hitems : List.Forall₂ (ReadsWithin depth') items (items.map val) := by
      rw [List.forall₂_map_right_iff, List.forall₂_same]
      exact hval
    refine ⟨.array (items.map val), fun n hn rest _ => ⟨[], blanks_nil, ?_⟩⟩
    obtain ⟨n, rfl⟩ := Nat.exists_eq_succ_of_ne_zero (Nat.ne_of_gt (Nat.zero_lt_of_lt hn))
    have hlength : 2 * (listed true items).length + true.toNat < n := by
      simp [listed] at hn ⊢
      omega
    have helements := elementsWithin_listed hitems true hws hlength rest
    have htext : '[' :: (ws ++ (commaSep items ++ [']'])) ++ rest
        = '[' :: (ws ++ (listed true items ++ ']' :: rest)) := by simp [listed]
    rw [htext, valueWithin, skipBlanks_cons (by decide)]
    simp [isDigit, bind, Except.bind, hdescend, helements]
  | @object d ws members hws hlabels _ ih =>
    obtain ⟨depth', hdescend, hroom'⟩ := hroom.descend
    choose! val hval using fun m hm => ih m hm hroom'
    refine ⟨.object (members.map fun m => (m.key, val m)), fun n hn rest _ => ⟨[], blanks_nil, ?_⟩⟩
    obtain ⟨n, rfl⟩ := Nat.exists_eq_succ_of_ne_zero (Nat.ne_of_gt (Nat.zero_lt_of_lt hn))
    have hlength : 2 * (listed true (members.map Member.text)).length + true.toNat < n := by
      simp [listed] at hn ⊢
      omega
    have hmembers := membersWithin_listed (fun m hm => ⟨hlabels m hm, hval m hm⟩) true hws hlength
      rest
    have htext : '\x7b' :: (ws ++ (commaSep (members.map Member.text) ++ ['\x7d'])) ++ rest
        = '\x7b' :: (ws ++ (listed true (members.map Member.text) ++ '\x7d' :: rest)) := by
      simp [listed]
    rw [htext, valueWithin, skipBlanks_cons (by decide)]
    simp [isDigit, bind, Except.bind, hdescend, hmembers]
  | padded hws _ hws' ih =>
    obtain ⟨v, hv⟩ := ih hroom
    exact ⟨v, hv.padded hws hws'⟩

end MayAlias.Json
