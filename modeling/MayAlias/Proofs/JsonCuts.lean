import MayAlias.Proofs.JsonShapes

/-!
# Texts that are cut off

A text that ends too early is told apart from one that is wrong.  Wherever a text that the printer
wrote is cut, in the middle of a word or between two, its reader finds nothing to object to before
the end and then reports that the text is truncated.

`CutOff ds r b` compares a reader's result `r` on a text that is cut off with its result `b` on the
whole text, of which `ds` is missing: the reader either notices, or has read the same and leaves
less behind.  That is kept when readers are run one after the other (`CutOff.bind`), and so it goes
from words to shapes and through the loops over elements and members.  Only a number does not show
where it ends.  A reader that ends with one may take the digits it sees for all there are
(`CutOrSpent`), but then nothing is left, and whoever reads on notices.
-/

namespace MayAlias

/-! ## Results on a text that is cut off -/

namespace Json

/-- Results that hold the rest of a text. -/
class Resumes (β : Type) where
  /-- The result with more text at the end. -/
  more : β → List Char → β

export Resumes (more)

instance : Resumes (List Char) := ⟨fun rest ds => rest ++ ds⟩

instance {α : Type} : Resumes (α × List Char) := ⟨fun r ds => (r.1, r.2 ++ ds)⟩

instance : Resumes Next where
  more next ds :=
    match next with
    | .stop rest => .stop (rest ++ ds)
    | .item rest => .item (rest ++ ds)

/-- The result is `b` with `ds` cut off, or says that the text is cut short. -/
def CutOff {β : Type} [Resumes β] (ds : List Char) (r : Except Fault β) (b : β) : Prop :=
  r = .error .truncated ∨ ∃ b', r = .ok b' ∧ more b' ds = b

/-- The result is `b` with `ds` cut off, or nothing of the text is left. -/
def CutOrSpent {α : Type} (ds : List Char) (r : Except Fault (α × List Char))
    (b : α × List Char) : Prop :=
  CutOff ds r b ∨ ∃ a, r = .ok (a, [])

section Bind

variable {β γ α : Type} [Resumes β] [Resumes γ] {ds : List Char}

lemma cutOff_truncated (b : β) : CutOff ds (.error .truncated) b := Or.inl rfl

/-- A result that leaves less behind. -/
lemma cutOff_ok {b' b : β} (h : more b' ds = b) : CutOff ds (.ok b') b := Or.inr ⟨b', rfl, h⟩

lemma cutOff_pair (a : α) {rest' rest : List Char} (h : rest' ++ ds = rest) :
    CutOff ds (.ok (a, rest')) (a, rest) :=
  cutOff_ok (congrArg (a, ·) h)

/-- A reader that goes on from a result that is cut off. -/
lemma CutOff.bind {r : Except Fault β} {b : β} (h : CutOff ds r b) {g : β → Except Fault γ} {c : γ}
    (hg : ∀ b', more b' ds = b → CutOff ds (g b') c) : CutOff ds (r >>= g) c := by
  rcases h with rfl | ⟨b', rfl, hb'⟩
  · exact cutOff_truncated c
  · exact hg b' hb'

section Pair

variable {r : Except Fault (α × List Char)} {a : α} {rest : List Char}
  {g : α × List Char → Except Fault γ} {c : γ}

/-- A reader that goes on has the same item and less text. -/
lemma CutOff.bind_pair (h : CutOff ds r (a, rest))
    (hg : ∀ rest', rest' ++ ds = rest → CutOff ds (g (a, rest')) c) : CutOff ds (r >>= g) c := by
  refine h.bind ?_
  rintro ⟨a', rest'⟩ heq
  obtain ⟨rfl, hrest⟩ := Prod.mk.inj heq
  exact hg rest' hrest

/-- A reader that goes on notices if nothing is left. -/
lemma CutOrSpent.bind_pair (h : CutOrSpent ds r (a, rest))
    (hspent : ∀ a, g (a, []) = .error .truncated)
    (hg : ∀ rest', rest' ++ ds = rest → CutOff ds (g (a, rest')) c) : CutOff ds (r >>= g) c := by
  rcases h with hcut | ⟨a', rfl⟩
  · exact hcut.bind_pair hg
  -- nothing is left, so what follows is missed
  · exact Or.inl (hspent a')

/-- Changing what has been read leaves the text alone. -/
lemma CutOrSpent.map {α' : Type} (f : α → α') (h : CutOrSpent ds r (a, rest)) :
    CutOrSpent ds (r >>= fun x => .ok (f x.1, x.2)) (f a, rest) := by
  rcases h with hcut | ⟨a', rfl⟩
  · exact Or.inl (hcut.bind_pair fun rest' hrest => cutOff_pair (f a) hrest)
  · exact Or.inr ⟨f a', rfl⟩

end Pair

end Bind

/-- The front of `front ++ rest` ends inside `front`, or behind it. -/
lemma cut_cases {cs ds front rest : List Char} (h : cs ++ ds = front ++ rest) :
    (∃ e es, cs ++ e :: es = front) ∨ ∃ cs', cs = front ++ cs' ∧ cs' ++ ds = rest := by
  rcases List.append_eq_append_iff.1 h with ⟨as, hfront, hds⟩ | ⟨cs', hcs, hrest⟩
  · cases as with
    | nil => exact Or.inr ⟨[], by simpa using hfront.symm, by simpa using hds⟩
    | cons e es => exact Or.inl ⟨e, es, hfront.symm⟩
  · exact Or.inr ⟨cs', hcs, hrest.symm⟩

/-! ## Words -/

/-- The text shows where it ends: wherever it is cut, the reader notices. -/
def Closed {α : Type} (item : Reader α) (text : List Char) (a : α) : Prop :=
  ∀ rest cs ds, cs ++ ds = text ++ rest → CutOff ds (item cs) (a, rest)

/-- Wherever the text is cut, the reader notices or uses up what there is. -/
def Cuttable {α : Type} (item : Reader α) (text : List Char) (a : α) : Prop :=
  ∀ rest, Ends rest → ∀ cs ds, cs ++ ds = text ++ rest → CutOrSpent ds (item cs) (a, rest)

lemma Closed.cuttable {α : Type} {item : Reader α} {text : List Char} {a : α}
    (h : Closed item text a) : Cuttable item text a :=
  fun rest _ cs ds heq => Or.inl (h rest cs ds heq)

/-- A name that ends too early is noticed at its end. -/
lemma cutOff_expect {es cs ds rest : List Char} (h : expect es (cs ++ ds) = .ok rest) :
    CutOff ds (expect es cs) rest := by
  induction es generalizing cs with
  | nil => exact cutOff_ok (Except.ok.inj h)
  | cons e es ih =>
    cases cs with
    | nil => exact cutOff_truncated rest
    | cons c cs =>
      rw [List.cons_append, expect] at h
      rw [expect]
      by_cases hc : c = e
      · rw [if_pos hc] at h ⊢
        exact ih h
      · simp [hc] at h

/-- A text that starts like `null` and is cut. -/
lemma cutOff_null {c : Char} {cs ds rest : List Char} (h : c :: cs ++ ds = "null".toList ++ rest) :
    c = 'n' ∧ CutOff ds (expect "ull".toList cs) rest := by
  have hnull : c :: (cs ++ ds) = 'n' :: ("ull".toList ++ rest) := h
  obtain ⟨hn, htail⟩ := List.cons.inj hnull
  refine ⟨hn, cutOff_expect ?_⟩
  rw [htail]
  rfl

/-- Hexadecimal digits are single bytes. -/
lemma utf8Size_of_hexDigit? {c : Char} (h : (hexDigit? c).isSome) : c.utf8Size = 1 := by
  have hascii : c.toNat ≤ 127 := by
    simp only [hexDigit?] at h
    split_ifs at h with h₁ h₂ h₃
    · exact h₁.2.trans (by decide)
    · exact h₂.2.trans (by decide)
    · exact h₃.2.trans (by decide)
    · simp at h
  rw [Char.utf8Size_eq_one_iff]
  exact hascii

/-- Fewer than four hexadecimal digits have fewer than four bytes. -/
lemma hexQuad_short {hs : List Char} (h : ∀ c ∈ hs, (hexDigit? c).isSome)
    (hlength : hs.length < 4) : hexQuad hs = .error .truncated := by
  have hsize : hs.foldr (fun c n => c.utf8Size + n) 0 = hs.length := by
    clear hlength
    induction hs with
    | nil => rfl
    | cons c hs ih =>
      rw [List.forall_mem_cons] at h
      rw [List.foldr_cons, ih h.2, utf8Size_of_hexDigit? h.1, List.length_cons, Nat.add_comm]
  have hfault : hexFault hs = .truncated := by rw [hexFault, hsize, if_pos hlength]
  rw [hexQuad, hfault]
  rintro a b c d tail rfl
  simp only [List.length_cons] at hlength
  omega

/-- An escape that lacks some of its four digits is noticed. -/
lemma escape_number_short (manner : Manner) {a b c d : Char} (ha : (hexDigit? a).isSome)
    (hb : (hexDigit? b).isSome) (hc : (hexDigit? c).isSome) (hd : (hexDigit? d).isSome)
    {es xs : List Char} {x : Char} (h : es ++ x :: xs = ['u', a, b, c, d]) :
    escape manner es = .error .truncated := by
  cases es with
  | nil => rfl
  | cons u hs =>
    obtain ⟨rfl, hdigits⟩ : u = 'u' ∧ hs ++ x :: xs = [a, b, c, d] := List.cons.inj h
    have hmem : ∀ y ∈ hs ++ x :: xs, (hexDigit? y).isSome := by
      rw [hdigits]
      simp [ha, hb, hc, hd]
    have hlength := congrArg List.length hdigits
    simp only [List.length_append, List.length_cons, List.length_nil] at hlength
    have hquad := hexQuad_short (fun y hy => hmem y (List.mem_append_left _ hy)) (by omega)
    rw [escape, if_pos rfl, numericEscape, hquad]
    rfl

/-- A cut within an escape is noticed if the reader of escapes notices it. -/
lemma stringBody_cut_escape {manner : Manner} {e cs xs : List Char} {x : Char}
    (hcut : cs ++ x :: xs = '\\' :: e)
    (he : ∀ es, es ++ x :: xs = e → escape manner es = .error .truncated) :
    stringBody manner 0 cs = .error .truncated := by
  cases cs with
  | nil => rfl
  | cons c es =>
    obtain ⟨rfl, hes⟩ := List.cons.inj hcut
    rw [stringBody, if_neg (by decide), if_pos rfl, he es hes]
    rfl

/-- A string that is cut anywhere, within an escape or not. -/
lemma Spells.cutOff_stringBody {body chars : List Char} (h : Spells body chars) (manner : Manner)
    {rest cs ds : List Char} (heq : cs ++ ds = body ++ '"' :: rest) :
    CutOff ds (Json.stringBody manner 0 cs) (chars, rest) := by
  induction h generalizing cs with
  | nil =>
    cases cs with
    | nil => exact cutOff_truncated _
    | cons c cs =>
      obtain ⟨rfl, rfl⟩ := List.cons.inj heq
      exact cutOff_pair [] rfl
  | @plain c body chars hquote hslash hcontrol _ ih =>
    cases cs with
    | nil => exact cutOff_truncated _
    | cons c cs =>
      obtain ⟨rfl, htail⟩ := List.cons.inj heq
      rw [Json.stringBody, if_neg hquote, if_neg hslash, hcontrol]
      exact (ih htail).bind_pair fun rest' hrest => cutOff_pair (c :: chars) hrest
  | @letter e c body chars he _ ih =>
    have hfront : cs ++ ds = ['\\', e] ++ (body ++ '"' :: rest) := heq
    rcases cut_cases hfront with ⟨x, xs, hcut⟩ | ⟨cs, rfl, htail⟩
    -- the cut falls into the escape, and nothing stands behind its backslash
    · refine Or.inl (stringBody_cut_escape hcut fun es hes => ?_)
      obtain ⟨rfl, _⟩ := (List.append_eq_singleton_iff.1 hes).resolve_right (by simp)
      rfl
    · rw [List.cons_append, stringBody_escape [e] (escape_letter manner he cs)]
      exact (ih htail).bind_pair fun rest' hrest => cutOff_pair (c :: chars) hrest
  | @number a b c d i j k l body chars ha hb hc hd hplane _ ih =>
    have hfront : cs ++ ds = ['\\', 'u', a, b, c, d] ++ (body ++ '"' :: rest) := heq
    rcases cut_cases hfront with ⟨x, xs, hcut⟩ | ⟨cs, rfl, htail⟩
    · refine Or.inl (stringBody_cut_escape hcut fun es hes => ?_)
      exact escape_number_short manner (by simp [ha]) (by simp [hb]) (by simp [hc]) (by simp [hd])
        hes
    · have hescape := escape_number manner ha hb hc hd hplane cs
      rw [List.cons_append, stringBody_escape ['u', a, b, c, d] hescape]
      exact (ih htail).bind_pair fun rest' hrest => cutOff_pair (_ :: chars) hrest

/-- The closing quote shows where a string ends. -/
lemma closed_string (manner : Manner) (s : String) :
    Closed (string manner) (s.toList.flatMap quoteChar ++ ['"']) s := by
  intro rest cs ds heq
  have hbody := (spells_quoted s.toList).cutOff_stringBody manner
    (heq.trans (List.append_cons _ _ _).symm)
  rw [string]
  refine hbody.bind_pair fun rest' hrest => ?_
  show CutOff ds (.ok (String.ofList s.toList, rest')) (s, rest)
  rw [String.ofList_toList]
  exact cutOff_pair s hrest

/-- What is written of a number so far is a number, and not a larger one. -/
lemma exists_toDigits_eq_of_append {n : ℕ} {cs es : List Char} (h : cs ++ es = Nat.toDigits 10 n)
    (hcs : cs ≠ []) : ∃ m ≤ n, cs = Nat.toDigits 10 m := by
  -- the last digit is taken off `n` until the cut is reached
  induction n using Nat.strong_induction_on generalizing es with
  | _ n ih =>
    rcases List.eq_nil_or_concat es with rfl | ⟨es, e, rfl⟩
    · exact ⟨n, le_rfl, by simpa using h⟩
    · rw [List.concat_eq_append, ← List.append_assoc] at h
      rcases Nat.lt_or_ge n 10 with hn | hn
      · rw [Nat.toDigits_of_lt_base hn] at h
        have hnil := (List.append_eq_singleton_iff.1 h)
        simp [hcs] at hnil
      · rw [Nat.toDigits_of_base_le (by decide) hn] at h
        obtain ⟨m, hm, hdigits⟩ := ih (n / 10) (by omega) (List.append_inj_left' h rfl)
        exact ⟨m, hm.trans (Nat.div_le_self n 10), hdigits⟩

lemma ends_of_append {cs ds : List Char} (h : Ends (cs ++ ds)) : Ends cs := by
  cases cs with
  | nil => exact ends_nil
  | cons c cs => exact h

/-- A word that is cut within its digits is taken for a smaller one, and nothing is left. -/
lemma cuttable_word (w : UInt64) : Cuttable word (printWord w) w := by
  intro rest hrest cs ds heq
  rcases cut_cases heq with ⟨x, xs, hcut⟩ | ⟨cs, rfl, htail⟩
  · by_cases hcs : cs = []
    · subst hcs
      exact Or.inl (cutOff_truncated _)
    · -- the digits that are left are those of a smaller word
      obtain ⟨m, hm, rfl⟩ := exists_toDigits_eq_of_append hcut hcs
      have hsize : (UInt64.ofNat m).toNat = m :=
        UInt64.toNat_ofNat_of_lt' (hm.trans_lt w.toNat_lt)
      have hread := inverts_word.reads (UInt64.ofNat m) [] ends_nil
      rw [List.append_nil, printWord, hsize] at hread
      exact Or.inr ⟨UInt64.ofNat m, hread⟩
  · subst htail
    rw [inverts_word.reads w cs (ends_of_append hrest)]
    exact Or.inl (cutOff_pair w rfl)

/-! ## Punctuation -/

/-- A text with a cut has nothing but blanks before it, or goes on as the whole text does. -/
lemma skipBlanks_cut (cs ds : List Char) :
    skipBlanks cs = [] ∨
      ∃ c rest, skipBlanks cs = c :: rest ∧ skipBlanks (cs ++ ds) = c :: (rest ++ ds) := by
  have happend : skipBlanks (cs ++ ds) = _ := List.dropWhile_append
  cases hskip : skipBlanks cs with
  | nil => exact Or.inl rfl
  | cons c rest =>
    rw [skipBlanks] at hskip
    rw [hskip] at happend
    exact Or.inr ⟨c, rest, rfl, happend⟩

section Punctuation

variable {cs ds : List Char}

/-- A key starts with a quote, or the text has ended. -/
lemma cutOff_openKey {next : Next} (h : openKey (cs ++ ds) = .ok next) :
    CutOff ds (openKey cs) next := by
  cases cs with
  | nil => exact cutOff_truncated next
  | cons c cs =>
    by_cases hc : c = '"'
    · rw [List.cons_append, openKey, if_pos hc] at h
      rw [openKey, if_pos hc]
      exact cutOff_ok (Except.ok.inj h)
    · simp [openKey, hc] at h

/-- Whether there is another element is seen from the next characters, or the text has ended. -/
lemma cutOff_nextElement {first : Bool} {next : Next}
    (h : nextElement first (cs ++ ds) = .ok next) : CutOff ds (nextElement first cs) next := by
  unfold nextElement at h ⊢
  rcases skipBlanks_cut cs ds with hskip | ⟨c, rest, hskip, hwhole⟩
  · rw [hskip]
    exact cutOff_truncated next
  simp only [hwhole] at h
  simp only [hskip]
  by_cases hclose : c = ']'
  · rw [if_pos hclose] at h ⊢
    exact cutOff_ok (Except.ok.inj h)
  by_cases hfirst : first = true
  · rw [if_neg hclose, if_pos hfirst] at h ⊢
    exact cutOff_ok (Except.ok.inj h)
  by_cases hcomma : c = ','
  · rw [if_neg hclose, if_neg hfirst, if_pos hcomma] at h ⊢
    -- behind a comma there may be nothing but blanks
    rcases skipBlanks_cut rest ds with hskip' | ⟨d, rest', hskip', hwhole'⟩
    · rw [hskip']
      exact cutOff_truncated next
    · simp only [hwhole'] at h
      simp only [hskip']
      by_cases hd : d = ']'
      · simp [hd] at h
      · rw [if_neg hd] at h ⊢
        exact cutOff_ok (Except.ok.inj h)
  · simp [hclose, hfirst, hcomma] at h

/-- Whether there is another member is seen from the next characters, or the text has ended. -/
lemma cutOff_nextMember {first : Bool} {next : Next} (h : nextMember first (cs ++ ds) = .ok next) :
    CutOff ds (nextMember first cs) next := by
  unfold nextMember at h ⊢
  rcases skipBlanks_cut cs ds with hskip | ⟨c, rest, hskip, hwhole⟩
  · rw [hskip]
    exact cutOff_truncated next
  simp only [hwhole] at h
  simp only [hskip]
  by_cases hclose : c = '\x7d'
  · rw [if_pos hclose] at h ⊢
    exact cutOff_ok (Except.ok.inj h)
  by_cases hfirst : first = true
  · rw [if_neg hclose, if_pos hfirst] at h ⊢
    exact cutOff_openKey h
  by_cases hcomma : c = ','
  · rw [if_neg hclose, if_neg hfirst, if_pos hcomma] at h ⊢
    rcases skipBlanks_cut rest ds with hskip' | ⟨d, rest', hskip', hwhole'⟩
    · rw [hskip']
      exact cutOff_truncated next
    · rw [hwhole'] at h
      rw [hskip']
      exact cutOff_openKey h
  · simp [hclose, hfirst, hcomma] at h

/-- A single mark that has to come next. -/
lemma cutOff_mark {f : List Char → Except Fault (List Char)} {mark : Char}
    (hf : ∀ cs, f cs = match skipBlanks cs with
      | [] => .error .truncated
      | c :: rest => if c = mark then .ok rest else .error .malformed)
    {rest : List Char} (h : f (cs ++ ds) = .ok rest) : CutOff ds (f cs) rest := by
  rw [hf] at h ⊢
  rcases skipBlanks_cut cs ds with hskip | ⟨c, rest', hskip, hwhole⟩
  · rw [hskip]
    exact cutOff_truncated rest
  · simp only [hwhole] at h
    simp only [hskip]
    by_cases hc : c = mark
    · rw [if_pos hc] at h ⊢
      exact cutOff_ok (Except.ok.inj h)
    · simp [hc] at h

lemma cutOff_colon {rest : List Char} (h : colon (cs ++ ds) = .ok rest) :
    CutOff ds (colon cs) rest :=
  cutOff_mark (fun _ => rfl) h

lemma cutOff_closeArray {rest : List Char} (h : closeArray (cs ++ ds) = .ok rest) :
    CutOff ds (closeArray cs) rest :=
  cutOff_mark (fun _ => rfl) h

end Punctuation

/-! ## Shapes -/

/-- Blanks do not come first where the text is that of a value. -/
lemma skipBlanks_of_opens {text rest cs ds : List Char} (h : Opens text)
    (heq : cs ++ ds = text ++ rest) : skipBlanks cs = cs := by
  obtain ⟨c, tail, rfl, hblank, _⟩ := h
  cases cs with
  | nil => rfl
  | cons c' cs =>
    obtain ⟨rfl, _⟩ := List.cons.inj heq
    exact skipBlanks_cons hblank cs

/-- The text of a string is read as a string. -/
lemma closed_text (s : String) : Closed text (quote s) s := by
  intro rest cs ds heq
  rw [text, skipBlanks_of_opens (opens_quote s) heq]
  cases cs with
  | nil => exact cutOff_truncated _
  | cons c cs =>
    obtain ⟨rfl, htail⟩ := List.cons.inj heq
    exact closed_string .exact s rest cs ds htail

/-- A value that may be absent, if the reader of those that are present notices an empty text. -/
lemma cuttable_optional {α : Type} {item : Reader α} {print : α → List Char}
    (hempty : item [] = .error .truncated) (hopens : ∀ a, Opens (print a))
    (h : ∀ a, Cuttable item (print a) a) (o : Option α) :
    Cuttable (optional item) (printOptional print o) o := by
  intro rest hrest cs ds heq
  cases o with
  | none =>
    cases cs with
    | nil =>
      have hspent : optional item [] = .error .truncated := by
        show item [] >>= _ = _
        rw [hempty]
        rfl
      exact Or.inl (Or.inl hspent)
    | cons c cs =>
      obtain ⟨rfl, hcut⟩ := cutOff_null heq
      exact Or.inl (hcut.bind fun rest' hrest => cutOff_pair none hrest)
  | some a =>
    have hskip := skipBlanks_of_opens (hopens a) heq
    -- what is present does not start as `null` does
    have hoptional : optional item cs = item cs >>= fun x => .ok (some x.1, x.2) := by
      obtain ⟨c, tail, htext, _, _, hn⟩ := hopens a
      rw [optional, hskip]
      split
      · rw [printOptional, htext] at heq
        exact absurd (List.cons.inj heq).1.symm hn
      · rfl
    rw [hoptional]
    exact (h a rest hrest cs ds heq).map some

/-- What is left of a cut text behind its first item is shorter than the text. -/
lemma length_lt_of_cut {first : Bool} {item tail cs rest ds : List Char} (hitem : item ≠ [])
    (heq : cs ++ ds = separated first (item ++ tail)) (hrest : rest ++ ds = tail) :
    rest.length < cs.length := by
  have hpos := List.length_pos_of_ne_nil hitem
  have hlength := congrArg List.length heq
  subst hrest
  cases first <;> simp [separated] at hlength <;> omega

/-- Behind an element the text has to go on. -/
lemma itemsWithin_nil {α : Type} (item : Reader α) {n : ℕ} (hn : 0 < n) :
    itemsWithin item n false [] = .error .truncated := by
  obtain ⟨n, rfl⟩ := Nat.exists_eq_add_of_le' hn
  rfl

/-- The elements of an array, one after the other.  The bound exceeds the length of the text that
is left, which is not the whole text. -/
lemma cutOff_itemsWithin {α : Type} {item : Reader α} {texts : List (List Char)} {items : List α}
    (h : List.Forall₂ (fun text a => Opens text ∧ Cuttable item text a) texts items) (first : Bool)
    {n : ℕ} {rest cs ds : List Char} (hn : cs.length < n)
    (heq : cs ++ ds = listed first texts ++ ']' :: rest) :
    CutOff ds (itemsWithin item n first cs) (items, rest) := by
  induction h generalizing first n cs with
  | nil =>
    obtain ⟨n, rfl⟩ := Nat.exists_eq_add_of_lt hn
    have hclose : nextElement first (cs ++ ds) = .ok (.stop rest) := by
      rw [heq, listed_nil, List.nil_append, nextElement_close]
    rw [itemsWithin]
    refine (cutOff_nextElement hclose).bind ?_
    rintro (rest' | rest') hrest
    · exact cutOff_pair [] (Next.stop.inj hrest)
    · cases hrest
  | @cons text a texts items hitem _ ih =>
    obtain ⟨n, rfl⟩ : ∃ k, n = k + 1 := ⟨n - 1, by omega⟩
    cases cs with
    | nil => exact cutOff_truncated _
    | cons c cs =>
      rw [listed_cons] at heq
      have hnext := nextElement_separated first hitem.1 (listed false texts ++ ']' :: rest)
      rw [← heq] at hnext
      rw [itemsWithin]
      refine (cutOff_nextElement hnext).bind ?_
      rintro (cs' | cs') hcs'
      · cases hcs'
      · have hread := hitem.2 _ (ends_listed texts (Or.inl rfl) rest) cs' ds (Next.item.inj hcs')
        rw [List.length_cons] at hn
        refine hread.bind_pair (fun a' => ?_) fun rest' hrest => ?_
        -- the element may be a number that is cut, and then its comma or bracket is missing
        · simp only [itemsWithin_nil item (show 0 < n by omega)]
          rfl
        · have hne : text ≠ [] := by
            obtain ⟨d, tail, rfl, _⟩ := hitem.1
            exact List.cons_ne_nil d tail
          have hlt := length_lt_of_cut hne heq hrest
          rw [List.length_cons] at hlt
          exact (ih false (by omega) hrest).bind_pair
            fun rest'' hrest' => cutOff_pair (a :: items) hrest'

/-- The closing bracket shows where an array ends. -/
lemma closed_array {α : Type} {item : Reader α} {texts : List (List Char)} {items : List α}
    (h : List.Forall₂ (fun text a => Opens text ∧ Cuttable item text a) texts items) :
    Closed (array item) ('[' :: commaSep texts ++ [']']) items := by
  intro rest cs ds heq
  cases cs with
  | nil => exact cutOff_truncated _
  | cons c cs =>
    obtain ⟨rfl, htail⟩ := List.cons.inj heq
    rw [array, skipBlanks_cons (by decide)]
    exact cutOff_itemsWithin h true (Nat.lt_succ_self _) (htail.trans (List.append_cons _ _ _).symm)

/-- A string among the values. -/
lemma closed_value_quote (depth : Depth) (s : String) :
    Closed (value depth) (quote s) (.string s) := by
  intro rest cs ds heq
  cases cs with
  | nil => exact cutOff_truncated _
  | cons c cs =>
    obtain ⟨rfl, htail⟩ := List.cons.inj heq
    rw [value, valueWithin, skipBlanks_cons (by decide)]
    exact (closed_string (mannerOf depth) s rest cs ds htail).bind_pair
      fun rest' hrest => cutOff_pair (Value.string s) hrest

lemma closed_value_null (depth : Depth) : Closed (value depth) "null".toList .null := by
  intro rest cs ds heq
  cases cs with
  | nil => exact cutOff_truncated _
  | cons c cs =>
    obtain ⟨rfl, hcut⟩ := cutOff_null heq
    rw [value, valueWithin, skipBlanks_cons (by decide)]
    exact hcut.bind fun rest' hrest => cutOff_pair Value.null hrest

/-- A whole text that lacks its end is truncated. -/
lemma Closed.whole {α : Type} {item : Reader α} {text cs ds : List Char} {a : α}
    (h : Closed item text a) (heq : cs ++ ds = text) (hds : ds ≠ []) :
    whole item (String.ofList cs) = .error .truncated := by
  rw [Json.whole, String.toList_ofList]
  rcases h [] cs ds (by rw [heq, List.append_nil]) with htruncated | ⟨⟨a', rest⟩, _, hrest⟩
  · rw [htruncated]
    rfl
  · exact absurd (List.append_eq_nil_iff.1 (Prod.mk.inj hrest).2).2 hds

end Json

end MayAlias
