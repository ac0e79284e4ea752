import Mathlib.Data.List.Basic
import Mathlib.Order.Nat
import MayAlias.Procedure.Json
import MayAlias.Proofs.Except

/-!
# Bounds on reading

The readers of arrays and objects go on with what is left of a text, and a number bounds how often
they may do so.  The number is bookkeeping: every reader takes something off the front of the text
(`Consumes`), so a number that exceeds the length of the text is not used up.  This is stated as a
congruence.  Two runs agree whenever both numbers are large enough, and those that the readers start
from are.
-/

namespace MayAlias

namespace Json

/-- What is left of a text is shorter than the text. -/
def Consumes {α : Type} (item : Reader α) : Prop :=
  ∀ ⦃cs : List Char⦄ ⦃a : α⦄ ⦃rest : List Char⦄, item cs = .ok (a, rest) → rest.length < cs.length

/-- A reader that goes on with what another has read leaves the same text. -/
lemma exists_of_map {α β : Type} {x : Except Fault (α × List Char)} {f : α → β} {b : β}
    {rest : List Char} (h : (x >>= fun r => .ok (f r.1, r.2)) = .ok (b, rest)) :
    ∃ a, x = .ok (a, rest) := by
  obtain ⟨⟨a, rest'⟩, hx, hok⟩ := bind_eq_ok_iff.1 h
  obtain ⟨_, rfl⟩ := Prod.mk.inj (Except.ok.inj hok)
  exact ⟨a, hx⟩

/-! ## Words -/

/-- Skipping blanks adds nothing. -/
lemma length_skipBlanks_le (cs : List Char) : (skipBlanks cs).length ≤ cs.length :=
  (List.dropWhile_suffix isBlank).length_le

/-- The first character that is not blank is taken off. -/
lemma length_lt_of_skipBlanks {cs rest : List Char} {c : Char} (h : skipBlanks cs = c :: rest) :
    rest.length < cs.length := by
  have hle := length_skipBlanks_le cs
  rwa [h, List.length_cons] at hle

/-- The rest of a name is taken off. -/
lemma length_of_expect {es cs rest : List Char} (h : expect es cs = .ok rest) :
    rest.length ≤ cs.length := by
  induction es generalizing cs with
  | nil => exact (congrArg List.length (Except.ok.inj h)).ge
  | cons e es ih =>
    cases cs with
    | nil => simp [expect] at h
    | cons c cs =>
      rw [expect] at h
      split at h
      · exact (ih h).trans (Nat.le_succ _)
      · simp at h

/-- The closing quote is taken off, whatever is read before it. -/
lemma consumes_stringBody (manner : Manner) (k : ℕ) : Consumes (stringBody manner k) := by
  intro cs
  induction cs generalizing k with
  | nil =>
    intro es rest h
    cases k <;> simp [stringBody] at h
  | cons c cs ih =>
    intro es rest h
    have hlater : ∀ {k es'}, stringBody manner k cs = .ok (es', rest) →
        rest.length < (c :: cs).length := fun hrest => (ih _ hrest).trans (Nat.lt_succ_self _)
    cases k with
    | succ k => exact hlater h
    | zero =>
      rw [stringBody] at h
      split_ifs at h
      · obtain ⟨_, rfl⟩ := Prod.mk.inj (Except.ok.inj h)
        exact Nat.lt_succ_self _
      · obtain ⟨e, _, h⟩ := bind_eq_ok_iff.1 h
        obtain ⟨_, hbody⟩ := exists_of_map h
        exact hlater hbody
      · obtain ⟨_, hbody⟩ := exists_of_map h
        exact hlater hbody

/-- A string takes off its closing quote at least. -/
lemma consumes_string (manner : Manner) : Consumes (string manner) := by
  intro cs s rest h
  obtain ⟨_, hbody⟩ := exists_of_map h
  exact consumes_stringBody manner 0 hbody

/-- There is at least one digit. -/
lemma consumes_digits (manner : Manner) : Consumes (digits manner) := by
  intro cs ds rest h
  have hlength := congrArg List.length (List.takeWhile_append_dropWhile (p := isDigit) (l := cs))
  rw [List.length_append] at hlength
  rw [digits] at h
  split at h
  · simp at h
  · next hne =>
    obtain ⟨_, rfl⟩ := Prod.mk.inj (Except.ok.inj h)
    have hpos := List.length_pos_of_ne_nil hne
    omega

/-- A fraction may be missing, and then nothing is taken off. -/
lemma length_of_fractionPart {manner : Manner} {cs ds rest : List Char}
    (h : fractionPart manner cs = .ok (ds, rest)) : rest.length ≤ cs.length := by
  rw [fractionPart.eq_def] at h
  split at h
  · exact (consumes_digits manner h).le.trans (Nat.le_succ _)
  · obtain ⟨_, rfl⟩ := Prod.mk.inj (Except.ok.inj h)
    exact Nat.le_refl _

/-- So may an exponent. -/
lemma length_of_exponentPart {manner : Manner} {cs rest : List Char}
    {e : Option (Bool × List Char)} (h : exponentPart manner cs = .ok (e, rest)) :
    rest.length ≤ cs.length := by
  cases cs with
  | nil =>
    obtain ⟨_, rfl⟩ := Prod.mk.inj (Except.ok.inj h)
    exact Nat.le_refl _
  | cons c cs =>
    rw [exponentPart.eq_def] at h
    dsimp only at h
    split_ifs at h
    · obtain ⟨⟨ds, rest'⟩, hdigits, hok⟩ := bind_eq_ok_iff.1 h
      obtain ⟨_, rfl⟩ := Prod.mk.inj (Except.ok.inj hok)
      have hlt := consumes_digits manner hdigits
      -- a sign may stand before the digits
      split at hlt <;> simp only [List.length_cons] at hlt ⊢ <;> omega
    · obtain ⟨_, rfl⟩ := Prod.mk.inj (Except.ok.inj h)
      exact Nat.le_refl _

lemma consumes_wholePart (manner : Manner) : Consumes (wholePart manner) := by
  intro cs ds rest h
  obtain ⟨⟨ds', rest'⟩, hdigits, hok⟩ := bind_eq_ok_iff.1 h
  dsimp only at hok
  split at hok
  · simp at hok
  · obtain ⟨_, rfl⟩ := Prod.mk.inj (Except.ok.inj hok)
    exact consumes_digits manner hdigits

/-- A numeral has digits before its fraction and its exponent. -/
lemma consumes_numeral (manner : Manner) : Consumes (numeral manner) := by
  intro cs n rest h
  rw [numeral.eq_def] at h
  -- a sign may stand before the digits
  split at h
  next negative cs' hsign =>
  have hcs' : cs'.length ≤ cs.length := by
    split at hsign <;> obtain ⟨_, rfl⟩ := Prod.mk.inj hsign <;> simp
  obtain ⟨⟨whole, cs₁⟩, hwhole, h⟩ := bind_eq_ok_iff.1 h
  obtain ⟨⟨fraction, cs₂⟩, hfraction, h⟩ := bind_eq_ok_iff.1 h
  obtain ⟨⟨exponent, cs₃⟩, hexponent, h⟩ := bind_eq_ok_iff.1 h
  dsimp only at h
  split at h
  · simp at h
  · obtain ⟨_, rfl⟩ := Prod.mk.inj (Except.ok.inj h)
    have hlt := consumes_wholePart manner hwhole
    have hle := length_of_fractionPart hfraction
    have hle' := length_of_exponentPart hexponent
    omega

/-! ## Punctuation -/

/-- The closing bracket is taken off. -/
lemma length_of_nextElement_stop {first : Bool} {cs rest : List Char}
    (h : nextElement first cs = .ok (.stop rest)) : rest.length < cs.length := by
  rw [nextElement] at h
  cases hskip : skipBlanks cs with
  | nil => simp [hskip] at h
  | cons c tail =>
    simp only [hskip] at h
    split_ifs at h
    · obtain rfl := Next.stop.inj (Except.ok.inj h)
      exact length_lt_of_skipBlanks hskip
    · simp at h
    · cases hskip' : skipBlanks tail with
      | nil => simp [hskip'] at h
      | cons d tail' =>
        simp only [hskip'] at h
        split at h <;> simp at h

/-- An element that is not the first stands behind a comma. -/
lemma length_of_nextElement_item {first : Bool} {cs rest : List Char}
    (h : nextElement first cs = .ok (.item rest)) :
    rest.length ≤ cs.length ∧ (first = false → rest.length < cs.length) := by
  rw [nextElement] at h
  cases hskip : skipBlanks cs with
  | nil => simp [hskip] at h
  | cons c tail =>
    have hle := length_skipBlanks_le cs
    simp only [hskip] at h hle
    split_ifs at h with _ hfirst
    · simp at h
    -- the first element has no comma before it, and blanks are all that is skipped
    · obtain rfl := Next.item.inj (Except.ok.inj h)
      exact ⟨hle, fun hfalse => absurd (hfirst.symm.trans hfalse) (by decide)⟩
    · cases hskip' : skipBlanks tail with
      | nil => simp [hskip'] at h
      | cons d tail' =>
        have hle' := length_skipBlanks_le tail
        simp only [hskip'] at h hle'
        split at h
        · simp at h
        · obtain rfl := Next.item.inj (Except.ok.inj h)
          rw [List.length_cons] at hle
          exact ⟨by omega, fun _ => by omega⟩

/-- The quote of a key is taken off. -/
lemma length_of_openKey {cs rest : List Char} {next : Next} (h : openKey cs = .ok next)
    (hnext : next = .stop rest ∨ next = .item rest) : rest.length < cs.length := by
  cases cs with
  | nil => simp [openKey] at h
  | cons c cs =>
    rw [openKey] at h
    split at h
    · obtain rfl := Except.ok.inj h
      rcases hnext with hnext | hnext
      · cases hnext
      · obtain rfl := Next.item.inj hnext
        exact Nat.lt_succ_self _
    · simp at h

/-- A brace or the quote of a key is taken off. -/
lemma length_of_nextMember {first : Bool} {cs rest : List Char} {next : Next}
    (h : nextMember first cs = .ok next) (hnext : next = .stop rest ∨ next = .item rest) :
    rest.length < cs.length := by
  rw [nextMember] at h
  cases hskip : skipBlanks cs with
  | nil => simp [hskip] at h
  | cons c tail =>
    have htail := length_lt_of_skipBlanks hskip
    have hle := length_skipBlanks_le cs
    simp only [hskip] at h hle
    split_ifs at h
    · obtain rfl := Except.ok.inj h
      rcases hnext with hnext | hnext
      · obtain rfl := Next.stop.inj hnext
        exact htail
      · cases hnext
    · exact (length_of_openKey h hnext).trans_le hle
    · have hle' := length_skipBlanks_le tail
      have hkey := length_of_openKey h hnext
      omega

/-- A single mark that has to come next is taken off. -/
lemma length_of_mark {f : List Char → Except Fault (List Char)} {mark : Char}
    (hf : ∀ cs, f cs = match skipBlanks cs with
      | [] => .error .truncated
      | c :: rest => if c = mark then .ok rest else .error .malformed)
    {cs rest : List Char} (h : f cs = .ok rest) : rest.length < cs.length := by
  rw [hf] at h
  cases hskip : skipBlanks cs with
  | nil => simp [hskip] at h
  | cons c tail =>
    simp only [hskip] at h
    split at h
    · obtain rfl := Except.ok.inj h
      exact length_lt_of_skipBlanks hskip
    · simp at h

/-- The colon is taken off. -/
lemma length_of_colon {cs rest : List Char} (h : colon cs = .ok rest) : rest.length < cs.length :=
  length_of_mark (fun _ => rfl) h

lemma length_of_closeArray {cs rest : List Char} (h : closeArray cs = .ok rest) :
    rest.length < cs.length :=
  length_of_mark (fun _ => rfl) h

/-! ## Values -/

section Consumes

variable {n : ℕ}

/-- One more call reads a value, if arrays and objects are read below it. -/
lemma consumes_valueWithin_succ (helements : ∀ depth, Consumes (elementsWithin n depth true))
    (hmembers : ∀ depth, Consumes (membersWithin n depth true)) (depth : Depth) :
    Consumes (valueWithin (n + 1) depth) := by
  intro cs v rest h
  rw [valueWithin] at h
  cases hskip : skipBlanks cs with
  | nil => simp [hskip] at h
  | cons c tail =>
    have htail := length_lt_of_skipBlanks hskip
    -- the three names end alike
    have hname : ∀ {name : List Char} {a : Value},
        (expect name tail >>= fun rest => .ok (a, rest)) = .ok (v, rest) →
          rest.length < cs.length := by
      intro name a hread
      obtain ⟨rest', hexpect, hok⟩ := bind_eq_ok_iff.1 hread
      obtain ⟨_, rfl⟩ := Prod.mk.inj (Except.ok.inj hok)
      exact (length_of_expect hexpect).trans_lt htail
    simp only [hskip] at h
    split_ifs at h
    · exact hname h
    · exact hname h
    · exact hname h
    · obtain ⟨_, hnumeral⟩ := exists_of_map h
      have hlt := consumes_numeral _ hnumeral
      rw [List.length_cons] at hlt
      omega
    · obtain ⟨_, hstring⟩ := exists_of_map h
      exact (consumes_string _ hstring).trans htail
    · obtain ⟨depth', _, h⟩ := bind_eq_ok_iff.1 h
      obtain ⟨_, helems⟩ := exists_of_map h
      exact (helements depth' helems).trans htail
    · obtain ⟨depth', _, h⟩ := bind_eq_ok_iff.1 h
      obtain ⟨_, hmems⟩ := exists_of_map h
      exact (hmembers depth' hmems).trans htail

/-- Each element is taken off, and then the others. -/
lemma consumes_elementsWithin_succ {depth : Depth} (hvalue : Consumes (valueWithin n depth))
    (helements : Consumes (elementsWithin n depth false)) (first : Bool) :
    Consumes (elementsWithin (n + 1) depth first) := by
  intro cs vs rest h
  rw [elementsWithin] at h
  obtain ⟨next, hnext, h⟩ := bind_eq_ok_iff.1 h
  cases next with
  | stop rest' =>
    obtain ⟨_, rfl⟩ := Prod.mk.inj (Except.ok.inj h)
    exact length_of_nextElement_stop hnext
  | item rest' =>
    obtain ⟨⟨v, rest''⟩, hread, h⟩ := bind_eq_ok_iff.1 h
    obtain ⟨_, hmore⟩ := exists_of_map h
    have hle := (length_of_nextElement_item hnext).1
    exact ((helements hmore).trans (hvalue hread)).trans_le hle

/-- Each member is taken off with its key and colon, and then the others. -/
lemma consumes_membersWithin_succ {depth : Depth} (hvalue : Consumes (valueWithin n depth))
    (hmembers : Consumes (membersWithin n depth false)) (first : Bool) :
    Consumes (membersWithin (n + 1) depth first) := by
  intro cs ms rest h
  rw [membersWithin] at h
  obtain ⟨next, hnext, h⟩ := bind_eq_ok_iff.1 h
  cases next with
  | stop rest' =>
    obtain ⟨_, rfl⟩ := Prod.mk.inj (Except.ok.inj h)
    exact length_of_nextMember hnext (Or.inl rfl)
  | item rest' =>
    obtain ⟨⟨key, rest₁⟩, hkey, h⟩ := bind_eq_ok_iff.1 h
    obtain ⟨rest₂, hcolon, h⟩ := bind_eq_ok_iff.1 h
    obtain ⟨⟨v, rest₃⟩, hread, h⟩ := bind_eq_ok_iff.1 h
    obtain ⟨_, hmore⟩ := exists_of_map h
    have hitem := length_of_nextMember hnext (Or.inr rfl)
    have hlt := consumes_string _ hkey
    have hlt' := length_of_colon hcolon
    have hlt'' := (hmembers hmore).trans (hvalue hread)
    omega

end Consumes

/-- However often the readers of values may call one another, they take something off the text. -/
lemma consumes_within (n : ℕ) :
    (∀ depth, Consumes (valueWithin n depth)) ∧
      (∀ depth first, Consumes (elementsWithin n depth first)) ∧
        ∀ depth first, Consumes (membersWithin n depth first) := by
  induction n with
  | zero =>
    refine ⟨fun depth cs a rest h => ?_, fun depth first cs a rest h => ?_,
      fun depth first cs a rest h => ?_⟩
    · simp [valueWithin] at h
    · simp [elementsWithin] at h
    · simp [membersWithin] at h
  | succ n ih =>
    obtain ⟨hvalue, helements, hmembers⟩ := ih
    exact ⟨consumes_valueWithin_succ (fun depth => helements depth true)
        (fun depth => hmembers depth true),
      fun depth => consumes_elementsWithin_succ (hvalue depth) (helements depth false),
      fun depth => consumes_membersWithin_succ (hvalue depth) (hmembers depth false)⟩

/-- A value takes something off the text. -/
lemma consumes_value (depth : Depth) : Consumes (value depth) :=
  fun _ _ _ h => (consumes_within _).1 depth h

lemma consumes_moreElements (depth : Depth) : Consumes (moreElements depth) :=
  fun _ _ _ h => (consumes_within _).2.1 depth false h

section Congruence

variable {n m : ℕ} {depth : Depth} {cs : List Char}

/-- What a value needs are the elements or members behind its first character. -/
lemma valueWithin_congr_succ
    (helements : ∀ {depth rest}, rest.length < cs.length →
      elementsWithin n depth true rest = elementsWithin m depth true rest)
    (hmembers : ∀ {depth rest}, rest.length < cs.length →
      membersWithin n depth true rest = membersWithin m depth true rest) :
    valueWithin (n + 1) depth cs = valueWithin (m + 1) depth cs := by
  rw [valueWithin, valueWithin]
  cases hskip : skipBlanks cs with
  | nil => rfl
  | cons c tail =>
    have htail := length_lt_of_skipBlanks hskip
    simp only [helements htail, hmembers htail]

/-- An element starts where `nextElement` says, and the others behind it. -/
lemma elementsWithin_congr_succ {first : Bool}
    (hvalue : ∀ {rest}, nextElement first cs = .ok (.item rest) →
      valueWithin n depth rest = valueWithin m depth rest)
    (helements : ∀ {rest}, rest.length < cs.length →
      elementsWithin n depth false rest = elementsWithin m depth false rest) :
    elementsWithin (n + 1) depth first cs = elementsWithin (m + 1) depth first cs := by
  rw [elementsWithin, elementsWithin]
  refine bind_congr_of_ok fun next hnext => ?_
  cases next with
  | stop rest => rfl
  | item rest =>
    show (valueWithin n depth rest >>= _) = (valueWithin m depth rest >>= _)
    rw [hvalue hnext]
    refine bind_congr_of_ok fun r hread => ?_
    have hlt := (consumes_within m).1 depth hread
    have hle := (length_of_nextElement_item hnext).1
    simp only [helements (hlt.trans_le hle)]

/-- The value of a member starts behind its key, and the other members behind it. -/
lemma membersWithin_congr_succ {first : Bool}
    (hvalue : ∀ {rest}, rest.length < cs.length →
      valueWithin n depth rest = valueWithin m depth rest)
    (hmembers : ∀ {rest}, rest.length < cs.length →
      membersWithin n depth false rest = membersWithin m depth false rest) :
    membersWithin (n + 1) depth first cs = membersWithin (m + 1) depth first cs := by
  rw [membersWithin, membersWithin]
  refine bind_congr_of_ok fun next hnext => ?_
  cases next with
  | stop rest => rfl
  | item rest =>
    have hitem := length_of_nextMember hnext (Or.inr rfl)
    refine bind_congr_of_ok fun key hkey => ?_
    have hstring := consumes_string _ hkey
    refine bind_congr_of_ok fun rest' hcolon => ?_
    have hlt := length_of_colon hcolon
    rw [hvalue (by omega)]
    refine bind_congr_of_ok fun r hread => ?_
    have hread := (consumes_within m).1 depth hread
    simp only [hmembers (show r.2.length < cs.length by omega)]

end Congruence

/-- Two runs of the readers of values agree when both may make enough calls.  A bracket takes a
call and so does the element behind it, which makes two for each character. -/
lemma within_congr (n : ℕ) :
    (∀ {m depth cs}, 2 * cs.length < n → 2 * cs.length < m →
      valueWithin n depth cs = valueWithin m depth cs) ∧
    (∀ {m depth first cs}, 2 * cs.length + first.toNat < n → 2 * cs.length + first.toNat < m →
      elementsWithin n depth first cs = elementsWithin m depth first cs) ∧
    ∀ {m depth first cs}, 2 * cs.length < n → 2 * cs.length < m →
      membersWithin n depth first cs = membersWithin m depth first cs := by
  induction n with
  | zero => simp
  | succ n ih =>
    obtain ⟨hvalue, helements, hmembers⟩ := ih
    refine ⟨fun {m depth cs} hn hm => ?_, fun {m depth first cs} hn hm => ?_,
      fun {m depth first cs} hn hm => ?_⟩
    all_goals
      obtain ⟨m, rfl⟩ : ∃ k, m = k + 1 := ⟨m - 1, by omega⟩
    · refine valueWithin_congr_succ (fun {depth rest} hlt => ?_) fun hlt => ?_
      · refine helements ?_ ?_
        all_goals rw [Bool.toNat_true]; omega
      · exact hmembers (by omega) (by omega)
    · refine elementsWithin_congr_succ (fun {rest} hnext => ?_) fun {rest} hlt => ?_
      · -- only the first element may start where its list does
        obtain ⟨hle, hlt⟩ := length_of_nextElement_item hnext
        cases first with
        | true =>
          rw [Bool.toNat_true] at hn hm
          exact hvalue (by omega) (by omega)
        | false =>
          have hlt := hlt rfl
          exact hvalue (by omega) (by omega)
      · refine helements ?_ ?_
        all_goals rw [Bool.toNat_false]; omega
    · exact membersWithin_congr_succ (fun hlt => hvalue (by omega) (by omega))
        fun hlt => hmembers (by omega) (by omega)

/-- The bound with which a value is read decides nothing. -/
theorem valueWithin_eq_value {n : ℕ} (depth : Depth) {cs : List Char} (hn : 2 * cs.length < n) :
    valueWithin n depth cs = value depth cs :=
  (within_congr n).1 hn (Nat.lt_succ_self _)

/-- The bound with which the rest of an array is read decides nothing. -/
theorem elementsWithin_eq_moreElements {n : ℕ} (depth : Depth) {cs : List Char}
    (hn : 2 * cs.length < n) : elementsWithin n depth false cs = moreElements depth cs :=
  (within_congr n).2.1 hn (by rw [Bool.toNat_false]; omega)

/-! ## Shapes -/

lemma consumes_text : Consumes text := by
  intro cs s rest h
  rw [text] at h
  split at h
  · next tail hskip => exact (consumes_string _ h).trans (length_lt_of_skipBlanks hskip)
  · simp at h

lemma consumes_word : Consumes word := by
  intro cs w rest h
  rw [word] at h
  cases hskip : skipBlanks cs with
  | nil => simp [hskip] at h
  | cons c tail =>
    have htail := length_lt_of_skipBlanks hskip
    simp only [hskip] at h
    split_ifs at h
    obtain ⟨⟨m, rest'⟩, hnumeral, h⟩ := bind_eq_ok_iff.1 h
    have hlt := consumes_numeral _ hnumeral
    rw [List.length_cons] at hlt
    dsimp only at h
    split at h
    · obtain ⟨_, rfl⟩ := Prod.mk.inj (Except.ok.inj h)
      omega
    · simp at h

section Items

variable {α : Type} {item : Reader α}

/-- What may be absent is `null` or something that is read. -/
lemma consumes_optional (hitem : Consumes item) : Consumes (optional item) := by
  intro cs o rest h
  rw [optional] at h
  split at h
  · next tail hskip =>
    obtain ⟨rest', hexpect, hok⟩ := bind_eq_ok_iff.1 h
    obtain ⟨_, rfl⟩ := Prod.mk.inj (Except.ok.inj hok)
    exact (length_of_expect hexpect).trans_lt (length_lt_of_skipBlanks hskip)
  · obtain ⟨_, hread⟩ := exists_of_map h
    exact (hitem hread).trans_le (length_skipBlanks_le cs)

/-- Elements of one shape are taken off, up to the closing bracket. -/
lemma consumes_itemsWithin (hitem : Consumes item) (n : ℕ) (first : Bool) :
    Consumes (itemsWithin item n first) := by
  induction n generalizing first with
  | zero =>
    intro cs as rest h
    simp [itemsWithin] at h
  | succ n ih =>
    intro cs as rest h
    rw [itemsWithin] at h
    obtain ⟨next, hnext, h⟩ := bind_eq_ok_iff.1 h
    cases next with
    | stop rest' =>
      obtain ⟨_, rfl⟩ := Prod.mk.inj (Except.ok.inj h)
      exact length_of_nextElement_stop hnext
    | item rest' =>
      obtain ⟨⟨a, rest''⟩, hread, h⟩ := bind_eq_ok_iff.1 h
      obtain ⟨_, hmore⟩ := exists_of_map h
      exact ((ih false hmore).trans (hitem hread)).trans_le (length_of_nextElement_item hnext).1

/-- Each element takes a call and at least one character. -/
lemma itemsWithin_congr (hitem : Consumes item) {n m : ℕ} {first : Bool} {cs : List Char}
    (hn : cs.length < n) (hm : cs.length < m) :
    itemsWithin item n first cs = itemsWithin item m first cs := by
  induction n generalizing m first cs with
  | zero => exact absurd hn (Nat.not_lt_zero _)
  | succ n ih =>
    obtain ⟨m, rfl⟩ : ∃ k, m = k + 1 := ⟨m - 1, by omega⟩
    rw [itemsWithin, itemsWithin]
    refine bind_congr_of_ok fun next hnext => ?_
    cases next with
    | stop rest => rfl
    | item rest =>
      refine bind_congr_of_ok fun r hread => ?_
      have hlt := (hitem hread).trans_le (length_of_nextElement_item hnext).1
      have hmore : itemsWithin item n false r.2 = itemsWithin item m false r.2 :=
        ih (by omega) (by omega)
      simp only [hmore]

/-- An array takes off its brackets at least. -/
lemma consumes_array (hitem : Consumes item) : Consumes (array item) := by
  intro cs as rest h
  rw [array] at h
  split at h
  · next tail hskip =>
    exact (consumes_itemsWithin hitem _ true h).trans (length_lt_of_skipBlanks hskip)
  · simp at h

/-- The bound with which an array is read decides nothing. -/
theorem array_eq_itemsWithin (hitem : Consumes item) {n : ℕ} {cs rest : List Char}
    (hskip : skipBlanks cs = '[' :: rest) (hn : rest.length < n) :
    array item cs = itemsWithin item n true rest := by
  rw [array, hskip]
  exact itemsWithin_congr hitem (Nat.lt_succ_self _) hn

end Items

lemma consumes_wordPair : Consumes wordPair := by
  intro cs e rest h
  rw [wordPair] at h
  split at h
  · next tail hskip =>
    have htail := length_lt_of_skipBlanks hskip
    obtain ⟨next, hnext, h⟩ := bind_eq_ok_iff.1 h
    cases next with
    | stop _ => simp at h
    | item rest₁ =>
      obtain ⟨⟨a, rest₂⟩, hfirst, h⟩ := bind_eq_ok_iff.1 h
      obtain ⟨next, hnext', h⟩ := bind_eq_ok_iff.1 h
      cases next with
      | stop _ => simp at h
      | item rest₃ =>
        obtain ⟨⟨b, rest₄⟩, hsecond, h⟩ := bind_eq_ok_iff.1 h
        obtain ⟨rest₅, hclose, hok⟩ := bind_eq_ok_iff.1 h
        obtain ⟨_, rfl⟩ := Prod.mk.inj (Except.ok.inj hok)
        have h₁ := (length_of_nextElement_item hnext).1
        have h₂ := consumes_word hfirst
        have h₃ := (length_of_nextElement_item hnext').1
        have h₄ := consumes_word hsecond
        have h₅ := length_of_closeArray hclose
        omega
  · simp at h

end Json

open Json

/-! ## Statements -/

lemma StatementKind.consumes_read : Consumes StatementKind.read := by
  intro cs kind rest h
  rw [StatementKind.read] at h
  obtain ⟨⟨s, rest'⟩, htext, h⟩ := bind_eq_ok_iff.1 h
  dsimp only at h
  split at h
  · obtain ⟨_, rfl⟩ := Prod.mk.inj (Except.ok.inj h)
    exact consumes_text htext
  · simp at h

namespace Statement

/-- The members of a statement are taken off, up to the closing brace. -/
lemma consumes_membersWithin (depth : Depth) (n : ℕ) (first : Bool) (kind? : Option StatementKind) :
    Consumes (membersWithin depth n first kind?) := by
  induction n generalizing first kind? with
  | zero =>
    intro cs ms rest h
    simp [membersWithin] at h
  | succ n ih =>
    intro cs ms rest h
    rw [membersWithin] at h
    obtain ⟨next, hnext, h⟩ := bind_eq_ok_iff.1 h
    cases next with
    | stop rest' =>
      obtain ⟨_, rfl⟩ := Prod.mk.inj (Except.ok.inj h)
      exact length_of_nextMember hnext (Or.inl rfl)
    | item rest₁ =>
      have hitem := length_of_nextMember hnext (Or.inr rfl)
      obtain ⟨⟨key, rest₂⟩, hkey, h⟩ := bind_eq_ok_iff.1 h
      have hstring := consumes_string _ hkey
      dsimp only at h
      split_ifs at h
      · obtain ⟨rest₃, hcolon, h⟩ := bind_eq_ok_iff.1 h
        obtain ⟨⟨kind, rest₄⟩, hread, h⟩ := bind_eq_ok_iff.1 h
        have hlt := length_of_colon hcolon
        have hlt' := (ih false (some kind) h).trans (StatementKind.consumes_read hread)
        omega
      · obtain ⟨rest₃, hcolon, h⟩ := bind_eq_ok_iff.1 h
        obtain ⟨⟨v, rest₄⟩, hread, h⟩ := bind_eq_ok_iff.1 h
        obtain ⟨⟨⟨kind', ms'⟩, rest₅⟩, hmore, hok⟩ := bind_eq_ok_iff.1 h
        obtain ⟨_, rfl⟩ := Prod.mk.inj (Except.ok.inj hok)
        have hlt := length_of_colon hcolon
        have hlt' := (ih false kind? hmore).trans (consumes_value depth hread)
        dsimp only
        omega

/-- The bound with which the members of a statement are read decides nothing: each member takes a
call and at least one character. -/
theorem membersWithin_congr (depth : Depth) {n m : ℕ} {first : Bool} {kind? : Option StatementKind}
    {cs : List Char} (hn : cs.length < n) (hm : cs.length < m) :
    membersWithin depth n first kind? cs = membersWithin depth m first kind? cs := by
  induction n generalizing m first kind? cs with
  | zero => exact absurd hn (Nat.not_lt_zero _)
  | succ n ih =>
    obtain ⟨m, rfl⟩ : ∃ k, m = k + 1 := ⟨m - 1, by omega⟩
    rw [membersWithin, membersWithin]
    refine bind_congr_of_ok fun next hnext => ?_
    cases next with
    | stop rest => rfl
    | item rest =>
      have hitem := length_of_nextMember hnext (Or.inr rfl)
      refine bind_congr_of_ok fun key hkey => ?_
      have hstring := consumes_string _ hkey
      dsimp only
      split_ifs
      -- a second kind is refused, whatever the bound
      · rfl
      · refine bind_congr_of_ok fun rest' hcolon => ?_
        have hlt := length_of_colon hcolon
        refine bind_congr_of_ok fun r hread => ?_
        have hlt' := StatementKind.consumes_read hread
        exact ih (by omega) (by omega)
      · refine bind_congr_of_ok fun rest' hcolon => ?_
        have hlt := length_of_colon hcolon
        refine bind_congr_of_ok fun r hread => ?_
        have hlt' := consumes_value depth hread
        have hmore : membersWithin depth n false kind? r.2
            = membersWithin depth m false kind? r.2 := ih (by omega) (by omega)
        simp only [hmore]

/-- A statement takes off its closing brace at least. -/
lemma consumes_readObject (depth : Depth) : Consumes (readObject depth) := by
  intro cs s rest h
  rw [readObject] at h
  obtain ⟨⟨⟨kind?, ms⟩, rest'⟩, hmembers, h⟩ := bind_eq_ok_iff.1 h
  dsimp only at h
  split at h
  · simp at h
  · obtain ⟨s', _, hok⟩ := bind_eq_ok_iff.1 h
    obtain ⟨_, rfl⟩ := Prod.mk.inj (Except.ok.inj hok)
    exact consumes_membersWithin depth _ true none hmembers

lemma consumes_readArray (depth : Depth) : Consumes (readArray depth) := by
  intro cs s rest h
  rw [readArray] at h
  obtain ⟨next, hnext, h⟩ := bind_eq_ok_iff.1 h
  cases next with
  | stop _ => simp at h
  | item rest₁ =>
    obtain ⟨⟨kind, rest₂⟩, hread, h⟩ := bind_eq_ok_iff.1 h
    obtain ⟨⟨operands, rest₃⟩, hmore, h⟩ := bind_eq_ok_iff.1 h
    obtain ⟨s', _, hok⟩ := bind_eq_ok_iff.1 h
    obtain ⟨_, rfl⟩ := Prod.mk.inj (Except.ok.inj hok)
    have hlt := (consumes_moreElements depth hmore).trans (StatementKind.consumes_read hread)
    exact hlt.trans_le (length_of_nextElement_item hnext).1

/-- A statement takes something off the text, as an object or as an array. -/
lemma consumes_read (depth : ℕ) : Consumes (read depth) := by
  intro cs s rest h
  rw [read] at h
  split at h
  · next tail hskip =>
    obtain ⟨depth', _, h⟩ := bind_eq_ok_iff.1 h
    exact (consumes_readObject depth' h).trans (length_lt_of_skipBlanks hskip)
  · next tail hskip =>
    obtain ⟨depth', _, h⟩ := bind_eq_ok_iff.1 h
    exact (consumes_readArray depth' h).trans (length_lt_of_skipBlanks hskip)
  · simp at h

end Statement

/-! ## Descriptions -/

namespace Procedure

/-- The colon and the value of a member are taken off. -/
lemma consumes_once {α : Type} (seen : Option α) {item : Reader α} (hitem : Consumes item) :
    Consumes (once seen item) := by
  intro cs a rest h
  rw [once] at h
  split_ifs at h
  obtain ⟨rest', hcolon, h⟩ := bind_eq_ok_iff.1 h
  exact (hitem h).trans (length_of_colon hcolon)

/-- A member is taken off the text, whatever its key. -/
lemma Draft.consumes_read (d : Draft) (key : String) : Consumes (d.read key) := by
  intro cs d' rest h
  rw [Draft.read] at h
  split_ifs at h
  · obtain ⟨_, hread⟩ := exists_of_map (f := fun name => { d with name := some name }) h
    exact consumes_once _ (consumes_optional consumes_text) hread
  · obtain ⟨_, hread⟩ := exists_of_map (f := fun entry => { d with entry := some entry }) h
    exact consumes_once _ (consumes_optional consumes_word) hread
  · obtain ⟨_, hread⟩ := exists_of_map (f := fun list => { d with statements := some list }) h
    exact consumes_once _ (consumes_array (Statement.consumes_read _)) hread
  · obtain ⟨_, hread⟩ := exists_of_map (f := fun edges => { d with edges := some edges }) h
    exact consumes_once _ (consumes_optional (consumes_array consumes_wordPair)) hread
  · obtain ⟨rest', hcolon, h⟩ := bind_eq_ok_iff.1 h
    obtain ⟨_, hread⟩ := exists_of_map (f := fun _ => d) h
    exact (consumes_value none hread).trans (length_of_colon hcolon)

/-- The bound with which the members of a description are read decides nothing. -/
theorem draftWithin_congr {n m : ℕ} {first : Bool} {d : Draft} {cs : List Char} (hn : cs.length < n)
    (hm : cs.length < m) : draftWithin n first d cs = draftWithin m first d cs := by
  induction n generalizing m first d cs with
  | zero => exact absurd hn (Nat.not_lt_zero _)
  | succ n ih =>
    obtain ⟨m, rfl⟩ : ∃ k, m = k + 1 := ⟨m - 1, by omega⟩
    rw [draftWithin, draftWithin]
    refine bind_congr_of_ok fun next hnext => ?_
    cases next with
    | stop rest => rfl
    | item rest =>
      have hitem := length_of_nextMember hnext (Or.inr rfl)
      refine bind_congr_of_ok fun key hkey => ?_
      have hstring := consumes_string _ hkey
      refine bind_congr_of_ok fun r hread => ?_
      have hlt := d.consumes_read key.1 hread
      exact ih (by omega) (by omega)

end Procedure

end MayAlias
