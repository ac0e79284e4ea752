import Mathlib.Tactic.Common
import Mathlib.Tactic.Ring
import MayAlias.Json.Print
import MayAlias.Json.Value

/-!
# Words of the format, written and read

The two words that need an argument are strings and numbers.  A character can be written in more
than one way; `Spells` has all of them that do without surrogates.  The reader takes every string
that is spelled so, and the printer chooses one of the ways for each character.  A number is written
without a leading zero, so that the reader takes all its digits for one numeral, and it lies in the
range of binary fractions because rounding at most doubles it.
-/

namespace MayAlias

/-! ## Strings -/

namespace Json

/-- The number written by four hexadecimal digits with these values. -/
def quadValue (i j k l : ℕ) : ℕ := ((i * 16 + j) * 16 + k) * 16 + l

/-- The text between two quotes writes the characters: each as it is, by a letter, or by its number
if that is no surrogate. -/
inductive Spells : List Char → List Char → Prop
  | nil : Spells [] []
  | plain {c : Char} {body cs : List Char} (hquote : c ≠ '"') (hslash : c ≠ '\\')
    (hcontrol : isControl c = false) (h : Spells body cs) : Spells (c :: body) (c :: cs)
  | letter {e c : Char} {body cs : List Char} (he : letterEscape? e = some c)
    (h : Spells body cs) : Spells ('\\' :: e :: body) (c :: cs)
  | number {a b c d : Char} {i j k l : ℕ} {body cs : List Char} (ha : hexDigit? a = some i)
    (hb : hexDigit? b = some j) (hc : hexDigit? c = some k) (hd : hexDigit? d = some l)
    (hplane : quadValue i j k l < 0xD800 ∨ 0xDFFF < quadValue i j k l) (h : Spells body cs) :
    Spells ('\\' :: 'u' :: a :: b :: c :: d :: body) (Char.ofNat (quadValue i j k l) :: cs)

/-! ### Reading -/

lemma ne_u_of_letterEscape? {e c : Char} (he : letterEscape? e = some c) : e ≠ 'u' := by
  rintro rfl
  have hnone : letterEscape? 'u' = none := by decide
  simp [hnone] at he

/-- An escape that is a letter takes one character. -/
lemma escape_letter (manner : Manner) {e c : Char} (he : letterEscape? e = some c)
    (rest : List Char) : escape manner (e :: rest) = .ok (c, 1) := by
  rw [escape, if_neg (ne_u_of_letterEscape? he), he]

/-- A numeric escape takes the letter and four digits. -/
lemma escape_number (manner : Manner) {a b c d : Char} {i j k l : ℕ} (ha : hexDigit? a = some i)
    (hb : hexDigit? b = some j) (hc : hexDigit? c = some k) (hd : hexDigit? d = some l)
    (hplane : quadValue i j k l < 0xD800 ∨ 0xDFFF < quadValue i j k l) (rest : List Char) :
    escape manner ('u' :: a :: b :: c :: d :: rest) = .ok (Char.ofNat (quadValue i j k l), 5) := by
  have hquad : hexQuad (a :: b :: c :: d :: rest) = .ok (quadValue i j k l, rest) := by
    rw [hexQuad, ha, hb, hc, hd]
    rfl
  -- the value lies outside of the surrogates
  have hlead : isLeading (quadValue i j k l) = false := by
    rw [isLeading, decide_eq_false_iff_not]
    omega
  have htrail : isTrailing (quadValue i j k l) = false := by
    rw [isTrailing, decide_eq_false_iff_not]
    omega
  rw [escape, if_pos rfl, numericEscape, hquad]
  cases manner <;> simp [bind, Except.bind, hlead, htrail]

/-- The characters of an escape are passed over. -/
lemma stringBody_append (manner : Manner) (e rest : List Char) :
    stringBody manner e.length (e ++ rest) = stringBody manner 0 rest := by
  induction e with
  | nil => rfl
  | cons d e ih => rw [List.length_cons, List.cons_append, stringBody, ih]

/-- An escape is read, and then passed over. -/
lemma stringBody_escape {manner : Manner} (e : List Char) {c : Char} {rest : List Char}
    (he : escape manner (e ++ rest) = .ok (c, e.length)) :
    stringBody manner 0 ('\\' :: (e ++ rest))
      = (stringBody manner 0 rest).map fun r => (c :: r.1, r.2) := by
  rw [stringBody, if_neg (by decide), if_pos rfl, he]
  show (stringBody manner e.length (e ++ rest) >>= _) = _
  rw [stringBody_append]
  rfl

/-- A body is read as it is spelled, up to the quote behind it. -/
lemma Spells.stringBody {body cs : List Char} (h : Spells body cs) (manner : Manner)
    (rest : List Char) : stringBody manner 0 (body ++ '"' :: rest) = .ok (cs, rest) := by
  induction h with
  | nil => rfl
  | @plain c body cs hquote hslash hcontrol _ ih =>
    rw [List.cons_append, Json.stringBody, if_neg hquote, if_neg hslash, hcontrol]
    simp [ih, bind, Except.bind]
  | @letter e c body cs he _ ih =>
    have hescape := escape_letter manner he (body ++ '"' :: rest)
    calc Json.stringBody manner 0 ('\\' :: ([e] ++ (body ++ '"' :: rest)))
        = (Json.stringBody manner 0 (body ++ '"' :: rest)).map fun r => (c :: r.1, r.2) :=
          stringBody_escape [e] hescape
      _ = .ok (c :: cs, rest) := by rw [ih]; rfl
  | @number a b c d i j k l body cs ha hb hc hd hplane _ ih =>
    have hescape := escape_number manner ha hb hc hd hplane (body ++ '"' :: rest)
    calc Json.stringBody manner 0 ('\\' :: (['u', a, b, c, d] ++ (body ++ '"' :: rest)))
        = (Json.stringBody manner 0 (body ++ '"' :: rest)).map fun r => (_ :: r.1, r.2) :=
          stringBody_escape ['u', a, b, c, d] hescape
      _ = .ok (Char.ofNat (quadValue i j k l) :: cs, rest) := by rw [ih]; rfl

/-- A string is read as it is spelled, in either manner. -/
lemma Spells.string {body : List Char} {s : String} (h : Spells body s.toList) (manner : Manner)
    (rest : List Char) : string manner (body ++ '"' :: rest) = .ok (s, rest) := by
  rw [Json.string, h.stringBody]
  show Except.ok (String.ofList s.toList, rest) = _
  rw [String.ofList_toList]

/-! ### Writing -/

/-- The characters that are escaped by a letter, with the letter. -/
def letterEscapes : List (Char × Char) :=
  [('"', '"'), ('\\', '\\'), ('\x08', 'b'), ('\x0c', 'f'), ('\n', 'n'), ('\r', 'r'), ('\t', 't')]

/-- The characters with an escape that is a letter, and what it is read as. -/
lemma quoteChar_of_letter : ∀ entry ∈ letterEscapes, quoteChar entry.1 = ['\\', entry.2] ∧
    (entry.1 = '"' ∨ entry.1 = '\\' ∨ isControl entry.1 = true) ∧
      letterEscape? entry.2 = some entry.1 := by decide

/-- A character is written as it is, unless it is the quote, the backslash or a control character:
these are written by a letter or by their number. -/
lemma quoteChar_cases (c : Char) :
    (c ≠ '"' ∧ c ≠ '\\' ∧ isControl c = false ∧ quoteChar c = [c]) ∨
      (c = '"' ∨ c = '\\' ∨ isControl c = true) ∧
        ((∃ e, quoteChar c = ['\\', e] ∧ letterEscape? e = some c) ∨ c.toNat < 0x20 ∧
          quoteChar c = ['\\', 'u', '0', '0', hexChar (c.toNat / 16), hexChar (c.toNat % 16)]) := by
  by_cases hletter : ∃ e, (c, e) ∈ letterEscapes
  · obtain ⟨e, hmem⟩ := hletter
    obtain ⟨hquote, hkind, hescape⟩ := quoteChar_of_letter _ hmem
    exact Or.inr ⟨hkind, Or.inl ⟨e, hquote, hescape⟩⟩
  · simp only [letterEscapes, List.mem_cons, Prod.mk.injEq, List.not_mem_nil, or_false, exists_or,
      exists_and_left, exists_eq, and_true, not_or] at hletter
    obtain ⟨h₁, h₂, h₃, h₄, h₅, h₆, h₇⟩ := hletter
    simp only [quoteChar, h₁, h₂, h₃, h₄, h₅, h₆, h₇, if_false]
    by_cases hcontrol : c.toNat < 0x20
    · rw [if_pos hcontrol]
      exact Or.inr ⟨Or.inr (Or.inr (decide_eq_true hcontrol)), Or.inr ⟨hcontrol, rfl⟩⟩
    · rw [if_neg hcontrol]
      exact Or.inl ⟨h₁, h₂, decide_eq_false hcontrol, rfl⟩

/-- Only the quote, the backslash and the control characters are escaped. -/
lemma quoteChar_eq_self_iff (c : Char) :
    quoteChar c = [c] ↔ c ≠ '"' ∧ c ≠ '\\' ∧ isControl c = false := by
  rcases quoteChar_cases c with ⟨hquote, hslash, hcontrol, hplain⟩ | ⟨hkind, hescaped⟩
  · exact iff_of_true hplain ⟨hquote, hslash, hcontrol⟩
  · refine iff_of_false (fun hself => ?_) (fun h => ?_)
    · -- an escape has a character behind its backslash
      rcases hescaped with ⟨e, he, _⟩ | ⟨_, he⟩ <;> simp [he] at hself
    · rw [h.2.2] at hkind
      simp [h.1, h.2.1] at hkind

lemma hexDigit?_hexChar : ∀ d < 16, hexDigit? (hexChar d) = some d := by decide

/-- The printer writes each character in one of the ways to spell it. -/
lemma Spells.quoteChar (c : Char) {body cs : List Char} (h : Spells body cs) :
    Spells (quoteChar c ++ body) (c :: cs) := by
  rcases quoteChar_cases c with ⟨hquote, hslash, hcontrol, hplain⟩ | ⟨_, ⟨e, he, hc⟩ | ⟨hc, he⟩⟩
  · rw [hplain]
    exact .plain hquote hslash hcontrol h
  · rw [he]
    exact .letter hc h
  -- a control character is written with four digits, of which two are zero
  · have hvalue : quadValue 0 0 (c.toNat / 16) (c.toNat % 16) = c.toNat := by
      rw [quadValue]
      omega
    have hspells := Spells.number (a := '0') (b := '0') (i := 0) (j := 0) (by decide) (by decide)
      (hexDigit?_hexChar (c.toNat / 16) (by omega)) (hexDigit?_hexChar (c.toNat % 16) (by omega))
      (by omega) h
    rw [hvalue, Char.ofNat_toNat] at hspells
    rw [he]
    exact hspells

/-- Strings are written by spelling them. -/
lemma spells_quoted (cs : List Char) : Spells (cs.flatMap quoteChar) cs := by
  induction cs with
  | nil => exact .nil
  | cons c cs ih => exact ih.quoteChar c

/-- A string is read as it was written, in either manner. -/
lemma string_quoted (manner : Manner) (s : String) (rest : List Char) :
    string manner (s.toList.flatMap quoteChar ++ '"' :: rest) = .ok (s, rest) :=
  (spells_quoted s.toList).string manner rest

end Json

/-! ## Rounding -/

namespace Decimal

/-- Rounding adds one at most. -/
lemma roundDiv_le (num den : ℕ) : roundDiv num den ≤ num / den + 1 := by
  rw [roundDiv]
  split <;> omega

lemma roundDiv_one (num : ℕ) : roundDiv num 1 = num := by
  simp [roundDiv, Nat.mod_one]

namespace Binary

/-- The number itself, rounded down. -/
def floor (b : Binary) : ℕ :=
  b.mantissa * Nat.pow 2 b.exponent.toNat / Nat.pow 2 (-b.exponent).toNat

/-- A unit of twice the size counts twice. -/
lemma floor_double (m : ℕ) (e : ℤ) : floor ⟨m, e + 1⟩ = floor ⟨2 * m, e⟩ := by
  simp only [floor, Nat.pow_eq]
  rcases lt_or_ge e 0 with hneg | hnonneg
  · obtain ⟨k, hk⟩ : ∃ k : ℕ, (-(e + 1)).toNat = k ∧ (-e).toNat = k + 1 :=
      ⟨(-(e + 1)).toNat, rfl, by omega⟩
    rw [hk.1, hk.2, show (e + 1).toNat = 0 by omega, show e.toNat = 0 by omega, pow_zero, mul_one,
      mul_one, pow_succ, mul_comm 2 m]
    exact (Nat.mul_div_mul_right m (2 ^ k) (by decide)).symm
  · obtain ⟨k, hk⟩ : ∃ k : ℕ, e.toNat = k ∧ (e + 1).toNat = k + 1 := ⟨e.toNat, rfl, by omega⟩
    rw [hk.1, hk.2, show (-(e + 1)).toNat = 0 by omega, show (-e).toNat = 0 by omega]
    congr 1
    ring

/-- The quotient in units of a size that is not larger than the number. -/
lemma floor_roundDiv_le {n : ℕ} (hn : n ≠ 0) {e : ℤ} (he : e ≤ n.log2) :
    floor ⟨roundDiv (inUnits n 1 e).1 (inUnits n 1 e).2, e⟩ ≤ 2 * n := by
  simp only [floor, inUnits, Nat.pow_eq, one_mul]
  rcases lt_or_ge e 0 with hneg | hnonneg
  · rw [show e.toNat = 0 by omega, pow_zero, roundDiv_one, mul_one,
      Nat.mul_div_cancel _ (Nat.two_pow_pos _)]
    omega
  · rw [show (-e).toNat = 0 by omega, pow_zero, mul_one, Nat.div_one]
    have hunit : 2 ^ e.toNat ≤ n :=
      (Nat.pow_le_pow_right (by decide) (by omega)).trans (Nat.log2_self_le hn)
    calc roundDiv n (2 ^ e.toNat) * 2 ^ e.toNat
        ≤ (n / 2 ^ e.toNat + 1) * 2 ^ e.toNat := Nat.mul_le_mul_right _ (roundDiv_le _ _)
      _ = n / 2 ^ e.toNat * 2 ^ e.toNat + 2 ^ e.toNat := by ring
      _ ≤ 2 * n := by
        have hdiv := Nat.div_mul_le_self n (2 ^ e.toNat)
        omega

/-- Rounding at most doubles a number. -/
theorem roundNat_le (n : ℕ) : roundNat n ≤ 2 * n := by
  show floor (ofRatio n 1) ≤ 2 * n
  rw [ofRatio]
  split
  · next hn => simp [hn, floor]
  · next hn =>
    -- whichever unit is chosen, rounding in it at most doubles the number
    have hunit : ∀ e : ℤ, e ≤ n.log2 →
        floor (if roundDiv (inUnits n 1 e).1 (inUnits n 1 e).2 = Nat.pow 2 precision then
          ⟨Nat.pow 2 (precision - 1), e + 1⟩
          else ⟨roundDiv (inUnits n 1 e).1 (inUnits n 1 e).2, e⟩) ≤ 2 * n := by
      intro e he
      have hle := floor_roundDiv_le hn he
      split
      · next hm =>
        rw [floor_double]
        rwa [hm] at hle
      · exact hle
    apply hunit
    have hguess : (n.log2 : ℤ) - (1 : ℕ).log2 - ((precision - 1 : ℕ) : ℤ) ≤ n.log2 := by omega
    split
    · omega
    · exact hguess

end Binary

end Decimal

/-! ## Numbers -/

namespace Json

namespace Numeral

/-- The digits of a number are read back as the number. -/
lemma value_toDigits (n : ℕ) : value (Nat.toDigits 10 n) = n := by
  have hvalue : value (Nat.toDigits 10 n) = Nat.ofDigitChars 10 (Nat.toDigits 10 n) 0 := by
    simp only [value, digitValue, Nat.ofDigitChars, Nat.mul_comm]
  rw [hvalue, Nat.ofDigitChars_ten_toDigits]

/-- Only zero starts with the digit zero. -/
lemma eq_zero_of_toDigits {n : ℕ} {ds : List Char} (h : Nat.toDigits 10 n = '0' :: ds) : n = 0 := by
  induction n using Nat.strong_induction_on generalizing ds with
  | _ n ih =>
    by_cases hn : n < 10
    · rw [Nat.toDigits_of_lt_base hn, List.cons.injEq] at h
      have hdigit : ∀ d < 10, Nat.digitChar d = '0' → d = 0 := by decide
      exact hdigit n hn h.1
    · rw [Nat.toDigits_of_base_le (by decide) (by omega)] at h
      -- the first digit is that of the number without its last one
      obtain ⟨ds', hds'⟩ : ∃ ds', Nat.toDigits 10 (n / 10) = '0' :: ds' := by
        cases hfirst : Nat.toDigits 10 (n / 10) with
        | nil => exact absurd hfirst Nat.toDigits_ne_nil
        | cons d ds' =>
          rw [hfirst, List.cons_append, List.cons.injEq] at h
          exact ⟨ds', by rw [h.1]⟩
      have hzero := ih (n / 10) (by omega) hds'
      omega

/-- More digits make no smaller number. -/
lemma le_foldl_value (ds : List Char) (m : ℕ) :
    m ≤ ds.foldl (fun n c => n * 10 + digitValue c) m := by
  induction ds generalizing m with
  | nil => exact le_rfl
  | cons d ds ih => exact le_trans (by omega) (ih (m * 10 + digitValue d))

/-- All digits of a word fit into its significand. -/
lemma foldl_pushWhole {ds : List Char} {m : ℕ}
    (h : ds.foldl (fun n c => n * 10 + digitValue c) m ≤ maxWord) :
    ds.foldl Scaled.pushWhole ⟨m, 0, false⟩
      = ⟨ds.foldl (fun n c => n * 10 + digitValue c) m, 0, false⟩ := by
  induction ds generalizing m with
  | nil => rfl
  | cons d ds ih =>
    have hfits : m * 10 + digitValue d ≤ maxWord := (le_foldl_value ds _).trans h
    rw [List.foldl_cons, List.foldl_cons, Scaled.pushWhole, if_pos ⟨rfl, hfits⟩]
    exact ih h

/-- Every word lies in the range of binary fractions. -/
lemma inRange_of_word {ds : List Char} (h : value ds ≤ maxWord) :
    inRange ⟨false, ds, [], none⟩ = true := by
  have hscaled : scaled ⟨false, ds, [], none⟩ = ⟨value ds, 0, false⟩ := by
    rw [scaled, foldl_pushWhole h]
    rfl
  have hbound : 2 * maxWord * (2 * 1) < rangeBound := by decide +kernel
  have hproduct : Decimal.Binary.roundNat (value ds) * Decimal.Binary.roundNat 1 < rangeBound := by
    refine lt_of_le_of_lt (Nat.mul_le_mul ?_ (Decimal.Binary.roundNat_le 1)) hbound
    exact (Decimal.Binary.roundNat_le _).trans (Nat.mul_le_mul_left 2 h)
  rw [inRange, hscaled]
  simp [maxExponent, Nat.pow_eq, hproduct]

end Numeral

/-- What may stand behind a value: nothing, a blank, a comma or a closing bracket. -/
def Ends (rest : List Char) : Prop :=
  ∀ c ∈ rest.head?, isBlank c = true ∨ c = ',' ∨ c = ']' ∨ c = '\x7d'

lemma ends_nil : Ends [] := by simp [Ends]

/-- A comma or a closing bracket may follow a value. -/
lemma ends_cons {c : Char} (hc : c = ',' ∨ c = ']' ∨ c = '\x7d') (rest : List Char) :
    Ends (c :: rest) := by
  intro d hd
  obtain rfl := Option.some.inj hd
  exact Or.inr hc

lemma isDigit_of_mem_toDigits {n : ℕ} {c : Char} (h : c ∈ Nat.toDigits 10 n) :
    isDigit c = true := by
  have hdigit := Nat.isDigit_of_mem_toDigits (by decide) (by decide) h
  rw [Char.isDigit_iff_toNat] at hdigit
  exact decide_eq_true hdigit

/-- A number starts with a digit. -/
lemma exists_toDigits_eq_cons (n : ℕ) :
    ∃ d ds, Nat.toDigits 10 n = d :: ds ∧ isDigit d = true := by
  cases h : Nat.toDigits 10 n with
  | nil => exact absurd h Nat.toDigits_ne_nil
  | cons d ds => exact ⟨d, ds, rfl, isDigit_of_mem_toDigits (h ▸ List.mem_cons_self)⟩

/-- What stands behind a value does not go on with a digit, a point or an exponent. -/
lemma Ends.not_numeral {c : Char} {rest : List Char} (h : Ends (c :: rest)) :
    isDigit c = false ∧ c ≠ '.' ∧ ¬ (c = 'e' ∨ c = 'E') := by
  rcases h c rfl with hblank | rfl | rfl | rfl
  · simp only [isBlank, Bool.or_eq_true, beq_iff_eq] at hblank
    rcases hblank with ((rfl | rfl) | rfl) | rfl <;> decide
  all_goals decide

/-- All digits of a number are taken, as it has no leading zero. -/
lemma wholePart_toDigits (manner : Manner) (n : ℕ) {rest : List Char} (hrest : Ends rest) :
    wholePart manner (Nat.toDigits 10 n ++ rest) = .ok (Nat.toDigits 10 n, rest) := by
  have hall : ∀ c ∈ Nat.toDigits 10 n, isDigit c = true := fun c => isDigit_of_mem_toDigits
  have hstop : rest.takeWhile isDigit = [] ∧ rest.dropWhile isDigit = rest := by
    cases rest with
    | nil => exact ⟨rfl, rfl⟩
    | cons c rest => simp [hrest.not_numeral.1]
  have hdigits : digits manner (Nat.toDigits 10 n ++ rest) = .ok (Nat.toDigits 10 n, rest) := by
    rw [digits, List.takeWhile_append_of_pos hall, List.dropWhile_append_of_pos hall, hstop.1,
      hstop.2, List.append_nil]
    obtain ⟨d, ds, hds, _⟩ := exists_toDigits_eq_cons n
    rw [hds]
  rw [wholePart, hdigits]
  simp only [bind, Except.bind]
  split
  · next hzero =>
    -- a leading zero is the only digit
    obtain rfl := Numeral.eq_zero_of_toDigits hzero
    simp at hzero
  · rfl

/-- No point follows a number that was printed. -/
lemma fractionPart_of_ends (manner : Manner) {rest : List Char} (hrest : Ends rest) :
    fractionPart manner rest = .ok ([], rest) := by
  cases rest with
  | nil => rfl
  | cons c rest =>
    rw [fractionPart]
    intro rest' h
    exact hrest.not_numeral.2.1 (List.cons.inj h).1

/-- Nor does an exponent. -/
lemma exponentPart_of_ends (manner : Manner) {rest : List Char} (hrest : Ends rest) :
    exponentPart manner rest = .ok (none, rest) := by
  cases rest with
  | nil => rfl
  | cons c rest =>
    unfold exponentPart
    exact if_neg hrest.not_numeral.2.2

/-- The digits of a word are read as one numeral. -/
lemma numeral_toDigits (manner : Manner) {n : ℕ} (hn : n ≤ Numeral.maxWord) {rest : List Char}
    (hrest : Ends rest) :
    numeral manner (Nat.toDigits 10 n ++ rest)
      = .ok (⟨false, Nat.toDigits 10 n, [], none⟩, rest) := by
  have hrange : Numeral.inRange ⟨false, Nat.toDigits 10 n, [], none⟩ = true :=
    Numeral.inRange_of_word ((Numeral.value_toDigits n).le.trans hn)
  rw [numeral, wholePart_toDigits manner n hrest]
  · simp [bind, Except.bind, fractionPart_of_ends manner hrest, exponentPart_of_ends manner hrest,
      hrange]
  · -- no sign stands before the digits
    intro rest' h
    obtain ⟨d, ds, hds, hd⟩ := exists_toDigits_eq_cons n
    rw [hds, List.cons_append, List.cons.injEq] at h
    rw [h.1] at hd
    exact absurd hd (by decide)

lemma toNat_le_maxWord (w : UInt64) : w.toNat ≤ Numeral.maxWord := by
  have hlt := w.toNat_lt
  rw [Numeral.maxWord]
  omega

/-- The digits of a word are read back as the word. -/
lemma toWord?_toDigits (w : UInt64) :
    Numeral.toWord? ⟨false, Nat.toDigits 10 w.toNat, [], none⟩ = some w := by
  rw [Numeral.toWord?, Numeral.value_toDigits, if_pos ⟨rfl, rfl, rfl, toNat_le_maxWord w⟩,
    UInt64.ofNat_toNat]

end Json

end MayAlias
