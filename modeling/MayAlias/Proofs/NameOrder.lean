import Mathlib.Data.List.Lex
import Mathlib.Order.Compare
import Mathlib.Tactic.Common
import MayAlias.Text.Order

/-!
# The order of names

Comparing names character by character is comparing the lists of their code points, which is a
linear order.  It is also the order of the bytes that encode the names in UTF-8
(`bytes_lt_of_codePoints_lt`): the first byte of a character grows with the length of its code, and
within one length a code is the number of the character in digits of six bits.
-/

namespace MayAlias.Text

/-! ## Code points -/

/-- The code points of a text. -/
def codePoints (s : String) : List ℕ := s.toList.map Char.toNat

/-- Names with the same code points are the same. -/
lemma codePoints_injective : Function.Injective codePoints := by
  intro s t h
  exact String.toList_inj.1 (List.map_injective_iff.2 (fun _ _ => Char.toNat_inj.1) h)

/-- Comparing character by character is comparing the lists of code points. -/
lemma compares_chars (cs ds : List Char) :
    (compareChars cs ds).Compares (cs.map Char.toNat) (ds.map Char.toNat) := by
  induction cs, ds using compareChars.induct with
  | case1 => rfl
  | case2 d ds => exact List.nil_lt_cons _ _
  | case3 c cs => exact List.nil_lt_cons _ _
  | case4 c cs d ds hlt =>
    rw [compareChars, if_pos hlt]
    exact List.cons_lt_cons_iff.2 (Or.inl hlt)
  | case5 c cs d ds hle hlt =>
    rw [compareChars, if_neg hle, if_pos hlt]
    exact List.cons_lt_cons_iff.2 (Or.inl hlt)
  | case6 c cs d ds hle hge ih =>
    have heq : c.toNat = d.toNat := by omega
    rw [compareChars, if_neg hle, if_neg hge, List.map_cons, List.map_cons, heq]
    cases hord : compareChars cs ds with
    | lt => exact List.cons_lt_cons_iff.2 (Or.inr ⟨rfl, ih.eq_lt.1 hord⟩)
    | eq => exact congrArg _ (ih.eq_eq.1 hord)
    | gt => exact List.cons_lt_cons_iff.2 (Or.inr ⟨rfl, ih.eq_gt.1 hord⟩)

/-- The comparison of names compares their code points. -/
lemma compares_names (s t : String) : (compareNames s t).Compares (codePoints s) (codePoints t) :=
  compares_chars _ _

/-- The test by which names are sorted is `≤` between the code points. -/
lemma compareNames_ne_gt_iff (s t : String) :
    (compareNames s t != .gt) = true ↔ codePoints s ≤ codePoints t := by
  rw [bne_iff_ne, (compares_names s t).ne_gt]

/-! ## Bytes -/

/-- The bytes of a text in UTF-8. -/
def bytes (s : String) : List UInt8 := s.toUTF8.data.toList

/-- The bytes of a name are those of its characters, one after the other. -/
lemma bytes_eq_flatMap (s : String) : bytes s = s.toList.flatMap String.utf8EncodeChar := by
  rw [bytes, String.toUTF8_eq_toByteArray, ← String.utf8Encode_toList, List.utf8Encode,
    List.toList_data_toByteArray]

lemma ofNat_cons_lt {a b : ℕ} (hab : a < b) (hb : b < 256) (xs ys : List UInt8) :
    UInt8.ofNat a :: xs < UInt8.ofNat b :: ys := by
  apply List.cons_lt_cons_iff.2
  left
  rw [UInt8.lt_iff_toNat_lt, UInt8.toNat_ofNat_of_lt' (hab.trans hb), UInt8.toNat_ofNat_of_lt' hb]
  exact hab

/-- Below `n` the codes stand in the order of the numbers, whatever follows them. -/
def Ascends (n : ℕ) (code : ℕ → List UInt8) : Prop :=
  ∀ v w, v < w → w < n → ∀ xs ys, code v ++ xs < code w ++ ys

/-- The leading byte of a code grows with the digit that it carries. -/
lemma ascends_leading {n k : ℕ} (h : n + k ≤ 256) :
    Ascends n fun v => [UInt8.ofNat (v % n + k)] := by
  intro v w hvw hw xs ys
  show UInt8.ofNat (v % n + k) :: xs < UInt8.ofNat (w % n + k) :: ys
  rw [Nat.mod_eq_of_lt (hvw.trans hw), Nat.mod_eq_of_lt hw]
  exact ofNat_cons_lt (by omega) (by omega) xs ys

/-- One more byte for the lowest six bits. -/
lemma Ascends.trailing {n : ℕ} {code : ℕ → List UInt8} (h : Ascends n code) :
    Ascends (64 * n) fun v => code (v / 64) ++ [UInt8.ofNat (v % 64 + 128)] := by
  intro v w hvw hw xs ys
  show code (v / 64) ++ [_] ++ xs < code (w / 64) ++ [_] ++ ys
  rw [List.append_assoc, List.append_assoc]
  by_cases hlead : v / 64 < w / 64
  · exact h _ _ hlead (by omega) _ _
  · -- the leading bytes agree, and the last one decides
    have heq : v / 64 = w / 64 := by omega
    rw [heq]
    exact List.append_left_lt (ofNat_cons_lt (by omega) (by omega) xs ys)

/-- A character with a larger code point has a larger code, whatever follows. -/
lemma utf8EncodeChar_lt {c d : Char} (h : c.toNat < d.toNat) (xs ys : List UInt8) :
    String.utf8EncodeChar c ++ xs < String.utf8EncodeChar d ++ ys := by
  have hd : d.val.toNat < 0x110000 := by
    rcases d.valid with hd | hd
    · exact Nat.lt_trans hd (by omega)
    · exact hd.2
  replace h : c.val.toNat < d.val.toNat := h
  have htwo := (ascends_leading (n := 32) (k := 192) (by omega)).trailing
  have hthree := (ascends_leading (n := 16) (k := 224) (by omega)).trailing.trailing
  have hfour := (ascends_leading (n := 8) (k := 240) (by omega)).trailing.trailing.trailing
  simp only [Nat.div_div_eq_div_mul] at hthree hfour
  unfold String.utf8EncodeChar
  generalize c.val.toNat = v, d.val.toNat = w at h hd ⊢
  dsimp only
  -- codes of different lengths differ in their first bytes
  split_ifs <;> try omega
  · exact ofNat_cons_lt (by omega) (by omega) xs ys
  · exact ofNat_cons_lt (by omega) (by omega) xs _
  · exact ofNat_cons_lt (by omega) (by omega) xs _
  · exact ofNat_cons_lt (by omega) (by omega) xs _
  · exact htwo v w h (by omega) xs ys
  · exact ofNat_cons_lt (by omega) (by omega) _ _
  · exact ofNat_cons_lt (by omega) (by omega) _ _
  · exact hthree v w h (by omega) xs ys
  · exact ofNat_cons_lt (by omega) (by omega) _ _
  · exact hfour v w h (by omega) xs ys

/-- Names whose code points ascend have bytes that ascend. -/
lemma bytes_lt_of_codePoints_lt {s t : String} (h : codePoints s < codePoints t) :
    bytes s < bytes t := by
  rw [bytes_eq_flatMap, bytes_eq_flatMap]
  unfold codePoints at h
  generalize s.toList = cs, t.toList = ds at h ⊢
  induction cs generalizing ds with
  | nil =>
    cases ds with
    | nil => exact absurd h (lt_irrefl _)
    | cons d ds =>
      obtain ⟨b, code, hcode⟩ := List.exists_cons_of_ne_nil (String.utf8EncodeChar_ne_nil (c := d))
      rw [List.flatMap_cons, hcode]
      exact List.nil_lt_cons _ _
  | cons c cs ih =>
    cases ds with
    | nil => exact absurd h (List.not_lt_nil _)
    | cons d ds =>
      rw [List.map_cons, List.map_cons, List.cons_lt_cons_iff] at h
      rw [List.flatMap_cons, List.flatMap_cons]
      -- either the codes of the first characters differ, or the order is that of the rest
      rcases h with h | ⟨h, hrest⟩
      · exact utf8EncodeChar_lt h _ _
      · obtain rfl := Char.toNat_inj.1 h
        exact List.append_left_lt (ih ds hrest)

end MayAlias.Text
