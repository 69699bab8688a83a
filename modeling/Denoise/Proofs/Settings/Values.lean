import Denoise.Proofs.Decimal.Reading
import Denoise.Proofs.Settings.Numerals

/-!
# Reading the values of fields

The text of a value is read back as the value: a count below `2^64`, a switch, and a
single that is finite (`readSingle_text`).  A single that is not has no number for a
text, and what is written for it is refused (`readSingle_null`).
-/

namespace Denoise

namespace Settings

open Decimal (digits Shortest StandsFor)
open Doubles (Double)
open Narrowing (Covers)
open Rounding (Canonical)
open Float.Model (UnpackedFloat)

variable {rest : List Char}

/-! ## Signs -/

/-- A number starts with a digit. -/
theorem exists_digit_of_readNumber {negative : Bool} {text : List Char} {r : Number × List Char}
    (h : readNumber negative text = .ok r) : ∃ c text', text = c :: text' ∧ c.isDigit = true := by
  cases text with
  | nil => cases h
  | cons c text =>
    refine ⟨c, text, rfl, ?_⟩
    by_contra hc
    rw [readNumber, spanDigits, List.takeWhile_cons_of_neg hc, List.dropWhile_cons_of_neg hc] at h
    cases h

theorem skipBlanks_cons {c : Char} {text : List Char} (h : isBlank c = false) :
    skipBlanks (c :: text) = c :: text :=
  List.dropWhile_cons_of_neg (by rw [h]; exact Bool.false_ne_true)

/-- A digit is no blank and no sign. -/
theorem isBlank_of_isDigit {c : Char} (h : c.isDigit = true) : isBlank c = false ∧ c ≠ '-' := by
  have hne : ∀ d : Char, d.isDigit = false → c ≠ d := by
    rintro d hd rfl
    rw [h] at hd
    cases hd
  refine ⟨?_, hne '-' rfl⟩
  rw [isBlank, beq_false_of_ne (hne ' ' rfl), beq_false_of_ne (hne '\n' rfl),
    beq_false_of_ne (hne '\t' rfl), beq_false_of_ne (hne '\r' rfl)]
  rfl

theorem readNumeral_of_readNumber {text : List Char} {r : Number × List Char}
    (h : readNumber false text = .ok r) : readNumeral (' ' :: text) = .ok r := by
  obtain ⟨c, text, rfl, hc⟩ := exists_digit_of_readNumber h
  obtain ⟨hblank, hsign⟩ := isBlank_of_isDigit hc
  have hskip : skipBlanks (' ' :: c :: text) = c :: text := skipBlanks_cons hblank
  rw [readNumeral, hskip]
  show (if _ then _ else _) = _
  rw [if_neg hsign, if_pos hc, h]

/-- What is read after a sign. -/
theorem readNumeral_minus {text : List Char} {n : ℕ} {k : ℤ} {x : Float} (negative : Bool)
    (hwrites : Writes text n k) (hscale : scaleByTen 3 n.toUInt64.toFloat k = some x)
    (hrest : Ends rest) :
    readNumeral (' ' :: (Decimal.minus negative ++ text ++ rest))
      = .ok (.real (if negative then -x else x), rest) := by
  have hread : readNumber negative (text ++ rest)
      = .ok (.real (if negative then -x else x), rest) := by
    rw [hwrites negative rest hrest, toReal, hscale]
    rfl
  cases negative with
  | true => exact hread
  | false => exact readNumeral_of_readNumber hread

/-! ## Singles -/

section Finite

variable {d : Shortest} {m : ℕ} {e : ℤ}

/-- A whole number is read exactly, with the zero after its point. -/
theorem exists_reading_of_whole {n : ℕ} (hn : 0 < n) (hn' : n < 10 ^ 13) :
    ∃ x, scaleByTen 3 (10 * n).toUInt64.toFloat (-1) = some x ∧ Double x n := by
  have hvalue : (((10 * n : ℕ) : ℚ) * 10 ^ (-1 : ℤ)) = n := by
    push_cast
    rw [zpow_neg_one]
    field_simp
  have hone : (1 : ℚ) ≤ n := by exact_mod_cast hn
  have hbound : (n : ℚ) ≤ 10 ^ 13 := by exact_mod_cast hn'.le
  obtain ⟨x, v, hread, hv⟩ := @Decimal.exists_reading (10 * n) (-1) (by omega) (by omega) (by decide)
    (by rw [hvalue]; exact le_trans (by norm_num) hone)
    (by rw [hvalue]; exact hbound.trans (by norm_num))
  have hexact := hv.exact (by decide) n 0 (by omega) (by rw [hvalue, zpow_zero, mul_one])
  rw [hvalue] at hexact
  exact ⟨x, hread, hexact ▸ hv.double⟩

/-- The text of a decimal gives a double in the rounding interval that the decimal is
in. -/
theorem exists_writes_positional (h : StandsFor d m e) (hm : Canonical .binary32 m e) (he : e ≤ 104)
    (hmost : d.k + (digits d.n).length - 1 < 13) :
    ∃ n k x v, Writes (Decimal.positional true d.n d.k) n k
      ∧ scaleByTen 3 n.toUInt64.toFloat k = some x ∧ Double x v ∧ Covers (.of .binary32 m e) e v := by
  have hn := h.n_le
  rcases lt_or_ge d.k 0 with hneg | hnonneg
  · obtain ⟨x, v, hread⟩ := Decimal.exists_reading_of_standsFor h hm he
    have hwrites : Writes (Decimal.pointed d.n d.k.natAbs) d.n (-d.k.natAbs) :=
      writes_pointed (by omega) (Int.natAbs_pos.2 hneg.ne)
    rw [Int.natCast_natAbs, abs_of_neg hneg, neg_neg] at hwrites
    rw [Decimal.positional, if_neg (not_le.2 hneg)]
    exact ⟨d.n, d.k, x, v, hwrites, hread⟩
  · obtain ⟨j, hj⟩ : ∃ j : ℕ, d.k = j := ⟨d.k.toNat, by omega⟩
    have hlt : d.n * 10 ^ j < 10 ^ 13 := by
      calc d.n * 10 ^ j < 10 ^ (digits d.n).length * 10 ^ j :=
            Nat.mul_lt_mul_of_pos_right (Decimal.lt_pow_length_digits d.n) (by positivity)
        _ = 10 ^ ((digits d.n).length + j) := (pow_add _ _ _).symm
        _ ≤ 10 ^ 13 := Nat.pow_le_pow_right (by decide) (by omega)
    have hvalue : d.value = (d.n * 10 ^ j : ℕ) := by
      rw [Shortest.value, hj, zpow_natCast]
      push_cast
      rfl
    obtain ⟨x, hread, hx⟩ := exists_reading_of_whole (Nat.mul_pos h.pos (by positivity)) hlt
    rw [Decimal.positional, if_pos hnonneg, hj]
    exact ⟨_, -1, x, _, writes_whole (n := d.n * 10 ^ j) (by omega), hread, hx, hvalue ▸ h.covers⟩

/-- The shortest decimal is read as a double within reach of the number it stands for. -/
theorem exists_writes_normalised (h : StandsFor d m e) (hm : Canonical .binary32 m e) (he : e ≤ 104) :
    ∃ n k x v, Writes (Decimal.normalised d.n d.k) n k
      ∧ scaleByTen 3 n.toUInt64.toFloat k = some x ∧ Double x v ∧ Covers (.of .binary32 m e) e v := by
  have hn := h.n_le
  obtain ⟨x, v, hread⟩ := Decimal.exists_reading_of_standsFor h hm he
  exact ⟨d.n, d.k, x, v, writes_normalised (by omega), hread⟩

end Finite

variable {b : Float32}

/-- A finite number is read back as it was written. -/
theorem readSingle_finite {s : UnpackedFloat.Sign} {m : ℕ} {e : ℤ} {pos : 0 < m}
    (hb : b.toModel.unpack = .finite s m e pos) (hrest : Ends rest) :
    readSingle (' ' :: (Decimal.inDocuments.single b ++ rest)) = .ok (b, rest) := by
  obtain ⟨hlt, hdigits, hleast, he⟩ := Singles.finite_bounds hb
  have hm : Canonical .binary32 m e := ⟨pos, hlt, hleast, hdigits⟩
  have hd := Decimal.shortest_standsFor hm
  obtain ⟨text, htext, n, k, x, v, hwrites, hread, hx, hcovers⟩ : ∃ text,
      Decimal.inDocuments.single b = Decimal.minus (s == .negative) ++ text ∧ ∃ n k x v,
      Writes text n k ∧ scaleByTen 3 n.toUInt64.toFloat k = some x ∧ Double x v
        ∧ Covers (.of .binary32 m e) e v := by
    refine ⟨_, by rw [Decimal.Style.single, hb]; rfl, ?_⟩
    split
    next hplain =>
      exact exists_writes_positional hd hm he (of_decide_eq_true (Bool.and_eq_true_iff.1 hplain).2)
    next => exact exists_writes_normalised hd hm he
  rw [htext, readSingle, readNumeral_minus _ hwrites hread hrest]
  show Except.ok (narrow _, rest) = _
  obtain ⟨p, g, hp, hunpack, hfull, rfl⟩ := hx
  cases s with
  | positive =>
    show Except.ok (narrow x, rest) = _
    rw [Narrowing.narrow_eq hunpack hfull hb hcovers]
  | negative =>
    show Except.ok (narrow (-x), rest) = _
    rw [Narrowing.narrow_eq (Doubles.unpack_neg hunpack) hfull hb hcovers]

theorem readSingle_zero {s : UnpackedFloat.Sign} (hb : b.toModel.unpack = .zero s)
    (hrest : Ends rest) : readSingle (' ' :: (Decimal.inDocuments.single b ++ rest)) = .ok (b, rest) := by
  have htext : Decimal.inDocuments.single b
      = Decimal.minus (s == .negative) ++ Decimal.positional true 0 0 := by
    rw [Decimal.Style.single, hb]
    rfl
  have hwrites : Writes (Decimal.positional true 0 0) 0 (-1) := writes_whole (n := 0) (by decide)
  have hread : scaleByTen 3 (0 : ℕ).toUInt64.toFloat (-1)
      = some ((0 : ℕ).toUInt64.toFloat / ofCount 10) := rfl
  rw [htext, readSingle, readNumeral_minus _ hwrites hread hrest]
  show Except.ok (narrow _, rest) = _
  congr 2
  refine Bits.eq_of_unpack_eq ?_
  rw [hb]
  cases s with
  | positive => rfl
  | negative => rfl

/-- The text of a finite single is read back. -/
theorem readSingle_text (hb : b.isFinite = true) (hrest : Ends rest) :
    readSingle (' ' :: (Decimal.inDocuments.single b ++ rest)) = .ok (b, rest) := by
  have hfinite : b.toModel.unpack.isFinite = true := hb
  cases hu : b.toModel.unpack with
  | notANumber => rw [hu] at hfinite; cases hfinite
  | infinity => rw [hu] at hfinite; cases hfinite
  | zero => exact readSingle_zero hu hrest
  | finite => exact readSingle_finite hu hrest

/-- What is written for a number that is not finite is refused. -/
theorem readSingle_null (hb : b.isFinite = false) :
    readSingle (' ' :: (Decimal.inDocuments.single b ++ rest)) = .error .mismatched := by
  have hfinite : b.toModel.unpack.isFinite = false := hb
  have htext : Decimal.inDocuments.single b = "null".toList := by
    rw [Decimal.Style.single]
    cases hu : b.toModel.unpack with
    | notANumber => rfl
    | infinity => rfl
    | zero => rw [hu] at hfinite; cases hfinite
    | finite => rw [hu] at hfinite; cases hfinite
  rw [htext]
  rfl

/-! ## Counts and switches -/

theorem readCount_text {n : ℕ} (hn : n < 2 ^ 64) (hrest : Ends rest) :
    readCount (' ' :: (digits n ++ rest)) = .ok (n, rest) := by
  have hvalue := valueOf_digits n
  have hread := readNumber_digits (allDigits_digits n) (digits_ne_nil n) length_of_head?_digits
    (hvalue.symm ▸ hn) hrest
  rw [hvalue] at hread
  rw [readCount, readNumeral_of_readNumber hread]
  rfl

theorem readSwitch_text (b : Bool) :
    readSwitch (' ' :: ((if b then "true" else "false").toList ++ rest)) = .ok (b, rest) := by
  cases b with
  | true => rfl
  | false => rfl

end Settings

end Denoise
