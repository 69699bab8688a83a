import Denoise.Proofs.Narrowing

/-!
# Shortest decimals

The decimal that stands for a single lies in its rounding interval, no further from it
than one unit of its grid.  It is found by the ninth grid at the latest, since nine
digits tell any two singles apart (`exists_shortest`).
-/

namespace Denoise

namespace Decimal

open Rounding (Canonical)
open Narrowing (Covers)

/-! ## Ratios -/

/-- The number that a ratio stands for. -/
def Ratio.value (r : Ratio) : ℚ := r.num / r.den

theorem Ratio.den_of_pos (m : ℕ) (e k : ℤ) : 0 < (Ratio.of m e k).den :=
  Nat.mul_pos (Nat.pow_pos (by decide)) (Nat.pow_pos (by decide))

/-- A power as the quotient of its two whole parts. -/
theorem zpow_eq_div (c : ℚ) (e : ℤ) : c ^ e = c ^ e.toNat / c ^ (-e).toNat := by
  rcases le_total 0 e with he | he
  · rw [(by omega : (-e).toNat = 0), pow_zero, div_one, ← zpow_natCast, Int.toNat_of_nonneg he]
  · rw [(by omega : e.toNat = 0), pow_zero, one_div, ← zpow_natCast, Int.toNat_of_nonneg (by omega),
      zpow_neg, inv_inv]

theorem Ratio.value_of (m : ℕ) (e k : ℤ) : (Ratio.of m e k).value = m * 2 ^ e * 10 ^ k := by
  rw [value, zpow_eq_div 2 e, zpow_eq_div 10 k]
  show ((m * 2 ^ e.toNat * 10 ^ k.toNat : ℕ) : ℚ) / ((2 ^ (-e).toNat * 10 ^ (-k).toNat : ℕ) : ℚ) = _
  push_cast
  field_simp

/-- The neighbour below on a grid. -/
theorem Ratio.floor_bounds {r : Ratio} (hden : 0 < r.den) :
    ((r.num / r.den : ℕ) : ℚ) ≤ r.value ∧ r.value < ((r.num / r.den : ℕ) : ℚ) + 1 := by
  have hpos : (0 : ℚ) < r.den := by exact_mod_cast hden
  rw [value, le_div_iff₀ hpos, div_lt_iff₀ hpos]
  constructor
  · exact_mod_cast Nat.div_mul_le_self r.num r.den
  · exact_mod_cast Nat.lt_mul_of_div_lt (Nat.lt_succ_self _) hden

/-! ## Digits and exponents -/

theorem length_digits_pos (n : ℕ) : 0 < (digits n).length := Nat.length_toDigits_pos

theorem lt_pow_length_digits (n : ℕ) : n < 10 ^ (digits n).length :=
  (Nat.length_toDigits_le_iff (by decide) (length_digits_pos n)).1 le_rfl

theorem pow_length_digits_le {n : ℕ} (hn : 0 < n) : 10 ^ ((digits n).length - 1) ≤ n := by
  rcases Nat.eq_zero_or_pos ((digits n).length - 1) with hzero | hpos
  · rw [hzero]
    exact hn
  · by_contra hlt
    have := (Nat.length_toDigits_le_iff (by decide) hpos).2 (not_le.1 hlt)
    have := length_digits_pos n
    simp only [digits] at *
    omega

/-- The exponent is that of the leading decimal digit. -/
theorem Ratio.exponent_bounds {r : Ratio} (hnum : 0 < r.num) (hden : 0 < r.den) :
    10 ^ r.exponent ≤ r.value ∧ r.value < 10 ^ (r.exponent + 1) := by
  have hpos : (0 : ℚ) < r.den := by exact_mod_cast hden
  rw [value, le_div_iff₀ hpos, div_lt_iff₀ hpos, exponent]
  split
  next hle =>
    have hquotient : 0 < r.num / r.den := Nat.div_pos hle hden
    have hlow := pow_length_digits_le hquotient
    have hhigh := lt_pow_length_digits (r.num / r.den)
    have hlength := length_digits_pos (r.num / r.den)
    generalize (digits (r.num / r.den)).length = l at *
    obtain ⟨l, rfl⟩ : ∃ l', l = l' + 1 := ⟨l - 1, by omega⟩
    rw [Nat.add_sub_cancel, Nat.le_div_iff_mul_le hden] at hlow
    rw [Nat.div_lt_iff_lt_mul hden] at hhigh
    rw [Nat.cast_add, Nat.cast_one, add_sub_cancel_right, zpow_natCast, zpow_add_one₀ (by norm_num),
      zpow_natCast, ← pow_succ]
    constructor
    · exact_mod_cast hlow
    · exact_mod_cast hhigh
  next hgt =>
    have hquotient : 0 < (r.den - 1) / r.num := Nat.div_pos (by omega) hnum
    have hlow := pow_length_digits_le hquotient
    have hhigh := lt_pow_length_digits ((r.den - 1) / r.num)
    have hlength := length_digits_pos ((r.den - 1) / r.num)
    generalize (digits ((r.den - 1) / r.num)).length = l at *
    obtain ⟨l, rfl⟩ : ∃ l', l = l' + 1 := ⟨l - 1, by omega⟩
    rw [Nat.add_sub_cancel, Nat.le_div_iff_mul_le hnum] at hlow
    rw [Nat.div_lt_iff_lt_mul hnum] at hhigh
    have hlow' : (10 ^ l : ℚ) * r.num < r.den := by exact_mod_cast (by omega : 10 ^ l * r.num < r.den)
    have hhigh' : (r.den : ℚ) ≤ 10 ^ (l + 1) * r.num := by
      exact_mod_cast (by omega : r.den ≤ 10 ^ (l + 1) * r.num)
    rw [(by push_cast; ring : -((l + 1 : ℕ) : ℤ) + 1 = -(l : ℤ)), zpow_neg, zpow_neg, zpow_natCast,
      zpow_natCast, inv_mul_le_iff₀ (by positivity), lt_inv_mul_iff₀ (by positivity)]
    exact ⟨hhigh', hlow'⟩

/-! ## The rounding interval -/

theorem holds_iff (i : Interval) (e : ℤ) (n : ℕ) (k : ℤ) :
    i.holds e n k = true ↔ Covers i e (n * 10 ^ k) := by
  have hvalue := Ratio.value_of n (2 - e) k
  have hden := Ratio.den_of_pos n (2 - e) k
  have hpos : (0 : ℚ) < (Ratio.of n (2 - e) k).den := by exact_mod_cast hden
  have hunit : (0 : ℚ) < 2 ^ (e - 2) := by positivity
  have hscale : (n * 10 ^ k : ℚ) = (Ratio.of n (2 - e) k).value * 2 ^ (e - 2) := by
    rw [hvalue, (by ring : 2 - e = -(e - 2)), zpow_neg]
    field_simp
  rw [Interval.holds, Covers, hscale, Ratio.value]
  generalize Ratio.of n (2 - e) k = r at *
  cases i.closed with
  | true =>
    simp only [if_true, decide_eq_true_eq, mul_le_mul_iff_left₀ hunit, le_div_iff₀ hpos,
      div_le_iff₀ hpos]
    norm_cast
  | false =>
    simp only [Bool.false_eq_true, if_false, decide_eq_true_eq, mul_lt_mul_iff_left₀ hunit,
      lt_div_iff₀ hpos, div_lt_iff₀ hpos]
    norm_cast

theorem roundDiv_eq_or (tie : Tie) (num den : ℕ) :
    roundDiv tie num den = num / den ∨ roundDiv tie num den = num / den + 1 := by
  rw [roundDiv.eq_def]
  cases compare (2 * (num % den)) den with
  | lt => exact .inl rfl
  | gt => exact .inr rfl
  | eq =>
    cases tie with
    | toEven =>
      show num / den + num / den % 2 = _ ∨ num / den + num / den % 2 = _
      omega
    | upward => exact .inr rfl

/-- A decimal found on a grid is in the interval, and one of the two neighbours. -/
theorem neighbour?_eq_some {tie : Tie} {i : Interval} {m n : ℕ} {e k : ℤ}
    (h : neighbour? tie i m e k = some n) :
    Covers i e (n * 10 ^ k)
      ∧ (n = (Ratio.of m e (-k)).num / (Ratio.of m e (-k)).den
        ∨ n = (Ratio.of m e (-k)).num / (Ratio.of m e (-k)).den + 1) := by
  rw [← holds_iff]
  rw [neighbour?] at h
  split at h
  next hbelow habove =>
    have hn := Option.some.inj h
    rcases roundDiv_eq_or tie (Ratio.of m e (-k)).num (Ratio.of m e (-k)).den with heq | heq
    · rw [← hn, heq]
      exact ⟨hbelow, .inl rfl⟩
    · rw [← hn, heq]
      exact ⟨habove, .inr rfl⟩
  next hbelow _ => exact Option.some.inj h ▸ ⟨hbelow, .inl rfl⟩
  next _ habove => exact Option.some.inj h ▸ ⟨habove, .inr rfl⟩
  next => cases h

/-- Both neighbours on a grid are within a unit of it. -/
theorem abs_neighbour_sub_le {m n : ℕ} {e k : ℤ}
    (hn : n = (Ratio.of m e (-k)).num / (Ratio.of m e (-k)).den
      ∨ n = (Ratio.of m e (-k)).num / (Ratio.of m e (-k)).den + 1) :
    |(n * 10 ^ k - m * 2 ^ e : ℚ)| ≤ 10 ^ k := by
  obtain ⟨hlow, hhigh⟩ := Ratio.floor_bounds (Ratio.den_of_pos m e (-k))
  have hunit : (0 : ℚ) < 10 ^ k := by positivity
  have hscale : (m * 2 ^ e : ℚ) = (Ratio.of m e (-k)).value * 10 ^ k := by
    rw [Ratio.value_of, zpow_neg]
    field_simp
  have hdistance : |(n : ℚ) - (Ratio.of m e (-k)).value| ≤ 1 := by
    rw [abs_le]
    rcases hn with rfl | rfl
    · constructor <;> linarith
    · push_cast
      constructor <;> linarith
  rw [hscale, ← sub_mul, abs_mul, abs_of_pos hunit]
  exact (mul_le_mul_of_nonneg_right hdistance hunit.le).trans (one_mul _).le

/-! ## The ninth grid -/

variable {m : ℕ} {e : ℤ}

/-- What is nearer than a `2^25`th is in the interval. -/
theorem covers_of_near {v : ℚ} (hm : Canonical .binary32 m e)
    (hv : |v - m * 2 ^ e| < m * 2 ^ e / 2 ^ 25) : Covers (.of .binary32 m e) e v := by
  have hlt : m < 2 ^ 24 := hm.lt
  have hpos : (0 : ℚ) < m := by exact_mod_cast hm.pos
  have hunit : (0 : ℚ) < 2 ^ (e - 2) := by positivity
  have hquarter : (2 : ℚ) ^ e = 4 * 2 ^ (e - 2) := by
    rw [zpow_sub₀ (by norm_num)]
    norm_num
    ring
  rw [hquarter, abs_lt] at hv
  have hlt' : (m : ℚ) < 2 ^ 24 := by exact_mod_cast hlt
  have hhigh : v < ((Interval.of .binary32 m e).high : ℚ) * 2 ^ (e - 2) := by
    show v < ((4 * m + 2 : ℕ) : ℚ) * 2 ^ (e - 2)
    push_cast
    nlinarith
  have hlow : ((Interval.of .binary32 m e).low : ℚ) * 2 ^ (e - 2) < v := by
    rw [Narrowing.low_eq]
    split
    next hleast =>
      rw [Nat.cast_sub (by omega)]
      push_cast
      rw [hleast.1] at hv ⊢
      push_cast at *
      nlinarith
    next =>
      rw [Nat.cast_sub (by have := hm.pos; omega)]
      push_cast
      nlinarith
  rw [Covers]
  split
  · exact ⟨hlow.le, hhigh.le⟩
  · exact ⟨hlow, hhigh⟩

/-- The exponent of the leading decimal digit of a single. -/
def leading (m : ℕ) (e : ℤ) : ℤ := (Ratio.of m e 0).exponent

theorem leading_bounds (hm : 0 < m) :
    (10 : ℚ) ^ leading m e ≤ m * 2 ^ e ∧ (m * 2 ^ e : ℚ) < 10 ^ (leading m e + 1) := by
  have hbounds := @Ratio.exponent_bounds (Ratio.of m e 0)
    (Nat.mul_pos (Nat.mul_pos hm (Nat.pow_pos (by decide))) (Nat.pow_pos (by decide)))
    (Ratio.den_of_pos m e 0)
  rwa [Ratio.value_of, zpow_zero, mul_one] at hbounds

/-- A neighbour on the grid `j` below the leading digit has `j` digits more. -/
theorem neighbour_digits {n j : ℕ} (hm : 0 < m)
    (hn : n = (Ratio.of m e (-(leading m e - j))).num / (Ratio.of m e (-(leading m e - j))).den
      ∨ n = (Ratio.of m e (-(leading m e - j))).num / (Ratio.of m e (-(leading m e - j))).den + 1) :
    0 < n ∧ n ≤ 10 ^ (j + 1) := by
  obtain ⟨hlow, hhigh⟩ := @leading_bounds m e hm
  have hden := Ratio.den_of_pos m e (-(leading m e - j))
  obtain ⟨hfloor, hceil⟩ := Ratio.floor_bounds hden
  have hvalue : (Ratio.of m e (-(leading m e - j))).value = m * 2 ^ e * 10 ^ j / 10 ^ leading m e := by
    rw [Ratio.value_of, neg_sub, zpow_sub₀ (by norm_num), zpow_natCast]
    ring
  have hunit : (0 : ℚ) < 10 ^ leading m e := by positivity
  rw [zpow_add_one₀ (by norm_num)] at hhigh
  have hatLeast : (10 : ℚ) ^ j ≤ (Ratio.of m e (-(leading m e - j))).value := by
    rw [hvalue, le_div_iff₀ hunit, mul_comm]
    exact mul_le_mul_of_nonneg_right hlow (by positivity)
  have hbelow : (Ratio.of m e (-(leading m e - j))).value < 10 ^ (j + 1) := by
    rw [hvalue, div_lt_iff₀ hunit, pow_succ]
    calc (m * 2 ^ e * 10 ^ j : ℚ) < 10 ^ leading m e * 10 * 10 ^ j :=
          mul_lt_mul_of_pos_right hhigh (by positivity)
      _ = _ := by ring
  generalize (Ratio.of m e (-(leading m e - j))).num / (Ratio.of m e (-(leading m e - j))).den = q at *
  have hlt : q < 10 ^ (j + 1) := by exact_mod_cast hfloor.trans_lt hbelow
  have hpos : 0 < q := by
    have hone : (1 : ℚ) ≤ 10 ^ j := one_le_pow₀ (by norm_num)
    have : (0 : ℚ) < q := by linarith
    exact_mod_cast this
  omega

/-- Nine digits are enough. -/
theorem exists_neighbour (tie : Tie) (hm : Canonical .binary32 m e) :
    ∃ n, neighbour? tie (.of .binary32 m e) m e (leading m e - 8) = some n := by
  have hpos : (0 : ℚ) < m * 2 ^ e := by
    have : (0 : ℚ) < m := by exact_mod_cast hm.pos
    positivity
  have hunit : (10 : ℚ) ^ (leading m e - 8) ≤ m * 2 ^ e / 10 ^ 8 := by
    rw [zpow_sub₀ (by norm_num)]
    exact div_le_div_of_nonneg_right (leading_bounds hm.pos).1 (by positivity)
  have hnear : (m * 2 ^ e : ℚ) / 10 ^ 8 < m * 2 ^ e / 2 ^ 25 :=
    div_lt_div_of_pos_left hpos (by norm_num) (by norm_num)
  have hbelow := (holds_iff (.of .binary32 m e) e _ _).2 (covers_of_near hm
    (((abs_neighbour_sub_le (.inl rfl)).trans hunit).trans_lt hnear))
  rw [neighbour?]
  simp only [hbelow]
  split
  · exact ⟨_, rfl⟩
  · exact ⟨_, rfl⟩
  next habsurd _ => cases habsurd
  next habsurd _ => cases habsurd

/-! ## The decimal that stands for a single -/

/-- The number that a decimal stands for. -/
def Shortest.value (d : Shortest) : ℚ := d.n * 10 ^ d.k

/-- Zeros at the end only move to the exponent. -/
theorem trimmed_spec {fuel n : ℕ} {k : ℤ} (hn : 0 < n) (hfuel : n ≤ 10 ^ fuel) :
    0 < (trimmed fuel n k).n ∧ (trimmed fuel n k).n ≤ n ∧ (trimmed fuel n k).n % 10 ≠ 0
      ∧ k ≤ (trimmed fuel n k).k ∧ (trimmed fuel n k).value = n * 10 ^ k := by
  induction fuel generalizing n k with
  | zero =>
    obtain rfl : n = 1 := by omega
    exact ⟨hn, le_rfl, (by decide : 1 % 10 ≠ 0), le_rfl, rfl⟩
  | succ fuel ih =>
    rw [trimmed]
    split
    next hzero =>
      have hsplit : n = 10 * (n / 10) := by omega
      obtain ⟨hpos, hle, hlast, hk, hvalue⟩ :=
        @ih (n / 10) (k + 1) (by omega) (by rw [pow_succ] at hfuel; omega)
      refine ⟨hpos, by omega, hlast, by omega, ?_⟩
      rw [hvalue, zpow_add_one₀ (by norm_num)]
      conv_rhs => rw [hsplit]
      push_cast
      ring
    next hlast => exact ⟨hn, le_rfl, hlast, le_rfl, rfl⟩

/-- A decimal that stands for `m · 2^e`. -/
structure StandsFor (d : Shortest) (m : ℕ) (e : ℤ) : Prop where
  /-- It has digits, and the last one is no zero. -/
  last : d.n % 10 ≠ 0
  /-- It is in the rounding interval. -/
  covers : Covers (.of .binary32 m e) e d.value
  /-- No neighbour on its grid is nearer than one unit. -/
  grid : |d.value - m * 2 ^ e| ≤ 10 ^ d.k
  /-- It has nine digits at most, and then it is nearer than the eighth. -/
  digits : d.n < 10 ^ 8 ∨ d.n ≤ 10 ^ 9 ∧ |d.value - m * 2 ^ e| ≤ m * 2 ^ e / 10 ^ 8

/-- The scan stops at the ninth grid or before. -/
theorem exists_found {α : Type} {f : ℕ → Option α} {a : α} (h : f 8 = some a) :
    ∃ j ≤ 8, (List.range 17).findSome? f = f j ∧ (f j).isSome = true := by
  have hsplit : List.range 17 = List.range 9 ++ (List.range 8).map (9 + ·) := rfl
  have hsome : ((List.range 9).findSome? f).isSome = true := by
    rw [List.findSome?_isSome_iff]
    exact ⟨8, by decide, by rw [h]; rfl⟩
  obtain ⟨b, hb⟩ := Option.isSome_iff_exists.1 hsome
  obtain ⟨j, hj, hfound⟩ := List.exists_of_findSome?_eq_some hb
  refine ⟨j, Nat.lt_succ_iff.1 (List.mem_range.1 hj), ?_, by rw [hfound]; rfl⟩
  rw [hsplit, List.findSome?_append, hb, hfound]
  rfl

theorem shortest_standsFor (hm : Canonical .binary32 m e) :
    StandsFor (shortest .binary32 .toEven m e) m e := by
  obtain ⟨n₀, hn₀⟩ := exists_neighbour .toEven hm
  obtain ⟨j, hj, hfound, hsome⟩ := @exists_found _ (fun (j : ℕ) =>
    (neighbour? .toEven (.of .binary32 m e) m e (leading m e - j)).map fun n =>
      trimmed (j + 1) n (leading m e - j)) _ (by rw [Nat.cast_ofNat, hn₀]; rfl)
  obtain ⟨n, hn⟩ : ∃ n, neighbour? .toEven (.of .binary32 m e) m e (leading m e - j) = some n := by
    simpa [Option.isSome_iff_exists] using hsome
  have hshortest : shortest .binary32 .toEven m e = trimmed (j + 1) n (leading m e - j) := by
    rw [hn] at hfound
    exact congrArg (Option.getD · _) hfound
  obtain ⟨hcovers, hneighbour⟩ := neighbour?_eq_some hn
  obtain ⟨hpos, hle⟩ := neighbour_digits hm.pos hneighbour
  obtain ⟨-, hdigits, hlast, hk, hvalue⟩ := @trimmed_spec (j + 1) n (leading m e - j) hpos hle
  have hunit := abs_neighbour_sub_le hneighbour
  rw [← hshortest] at hdigits hlast hk hvalue
  rw [← hvalue] at hcovers hunit
  refine ⟨hlast, hcovers, hunit.trans (zpow_le_zpow_right₀ (by norm_num) hk), ?_⟩
  rcases Nat.lt_or_eq_of_le hj with hlt | rfl
  · have hbound : n ≤ 10 ^ 8 := hle.trans (Nat.pow_le_pow_right (by decide) (by omega))
    refine .inl (lt_of_le_of_ne (hdigits.trans hbound) fun heq => ?_)
    rw [heq] at hlast
    exact hlast rfl
  · refine .inr ⟨hdigits.trans hle, hunit.trans ?_⟩
    rw [Nat.cast_ofNat, zpow_sub₀ (by norm_num)]
    exact div_le_div_of_nonneg_right (leading_bounds hm.pos).1 (by positivity)

end Decimal

end Denoise
