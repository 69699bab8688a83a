import Denoise.Proofs.Decimal.Separation
import Denoise.Proofs.Decimal.Shortest

/-!
# Reading a shortest decimal

A decimal is read in two roundings, that of the power of ten and that of the product or
quotient (`exists_reading`).  Together they keep it on its own side of the ends of the
rounding interval that it was chosen from, so it is narrowed to the single that it
stands for.
-/

namespace Denoise

namespace Decimal

open Rounding (Canonical)
open Narrowing (Covers)
open Doubles (Double Rounded)
open Float.Model UnpackedFloat

/-! ## Two roundings -/

/-- A double read from a decimal `d` of exponent `k`. -/
structure Reads (d : ℚ) (k : ℤ) (x : Float) (v : ℚ) : Prop where
  double : Double x v
  near : |v - d| ≤ d * (1025 / 2 ^ 62)
  exact : k.natAbs ≤ 22 → ∀ (a : ℕ) (b : ℤ), a < 2 ^ 53 → d = a * 2 ^ b → v = d

theorem isInf_of_double {x : Float} {v : ℚ} (h : Double x v) : x.isInf = false := by
  obtain ⟨m, e, pos, hunpack, -⟩ := h
  show x.toModel.unpack.isInf = false
  rw [hunpack]
  rfl

/-- A power of ten is rounded once, and the first ones are exact. -/
theorem exists_powerOfTen {j : ℕ} (hj : j ≤ 59) :
    ∃ t, Double (ofCount (Nat.pow 10 j)) t ∧ |t - 10 ^ j| ≤ 10 ^ j / 2 ^ 53
      ∧ (j ≤ 22 → t = 10 ^ j) := by
  have hhigh : ((Nat.pow 10 j : ℕ) : ℚ) ≤ 2 ^ (200 : ℤ) := by
    have : Nat.pow 10 j ≤ 10 ^ 59 := Nat.pow_le_pow_right (by decide) hj
    have : (Nat.pow 10 j : ℕ) ≤ 2 ^ 200 := this.trans (by norm_num)
    exact_mod_cast this
  obtain ⟨t, hdouble, hrounded⟩ := Doubles.ofCount (Nat.pow_pos (by decide) : 0 < Nat.pow 10 j) hhigh
  have hcast : ((10 ^ j : ℕ) : ℚ) = 10 ^ j := Nat.cast_pow 10 j
  rw [hcast] at hrounded
  refine ⟨t, hdouble, hrounded.near, fun hj' => ?_⟩
  refine hrounded.eq_of_fits (5 ^ j) j ?_ ?_
  · exact (Nat.pow_le_pow_right (by decide) hj').trans_lt (by norm_num)
  · rw [zpow_natCast]
    push_cast
    rw [← mul_pow]
    norm_num

/-- A product with a power of ten that was rounded. -/
theorem near_mul {n t p u : ℚ} (hn : 0 < n) (hp : 0 < p) (ht : |t - p| ≤ p / 2 ^ 53)
    (hu : |u - n * t| ≤ n * t / 2 ^ 53) : |u - n * p| ≤ n * p * (1025 / 2 ^ 62) := by
  have hd : 0 < n * p := mul_pos hn hp
  rw [abs_le] at *
  have hlow : n * p - n * p / 2 ^ 53 ≤ n * t := by nlinarith
  have hhigh : n * t ≤ n * p + n * p / 2 ^ 53 := by nlinarith
  constructor <;> linarith

/-- A quotient by a power of ten that was rounded. -/
theorem near_div {n t p u : ℚ} (hn : 0 < n) (hp : 0 < p) (ht : |t - p| ≤ p / 2 ^ 53)
    (hu : |u - n / t| ≤ n / t / 2 ^ 53) : |u - n / p| ≤ n / p * (1025 / 2 ^ 62) := by
  have hd : 0 < n / p := div_pos hn hp
  rw [abs_le] at ht
  have htpos : 0 < t := by linarith
  -- with the exact quotient as the unit, the inexact one is the ratio of the powers
  have hratio : n / t = n / p * (p / t) := by field_simp
  have hlow : 1 - 1 / 2 ^ 53 ≤ p / t := by
    rw [le_div_iff₀ htpos]
    linarith
  have hhigh : p / t ≤ 1 + 1025 / 2 ^ 63 := by
    rw [div_le_iff₀ htpos]
    linarith
  rw [hratio] at hu
  rw [abs_le] at *
  constructor <;> nlinarith

/-- What is near a number in the middle of the range is in the range. -/
theorem in_range {d r : ℚ} (hlow : 2 ^ (-160 : ℤ) ≤ d) (hhigh : d ≤ 2 ^ (160 : ℤ))
    (hr : |r - d| ≤ d / 2) : 2 ^ (-200 : ℤ) ≤ r ∧ r ≤ 2 ^ (200 : ℤ) := by
  obtain ⟨hr, hr'⟩ := abs_le.1 hr
  constructor
  · calc (2 : ℚ) ^ (-200 : ℤ) ≤ 2 ^ (-160 : ℤ) / 2 := by norm_num
      _ ≤ d / 2 := div_le_div_of_nonneg_right hlow two_pos.le
      _ ≤ r := by linarith
  · calc r ≤ 2 * d := by linarith [(by positivity : (0 : ℚ) ≤ 2 ^ (-160 : ℤ))]
      _ ≤ 2 * 2 ^ (160 : ℤ) := mul_le_mul_of_nonneg_left hhigh two_pos.le
      _ ≤ 2 ^ (200 : ℤ) := by norm_num

theorem exists_product {n j : ℕ} (hn : 0 < n) (hn' : n < 2 ^ 53) (hj : j ≤ 59)
    (hlow : 2 ^ (-160 : ℤ) ≤ (n * 10 ^ j : ℚ)) (hhigh : (n * 10 ^ j : ℚ) ≤ 2 ^ (160 : ℤ)) :
    ∃ v, Reads (n * 10 ^ j) j (n.toUInt64.toFloat * ofCount (Nat.pow 10 j)) v := by
  obtain ⟨t, ht, hnear, hexact⟩ := exists_powerOfTen hj
  have hnpos : (0 : ℚ) < n := by exact_mod_cast hn
  have hpower : (0 : ℚ) < 10 ^ j := by positivity
  have hproduct : |n * t - n * 10 ^ j| ≤ n * 10 ^ j / 2 := by
    rw [← mul_sub, abs_mul, abs_of_pos hnpos, mul_div_assoc]
    refine mul_le_mul_of_nonneg_left (hnear.trans ?_) hnpos.le
    exact div_le_div_of_nonneg_left hpower.le two_pos (by norm_num)
  obtain ⟨hleast, hgreatest⟩ := in_range hlow hhigh hproduct
  obtain ⟨v, hv, hrounded⟩ := Doubles.mul (Doubles.toFloat hn hn'.le) ht hleast hgreatest
  refine ⟨v, hv, near_mul hnpos hpower hnear hrounded.near, fun hk a b ha hab => ?_⟩
  rw [hexact (by omega)] at hrounded
  exact hrounded.eq_of_fits a b ha hab

theorem exists_quotient {n j : ℕ} (hn : 0 < n) (hn' : n < 2 ^ 53) (hj : j ≤ 59)
    (hlow : 2 ^ (-160 : ℤ) ≤ (n / 10 ^ j : ℚ)) (hhigh : (n / 10 ^ j : ℚ) ≤ 2 ^ (160 : ℤ)) :
    ∃ v, Reads (n / 10 ^ j) (-j) (n.toUInt64.toFloat / ofCount (Nat.pow 10 j)) v := by
  obtain ⟨t, ht, hnear, hexact⟩ := exists_powerOfTen hj
  have hnpos : (0 : ℚ) < n := by exact_mod_cast hn
  have hpower : (0 : ℚ) < 10 ^ j := by positivity
  have htpos := ht.pos
  have hquotient : |n / t - n / 10 ^ j| ≤ n / 10 ^ j / 2 := by
    have hsplit : n / t - n / 10 ^ j = n / 10 ^ j * ((10 ^ j - t) / t) := by
      field_simp
    have hhalf : |(10 ^ j - t) / t| ≤ 1 / 2 := by
      rw [abs_div, abs_of_pos htpos, div_le_iff₀ htpos, abs_sub_comm]
      have := (abs_le.1 hnear).1
      linarith
    rw [hsplit, abs_mul, abs_of_pos (div_pos hnpos hpower)]
    exact (mul_le_mul_of_nonneg_left hhalf (div_pos hnpos hpower).le).trans (by linarith)
  obtain ⟨hleast, hgreatest⟩ := in_range hlow hhigh hquotient
  obtain ⟨v, hv, hrounded⟩ := Doubles.div (Doubles.toFloat hn hn'.le) ht hleast hgreatest
  refine ⟨v, hv, near_div hnpos hpower hnear hrounded.near, fun hk a b ha hab => ?_⟩
  rw [hexact (by omega)] at hrounded
  exact hrounded.eq_of_fits a b ha hab

/-- A number of any scale that a single has is read, with the error of one rounding a
step. -/
theorem exists_reading {n : ℕ} {k : ℤ} (hn : 0 < n) (hn' : n < 2 ^ 53) (hk : k.natAbs ≤ 59)
    (hlow : 2 ^ (-160 : ℤ) ≤ (n * 10 ^ k : ℚ)) (hhigh : (n * 10 ^ k : ℚ) ≤ 2 ^ (160 : ℤ)) :
    ∃ x v, Settings.scaleByTen 3 n.toUInt64.toFloat k = some x ∧ Reads (n * 10 ^ k) k x v := by
  rw [Settings.scaleByTen, if_neg (by omega)]
  rcases lt_or_ge k 0 with hneg | hnonneg
  · obtain ⟨j, rfl⟩ : ∃ j : ℕ, k = -j := ⟨k.natAbs, by omega⟩
    have hvalue : (n * 10 ^ (-(j : ℤ)) : ℚ) = n / 10 ^ j := by
      rw [zpow_neg, zpow_natCast, div_eq_mul_inv]
    rw [hvalue] at hlow hhigh ⊢
    obtain ⟨v, hv⟩ := exists_quotient hn hn' (by omega) hlow hhigh
    rw [if_neg (by omega), if_pos (by omega), Int.natAbs_neg, Int.natAbs_natCast]
    exact ⟨_, v, rfl, hv⟩
  · obtain ⟨j, rfl⟩ : ∃ j : ℕ, k = j := ⟨k.toNat, by omega⟩
    rw [zpow_natCast] at hlow hhigh ⊢
    obtain ⟨v, hv⟩ := exists_product hn hn' (by omega) hlow hhigh
    rw [if_pos hnonneg, Int.toNat_natCast]
    simp only [isInf_of_double hv.double]
    exact ⟨_, v, rfl, hv⟩

/-! ## Sides -/

/-- Which side of a number another one lies on. -/
theorem side?_eq {x : Float} {v : ℚ} (h : Double x v) (a : ℕ) (b : ℤ) :
    (v < a * 2 ^ b ∧ Separation.side? x a b = some .lt)
      ∨ (v = a * 2 ^ b ∧ Separation.side? x a b = some .eq)
      ∨ (a * 2 ^ b < v ∧ Separation.side? x a b = some .gt) := by
  obtain ⟨p, g, pos, hunpack, -, rfl⟩ := h
  have hunit : (0 : ℚ) < 2 ^ min g b := by positivity
  have hleft : (p * 2 ^ g : ℚ) = (p * 2 ^ (g - b).toNat : ℕ) * 2 ^ min g b := by
    push_cast
    rw [mul_assoc, ← zpow_natCast, ← zpow_add₀ (by norm_num)]
    congr 2
    omega
  have hright : (a * 2 ^ b : ℚ) = (a * 2 ^ (b - g).toNat : ℕ) * 2 ^ min g b := by
    push_cast
    rw [mul_assoc, ← zpow_natCast, ← zpow_add₀ (by norm_num)]
    congr 2
    omega
  rw [Separation.side?, hunpack, hleft, hright, mul_lt_mul_iff_left₀ hunit,
    mul_lt_mul_iff_left₀ hunit, mul_left_inj' hunit.ne', Nat.cast_lt, Nat.cast_lt, Nat.cast_inj]
  rcases lt_trichotomy (p * 2 ^ (g - b).toNat) (a * 2 ^ (b - g).toNat) with hlt | heq | hgt
  · exact .inl ⟨hlt, congrArg some (Nat.compare_eq_lt.2 hlt)⟩
  · exact .inr (.inl ⟨heq, congrArg some (Nat.compare_eq_eq.2 heq)⟩)
  · exact .inr (.inr ⟨hgt, congrArg some (Nat.compare_eq_gt.2 hgt)⟩)

/-- A decimal has a form of eight digits. -/
theorem exists_eight_digits {n : ℕ} (hn : 0 < n) (hn' : n < 10 ^ 8) :
    ∃ i < 8, 10 ^ 7 ≤ n * 10 ^ i ∧ n * 10 ^ i < 10 ^ 8 := by
  have hlow := pow_length_digits_le hn
  have hhigh := lt_pow_length_digits n
  have hlength : (digits n).length ≤ 8 := (Nat.length_toDigits_le_iff (by decide) (by decide)).2 hn'
  have hpos := length_digits_pos n
  generalize (digits n).length = l at *
  refine ⟨8 - l, by omega, ?_, ?_⟩
  · calc 10 ^ 7 = 10 ^ (l - 1) * 10 ^ (8 - l) := by rw [← pow_add]; congr 1; omega
      _ ≤ _ := Nat.mul_le_mul_right _ hlow
  · calc n * 10 ^ (8 - l) < 10 ^ l * 10 ^ (8 - l) := Nat.mul_lt_mul_of_pos_right hhigh (by positivity)
      _ = 10 ^ 8 := by rw [← pow_add]; congr 1; omega

section Scale

open Separation

variable {n a i K B : ℕ} {k b : ℤ}

/-- The unit of both scales. -/
def unit : ℚ := 10 ^ 53 * 2 ^ 150

theorem unit_pos : 0 < unit := by
  rw [unit]
  positivity

theorem scale_ten (hK : (K : ℤ) = k - i + 53) :
    ((n * 10 ^ i * (Scale.of K B).ten : ℕ) : ℚ) = n * 10 ^ k * unit := by
  have hpower : (10 : ℚ) ^ K * 10 ^ i = 10 ^ k * 10 ^ 53 := by
    rw [← zpow_natCast, ← zpow_natCast, ← zpow_natCast, ← zpow_add₀ (by norm_num),
      ← zpow_add₀ (by norm_num)]
    congr 1
    push_cast
    omega
  rw [Scale.of, unit]
  push_cast
  linear_combination (n * 2 ^ 150 : ℚ) * hpower

theorem scale_two (hB : (B : ℤ) = b + 150) :
    ((a * (Scale.of K B).two : ℕ) : ℚ) = a * 2 ^ b * unit := by
  have hpower : (2 : ℚ) ^ B = 2 ^ b * 2 ^ 150 := by
    rw [← zpow_natCast, ← zpow_natCast, ← zpow_add₀ (by norm_num), hB]
    rfl
  rw [Scale.of, unit]
  push_cast
  linear_combination (a * 10 ^ 53 : ℚ) * hpower

/-- The whole numbers compare as the decimal and the halfway point do. -/
theorem side_eq (hK : (K : ℤ) = k - i + 53) (hB : (B : ℤ) = b + 150) :
    ((n * 10 ^ k : ℚ) < a * 2 ^ b ∧ (Scale.of K B).side ⟨n * 10 ^ i, a⟩ = .lt)
      ∨ ((n * 10 ^ k : ℚ) = a * 2 ^ b ∧ (Scale.of K B).side ⟨n * 10 ^ i, a⟩ = .eq)
      ∨ ((a * 2 ^ b : ℚ) < n * 10 ^ k ∧ (Scale.of K B).side ⟨n * 10 ^ i, a⟩ = .gt) := by
  have hten := @scale_ten n i K B k hK
  have htwo := @scale_two a K B b hB
  rcases lt_trichotomy (n * 10 ^ i * (Scale.of K B).ten) (a * (Scale.of K B).two) with hlt | heq | hgt
  · refine .inl ⟨(mul_lt_mul_iff_left₀ unit_pos).1 ?_, Nat.compare_eq_lt.2 hlt⟩
    rw [← hten, ← htwo]
    exact Nat.cast_lt.2 hlt
  · refine .inr (.inl ⟨mul_right_cancel₀ unit_pos.ne' ?_, Nat.compare_eq_eq.2 heq⟩)
    rw [← hten, ← htwo, heq]
  · refine .inr (.inr ⟨(mul_lt_mul_iff_left₀ unit_pos).1 ?_, Nat.compare_eq_gt.2 hgt⟩)
    rw [← hten, ← htwo]
    exact Nat.cast_lt.2 hgt

theorem below_iff (hK : (K : ℤ) = k - i + 53) (hB : (B : ℤ) = b + 150) :
    (Scale.of K B).Below ⟨n * 10 ^ i, a⟩
      ↔ (n * 10 ^ k : ℚ) * (1 + 1025 / 2 ^ 62) < a * 2 ^ b := by
  have hpos : 0 < unit * 2 ^ 62 := mul_pos unit_pos (by norm_num)
  have hleft : ((n * 10 ^ i * (Scale.of K B).ten * (2 ^ 62 + 1025) : ℕ) : ℚ)
      = n * 10 ^ k * (1 + 1025 / 2 ^ 62) * (unit * 2 ^ 62) := by
    rw [Nat.cast_mul, scale_ten hK]
    push_cast
    ring
  have hright : ((a * (Scale.of K B).two * 2 ^ 62 : ℕ) : ℚ) = a * 2 ^ b * (unit * 2 ^ 62) := by
    rw [Nat.cast_mul, scale_two hB]
    push_cast
    ring
  rw [← mul_lt_mul_iff_left₀ hpos, ← hleft, ← hright, Nat.cast_lt]
  rfl

theorem above_iff (hK : (K : ℤ) = k - i + 53) (hB : (B : ℤ) = b + 150) :
    (Scale.of K B).Above ⟨n * 10 ^ i, a⟩
      ↔ (a * 2 ^ b : ℚ) < n * 10 ^ k * (1 - 1025 / 2 ^ 62) := by
  have hpos : 0 < unit * 2 ^ 62 := mul_pos unit_pos (by norm_num)
  have hleft : ((n * 10 ^ i * (Scale.of K B).ten * (2 ^ 62 - 1025) : ℕ) : ℚ)
      = n * 10 ^ k * (1 - 1025 / 2 ^ 62) * (unit * 2 ^ 62) := by
    rw [Nat.cast_mul, scale_ten hK, Nat.cast_sub (by norm_num)]
    push_cast
    ring
  have hright : ((a * (Scale.of K B).two * 2 ^ 62 : ℕ) : ℚ) = a * 2 ^ b * (unit * 2 ^ 62) := by
    rw [Nat.cast_mul, scale_two hB]
    push_cast
    ring
  rw [← mul_lt_mul_iff_left₀ hpos, ← hleft, ← hright, Nat.cast_lt]
  rfl

theorem coarse_iff (hK : (K : ℤ) = k - i + 53) (hB : (B : ℤ) = b + 150) :
    Coarse (K + i) B ↔ (9 * 2 ^ b : ℚ) ≤ 10 * 10 ^ k := by
  have hten := @scale_ten 1 0 (K + i) B k (by push_cast; omega)
  have htwo := @scale_two 1 (K + i) B b hB
  rw [pow_zero, mul_one, one_mul, Nat.cast_one, one_mul] at hten
  rw [one_mul, Nat.cast_one, one_mul] at htwo
  rw [Coarse, ← @Nat.cast_le ℚ, Nat.cast_mul, Nat.cast_mul, hten, htwo, ← mul_assoc, ← mul_assoc,
    mul_le_mul_iff_left₀ unit_pos]
  rfl

/-- A number that stands on the same side of a halfway point as another one, or on the
point if the even neighbour is on that side. -/
structure OnSide (d h v : ℚ) (a : ℕ) : Prop where
  below : d < h → v < h ∨ v = h ∧ a % 4 = 1
  above : h < d → h < v ∨ v = h ∧ a % 4 = 3
  on : d = h → v = h

theorem OnSide.of_keepsSide {x : Float} {v d h : ℚ} {order : Ordering} (hx : Double x v)
    (hread : Settings.scaleByTen 3 n.toUInt64.toFloat k = some x) (hh : h = a * 2 ^ b)
    (horder : (d < h ∧ order = .lt) ∨ (h < d ∧ order = .gt))
    (hkeeps : keepsSide order n k a b = true) : OnSide d h v a := by
  subst hh
  simp only [keepsSide, hread] at hkeeps
  rcases horder with ⟨hlt, rfl⟩ | ⟨hgt, rfl⟩
  · refine ⟨fun _ => ?_, fun h => absurd h hlt.not_gt, fun h => absurd h hlt.ne⟩
    rcases side?_eq hx a b with ⟨hside, heq⟩ | ⟨hside, heq⟩ | ⟨hside, heq⟩
    · exact .inl hside
    · rw [heq] at hkeeps
      exact .inr ⟨hside, of_decide_eq_true hkeeps⟩
    · rw [heq] at hkeeps
      cases hkeeps
  · refine ⟨fun h => absurd h hgt.not_gt, fun _ => ?_, fun h => absurd h hgt.ne'⟩
    rcases side?_eq hx a b with ⟨hside, heq⟩ | ⟨hside, heq⟩ | ⟨hside, heq⟩
    · rw [heq] at hkeeps
      cases hkeeps
    · rw [heq] at hkeeps
      exact .inr ⟨hside, of_decide_eq_true hkeeps⟩
    · exact .inl hside

/-- The exponent of the form of eight digits is in the range of the singles. -/
theorem exponent_range {d : ℚ} {N : ℕ} {K : ℤ} (hlow : 10 ^ 7 ≤ N) (hhigh : N < 10 ^ 8)
    (hd : d = N * 10 ^ K) (hleast : 2 ^ (-150 : ℤ) ≤ d) (hgreatest : d ≤ 2 ^ (128 : ℤ)) :
    -53 ≤ K ∧ K ≤ 31 := by
  have hunit : (0 : ℚ) < 10 ^ K := by positivity
  constructor
  · by_contra! hlt
    have hpower : (10 : ℚ) ^ K ≤ 10 ^ (-54 : ℤ) := zpow_le_zpow_right₀ (by norm_num) (by omega)
    have hN : (N : ℚ) ≤ 10 ^ 8 := by exact_mod_cast hhigh.le
    have : d ≤ 10 ^ 8 * 10 ^ (-54 : ℤ) := by
      rw [hd]
      exact mul_le_mul hN hpower hunit.le (by norm_num)
    exact absurd (hleast.trans this) (by norm_num)
  · by_contra! hgt
    have hpower : (10 : ℚ) ^ (32 : ℤ) ≤ 10 ^ K := zpow_le_zpow_right₀ (by norm_num) (by omega)
    have hN : (10 : ℚ) ^ 7 ≤ N := by exact_mod_cast hlow
    have : 10 ^ 7 * 10 ^ (32 : ℤ) ≤ d := by
      rw [hd]
      exact mul_le_mul hN hpower (by positivity) (by positivity)
    exact absurd (this.trans hgreatest) (by norm_num)

/-- What is read of a decimal of at most eight digits is on the side of the decimal. -/
theorem Reads.onSide {x : Float} {v : ℚ} (hv : Reads (n * 10 ^ k) k x v)
    (hread : Settings.scaleByTen 3 n.toUInt64.toFloat k = some x) (hn : 0 < n) (hn' : n < 10 ^ 8)
    (hleast : 2 ^ (-150 : ℤ) ≤ (n * 10 ^ k : ℚ)) (hgreatest : (n * 10 ^ k : ℚ) ≤ 2 ^ (128 : ℤ))
    (hodd : a % 2 = 1) (hbits : a < 2 ^ 25) (hfull : 2 ^ 24 ≤ a ∨ b = -150) (hb : -150 ≤ b)
    (hcoarse : |(n * 10 ^ k - a * 2 ^ b : ℚ)| ≤ a * 2 ^ b / 2 ^ 51 → (9 * 2 ^ b : ℚ) ≤ 10 * 10 ^ k) :
    OnSide (n * 10 ^ k) (a * 2 ^ b) v a := by
  obtain ⟨i, hi, hlow, hhigh⟩ := exists_eight_digits hn hn'
  have hpos : (0 : ℚ) < n * 10 ^ k := by
    have : (0 : ℚ) < n := by exact_mod_cast hn
    positivity
  have hrange := @exponent_range (n * 10 ^ k) (n * 10 ^ i) (k - i) hlow hhigh
    (by rw [zpow_sub₀ (by norm_num), zpow_natCast]; push_cast; field_simp) hleast hgreatest
  obtain ⟨K, hK⟩ : ∃ K : ℕ, (K : ℤ) = k - i + 53 := ⟨(k - i + 53).toNat, by omega⟩
  obtain ⟨B, hB⟩ : ∃ B : ℕ, (B : ℤ) = b + 150 := ⟨(b + 150).toNat, by omega⟩
  obtain ⟨hnear, hnear'⟩ := abs_le.1 hv.near
  by_cases hbelow : (Scale.of K B).Below ⟨n * 10 ^ i, a⟩
  · rw [below_iff hK hB] at hbelow
    exact ⟨fun _ => .inl (by linarith), fun h => absurd h (by linarith),
      fun h => absurd h (by linarith)⟩
  by_cases habove : (Scale.of K B).Above ⟨n * 10 ^ i, a⟩
  · rw [above_iff hK hB] at habove
    exact ⟨fun h => absurd h (by linarith), fun _ => .inl (by linarith),
      fun h => absurd h (by linarith)⟩
  have hmeets : Meets (n * 10 ^ i) a B := ⟨⟨hlow, hhigh⟩, ⟨hbits, hfull.imp_right (by omega)⟩, hodd⟩
  have hsettled := eq_or_keepsSide (by omega) hmeets hbelow habove
  rw [below_iff hK hB, not_lt] at hbelow
  rw [above_iff hK hB, not_lt] at habove
  have hdistance : |(n * 10 ^ k - a * 2 ^ b : ℚ)| ≤ a * 2 ^ b / 2 ^ 51 := by
    rw [abs_le]
    constructor <;> linarith
  rcases hsettled with ⟨hside, hexponent, hexponent'⟩ | hkept
  · rcases @side_eq n a i K B k b hK hB with ⟨-, hside'⟩ | ⟨heq, -⟩ | ⟨-, hside'⟩
    · rw [hside'] at hside
      cases hside
    · have hexact := hv.exact (by omega) a b (by omega) heq
      exact ⟨fun h => absurd h heq.not_lt, fun h => absurd h heq.not_gt, fun _ => hexact.trans heq⟩
    · rw [hside'] at hside
      cases hside
  · have hkeeps := hkept i hi (Dvd.intro_left n rfl) ((coarse_iff hK hB).2 (hcoarse hdistance))
    rw [Nat.mul_div_cancel _ (by positivity), (by push_cast; omega : ((K + i : ℕ) : ℤ) - 53 = k),
      (by omega : (B : ℤ) - 150 = b)] at hkeeps
    rcases @side_eq n a i K B k b hK hB with ⟨hlt, hside⟩ | ⟨heq, hside⟩ | ⟨hgt, hside⟩
    · rw [hside] at hkeeps
      exact .of_keepsSide hv.double hread rfl (.inl ⟨hlt, rfl⟩) hkeeps
    · rw [hside] at hkeeps
      rw [keepsSide, hread] at hkeeps
      cases hkeeps
    · rw [hside] at hkeeps
      exact .of_keepsSide hv.double hread rfl (.inr ⟨hgt, rfl⟩) hkeeps

end Scale

/-! ## The ends of the rounding interval -/

variable {m : ℕ} {e : ℤ}

/-- A halfway point next to a single.  Its own unit is the distance to the single. -/
structure Halfway (m : ℕ) (e : ℤ) (a : ℕ) (b : ℤ) : Prop where
  odd : a % 2 = 1
  bits : a < 2 ^ 25
  full : 2 ^ 24 ≤ a ∨ b = -150
  least : -150 ≤ b
  distance : |(a * 2 ^ b - m * 2 ^ e : ℚ)| = 2 ^ b

theorem two_zpow_eq (e : ℤ) : (2 : ℚ) ^ e = 4 * 2 ^ (e - 2) ∧ (2 : ℚ) ^ (e - 1) = 2 * 2 ^ (e - 2) := by
  rw [zpow_sub₀ (by norm_num), zpow_sub₀ (by norm_num)]
  constructor
  · norm_num
    ring
  · norm_num
    ring

/-- The upper end.  If the even neighbour is the one above, the single is odd. -/
theorem exists_high (hm : Canonical .binary32 m e) :
    ∃ (a : ℕ) (b : ℤ), Halfway m e a b
      ∧ ((Interval.of .binary32 m e).high * 2 ^ (e - 2) : ℚ) = a * 2 ^ b
      ∧ (m % 2 = 1 → a % 4 = 3) := by
  have hlt : m < 2 ^ 24 := hm.lt
  have hleast : -149 ≤ e := hm.least
  have hfull : 2 ^ 23 ≤ m ∨ e = -149 := hm.full
  obtain ⟨hunit, hhalf⟩ := two_zpow_eq e
  have hpos : (0 : ℚ) < 2 ^ (e - 2) := by positivity
  refine ⟨2 * m + 1, e - 1, ⟨by omega, by omega, by omega, by omega, ?_⟩, ?_, by omega⟩
  · rw [hunit, hhalf, abs_of_pos]
    · push_cast
      ring
    · push_cast
      linarith
  · rw [hhalf]
    show ((4 * m + 2 : ℕ) : ℚ) * _ = _
    push_cast
    ring

/-- The lower end.  If the even neighbour is the one below, the single is odd. -/
theorem exists_low (hm : Canonical .binary32 m e) :
    ∃ (a : ℕ) (b : ℤ), Halfway m e a b
      ∧ ((Interval.of .binary32 m e).low * 2 ^ (e - 2) : ℚ) = a * 2 ^ b
      ∧ (m % 2 = 1 → a % 4 = 1) := by
  have hlt : m < 2 ^ 24 := hm.lt
  have hleast : -149 ≤ e := hm.least
  have hfull : 2 ^ 23 ≤ m ∨ e = -149 := hm.full
  have hmpos := hm.pos
  obtain ⟨hunit, hhalf⟩ := two_zpow_eq e
  have hpos : (0 : ℚ) < 2 ^ (e - 2) := by positivity
  rw [Narrowing.low_eq]
  split
  next hquarter =>
    obtain ⟨rfl, hnormal⟩ := hquarter
    refine ⟨4 * 2 ^ 23 - 1, e - 2, ⟨by decide, by decide, .inl (by decide), by omega, ?_⟩, rfl,
      by decide⟩
    rw [hunit, abs_of_neg]
    · push_cast
      ring
    · norm_num
      linarith
  next =>
    refine ⟨2 * m - 1, e - 1, ⟨by omega, by omega, by omega, by omega, ?_⟩, ?_, by omega⟩
    · rw [hunit, hhalf, abs_of_neg]
      · rw [Nat.cast_sub (by omega)]
        push_cast
        ring
      · rw [Nat.cast_sub (by omega)]
        push_cast
        linarith
    · rw [hhalf, Nat.cast_sub (by omega), Nat.cast_sub (by omega)]
      push_cast
      ring

/-- A number on the same side of both ends is in the interval too. -/
theorem covers_of_onSide {d v : ℚ} (hm : Canonical .binary32 m e) (hd : Covers (.of .binary32 m e) e d)
    (h : ∀ a b, Halfway m e a b → OnSide d (a * 2 ^ b) v a) : Covers (.of .binary32 m e) e v := by
  obtain ⟨a, b, hlow, hlow', hodd⟩ := exists_low hm
  obtain ⟨a', b', hhigh, hhigh', hodd'⟩ := exists_high hm
  have hlowSide := h a b hlow
  have hhighSide := h a' b' hhigh
  rw [Covers, hlow', hhigh'] at hd ⊢
  split at hd
  next hclosed =>
    rw [if_pos hclosed]
    constructor
    · rcases hd.1.lt_or_eq with hlt | heq
      · exact (hlowSide.above hlt).elim le_of_lt fun heq => heq.1.ge
      · exact (hlowSide.on heq.symm).ge
    · rcases hd.2.lt_or_eq with hlt | heq
      · exact (hhighSide.below hlt).elim le_of_lt fun heq => heq.1.le
      · exact (hhighSide.on heq).le
  next hopen =>
    have hmodd : m % 2 = 1 := by
      have : ¬m % 2 = 0 := fun heven => hopen (decide_eq_true heven)
      omega
    rw [if_neg hopen]
    constructor
    · exact (hlowSide.above hd.1).resolve_right fun heq => by have := hodd hmodd; omega
    · exact (hhighSide.below hd.2).resolve_right fun heq => by have := hodd' hmodd; omega

/-! ## The decimal is read back -/

/-- A number in a rounding interval is in the range of the singles. -/
theorem range_of_covers {d : ℚ} (hm : Canonical .binary32 m e) (he : e ≤ 104)
    (hd : Covers (.of .binary32 m e) e d) : 2 ^ (-150 : ℤ) ≤ d ∧ d ≤ 2 ^ (128 : ℤ) := by
  have hlt : m < 2 ^ 24 := hm.lt
  have hleast : -149 ≤ e := hm.least
  have hone : (1 : ℚ) ≤ m := by exact_mod_cast hm.pos
  have hcast : (m : ℚ) + 1 ≤ 2 ^ 24 := by exact_mod_cast hlt
  obtain ⟨hnearest, -⟩ := hd.bounds hm.pos
  have hunit : (0 : ℚ) < 2 ^ e := by positivity
  have hlow := (le_div_iff₀ hunit).1 hnearest.low
  have hhigh := (div_le_iff₀ hunit).1 hnearest.high
  constructor
  · calc (2 : ℚ) ^ (-150 : ℤ) = 1 / 2 * 2 ^ (-149 : ℤ) := by norm_num
      _ ≤ (m - 1 / 2) * 2 ^ e :=
        mul_le_mul (by linarith) (zpow_le_zpow_right₀ one_le_two hleast) (by positivity) (by linarith)
      _ ≤ d := hlow
  · calc d ≤ (m + 1 / 2) * 2 ^ e := hhigh
      _ ≤ 2 ^ 24 * 2 ^ (104 : ℤ) :=
        mul_le_mul (by linarith) (zpow_le_zpow_right₀ one_le_two he) hunit.le (by positivity)
      _ = _ := by norm_num

namespace StandsFor

variable {d : Shortest}

theorem pos (h : StandsFor d m e) : 0 < d.n := by
  have := h.last
  omega

theorem n_le (h : StandsFor d m e) : d.n ≤ 10 ^ 9 := by
  rcases h.digits with hshort | ⟨hlong, -⟩
  · omega
  · exact hlong

theorem exponent_bounds (h : StandsFor d m e) (hm : Canonical .binary32 m e) (he : e ≤ 104) :
    -54 ≤ d.k ∧ d.k ≤ 38 := by
  obtain ⟨hleast, hgreatest⟩ := range_of_covers hm he h.covers
  rw [Shortest.value] at hleast hgreatest
  have hunit : (0 : ℚ) < 10 ^ d.k := by positivity
  have hone : (1 : ℚ) ≤ d.n := by exact_mod_cast h.pos
  have hn : (d.n : ℚ) ≤ 10 ^ 9 := by exact_mod_cast h.n_le
  constructor
  · by_contra! hlt
    have hpower : (10 : ℚ) ^ d.k ≤ 10 ^ (-55 : ℤ) := zpow_le_zpow_right₀ (by norm_num) (by omega)
    have := hleast.trans (mul_le_mul hn hpower hunit.le (by norm_num))
    exact absurd this (by norm_num)
  · by_contra! hgt
    have hpower : (10 : ℚ) ^ (39 : ℤ) ≤ 10 ^ d.k := zpow_le_zpow_right₀ (by norm_num) (by omega)
    have := (mul_le_mul hone hpower (by positivity) (by positivity)).trans hgreatest
    exact absurd this (by norm_num)

/-- At an end of the interval the grid is as coarse as the interval is wide. -/
theorem coarse (h : StandsFor d m e) {a : ℕ} {b : ℤ} (hab : Halfway m e a b)
    (hnear : |(d.value - a * 2 ^ b : ℚ)| ≤ a * 2 ^ b / 2 ^ 51) : (9 * 2 ^ b : ℚ) ≤ 10 * 10 ^ d.k := by
  have hunit : (0 : ℚ) < 2 ^ b := by positivity
  have hsmall : (a * 2 ^ b / 2 ^ 51 : ℚ) ≤ 2 ^ b / 2 ^ 26 := by
    have ha : (a : ℚ) ≤ 2 ^ 25 := by exact_mod_cast hab.bits.le
    rw [div_le_div_iff₀ (by norm_num) (by norm_num)]
    nlinarith
  have hsplit : (2 : ℚ) ^ b ≤ |(d.value - a * 2 ^ b : ℚ)| + |d.value - m * 2 ^ e| := by
    calc (2 : ℚ) ^ b = |(a * 2 ^ b - m * 2 ^ e : ℚ)| := hab.distance.symm
      _ ≤ |(a * 2 ^ b - d.value : ℚ)| + |d.value - m * 2 ^ e| := abs_sub_le _ _ _
      _ = _ := by rw [abs_sub_comm d.value (a * 2 ^ b)]
  have hbound : (2 : ℚ) ^ b ≤ 2 ^ b / 2 ^ 26 + 10 ^ d.k :=
    hsplit.trans (add_le_add (hnear.trans hsmall) h.grid)
  linarith only [hbound, hunit]

/-- What is read of the decimal is in the rounding interval. -/
theorem covers_reading (h : StandsFor d m e) (hm : Canonical .binary32 m e) (he : e ≤ 104)
    {x : Float} {v : ℚ} (hread : Settings.scaleByTen 3 d.n.toUInt64.toFloat d.k = some x)
    (hv : Reads d.value d.k x v) : Covers (.of .binary32 m e) e v := by
  obtain ⟨hleast, hgreatest⟩ := range_of_covers hm he h.covers
  rcases h.digits with hshort | ⟨-, hclose⟩
  · exact covers_of_onSide hm h.covers fun a b hab =>
      hv.onSide hread h.pos hshort hleast hgreatest hab.odd hab.bits hab.full hab.least (h.coarse hab)
  -- nine digits are so near that the error of the reading does not matter
  · refine covers_of_near hm ?_
    have hx : (0 : ℚ) < m * 2 ^ e := by
      have : (0 : ℚ) < m := by exact_mod_cast hm.pos
      positivity
    have hread := hv.near
    rw [abs_le] at hclose hread
    rw [abs_lt]
    constructor <;> nlinarith

end StandsFor

/-- The digits and the exponent of a shortest decimal give the single back. -/
theorem exists_reading_of_standsFor {d : Shortest} (h : StandsFor d m e) (hm : Canonical .binary32 m e)
    (he : e ≤ 104) :
    ∃ x v, Settings.scaleByTen 3 d.n.toUInt64.toFloat d.k = some x ∧ Double x v
      ∧ Covers (.of .binary32 m e) e v := by
  obtain ⟨hleast, hgreatest⟩ := range_of_covers hm he h.covers
  obtain ⟨hexponent, hexponent'⟩ := h.exponent_bounds hm he
  obtain ⟨x, v, hread, hv⟩ := @exists_reading d.n d.k h.pos (by have := h.n_le; omega) (by omega)
    (le_trans (zpow_le_zpow_right₀ one_le_two (by decide)) hleast)
    (hgreatest.trans (zpow_le_zpow_right₀ one_le_two (by decide)))
  exact ⟨x, v, hread, hv.double, h.covers_reading hm he hread hv⟩

end Decimal

end Denoise
