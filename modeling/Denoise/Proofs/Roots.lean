import Denoise.Proofs.Doubles

/-!
# Square roots

A square root is found to the whole units of its last place, and the remainder tells on which
side of the half it lies.  So the result is that of some number which is no greater than any
bound of the exact root (`exists_root`), and it is rounded from there.
-/

namespace Denoise

namespace Values

open Float.Model UnpackedFloat Rounding

variable {spec : Format}

/-- On which side of the half the root of a whole number lies. -/
def rootAccuracy (n : ℕ) : Accuracy :=
  if n - Nat.sqrt n * Nat.sqrt n = 0 then .exact
  else .inexact (if n - Nat.sqrt n * Nat.sqrt n ≤ Nat.sqrt n then .lt else .gt)

/-- The whole root and the remainder stand for a number that is no greater than a bound of the
exact root. -/
theorem exists_represents_root {n : ℕ} {q : ℚ} (hq : 0 ≤ q) (h : (n : ℚ) ≤ q * q) :
    ∃ y : ℚ, y ≤ q ∧ Represents (.ofMantissaAndAccuracy (Nat.sqrt n) (rootAccuracy n)) y := by
  rw [rootAccuracy]
  have hroot := Nat.sqrt_le n
  generalize Nat.sqrt n = root at *
  have hroot' : (root : ℚ) * root ≤ n := by exact_mod_cast hroot
  split
  next =>
    have hle : (root : ℚ) ≤ q :=
      (mul_self_le_mul_self_iff (Nat.cast_nonneg _) hq).2 (hroot'.trans h)
    exact ⟨root, hle, rfl⟩
  next hrest =>
    split
    next hlow =>
      have hlt : (root : ℚ) < q := by
        refine lt_of_mul_self_lt_mul_self₀ hq (lt_of_lt_of_le ?_ h)
        exact_mod_cast (by omega : root * root < n)
      exact ⟨min q (root + 1 / 4), min_le_left _ _, lt_min hlt (by linarith),
        (min_le_right _ _).trans_lt (by linarith)⟩
    next hhigh =>
      have hlt : (root : ℚ) + 1 / 2 < q := by
        refine lt_of_mul_self_lt_mul_self₀ hq (lt_of_lt_of_le ?_ h)
        have : ((root * root + root + 1 : ℕ) : ℚ) ≤ n := by
          exact_mod_cast (by omega : root * root + root + 1 ≤ n)
        push_cast at this
        linarith
      exact ⟨min q (root + 3 / 4), min_le_left _ _, lt_min hlt (by linarith),
        (min_le_right _ _).trans_lt (by linarith)⟩

/-- The root of a number that is not negative is, as the format has it, that of some number
between zero and any bound of the exact root. -/
theorem exists_root (hbits : 1 < spec.exponentBits) {a : UnpackedFloat} {z : ℚ}
    (ha : Fits spec a) (hnonneg : 0 ≤ value a) (hz : 0 ≤ z) (h : value a ≤ z * z) :
    ∃ x, 0 ≤ x ∧ x ≤ z ∧ Yields spec x (stored spec (UnpackedFloat.sqrt spec a)) := by
  cases a with
  | notANumber => exact ha.elim
  | infinity => exact ha.elim
  | zero s => exact ⟨0, le_rfl, hz, yields_zero s⟩
  | finite s m e pos =>
    obtain rfl : s = .positive := Unsigned.sign_eq (.fits ha hnonneg)
    obtain ⟨t, ht⟩ : ∃ t, t = min (e.ediv 2)
        (spec.targetExponent ((totalExponent m e + 1).ediv 2)) := ⟨_, rfl⟩
    have htwice : e.ediv 2 * 2 ≤ e := Int.ediv_mul_le e (by decide)
    obtain ⟨k, hk⟩ : ∃ k : ℕ, e = 2 * t + k := ⟨(e - 2 * t).toNat, by omega⟩
    have hsqrt : UnpackedFloat.sqrt spec (.finite .positive m e pos)
        = roundWithAccuracy spec .positive (Nat.sqrt (m * 2 ^ k)) t (rootAccuracy (m * 2 ^ k)) := by
      rw [UnpackedFloat.sqrt, sqrtCore, ← ht, (by omega : (e - 2 * t).toNat = k), Nat.shiftLeft_eq]
      rfl
    have hunit : (0 : ℚ) < 2 ^ t := by positivity
    have hbound : ((m * 2 ^ k : ℕ) : ℚ) ≤ z / 2 ^ t * (z / 2 ^ t) := by
      rw [div_mul_div_comm, le_div_iff₀ (by positivity)]
      refine le_of_eq_of_le ?_ h
      rw [value_finite, withSign, hk, zpow_add₀ (by norm_num), two_mul, zpow_add₀ (by norm_num),
        zpow_natCast]
      push_cast
      ring
    obtain ⟨y, hy, hrepresents⟩ := exists_represents_root (by positivity) hbound
    have hpositive : 0 ≤ y := (Nat.cast_nonneg _).trans hrepresents.bounds.1
    -- the significand was widened so far that its root has all digits
    have hfull : 2 ^ spec.mantissaBitsWithoutImplicit ≤ Nat.sqrt (m * 2 ^ k)
        ∨ t ≤ spec.minExponent := by
      have hhalf : (totalExponent m e + 1).ediv 2 * 2 ≤ totalExponent m e + 1 :=
        Int.ediv_mul_le _ (by decide)
      rw [Format.targetExponent, Format.mantissaBits] at ht
      rw [totalExponent] at hhalf ht
      rcases le_or_gt t spec.minExponent with hleast | hgreat
      · exact .inr hleast
      · refine .inl (Nat.le_sqrt.2 ?_)
        rw [← pow_add]
        refine (Nat.pow_le_pow_right (by decide) ?_).trans
          (Nat.log2_self_le (Nat.mul_pos pos (Nat.two_pow_pos k)).ne')
        rw [log2_mul_two_pow pos]
        omega
    rw [hsqrt]
    exact ⟨y * 2 ^ t, by positivity, (le_div_iff₀ hunit).1 hy,
      yields_digits hbits (s := .positive) hfull hrepresents⟩

end Values

end Denoise
