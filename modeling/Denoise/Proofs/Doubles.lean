import Denoise.Arithmetic
import Denoise.Proofs.Bounds

/-!
# Doubles

The operations on doubles give the exact result rounded, and counts are rounded, too.

A positive double far from both ends of the range has a significand of 53 digits, and
its value is a rational number (`Double`).  There an operation rounds to 53 digits
(`Rounded`): the relative error is at most a unit of the last of them, and an exact
result that fits is not changed (`exists_double`).
-/

namespace Denoise

namespace Doubles

open Float.Model UnpackedFloat Rounding Values

variable {a b : Float} {v w x : ℚ}

/-! ## The operations -/

theorem fits (h : a.isFinite = true) : Fits .binary64 a.toModel.unpack := fits_unpack (by decide) h

theorem yields_add (ha : Fits .binary64 a.toModel.unpack) (hb : Fits .binary64 b.toModel.unpack) :
    Yields .binary64 (value a.toModel.unpack + value b.toModel.unpack) (a + b).toModel.unpack :=
  Values.yields_add (by decide) ha hb

theorem yields_mul (ha : Fits .binary64 a.toModel.unpack) (hb : Fits .binary64 b.toModel.unpack) :
    Yields .binary64 (value a.toModel.unpack * value b.toModel.unpack) (a * b).toModel.unpack :=
  Values.yields_mul (by decide) ha hb

theorem yields_div (ha : Fits .binary64 a.toModel.unpack) (hb : Fits .binary64 b.toModel.unpack)
    (hne : value b.toModel.unpack ≠ 0) :
    Yields .binary64 (value a.toModel.unpack / value b.toModel.unpack) (a / b).toModel.unpack :=
  Values.yields_div (by decide) ha hb hne

/-! ## Counts -/

theorem yields_toFloat (n : UInt64) : Yields .binary64 n.toNat n.toFloat.toModel.unpack := by
  have h := yields_normalize (by decide : 1 < Format.binary64.exponentBits) n.toNat 0 .positive
  rw [zpow_zero, mul_one] at h
  exact_mod_cast h

/-- A word that a significand can hold is converted without loss. -/
theorem value_toFloat {n : UInt64} (hn : n.toNat ≤ 2 ^ 53) :
    Fits .binary64 n.toFloat.toModel.unpack ∧ value n.toFloat.toModel.unpack = n.toNat :=
  (yields_toFloat n).exact (.natCast hn (by decide) (by decide))

/-- A count that is not zero is rounded. -/
theorem yields_ofCount {n : ℕ} (hn : 0 < n) :
    Yields .binary64 n (Denoise.ofCount n : Float).toModel.unpack := by
  show Yields .binary64 n (Float.ofScientific n false 0).toModel.unpack
  rw [Float.ofScientific]
  split
  next hsmall =>
    have hword : n.toUInt64.toNat = n := by
      rw [UInt64.toNat_ofNat', Nat.mod_eq_of_lt (by omega)]
    have hone : (Float.ofBits 0x3FF0000000000000).isFinite = true := by decide
    have hvalue : value (Float.ofBits 0x3FF0000000000000).toModel.unpack = 1 := by
      show ((2 ^ 52 : ℕ) : ℚ) * 2 ^ (-52 : ℤ) = 1
      norm_num
    obtain ⟨hfits, hcount⟩ := value_toFloat (n := n.toUInt64) (by omega)
    have h := yields_mul hfits (fits hone)
    rw [hcount, hvalue, mul_one, hword] at h
    exact h
  next =>
    have hpower : (0 : ℤ) ≤ 2 ^ Format.binary64.exponentBits := by positivity
    have hvalue : (n : ℚ) = (n * 2 ^ 53 * 1 : ℕ) * 2 ^ (-53 + 0 : ℤ) := by
      rw [add_zero, zpow_neg]
      push_cast
      field_simp
    show Yields .binary64 n (stored .binary64 (UnpackedFloat.ofScientific .binary64 n 0))
    rw [UnpackedFloat.ofScientific, dif_neg hn.ne', if_neg (by omega), if_neg (by omega),
      if_pos le_rfl, UnpackedFloat.mul, hvalue]
    simp only [Nat.shiftLeft_eq]
    exact @yields_digits .binary64 _ (by decide) .positive _ _ .exact (.inl (by
      show 2 ^ 52 ≤ n * 2 ^ 53 * 1
      omega)) rfl

/-- A quotient by a count that is not zero is no greater.  A count that overflows gives zero. -/
theorem within_div_ofCount {n : ℕ} {k : ℤ} (hn : 0 < n)
    (ha : Within .binary64 (-2 ^ k) (2 ^ k) a.toModel.unpack) (hleast : -1074 ≤ k)
    (hgreatest : k < 1024) :
    Within .binary64 (-2 ^ k) (2 ^ k) (a / Denoise.ofCount n).toModel.unpack := by
  have hbound : Exact .binary64 (2 ^ k) := .two_zpow hleast hgreatest
  have hcount := yields_ofCount hn
  have hn' : (1 : ℚ) ≤ n := by exact_mod_cast hn
  have hsize : |value a.toModel.unpack| ≤ 2 ^ k := abs_le.2 ⟨ha.low, ha.high⟩
  show Within _ _ _ (stored .binary64 (UnpackedFloat.div .binary64 a.toModel.unpack
    (Denoise.ofCount n : Float).toModel.unpack))
  generalize (Denoise.ofCount n : Float).toModel.unpack = u at hcount
  cases hcount with
  | finite fits rounds =>
    have hone : Rounds .binary64 1 1 := by
      simpa using Rounds.two_zpow (by decide : Format.binary64.minExponent ≤ 0)
    have hlow : 1 ≤ value u := hone.mono rounds hn'
    have hquotient : |value a.toModel.unpack / value u| ≤ 2 ^ k := by
      rw [abs_div, abs_of_pos (by linarith : 0 < value u)]
      exact (div_le_self (abs_nonneg _) hlow).trans hsize
    exact (Values.yields_div (by decide) ha.fits fits (by linarith)).within hbound.neg hbound
      (abs_le.1 hquotient).1 (abs_le.1 hquotient).2
  | above =>
    have hzero : ∃ s, UnpackedFloat.div .binary64 a.toModel.unpack (.infinity .positive)
        = .zero s := by
      have hfits := ha.fits
      generalize a.toModel.unpack = w at hfits
      cases w with
      | notANumber => exact hfits.elim
      | infinity => exact hfits.elim
      | zero => exact ⟨_, rfl⟩
      | finite => exact ⟨_, rfl⟩
    obtain ⟨s, hs⟩ := hzero
    rw [hs, stored_zero]
    exact ⟨trivial, neg_nonpos.2 (by positivity), by rw [value_zero]; positivity⟩
  | below hgreat rounds =>
    have hnonneg := Rounds.mono (.zero .binary64) rounds (by linarith)
    have hpos : (0 : ℚ) < 2 ^ limit .binary64 := by positivity
    exact absurd hgreat (by linarith)

/-! ## Numbers of 53 digits -/

/-- A positive double with a full significand, and its value. -/
def Double (a : Float) (v : ℚ) : Prop :=
  ∃ (m : ℕ) (e : ℤ) (pos : 0 < m), a.toModel.unpack = .finite .positive m e pos
    ∧ 2 ^ 52 ≤ m ∧ v = m * 2 ^ e

/-- A number rounded to 53 digits. -/
structure Rounded (exact result : ℚ) : Prop where
  near : |result - exact| ≤ exact / 2 ^ 53
  eq_of_fits : ∀ (n : ℕ) (g : ℤ), n < 2 ^ 53 → exact = n * 2 ^ g → result = exact

/-- A whole number nearest to a number of 53 digits is that number rounded. -/
theorem Rounded.of_nearest {n : ℕ} {y : ℚ} {t : ℤ} (hy : 2 ^ 52 ≤ y) (hn : Nearest n y) :
    Rounded (y * 2 ^ t) (n * 2 ^ t) := by
  have hunit : (0 : ℚ) < 2 ^ t := by positivity
  constructor
  · rw [← sub_mul, abs_mul, abs_of_pos hunit, mul_div_right_comm]
    refine mul_le_mul_of_nonneg_right (hn.abs_sub_le.trans ?_) hunit.le
    rw [le_div_iff₀ (by positivity)]
    calc (1 / 2 * 2 ^ 53 : ℚ) = 2 ^ 52 := by norm_num
      _ ≤ y := hy
  · intro p g hp hexact
    have hp' : (p : ℚ) < 2 ^ (53 : ℤ) := by exact_mod_cast hp
    -- the unit of the exact number is no smaller
    obtain ⟨j, rfl⟩ : ∃ j : ℕ, g = t + j := by
      have hlt : (52 : ℤ) + t < 53 + g := by
        rw [← zpow_lt_zpow_iff_right₀ (one_lt_two : (1 : ℚ) < 2), zpow_add₀ (by norm_num),
          zpow_add₀ (by norm_num)]
        calc (2 : ℚ) ^ (52 : ℤ) * 2 ^ t ≤ y * 2 ^ t := mul_le_mul_of_nonneg_right hy hunit.le
          _ = p * 2 ^ g := hexact
          _ < 2 ^ (53 : ℤ) * 2 ^ g := mul_lt_mul_of_pos_right hp' (by positivity)
      exact ⟨(g - t).toNat, by omega⟩
    have hwhole : y = (p * 2 ^ j : ℕ) := by
      refine mul_right_cancel₀ hunit.ne' ?_
      rw [hexact, zpow_add₀ (by norm_num), zpow_natCast]
      push_cast
      ring
    rw [hwhole] at hn ⊢
    rw [hn.eq (.natCast _)]

/-- The significand of a finite double has no more than 53 digits. -/
theorem bounds {m : ℕ} {e : ℤ} {pos : 0 < m} {s : Sign}
    (h : a.toModel.unpack = .finite s m e pos) :
    m < 2 ^ 53 ∧ -1074 ≤ e ∧ e ≤ 971 := by
  have hkind := @Bits.unpacks .binary64 a.toModel.toBits.toBitVec
  change Bits.Unpacks _ a.toModel.unpack at hkind
  rw [h] at hkind
  obtain ⟨hm, -, hlow, hhigh⟩ := hkind.bounds (by decide)
  exact ⟨hm, hlow, Int.le_of_add_le_add_right hhigh⟩

/-- A negated double is stored as such. -/
theorem unpack_neg {m : ℕ} {e : ℤ} {pos : 0 < m}
    (h : a.toModel.unpack = .finite .positive m e pos) :
    (-a).toModel.unpack = .finite .negative m e pos := by
  have hfinite : a.toModel.unpack.isFinite = true := by
    rw [h]
    rfl
  have hstored := (fits hfinite).neg.stored
  show stored .binary64 a.toModel.unpack.neg = _
  rw [hstored, h]
  rfl

namespace Double

theorem pos (h : Double a v) : 0 < v := by
  obtain ⟨m, e, pos, -, -, rfl⟩ := h
  have : (0 : ℚ) < m := by exact_mod_cast pos
  positivity

theorem fits (h : Double a v) : Fits .binary64 a.toModel.unpack := by
  obtain ⟨m, e, pos, hunpack, -, -⟩ := h
  refine Doubles.fits ?_
  show a.toModel.unpack.isFinite = true
  rw [hunpack]
  rfl

theorem value_eq (h : Double a v) : value a.toModel.unpack = v := by
  obtain ⟨m, e, pos, hunpack, -, rfl⟩ := h
  rw [hunpack]
  rfl

end Double

/-- Far from both ends of the range a number is rounded to 53 digits. -/
theorem rounded (h : Rounds .binary64 x v) (hlow : 2 ^ (-200 : ℤ) ≤ x) : Rounded x v := by
  have hpos : 0 ≤ x := le_trans (by positivity) hlow
  obtain ⟨t, n, hplace, hnearest, rfl⟩ := h.1 hpos
  have hleast : (-200 : ℤ) < t + 53 := by
    rw [← zpow_lt_zpow_iff_right₀ (one_lt_two : (1 : ℚ) < 2)]
    exact hlow.trans_lt hplace.below
  have hleast' : Format.binary64.minExponent = -1074 := rfl
  have habove : (2 : ℚ) ^ (t + 52) ≤ x := hplace.above.resolve_right (by omega)
  have hdigits : (2 : ℚ) ^ 52 ≤ x / 2 ^ t := by
    rw [le_div_iff₀ (by positivity), ← zpow_natCast, ← zpow_add₀ (by norm_num), add_comm]
    exact habove
  have hrounded := Rounded.of_nearest (t := t) hdigits hnearest
  rwa [div_mul_cancel₀ _ (by positivity)] at hrounded

/-- Far from both ends of the range a result has all of them. -/
theorem exists_double (h : Yields .binary64 x a.toModel.unpack) (hlow : 2 ^ (-200 : ℤ) ≤ x)
    (hhigh : x ≤ 2 ^ (200 : ℤ)) : ∃ v, Double a v ∧ Rounded x v := by
  have hwithin := h.within (.two_zpow (by decide) (by decide)) (.two_zpow (by decide) (by decide))
    hlow hhigh
  have hrounds : Rounds .binary64 x (value a.toModel.unpack) := by
    have hfits := hwithin.fits
    generalize a.toModel.unpack = u at *
    cases h with
    | finite _ rounds => exact rounds
    | above => exact hfits.elim
    | below => exact hfits.elim
  refine ⟨_, ?_, rounded hrounds hlow⟩
  have hfits := hwithin.fits
  have hgreat := hwithin.low
  have hpositive : (0 : ℚ) < 2 ^ (-200 : ℤ) := by positivity
  cases hu : a.toModel.unpack with
  | notANumber =>
    rw [hu] at hfits
    exact hfits.elim
  | infinity =>
    rw [hu] at hfits
    exact hfits.elim
  | zero =>
    rw [hu, value_zero] at hgreat
    exact absurd hgreat hpositive.not_ge
  | finite s m e pos =>
    rw [hu] at hfits hgreat
    cases s with
    | negative => exact absurd (hgreat.trans_lt value_neg_of_negative) hpositive.not_gt
    | positive =>
      refine ⟨m, e, pos, hu, hfits.1.full.resolve_right ?_, rfl⟩
      rintro rfl
      -- a significand of few digits would make the number too small
      have hshort : (m : ℚ) < 2 ^ (53 : ℤ) := by exact_mod_cast hfits.1.lt
      have : (2 : ℚ) ^ (-200 : ℤ) < 2 ^ (53 + -1074 : ℤ) := by
        calc (2 : ℚ) ^ (-200 : ℤ) ≤ m * 2 ^ (-1074 : ℤ) := hgreat
          _ < 2 ^ (53 : ℤ) * 2 ^ (-1074 : ℤ) := mul_lt_mul_of_pos_right hshort (by positivity)
          _ = _ := (zpow_add₀ (by norm_num) _ _).symm
      exact absurd ((zpow_lt_zpow_iff_right₀ (one_lt_two : (1 : ℚ) < 2)).1 this) (by decide)

theorem mul (ha : Double a v) (hb : Double b w) (hlow : 2 ^ (-200 : ℤ) ≤ v * w)
    (hhigh : v * w ≤ 2 ^ (200 : ℤ)) : ∃ u, Double (a * b) u ∧ Rounded (v * w) u := by
  have hyields := yields_mul ha.fits hb.fits
  rw [ha.value_eq, hb.value_eq] at hyields
  exact exists_double hyields hlow hhigh

theorem div (ha : Double a v) (hb : Double b w) (hlow : 2 ^ (-200 : ℤ) ≤ v / w)
    (hhigh : v / w ≤ 2 ^ (200 : ℤ)) : ∃ u, Double (a / b) u ∧ Rounded (v / w) u := by
  have hyields := yields_div ha.fits hb.fits (by
    rw [hb.value_eq]
    exact hb.pos.ne')
  rw [ha.value_eq, hb.value_eq] at hyields
  exact exists_double hyields hlow hhigh

/-- A count that is not zero is far from the least numbers. -/
theorem two_zpow_le_natCast {n : ℕ} (hn : 0 < n) : (2 : ℚ) ^ (-200 : ℤ) ≤ n :=
  le_trans (zpow_le_one_of_nonpos₀ one_le_two (by decide)) (by exact_mod_cast hn)

/-- A count that a significand can hold. -/
theorem toFloat {n : ℕ} (hn : 0 < n) (hfits : n ≤ 2 ^ 53) : Double n.toUInt64.toFloat n := by
  have hword : n.toUInt64.toNat = n := by
    rw [UInt64.toNat_ofNat', Nat.mod_eq_of_lt (by omega)]
  have hyields := yields_toFloat n.toUInt64
  rw [hword] at hyields
  have hhigh : (n : ℚ) ≤ 2 ^ (200 : ℤ) := by
    calc (n : ℚ) ≤ 2 ^ (53 : ℤ) := by exact_mod_cast hfits
      _ ≤ 2 ^ (200 : ℤ) := zpow_le_zpow_right₀ one_le_two (by decide)
  obtain ⟨v, hdouble, -⟩ := exists_double hyields (two_zpow_le_natCast hn) hhigh
  have hvalue := (value_toFloat (n := n.toUInt64) (by omega)).2
  rw [hdouble.value_eq, hword] at hvalue
  rwa [hvalue] at hdouble

/-- Any other count is rounded. -/
theorem ofCount {n : ℕ} (hn : 0 < n) (hhigh : (n : ℚ) ≤ 2 ^ (200 : ℤ)) :
    ∃ v, Double (Denoise.ofCount n) v ∧ Rounded n v :=
  exists_double (yields_ofCount hn) (two_zpow_le_natCast hn) hhigh

end Doubles

end Denoise
