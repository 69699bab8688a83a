import Denoise.Proofs.Bits

/-!
# Rounding to a format

A significand is shortened one binary digit at a time, with two bits that keep what
was lost (`Represents`).  So the rounded significand is a nearest whole number of the
exact quotient, whichever digits the exact number has beyond it.

`exists_rounded` is the one fact about rounding that the operations need: the result
is some nearest multiple of the unit of the target exponent, in the form that the
format stores (`settled`).
-/

namespace Denoise

namespace Rounding

open Float.Model UnpackedFloat

variable {spec : Format} {em : ExtendedMantissa} {x : ℚ}

/-! ## The digits that are dropped -/

/-- The numbers that a significand with its two residual bits stands for. -/
def Represents : ExtendedMantissa → ℚ → Prop
  | ⟨m, false, false⟩, x => x = m
  | ⟨m, false, true⟩, x => m < x ∧ x < m + 1 / 2
  | ⟨m, true, false⟩, x => x = m + 1 / 2
  | ⟨m, true, true⟩, x => m + 1 / 2 < x ∧ x < m + 1

theorem Represents.shiftRightOne (h : Represents em x) : Represents em.shiftRightOne (x / 2) := by
  obtain ⟨m, roundBit, stickyBit⟩ := em
  have hsplit : (m : ℚ) = 2 * (m / 2 : ℕ) + (m % 2 : ℕ) := by
    exact_mod_cast (Nat.div_add_mod m 2).symm
  rcases Nat.mod_two_eq_zero_or_one m with hm | hm
  · rw [hm] at hsplit
    cases roundBit <;> cases stickyBit <;>
      simp only [Represents, ExtendedMantissa.shiftRightOne, hm, bne_self_eq_false, Bool.or_false,
        Bool.or_true] at h ⊢
    · linarith
    all_goals constructor <;> norm_num at hsplit <;> linarith
  · rw [hm] at hsplit
    cases roundBit <;> cases stickyBit <;>
      simp only [Represents, ExtendedMantissa.shiftRightOne, hm, Nat.one_ne_zero, ne_eq,
        not_false_eq_true, bne_iff_ne.2, Bool.or_false, Bool.or_true] at h ⊢
    · linarith
    all_goals constructor <;> norm_num at hsplit <;> linarith

/-- A mantissa that is shifted, with its round and its sticky bit, stands for the
quotient. -/
theorem Represents.shiftRight (h : Represents em x) (k : ℕ) : Represents (em >>> k) (x / 2 ^ k) := by
  show Represents (k.repeat ExtendedMantissa.shiftRightOne em) _
  induction k with
  | zero => simpa [Nat.repeat] using h
  | succ k ih =>
    rw [Nat.repeat, pow_succ, ← div_div]
    exact ih.shiftRightOne

theorem mantissa_shiftRight (em : ExtendedMantissa) (k : ℕ) :
    (em >>> k).mantissa = em.mantissa / 2 ^ k := by
  show (k.repeat ExtendedMantissa.shiftRightOne em).mantissa = _
  induction k with
  | zero => simp [Nat.repeat]
  | succ k ih => rw [Nat.repeat, ExtendedMantissa.shiftRightOne, ih, Nat.div_div_eq_div_mul, pow_succ]

/-- Rounding a mantissa adds one at most. -/
theorem roundedMantissa_bounds (em : ExtendedMantissa) :
    em.mantissa ≤ em.roundedMantissa ∧ em.roundedMantissa ≤ em.mantissa + 1 := by
  obtain ⟨m, roundBit, stickyBit⟩ := em
  cases roundBit <;> cases stickyBit <;>
    simp only [ExtendedMantissa.roundedMantissa, ExtendedMantissa.accuracy,
      Accuracy.roundToNearestEven] <;> omega

/-- A whole number nearest to another number, and the even one of two. -/
structure Nearest (n : ℕ) (y : ℚ) : Prop where
  low : (n : ℚ) - 1 / 2 ≤ y
  high : y ≤ n + 1 / 2
  even : y = n - 1 / 2 ∨ y = n + 1 / 2 → n % 2 = 0

namespace Nearest

variable {n m : ℕ} {y z : ℚ}

theorem natCast (n : ℕ) : Nearest n n where
  low := by linarith
  high := by linarith
  even := by
    rintro (h | h)
    · linarith
    · linarith

/-- Rounding to the nearest is monotone. -/
theorem mono (hn : Nearest n y) (hm : Nearest m z) (h : y ≤ z) : n ≤ m := by
  by_contra hlt
  obtain ⟨k, rfl⟩ := Nat.exists_eq_add_of_lt (Nat.lt_of_not_le hlt)
  have hlow := hn.low
  have hhigh := hm.high
  have hk : (0 : ℚ) ≤ k := Nat.cast_nonneg k
  push_cast at hlow
  -- both lie half way between two neighbours, of which one is odd
  have hk' : (k : ℚ) = 0 := by linarith
  obtain rfl : k = 0 := by exact_mod_cast hk'
  have heven := hn.even (.inl (by push_cast; linarith))
  have heven' := hm.even (.inr (by linarith))
  omega

theorem eq (hn : Nearest n y) (hm : Nearest m y) : n = m :=
  Nat.le_antisymm (hn.mono hm le_rfl) (hm.mono hn le_rfl)

theorem abs_sub_le (h : Nearest n y) : |(n : ℚ) - y| ≤ 1 / 2 := by
  have hlow := h.low
  have hhigh := h.high
  rw [abs_le]
  constructor <;> linarith

end Nearest

/-- The rounded significand is a nearest whole number. -/
theorem Represents.roundedMantissa (h : Represents em x) : Nearest em.roundedMantissa x := by
  obtain ⟨m, roundBit, stickyBit⟩ := em
  simp only [ExtendedMantissa.roundedMantissa]
  cases roundBit with
  | false =>
    cases stickyBit with
    | false =>
      obtain rfl : x = m := h
      exact .natCast m
    | true =>
      obtain ⟨hlow, hhigh⟩ : (m : ℚ) < x ∧ x < m + 1 / 2 := h
      simp only [ExtendedMantissa.accuracy, Accuracy.roundToNearestEven]
      exact ⟨by linarith, by linarith, by rintro (h | h) <;> linarith⟩
  | true =>
    cases stickyBit with
    | false =>
      obtain rfl : x = m + 1 / 2 := h
      simp only [ExtendedMantissa.accuracy, Accuracy.roundToNearestEven]
      rcases Nat.mod_two_eq_zero_or_one m with hm | hm
      · rw [hm]
        exact ⟨by push_cast; linarith, by push_cast; linarith, fun _ => hm⟩
      · rw [hm]
        exact ⟨by push_cast; linarith, by push_cast; linarith, fun _ => by omega⟩
    | true =>
      obtain ⟨hlow, hhigh⟩ : (m + 1 / 2 : ℚ) < x ∧ x < m + 1 := h
      simp only [ExtendedMantissa.accuracy, Accuracy.roundToNearestEven]
      exact ⟨by push_cast; linarith, by push_cast; linarith, by
        push_cast
        rintro (h | h) <;> linarith⟩

/-- The digits of a number are those of its whole part. -/
theorem Represents.bounds {m : ℕ} {acc : Accuracy} {x : ℚ}
    (h : Represents (.ofMantissaAndAccuracy m acc) x) : (m : ℚ) ≤ x ∧ x < m + 1 := by
  cases acc with
  | exact =>
    obtain rfl : x = m := h
    constructor <;> linarith
  | inexact order =>
    cases order with
    | lt =>
      obtain ⟨hlow, hhigh⟩ : (m : ℚ) < x ∧ x < m + 1 / 2 := h
      constructor <;> linarith
    | eq =>
      obtain rfl : x = m + 1 / 2 := h
      constructor <;> linarith
    | gt =>
      obtain ⟨hlow, hhigh⟩ : (m + 1 / 2 : ℚ) < x ∧ x < m + 1 := h
      constructor <;> linarith

/-- The digits of a quotient, and where the rest of the division lies. -/
theorem represents_quotient (m : ℕ) {n : ℕ} (hn : 0 < n) :
    Represents (.ofMantissaAndAccuracy (m / n) (accuracyOfFraction (m % n) n)) ((m : ℚ) / n) := by
  have hnpos : (0 : ℚ) < n := by exact_mod_cast hn
  have hlt : ((m % n : ℕ) : ℚ) < n := by exact_mod_cast Nat.mod_lt m hn
  have hvalue : (m : ℚ) / n = (m / n : ℕ) + (m % n : ℕ) / n := by
    rw [div_eq_iff hnpos.ne', add_mul, div_mul_cancel₀ _ hnpos.ne', mul_comm]
    exact_mod_cast (Nat.div_add_mod m n).symm
  have hrest : ((m % n : ℕ) : ℚ) / n < 1 := (div_lt_one hnpos).2 hlt
  rw [hvalue, accuracyOfFraction]
  rcases Nat.eq_zero_or_pos (m % n) with hzero | hpos
  · rw [if_pos hzero, hzero, Nat.cast_zero, zero_div, add_zero]
    rfl
  · have hpos' : (0 : ℚ) < ((m % n : ℕ) : ℚ) / n := div_pos (by exact_mod_cast hpos) hnpos
    rw [if_neg hpos.ne']
    rcases lt_trichotomy (2 * (m % n)) n with hcmp | hcmp | hcmp
    · rw [Nat.compare_eq_lt.2 hcmp]
      have : ((m % n : ℕ) : ℚ) / n < 1 / 2 := by
        rw [div_lt_div_iff₀ hnpos two_pos, one_mul, mul_comm]
        exact_mod_cast hcmp
      exact ⟨by linarith, by linarith⟩
    · rw [Nat.compare_eq_eq.2 hcmp]
      have : ((m % n : ℕ) : ℚ) / n = 1 / 2 := by
        rw [div_eq_div_iff hnpos.ne' two_ne_zero, one_mul, mul_comm]
        exact_mod_cast hcmp
      rw [this]
      rfl
    · rw [Nat.compare_eq_gt.2 hcmp]
      have : 1 / 2 < ((m % n : ℕ) : ℚ) / n := by
        rw [div_lt_div_iff₀ two_pos hnpos, one_mul, mul_comm _ (2 : ℚ)]
        exact_mod_cast hcmp
      exact ⟨by linarith, by linarith⟩

/-! ## The form that a format stores -/

/-- The least exponent by the fields of the bits. -/
theorem minExponent_eq (spec : Format) :
    spec.minExponent = 1 - (spec.exponentBias + spec.mantissaBitsWithoutImplicit : ℕ) := by
  have hpos : 1 ≤ 2 ^ (spec.exponentBits - 1) := Nat.one_le_two_pow
  rw [Format.minExponent, Format.exponentBias, Format.mantissaBits]
  push_cast [hpos]
  ring

theorem two_pow_mantissaBits (spec : Format) :
    2 ^ spec.mantissaBits = 2 * 2 ^ spec.mantissaBitsWithoutImplicit := by
  rw [Format.mantissaBits, pow_add, pow_one]

/-- A significand and an exponent that a format stores as they are, up to overflow. -/
structure Canonical (spec : Format) (m : ℕ) (e : ℤ) : Prop where
  pos : 0 < m
  lt : m < 2 ^ spec.mantissaBits
  least : spec.minExponent ≤ e
  full : 2 ^ spec.mantissaBitsWithoutImplicit ≤ m ∨ e = spec.minExponent

namespace Canonical

variable {m : ℕ} {e : ℤ}

theorem log2_lt (h : Canonical spec m e) : m.log2 < spec.mantissaBits :=
  (Nat.log2_lt h.pos.ne').2 h.lt

end Canonical

/-- The target exponent is that of the leading digit, or the least one. -/
theorem targetExponent_eq (spec : Format) (m : ℕ) (e : ℤ) :
    spec.targetExponent (totalExponent m e)
      = max (m.log2 + e - spec.mantissaBitsWithoutImplicit) spec.minExponent := by
  rw [Format.targetExponent, totalExponent, Format.mantissaBits]
  push_cast
  congr 1
  ring

/-- A rounded significand in the form that is stored.  A significand that was rounded up
to one digit more than fits is shortened by that digit, which is a zero. -/
def settled (spec : Format) (s : Sign) (n : ℕ) (e : ℤ) : UnpackedFloat :=
  if pos : 0 < n then
    if n = 2 ^ spec.mantissaBits then
      .finite s (2 ^ spec.mantissaBitsWithoutImplicit) (e + 1) (Nat.two_pow_pos _)
    else .finite s n e pos
  else .zero s

/-- A number that a format has needs no settling. -/
theorem settled_of_canonical {s : Sign} {m : ℕ} {e : ℤ} (h : Canonical spec m e) :
    settled spec s m e = .finite s m e h.pos := by
  rw [settled, dif_pos h.pos, if_neg h.lt.ne]

/-- A full significand keeps its value. -/
theorem exists_settled {s : Sign} {n : ℕ} {e : ℤ}
    (hfull : 2 ^ spec.mantissaBitsWithoutImplicit ≤ n) (hfits : n ≤ 2 ^ spec.mantissaBits)
    (hleast : spec.minExponent ≤ e) :
    ∃ (m : ℕ) (e' : ℤ) (h : Canonical spec m e'),
      settled spec s n e = .finite s m e' h.pos ∧ (m : ℚ) * 2 ^ e' = n * 2 ^ e := by
  have hpos : 0 < n := Nat.lt_of_lt_of_le (Nat.two_pow_pos _) hfull
  rcases Nat.lt_or_eq_of_le hfits with hlt | heq
  · have hcanonical : Canonical spec n e := ⟨hpos, hlt, hleast, .inl hfull⟩
    exact ⟨n, e, hcanonical, settled_of_canonical hcanonical, rfl⟩
  · have htwo := two_pow_mantissaBits spec
    have hcanonical : Canonical spec (2 ^ spec.mantissaBitsWithoutImplicit) (e + 1) :=
      ⟨Nat.two_pow_pos _, by omega, by omega, .inl le_rfl⟩
    refine ⟨_, e + 1, hcanonical, ?_, ?_⟩
    · rw [settled, dif_pos hpos, if_pos heq]
    · rw [heq, htwo, zpow_add_one₀ (by norm_num)]
      push_cast
      ring

/-! ## One rounding -/

/-- Shortening a rounded significand once more loses nothing. -/
theorem shiftToTargetExponent_exact {n : ℕ} {e : ℤ} (hn : n ≤ 2 ^ spec.mantissaBits)
    (he : spec.minExponent ≤ e) {s : Sign} :
    (if h : (shiftToTargetExponent spec n e .exact).1.mantissa = 0 then UnpackedFloat.zero s
      else .finite s (shiftToTargetExponent spec n e .exact).1.mantissa
        (shiftToTargetExponent spec n e .exact).2 (Nat.pos_of_ne_zero h)) = settled spec s n e := by
  have hbits : 0 < spec.mantissaBits := by rw [Format.mantissaBits]; omega
  rcases Nat.lt_or_eq_of_le hn with hlt | rfl
  · have hlog : n.log2 < spec.mantissaBits := by
      rcases Nat.eq_zero_or_pos n with rfl | hpos
      · exact hbits
      · exact (Nat.log2_lt hpos.ne').2 hlt
    have hshift : shiftToTargetExponent spec n e .exact = (⟨n, false, false⟩, e) := by
      have hnone : (spec.targetExponent (totalExponent n e) - e).toNat = 0 := by
        rw [Format.targetExponent, totalExponent]
        omega
      rw [shiftToTargetExponent, shiftToExponent, hnone, Int.ofNat_zero, Int.add_zero]
      rfl
    rw [hshift, settled]
    rcases Nat.eq_zero_or_pos n with rfl | hpos
    · rfl
    · rw [dif_neg hpos.ne', dif_pos hpos, if_neg hlt.ne]
  · have hshift : shiftToTargetExponent spec (2 ^ spec.mantissaBits) e .exact
        = (⟨2 ^ spec.mantissaBitsWithoutImplicit, false, false⟩, e + 1) := by
      have hone : (spec.targetExponent (totalExponent (2 ^ spec.mantissaBits) e) - e).toNat = 1 := by
        rw [Format.targetExponent, totalExponent, Nat.log2_two_pow]
        omega
      rw [shiftToTargetExponent, shiftToExponent, hone, two_pow_mantissaBits]
      show (ExtendedMantissa.shiftRightOne ⟨2 * 2 ^ _, false, false⟩, _) = _
      rw [ExtendedMantissa.shiftRightOne, Nat.mul_div_cancel_left _ (by decide), Nat.mul_mod_right]
      rfl
    rw [hshift, settled, dif_pos (Nat.two_pow_pos _), if_pos rfl,
      dif_neg (Nat.two_pow_pos _).ne']

/-- Rounding gives the nearest multiple of the unit of the target exponent.  `k` digits are
dropped, so that unit is `2 ^ k` times that of the significand, which may be empty only at
the least exponent. -/
theorem exists_rounded {s : Sign} {m : ℕ} {e : ℤ} {acc : Accuracy} {k : ℕ}
    (hm : 0 < m ∨ e + k = spec.minExponent)
    (hx : Represents (.ofMantissaAndAccuracy m acc) x)
    (hk : spec.targetExponent (totalExponent m e) = e + k) :
    ∃ n : ℕ, Nearest n (x / 2 ^ k) ∧ n ≤ 2 ^ spec.mantissaBits
      ∧ (2 ^ spec.mantissaBitsWithoutImplicit ≤ n ∨ e + k = spec.minExponent)
      ∧ roundWithAccuracy spec s m e acc = settled spec s n (e + k) := by
  have hshift : shiftToTargetExponent spec m e acc
      = (ExtendedMantissa.ofMantissaAndAccuracy m acc >>> k, e + k) := by
    rw [shiftToTargetExponent, shiftToExponent, hk]
    simp
  have hmantissa : (ExtendedMantissa.ofMantissaAndAccuracy m acc).mantissa = m := by
    cases acc with
    | exact => rfl
    | inexact order => cases order <;> rfl
  have hbounds := roundedMantissa_bounds (ExtendedMantissa.ofMantissaAndAccuracy m acc >>> k)
  rw [mantissa_shiftRight, hmantissa] at hbounds
  rw [targetExponent_eq] at hk
  have hhigh : m < 2 ^ (m.log2 + 1) := Nat.lt_log2_self
  -- all digits that fit are kept, or those down to the least exponent
  have hlt : m / 2 ^ k < 2 ^ spec.mantissaBits := by
    rw [Nat.div_lt_iff_lt_mul (Nat.two_pow_pos k), ← pow_add]
    refine lt_of_lt_of_le hhigh (Nat.pow_le_pow_right (by decide) ?_)
    rw [Format.mantissaBits]
    omega
  have hfull : 2 ^ spec.mantissaBitsWithoutImplicit ≤ m / 2 ^ k ∨ e + k = spec.minExponent := by
    rcases eq_or_ne (e + (k : ℤ)) spec.minExponent with hleast | hleast
    · exact .inr hleast
    · refine .inl ((Nat.le_div_iff_mul_le (Nat.two_pow_pos k)).2 ?_)
      have hlow : 2 ^ m.log2 ≤ m := Nat.log2_self_le (hm.resolve_right hleast).ne'
      rw [← pow_add]
      exact le_trans (Nat.pow_le_pow_right (by decide) (by omega)) hlow
  refine ⟨_, (hx.shiftRight k).roundedMantissa, by omega, ?_, ?_⟩
  · exact hfull.imp (fun h => h.trans hbounds.1) id
  · rw [roundWithAccuracy, hshift]
    exact shiftToTargetExponent_exact (by omega) (by omega)

theorem log2_mul_two_pow {n k : ℕ} (hn : 0 < n) : (n * 2 ^ k).log2 = n.log2 + k := by
  rw [Nat.log2_eq_iff (Nat.mul_pos hn (Nat.two_pow_pos k)).ne', pow_add, add_right_comm, pow_add]
  exact ⟨Nat.mul_le_mul_right _ (Nat.log2_self_le hn.ne'),
    Nat.mul_lt_mul_of_pos_right Nat.lt_log2_self (Nat.two_pow_pos k)⟩

/-! ## Stored and read back -/

/-- A stored number is read back, unless its exponent is beyond the greatest one. -/
theorem unpack_pack {s : Sign} {m : ℕ} {e : ℤ} (h : Canonical spec m e)
    (hgreatest : e + 2 ≤ (2 ^ spec.exponentBits : ℕ)
      - (spec.exponentBias + spec.mantissaBitsWithoutImplicit : ℕ)) :
    UnpackedFloat.unpack spec (UnpackedFloat.pack spec (.finite s m e h.pos))
      = .finite s m e h.pos := by
  have hleast := h.least
  have hminExponent := minExponent_eq spec
  have htwo := two_pow_mantissaBits spec
  have hlt := h.lt
  obtain ⟨b, hb⟩ : ∃ b : ℕ, e + spec.exponentBias + spec.mantissaBitsWithoutImplicit = b :=
    Int.eq_ofNat_of_zero_le (by omega)
  have hrange : ¬2 ^ spec.exponentBits ≤ b + 1 := by omega
  have hbits : (BitVec.ofNat spec.exponentBits b).toNat = b := by
    rw [BitVec.toNat_ofNat, Nat.mod_eq_of_lt (by omega)]
  have hall : BitVec.ofNat spec.exponentBits b ≠ -1#_ := by
    intro heq
    have := congrArg BitVec.toNat heq
    rw [hbits, BitVec.neg_one_eq_allOnes, BitVec.toNat_allOnes] at this
    omega
  have hnone : (0#_ : BitVec spec.exponentBits) ≠ -1#_ := by
    intro heq
    have := congrArg BitVec.toNat heq
    rw [BitVec.toNat_zero, BitVec.neg_one_eq_allOnes, BitVec.toNat_allOnes] at this
    omega
  rw [UnpackedFloat.pack, hb, Int.toNat_natCast, if_neg hrange]
  rcases Nat.lt_or_ge m (2 ^ spec.mantissaBitsWithoutImplicit) with hshort | hfull
  · have hlog : ¬m.log2 + 1 = spec.mantissaBits := by
      have := (Nat.log2_lt h.pos.ne').2 hshort
      rw [Format.mantissaBits]
      omega
    have hm : (BitVec.ofNat spec.mantissaBitsWithoutImplicit m).toNat = m := by
      rw [BitVec.toNat_ofNat, Nat.mod_eq_of_lt hshort]
    have hsome : BitVec.ofNat spec.mantissaBitsWithoutImplicit m ≠ 0#_ := by
      intro heq
      have := congrArg BitVec.toNat heq
      rw [hm, BitVec.toNat_zero] at this
      exact h.pos.ne' this
    have he : e = spec.minExponent := h.full.resolve_left (by omega)
    rw [if_neg hlog, UnpackedFloat.unpack]
    simp only [unpackMantissa_packComponents, unpackExponent_packComponents,
      unpackSign_packComponents, Sign.ofBitVec_toBitVec, if_neg hnone, if_pos, dif_neg hsome, hm,
      BitVec.toNat_zero]
    congr 1
    omega
  · have hlog : m.log2 + 1 = spec.mantissaBits := by
      have := (Nat.le_log2 h.pos.ne').2 hfull
      have := h.log2_lt
      rw [Format.mantissaBits] at *
      omega
    have hm : (1#1 ++ BitVec.ofNat spec.mantissaBitsWithoutImplicit m).toNat = m := by
      rw [Bits.toNat_implicit, BitVec.toNat_ofNat, Nat.mod_eq_sub_mod hfull,
        Nat.mod_eq_of_lt (by omega)]
      omega
    have hzero : BitVec.ofNat spec.exponentBits b ≠ 0#_ := by
      intro heq
      have := congrArg BitVec.toNat heq
      rw [hbits, BitVec.toNat_zero] at this
      omega
    rw [if_pos hlog, UnpackedFloat.unpack]
    simp only [unpackMantissa_packComponents, unpackExponent_packComponents,
      unpackSign_packComponents, Sign.ofBitVec_toBitVec, if_neg hall, if_neg hzero, hm, hbits]
    congr 1
    omega

end Rounding

end Denoise
