import Denoise.Proofs.Rounding

/-!
# The values of numbers

A finite number has a rational value, and an operation on two of them gives the exact
result rounded to the format, or an infinity if that is too great (`Yields`).  Rounding is
monotone (`Rounds.mono`), so a result lies between any two numbers of the format that the
exact result lies between.
-/

namespace Denoise

namespace Values

open Float.Model UnpackedFloat Rounding

variable {spec : Format} {x y z w : ℚ} {t : ℤ}

/-! ## Rounding rational numbers -/

/-- The place of the last digit that a format keeps of a number. -/
structure LastPlace (spec : Format) (x : ℚ) (t : ℤ) : Prop where
  least : spec.minExponent ≤ t
  below : x < 2 ^ (t + spec.mantissaBits)
  above : 2 ^ (t + spec.mantissaBitsWithoutImplicit) ≤ x ∨ t = spec.minExponent

/-- What a number that is not negative is rounded to, however great it is. -/
def RoundsUnsigned (spec : Format) (x y : ℚ) : Prop :=
  ∃ (t : ℤ) (n : ℕ), LastPlace spec x t ∧ Nearest n (x / 2 ^ t) ∧ y = n * 2 ^ t

namespace RoundsUnsigned

theorem nonneg (h : RoundsUnsigned spec x y) : 0 ≤ y := by
  obtain ⟨t, n, -, -, rfl⟩ := h
  positivity

theorem mantissaBits_eq (spec : Format) (t : ℤ) :
    t + spec.mantissaBits = t + spec.mantissaBitsWithoutImplicit + 1 := by
  rw [Format.mantissaBits]
  push_cast
  ring

/-- A rounded significand stays below the next power of two. -/
theorem significand_le {n : ℕ} (hplace : LastPlace spec x t) (hn : Nearest n (x / 2 ^ t)) :
    n ≤ 2 ^ spec.mantissaBits := by
  refine hn.mono (.natCast _) ?_
  rw [div_le_iff₀ (by positivity), Nat.cast_pow, Nat.cast_ofNat, ← zpow_natCast,
    ← zpow_add₀ (by norm_num), add_comm]
  exact hplace.below.le

/-- A significand that is full stays full when it is rounded. -/
theorem le_significand {n : ℕ} (habove : 2 ^ (t + spec.mantissaBitsWithoutImplicit) ≤ x)
    (hn : Nearest n (x / 2 ^ t)) : 2 ^ spec.mantissaBitsWithoutImplicit ≤ n := by
  refine Nearest.mono (.natCast _) hn ?_
  rw [le_div_iff₀ (by positivity), Nat.cast_pow, Nat.cast_ofNat, ← zpow_natCast,
    ← zpow_add₀ (by norm_num), add_comm]
  exact habove

/-- Rounding is monotone.  Of two numbers with different last places the greater has the
greater place, and a power of two lies between what they are rounded to. -/
theorem mono (h : RoundsUnsigned spec x y) (h' : RoundsUnsigned spec z w) (hle : x ≤ z) :
    y ≤ w := by
  obtain ⟨t, n, hplace, hn, rfl⟩ := h
  obtain ⟨t', n', hplace', hn', rfl⟩ := h'
  rcases lt_trichotomy t t' with hlt | rfl | hgt
  · have habove := hplace'.above.resolve_right (by have := hplace.least; omega)
    have hsmall : (n : ℚ) ≤ 2 ^ spec.mantissaBits := by
      exact_mod_cast significand_le hplace hn
    have hgreat : (2 : ℚ) ^ spec.mantissaBitsWithoutImplicit ≤ n' := by
      exact_mod_cast le_significand habove hn'
    calc (n : ℚ) * 2 ^ t ≤ 2 ^ spec.mantissaBits * 2 ^ t :=
          mul_le_mul_of_nonneg_right hsmall (by positivity)
      _ = 2 ^ (t + spec.mantissaBits) := by
          rw [← zpow_natCast, ← zpow_add₀ (by norm_num), add_comm]
      _ ≤ 2 ^ (t' + spec.mantissaBitsWithoutImplicit) := by
          refine zpow_le_zpow_right₀ one_le_two ?_
          rw [mantissaBits_eq]
          omega
      _ = 2 ^ spec.mantissaBitsWithoutImplicit * 2 ^ t' := by
          rw [← zpow_natCast, ← zpow_add₀ (by norm_num), add_comm]
      _ ≤ n' * 2 ^ t' := mul_le_mul_of_nonneg_right hgreat (by positivity)
  · have hquotient : x / 2 ^ t ≤ z / 2 ^ t := div_le_div_of_nonneg_right hle (by positivity)
    have hsignificand : (n : ℚ) ≤ n' := by exact_mod_cast hn.mono hn' hquotient
    exact mul_le_mul_of_nonneg_right hsignificand (by positivity)
  · -- the smaller number does not reach down to a greater last place
    have habove := hplace.above.resolve_right (by have := hplace'.least; omega)
    have hlt : (2 : ℚ) ^ (t + spec.mantissaBitsWithoutImplicit) < 2 ^ (t' + spec.mantissaBits) :=
      habove.trans_lt (hle.trans_lt hplace'.below)
    have := (zpow_lt_zpow_iff_right₀ (one_lt_two : (1 : ℚ) < 2)).1 hlt
    rw [mantissaBits_eq] at this
    omega

/-- Zero is rounded to itself. -/
theorem zero (spec : Format) : RoundsUnsigned spec 0 0 := by
  refine ⟨spec.minExponent, 0, ⟨le_rfl, by positivity, .inr rfl⟩, ?_, by simp⟩
  rw [zero_div]
  exact_mod_cast Nearest.natCast 0

/-- So is every number of the format. -/
theorem of_canonical {m : ℕ} {e : ℤ} (h : Canonical spec m e) :
    RoundsUnsigned spec (m * 2 ^ e) (m * 2 ^ e) := by
  refine ⟨e, m, ⟨h.least, ?_, ?_⟩, ?_, rfl⟩
  · have hlt : (m : ℚ) < 2 ^ spec.mantissaBits := by exact_mod_cast h.lt
    rw [zpow_add₀ (by norm_num), zpow_natCast, mul_comm]
    exact mul_lt_mul_of_pos_left hlt (by positivity)
  · refine h.full.imp (fun hfull => ?_) id
    have hle : (2 : ℚ) ^ spec.mantissaBitsWithoutImplicit ≤ m := by exact_mod_cast hfull
    rw [zpow_add₀ (by norm_num), zpow_natCast, mul_comm]
    exact mul_le_mul_of_nonneg_right hle (by positivity)
  · rw [mul_div_cancel_right₀ _ (by positivity)]
    exact .natCast m

end RoundsUnsigned

/-- What a number is rounded to, however great it is. -/
def Rounds (spec : Format) (x y : ℚ) : Prop :=
  (0 ≤ x → RoundsUnsigned spec x y) ∧ (x ≤ 0 → RoundsUnsigned spec (-x) (-y))

namespace Rounds

/-- Rounding is monotone across zero as well. -/
theorem mono (h : Rounds spec x y) (h' : Rounds spec z w) (hle : x ≤ z) : y ≤ w := by
  rcases le_total 0 x with hx | hx
  · exact (h.1 hx).mono (h'.1 (hx.trans hle)) hle
  · rcases le_total z 0 with hz | hz
    · exact neg_le_neg_iff.1 ((h'.2 hz).mono (h.2 hx) (neg_le_neg hle))
    · exact (neg_nonneg.1 (h.2 hx).nonneg).trans (h'.1 hz).nonneg

theorem of_nonneg (hx : 0 ≤ x) (h : RoundsUnsigned spec x y) : Rounds spec x y := by
  refine ⟨fun _ => h, fun hneg => ?_⟩
  obtain rfl : x = 0 := le_antisymm hneg hx
  obtain rfl : y = 0 := le_antisymm (h.mono (.zero spec) le_rfl) h.nonneg
  rwa [neg_zero]

/-- Rounding does not depend on the sign. -/
theorem neg (h : Rounds spec x y) : Rounds spec (-x) (-y) :=
  ⟨fun hx => h.2 (neg_nonneg.1 hx), fun hx => by
    rw [neg_neg, neg_neg]
    exact h.1 (neg_nonpos.1 hx)⟩

theorem zero (spec : Format) : Rounds spec 0 0 := .of_nonneg le_rfl (.zero spec)

/-- A number of the format is rounded to itself. -/
theorem of_canonical {m : ℕ} {e : ℤ} (h : Canonical spec m e) :
    Rounds spec (m * 2 ^ e) (m * 2 ^ e) := .of_nonneg (by positivity) (.of_canonical h)

/-- The format has every power of two from the least one on. -/
theorem two_zpow {k : ℤ} (h : spec.minExponent ≤ k) : Rounds spec (2 ^ k) (2 ^ k) := by
  obtain ⟨m, e, hcanonical, hvalue⟩ : ∃ (m : ℕ) (e : ℤ), Canonical spec m e
      ∧ (2 : ℚ) ^ k = m * 2 ^ e := by
    have htwo := two_pow_mantissaBits spec
    have hpos := Nat.two_pow_pos spec.mantissaBitsWithoutImplicit
    rcases le_total spec.minExponent (k - spec.mantissaBitsWithoutImplicit) with hfull | hfew
    · refine ⟨2 ^ spec.mantissaBitsWithoutImplicit, k - spec.mantissaBitsWithoutImplicit,
        ⟨Nat.two_pow_pos _, by omega, hfull, .inl le_rfl⟩, ?_⟩
      rw [Nat.cast_pow, Nat.cast_ofNat, ← zpow_natCast, ← zpow_add₀ (by norm_num),
        add_sub_cancel]
    · obtain ⟨j, hj⟩ : ∃ j : ℕ, k = spec.minExponent + j := ⟨(k - spec.minExponent).toNat, by omega⟩
      have hfits : 2 ^ j ≤ 2 ^ spec.mantissaBitsWithoutImplicit :=
        Nat.pow_le_pow_right (by decide) (by omega)
      subst hj
      refine ⟨2 ^ j, spec.minExponent,
        ⟨Nat.two_pow_pos _, by omega, le_rfl, .inr rfl⟩, ?_⟩
      rw [Nat.cast_pow, Nat.cast_ofNat, ← zpow_natCast, ← zpow_add₀ (by norm_num), add_comm]
  rw [hvalue]
  exact .of_canonical hcanonical

end Rounds

/-! ## Finite numbers -/

/-- A number with a sign. -/
def withSign : Sign → ℚ → ℚ
  | .positive, v => v
  | .negative, v => -v

theorem Rounds.withSign (s : Sign) (hx : 0 ≤ x) (h : RoundsUnsigned spec x y) :
    Rounds spec (withSign s x) (withSign s y) := by
  cases s with
  | positive => exact .of_nonneg hx h
  | negative => exact (Rounds.of_nonneg hx h).neg

/-- The signs of two factors give that of their product. -/
theorem withSign_mul (s t : Sign) (v w : ℚ) :
    withSign s v * withSign t w = withSign (s * t) (v * w) := by
  cases s with
  | positive =>
    cases t with
    | positive => rfl
    | negative => exact mul_neg v w
  | negative =>
    cases t with
    | positive => exact neg_mul v w
    | negative => exact neg_mul_neg v w

theorem withSign_div (s t : Sign) (v w : ℚ) :
    withSign s v / withSign t w = withSign (s / t) (v / w) := by
  cases s with
  | positive =>
    cases t with
    | positive => rfl
    | negative => exact div_neg v
  | negative =>
    cases t with
    | positive => exact neg_div w v
    | negative => exact neg_div_neg_eq v w

/-- The value of a finite number. -/
def value : UnpackedFloat → ℚ
  | .finite s m e _ => withSign s (m * 2 ^ e)
  | _ => 0

theorem value_zero (s : Sign) : value (.zero s) = 0 := rfl

theorem value_finite (s : Sign) (m : ℕ) (e : ℤ) (pos : 0 < m) :
    value (.finite s m e pos) = withSign s (m * 2 ^ e) := rfl

/-- The exponent of the least power of two that is too great for a format. -/
def limit (spec : Format) : ℤ := (2 ^ spec.exponentBits : ℕ) - 1 - spec.exponentBias

/-- A finite number as a format stores it. -/
def Fits (spec : Format) : UnpackedFloat → Prop
  | .finite _ m e _ => Canonical spec m e ∧ e + spec.mantissaBits ≤ limit spec
  | .zero _ => True
  | _ => False

theorem Fits.isFinite {u : UnpackedFloat} (h : Fits spec u) : u.isFinite = true := by
  cases u with
  | infinity => exact h.elim
  | notANumber => exact h.elim
  | zero => rfl
  | finite => rfl

theorem Fits.isNaN {u : UnpackedFloat} (h : Fits spec u) : u.isNaN = false := by
  cases u with
  | infinity => rfl
  | notANumber => exact h.elim
  | zero => rfl
  | finite => rfl

/-- A word that is read as something finite is read as a number that the format stores. -/
theorem fits_unpack (hbits : 1 < spec.exponentBits) {b : BitVec spec.numBits}
    (h : (UnpackedFloat.unpack spec b).isFinite = true) :
    Fits spec (UnpackedFloat.unpack spec b) := by
  have hkind := Bits.unpacks b
  cases hu : UnpackedFloat.unpack spec b with
  | infinity => rw [hu] at h; cases h
  | notANumber => rw [hu] at h; cases h
  | zero => trivial
  | finite s m e pos =>
    rw [hu] at hkind
    obtain ⟨hm, hfull, hleast, hgreatest⟩ := hkind.bounds hbits
    rw [← minExponent_eq] at hfull hleast
    rw [← two_pow_mantissaBits] at hm
    refine ⟨⟨pos, hm, hleast, hfull⟩, ?_⟩
    rw [limit, RoundsUnsigned.mantissaBits_eq]
    omega

/-- A number that is stored is rounded to itself. -/
theorem rounds_value {u : UnpackedFloat} (h : Fits spec u) : Rounds spec (value u) (value u) := by
  cases u with
  | infinity => exact h.elim
  | notANumber => exact h.elim
  | zero => exact .zero spec
  | finite s m e => exact Rounds.withSign s (by positivity) (.of_canonical h.1)

/-! ## Stored and read back -/

/-- What is read back of a number that is stored. -/
def stored (spec : Format) (u : UnpackedFloat) : UnpackedFloat :=
  UnpackedFloat.unpack spec (UnpackedFloat.pack spec u)

theorem negOne_ne_zero (spec : Format) : (-1#_ : BitVec spec.exponentBits) ≠ 0#_ := by
  intro heq
  have := congrArg BitVec.toNat heq
  have hpos := Nat.one_lt_two_pow spec.he.ne'
  rw [BitVec.toNat_zero, BitVec.neg_one_eq_allOnes, BitVec.toNat_allOnes] at this
  omega

theorem stored_zero (s : Sign) : stored spec (.zero s) = .zero s := by
  rw [stored, UnpackedFloat.pack, packedZero, UnpackedFloat.unpack]
  simp [(negOne_ne_zero spec).symm]

theorem unpack_packedInfinity (s : Sign) :
    UnpackedFloat.unpack spec (packedInfinity spec s) = .infinity s := by
  rw [packedInfinity, UnpackedFloat.unpack]
  simp

theorem stored_infinity (s : Sign) : stored spec (.infinity s) = .infinity s :=
  unpack_packedInfinity s

/-- What a format gives for an exact result. -/
inductive Yields (spec : Format) (x : ℚ) : UnpackedFloat → Prop
  | finite {u : UnpackedFloat} (fits : Fits spec u) (rounds : Rounds spec x (value u)) :
      Yields spec x u
  | above {y : ℚ} (too : 2 ^ limit spec ≤ y) (rounds : Rounds spec x y) :
      Yields spec x (.infinity .positive)
  | below {y : ℚ} (too : y ≤ -2 ^ limit spec) (rounds : Rounds spec x y) :
      Yields spec x (.infinity .negative)

theorem yields_zero (s : Sign) : Yields spec 0 (stored spec (.zero s)) := by
  rw [stored_zero]
  exact .finite trivial (.zero spec)

theorem minExponent_add_mantissaBits_le_limit (hbits : 1 < spec.exponentBits) :
    spec.minExponent + spec.mantissaBits ≤ limit spec := by
  obtain ⟨j, hj⟩ : ∃ j, spec.exponentBits = j + 2 := ⟨spec.exponentBits - 2, by omega⟩
  have hpos := Nat.two_pow_pos j
  rw [limit, minExponent_eq, RoundsUnsigned.mantissaBits_eq, Format.exponentBias, hj,
    Nat.add_sub_assoc (by decide), pow_add, pow_add]
  omega

/-- A significand and an exponent as the format has them are stored exactly, or are too
great and become an infinity. -/
theorem yields_canonical (hbits : 1 < spec.exponentBits) {s : Sign} {m : ℕ} {e : ℤ}
    (h : Canonical spec m e) (hx : Rounds spec x (withSign s (m * 2 ^ e))) :
    Yields spec x (stored spec (.finite s m e h.pos)) := by
  have hlimit := minExponent_add_mantissaBits_le_limit hbits
  have hmantissa := RoundsUnsigned.mantissaBits_eq spec e
  rcases le_or_gt (e + spec.mantissaBits) (limit spec) with hle | hlt
  · have hread : stored spec (.finite s m e h.pos) = .finite s m e h.pos :=
      unpack_pack h (by rw [limit] at hle; push_cast at hle ⊢; omega)
    rw [hread]
    exact .finite ⟨h, hle⟩ hx
  · have hfull : 2 ^ spec.mantissaBitsWithoutImplicit ≤ m := h.full.resolve_right (by omega)
    have hgreat : (2 : ℚ) ^ limit spec ≤ m * 2 ^ e := by
      calc (2 : ℚ) ^ limit spec ≤ 2 ^ (spec.mantissaBitsWithoutImplicit + e) :=
            zpow_le_zpow_right₀ one_le_two (by omega)
        _ = 2 ^ spec.mantissaBitsWithoutImplicit * 2 ^ e := by
            rw [zpow_add₀ (by norm_num), zpow_natCast]
        _ ≤ m * 2 ^ e :=
            mul_le_mul_of_nonneg_right (by exact_mod_cast hfull) (by positivity)
    have hread : stored spec (.finite s m e h.pos) = .infinity s := by
      rw [stored, UnpackedFloat.pack, if_pos, unpack_packedInfinity]
      rw [limit] at hlt
      omega
    rw [hread]
    cases s with
    | positive => exact .above hgreat hx
    | negative => exact .below (neg_le_neg hgreat) hx

/-- A rounded significand is settled into the format.  If rounding carried it to the next
power of two, the exponent goes up by one. -/
theorem yields_settled (hbits : 1 < spec.exponentBits) {s : Sign} {n : ℕ}
    (hfits : n ≤ 2 ^ spec.mantissaBits)
    (hfull : 2 ^ spec.mantissaBitsWithoutImplicit ≤ n ∨ t = spec.minExponent)
    (hleast : spec.minExponent ≤ t) (hx : Rounds spec x (withSign s (n * 2 ^ t))) :
    Yields spec x (stored spec (settled spec s n t)) := by
  rcases Nat.lt_or_ge n (2 ^ spec.mantissaBitsWithoutImplicit) with hlt | hge
  · rcases Nat.eq_zero_or_pos n with rfl | hpos
    · rw [settled, dif_neg (lt_irrefl 0), stored_zero]
      refine .finite trivial ?_
      rw [Nat.cast_zero, zero_mul] at hx
      cases s with
      | positive => exact hx
      | negative => rwa [withSign, neg_zero] at hx
    · have htwo := two_pow_mantissaBits spec
      have hcanonical : Canonical spec n t := ⟨hpos, by omega, hleast, hfull⟩
      rw [settled_of_canonical hcanonical]
      exact yields_canonical hbits hcanonical hx
  · obtain ⟨m, e, hcanonical, hsettled, hvalue⟩ := exists_settled (s := s) hge hfits hleast
    rw [hsettled]
    refine yields_canonical hbits hcanonical ?_
    rwa [hvalue]

/-- The target exponent is the last place of what a significand and its rest stand for. -/
theorem lastPlace {m : ℕ} {e : ℤ} {acc : Accuracy}
    (hx : Represents (.ofMantissaAndAccuracy m acc) x)
    (htarget : t = max (m.log2 + e - spec.mantissaBitsWithoutImplicit) spec.minExponent)
    (hm : 0 < m ∨ t = spec.minExponent) : LastPlace spec (x * 2 ^ e) t := by
  obtain ⟨hlow, hhigh⟩ := hx.bounds
  refine ⟨by omega, ?_, ?_⟩
  · have hlog : (m : ℚ) + 1 ≤ 2 ^ (m.log2 + 1) := by exact_mod_cast Nat.lt_log2_self
    calc x * 2 ^ e < 2 ^ (m.log2 + 1) * 2 ^ e :=
          mul_lt_mul_of_pos_right (hhigh.trans_le hlog) (by positivity)
      _ = 2 ^ ((m.log2 + 1 : ℕ) + e) := by rw [zpow_add₀ (by norm_num), zpow_natCast]
      _ ≤ 2 ^ (t + spec.mantissaBits) := by
          refine zpow_le_zpow_right₀ one_le_two ?_
          rw [RoundsUnsigned.mantissaBits_eq]
          omega
  · rcases eq_or_ne t spec.minExponent with hleast | hleast
    · exact .inr hleast
    · have hpos := hm.resolve_right hleast
      have hlog : (2 : ℚ) ^ m.log2 ≤ m := by exact_mod_cast Nat.log2_self_le hpos.ne'
      left
      calc (2 : ℚ) ^ (t + spec.mantissaBitsWithoutImplicit) = 2 ^ (m.log2 + e) := by
            congr 1
            omega
        _ = 2 ^ m.log2 * 2 ^ e := by rw [zpow_add₀ (by norm_num), zpow_natCast]
        _ ≤ x * 2 ^ e := mul_le_mul_of_nonneg_right (hlog.trans hlow) (by positivity)

/-- A significand that has all digits which a format keeps, or goes down to the least
exponent, is rounded as it should. -/
theorem yields_digits (hbits : 1 < spec.exponentBits) {s : Sign} {m : ℕ} {e : ℤ} {acc : Accuracy}
    (hfull : 2 ^ spec.mantissaBitsWithoutImplicit ≤ m ∨ e ≤ spec.minExponent)
    (hx : Represents (.ofMantissaAndAccuracy m acc) x) :
    Yields spec (withSign s (x * 2 ^ e)) (stored spec (roundWithAccuracy spec s m e acc)) := by
  have hnonneg : 0 ≤ x := le_trans (Nat.cast_nonneg m) hx.bounds.1
  have htarget := targetExponent_eq spec m e
  have hunit := Nat.two_pow_pos spec.mantissaBitsWithoutImplicit
  have hdigits : spec.mantissaBitsWithoutImplicit ≤ m.log2 ∨ e ≤ spec.minExponent :=
    hfull.imp (fun h => (Nat.le_log2 (by omega)).2 h) id
  obtain ⟨k, hk⟩ : ∃ k : ℕ, spec.targetExponent (totalExponent m e) = e + k :=
    ⟨(spec.targetExponent (totalExponent m e) - e).toNat, by omega⟩
  rw [hk] at htarget
  have hm : 0 < m ∨ e + k = spec.minExponent := by
    rcases Nat.eq_zero_or_pos m with rfl | hpos
    · have hzero : Nat.log2 0 = 0 := rfl
      exact .inr (by omega)
    · exact .inl hpos
  obtain ⟨n, hnearest, hfits, hn, hround⟩ := @exists_rounded spec x s m e acc k hm hx hk
  have hplace := lastPlace hx htarget hm
  rw [hround]
  refine yields_settled hbits hfits hn hplace.least
    (Rounds.withSign s (by positivity) ⟨_, n, hplace, ?_, rfl⟩)
  rw [zpow_add₀ (by norm_num), zpow_natCast, mul_comm x, mul_div_mul_left _ _ (by positivity)]
  exact hnearest

/-! ## The operations -/

section Operations

variable {a b : UnpackedFloat}

/-- A number of the format is read back as it is. -/
theorem Fits.stored (ha : Fits spec a) : stored spec a = a := by
  cases a with
  | infinity => exact ha.elim
  | notANumber => exact ha.elim
  | zero s => exact stored_zero s
  | finite s m e pos =>
    obtain ⟨h, hle⟩ := ha
    refine unpack_pack h ?_
    rw [limit, RoundsUnsigned.mantissaBits_eq] at hle
    push_cast at hle ⊢
    omega

theorem Fits.yields (ha : Fits spec a) : Yields spec (value a) (Values.stored spec a) := by
  rw [ha.stored]
  exact .finite ha (rounds_value ha)

theorem minExponent_nonpos (hbits : 1 < spec.exponentBits) : spec.minExponent ≤ 0 := by
  have := minExponent_add_mantissaBits_le_limit hbits
  rw [minExponent_eq]
  have := spec.hm
  omega

/-- A product is the exact product of the values, rounded. -/
theorem yields_mul (hbits : 1 < spec.exponentBits) (ha : Fits spec a) (hb : Fits spec b) :
    Yields spec (value a * value b) (stored spec (UnpackedFloat.mul spec a b)) := by
  cases a with
  | infinity => exact ha.elim
  | notANumber => exact ha.elim
  | zero s =>
    rw [value_zero, zero_mul]
    cases b with
    | infinity => exact hb.elim
    | notANumber => exact hb.elim
    | zero t => exact yields_zero (s * t)
    | finite t => exact yields_zero (s * t)
  | finite s m e hm =>
    cases b with
    | infinity => exact hb.elim
    | notANumber => exact hb.elim
    | zero t =>
      rw [value_zero, mul_zero]
      exact yields_zero (s * t)
    | finite t n f hn =>
      obtain ⟨ha, -⟩ := ha
      obtain ⟨hb, -⟩ := hb
      have hfull : 2 ^ spec.mantissaBitsWithoutImplicit ≤ m * n ∨ e + f ≤ spec.minExponent := by
        rcases ha.full with h | h
        · exact .inl (h.trans (Nat.le_mul_of_pos_right m hn))
        · rcases hb.full with h' | h'
          · exact .inl (h'.trans (Nat.le_mul_of_pos_left n hm))
          · have := minExponent_nonpos hbits
            exact .inr (by omega)
      have hvalue : value (.finite s m e hm) * value (.finite t n f hn)
          = withSign (s * t) ((m * n : ℕ) * 2 ^ (e + f)) := by
        rw [value_finite, value_finite, withSign_mul, zpow_add₀ (by norm_num)]
        push_cast
        ring_nf
      rw [hvalue]
      exact @yields_digits spec _ hbits _ _ _ .exact hfull rfl

/-- The digits of a quotient are all that a format keeps, or go down to the least exponent. -/
theorem divCore_eq {m n : ℕ} {e f : ℤ} (ha : Canonical spec m e) (hb : Canonical spec n f) :
    ∃ (k : ℕ) (t : ℤ), t + k = e - f
      ∧ divCore spec m e n f = (m * 2 ^ k / n, t, accuracyOfFraction (m * 2 ^ k % n) n)
      ∧ (2 ^ spec.mantissaBitsWithoutImplicit ≤ m * 2 ^ k / n ∨ t ≤ spec.minExponent) := by
  have hexponent : spec.targetExponent (totalExponent m e - totalExponent n f)
      = max (m.log2 + e - (n.log2 + f) - 1 - spec.mantissaBitsWithoutImplicit)
        spec.minExponent := by
    rw [Format.targetExponent, totalExponent, totalExponent, Format.mantissaBits]
    push_cast
    congr 1
    ring
  obtain ⟨t, ht⟩ : ∃ t, t = min (e - f)
      (spec.targetExponent (totalExponent m e - totalExponent n f)) :=
    ⟨_, rfl⟩
  obtain ⟨k, hk⟩ : ∃ k : ℕ, t + k = e - f := ⟨(e - f - t).toNat, by omega⟩
  refine ⟨k, t, hk, ?_, ?_⟩
  · rw [divCore, ← ht, (by omega : (e - f - t).toNat = k), Nat.shiftLeft_eq]
  · rcases le_or_gt t spec.minExponent with hleast | hgreat
    · exact .inr hleast
    · left
      have hlog := ha.log2_lt
      rw [Format.mantissaBits] at hlog
      rw [hexponent] at ht
      -- the dividend has as many more digits than the divisor
      have hdigits : m.log2 + k = spec.mantissaBitsWithoutImplicit + (n.log2 + 1) := by omega
      rw [Nat.le_div_iff_mul_le hb.pos]
      calc 2 ^ spec.mantissaBitsWithoutImplicit * n
          ≤ 2 ^ spec.mantissaBitsWithoutImplicit * 2 ^ (n.log2 + 1) :=
            Nat.mul_le_mul_left _ Nat.lt_log2_self.le
        _ = 2 ^ m.log2 * 2 ^ k := by rw [← pow_add, ← hdigits, pow_add]
        _ ≤ m * 2 ^ k := Nat.mul_le_mul_right _ (Nat.log2_self_le ha.pos.ne')

/-- A quotient is the exact quotient, rounded, unless the divisor is zero. -/
theorem yields_div (hbits : 1 < spec.exponentBits) (ha : Fits spec a) (hb : Fits spec b)
    (hne : value b ≠ 0) :
    Yields spec (value a / value b) (stored spec (UnpackedFloat.div spec a b)) := by
  cases b with
  | infinity => exact hb.elim
  | notANumber => exact hb.elim
  | zero => exact absurd rfl hne
  | finite t n f hn =>
    cases a with
    | infinity => exact ha.elim
    | notANumber => exact ha.elim
    | zero s =>
      rw [value_zero, zero_div]
      exact yields_zero (s / t)
    | finite s m e hm =>
      obtain ⟨k, r, hk, hcore, hfull⟩ := divCore_eq ha.1 hb.1
      have hvalue : value (.finite s m e hm) / value (.finite t n f hn)
          = withSign (s / t) (((m * 2 ^ k : ℕ) : ℚ) / n * 2 ^ r) := by
        rw [value_finite, value_finite, withSign_div, (by omega : e = r + k + f),
          zpow_add₀ (by norm_num), zpow_add₀ (by norm_num), zpow_natCast]
        congr 1
        push_cast
        field_simp
      have hdiv : UnpackedFloat.div spec (.finite s m e hm) (.finite t n f hn)
          = roundWithAccuracy spec (s / t) (m * 2 ^ k / n) r
              (accuracyOfFraction (m * 2 ^ k % n) n) := by
        rw [UnpackedFloat.div, hcore]
      rw [hvalue, hdiv]
      exact yields_digits hbits hfull (represents_quotient _ hn)

/-- A significand with any exponent is rounded to the format. -/
theorem yields_round (hbits : 1 < spec.exponentBits) (s : Sign) {m : ℕ} (e : ℤ) (hm : 0 < m) :
    Yields spec (withSign s (m * 2 ^ e)) (stored spec (UnpackedFloat.round spec s m e)) := by
  have htarget := targetExponent_eq spec m e
  obtain ⟨k, hk⟩ : ∃ k : ℕ, (e - spec.targetExponent (totalExponent m e)).toNat = k := ⟨_, rfl⟩
  have hfull : 2 ^ spec.mantissaBitsWithoutImplicit ≤ m * 2 ^ k ∨ e - k ≤ spec.minExponent := by
    rcases le_or_gt (e - (k : ℤ)) spec.minExponent with hleast | hgreat
    · exact .inr hleast
    · refine .inl ((Nat.pow_le_pow_right (by decide) ?_).trans
        (Nat.log2_self_le (Nat.mul_pos hm (Nat.two_pow_pos k)).ne'))
      rw [log2_mul_two_pow hm]
      omega
  have hvalue : (m : ℚ) * 2 ^ e = (m * 2 ^ k : ℕ) * 2 ^ (e - k) := by
    rw [zpow_sub₀ (by norm_num), zpow_natCast]
    push_cast
    field_simp
  rw [UnpackedFloat.round, decreaseExponent, hk, Nat.shiftLeft_eq, hvalue]
  exact @yields_digits spec _ hbits _ _ _ .exact hfull rfl

/-- So is an integer with a sign of its own, where a zero keeps the sign it is given. -/
theorem yields_normalize (hbits : 1 < spec.exponentBits) (m e : ℤ) (s : Sign) :
    Yields spec (m * 2 ^ e) (stored spec (UnpackedFloat.normalize spec m e s)) := by
  rw [UnpackedFloat.normalize]
  rcases lt_trichotomy m 0 with hlt | rfl | hgt
  · obtain ⟨n, hn⟩ : ∃ n : ℕ, -m = n := ⟨(-m).toNat, by omega⟩
    obtain rfl : m = -n := by omega
    rw [Int.compare_eq_lt.2 hlt]
    have := yields_round hbits .negative e (by omega : 0 < n)
    rw [withSign, ← neg_mul] at this
    simpa using this
  · rw [Int.cast_zero, zero_mul]
    exact yields_zero s
  · obtain ⟨n, rfl⟩ : ∃ n : ℕ, m = n := ⟨m.toNat, by omega⟩
    rw [Int.compare_eq_gt.2 hgt]
    exact yields_round hbits .positive e (by omega)

/-- Both operands of a sum are brought to the smaller exponent. -/
theorem apply_decreaseExponent (s : Sign) (m : ℕ) {e f : ℤ} (h : f ≤ e) :
    ((s.apply (decreaseExponent m e f).1 : ℤ) : ℚ) * 2 ^ f = withSign s (m * 2 ^ e) := by
  obtain ⟨k, rfl⟩ : ∃ k : ℕ, e = f + k := ⟨(e - f).toNat, by omega⟩
  have hvalue : ((m <<< k : ℕ) : ℚ) * 2 ^ f = m * 2 ^ (f + k : ℤ) := by
    rw [Nat.shiftLeft_eq, zpow_add₀ (by norm_num), zpow_natCast]
    push_cast
    ring
  rw [decreaseExponent, (by omega : (f + (k : ℤ) - f).toNat = k)]
  cases s with
  | positive => exact_mod_cast hvalue
  | negative =>
    rw [withSign, ← hvalue, Sign.apply, Int.cast_neg, neg_mul, Int.cast_natCast]

/-- A sum is the exact sum of the values, rounded. -/
theorem yields_add (hbits : 1 < spec.exponentBits) (ha : Fits spec a) (hb : Fits spec b) :
    Yields spec (value a + value b) (stored spec (UnpackedFloat.add spec a b)) := by
  cases a with
  | infinity => exact ha.elim
  | notANumber => exact ha.elim
  | zero s =>
    rw [value_zero, zero_add]
    cases b with
    | infinity => exact hb.elim
    | notANumber => exact hb.elim
    | zero t =>
      rw [value_zero, UnpackedFloat.add]
      split
      · exact yields_zero s
      · exact yields_zero .positive
    | finite => exact hb.yields
  | finite s m e hm =>
    cases b with
    | infinity => exact hb.elim
    | notANumber => exact hb.elim
    | zero t =>
      rw [value_zero, add_zero]
      exact ha.yields
    | finite t n f hn =>
      rw [value_finite, value_finite, ← apply_decreaseExponent s m (min_le_left e f),
        ← apply_decreaseExponent t n (min_le_right e f), ← add_mul, ← Int.cast_add]
      exact yields_normalize hbits _ _ _

theorem Fits.neg (ha : Fits spec a) : Fits spec a.neg := by
  cases a with
  | infinity => exact ha.elim
  | notANumber => exact ha.elim
  | zero => trivial
  | finite => exact ha

theorem value_neg (a : UnpackedFloat) : value a.neg = -value a := by
  cases a with
  | infinity => exact neg_zero.symm
  | notANumber => exact neg_zero.symm
  | zero => exact neg_zero.symm
  | finite s =>
    cases s with
    | positive => rfl
    | negative => exact (neg_neg _).symm

/-- A difference is the sum with the opposite. -/
theorem sub_eq_add (ha : Fits spec a) (hb : Fits spec b) :
    UnpackedFloat.sub spec a b = UnpackedFloat.add spec a b.neg := by
  cases a with
  | infinity => exact ha.elim
  | notANumber => exact ha.elim
  | zero s =>
    cases b with
    | infinity => exact hb.elim
    | notANumber => exact hb.elim
    | zero => rfl
    | finite => rfl
  | finite s m e =>
    cases b with
    | infinity => exact hb.elim
    | notANumber => exact hb.elim
    | zero => rfl
    | finite t n f =>
      have happly : ∀ j k : ℤ, j - t.apply k = j + (-t).apply k := by
        intro j k
        cases t with
        | positive => exact Int.sub_eq_add_neg
        | negative => exact sub_neg_eq_add j k
      exact congrArg (UnpackedFloat.normalize spec · _ _) (happly _ _)

/-- A difference is the exact difference, rounded. -/
theorem yields_sub (hbits : 1 < spec.exponentBits) (ha : Fits spec a) (hb : Fits spec b) :
    Yields spec (value a - value b) (stored spec (UnpackedFloat.sub spec a b)) := by
  rw [sub_eq_add ha hb, sub_eq_add_neg, ← value_neg]
  exact yields_add hbits ha hb.neg

end Operations

end Values

end Denoise
