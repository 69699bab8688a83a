import Denoise.Proofs.Singles
import Denoise.Proofs.Values

/-!
# Bounds of results

A result lies between two numbers of its format if the exact result does
(`Yields.within`), so bounds pass through a formula one operation at a time, as exact
inequalities.  Overflow and a division by zero are excluded on the way.

Where an operand may be infinite or undefined, only the sign is left to reason about.
`Unsigned` holds of what is not below zero, and products and quotients keep it.
-/

namespace Denoise

namespace Values

open Float.Model UnpackedFloat Rounding

variable {spec : Format} {x z lo hi : ℚ} {u w : UnpackedFloat}

/-! ## Bounds -/

/-- A number that a format has. -/
structure Exact (spec : Format) (x : ℚ) : Prop where
  rounds : Rounds spec x x
  low : -2 ^ limit spec < x
  high : x < 2 ^ limit spec

namespace Exact

theorem zero (spec : Format) : Exact spec 0 where
  rounds := .zero spec
  low := neg_neg_of_pos (by positivity)
  high := by positivity

theorem neg (h : Exact spec x) : Exact spec (-x) where
  rounds := h.rounds.neg
  low := neg_lt_neg h.high
  high := neg_lt.1 h.low

/-- A format has the powers of two within its range. -/
theorem two_zpow {k : ℤ} (hleast : spec.minExponent ≤ k) (hgreatest : k < limit spec) :
    Exact spec (2 ^ k) where
  rounds := .two_zpow hleast
  low := (neg_neg_of_pos (by positivity)).trans (by positivity)
  high := zpow_lt_zpow_right₀ one_lt_two hgreatest

/-- A finite number is one. -/
theorem value (hu : Fits spec u) : Exact spec (value u) := by
  cases u with
  | infinity => exact hu.elim
  | notANumber => exact hu.elim
  | zero => exact .zero spec
  | finite s m e =>
    obtain ⟨hcanonical, hgreatest⟩ := hu
    have hshort : (m : ℚ) < 2 ^ spec.mantissaBits := by exact_mod_cast hcanonical.lt
    have hpositive : Exact spec (m * 2 ^ e) := by
      refine ⟨.of_canonical hcanonical, ?_, ?_⟩
      · exact (neg_neg_of_pos (by positivity)).trans_le (by positivity)
      · calc (m : ℚ) * 2 ^ e < 2 ^ spec.mantissaBits * 2 ^ e :=
              mul_lt_mul_of_pos_right hshort (by positivity)
          _ = 2 ^ (e + spec.mantissaBits) := by
              rw [zpow_add₀ (by norm_num), zpow_natCast, mul_comm]
          _ ≤ 2 ^ limit spec := zpow_le_zpow_right₀ one_le_two hgreatest
    cases s with
    | positive => exact hpositive
    | negative => exact hpositive.neg

end Exact

/-- A finite number between two bounds. -/
structure Within (spec : Format) (lo hi : ℚ) (u : UnpackedFloat) : Prop where
  fits : Fits spec u
  low : lo ≤ value u
  high : value u ≤ hi

namespace Yields

/-- A result that an exact one stands behind is a number. -/
theorem isNaN (h : Yields spec x u) : u.isNaN = false := by
  cases h with
  | finite fits => exact fits.isNaN
  | above => rfl
  | below => rfl

theorem rounds (h : Yields spec x u) (hu : u.isFinite = true) : Rounds spec x (Values.value u) := by
  cases h with
  | finite fits rounds => exact rounds
  | above => cases hu
  | below => cases hu

/-- Bounds of the exact result, once they are rounded, are bounds of the result. -/
theorem between {lo' hi' : ℚ} (h : Yields spec x u) (hlo : Rounds spec lo lo')
    (hhi : Rounds spec hi hi') (hleast : -2 ^ limit spec < lo') (hgreatest : hi' < 2 ^ limit spec)
    (hlow : lo ≤ x) (hhigh : x ≤ hi) : Within spec lo' hi' u := by
  cases h with
  | finite fits rounds => exact ⟨fits, hlo.mono rounds hlow, rounds.mono hhi hhigh⟩
  | above hgreat rounds => exact absurd (rounds.mono hhi hhigh) (by linarith)
  | below hgreat rounds => exact absurd (hlo.mono rounds hlow) (by linarith)

/-- Bounds that the format has need no rounding. -/
theorem within (h : Yields spec x u) (hlo : Exact spec lo) (hhi : Exact spec hi) (hlow : lo ≤ x)
    (hhigh : x ≤ hi) : Within spec lo hi u :=
  h.between hlo.rounds hhi.rounds hlo.low hhi.high hlow hhigh

/-- A result that the format has is exact. -/
theorem exact (h : Yields spec x u) (hx : Exact spec x) : Fits spec u ∧ value u = x :=
  have hwithin := h.within hx hx le_rfl le_rfl
  ⟨hwithin.fits, le_antisymm hwithin.high hwithin.low⟩

theorem neg (h : Yields spec x u) : Yields spec (-x) (stored spec u.neg) := by
  cases h with
  | finite fits rounds =>
    rw [fits.neg.stored]
    refine .finite fits.neg ?_
    rw [value_neg]
    exact rounds.neg
  | above hgreat rounds =>
    show Yields spec _ (stored spec (.infinity .negative))
    rw [stored_infinity]
    exact .below (neg_le_neg hgreat) rounds.neg
  | below hgreat rounds =>
    show Yields spec _ (stored spec (.infinity .positive))
    rw [stored_infinity]
    exact .above (le_neg.1 hgreat) rounds.neg

/-- A result that is rounded once more, to what it is already. -/
theorem of_rounds (hx : Rounds spec x z) (hz : Rounds spec z z) (h : Yields spec z u) :
    Yields spec x u := by
  cases h with
  | finite fits rounds =>
    have heq : value u = z := le_antisymm (rounds.mono hz le_rfl) (hz.mono rounds le_rfl)
    exact .finite fits (heq ▸ hx)
  | above hgreat rounds =>
    exact .above (hgreat.trans (rounds.mono hz le_rfl)) hx
  | below hgreat rounds =>
    exact .below ((hz.mono rounds le_rfl).trans hgreat) hx

/-- What is too great for a format gives an infinity. -/
theorem overflows (h : Yields spec x u) (hleast : spec.minExponent ≤ limit spec)
    (hx : 2 ^ limit spec ≤ x) : u = .infinity .positive := by
  have hpos : (0 : ℚ) < 2 ^ limit spec := by positivity
  cases h with
  | finite fits rounds =>
    exact absurd ((Rounds.two_zpow hleast).mono rounds hx) (Exact.value fits).high.not_ge
  | above => rfl
  | below hgreat rounds =>
    have hnonneg := Rounds.mono (.zero spec) rounds (hpos.le.trans hx)
    exact absurd hgreat (by linarith)

end Yields

/-- A significand that a format can hold is not rounded. -/
theorem rounds_self {n : ℕ} {t : ℤ} (hn : n ≤ 2 ^ spec.mantissaBits) (hleast : spec.minExponent ≤ t)
    (hfull : 2 ^ spec.mantissaBitsWithoutImplicit ≤ n ∨ t = spec.minExponent) :
    Rounds spec (n * 2 ^ t) (n * 2 ^ t) := by
  rcases Nat.lt_or_ge n (2 ^ spec.mantissaBitsWithoutImplicit) with hlt | hge
  · rcases Nat.eq_zero_or_pos n with rfl | hpos
    · rw [Nat.cast_zero, zero_mul]
      exact .zero spec
    · have htwo := two_pow_mantissaBits spec
      exact .of_canonical ⟨hpos, by omega, hleast, hfull⟩
  · obtain ⟨m, e, hcanonical, -, hvalue⟩ := exists_settled (s := .positive) hge hn hleast
    rw [← hvalue]
    exact .of_canonical hcanonical

/-- A short significand with zeros behind it is not changed by rounding. -/
theorem rounds_multiple {n : ℕ} {t : ℤ} (hn : n ≤ 2 ^ spec.mantissaBits)
    (hleast : spec.minExponent ≤ t) : Rounds spec (n * 2 ^ t) (n * 2 ^ t) := by
  obtain ⟨k, rfl⟩ : ∃ k : ℕ, t = spec.minExponent + k := ⟨(t - spec.minExponent).toNat, by omega⟩
  -- a short significand is filled up with zeros, down to the least exponent at most
  induction k generalizing n with
  | zero => exact rounds_self hn hleast (.inr (add_zero _))
  | succ k ih =>
    rcases Nat.lt_or_ge n (2 ^ spec.mantissaBitsWithoutImplicit) with hlt | hge
    · have htwo := two_pow_mantissaBits spec
      have hshift : (n : ℚ) * 2 ^ (spec.minExponent + (k + 1 : ℕ))
          = (n * 2 : ℕ) * 2 ^ (spec.minExponent + k) := by
        rw [Nat.cast_succ, ← add_assoc, zpow_add_one₀ (by norm_num)]
        push_cast
        ring
      rw [hshift]
      exact ih (by omega) (by omega)
    · exact rounds_self hn hleast (.inl hge)

/-- A multiple of a power of two that a significand can hold. -/
theorem Exact.multiple {n : ℕ} {t : ℤ} (hn : n ≤ 2 ^ spec.mantissaBits)
    (hleast : spec.minExponent ≤ t) (hgreatest : t + spec.mantissaBits < limit spec) :
    Exact spec (n * 2 ^ t) where
  rounds := rounds_multiple hn hleast
  low := (neg_neg_of_pos (by positivity)).trans_le (by positivity)
  high := by
    calc (n : ℚ) * 2 ^ t ≤ 2 ^ spec.mantissaBits * 2 ^ t :=
          mul_le_mul_of_nonneg_right (by exact_mod_cast hn) (by positivity)
      _ = 2 ^ (t + spec.mantissaBits) := by
          rw [zpow_add₀ (by norm_num), zpow_natCast, mul_comm]
      _ < 2 ^ limit spec := zpow_lt_zpow_right₀ one_lt_two hgreatest

/-- A whole number that a significand can hold. -/
theorem Exact.natCast {n : ℕ} (hn : n ≤ 2 ^ spec.mantissaBits) (hleast : spec.minExponent ≤ 0)
    (hgreatest : spec.mantissaBits < limit spec) : Exact spec n := by
  have hexact := Exact.multiple hn hleast (by rwa [zero_add])
  rwa [zpow_zero, mul_one] at hexact

/-! ## The order by value -/

/-- A greater exponent makes a greater number. -/
theorem canonical_lt {m n : ℕ} {e f : ℤ} (hm : Canonical spec m e) (hn : Canonical spec n f)
    (h : e < f ∨ e = f ∧ m < n) : (m : ℚ) * 2 ^ e < n * 2 ^ f := by
  rcases h with hlt | ⟨rfl, hlt⟩
  · have hfull : (2 : ℚ) ^ spec.mantissaBitsWithoutImplicit ≤ n := by
      exact_mod_cast hn.full.resolve_right (by have := hm.least; omega)
    have hshort : (m : ℚ) < 2 ^ (spec.mantissaBitsWithoutImplicit + 1) := by
      rw [pow_succ']
      exact_mod_cast two_pow_mantissaBits spec ▸ hm.lt
    calc (m : ℚ) * 2 ^ e < 2 ^ (spec.mantissaBitsWithoutImplicit + 1) * 2 ^ e :=
          mul_lt_mul_of_pos_right hshort (by positivity)
      _ = 2 ^ spec.mantissaBitsWithoutImplicit * 2 ^ (e + 1) := by
          rw [pow_succ, zpow_add_one₀ (by norm_num)]
          ring
      _ ≤ 2 ^ spec.mantissaBitsWithoutImplicit * 2 ^ f :=
          mul_le_mul_of_nonneg_left (zpow_le_zpow_right₀ one_le_two (by omega)) (by positivity)
      _ ≤ n * 2 ^ f := mul_le_mul_of_nonneg_right hfull (by positivity)
  · exact mul_lt_mul_of_pos_right (by exact_mod_cast hlt) (by positivity)

theorem value_pos {m : ℕ} {e : ℤ} {pos : 0 < m} : 0 < value (.finite .positive m e pos) := by
  have : (0 : ℚ) < m := by exact_mod_cast pos
  show 0 < (m : ℚ) * 2 ^ e
  positivity

theorem value_neg_of_negative {m : ℕ} {e : ℤ} {pos : 0 < m} :
    value (.finite .negative m e pos) < 0 :=
  neg_neg_of_pos (@value_pos m e pos)

/-- The places of finite numbers are in the order of their values. -/
theorem value_lt (hu : Fits spec u) (hw : Fits spec w) (h : Singles.place u < Singles.place w) :
    value u < value w := by
  cases u with
  | notANumber => exact hu.elim
  | infinity => exact hu.elim
  | zero s =>
    cases w with
    | notANumber => exact hw.elim
    | infinity => exact hw.elim
    | zero => exact absurd h (lt_irrefl _)
    | finite t =>
      cases t with
      | positive => exact value_pos
      | negative => simp [Singles.place, Prod.Lex.toLex_lt_toLex] at h
  | finite s m e =>
    cases w with
    | notANumber => exact hw.elim
    | infinity => exact hw.elim
    | zero =>
      cases s with
      | positive => simp [Singles.place, Prod.Lex.toLex_lt_toLex] at h
      | negative => exact value_neg_of_negative
    | finite t n f =>
      cases s with
      | positive =>
        cases t with
        | positive =>
          simp only [Singles.place, Prod.Lex.toLex_lt_toLex, lt_irrefl, true_and, false_or,
            Int.ofNat_lt] at h
          exact canonical_lt hu.1 hw.1 h
        | negative => simp [Singles.place, Prod.Lex.toLex_lt_toLex] at h
      | negative =>
        cases t with
        | positive => exact value_neg_of_negative.trans value_pos
        | negative =>
          simp only [Singles.place, Prod.Lex.toLex_lt_toLex, lt_irrefl, true_and, false_or,
            neg_lt_neg_iff, Int.neg_inj, Int.ofNat_lt] at h
          exact neg_lt_neg (canonical_lt hw.1 hu.1 (h.imp id fun h => ⟨h.1.symm, h.2⟩))

theorem value_eq (hu : Fits spec u) (hw : Fits spec w) (h : Singles.place u = Singles.place w) :
    value u = value w := by
  cases w with
  | notANumber => exact hw.elim
  | infinity => exact hw.elim
  | finite t n f => rw [Singles.eq_of_place_eq h]
  | zero t =>
    cases u with
    | notANumber => exact hu.elim
    | infinity => exact hu.elim
    | finite => rw [Singles.eq_of_place_eq h.symm]
    | zero => rfl

/-- The places of finite numbers are ordered as their values are. -/
theorem place_lt_iff (hu : Fits spec u) (hw : Fits spec w) :
    Singles.place u < Singles.place w ↔ value u < value w := by
  refine ⟨value_lt hu hw, fun h => ?_⟩
  rcases lt_trichotomy (Singles.place u) (Singles.place w) with hlt | heq | hgt
  · exact hlt
  · exact absurd (value_eq hu hw heq) h.ne
  · exact absurd (value_lt hw hu hgt) h.le.not_gt

/-- Every number is between the infinities. -/
theorem place_between (h : u.isNaN = false) :
    Singles.place (.infinity .negative) ≤ Singles.place u
      ∧ Singles.place u ≤ Singles.place (.infinity .positive) := by
  have hle {i j : ℤ} {v w : ℤ ×ₗ ℤ} (h : i < j) : toLex (i, v) ≤ toLex (j, w) :=
    Prod.Lex.toLex_le_toLex.2 (.inl h)
  cases u with
  | notANumber => cases h
  | infinity s =>
    cases s with
    | positive => exact ⟨hle (by decide), le_rfl⟩
    | negative => exact ⟨le_rfl, hle (by decide)⟩
  | zero => exact ⟨hle (by decide), hle (by decide)⟩
  | finite s =>
    cases s with
    | positive => exact ⟨hle (by decide), hle (by decide)⟩
    | negative => exact ⟨hle (by decide), hle (by decide)⟩

/-- A number other than zero is stored in one way. -/
theorem Yields.eq_of_fits {s : Sign} {m : ℕ} {e : ℤ} {pos : 0 < m}
    (h : Yields spec (value (.finite s m e pos)) u) (hw : Fits spec (.finite s m e pos)) :
    u = .finite s m e pos := by
  obtain ⟨hu, hvalue⟩ := h.exact (.value hw)
  refine Singles.eq_of_place_eq (le_antisymm (not_lt.1 fun hlt => ?_) (not_lt.1 fun hlt => ?_))
  · exact ((place_lt_iff hw hu).1 hlt).ne' hvalue
  · exact ((place_lt_iff hu hw).1 hlt).ne hvalue

/-- Rounding keeps the order, with the infinities at its ends. -/
theorem place_le_of_yields (h : Yields spec x u) (h' : Yields spec z w) (hle : x ≤ z) :
    Singles.place u ≤ Singles.place w := by
  have hlimit : (0 : ℚ) < 2 ^ limit spec := by positivity
  cases h with
  | finite fits rounds =>
    cases h' with
    | finite fits' rounds' =>
      exact not_lt.1 fun hlt => ((place_lt_iff fits' fits).1 hlt).not_ge (rounds.mono rounds' hle)
    | above => exact (place_between fits.isNaN).2
    | below hgreat rounds' =>
      have := rounds.mono rounds' hle
      have := (Exact.value fits).low
      linarith
  | above hgreat rounds =>
    cases h' with
    | finite fits' rounds' =>
      have := rounds.mono rounds' hle
      have := (Exact.value fits').high
      linarith
    | above => exact le_rfl
    | below hgreat' rounds' =>
      have := rounds.mono rounds' hle
      linarith
  | below => exact (place_between h'.isNaN).1

/-! ## What is not below zero -/

/-- What is not below zero, or not a number. -/
inductive Unsigned (spec : Format) : UnpackedFloat → Prop
  | notANumber : Unsigned spec .notANumber
  | infinity : Unsigned spec (.infinity .positive)
  | fits {u : UnpackedFloat} (fits : Fits spec u) (nonneg : 0 ≤ value u) : Unsigned spec u

/-- If the exact result is not below zero, the rounded one is not. -/
theorem Yields.unsigned (h : Yields spec x u) (hx : 0 ≤ x) : Unsigned spec u := by
  cases h with
  | finite fits rounds => exact .fits fits (Rounds.mono (.zero spec) rounds hx)
  | above => exact .infinity
  | below hgreat rounds =>
    have hnonneg := Rounds.mono (.zero spec) rounds hx
    have : (0 : ℚ) < 2 ^ limit spec := by positivity
    exact absurd hgreat (by linarith)

theorem stored_notANumber : stored spec .notANumber = .notANumber := by
  have hbit : (1#_ : BitVec spec.mantissaBitsWithoutImplicit)
      <<< (spec.mantissaBitsWithoutImplicit - 1) ≠ 0#_ := by
    intro h
    have := congrArg BitVec.toNat h
    have hlt : 2 ^ (spec.mantissaBitsWithoutImplicit - 1) < 2 ^ spec.mantissaBitsWithoutImplicit :=
      Nat.pow_lt_pow_right (by decide) (Nat.sub_lt spec.hm (by decide))
    rw [BitVec.toNat_shiftLeft, BitVec.toNat_ofNat,
      Nat.mod_eq_of_lt (Nat.one_lt_two_pow spec.hm.ne'), Nat.one_shiftLeft, Nat.mod_eq_of_lt hlt,
      BitVec.toNat_zero] at this
    exact (Nat.two_pow_pos _).ne' this
  rw [stored, UnpackedFloat.pack, packedNaN, UnpackedFloat.unpack]
  simp [hbit]

namespace Unsigned

/-- If it is finite and not zero, it is positive. -/
theorem sign_eq {s : Sign} {m : ℕ} {e : ℤ} {pos : 0 < m}
    (h : Unsigned spec (.finite s m e pos)) : s = .positive := by
  cases h with
  | fits _ nonneg =>
    cases s with
    | positive => rfl
    | negative => exact absurd nonneg value_neg_of_negative.not_ge

theorem value_nonneg (h : Unsigned spec u) : 0 ≤ value u := by
  cases h with
  | notANumber => exact le_rfl
  | infinity => exact le_rfl
  | fits _ nonneg => exact nonneg

theorem stored_notANumber : Unsigned spec (stored spec .notANumber) := by
  rw [Values.stored_notANumber]
  exact .notANumber

theorem stored_infinity : Unsigned spec (stored spec (.infinity .positive)) := by
  rw [Values.stored_infinity]
  exact .infinity

theorem stored_zero (s : Sign) : Unsigned spec (stored spec (.zero s)) :=
  (yields_zero s).unsigned le_rfl

/-- A product of two keeps the property, infinite and undefined ones included. -/
theorem mul (hbits : 1 < spec.exponentBits) (hu : Unsigned spec u) (hw : Unsigned spec w) :
    Unsigned spec (stored spec (UnpackedFloat.mul spec u w)) := by
  cases hu with
  | notANumber => exact stored_notANumber
  | infinity =>
    cases hw with
    | notANumber => exact stored_notANumber
    | infinity => exact stored_infinity
    | fits fits nonneg =>
      cases w with
      | notANumber => exact fits.elim
      | infinity => exact fits.elim
      | zero => exact stored_notANumber
      | finite t =>
        obtain rfl : t = .positive := sign_eq (.fits fits nonneg)
        exact stored_infinity
  | fits fits nonneg =>
    cases hw with
    | notANumber => cases u <;> exact stored_notANumber
    | infinity =>
      cases u with
      | notANumber => exact fits.elim
      | infinity => exact fits.elim
      | zero => exact stored_notANumber
      | finite s =>
        obtain rfl : s = .positive := sign_eq (.fits fits nonneg)
        exact stored_infinity
    | fits fits' nonneg' =>
      exact (yields_mul hbits fits fits').unsigned (mul_nonneg nonneg nonneg')

/-- A divisor that is not finite must be positive, too. -/
theorem div (hbits : 1 < spec.exponentBits) (hu : Unsigned spec u) (hw : Unsigned spec w)
    (hne : Fits spec w → 0 < value w) :
    Unsigned spec (stored spec (UnpackedFloat.div spec u w)) := by
  cases hu with
  | notANumber => exact stored_notANumber
  | infinity =>
    cases hw with
    | notANumber => exact stored_notANumber
    | infinity => exact stored_notANumber
    | fits fits nonneg =>
      cases w with
      | notANumber => exact fits.elim
      | infinity => exact fits.elim
      | zero => exact absurd (hne fits) (lt_irrefl _)
      | finite t =>
        obtain rfl : t = .positive := sign_eq (.fits fits nonneg)
        exact stored_infinity
  | fits fits nonneg =>
    cases hw with
    | notANumber => cases u <;> exact stored_notANumber
    | infinity =>
      cases u with
      | notANumber => exact fits.elim
      | infinity => exact fits.elim
      | zero => exact stored_zero _
      | finite => exact stored_zero _
    | fits fits' nonneg' =>
      exact (yields_div hbits fits fits' (hne fits').ne').unsigned (div_nonneg nonneg nonneg')

/-- No square is below zero. -/
theorem mul_self (hbits : 1 < spec.exponentBits) (hu : u.isFinite = true → Fits spec u) :
    Unsigned spec (stored spec (UnpackedFloat.mul spec u u)) := by
  cases u with
  | notANumber => exact stored_notANumber
  | infinity s =>
    cases s with
    | positive => exact stored_infinity
    | negative => exact stored_infinity
  | zero => exact (yields_mul hbits (hu rfl) (hu rfl)).unsigned (mul_self_nonneg _)
  | finite => exact (yields_mul hbits (hu rfl) (hu rfl)).unsigned (mul_self_nonneg _)

end Unsigned

end Values

/-! ## Singles -/

namespace Singles

open Float.Model UnpackedFloat Rounding Values

variable {a b c : Float32} {lo hi : ℚ}

theorem fits (h : a.isFinite = true) : Fits .binary32 a.toModel.unpack := fits_unpack (by decide) h

/-- The value of a finite single. -/
def valueOf (a : Float32) : ℚ := value a.toModel.unpack

/-- Finite singles are compared by value. -/
theorem lt_iff_value (ha : a.isFinite = true) (hb : b.isFinite = true) :
    a < b ↔ valueOf a < valueOf b :=
  (lt_iff_place (isNaN_of_isFinite ha) (isNaN_of_isFinite hb)).trans
    (place_lt_iff (fits ha) (fits hb))

theorem le_iff_value (ha : a.isFinite = true) (hb : b.isFinite = true) :
    a ≤ b ↔ valueOf a ≤ valueOf b := by
  rw [← not_iff_not, not_le_iff_lt (isNaN_of_isFinite ha) (isNaN_of_isFinite hb),
    lt_iff_value hb ha, not_le]

/-- Only numbers are comparable. -/
theorem isNaN_of_le (h : a ≤ b) : a.isNaN = false ∧ b.isNaN = false := by
  obtain ⟨order, horder, -⟩ := (le_iff a b).1 h
  show a.toModel.unpack.isNaN = false ∧ b.toModel.unpack.isNaN = false
  cases hu : a.toModel.unpack with
  | notANumber =>
    rw [hu] at horder
    cases horder
  | _ =>
    cases hw : b.toModel.unpack with
    | notANumber =>
      rw [hu, hw] at horder
      cases horder
    | _ => exact ⟨rfl, rfl⟩

/-- What compares with anything is a number. -/
theorem isNaN_of_lt (h : a < b) : a.isNaN = false ∧ b.isNaN = false := by
  have hcompare := (lt_iff a b).1 h
  exact isNaN_of_le ((le_iff a b).2 ⟨_, hcompare, rfl⟩)

theorem lt_of_le_of_lt (hab : a ≤ b) (hbc : b < c) : a < c := by
  obtain ⟨ha, hb⟩ := isNaN_of_le hab
  obtain ⟨-, hc⟩ := isNaN_of_lt hbc
  rw [lt_iff_place ha hc]
  exact ((le_iff_place ha hb).1 hab).trans_lt ((lt_iff_place hb hc).1 hbc)

/-- A number strictly between the infinities is finite. -/
theorem isFinite_of_place (hnumber : a.isNaN = false)
    (hlow : Singles.place (.infinity .negative) < placeOf a)
    (hhigh : placeOf a < Singles.place (.infinity .positive)) : a.isFinite = true := by
  change a.toModel.unpack.isNaN = false at hnumber
  show a.toModel.unpack.isFinite = true
  rw [placeOf] at hlow hhigh
  cases hu : a.toModel.unpack with
  | notANumber =>
    rw [hu] at hnumber
    cases hnumber
  | infinity s =>
    rw [hu] at hlow hhigh
    cases s with
    | positive => exact absurd hhigh (lt_irrefl _)
    | negative => exact absurd hlow (lt_irrefl _)
  | zero => rfl
  | finite => rfl

/-- A finite number is strictly between the infinities. -/
theorem place_of_isFinite (ha : a.isFinite = true) :
    Singles.place (.infinity .negative) < placeOf a
      ∧ placeOf a < Singles.place (.infinity .positive) := by
  change a.toModel.unpack.isFinite = true at ha
  rw [placeOf]
  cases hu : a.toModel.unpack with
  | notANumber =>
    rw [hu] at ha
    cases ha
  | infinity =>
    rw [hu] at ha
    cases ha
  | zero => simp [place, Prod.Lex.toLex_lt_toLex]
  | finite s => cases s <;> simp [place, Prod.Lex.toLex_lt_toLex]

/-- A single between two finite ones is finite. -/
theorem isFinite_of_between (ha : a.isFinite = true) (hc : c.isFinite = true) (hab : a ≤ b)
    (hbc : b ≤ c) : b.isFinite = true := by
  obtain ⟨hna, hnb⟩ := isNaN_of_le hab
  refine isFinite_of_place hnb ?_ ?_
  · exact (place_of_isFinite ha).1.trans_le ((le_iff_place hna hnb).1 hab)
  · exact ((le_iff_place hnb (isNaN_of_isFinite hc)).1 hbc).trans_lt (place_of_isFinite hc).2

theorem valueOf_zero : valueOf 0 = 0 := rfl

/-- A single that is not below zero, or not a number. -/
theorem unsigned_iff : Unsigned .binary32 a.toModel.unpack ↔ a.isNaN = true ∨ 0 ≤ a := by
  have hzero : (0 : Float32).isFinite = true := by decide
  constructor
  · intro h
    by_cases hfinite : a.isFinite = true
    · refine .inr ((le_iff_value hzero hfinite).2 ?_)
      rw [valueOf_zero]
      exact h.value_nonneg
    · change ¬a.toModel.unpack.isFinite = true at hfinite
      rw [le_iff]
      show a.toModel.unpack.isNaN = true ∨ _
      generalize a.toModel.unpack = u at *
      cases h with
      | notANumber => exact .inl rfl
      | infinity => exact .inr ⟨_, rfl, rfl⟩
      | fits fits => exact absurd fits.isFinite hfinite
  · intro h
    by_cases hfinite : a.isFinite = true
    · refine .fits (fits hfinite) ?_
      rcases h with hnan | hle
      · rw [isNaN_of_isFinite hfinite] at hnan
        cases hnan
      · exact (le_iff_value hzero hfinite).1 hle
    · change ¬a.toModel.unpack.isFinite = true at hfinite
      rw [le_iff] at h
      change a.toModel.unpack.isNaN = true ∨ _ at h
      generalize a.toModel.unpack = u at *
      cases u with
      | notANumber => exact .notANumber
      | infinity s =>
        cases s with
        | positive => exact .infinity
        | negative =>
          rcases h with hnan | ⟨order, horder, hle⟩
          · cases hnan
          · cases horder
            cases hle
      | zero => exact absurd rfl hfinite
      | finite => exact absurd rfl hfinite

/-- The operations of single precision round the exact results, for finite operands. -/
theorem yields_add (ha : a.isFinite = true) (hb : b.isFinite = true) :
    Yields .binary32 (valueOf a + valueOf b) (a + b).toModel.unpack :=
  Values.yields_add (by decide) (fits ha) (fits hb)

theorem yields_sub (ha : a.isFinite = true) (hb : b.isFinite = true) :
    Yields .binary32 (valueOf a - valueOf b) (a - b).toModel.unpack :=
  Values.yields_sub (by decide) (fits ha) (fits hb)

theorem yields_mul (ha : a.isFinite = true) (hb : b.isFinite = true) :
    Yields .binary32 (valueOf a * valueOf b) (a * b).toModel.unpack :=
  Values.yields_mul (by decide) (fits ha) (fits hb)

theorem yields_div (ha : a.isFinite = true) (hb : b.isFinite = true) (hne : valueOf b ≠ 0) :
    Yields .binary32 (valueOf a / valueOf b) (a / b).toModel.unpack :=
  Values.yields_div (by decide) (fits ha) (fits hb) hne

theorem unsigned_mul (ha : Unsigned .binary32 a.toModel.unpack)
    (hb : Unsigned .binary32 b.toModel.unpack) : Unsigned .binary32 (a * b).toModel.unpack :=
  ha.mul (by decide) hb

theorem unsigned_mul_self (a : Float32) : Unsigned .binary32 (a * a).toModel.unpack :=
  @Unsigned.mul_self .binary32 a.toModel.unpack (by decide) fits

end Singles

end Denoise
