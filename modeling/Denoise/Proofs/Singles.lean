import Denoise.Arithmetic
import Denoise.Proofs.Bits

/-!
# The order of singles

Two singles that are numbers compare, and in one way only (`not_le_iff_lt`).  With
a single that is not a number, neither of the two relations holds.
-/

namespace Denoise

namespace Singles

open Float.Model

/-- Comparing the other way round gives the opposite. -/
theorem compare_swap (a b : UnpackedFloat) : b.compare a = (a.compare b).map Ordering.swap := by
  cases a with
  | notANumber => cases b <;> rfl
  | infinity s =>
    cases b with
    | notANumber => rfl
    | infinity t => cases s <;> cases t <;> rfl
    | zero t => cases s <;> rfl
    | finite t => cases s <;> rfl
  | zero s =>
    cases b with
    | notANumber => rfl
    | infinity t => cases t <;> rfl
    | zero t => rfl
    | finite t => cases t <;> rfl
  | finite s m e =>
    cases b with
    | notANumber => cases s <;> rfl
    | infinity t => cases s <;> cases t <;> rfl
    | zero t => cases s <;> rfl
    | finite t n f =>
      have hswap : (compare f e).then (compare n m) = ((compare e f).then (compare m n)).swap := by
        rw [Ordering.swap_then, Int.compare_swap, Nat.compare_swap]
      cases s with
      | positive =>
        cases t with
        | positive => exact congrArg some hswap
        | negative => rfl
      | negative =>
        cases t with
        | positive => rfl
        | negative => exact congrArg (fun order => some order.swap) hswap

/-- Numbers compare. -/
theorem compare_eq_some {a b : UnpackedFloat} (ha : a.isNaN = false) (hb : b.isNaN = false) :
    ∃ order, a.compare b = some order := by
  cases a with
  | notANumber => cases ha
  | infinity s =>
    cases b with
    | notANumber => cases hb
    | infinity => exact ⟨_, rfl⟩
    | zero => cases s <;> exact ⟨_, rfl⟩
    | finite => cases s <;> exact ⟨_, rfl⟩
  | zero =>
    cases b with
    | notANumber => cases hb
    | infinity t => cases t <;> exact ⟨_, rfl⟩
    | zero => exact ⟨_, rfl⟩
    | finite t => cases t <;> exact ⟨_, rfl⟩
  | finite s =>
    cases b with
    | notANumber => cases hb
    | infinity t => cases s <;> cases t <;> exact ⟨_, rfl⟩
    | zero => cases s <;> exact ⟨_, rfl⟩
    | finite t => cases s <;> cases t <;> exact ⟨_, rfl⟩

theorem le_iff (a b : Float32) :
    a ≤ b ↔ ∃ order, a.toModel.unpack.compare b.toModel.unpack = some order ∧ order.isLE = true := by
  show Float32.le a b = true ↔ _
  rw [Float32.le, decide_eq_true_iff]
  show UnpackedFloat.le _ _ = true ↔ _
  rw [UnpackedFloat.le, Option.any_eq_true]

theorem lt_iff (a b : Float32) :
    a < b ↔ a.toModel.unpack.compare b.toModel.unpack = some .lt := by
  show Float32.lt a b = true ↔ _
  rw [Float32.lt, decide_eq_true_iff]
  show UnpackedFloat.lt _ _ = true ↔ _
  rw [UnpackedFloat.lt, beq_iff_eq]

/-- Numbers are ordered totally. -/
theorem not_le_iff_lt {a b : Float32} (ha : a.isNaN = false) (hb : b.isNaN = false) :
    ¬a ≤ b ↔ b < a := by
  obtain ⟨order, horder⟩ := compare_eq_some ha hb
  rw [lt_iff, compare_swap a.toModel.unpack, le_iff, horder]
  cases order <;> simp

/-- A finite single is a number. -/
theorem isNaN_of_isFinite {a : Float32} (h : a.isFinite = true) : a.isNaN = false := by
  have hfinite : a.toModel.unpack.isFinite = true := h
  show a.toModel.unpack.isNaN = false
  generalize a.toModel.unpack = u at *
  cases u with
  | notANumber => cases hfinite
  | infinity => rfl
  | zero => rfl
  | finite => rfl

/-! ## The line they lie on -/

/-- Where a number lies among all others: by its sign, and by exponent and significand. -/
def place : UnpackedFloat → ℤ ×ₗ ℤ ×ₗ ℤ
  | .notANumber => toLex (3, toLex (0, 0))
  | .infinity .positive => toLex (2, toLex (0, 0))
  | .finite .positive m e _ => toLex (1, toLex (e, (m : ℤ)))
  | .zero _ => toLex (0, toLex (0, 0))
  | .finite .negative m e _ => toLex (-1, toLex (-e, -(m : ℤ)))
  | .infinity .negative => toLex (-2, toLex (0, 0))

theorem compare_cast (m n : Nat) : compare (m : ℤ) (n : ℤ) = compare m n := by
  rcases lt_trichotomy m n with h | rfl | h
  · rw [compare_lt_iff_lt.2 h, compare_lt_iff_lt.2 (Int.ofNat_lt.2 h)]
  · rw [compare_eq_iff_eq.2 rfl, compare_eq_iff_eq.2 rfl]
  · rw [compare_gt_iff_gt.2 h, compare_gt_iff_gt.2 (Int.ofNat_lt.2 h)]

theorem compare_neg (a b : ℤ) : compare (-a) (-b) = (compare a b).swap := by
  rcases lt_trichotomy a b with h | rfl | h
  · rw [compare_lt_iff_lt.2 h, compare_gt_iff_gt.2 (Int.neg_lt_neg h)]
    rfl
  · rw [compare_eq_iff_eq.2 rfl, compare_eq_iff_eq.2 rfl]
    rfl
  · rw [compare_gt_iff_gt.2 h, compare_lt_iff_lt.2 (Int.neg_lt_neg h)]
    rfl

/-- Numbers are compared as their places are. -/
theorem compare_eq {a b : UnpackedFloat} (ha : a.isNaN = false) (hb : b.isNaN = false) :
    a.compare b = some (compare (place a) (place b)) := by
  cases a with
  | notANumber => cases ha
  | infinity s =>
    cases b with
    | notANumber => cases hb
    | infinity t => cases s <;> cases t <;> rfl
    | zero t => cases s <;> rfl
    | finite t => cases s <;> cases t <;> rfl
  | zero s =>
    cases b with
    | notANumber => cases hb
    | infinity t => cases t <;> rfl
    | zero t => rfl
    | finite t => cases t <;> rfl
  | finite s m e =>
    cases b with
    | notANumber => cases hb
    | infinity t => cases s <;> cases t <;> rfl
    | zero t => cases s <;> rfl
    | finite t n f =>
      have hpositive : (compare e f).then (compare m n) = (compare e f).then (compare (m : ℤ) n) := by
        rw [compare_cast]
      have hnegative : ((compare e f).then (compare m n)).swap
          = (compare (-e) (-f)).then (compare (-(m : ℤ)) (-n)) := by
        rw [compare_neg, compare_neg, compare_cast, Ordering.swap_then]
      cases s with
      | positive =>
        cases t with
        | positive => exact congrArg some hpositive
        | negative => rfl
      | negative =>
        cases t with
        | positive => rfl
        | negative => exact congrArg some hnegative

/-- The place of a single. -/
def placeOf (a : Float32) : ℤ ×ₗ ℤ ×ₗ ℤ := place a.toModel.unpack

variable {a b c : Float32}

theorem lt_iff_place (ha : a.isNaN = false) (hb : b.isNaN = false) :
    a < b ↔ placeOf a < placeOf b := by
  rw [lt_iff, compare_eq ha hb, Option.some_inj, compare_lt_iff_lt]
  rfl

/-- The order of numbers is that of their places. -/
theorem le_iff_place (ha : a.isNaN = false) (hb : b.isNaN = false) :
    a ≤ b ↔ placeOf a ≤ placeOf b := by
  rw [le_iff, compare_eq ha hb]
  constructor
  · rintro ⟨order, horder, hle⟩
    cases horder
    exact compare_le_iff_le.1 (Ordering.isLE_iff_ne_gt.1 hle)
  · intro hle
    exact ⟨_, rfl, Ordering.isLE_iff_ne_gt.2 (compare_le_iff_le.2 hle)⟩

theorem le_refl (ha : a.isNaN = false) : a ≤ a := (le_iff_place ha ha).2 le_rfl

/-- On numbers the order is transitive. -/
theorem le_trans (ha : a.isNaN = false) (hb : b.isNaN = false) (hc : c.isNaN = false)
    (hab : a ≤ b) (hbc : b ≤ c) : a ≤ c :=
  (le_iff_place ha hc).2
    (((le_iff_place ha hb).1 hab).trans ((le_iff_place hb hc).1 hbc))

theorem le_of_lt (ha : a.isNaN = false) (hb : b.isNaN = false) (h : a < b) : a ≤ b :=
  (le_iff_place ha hb).2 ((lt_iff_place ha hb).1 h).le

theorem le_of_not_lt (ha : a.isNaN = false) (hb : b.isNaN = false) (h : ¬a < b) : b ≤ a :=
  (le_iff_place hb ha).2 (not_lt.1 (mt (lt_iff_place ha hb).2 h))

/-- A place other than that of zero is that of one number. -/
theorem eq_of_place_eq {u : UnpackedFloat} {s : UnpackedFloat.Sign} {m : Nat} {e : Int}
    {pos : 0 < m} (h : place u = place (.finite s m e pos)) : u = .finite s m e pos := by
  cases u with
  | notANumber => cases s <;> cases h
  | infinity t => cases s <;> cases t <;> cases h
  | zero t => cases s <;> cases h
  | finite t n f =>
    cases s with
    | positive =>
      cases t with
      | positive =>
        simp only [place, EmbeddingLike.apply_eq_iff_eq, Prod.mk.injEq, Int.natCast_inj, true_and] at h
        obtain ⟨rfl, rfl⟩ := h
        rfl
      | negative => cases h
    | negative =>
      cases t with
      | positive => cases h
      | negative =>
        simp only [place, EmbeddingLike.apply_eq_iff_eq, Prod.mk.injEq, Int.neg_inj, Int.natCast_inj,
          true_and] at h
        obtain ⟨rfl, rfl⟩ := h
        rfl

theorem unpack_greatestSingle :
    greatestSingle.toModel.unpack = .finite .positive (2 ^ 24 - 1) 104 (by decide) := rfl

/-- A finite single has a significand of 24 digits, and an exponent between those of the
least and the greatest. -/
theorem finite_bounds {s : UnpackedFloat.Sign} {m : Nat} {e : Int} {pos : 0 < m}
    (h : a.toModel.unpack = .finite s m e pos) :
    m < 2 ^ 24 ∧ (2 ^ 23 ≤ m ∨ e = -149) ∧ -149 ≤ e ∧ e ≤ 104 := by
  have hkind := @Bits.unpacks .binary32 a.toModel.toBits.toBitVec
  change Bits.Unpacks _ a.toModel.unpack at hkind
  rw [h] at hkind
  obtain ⟨hm, hdigits, hlow, hhigh⟩ := hkind.bounds (by decide)
  exact ⟨hm, hdigits, hlow, Int.le_of_add_le_add_right hhigh⟩

/-- No finite single is above the greatest one. -/
theorem le_greatestSingle (ha : a.isFinite = true) : a ≤ greatestSingle := by
  rw [le_iff_place (isNaN_of_isFinite ha) (by decide), placeOf, placeOf, unpack_greatestSingle]
  have hfinite : a.toModel.unpack.isFinite = true := ha
  cases hu : a.toModel.unpack with
  | notANumber => rw [hu] at hfinite; cases hfinite
  | infinity => rw [hu] at hfinite; cases hfinite
  | zero s =>
    refine Prod.Lex.toLex_le_toLex.2 (.inl ?_)
    show (0 : ℤ) < 1
    decide
  | finite s m e =>
    cases s with
    | negative =>
      refine Prod.Lex.toLex_le_toLex.2 (.inl ?_)
      show (-1 : ℤ) < 1
      decide
    | positive =>
      obtain ⟨hm, -, -, he⟩ := finite_bounds hu
      refine Prod.Lex.toLex_le_toLex.2 (.inr ⟨rfl, Prod.Lex.toLex_le_toLex'.2 ⟨he, fun _ => ?_⟩⟩)
      show (m : ℤ) ≤ _
      omega

/-- A finite single that is not below the greatest is the greatest. -/
theorem eq_greatestSingle (ha : a.isFinite = true) (h : greatestSingle ≤ a) : a = greatestSingle := by
  have hle := le_greatestSingle ha
  have hnumber := isNaN_of_isFinite ha
  have hgreatest : greatestSingle.isNaN = false := by decide
  refine Bits.eq_of_unpack_eq ?_
  rw [unpack_greatestSingle]
  refine eq_of_place_eq ?_
  rw [← unpack_greatestSingle]
  exact ((le_iff_place hnumber hgreatest).1 hle).antisymm ((le_iff_place hgreatest hnumber).1 h)

theorem unpack_leastSingle :
    leastSingle.toModel.unpack = .finite .negative (2 ^ 24 - 1) 104 (by decide) := rfl

/-- No finite single is below the least one. -/
theorem leastSingle_le (ha : a.isFinite = true) : leastSingle ≤ a := by
  rw [le_iff_place (by decide) (isNaN_of_isFinite ha), placeOf, placeOf, unpack_leastSingle]
  have hfinite : a.toModel.unpack.isFinite = true := ha
  cases hu : a.toModel.unpack with
  | notANumber => rw [hu] at hfinite; cases hfinite
  | infinity => rw [hu] at hfinite; cases hfinite
  | zero s =>
    refine Prod.Lex.toLex_le_toLex.2 (.inl ?_)
    show (-1 : ℤ) < 0
    decide
  | finite s m e =>
    cases s with
    | positive =>
      refine Prod.Lex.toLex_le_toLex.2 (.inl ?_)
      show (-1 : ℤ) < 1
      decide
    | negative =>
      obtain ⟨hm, -, -, he⟩ := finite_bounds hu
      refine Prod.Lex.toLex_le_toLex.2
        (.inr ⟨rfl, Prod.Lex.toLex_le_toLex'.2 ⟨neg_le_neg he, fun _ => ?_⟩⟩)
      show _ ≤ -(m : ℤ)
      omega

/-- A finite single that is not above the least is the least. -/
theorem eq_leastSingle (ha : a.isFinite = true) (h : a ≤ leastSingle) : a = leastSingle := by
  have hle := leastSingle_le ha
  have hnumber := isNaN_of_isFinite ha
  have hleast : leastSingle.isNaN = false := by decide
  refine Bits.eq_of_unpack_eq ?_
  rw [unpack_leastSingle]
  refine eq_of_place_eq ?_
  rw [← unpack_leastSingle]
  exact ((le_iff_place hnumber hleast).1 h).antisymm ((le_iff_place hleast hnumber).1 hle)

/-- Only what is not a number differs from itself. -/
theorem beq_self_eq_not_isNaN (a : Float32) : (a == a) = !a.isNaN := by
  rw [Bool.eq_iff_iff, Float32.beq_self_iff, Float32.isNaN_eq_decide_eq_nan, Bool.not_eq_true',
    decide_eq_false_iff_not]

/-- A single between zero and one is finite. -/
theorem isFinite_of_unit {a : Float32} (hlow : 0 ≤ a) (hhigh : a < 1) : a.isFinite = true := by
  obtain ⟨order, hlow, hle⟩ := (le_iff 0 a).1 hlow
  rw [lt_iff] at hhigh
  show a.toModel.unpack.isFinite = true
  cases hu : a.toModel.unpack with
  | notANumber =>
    rw [hu] at hlow
    cases hlow
  | infinity sign =>
    rw [hu] at hlow hhigh
    cases sign with
    | positive => cases hhigh
    | negative =>
      cases hlow
      cases hle
  | zero => rfl
  | finite => rfl

end Singles

/-! ## Valid settings -/

namespace Settings

variable {s : Settings}

/-- A rule is kept if what it forbids is not the case. -/
theorem rule_eq_none_iff {broken : Prop} [Decidable broken] {rule : Violation}
    {later : Option Violation} : (if broken then some rule else later) = none ↔ ¬broken ∧ later = none := by
  split
  next h => exact ⟨fun hsome => absurd hsome (Option.some_ne_none _), fun hkept => absurd h hkept.1⟩
  next h => exact ⟨fun hlater => ⟨h, hlater⟩, fun hkept => hkept.2⟩

/-- The rules that settings are checked for, one by one.  A bound that is asked of a
number that is not one fails with it. -/
theorem valid_iff : s.Valid ↔ s.noiseFrames ≠ 0 ∧ s.activityWindow ≠ 0
    ∧ (s.audioHistoryFrames ≠ 0 ∧ s.widebandHistoryFrames ≠ 0)
    ∧ (s.widebandThresholdHz.isFinite = true ∧ ¬s.widebandThresholdHz ≤ 0)
    ∧ (s.outputGain.isFinite = true ∧ ¬s.outputGain < 0)
    ∧ s.silenceThresholdDb.isFinite = true
    ∧ 0 ≤ s.vadSmoothing ∧ s.vadSmoothing < 1 := by
  simp [Valid, violation?, rule_eq_none_iff]

/-- The threshold of valid settings is finite. -/
theorem Valid.silenceThresholdDb (valid : s.Valid) : s.silenceThresholdDb.isFinite = true :=
  (valid_iff.1 valid).2.2.2.2.2.1

end Settings

end Denoise
