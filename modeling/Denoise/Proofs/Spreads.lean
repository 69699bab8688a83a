import Denoise.Proofs.Passages
import Denoise.Proofs.Roots
import Denoise.Proofs.Wideband

/-!
# Mean and deviation of a bin

The variance is a difference, so rounding may leave it below zero, and an entry that is not
finite leaves it undefined.  Either way zero takes its place.  A deviation is therefore a
number and not below zero, whatever the entries are (`deviation_nonneg`), and that of a bin
with an entry that is not finite is zero, while its mean is not finite (`spreadOf_broken`).
-/

namespace Denoise

namespace Values

open Float.Model UnpackedFloat Rounding

variable {spec : Format} {u w : UnpackedFloat}

/-! ## What is not finite -/

/-- What is not finite is stored as it is. -/
theorem stored_of_not_finite (h : u.isFinite = false) : stored spec u = u := by
  cases u with
  | notANumber => exact stored_notANumber
  | infinity s => exact stored_infinity s
  | zero => cases h
  | finite => cases h

/-- A sum is finite only if both operands are. -/
theorem isFinite_of_add (h : (stored spec (UnpackedFloat.add spec u w)).isFinite = true) :
    u.isFinite = true ∧ w.isFinite = true := by
  by_contra hinfinite
  have hsum : (UnpackedFloat.add spec u w).isFinite = false := by
    cases u with
    | notANumber => rfl
    | infinity s =>
      cases w with
      | notANumber => rfl
      | infinity t => cases s <;> cases t <;> rfl
      | zero => rfl
      | finite => rfl
    | zero =>
      cases w with
      | notANumber => rfl
      | infinity => rfl
      | zero => exact absurd ⟨rfl, rfl⟩ hinfinite
      | finite => exact absurd ⟨rfl, rfl⟩ hinfinite
    | finite =>
      cases w with
      | notANumber => rfl
      | infinity => rfl
      | zero => exact absurd ⟨rfl, rfl⟩ hinfinite
      | finite => exact absurd ⟨rfl, rfl⟩ hinfinite
  rw [stored_of_not_finite hsum, hsum] at h
  cases h

theorem isFinite_of_div (h : (stored spec (UnpackedFloat.div spec u w)).isFinite = true) :
    u.isFinite = true := by
  by_contra hinfinite
  have hquotient : (UnpackedFloat.div spec u w).isFinite = false := by
    cases u with
    | notANumber => rfl
    | infinity => cases w <;> rfl
    | zero => exact absurd rfl hinfinite
    | finite => exact absurd rfl hinfinite
  rw [stored_of_not_finite hquotient, hquotient] at h
  cases h

/-- What is left after the square of something that is not finite is taken away has no value
above zero. -/
theorem sub_mul_self_of_not_finite (h : w.isFinite = false) :
    stored spec (UnpackedFloat.sub spec u (stored spec (UnpackedFloat.mul spec w w))) = .notANumber
      ∨ stored spec (UnpackedFloat.sub spec u (stored spec (UnpackedFloat.mul spec w w)))
        = .infinity .negative := by
  cases w with
  | notANumber =>
    have hsquare : UnpackedFloat.mul spec .notANumber .notANumber = .notANumber := rfl
    rw [hsquare, stored_notANumber]
    cases u <;> exact .inl stored_notANumber
  | infinity s =>
    have hsquare : UnpackedFloat.mul spec (.infinity s) (.infinity s) = .infinity .positive := by
      cases s <;> rfl
    rw [hsquare, stored_infinity]
    cases u with
    | notANumber => exact .inl stored_notANumber
    | infinity t =>
      cases t with
      | positive => exact .inl stored_notANumber
      | negative => exact .inr (stored_infinity _)
    | zero => exact .inr (stored_infinity _)
    | finite => exact .inr (stored_infinity _)
  | zero => cases h
  | finite => cases h

end Values

/-! ## Doubles that are not below zero -/

namespace Doubles

open Float.Model UnpackedFloat Rounding Values

variable {a b : Float}

/-- A double that is a number and not below zero. -/
structure Nonneg (a : Float) : Prop where
  number : a.isNaN = false
  unsigned : Unsigned .binary64 a.toModel.unpack

theorem lt_iff (a b : Float) :
    a < b ↔ a.toModel.unpack.compare b.toModel.unpack = some .lt := by
  show Float.lt a b = true ↔ _
  rw [Float.lt, decide_eq_true_iff]
  show UnpackedFloat.lt _ _ = true ↔ _
  rw [UnpackedFloat.lt, beq_iff_eq]

/-- What equals itself is a number. -/
theorem isNaN_of_beq_self (h : (a == a) = true) : a.isNaN = false := by
  change (a.toModel.unpack.compare a.toModel.unpack == some .eq) = true at h
  show a.toModel.unpack.isNaN = false
  cases hu : a.toModel.unpack with
  | notANumber =>
    rw [hu] at h
    cases h
  | infinity => rfl
  | zero => rfl
  | finite => rfl

/-- What is not above zero gives way to it. -/
theorem greater_zero_of_not_above
    (h : a.toModel.unpack = .notANumber ∨ a.toModel.unpack = .infinity .negative) :
    greater a 0 = 0 := by
  rw [greater, if_pos]
  rcases h with h | h
  · right
    show (a.toModel.unpack.compare a.toModel.unpack == some .eq) = false
    rw [h]
    rfl
  · left
    rw [lt_iff, h]
    rfl

theorem nonneg_zero : Nonneg 0 := ⟨rfl, .fits trivial le_rfl⟩

/-- The greater of anything and zero is not below zero, also where the other is no
number. -/
theorem nonneg_greater_zero (a : Float) : Nonneg (greater a 0) := by
  rw [greater]
  split
  next => exact nonneg_zero
  next h =>
    rw [not_or, Bool.not_eq_false, lt_iff] at h
    obtain ⟨habove, hself⟩ := h
    have hnumber := isNaN_of_beq_self hself
    refine ⟨hnumber, ?_⟩
    change a.toModel.unpack.isNaN = false at hnumber
    change a.toModel.unpack.compare (.zero .positive) ≠ _ at habove
    have hfits : a.toModel.unpack.isFinite = true → Fits .binary64 a.toModel.unpack := fits
    generalize a.toModel.unpack = u at *
    cases u with
    | notANumber => cases hnumber
    | infinity s =>
      cases s with
      | positive => exact .infinity
      | negative => exact absurd rfl habove
    | zero => exact .fits trivial le_rfl
    | finite s =>
      cases s with
      | positive => exact .fits (hfits rfl) value_pos.le
      | negative => exact absurd rfl habove

namespace Nonneg

/-- A double that is not below zero is an infinity, or has a value. -/
theorem cases (h : Nonneg a) : a.toModel.unpack = .infinity .positive
    ∨ Fits .binary64 a.toModel.unpack ∧ 0 ≤ value a.toModel.unpack := by
  obtain ⟨hnumber, hunsigned⟩ := h
  change a.toModel.unpack.isNaN = false at hnumber
  generalize a.toModel.unpack = u at *
  cases hunsigned with
  | notANumber => cases hnumber
  | infinity => exact .inl rfl
  | fits fits nonneg => exact .inr ⟨fits, nonneg⟩

/-- A result that is not below zero stays so when it is stored. -/
theorem of_yields {x : ℚ} (h : Yields .binary64 x a.toModel.unpack) (hx : 0 ≤ x) : Nonneg a :=
  ⟨h.isNaN, h.unsigned hx⟩

theorem sqrt (h : Nonneg a) : Nonneg a.sqrt := by
  rcases h.cases with hinfinite | ⟨hfits, hnonneg⟩
  · have hroot : a.sqrt.toModel.unpack = .infinity .positive := by
      show stored .binary64 (UnpackedFloat.sqrt .binary64 a.toModel.unpack) = _
      rw [hinfinite]
      exact stored_infinity _
    refine ⟨?_, by rw [hroot]; exact .infinity⟩
    show a.sqrt.toModel.unpack.isNaN = false
    rw [hroot]
    rfl
  · have hbound : value a.toModel.unpack
        ≤ (value a.toModel.unpack + 1) * (value a.toModel.unpack + 1) := by
      nlinarith only [hnonneg]
    obtain ⟨x, hx, -, hyields⟩ := exists_root (by decide) hfits hnonneg (by linarith) hbound
    exact of_yields hyields hx

theorem narrow (h : Nonneg a) : 0 ≤ Denoise.narrow a := by
  rcases h.cases with hinfinite | ⟨hfits, hnonneg⟩
  · have hsame : (Denoise.narrow a).toModel.unpack = .infinity .positive := by
      have hextreme : a.isFinite = false := by
        show a.toModel.unpack.isFinite = false
        rw [hinfinite]
        rfl
      rw [Narrowing.unpack_narrow_of_not_finite hextreme, hinfinite]
    rw [Singles.le_iff, hsame]
    exact ⟨_, rfl, rfl⟩
  · have hyields := Narrowing.yields_narrow hfits
    refine (Singles.unsigned_iff.1 (hyields.unsigned hnonneg)).resolve_left ?_
    rw [Bool.not_eq_true]
    exact hyields.isNaN

end Nonneg

end Doubles

/-! ## Bins -/

namespace ProfileRules

open Float.Model UnpackedFloat Values

theorem deviation_nonneg (m : Moments) (count : ℕ) : 0 ≤ (m.spread count).deviation :=
  (Doubles.nonneg_greater_zero _).sqrt.narrow

theorem binOf_nonneg (history : List (List Float32)) (i : ℕ) : 0 ≤ (binOf history i).deviation :=
  deviation_nonneg _ _

/-- A running sum is finite only if every magnitude was. -/
theorem isFinite_of_sum {xs : List Float32} {m : Moments}
    (h : (xs.foldl Moments.add m).sum.isFinite = true) :
    m.sum.isFinite = true ∧ ∀ x ∈ xs, x.isFinite = true := by
  induction xs generalizing m with
  | nil => exact ⟨h, nofun⟩
  | cons x xs ih =>
    obtain ⟨hnext, hxs⟩ := ih h
    obtain ⟨hsum, hx⟩ := @isFinite_of_add .binary64 _ _ hnext
    exact ⟨hsum, List.forall_mem_cons.2 ⟨Widening.isFinite_of_widen hx, hxs⟩⟩

/-- A mean that is not finite makes the deviation zero. -/
theorem spread_broken {m : Moments} {count : ℕ} (h : m.sum.isFinite = false) :
    (m.spread count).mean.isFinite = false ∧ (m.spread count).deviation = 0 := by
  have hmean : (m.sum / ofCount count).isFinite = false := by
    by_contra hfinite
    rw [Bool.not_eq_false] at hfinite
    have hsum : m.sum.isFinite = true := @isFinite_of_div .binary64 _ _ hfinite
    rw [hsum] at h
    cases h
  constructor
  · show (narrow (m.sum / ofCount count)).toModel.unpack.isFinite = false
    rw [Narrowing.unpack_narrow_of_not_finite hmean]
    exact hmean
  · have hvariance : greater (m.squares / ofCount count
        - m.sum / ofCount count * (m.sum / ofCount count)) 0 = 0 :=
      Doubles.greater_zero_of_not_above (@sub_mul_self_of_not_finite .binary64 _ _ hmean)
    have hroot : narrow (0 : Float).sqrt = 0 := by decide +kernel
    simp only [Moments.spread, hvariance, hroot]

/-- An entry that is not finite leaves a bin no mean, and the least deviation. -/
theorem spreadOf_broken {xs : List Float32} (h : ∃ x ∈ xs, x.isFinite = false) :
    (spreadOf xs).mean.isFinite = false ∧ (spreadOf xs).deviation = 0 := by
  refine spread_broken ?_
  by_contra hfinite
  rw [Bool.not_eq_false] at hfinite
  obtain ⟨x, hx, hbroken⟩ := h
  rw [(isFinite_of_sum hfinite).2 x hx] at hbroken
  cases hbroken

end ProfileRules

end Denoise
