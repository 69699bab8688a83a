import Denoise.Proofs.Spreads

/-!
# Statistics that stay in range

The magnitudes of a frame are finite and not below zero, so each of them is at most the
greatest single.  A double holds the multiples of that by a count up to `2 ^ 29`, and so a sum
of no more magnitudes stays below such a multiple, rounded or not (`Summed.add`).  Mean and
deviation are then in the range of the singles (`isFinite_spreadOf`).
-/

namespace Denoise

/-! ## Bounded doubles -/

namespace Doubles

open Float.Model UnpackedFloat Rounding Values

variable {a b : Float} {x y z : ℚ}

/-- A mean of as many numbers as a significand can count. -/
theorem mean_within {n : ℕ} (hn : 0 < n) (hsmall : n ≤ 2 ^ 53)
    (ha : Within .binary64 (n * x) (n * y) a.toModel.unpack) (hx : Exact .binary64 x)
    (hy : Exact .binary64 y) : Within .binary64 x y (a / Denoise.ofCount n).toModel.unpack := by
  obtain ⟨hfits, hcount⟩ := (yields_ofCount hn).exact (.natCast hsmall (by decide) (by decide))
  have hn' : (0 : ℚ) < n := by exact_mod_cast hn
  refine (yields_div ha.fits hfits (by rw [hcount]; exact hn'.ne')).within hx hy ?_ ?_
  · rw [hcount, le_div_iff₀ hn', mul_comm]
    exact ha.low
  · rw [hcount, div_le_iff₀ hn', mul_comm]
    exact ha.high

/-- A double between bounds that the singles have room for. -/
theorem isFinite_narrow {v w : ℚ} (ha : Within .binary64 x y a.toModel.unpack)
    (hx : Rounds .binary32 x v) (hy : Rounds .binary32 y w) (hv : -2 ^ limit .binary32 < v)
    (hw : w < 2 ^ limit .binary32) : (Denoise.narrow a).isFinite = true :=
  ((Narrowing.yields_narrow ha.fits).between hx hy hv hw ha.low ha.high).fits.isFinite

/-- A double between zero and a bound. -/
abbrev UpTo (x : ℚ) (a : Float) : Prop := Within .binary64 0 x a.toModel.unpack

theorem UpTo.zero (hx : 0 ≤ x) : UpTo x 0 := ⟨trivial, le_rfl, hx⟩

/-- The bounds of two doubles add up, if the format has their sum. -/
theorem UpTo.add (ha : UpTo x a) (hb : UpTo y b) (hxy : Exact .binary64 (x + y)) :
    UpTo (x + y) (a + b) :=
  (yields_add ha.fits hb.fits).within (.zero _) hxy (add_nonneg ha.low hb.low)
    (add_le_add ha.high hb.high)

/-- They multiply, up to a bound that the format has. -/
theorem UpTo.mul (ha : UpTo x a) (hb : UpTo y b) (hz : Exact .binary64 z) (h : x * y ≤ z) :
    UpTo z (a * b) :=
  (yields_mul ha.fits hb.fits).within (.zero _) hz (mul_nonneg ha.low hb.low)
    ((mul_le_mul ha.high hb.high hb.low (ha.low.trans ha.high)).trans h)

/-- A sum of as many is divided by their count. -/
theorem UpTo.mean {n : ℕ} (hn : 0 < n) (hsmall : n ≤ 2 ^ 53) (ha : UpTo (n * x) a)
    (hx : Exact .binary64 x) : UpTo x (a / Denoise.ofCount n) :=
  mean_within hn hsmall (by rwa [mul_zero]) (.zero _) hx

/-- What is left of a double, zero if that is negative. -/
theorem UpTo.rest (ha : UpTo x a) (hb : UpTo y b) (hx : Exact .binary64 x)
    (hy : Exact .binary64 y) : UpTo x (greater (a - b) 0) := by
  have hrest : Within .binary64 (-y) x (a - b).toModel.unpack :=
    (Values.yields_sub (by decide) ha.fits hb.fits).within hy.neg hx
      (by linarith only [ha.low, hb.high]) (by linarith only [ha.high, hb.low])
  have hnonneg := nonneg_greater_zero (a - b)
  rw [greater] at hnonneg ⊢
  split
  next => exact .zero (ha.low.trans ha.high)
  next h =>
    rw [if_neg h] at hnonneg
    rcases hnonneg.cases with hinfinite | ⟨hfits, hlow⟩
    · have hfits := hrest.fits
      rw [hinfinite] at hfits
      exact hfits.elim
    · exact ⟨hfits, hlow, hrest.high⟩

theorem UpTo.sqrt (ha : UpTo x a) (hz : Exact .binary64 z) (hnonneg : 0 ≤ z) (h : x ≤ z * z) :
    UpTo z a.sqrt := by
  obtain ⟨root, hlow, hhigh, hyields⟩ :=
    exists_root (by decide) ha.fits ha.low hnonneg (ha.high.trans h)
  exact hyields.within (.zero _) hz hlow hhigh

/-- A double below the range of single precision stays finite there. -/
theorem UpTo.narrow {w : ℚ} (ha : UpTo x a) (hx : Rounds .binary32 x w)
    (hw : w < 2 ^ limit .binary32) : (Denoise.narrow a).isFinite = true :=
  isFinite_narrow ha (.zero _) hx (neg_neg_of_pos (by positivity)) hw

end Doubles

/-! ## Sums of magnitudes -/

namespace ProfileRules

open Float.Model UnpackedFloat Rounding Values Doubles

/-- The value of the greatest single. -/
def greatest : ℚ := (2 ^ 24 - 1 : ℕ) * 2 ^ (104 : ℤ)

theorem greatest_lt_limit : greatest < 2 ^ limit .binary32 := by
  show greatest < 2 ^ (128 : ℤ)
  norm_num [greatest]

/-- What is less than half a unit of the last digit above the greatest single is rounded to it. -/
theorem rounds_to_greatest {x : ℚ} (hx : greatest ≤ x) (hlt : x < 2 ^ 128 - 2 ^ 103) :
    Rounds .binary32 x greatest := by
  have hunit : (0 : ℚ) < 2 ^ (104 : ℤ) := by positivity
  have hlow : ((2 ^ 24 - 1 : ℕ) : ℚ) ≤ x / 2 ^ (104 : ℤ) := (le_div_iff₀ hunit).2 hx
  have hhigh : x / 2 ^ (104 : ℤ) < (2 ^ 24 - 1 : ℕ) + 1 / 2 := by
    rw [div_lt_iff₀ hunit]
    norm_num
    linarith only [hlt]
  have hgreatest : (2 : ℚ) ^ 127 ≤ greatest := by norm_num [greatest]
  have hplace : LastPlace .binary32 x 104 := by
    refine ⟨by decide, ?_, .inl ?_⟩
    · show _ < (2 : ℚ) ^ ((104 : ℤ) + (24 : ℕ))
      norm_num
      linarith only [hlt]
    · exact hgreatest.trans hx
  refine .of_nonneg (by linarith only [hgreatest, hx])
    ⟨104, 2 ^ 24 - 1, hplace, ⟨by linarith only [hlow], hhigh.le, ?_⟩, rfl⟩
  rintro (h | h) <;> linarith only [h, hlow, hhigh]

/-- A bound of the square of a single that a significand needs no more digits for. -/
def greatestSquare : ℚ := (2 ^ 24 - 1 : ℕ) * 2 ^ (232 : ℤ)

theorem valueOf_greatestSingle : Singles.valueOf greatestSingle = greatest := rfl

/-- A double holds a bound, times a small count. -/
theorem exact_multiple {k : ℕ} {t : ℤ} (hk : k ≤ 2 ^ 29) (hleast : -1074 ≤ t)
    (hgreatest : t + 53 < 1024) : Exact .binary64 (k * ((2 ^ 24 - 1 : ℕ) * 2 ^ t)) := by
  rw [← mul_assoc, ← Nat.cast_mul]
  refine .multiple ?_ hleast hgreatest
  calc k * (2 ^ 24 - 1) ≤ 2 ^ 29 * (2 ^ 24 - 1) := Nat.mul_le_mul_right _ hk
    _ ≤ 2 ^ 53 := by decide

theorem exact_greatest : Exact .binary64 greatest := .multiple (by decide) (by decide) (by decide)

theorem exact_greatestSquare : Exact .binary64 greatestSquare :=
  .multiple (by decide) (by decide) (by decide)

/-- A magnitude of a frame as it should be: finite and not below zero. -/
def Magnitude (x : Float32) : Prop := x.isFinite = true ∧ 0 ≤ x

/-- A magnitude is no greater than the greatest single. -/
theorem Magnitude.widen {x : Float32} (hx : Magnitude x) : UpTo greatest (Denoise.widen x) := by
  obtain ⟨hfinite, hnonneg⟩ := hx
  refine (Widening.yields_widen hfinite).within (.zero _) exact_greatest ?_ ?_
  · rw [← Singles.valueOf_zero]
    exact (Singles.le_iff_value (by decide) hfinite).1 hnonneg
  · rw [← valueOf_greatestSingle]
    exact (Singles.le_iff_value hfinite (by decide)).1 (Singles.le_greatestSingle hfinite)

/-- The sums over `k` magnitudes. -/
structure Summed (k : ℕ) (m : Moments) : Prop where
  sum : UpTo (k * greatest) m.sum
  squares : UpTo (k * greatestSquare) m.squares

namespace Summed

variable {k : ℕ} {m : Moments} {x : Float32} {xs : List Float32}

theorem zero : Summed 0 ⟨0, 0⟩ where
  sum := .zero (by simp)
  squares := .zero (by simp)

/-- One magnitude more adds no more than the greatest, and its square. -/
theorem add (h : Summed k m) (hk : k < 2 ^ 29) (hx : Magnitude x) : Summed (k + 1) (m.add x) := by
  have hsquare : UpTo greatestSquare (Denoise.widen x * Denoise.widen x) :=
    hx.widen.mul hx.widen exact_greatestSquare (by norm_num [greatest, greatestSquare])
  have hnext (bound : ℚ) : (k : ℚ) * bound + bound = (k + 1 : ℕ) * bound := by
    push_cast
    ring
  constructor
  · have hsum := h.sum.add hx.widen
    rw [hnext] at hsum
    exact hsum (exact_multiple hk (by decide) (by decide))
  · have hsum := h.squares.add hsquare
    rw [hnext] at hsum
    exact hsum (exact_multiple hk (by decide) (by decide))

/-- So the sums over a history are bounded by its length. -/
theorem foldl (h : Summed k m) (hk : k + xs.length ≤ 2 ^ 29) (hxs : ∀ x ∈ xs, Magnitude x) :
    Summed (k + xs.length) (xs.foldl Moments.add m) := by
  induction xs generalizing k m with
  | nil => exact h
  | cons x xs ih =>
    obtain ⟨hx, hxs⟩ := List.forall_mem_cons.1 hxs
    rw [List.length_cons] at hk ⊢
    rw [(by omega : k + (xs.length + 1) = k + 1 + xs.length)]
    exact ih (h.add (by omega) hx) (by omega) hxs

end Summed

/-! ## Mean and deviation -/

/-- A bound of the root that a double has, and that a single rounds to the greatest one. -/
def greatestRoot : ℚ := (2 ^ 52 - 2 ^ 27 - 1 : ℕ) * 2 ^ (76 : ℤ)

theorem rounds_greatestRoot : Rounds .binary32 greatestRoot greatest :=
  rounds_to_greatest (by norm_num [greatest, greatestRoot]) (by norm_num [greatestRoot])

/-- Up to 2 ^ 29 frames, the mean and the deviation are finite. -/
theorem Summed.spread {k : ℕ} {m : Moments} (h : Summed k m) (hpos : 0 < k) (hk : k ≤ 2 ^ 29) :
    (m.spread k).mean.isFinite = true ∧ (m.spread k).deviation.isFinite = true := by
  have hsmall : k ≤ 2 ^ 53 := hk.trans (by decide)
  have hmean : UpTo greatest (m.sum / ofCount k) := h.sum.mean hpos hsmall exact_greatest
  have hsquares : UpTo greatestSquare (m.squares / ofCount k) :=
    h.squares.mean hpos hsmall exact_greatestSquare
  have hproduct := hmean.mul hmean exact_greatestSquare (by norm_num [greatest, greatestSquare])
  have hvariance := hsquares.rest hproduct exact_greatestSquare exact_greatestSquare
  have hroot : UpTo greatestRoot _ := hvariance.sqrt (.multiple (by decide) (by decide) (by decide))
    (by norm_num [greatestRoot]) (by norm_num [greatestRoot, greatestSquare])
  have hgreatest : Rounds .binary32 greatest greatest :=
    rounds_to_greatest le_rfl (by norm_num [greatest])
  exact ⟨hmean.narrow hgreatest greatest_lt_limit,
    hroot.narrow rounds_greatestRoot greatest_lt_limit⟩

/-- The statistics of a history that is not too long are finite. -/
theorem isFinite_spreadOf {xs : List Float32} (hne : xs ≠ []) (hlength : xs.length ≤ 2 ^ 29)
    (hxs : ∀ x ∈ xs, Magnitude x) :
    (spreadOf xs).mean.isFinite = true ∧ (spreadOf xs).deviation.isFinite = true := by
  have hsummed : Summed (0 + xs.length) (xs.foldl Moments.add ⟨0, 0⟩) :=
    Summed.zero.foldl (by rwa [zero_add]) hxs
  rw [zero_add] at hsummed
  exact hsummed.spread (List.length_pos_iff.2 hne) hlength

end ProfileRules

end Denoise
