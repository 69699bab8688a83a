import Denoise.Proofs.Smoothing
import Denoise.Proofs.Statistics

/-!
# Bins that are not finite in a moving average

A bin that is not finite enters the running sum once, and never leaves it: an infinity less itself
is not a number, and what is not a number stays so (`Slides.isFinite`).  So such a bin spoils the
averages over the windows that hold it and every average after these, although the later windows
do not hold it.

While all bins are finite, each step rounds the sum by a small part of the bins that are in it at
a time, so the sum drifts away from that of the window by no more than these parts together
(`Slides.near`).  Over some millions of bins the drift is too small to make an average overflow
(`average_isFinite`).
-/

namespace Denoise

/-! ## Rounding errors -/

namespace Values

open Float.Model UnpackedFloat Rounding

variable {spec : Format} {u w : UnpackedFloat} {x y bound : ℚ}

/-- What a number is rounded to differs from it by no more than half a unit of the last digit of
any bound, unless the bound is very small. -/
theorem RoundsUnsigned.abs_sub_le (h : RoundsUnsigned spec x y) (hx : x ≤ bound)
    (hbound : 2 ^ (spec.minExponent + spec.mantissaBitsWithoutImplicit) ≤ bound) :
    |y - x| ≤ bound / 2 ^ spec.mantissaBits := by
  obtain ⟨t, n, hplace, hnearest, rfl⟩ := h
  have hunit : (0 : ℚ) < 2 ^ t := by positivity
  have hlast : (2 : ℚ) ^ (t + spec.mantissaBitsWithoutImplicit) ≤ bound := by
    rcases hplace.above with habove | rfl
    · exact habove.trans hx
    · exact hbound
  have hhalf : (1 : ℚ) / 2 * 2 ^ t
      = 2 ^ (t + spec.mantissaBitsWithoutImplicit) / 2 ^ spec.mantissaBits := by
    rw [zpow_add₀ (by norm_num), zpow_natCast, Format.mantissaBits, pow_add, pow_one]
    field_simp
  calc |(n : ℚ) * 2 ^ t - x| = |(n : ℚ) - x / 2 ^ t| * 2 ^ t := by
        rw [← abs_of_pos hunit, ← abs_mul, abs_of_pos hunit, sub_mul, div_mul_cancel₀ _ hunit.ne']
    _ ≤ 1 / 2 * 2 ^ t := mul_le_mul_of_nonneg_right hnearest.abs_sub_le hunit.le
    _ = 2 ^ (t + spec.mantissaBitsWithoutImplicit) / 2 ^ spec.mantissaBits := hhalf
    _ ≤ bound / 2 ^ spec.mantissaBits := div_le_div_of_nonneg_right hlast (by positivity)

theorem Rounds.abs_sub_le (h : Rounds spec x y) (hx : |x| ≤ bound)
    (hbound : 2 ^ (spec.minExponent + spec.mantissaBitsWithoutImplicit) ≤ bound) :
    |y - x| ≤ bound / 2 ^ spec.mantissaBits := by
  obtain ⟨hlow, hhigh⟩ := abs_le.1 hx
  rcases le_total 0 x with hnonneg | hnonpos
  · exact (h.1 hnonneg).abs_sub_le hhigh hbound
  · have hneg := (h.2 hnonpos).abs_sub_le (neg_le.1 hlow) hbound
    rwa [neg_sub_neg, abs_sub_comm] at hneg

/-- Nothing can be taken from what is not finite to make it finite. -/
theorem isFinite_of_sub (h : (stored spec (UnpackedFloat.sub spec u w)).isFinite = true) :
    u.isFinite = true := by
  by_contra hinfinite
  have hrest : (UnpackedFloat.sub spec u w).isFinite = false := by
    cases u with
    | notANumber => rfl
    | infinity s =>
      cases w with
      | notANumber => rfl
      | infinity t => cases s <;> cases t <;> rfl
      | zero => rfl
      | finite => rfl
    | zero => exact absurd rfl hinfinite
    | finite => exact absurd rfl hinfinite
  rw [stored_of_not_finite hrest, hrest] at h
  cases h

end Values

open Float.Model UnpackedFloat Rounding Values
open ProfileRules (greatest)

/-- A double holds every finite single. -/
theorem Widening.value_widen {x : Float32} (hx : x.isFinite = true) :
    Fits .binary64 (widen x).toModel.unpack
      ∧ value (widen x).toModel.unpack = Singles.valueOf x := by
  refine (yields_widen hx).exact ?_
  have hfits := Singles.fits hx
  rw [Singles.valueOf]
  cases hu : x.toModel.unpack with
  | notANumber => rw [hu] at hfits; exact hfits.elim
  | infinity => rw [hu] at hfits; exact hfits.elim
  | zero => exact .zero _
  | finite s m e pos =>
    obtain ⟨hm, -, hleast, hgreatest⟩ := Singles.finite_bounds hu
    have hsize : Exact .binary64 (m * 2 ^ e) := by
      refine .multiple ?_ ?_ ?_
      · exact hm.le.trans (by decide)
      · show (-1074 : ℤ) ≤ e
        omega
      · show e + 53 < 1024
        omega
    cases s with
    | positive => exact hsize
    | negative => exact hsize.neg

namespace Slides

variable {bins : List Float32} {most low high : ℕ} {sum : Float}

/-! ## Sums that are finite -/

/-- A finite sum has been entered by finite bins only. -/
theorem isFinite (h : Slides .float bins most low high sum) (hsum : sum.isFinite = true) :
    ∀ x ∈ bins.take high, x.isFinite = true := by
  induction h with
  | start => exact nofun
  | @enter low high sum x _ hx _ ih =>
    obtain ⟨hbefore, hentered⟩ := @isFinite_of_add .binary64 _ _ hsum
    rw [List.take_add_one, hx, Option.toList_some]
    exact List.forall_mem_append.2 ⟨ih hbefore,
      List.forall_mem_singleton.2 (Widening.isFinite_of_widen hentered)⟩
  | leave _ _ _ ih => exact ih (@isFinite_of_sub .binary64 _ _ hsum)

/-! ## Sums of finite bins -/

/-- The exact sum of the bins `low ≤ j < high`. -/
def exactSum (bins : List Float32) (low high : ℕ) : ℚ :=
  (((bins.take high).drop low).map Singles.valueOf).sum

theorem exactSum_enter {x : Float32} (hle : low ≤ high) (hx : bins[high]? = some x) :
    exactSum bins low (high + 1) = exactSum bins low high + Singles.valueOf x := by
  have hlength : high < bins.length := (List.getElem?_eq_some_iff.1 hx).1
  rw [exactSum, List.take_add_one, hx, Option.toList_some, List.drop_append_of_le_length
    (by rw [List.length_take]; omega), List.map_append, List.sum_append, List.map_singleton,
    List.sum_singleton, exactSum]

theorem exactSum_leave {x : Float32} (hlt : low < high) (hx : bins[low]? = some x) :
    exactSum bins (low + 1) high = exactSum bins low high + -Singles.valueOf x := by
  obtain ⟨hlength, rfl⟩ := List.getElem?_eq_some_iff.1 hx
  have hfirst : low < (bins.take high).length := by
    rw [List.length_take]
    omega
  rw [exactSum, exactSum, List.drop_eq_getElem_cons hfirst, List.map_cons, List.sum_cons,
    List.getElem_take, add_neg_cancel_comm]

theorem abs_valueOf_le {x : Float32} (hx : x.isFinite = true) : |Singles.valueOf x| ≤ greatest := by
  have hleast : Singles.valueOf leastSingle = -greatest := rfl
  rw [abs_le, ← hleast, ← ProfileRules.valueOf_greatestSingle]
  exact ⟨(Singles.le_iff_value (by decide) hx).1 (Singles.leastSingle_le hx),
    (Singles.le_iff_value hx (by decide)).1 (Singles.le_greatestSingle hx)⟩

theorem abs_exactSum_le (hfinite : ∀ x ∈ bins.take high, x.isFinite = true)
    (hroom : high ≤ low + most) : |exactSum bins low high| ≤ most * greatest := by
  have hsum : ∀ xs : List Float32, (∀ x ∈ xs, x.isFinite = true) →
      |(xs.map Singles.valueOf).sum| ≤ xs.length * greatest := by
    intro xs hxs
    induction xs with
    | nil => simp
    | cons x xs ih =>
      obtain ⟨hx, hxs⟩ := List.forall_mem_cons.1 hxs
      rw [List.map_cons, List.sum_cons, List.length_cons, Nat.cast_succ, add_mul, one_mul, add_comm]
      exact (abs_add_le _ _).trans (add_le_add (ih hxs) (abs_valueOf_le hx))
  have hlength : (((bins.take high).drop low).length : ℚ) ≤ most := by
    rw [List.length_drop, List.length_take]
    exact_mod_cast (by omega : min high bins.length - low ≤ most)
  exact (hsum _ fun x hx => hfinite x (List.mem_of_mem_drop hx)).trans
    (mul_le_mul_of_nonneg_right hlength (by norm_num [greatest]))

/-- The most that a step of a sum of so many bins is rounded by. -/
def drift (most : ℕ) : ℚ := (most + 1) * 2 ^ 128 / 2 ^ 53

theorem mul_drift_le {steps : ℕ} (hmost : most ≤ 2 ^ 24) (hsteps : steps ≤ 2 ^ 25) :
    steps * drift most ≤ 2 ^ 128 := by
  have hmost' : (most : ℚ) ≤ 2 ^ 24 := by exact_mod_cast hmost
  have hsteps' : (steps : ℚ) ≤ 2 ^ 25 := by exact_mod_cast hsteps
  rw [drift]
  calc (steps : ℚ) * ((most + 1) * 2 ^ 128 / 2 ^ 53)
      ≤ 2 ^ 25 * ((2 ^ 24 + 1) * 2 ^ 128 / 2 ^ 53) := by gcongr
    _ ≤ 2 ^ 128 := by norm_num

/-- A double of the size of a sum is rounded by no more than the drift. -/
theorem yields_near {b : Float} {x : ℚ} (hyields : Yields .binary64 x b.toModel.unpack)
    (hsize : |x| ≤ (most + 1) * 2 ^ 128) (hmost : most ≤ 2 ^ 24) :
    Fits .binary64 b.toModel.unpack ∧ |value b.toModel.unpack - x| ≤ drift most := by
  have hmost' : (most : ℚ) ≤ 2 ^ 24 := by exact_mod_cast hmost
  have hbound : Exact .binary64 (2 ^ (200 : ℤ)) := .two_zpow (by decide) (by decide)
  have hsmall : (most + 1 : ℚ) * 2 ^ 128 ≤ 2 ^ (200 : ℤ) := by
    calc (most + 1 : ℚ) * 2 ^ 128 ≤ (2 ^ 24 + 1) * 2 ^ 128 := by gcongr
      _ ≤ 2 ^ (200 : ℤ) := by norm_num
  obtain ⟨hlow, hhigh⟩ := abs_le.1 (hsize.trans hsmall)
  have hfits := (hyields.within hbound.neg hbound hlow hhigh).fits
  refine ⟨hfits, (hyields.rounds hfits.isFinite).abs_sub_le hsize ?_⟩
  show (2 : ℚ) ^ (-1074 + (52 : ℕ) : ℤ) ≤ _
  calc (2 : ℚ) ^ (-1074 + (52 : ℕ) : ℤ) ≤ 1 := zpow_le_one_of_nonpos₀ one_le_two (by decide)
    _ ≤ (most + 1) * 2 ^ 128 := by nlinarith only [(Nat.cast_nonneg most : (0 : ℚ) ≤ most)]

/-- One step: the exact sum changes by the bin, and the drift grows by that of the step. -/
theorem near_step {a b : Float} {exact change : ℚ} {steps : ℕ}
    (hyields : Yields .binary64 (value a.toModel.unpack + change) b.toModel.unpack)
    (hnear : |value a.toModel.unpack - exact| ≤ steps * drift most)
    (hexact : |exact + change| ≤ most * greatest) (hmost : most ≤ 2 ^ 24)
    (hsteps : steps ≤ 2 ^ 25) :
    Fits .binary64 b.toModel.unpack
      ∧ |value b.toModel.unpack - (exact + change)| ≤ (steps + 1 : ℕ) * drift most := by
  have hgreatest : greatest ≤ 2 ^ 128 := by norm_num [greatest]
  have hsize : |value a.toModel.unpack + change| ≤ (most + 1) * 2 ^ 128 := by
    calc |value a.toModel.unpack + change|
        = |(exact + change) + (value a.toModel.unpack - exact)| := by congr 1; ring
      _ ≤ |exact + change| + |value a.toModel.unpack - exact| := abs_add_le _ _
      _ ≤ most * 2 ^ 128 + 2 ^ 128 :=
          add_le_add (hexact.trans (by gcongr)) (hnear.trans (mul_drift_le hmost hsteps))
      _ = (most + 1) * 2 ^ 128 := by ring
  obtain ⟨hfits, herror⟩ := yields_near hyields hsize hmost
  refine ⟨hfits, ?_⟩
  calc |value b.toModel.unpack - (exact + change)|
      = |(value b.toModel.unpack - (value a.toModel.unpack + change))
          + (value a.toModel.unpack - exact)| := by congr 1; ring
    _ ≤ drift most + steps * drift most :=
        (abs_add_le _ _).trans (add_le_add herror hnear)
    _ = (steps + 1 : ℕ) * drift most := by push_cast; ring

/-- The sum stays near the exact sum of the bins in it. -/
theorem near (h : Slides .float bins most low high sum)
    (hfinite : ∀ x ∈ bins.take high, x.isFinite = true) (hmost : most ≤ 2 ^ 24)
    (hhigh : high ≤ 2 ^ 24) :
    Fits .binary64 sum.toModel.unpack
      ∧ |value sum.toModel.unpack - exactSum bins low high| ≤ (low + high : ℕ) * drift most := by
  induction h with
  | start =>
    refine ⟨trivial, ?_⟩
    show |(0 : ℚ) - 0| ≤ (0 + 0 : ℕ) * drift most
    simp
  | @enter low high sum x h hx hroom ih =>
    have hle := h.low_le
    have hlength : high < bins.length := (List.getElem?_eq_some_iff.1 hx).1
    rw [List.take_add_one, hx, Option.toList_some, List.forall_mem_append,
      List.forall_mem_singleton] at hfinite
    obtain ⟨hfits, hnear⟩ := ih hfinite.1 (by omega)
    obtain ⟨hfits', hvalue⟩ := Widening.value_widen hfinite.2
    have hyields := Doubles.yields_add hfits hfits'
    have hexact : |exactSum bins low (high + 1)| ≤ most * greatest := by
      refine abs_exactSum_le ?_ hroom
      rw [List.take_add_one, hx, Option.toList_some]
      exact List.forall_mem_append.2 ⟨hfinite.1, List.forall_mem_singleton.2 hfinite.2⟩
    rw [exactSum_enter hle hx] at hexact ⊢
    rw [hvalue] at hyields
    rw [← Nat.add_assoc]
    exact near_step hyields hnear hexact hmost (by omega)
  | @leave low high sum x h hx hlt ih =>
    have hroom := h.high_le_add
    obtain ⟨hfits, hnear⟩ := ih hfinite hhigh
    have hx' : x.isFinite = true := hfinite x (List.mem_of_getElem? (i := low) (by
      rw [List.getElem?_take_of_lt hlt, hx]))
    obtain ⟨hfits', hvalue⟩ := Widening.value_widen hx'
    have hyields : Yields .binary64 _ (sum - widen x).toModel.unpack :=
      Values.yields_sub (by decide) hfits hfits'
    have hexact : |exactSum bins (low + 1) high| ≤ most * greatest :=
      abs_exactSum_le hfinite (by omega)
    rw [exactSum_leave hlt hx] at hexact ⊢
    rw [hvalue, sub_eq_add_neg] at hyields
    have hsteps : low + 1 + high = low + high + 1 := by omega
    rw [hsteps]
    exact near_step hyields hnear hexact hmost (by omega)

/-! ## Means -/

/-- A bound that a double has, and that a single rounds to the greatest one. -/
def greatestMean : ℚ := (2 ^ 26 - 3 : ℕ) * 2 ^ (102 : ℤ)

theorem rounds_greatestMean : Rounds .binary32 greatestMean greatest :=
  ProfileRules.rounds_to_greatest (by norm_num [greatest, greatestMean])
    (by norm_num [greatestMean])

/-- The bins in a sum and the drift of it leave the mean below the bound. -/
theorem abs_sum_le (h : Slides .float bins most low high sum)
    (hfinite : ∀ x ∈ bins.take high, x.isFinite = true) (hlt : low < high)
    (hmost : min most high ≤ 2 * (high - low)) (hhigh : high ≤ 2 ^ 24) :
    Fits .binary64 sum.toModel.unpack
      ∧ |value sum.toModel.unpack| ≤ (high - low : ℕ) * greatestMean := by
  obtain ⟨count, hcount⟩ : ∃ count, count = high - low := ⟨_, rfl⟩
  obtain ⟨fewer, hfewer⟩ : ∃ fewer, fewer = min most high := ⟨_, rfl⟩
  rw [← hcount] at hmost ⊢
  rw [← hfewer] at hmost
  obtain ⟨hfits, hnear⟩ := (h.atMost hfewer.ge).near hfinite (by omega) hhigh
  have hexact : |exactSum bins low high| ≤ count * greatest := abs_exactSum_le hfinite (by omega)
  have hpos : (1 : ℚ) ≤ count := by exact_mod_cast (by omega : 1 ≤ count)
  have hfewer' : (fewer : ℚ) ≤ 2 * count := by exact_mod_cast hmost
  have hsteps : ((low + high : ℕ) : ℚ) ≤ 2 ^ 25 := by
    exact_mod_cast (by omega : low + high ≤ 2 ^ 25)
  refine ⟨hfits, ?_⟩
  have hdrift : (low + high : ℕ) * drift fewer ≤ count * 2 ^ 102 := by
    calc (low + high : ℕ) * drift fewer
        ≤ 2 ^ 25 * ((2 * count + count) * 2 ^ 128 / 2 ^ 53) := by
          rw [drift]
          gcongr
      _ ≤ count * 2 ^ 102 := by linarith
  calc |value sum.toModel.unpack|
      = |(value sum.toModel.unpack - exactSum bins low high) + exactSum bins low high| := by
        rw [sub_add_cancel]
    _ ≤ count * 2 ^ 102 + count * greatest :=
        (abs_add_le _ _).trans (add_le_add (hnear.trans hdrift) hexact)
    _ = count * greatestMean := by
        rw [greatestMean, greatest]
        push_cast
        ring

/-- The mean over a sum of finite bins is finite, if there have never been more than twice the
bins in it. -/
theorem isFinite_mean (h : Slides .float bins most low high sum)
    (hfinite : ∀ x ∈ bins.take high, x.isFinite = true) (hlt : low < high)
    (hmost : min most high ≤ 2 * (high - low)) (hhigh : high ≤ 2 ^ 24) :
    (narrow (sum / ofCount (high - low))).isFinite = true := by
  obtain ⟨hfits, hsum⟩ := h.abs_sum_le hfinite hlt hmost hhigh
  obtain ⟨hlow, hhigh'⟩ := abs_le.1 hsum
  have hbound : Exact .binary64 greatestMean := .multiple (by decide) (by decide) (by decide)
  have hmean := Doubles.mean_within (by omega) (by omega)
    ⟨hfits, by rwa [mul_neg], hhigh'⟩ hbound.neg hbound
  exact Doubles.isFinite_narrow hmean rounds_greatestMean.neg rounds_greatestMean
    (neg_lt_neg ProfileRules.greatest_lt_limit) ProfileRules.greatest_lt_limit

/-- The mean over a sum that is not finite is not finite. -/
theorem isFinite_of_mean {count : ℕ} (h : (narrow (sum / ofCount count)).isFinite = true) :
    sum.isFinite = true := by
  refine @isFinite_of_div .binary64 _ (ofCount count : Float).toModel.unpack ?_
  by_contra hinfinite
  have hmean : (sum / ofCount count).isFinite = false := Bool.not_eq_true _ ▸ hinfinite
  change (narrow (sum / ofCount count)).toModel.unpack.isFinite = true at h
  rw [Narrowing.unpack_narrow_of_not_finite hmean] at h
  exact hinfinite h

end Slides

/-! ## Moving averages -/

/-- An average is finite only if the bins of its window are finite and so are all bins before
these.  If they are, and there are not too many of them, it is finite. -/
theorem average_isFinite (width : ℕ) (bins : List Float32) :
    (width ≤ 1 → movingAverage .float width bins = bins)
      ∧ (2 ≤ width → ∀ i < bins.length, ∃ average,
        (movingAverage .float width bins)[i]? = some average
          ∧ (average.isFinite = true → (∀ x ∈ window width bins i, x.isFinite = true)
            ∧ ∀ x ∈ bins.take (windowStart width i), x.isFinite = true)
          ∧ (windowEnd width bins.length i ≤ 2 ^ 24 →
            (∀ x ∈ window width bins i, x.isFinite = true) →
            (∀ x ∈ bins.take (windowStart width i), x.isFinite = true) →
              average.isFinite = true)) := by
  refine ⟨fun hsmall => if_pos hsmall, fun hwidth i hi => ?_⟩
  obtain ⟨hstart, hend⟩ := window_contains (by omega : 1 ≤ width) hi
  have hentered := take_windowEnd (by omega : 1 ≤ width) hi
  obtain ⟨sum, hslides, haverage⟩ := movingAverage_slides .float hwidth hi
  refine ⟨_, haverage, fun hfinite => ?_, fun hlength hwindow hbefore => ?_⟩
  · have hall := hslides.isFinite (Slides.isFinite_of_mean hfinite)
    rw [hentered, List.forall_mem_append] at hall
    exact hall.symm
  · have hall := List.forall_mem_append.2 ⟨hbefore, hwindow⟩
    rw [← hentered] at hall
    rw [length_window]
    exact hslides.isFinite_mean hall (by omega) (le_two_windows (by omega) hi) hlength

namespace Specimen

/-- Bins of which the first is not a number. -/
def taintedBins : List Float32 := [.nan, 1, 1, 1, 1]

end Specimen

/-- The window of the last bin has left the one that is not a number, and its average is not
finite.  Without that bin it is. -/
theorem average_isFinite_specimen :
    window 2 Specimen.taintedBins 4 = [1, 1]
      ∧ (∃ average, (movingAverage .float 2 Specimen.taintedBins)[4]? = some average
        ∧ average.isFinite = false)
      ∧ ∃ average, (movingAverage .float 2 Specimen.taintedBins.tail)[3]? = some average
        ∧ average.isFinite = true := by
  have hones : ∀ x ∈ Specimen.taintedBins.tail, x.isFinite = true := by decide
  obtain ⟨-, htainted⟩ := average_isFinite 2 Specimen.taintedBins
  obtain ⟨average, haverage, hfinite, -⟩ := htainted (by decide) 4 (by decide)
  obtain ⟨-, hsound⟩ := average_isFinite 2 Specimen.taintedBins.tail
  obtain ⟨average', haverage', -, hfinite'⟩ := hsound (by decide) 3 (by decide)
  refine ⟨rfl, ⟨average, haverage, ?_⟩, average', haverage', hfinite' (by decide) ?_ ?_⟩
  · rw [← Bool.not_eq_true]
    intro h
    exact absurd ((hfinite h).2 .nan List.mem_cons_self) (by decide)
  · exact fun x hx => hones x (List.mem_of_mem_take (List.mem_of_mem_drop hx))
  · exact fun x hx => hones x (List.mem_of_mem_take hx)

end Denoise
