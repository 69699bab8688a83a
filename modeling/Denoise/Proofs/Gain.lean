import Denoise.Proofs.Passages
import Denoise.Proofs.Profile

/-!
# Guarded gains

Whatever a frame and the state before it hold, undefined and infinite numbers included, the
gains that come out are finite.  Each guard replaces what is not a number (`le_greater_floor`,
`lesser_between`, `heldPrior_between`), so only the ranges they set are left to reason about,
one bin at a time (`guarded_bin`).

The mean likelihood is a sum over any number of bins.  It stays in range since a sum that is
great enough absorbs what one bin adds (`within_sum`).
-/

namespace Denoise

open Float.Model UnpackedFloat Rounding Values

/-! ## Guards -/

namespace Singles

variable {a b c : Float32}

theorem greater_of_isNaN_left (ha : a.isNaN = true) : greater a b = b := by
  rw [greater, beq_self_eq_not_isNaN, ha, if_pos (.inr rfl)]

theorem lesser_of_isNaN_left (ha : a.isNaN = true) : lesser a b = b := by
  rw [lesser, beq_self_eq_not_isNaN, ha, if_pos (.inr rfl)]

/-- A number is not above the greater of it and anything else. -/
theorem le_greater_floor (hb : b.isNaN = false) :
    (greater a b).isNaN = false ∧ b ≤ greater a b := by
  cases ha : a.isNaN with
  | true =>
    rw [greater_of_isNaN_left ha]
    exact ⟨hb, le_refl hb⟩
  | false =>
    have hle := (le_greater ha hb).2
    exact ⟨(isNaN_of_le hle).2, hle⟩

/-- The lesser of a ceiling and something that is not below a number. -/
theorem lesser_between (hb : b.isNaN = false) (ha : a.isNaN = true ∨ c ≤ a) (hc : c ≤ b) :
    c ≤ lesser a b ∧ lesser a b ≤ b := by
  cases hnumber : a.isNaN with
  | true =>
    rw [lesser_of_isNaN_left hnumber]
    exact ⟨hc, le_refl hb⟩
  | false =>
    have hca := ha.resolve_left (by rw [hnumber]; nofun)
    refine ⟨?_, (lesser_le hnumber hb).2⟩
    rcases lesser_eq_or a b with h | h
    · rwa [h]
    · rwa [h]

/-- A number is clamped between bounds that are in order. -/
theorem clamp_between {low high x : Float32} (hx : x.isNaN = false) (h : low ≤ high) :
    low ≤ clamp low high x ∧ clamp low high x ≤ high := by
  obtain ⟨hlow, hhigh⟩ := isNaN_of_le h
  rw [clamp]
  split
  next => exact ⟨le_refl hlow, h⟩
  next habove =>
    split
    next => exact ⟨h, le_refl hhigh⟩
    next hbelow => exact ⟨le_of_not_lt hx hlow habove, le_of_not_lt hhigh hx hbelow⟩

theorem valueOf_one : valueOf 1 = 1 := by
  show ((2 ^ 23 : ℕ) : ℚ) * 2 ^ (-23 : ℤ) = 1
  norm_num

end Singles

namespace Gain

open Singles

theorem valueOf_posteriorCeiling : valueOf posteriorCeiling = 40 := by
  show ((5 * 2 ^ 21 : ℕ) : ℚ) * 2 ^ (-18 : ℤ) = 40
  norm_num

theorem valueOf_priorCeiling : valueOf priorCeiling = 100000000 := by
  show ((12500000 : ℕ) : ℚ) * 2 ^ (3 : ℤ) = 100000000
  norm_num

/-! ## One bin -/

variable {floor noise magnitude power prior : Float32}

/-- The power of noise that is divided by is positive, if not infinite. -/
theorem unsigned_ratio (h : Unsigned .binary32 power.toModel.unpack) :
    Unsigned .binary32 (power / greater noise powerFloor).toModel.unpack := by
  have hfloor : powerFloor.isFinite = true := by decide
  have hpositive : (0 : Float32) < powerFloor := by decide +kernel
  have hzero : (0 : Float32).isFinite = true := by decide
  obtain ⟨hnumber, hle⟩ := le_greater_floor (a := noise) (isNaN_of_isFinite hfloor)
  have hnonneg : 0 ≤ powerFloor :=
    le_of_lt (isNaN_of_isFinite hzero) (isNaN_of_isFinite hfloor) hpositive
  refine Unsigned.div (by decide) h (unsigned_iff.2 (.inr ?_)) fun hfits => ?_
  · exact le_trans (isNaN_of_isFinite hzero) (isNaN_of_isFinite hfloor) hnumber hnonneg hle
  · exact ((lt_iff_value hzero hfloor).1 hpositive).trans_le
      ((le_iff_value hfloor hfits.isFinite).1 hle)

/-- The posterior ratio is undefined only before it is capped. -/
theorem posterior_between (noise : Float32) (h : Unsigned .binary32 power.toModel.unpack) :
    0 ≤ posterior (greater noise powerFloor) power
      ∧ posterior (greater noise powerFloor) power ≤ 40 :=
  lesser_between (b := posteriorCeiling) (by decide) (unsigned_iff.1 (unsigned_ratio h))
    (by decide +kernel)

/-- What is not finite is replaced before the prior ratio is held in range. -/
theorem heldPrior_between (h : floor ≤ priorCeiling) (raw : Float32) :
    floor ≤ heldPrior floor raw ∧ heldPrior floor raw ≤ 1e8 := by
  refine clamp_between ?_ h
  split
  next hfinite => exact isNaN_of_isFinite hfinite
  next => decide

/-- The range of a prior ratio, which makes the rest of the formula finite. -/
structure Held (prior : Float32) : Prop where
  finite : prior.isFinite = true
  low : 0 ≤ valueOf prior
  high : valueOf prior ≤ 100000000

namespace Held

theorem of_between (hfloor : 0 < floor) (hlow : floor ≤ prior) (hhigh : prior ≤ 1e8) :
    Held prior := by
  have hzero : (0 : Float32).isFinite = true := by decide
  have hceiling : priorCeiling.isFinite = true := by decide
  obtain ⟨hnfloor, hnprior⟩ := isNaN_of_le hlow
  have hnonneg := le_trans (isNaN_of_isFinite hzero) hnfloor hnprior
    (le_of_lt (isNaN_of_isFinite hzero) hnfloor hfloor) hlow
  have hfinite := isFinite_of_between hzero hceiling hnonneg hhigh
  refine ⟨hfinite, (le_iff_value hzero hfinite).1 hnonneg, ?_⟩
  rw [← valueOf_priorCeiling]
  exact (le_iff_value hfinite hceiling).1 hhigh

theorem within_succ (h : Held prior) :
    Within .binary32 1 (2 ^ (27 : ℤ)) (1 + prior).toModel.unpack := by
  have hone := Exact.two_zpow (by decide : Format.binary32.minExponent ≤ 0) (by decide)
  have hyields := yields_add (by decide : (1 : Float32).isFinite = true) h.finite
  rw [valueOf_one] at hyields
  rw [zpow_zero] at hone
  have hlow := h.low
  have hhigh := h.high
  refine hyields.within hone (.two_zpow (by decide) (by decide)) ?_ ?_
  · linarith
  · norm_num
    linarith

/-- A ratio to `1 + ξ` is no greater than what is divided. -/
theorem within_div_succ (h : Held prior) {a : Float32} {k : ℤ}
    (ha : Within .binary32 0 (2 ^ k) a.toModel.unpack) (hleast : -149 ≤ k) (hgreatest : k < 128) :
    Within .binary32 0 (2 ^ k) (a / (1 + prior)).toModel.unpack := by
  have hsucc := h.within_succ
  have hlow : 1 ≤ valueOf (1 + prior) := hsucc.low
  have hvalue : 0 ≤ valueOf a := ha.low
  have hyields := yields_div ha.fits.isFinite hsucc.fits.isFinite (by linarith)
  refine hyields.within (.zero _) (.two_zpow hleast hgreatest) (div_nonneg hvalue (by linarith)) ?_
  exact (div_le_self hvalue hlow).trans ha.high

theorem within_weight (h : Held prior) :
    Within .binary32 0 (2 ^ (27 : ℤ)) (prior / (1 + prior)).toModel.unpack := by
  refine h.within_div_succ ⟨fits h.finite, h.low, h.high.trans ?_⟩ (by decide) (by decide)
  norm_num

end Held

theorem within_posterior {a : Float32} (hlow : 0 ≤ a) (hhigh : a ≤ 40) :
    Within .binary32 0 40 a.toModel.unpack := by
  have hzero : (0 : Float32).isFinite = true := by decide
  have hceiling : posteriorCeiling.isFinite = true := by decide
  have hfinite := isFinite_of_between hzero hceiling hlow hhigh
  refine ⟨fits hfinite, (le_iff_value hzero hfinite).1 hlow, ?_⟩
  rw [← valueOf_posteriorCeiling]
  exact (le_iff_value hfinite hceiling).1 hhigh

/-- The likelihood ratio of one bin is finite, and not great. -/
theorem within_likelihood {m : Elementary} {posterior : Float32} (h : Held prior)
    (hlog : ∀ x : Float32, x.isFinite = true → 1 ≤ x → 0 ≤ m.log x ∧ m.log x ≤ 89)
    (hposterior : Within .binary32 0 40 posterior.toModel.unpack) :
    Within .binary32 (-2 ^ (7 : ℤ)) (2 ^ (32 : ℤ))
      (posterior * prior / (1 + prior) - m.log (1 + prior)).toModel.unpack := by
  have hproduct : Within .binary32 0 (2 ^ (32 : ℤ)) (posterior * prior).toModel.unpack := by
    refine (yields_mul hposterior.fits.isFinite h.finite).within (.zero _)
      (.two_zpow (by decide) (by decide)) (mul_nonneg hposterior.low h.low) ?_
    calc valueOf posterior * valueOf prior ≤ 40 * 100000000 :=
          mul_le_mul hposterior.high h.high h.low (by norm_num)
      _ ≤ 2 ^ (32 : ℤ) := by norm_num
  have hratio := h.within_div_succ hproduct (by decide) (by decide)
  have hone : (1 : Float32).isFinite = true := by decide
  have hzero : (0 : Float32).isFinite = true := by decide
  have hlast : (89 : Float32).isFinite = true := by decide
  have hsucc := h.within_succ
  have hle : 1 ≤ 1 + prior := by
    rw [le_iff_value hone hsucc.fits.isFinite, valueOf_one]
    exact hsucc.low
  obtain ⟨hlow, hhigh⟩ := hlog (1 + prior) hsucc.fits.isFinite hle
  have hfinite := isFinite_of_between hzero hlast hlow hhigh
  have hlow' : 0 ≤ valueOf (m.log (1 + prior)) := (le_iff_value hzero hfinite).1 hlow
  have hhigh' : valueOf (m.log (1 + prior)) ≤ 89 := by
    have hvalue : valueOf 89 = 89 := by
      show ((89 * 2 ^ 17 : ℕ) : ℚ) * 2 ^ (-17 : ℤ) = 89
      norm_num
    rw [← hvalue]
    exact (le_iff_value hfinite hlast).1 hhigh
  have hlow'' : 0 ≤ valueOf (posterior * prior / (1 + prior)) := hratio.low
  have hhigh'' : valueOf (posterior * prior / (1 + prior)) ≤ 2 ^ (32 : ℤ) := hratio.high
  have hleast : Exact .binary32 (2 ^ (7 : ℤ)) := .two_zpow (by decide) (by decide)
  have hgreatest : Exact .binary32 (2 ^ (32 : ℤ)) := .two_zpow (by decide) (by decide)
  refine (yields_sub hratio.fits.isFinite hfinite).within hleast.neg hgreatest ?_ ?_
  · norm_num
    linarith
  · linarith

/-- The square of a number is a number. -/
theorem isNaN_mul_self {a : Float32} (ha : a.isNaN = false) :
    (a * a).isNaN = false ∧ 0 ≤ a * a := by
  have hnumber : (a * a).isNaN = false := by
    by_cases hfinite : a.isFinite = true
    · exact (yields_mul hfinite hfinite).isNaN
    · change ¬a.toModel.unpack.isFinite = true at hfinite
      change a.toModel.unpack.isNaN = false at ha
      show (stored .binary32
        (UnpackedFloat.mul .binary32 a.toModel.unpack a.toModel.unpack)).isNaN = false
      generalize a.toModel.unpack = u at *
      cases u with
      | notANumber => cases ha
      | infinity s => cases s <;> rfl
      | zero => exact absurd rfl hfinite
      | finite => exact absurd rfl hfinite
  refine ⟨hnumber, (unsigned_iff.1 (unsigned_mul_self a)).resolve_left ?_⟩
  rw [hnumber]
  nofun

/-- What is relied on of the elementary functions: an exponential is not below zero unless it
is undefined, and the logarithm of a finite number from one on is no greater than that of the
greatest one. -/
structure Tame (m : Elementary) : Prop where
  exp : ∀ x, (m.exp x).isNaN = true ∨ 0 ≤ m.exp x
  log : ∀ x : Float32, x.isFinite = true → 1 ≤ x → 0 ≤ m.log x ∧ m.log x ≤ 89

/-- What the guards make sure of for a bin of a given magnitude. -/
structure Guarded (floor magnitude : Float32) (b : Bin) : Prop where
  /-- The posterior ratio is in range. -/
  posterior : 0 ≤ b.posterior ∧ b.posterior ≤ 40
  /-- The prior ratio is in range. -/
  prior : floor ≤ b.prior ∧ b.prior ≤ 1e8
  /-- The exponential integral is not taken near its pole. -/
  argument : 1e-8 ≤ b.argument
  /-- The likelihood ratio is in a range that sums stay finite with. -/
  likelihood : Within .binary32 (-2 ^ (7 : ℤ)) (2 ^ (32 : ℤ)) b.likelihood.toModel.unpack
  /-- The gain is finite and not below zero. -/
  gain : b.gain.isFinite = true ∧ 0 ≤ b.gain
  /-- The clean power is a number, unless the magnitude is none. -/
  clean : magnitude.isFinite = true → b.clean.isNaN = false ∧ 0 ≤ b.clean

/-- What is not finite gives no gain. -/
theorem guarded_gain {raw : Float32} (h : Unsigned .binary32 raw.toModel.unpack) :
    (if raw.isFinite then raw else 0).isFinite = true ∧ 0 ≤ (if raw.isFinite then raw else 0) := by
  split
  next hfinite =>
    refine ⟨hfinite, (unsigned_iff.1 h).resolve_left ?_⟩
    rw [isNaN_of_isFinite hfinite]
    nofun
  next => exact ⟨by decide, by decide +kernel⟩

/-- The guards hold for one bin, with any noise and any magnitude. -/
theorem guarded_bin {m : Elementary} (hm : Tame m) (hfloor : 0 < floor) (hceiling : floor ≤ 1e8)
    (noise magnitude : Float32) (clean : Option Float32) :
    Guarded floor magnitude (bin m floor noise magnitude clean) := by
  have hposterior := posterior_between noise (unsigned_mul_self magnitude)
  have hprior := heldPrior_between hceiling (rawPrior (greater noise powerFloor)
    (posterior (greater noise powerFloor) (magnitude * magnitude)) clean)
  have hheld := Held.of_between hfloor hprior.1 hprior.2
  have hweight := hheld.within_weight
  rw [bin, binOf]
  generalize heldPrior floor _ = prior at *
  generalize posterior _ _ = posterior at *
  have hargument : 1e-8 ≤ greater (prior / (1 + prior) * posterior) leastArgument :=
    (le_greater_floor (by decide)).2
  generalize greater (prior / (1 + prior) * posterior) leastArgument = argument at *
  have hexp := unsigned_iff.2 (hm.exp (0.5 * ExponentialIntegral.e1 m argument))
  have hgain := guarded_gain (unsigned_mul (.fits hweight.fits hweight.low) hexp)
  have hlikelihood := within_likelihood hheld hm.log (within_posterior hposterior.1 hposterior.2)
  exact ⟨hposterior, hprior, hargument, hlikelihood, hgain,
    fun hfinite => isNaN_mul_self (yields_mul hfinite hgain.1).isNaN⟩

/-! ## One frame -/

/-- So they hold bin by bin. -/
theorem guarded_bins {m : Elementary} (hm : Tame m) (hfloor : 0 < floor) (hceiling : floor ≤ 1e8)
    {noise magnitudes : List Float32} {clean : List (Option Float32)}
    (hnoise : noise.length = magnitudes.length) (hclean : clean.length = magnitudes.length) :
    List.Forall₂ (Guarded floor) magnitudes (bins m floor noise magnitudes clean) := by
  induction magnitudes generalizing noise clean with
  | nil =>
    obtain rfl := List.length_eq_zero_iff.1 hnoise
    exact .nil
  | cons magnitude magnitudes ih =>
    obtain ⟨noise, noises, rfl⟩ := List.exists_cons_of_length_eq_add_one hnoise
    obtain ⟨clean, cleans, rfl⟩ := List.exists_cons_of_length_eq_add_one hclean
    exact .cons (guarded_bin hm hfloor hceiling noise magnitude clean)
      (ih (Nat.succ.inj hnoise) (Nat.succ.inj hclean))

/-- A great sum in double precision absorbs what a bin adds. -/
theorem rounds_absorbed : Rounds .binary64 (2 ^ (100 : ℤ) + 2 ^ (32 : ℤ)) (2 ^ (100 : ℤ)) := by
  refine .of_nonneg (by positivity)
    ⟨48, 2 ^ 52, ⟨by decide, ?_, .inl ?_⟩, ⟨?_, ?_, fun _ => by decide⟩, ?_⟩
  · show (2 ^ (100 : ℤ) + 2 ^ (32 : ℤ) : ℚ) < 2 ^ ((48 : ℤ) + (53 : ℕ))
    norm_num
  · show (2 : ℚ) ^ ((48 : ℤ) + (52 : ℕ)) ≤ _
    norm_num
  · norm_num
  · norm_num
  · norm_num

/-- The sum of the likelihood ratios stays in range, however many bins there are. -/
theorem within_sum {bs : List Bin} {sum : Float}
    (hbs : ∀ b ∈ bs, Within .binary32 (-2 ^ (7 : ℤ)) (2 ^ (32 : ℤ)) b.likelihood.toModel.unpack)
    (hsum : Within .binary64 (-2 ^ (100 : ℤ)) (2 ^ (100 : ℤ)) sum.toModel.unpack) :
    Within .binary64 (-2 ^ (100 : ℤ)) (2 ^ (100 : ℤ))
      (bs.foldl (fun sum b => sum + widen b.likelihood) sum).toModel.unpack := by
  induction bs generalizing sum with
  | nil => exact hsum
  | cons b bs ih =>
    obtain ⟨hb, hbs⟩ := List.forall_mem_cons.1 hbs
    refine ih hbs ?_
    have hgreat : Exact .binary64 (2 ^ (32 : ℤ)) := .two_zpow (by decide) (by decide)
    have hwide : Within .binary64 (-2 ^ (32 : ℤ)) (2 ^ (32 : ℤ))
        (widen b.likelihood).toModel.unpack := by
      refine (Widening.yields_widen hb.fits.isFinite).within hgreat.neg hgreat ?_ hb.high
      refine le_trans ?_ hb.low
      norm_num
    have hmost : Exact .binary64 (2 ^ (100 : ℤ)) := .two_zpow (by decide) (by decide)
    have hlow := add_le_add hsum.low hwide.low
    have hhigh := add_le_add hsum.high hwide.high
    rw [← neg_add] at hlow
    exact (Doubles.yields_add hsum.fits hwide.fits).between rounds_absorbed.neg rounds_absorbed
      hmost.neg.low hmost.high hlow hhigh

/-- A mean of bounded likelihoods is finite. -/
theorem isFinite_meanLikelihood {frameLen : ℕ} (hlen : 0 < frameLen) {bs : List Bin}
    (hbs : ∀ b ∈ bs, Within .binary32 (-2 ^ (7 : ℤ)) (2 ^ (32 : ℤ)) b.likelihood.toModel.unpack) :
    (meanLikelihood frameLen bs).isFinite = true := by
  have hzero : Within .binary64 (-2 ^ (100 : ℤ)) (2 ^ (100 : ℤ)) (0 : Float).toModel.unpack :=
    ⟨trivial, neg_nonpos.2 (by positivity), by positivity⟩
  have hmean := Doubles.within_div_ofCount hlen (within_sum hbs hzero) (by decide) (by decide)
  refine Narrowing.isFinite_narrow hmean.fits ((abs_le.2 ⟨hmean.low, hmean.high⟩).trans_lt ?_)
  norm_num

/-- A magnitude that fills a zero is one of the frame. -/
theorem mem_fillZeros {left : Option Float32} {xs : List Float32} {y : Float32}
    (h : y ∈ fillZeros left xs) : y ∈ xs ∨ left = some y := by
  induction xs generalizing left with
  | nil => cases h
  | cons x xs ih =>
    obtain ⟨filled, hfilled, htail⟩ : ∃ filled, (filled = x ∨ left = some filled)
        ∧ fillZeros left (x :: xs) = filled :: fillZeros (some filled) xs := by
      cases left with
      | none => exact ⟨x, .inl rfl, rfl⟩
      | some l =>
        refine ⟨if x == 0 then l else x, ?_, rfl⟩
        split
        · exact .inr rfl
        · exact .inl rfl
    rw [htail] at h
    have hhead : y = filled → y ∈ x :: xs ∨ left = some y := by
      rintro rfl
      rcases hfilled with rfl | hleft
      · exact .inl List.mem_cons_self
      · exact .inr hleft
    rcases List.mem_cons.1 h with heq | hmem
    · exact hhead heq
    · rcases ih hmem with hmem | heq
      · exact .inl (List.mem_cons_of_mem x hmem)
      · exact hhead (Option.some.inj heq).symm

theorem exists_guarded {xs : List Float32} {bs : List Bin}
    (h : List.Forall₂ (Guarded floor) xs bs) : ∀ b ∈ bs, ∃ x ∈ xs, Guarded floor x b := by
  induction h with
  | nil => nofun
  | cons hb _ ih =>
    rintro b (_ | ⟨_, hmem⟩)
    · exact ⟨_, List.mem_cons_self, hb⟩
    · obtain ⟨x, hx, hguarded⟩ := ih b hmem
      exact ⟨x, List.mem_cons_of_mem _ hx, hguarded⟩

/-- The guards hold for every bin of a frame, whatever the frame, the noise power and the state
before it are. -/
theorem estimate_guarded (g : Geometry) {m : Elementary} (hm : Tame m) {mem : Memory}
    (hfloor : 0 < mem.priorFloor) (hceiling : mem.priorFloor ≤ 1e8)
    (hclean : ∀ powers, mem.clean = some powers → powers.length = g.fftSize)
    {noise magnitudes : List Float32} (hnoise : noise.length = g.fftSize)
    (hmagnitudes : magnitudes.length = g.fftSize) :
    let filled := fillZeros none magnitudes
    let bs := bins m mem.priorFloor noise filled (mem.previous filled.length)
    let e := estimate m g.frameLen mem noise magnitudes
    bs.length = g.fftSize
      ∧ List.Forall₂ (Guarded mem.priorFloor) filled bs
      ∧ e.gains = bs.map Bin.gain
      ∧ e.likelihood.isFinite = true
      ∧ e.memory.clean = some (bs.map Bin.clean)
      ∧ ((∀ x ∈ magnitudes, x.isFinite = true) →
        ∀ power ∈ bs.map Bin.clean, power.isNaN = false ∧ 0 ≤ power) := by
  intro filled bs e
  have hfilled : filled.length = g.fftSize := (length_fillZeros none magnitudes).trans hmagnitudes
  have hprevious : (mem.previous filled.length).length = g.fftSize := by
    rw [hfilled]
    exact @Memory.Sized.previous g { mem with tail := List.replicate g.hop 0 }
      ⟨hclean, List.length_replicate⟩
  have hguarded : List.Forall₂ (Guarded mem.priorFloor) filled bs :=
    guarded_bins hm hfloor hceiling (hnoise.trans hfilled.symm) (hprevious.trans hfilled.symm)
  refine ⟨hguarded.length_eq.symm.trans hfilled, hguarded, rfl, ?_, rfl, ?_⟩
  · refine isFinite_meanLikelihood g.frameLen_pos fun b hb => ?_
    obtain ⟨x, -, hx⟩ := exists_guarded hguarded b hb
    exact hx.likelihood
  · intro hfinite power hpower
    obtain ⟨b, hb, rfl⟩ := List.mem_map.1 hpower
    obtain ⟨x, hmem, hx⟩ := exists_guarded hguarded b hb
    exact hx.clean (hfinite x ((mem_fillZeros hmem).resolve_right nofun))

namespace Specimen

/-- The elementary functions at the numbers that the frame below takes them of: `exp 6.2e-6`,
`log (1e8 + 1)` and `exp (-9)`. -/
def functions : Elementary where
  exp := fun _ => 1.0000062
  log := fun _ => 18.420681
  pow := fun _ _ => 0.0031622776
  expWide := fun _ => 1.2340980408667956e-4
  logWide := fun _ => 0
  cosWide := fun _ => 1

theorem tame_functions : Tame functions where
  exp _ := .inr (show (0 : Float32) ≤ 1.0000062 by decide +kernel)
  log _ _ _ := show (0 : Float32) ≤ 18.420681 ∧ (18.420681 : Float32) ≤ 89 by decide +kernel

/-- A state with nothing but undefined clean powers. -/
def undefinedPowers : Memory where
  clean := some (List.replicate 8 (0.0 / 0.0))
  tail := [0, 0]
  priorFloor := 0.0031622776

end Specimen

/-- One frame after undefined clean powers, all of them are numbers again. -/
theorem estimate_guarded_specimen :
    Tame Specimen.functions ∧ 0 < Specimen.undefinedPowers.priorFloor
      ∧ Specimen.undefinedPowers.priorFloor ≤ 1e8
      ∧ (∀ power ∈ Specimen.undefinedPowers.previous 8, (power.getD 0).isNaN = true)
      ∧ ∃ powers, (estimate Specimen.functions 4 Specimen.undefinedPowers (List.replicate 8 1)
          (List.replicate 8 3)).memory.clean = some powers
        ∧ powers.length = 8 ∧ ∀ power ∈ powers, power.isNaN = false ∧ 0 ≤ power := by
  have hfloor : 0 < Specimen.undefinedPowers.priorFloor := by decide +kernel
  have hceiling : Specimen.undefinedPowers.priorFloor ≤ 1e8 := by decide +kernel
  have hclean : ∀ powers, Specimen.undefinedPowers.clean = some powers →
      powers.length = Denoise.Specimen.geometry.fftSize := by
    rintro powers hpowers
    obtain rfl := Option.some.inj hpowers
    rfl
  have hsize (x : Float32) : (List.replicate 8 x).length = Denoise.Specimen.geometry.fftSize := rfl
  obtain ⟨hlength, -, -, -, hestimate, hnumbers⟩ := estimate_guarded Denoise.Specimen.geometry
    Specimen.tame_functions hfloor hceiling hclean (hsize 1) (hsize 3)
  refine ⟨Specimen.tame_functions, hfloor, hceiling, by decide +kernel, _, hestimate, ?_,
    hnumbers ?_⟩
  · rw [List.length_map]
    exact hlength
  · decide +kernel

end Gain

end Denoise
