import Denoise.Proofs.Frames
import Mathlib

/-!
# Windows and transforms in exact arithmetic

`hannOf` and `Window.ofShape` are the window of a geometry without its number type: the
cosine, the number π and the rounding are given.  `hann` and `Window.forGeometry` are their
cases for machine numbers (`hann_eq_hannOf`, `Window.forGeometry_eq_ofShape`), and
`exactWindow` is the case for real numbers, where nothing is rounded.

The weights of a Hann window of `n` samples add up to `(n - 1) / 2`, since the cosines in it
go once around the circle (`sum_exactHann`).  So no sum of weights is as small as the number that
guards the division, and the compensation is the hop over the sum
(`compensation_exactWindow`).

`Transform.RoundTrip` is what the signal path relies on of a pair of transforms.  The
discrete Fourier transform has it for every number of points
(`Transform.roundTrip_fourier`).
-/

namespace Denoise

/-! ## Windows of any number type -/

section Generic

variable {K W : Type}

/-- The symmetric Hann window, by a cosine, a number π and a rounding. -/
def hannOf [OfNat K 1] [OfNat W 2] [OfScientific W] [Sub W] [Mul W] [Div W] (cosine : W → W)
    (pi : W) (round : W → K) (n : Nat) : List K :=
  if n < 2 then List.replicate n 1
  else (List.range n).map fun i =>
    round (0.5 - 0.5 * cosine (2 * pi * ofCount i / ofCount (n - 1)))

/-- The window for a geometry, by the shape of the window at audio rate. -/
def Window.ofShape [Zero K] [OfNat K 1] [Add K] [Mul K] [Div K] [OfScientific K] [LT K]
    [DecidableLT K] [BEq K] (shape : Nat → List K) (g : Geometry) : Window K :=
  if g.wideband then .ofWeights g.hop (List.replicate g.frameLen 1)
  else .ofWeights g.hop ((shape g.frameLen).map (· * hopGain g.hop (shape g.frameLen)))

/-- The window in use is the generic one in the arithmetic of the machine. -/
theorem hann_eq_hannOf (m : Elementary) (n : Nat) :
    hann m n = hannOf m.cosWide 3.141592653589793 narrow n := rfl

theorem Window.forGeometry_eq_ofShape (m : Elementary) (g : Geometry) :
    Window.forGeometry m g = .ofShape (hann m) g := rfl

end Generic

/-! ## The scalars in exact arithmetic -/

theorem ofCount_natCast {K : Type} [DivisionRing K] [CharZero K] (n : Nat) :
    (ofCount n : K) = n := by
  rw [ofCount, NNRatCast.ofScientific_eq_ite]
  simp

theorem ofCount_real (n : Nat) : (ofCount n : ℝ) = n := ofCount_natCast n

/-- Over the reals the greater of two is their maximum. -/
theorem greater_real (a b : ℝ) : greater a b = max a b := by
  rw [greater, beq_self_eq_true]
  simp only [Bool.true_eq_false, or_false]
  exact (max_def_lt a b).symm

theorem total_real (xs : List ℝ) : total xs = xs.sum := List.sum_eq_foldl.symm

/-- A sum of weights that is one or more is not guarded. -/
theorem hopGain_real (hop : Nat) (weights : List ℝ) (h : 1 ≤ weights.sum) :
    hopGain hop weights = hop / weights.sum := by
  rw [hopGain, ofCount_real, greater_real, total_real, max_eq_left]
  exact le_trans (by norm_num) h

/-! ## The Hann window -/

/-- Cosines that go once around the circle. -/
theorem sum_cos_around {m : Nat} (h : 1 < m) :
    ∑ i ∈ Finset.range m, Real.cos (2 * Real.pi * i / m) = 0 := by
  have hroot := (Complex.isPrimitiveRoot_exp m (by omega)).geom_sum_eq_zero h
  have hre := congrArg Complex.re hroot
  rw [Complex.re_sum, Complex.zero_re] at hre
  rw [← hre]
  refine Finset.sum_congr rfl fun i _ => ?_
  rw [← Complex.exp_nat_mul, ← Complex.exp_ofReal_mul_I_re]
  congr 2
  push_cast
  ring

/-- The Hann window, not rounded. -/
noncomputable def exactHann (n : Nat) : List ℝ := hannOf Real.cos Real.pi id n

theorem length_exactHann (n : Nat) : (exactHann n).length = n := by
  rw [exactHann, hannOf]
  split
  next => exact List.length_replicate
  next => rw [List.length_map, List.length_range]

/-- The weights add up to half of the intervals between them. -/
theorem sum_exactHann {m : Nat} (h : 1 < m) : (exactHann (m + 1)).sum = m / 2 := by
  have hlast : Real.cos (2 * Real.pi * m / m) = 1 := by
    rw [mul_div_assoc, div_self (by positivity), mul_one, Real.cos_two_pi]
  have hweights : exactHann (m + 1)
      = (List.range (m + 1)).map fun i : Nat => 1 / 2 - 1 / 2 * Real.cos (2 * Real.pi * i / m) := by
    rw [exactHann, hannOf, if_neg (by omega)]
    refine List.map_congr_left fun i _ => ?_
    rw [ofCount_real, ofCount_real, Nat.add_sub_cancel]
    norm_num
  have haround : ∑ i ∈ Finset.range (m + 1), Real.cos (2 * Real.pi * i / m) = 1 := by
    rw [Finset.sum_range_succ, sum_cos_around h, hlast, zero_add]
  rw [hweights, ← List.sum_toFinset _ List.nodup_range, List.toFinset_range, Finset.sum_sub_distrib,
    ← Finset.mul_sum, haround, Finset.sum_const, Finset.card_range, nsmul_eq_mul]
  push_cast
  ring

/-! ## The window of a geometry -/

/-- The window for a geometry, not rounded. -/
noncomputable def exactWindow (g : Geometry) : Window ℝ := .ofShape exactHann g

theorem length_exactWindow (g : Geometry) : (exactWindow g).weights.length = g.frameLen := by
  rw [exactWindow, Window.ofShape]
  split
  next => exact List.length_replicate
  next => rw [Window.ofWeights, List.length_map, length_exactHann]

/-- Wideband weights are equal. -/
theorem weights_of_wideband {g : Geometry} (h : g.wideband = true) :
    (exactWindow g).weights = List.replicate g.frameLen 1 := by
  rw [exactWindow, Window.ofShape, if_pos h, Window.ofWeights]

/-- At audio rate the weights add up to the hop, and otherwise to two hops. -/
theorem sum_exactWindow (g : Geometry) :
    (exactWindow g).weights.sum = if g.wideband then (2 * g.hop : ℝ) else g.hop := by
  cases h : g.wideband with
  | true =>
    rw [weights_of_wideband h, List.sum_replicate, Geometry.frameLen]
    simp
  | false =>
    have hhop := g.two_le_hop
    obtain ⟨m, hm⟩ : ∃ m, g.frameLen = m + 1 := Nat.exists_eq_add_one.2 g.frameLen_pos
    have hlarge : 3 ≤ m := by
      simp only [Geometry.frameLen] at hm
      omega
    have hsum : (exactHann g.frameLen).sum = m / 2 := by
      rw [hm]
      exact sum_exactHann (by omega)
    have hlarge' : (3 : ℝ) ≤ m := by exact_mod_cast hlarge
    have hgain := hopGain_real g.hop (exactHann g.frameLen) (by rw [hsum]; linarith)
    rw [exactWindow, Window.ofShape, h, if_neg Bool.false_ne_true, Window.ofWeights,
      List.sum_map_mul_right, List.map_id', hgain, mul_div_cancel₀]
    · rfl
    · rw [hsum]
      positivity

/-- The compensation is not guarded. -/
theorem compensation_exactWindow (g : Geometry) :
    (exactWindow g).compensation = g.hop / (exactWindow g).weights.sum := by
  have hweights : (exactWindow g).compensation = hopGain g.hop (exactWindow g).weights := by
    rw [exactWindow, Window.ofShape]
    split <;> rfl
  have hhop : (2 : ℝ) ≤ g.hop := by exact_mod_cast g.two_le_hop
  rw [hweights, hopGain_real]
  rw [sum_exactWindow]
  split <;> linarith

/-! ## The discrete Fourier transform -/

/-- Forward and then inverse multiplies by the number of points. -/
def Transform.RoundTrip (t : Transform ℝ) (n : Nat) : Prop :=
  ∀ zs, zs.length = n → t.inverse (t.forward zs) = zs.map fun z => z.scale n

/-- A phasor as a complex number. -/
def Phasor.toComplex (z : Phasor ℝ) : ℂ := ⟨z.re, z.im⟩

/-- A complex number as a phasor. -/
def Phasor.ofComplex (z : ℂ) : Phasor ℝ := ⟨z.re, z.im⟩

theorem Phasor.ofComplex_natCast_mul (n : Nat) (z : Phasor ℝ) :
    ofComplex (n * z.toComplex) = z.scale n := by
  simp [toComplex, ofComplex, Phasor.scale, mul_comm]

namespace Transform

open Finset Phasor

/-- The sums of some samples, each turned by a power of a root. -/
noncomputable def turned (root : ℂ) (zs : List (Phasor ℝ)) : List (Phasor ℝ) :=
  (List.range zs.length).map fun k =>
    ofComplex (∑ j ∈ range zs.length, root ^ (j * k) * toComplex (zs.getD j 0))

theorem length_turned (root : ℂ) (zs : List (Phasor ℝ)) : (turned root zs).length = zs.length := by
  rw [turned, List.length_map, List.length_range]

/-- A transform has at each place the sum over the samples, turned by powers of the
root. -/
theorem toComplex_turned (root : ℂ) {zs : List (Phasor ℝ)} {k : Nat} (hk : k < zs.length) :
    toComplex ((turned root zs).getD k 0)
      = ∑ j ∈ range zs.length, root ^ (j * k) * toComplex (zs.getD j 0) := by
  have hin : k < (turned root zs).length := by rwa [length_turned]
  rw [List.getD_eq_getElem _ _ hin]
  simp only [turned, List.getElem_map, List.getElem_range]
  rfl

/-- The first root of one. -/
noncomputable def root (n : Nat) : ℂ := Complex.exp (2 * Real.pi * Complex.I / n)

/-- The discrete Fourier transform of any number of points, and the other direction of it. -/
noncomputable def fourier : Transform ℝ where
  forward := fun zs => turned (root zs.length)⁻¹ zs
  inverse := fun zs => turned (root zs.length) zs
  length_forward := fun zs => length_turned _ zs
  length_inverse := fun zs => length_turned _ zs

/-- The powers of two roots cancel, unless the roots are the same. -/
theorem sum_root_pow {n j l : Nat} (hj : j < n) (hl : l < n) :
    ∑ k ∈ range n, root n ^ (k * l) * (root n)⁻¹ ^ (j * k) = if j = l then (n : ℂ) else 0 := by
  have hroot : IsPrimitiveRoot (root n) n := Complex.isPrimitiveRoot_exp n (by omega)
  have hne : root n ≠ 0 := Complex.exp_ne_zero _
  have hpow : ∀ k, root n ^ (k * l) * (root n)⁻¹ ^ (j * k) = (root n ^ l / root n ^ j) ^ k := by
    intro k
    rw [div_pow, ← pow_mul, ← pow_mul, inv_pow, mul_comm k l, div_eq_mul_inv]
  rw [sum_congr rfl fun k _ => hpow k]
  split
  next heq =>
    rw [heq, div_self (pow_ne_zero _ hne)]
    simp
  next hdiff =>
    have hquotient : root n ^ l / root n ^ j ≠ 1 := by
      rw [Ne, div_eq_one_iff_eq (pow_ne_zero _ hne)]
      exact fun h => hdiff (hroot.pow_inj hl hj h).symm
    have hone : (root n ^ l / root n ^ j) ^ n = 1 := by
      rw [div_pow, ← pow_mul, ← pow_mul, mul_comm l, mul_comm j, pow_mul, pow_mul, hroot.pow_eq_one,
        one_pow, one_pow, div_one]
    rw [geom_sum_eq hquotient, hone, sub_self, zero_div]

/-- Turned back, each sample is there as often as there are points. -/
theorem turned_turned {zs : List (Phasor ℝ)} {l : Nat} (hl : l < zs.length) :
    toComplex ((turned (root zs.length) (turned (root zs.length)⁻¹ zs)).getD l 0)
      = zs.length * toComplex (zs.getD l 0) := by
  have hlength := length_turned (root zs.length)⁻¹ zs
  calc toComplex ((turned (root zs.length) (turned (root zs.length)⁻¹ zs)).getD l 0)
      = ∑ k ∈ range zs.length, root zs.length ^ (k * l)
          * toComplex ((turned (root zs.length)⁻¹ zs).getD k 0) := by
        rw [toComplex_turned _ (by rwa [hlength]), hlength]
    _ = ∑ k ∈ range zs.length, ∑ j ∈ range zs.length,
          root zs.length ^ (k * l) * (root zs.length)⁻¹ ^ (j * k) * toComplex (zs.getD j 0) := by
        refine sum_congr rfl fun k hk => ?_
        rw [toComplex_turned _ (mem_range.1 hk), mul_sum]
        simp only [mul_assoc]
    _ = ∑ j ∈ range zs.length,
          (if j = l then (zs.length : ℂ) else 0) * toComplex (zs.getD j 0) := by
        rw [sum_comm]
        refine sum_congr rfl fun j hj => ?_
        rw [← sum_mul, sum_root_pow (mem_range.1 hj) hl]
    _ = zs.length * toComplex (zs.getD l 0) := by simp [hl]

/-- The exact transform is inverted up to its length, whatever that is. -/
theorem roundTrip_fourier (n : Nat) : fourier.RoundTrip n := by
  rintro zs rfl
  refine List.ext_getElem (by simp [fourier.length_inverse, fourier.length_forward])
    fun l hl hl' => ?_
  have hlz : l < zs.length := by rwa [List.length_map] at hl'
  have hback : fourier.inverse (fourier.forward zs)
      = turned (root zs.length) (turned (root zs.length)⁻¹ zs) := by
    show turned (root (fourier.forward zs).length) (fourier.forward zs) = _
    rw [fourier.length_forward]
    rfl
  have hturned := turned_turned hlz
  rw [← hback, List.getD_eq_getElem _ _ hl, List.getD_eq_getElem _ _ hlz] at hturned
  rw [List.getElem_map, ← ofComplex_natCast_mul, ← hturned]
  rfl

end Transform

end Denoise
