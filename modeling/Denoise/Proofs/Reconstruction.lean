import Denoise.Proofs.Exact
import Denoise.Proofs.Overlap

/-!
# Reconstruction

A stretch that is cut into frames, and put together again with gains of one
(`Window.reconstruct`), is the stretch again, but for a gain that has the period of the hop
(`unity_gain_reconstruction`).  Of the transforms it takes that forward and then inverse
multiplies by the number of points (`Transform.RoundTrip`), and of the arithmetic that it is
exact.

A frame comes back as it was weighted (`Window.returned_eq`): the gains do nothing, and the
share of a bin undoes the number of points.  A position past the first hop is in the back
half of one frame and in the front half of the next, so it has the sum of their two weights
(`gathered_returned`).  At a wideband rate the sum is two, and the scale half the gain
(`scale_of_wideband`).
-/

namespace Denoise

/-! ## There and back -/

section Pass

variable {K : Type}

/-- The whole frames of a stretch, a hop from one to the next. -/
def cut (g : Geometry) (xs : List (Phasor K)) : List (List (Phasor K)) :=
  (List.range (Batch.frameCount g xs.length)).map fun index =>
    (xs.drop (index * g.hop)).take g.frameLen

theorem frames_eq_cut (g : Geometry) (samples : List Sample) :
    Batch.frames g samples = cut g samples := rfl

variable [Zero K] [OfNat K 1] [Mul K] [Div K] [OfScientific K]

/-- A frame through analysis, gains of one, and the inverse transform. -/
def Window.returned (w : Window K) (t : Transform K) (g : Geometry) (frame : List (Phasor K)) :
    List (Phasor K) :=
  invert t (applyGains (w.analyze t g.fftSize frame) (List.replicate g.fftSize 1))

/-- A stretch through analysis, gains of one, and synthesis, from a tail of zeros. -/
def Window.reconstruct [Add K] (w : Window K) (t : Transform K) (g : Geometry) (gain : K)
    (xs : List (Phasor K)) : Overlapped K :=
  overlapAddAll g.hop (w.compensation * gain) (List.replicate g.tailLen 0)
    ((cut g xs).map (w.returned t g))

/-- It is the synthesis of a chain, with gains of one. -/
theorem synthesize_ones (p : Plan) (frame tail : List Sample) :
    Chain.synthesize p (p.spectrum frame) (List.replicate p.geometry.fftSize 1) tail
      = overlapAdd p.geometry.hop (p.window.compensation * p.settings.outputGain) tail
          (p.window.returned p.numerics.transform p.geometry frame) := rfl

end Pass

/-! ## A frame comes back -/

section Exact

variable {t : Transform ℝ} {g : Geometry} {w : Window ℝ}

theorem length_cut (g : Geometry) (xs : List (Phasor ℝ)) :
    (cut g xs).length = Batch.frameCount g xs.length := by
  rw [cut, List.length_map, List.length_range]

theorem length_of_mem_cut {xs frame : List (Phasor ℝ)} (h : frame ∈ cut g xs) :
    frame.length = g.frameLen := by
  obtain ⟨index, hindex, rfl⟩ := List.mem_map.1 h
  have hend := Batch.frame_end_le (List.mem_range.1 hindex)
  rw [List.length_take, List.length_drop]
  omega

theorem Phasor.scale_scale (z : Phasor ℝ) (a b : ℝ) : (z.scale a).scale b = z.scale (a * b) := by
  simp [Phasor.scale, mul_assoc]

theorem Phasor.scale_one (z : Phasor ℝ) : z.scale 1 = z := by
  simp [Phasor.scale]

theorem Phasor.scale_add_scale (z : Phasor ℝ) (a b : ℝ) :
    z.scale a + z.scale b = z.scale (a + b) := by
  show Phasor.mk _ _ = Phasor.mk _ _
  simp [mul_add]

theorem applyGains_ones {zs : List (Phasor ℝ)} {n : Nat} (h : zs.length = n) :
    applyGains zs (List.replicate n 1) = zs := by
  rw [applyGains]
  refine List.ext_getElem (by simp [h]) fun i _ _ => ?_
  simp [Phasor.scale_one]

/-- The share of a bin undoes the number of points. -/
theorem invert_forward {n : Nat} (roundTrip : t.RoundTrip n) (hpos : 0 < n) {zs : List (Phasor ℝ)}
    (hlength : zs.length = n) : invert t (t.forward zs) = zs := by
  have hshare : (n : ℝ) * (1.0 / n) = 1 := by
    rw [← mul_div_assoc, show (1.0 : ℝ) = 1 by norm_num, mul_one, div_self (by positivity)]
  rw [invert, roundTrip zs hlength, List.map_map, t.length_forward, hlength]
  refine List.map_id'' (fun z => ?_) _
  rw [Function.comp_apply, Phasor.scale_scale, ofCount_real, hshare, Phasor.scale_one]

theorem length_weighted (hweights : w.weights.length = g.frameLen) {frame : List (Phasor ℝ)}
    (hframe : frame.length = g.frameLen) :
    (List.zipWith Phasor.scale frame w.weights).length = g.frameLen := by
  rw [List.length_zipWith, hframe, hweights, Nat.min_self]

variable (roundTrip : t.RoundTrip g.fftSize) (hweights : w.weights.length = g.frameLen)

include roundTrip hweights

/-- A frame comes back as it was weighted and padded. -/
theorem Window.returned_eq {frame : List (Phasor ℝ)} (hframe : frame.length = g.frameLen) :
    w.returned t g frame = w.padded g.fftSize frame := by
  have hlength : (w.padded g.fftSize frame).length = g.fftSize := by
    rw [Window.padded, List.length_append, length_weighted hweights hframe, List.length_replicate,
      hweights, Geometry.fftSize]
    omega
  have hpos : 0 < g.fftSize := Nat.mul_pos Nat.zero_lt_two g.frameLen_pos
  rw [Window.returned, Window.analyze, applyGains_ones ((t.length_forward _).trans hlength),
    invert_forward roundTrip hpos hlength]

/-! ## The frames meet -/

open Overlap

/-- A sample of a frame that came back is the sample of the stretch, with the weight of its
index. -/
theorem sampleAt_returned {xs : List (Phasor ℝ)} {index i : Nat}
    (hindex : index < Batch.frameCount g xs.length) (hi : i < g.frameLen) :
    sampleAt ((cut g xs).map (w.returned t g)) (index, i)
      = (xs.getD (index * g.hop + i) 0).scale (w.weights.getD i 0) := by
  have hmem : (xs.drop (index * g.hop)).take g.frameLen ∈ cut g xs :=
    List.mem_map_of_mem (List.mem_range.2 hindex)
  have hframe := length_of_mem_cut hmem
  have hback := Window.returned_eq roundTrip hweights hframe
  have hend := Batch.frame_end_le hindex
  have hplace : ((cut g xs).map (w.returned t g)).getD index []
      = w.padded g.fftSize ((xs.drop (index * g.hop)).take g.frameLen) := by
    rw [← hback, cut]
    simp [hindex]
  have hin : i < (List.zipWith Phasor.scale ((xs.drop (index * g.hop)).take g.frameLen)
      w.weights).length := by
    rwa [length_weighted hweights hframe]
  have hsample : index * g.hop + i < xs.length := by omega
  have hweight : i < w.weights.length := by omega
  rw [sampleAt, hplace, Window.padded, List.getD_append _ _ _ _ hin, List.getD_eq_getElem _ _ hin,
    List.getElem_zipWith, List.getElem_take, List.getElem_drop, List.getD_eq_getElem _ _ hsample,
    List.getD_eq_getElem _ _ hweight]

/-- Past the first hop a position has the weights of both frames it is in. -/
theorem gathered_returned {xs : List (Phasor ℝ)} {pos : Nat}
    (hfirst : g.hop ≤ pos) (hlast : pos < Batch.frameCount g xs.length * g.hop) :
    gathered g ((cut g xs).map (w.returned t g)) pos
      = (xs.getD pos 0).scale
          (w.weights.getD (pos % g.hop) 0 + w.weights.getD (g.hop + pos % g.hop) 0) := by
  have hmod := Nat.mod_lt pos g.hop_pos
  have hpos := Nat.div_add_mod' pos g.hop
  have hcount := (Nat.div_lt_iff_lt_mul g.hop_pos).2 hlast
  obtain ⟨before, hbefore⟩ := Nat.exists_eq_add_one.2 (Nat.div_pos hfirst g.hop_pos)
  have hcarried : before * g.hop + (g.hop + pos % g.hop) = pos := by
    rw [hbefore, Nat.add_mul, Nat.one_mul] at hpos
    omega
  rw [gathered, carried, if_neg (Nat.not_lt.2 hfirst), Option.elim_some, fresh, hbefore,
    Nat.add_sub_cancel,
    sampleAt_returned roundTrip hweights (by omega) (by simp only [Geometry.frameLen]; omega),
    sampleAt_returned roundTrip hweights (by omega) (by simp only [Geometry.frameLen]; omega),
    hcarried, ← hbefore, hpos, Phasor.scale_add_scale, add_comm]

/-- Frames that came back, one after another. -/
theorem reconstruct_eq (gain : ℝ) (xs : List (Phasor ℝ)) :
    (w.reconstruct t g gain xs).out
      = (List.range (Batch.frameCount g xs.length * g.hop)).map fun pos =>
          (gathered g ((cut g xs).map (w.returned t g)) pos).scale (w.compensation * gain) := by
  have whole : ∀ frame ∈ (cut g xs).map (w.returned t g), g.frameLen ≤ frame.length := by
    intro frame hmem
    obtain ⟨piece, hpiece, rfl⟩ := List.mem_map.1 hmem
    rw [Window.returned_eq roundTrip hweights (length_of_mem_cut hpiece), Window.padded,
      List.length_append, length_weighted hweights (length_of_mem_cut hpiece)]
    exact Nat.le_add_right _ _
  rw [Window.reconstruct, overlapAddAll_eq g _ whole, List.length_map, length_cut]

/-- What a window makes of a stretch past the first hop. -/
theorem getElem?_reconstruct (gain : ℝ) {xs : List (Phasor ℝ)} {pos : Nat}
    (hfirst : g.hop ≤ pos) (hlast : pos < Batch.frameCount g xs.length * g.hop) :
    (w.reconstruct t g gain xs).out[pos]? = some ((xs.getD pos 0).scale (w.compensation * gain
      * (w.weights.getD (pos % g.hop) 0 + w.weights.getD (g.hop + pos % g.hop) 0))) := by
  rw [reconstruct_eq roundTrip hweights, List.getElem?_map, List.getElem?_range hlast,
    Option.map_some, gathered_returned roundTrip hweights hfirst hlast, Phasor.scale_scale,
    mul_comm]

end Exact

/-! ## The whole stretch -/

/-- At a wideband rate the weights of two frames are two, and the compensation is a half. -/
theorem scale_of_wideband {g : Geometry} (hwide : g.wideband = true) (gain : ℝ) {i : Nat}
    (hi : i < g.hop) :
    (exactWindow g).compensation * gain
      * ((exactWindow g).weights.getD i 0 + (exactWindow g).weights.getD (g.hop + i) 0) = gain := by
  have hhop : (g.hop : ℝ) ≠ 0 := Nat.cast_ne_zero.2 g.hop_pos.ne'
  rw [compensation_exactWindow, sum_exactWindow, if_pos hwide, weights_of_wideband hwide,
    List.getD_replicate _ (by simp only [Geometry.frameLen]; omega),
    List.getD_replicate _ (by simp only [Geometry.frameLen]; omega)]
  field_simp
  ring

/-- Any stretch at any geometry and gain, with gains of one on every bin.

Past the first hop each sample comes out where it went in, times the scale and the weights
of the two frames it was in.  The scale is the gain times the hop over the sum of the
weights.  At a wideband rate that is the gain alone. -/
theorem unity_gain_reconstruction (g : Geometry) (gain : ℝ) {t : Transform ℝ}
    (roundTrip : t.RoundTrip g.fftSize) (xs : List (Phasor ℝ)) :
    let weights := (exactWindow g).weights
    let scale := gain * g.hop / weights.sum
    let out := ((exactWindow g).reconstruct t g gain xs).out
    let count := Batch.frameCount g xs.length
    out.length = count * g.hop
      ∧ ∀ pos, g.hop ≤ pos → pos < count * g.hop → ∃ x, xs[pos]? = some x
          ∧ out[pos]? = some (x.scale
              (scale * (weights.getD (pos % g.hop) 0 + weights.getD (g.hop + pos % g.hop) 0)))
          ∧ (g.wideband = true → out[pos]? = some (x.scale gain)) := by
  intro weights scale out count
  have hweights := length_exactWindow g
  have hscale : scale = (exactWindow g).compensation * gain := by
    rw [compensation_exactWindow]
    ring
  refine ⟨?_, fun pos hfirst hlast => ?_⟩
  · simp only [out, reconstruct_eq roundTrip hweights, List.length_map, List.length_range, count]
  · have hout := getElem?_reconstruct roundTrip hweights gain hfirst hlast
    have hle : count * g.hop ≤ xs.length := Batch.frameCount_mul_le g xs.length
    have hpos : pos < xs.length := by omega
    rw [List.getD_eq_getElem _ _ hpos] at hout
    refine ⟨xs[pos], List.getElem?_eq_getElem hpos, ?_, fun hwide => ?_⟩
    · rw [hscale]
      exact hout
    · rw [hout, scale_of_wideband hwide gain (Nat.mod_lt _ g.hop_pos)]

/-- Eight samples, by the Fourier transform of eight points, with a Hann window and with
equal weights. -/
theorem unity_gain_reconstruction_specimen :
    let wide : Geometry := { Specimen.geometry with wideband := true }
    let xs : List (Phasor ℝ) := [⟨1, 0⟩, ⟨2, 0⟩, ⟨3, 0⟩, ⟨4, -1⟩, ⟨5, 0⟩, ⟨6, 2⟩, ⟨7, 0⟩, ⟨8, 0⟩]
    Transform.fourier.RoundTrip 8
      ∧ ((exactWindow Specimen.geometry).reconstruct .fourier Specimen.geometry 3 xs).out.length = 6
      ∧ ((exactWindow wide).reconstruct .fourier wide 3 xs).out[5]? = some ⟨6 * 3, 2 * 3⟩ := by
  intro wide xs
  obtain ⟨hlength, -⟩ :=
    unity_gain_reconstruction Specimen.geometry 3 (Transform.roundTrip_fourier 8) xs
  obtain ⟨-, hout⟩ := unity_gain_reconstruction wide 3 (Transform.roundTrip_fourier 8) xs
  obtain ⟨x, hx, -, hwide⟩ := hout 5 (by decide) (by decide)
  obtain rfl : ⟨6, 2⟩ = x := Option.some.inj hx
  exact ⟨Transform.roundTrip_fourier 8, hlength.trans (by decide), hwide rfl⟩

end Denoise
