import Denoise.Checked.Workspace
import Denoise.Proofs.Checked.Bins
import Denoise.Proofs.Shapes

/-!
# Work in place passes every check

Each operation of a workspace whose vectors fit, on a chain whose vectors have their
sizes, passes its checks and gives what it gives without them (`process_eq`, `train_eq`,
`advance_eq`).  A loop over bins is a loop over the states of its vectors, each of them
`written` up to the bin that comes next.
-/

namespace Denoise

namespace Checked

/-- A front that is written entry by entry is a front that is overwritten. -/
theorem written_eq_overwrite {α : Type} {new old : List α} {n : Nat} (hn : new.length = n)
    (h : n ≤ old.length) : written new old n = overwrite old new := by
  rw [written, overwrite, ← hn, List.take_length, List.take_of_length_le (by omega)]

/-! ## Transforms -/

section Transforms

variable {k : Kernel} {p : Plan} {frame buffer scratch : List Sample}

/-- A transform passes the checks on a buffer of its points and enough scratch. -/
theorem transform_eq {points : Nat}
    (run : List Sample → List Sample → List Sample × List Sample) (hpoints : points ≠ 0)
    (hbuffer : buffer.length = points) (hscratch : k.scratchLen points ≤ scratch.length) :
    transform k points run buffer scratch = .ok (run buffer scratch) := by
  rw [transform, rest_eq hpoints, ok_bind,
    if_pos ⟨Nat.le_of_eq hbuffer.symm, by rw [hbuffer, Nat.mod_self], hscratch⟩, pure_eq_ok]

theorem fftSize_ne_zero (g : Geometry) : g.fftSize ≠ 0 := by
  have := g.two_le_hop
  rw [Geometry.fftSize, Geometry.frameLen]
  omega

/-- A whole frame is windowed, padded and transformed within the buffers. -/
theorem analyze_eq {old : Spectral} (hframe : frame.length = p.geometry.frameLen)
    (hspectrum : old.spectrum.length = p.geometry.fftSize)
    (hmagnitudes : old.magnitudes.length = p.geometry.fftSize)
    (hscratch : k.scratchLen p.geometry.fftSize ≤ scratch.length) :
    analyze k p frame old scratch = .ok (k.analyze p frame old scratch) := by
  let new := List.zipWith Phasor.scale frame p.window.weights
  have hweights := p.length_weights
  have hnew : new.length = p.geometry.frameLen := by
    rw [List.length_zipWith, hframe, hweights, Nat.min_self]
  have hroom : p.geometry.frameLen ≤ old.spectrum.length := by
    rw [hspectrum, Geometry.fftSize]
    omega
  have hcount : min old.spectrum.length p.window.weights.length = p.geometry.frameLen := by
    rw [hweights]
    omega
  have hloop : forEach (fun i v => do put v i ((← get frame i).scale (← get p.window.weights i)))
      p.geometry.frameLen 0 old.spectrum = .ok (overwrite old.spectrum new) := by
    rw [← written_eq_overwrite hnew hroom]
    refine forEach_put (Nat.le_of_eq hnew.symm) hroom fun i hi hinew => ?_
    rw [get_eq (by omega), ok_bind, get_eq (by omega), ok_bind]
    simp only [new, List.getElem_zipWith]
  have hwritten : (overwrite old.spectrum new).length = p.geometry.fftSize :=
    (length_overwrite _ _).trans hspectrum
  simp only [analyze, require_eq (Nat.le_of_eq hframe.symm), require_eq hspectrum,
    require_eq hmagnitudes, ok_bind, hcount, hloop]
  rw [fill_eq (by omega) (Nat.le_refl _), ok_bind, List.drop_length, List.append_nil,
    transform_eq _ (fftSize_ne_zero _) ?_ hscratch, ok_bind]
  · simp only [Kernel.analyze, fillWith_eq, List.length_drop]
    rfl
  · rw [List.length_append, List.length_take, List.length_replicate]
    omega

theorem invert_eq (hbuffer : buffer.length = p.geometry.fftSize)
    (hscratch : k.scratchLen p.geometry.fftSize ≤ scratch.length) :
    invert k p buffer scratch = .ok (k.invert p buffer scratch) := by
  simp only [invert, require_eq hbuffer, ok_bind,
    transform_eq _ (fftSize_ne_zero _) hbuffer hscratch]
  rw [divisor_eq (fftSize_ne_zero _), ok_bind]
  rfl

/-- The front half of a frame and the tail make the hop, and the back half is the next
tail. -/
theorem overlapAdd_eq {g : Geometry} {tail out : List Sample} (scale : Float32)
    (htail : tail.length = g.hop) (hframe : frame.length = g.fftSize) (hout : out.length = g.hop) :
    overlapAdd g scale tail frame out
      = .ok ⟨overwrite out (Denoise.overlapAdd g.hop scale tail frame).out,
          (Denoise.overlapAdd g.hop scale tail frame).tail⟩ := by
  have hlen : g.frameLen = 2 * g.hop := rfl
  have hsize : g.fftSize = 2 * g.frameLen := rfl
  have htailLen : g.tailLen = g.hop := rfl
  have hnew : (Denoise.overlapAdd g.hop scale tail frame).out.length = g.hop :=
    (Chain.length_overlapAdd htail (by omega)).1
  have hloop : forEach (fun i out => do put out i ((tail.getD i 0 + (← get frame i)).scale scale))
      g.hop 0 out = .ok (overwrite out (Denoise.overlapAdd g.hop scale tail frame).out) := by
    rw [← written_eq_overwrite hnew (Nat.le_of_eq hout.symm)]
    refine forEach_put (Nat.le_of_eq hnew.symm) (Nat.le_of_eq hout.symm) fun i hi hinew => ?_
    have htailI : i < tail.length := by omega
    rw [get_eq (by omega), ok_bind, List.getD_eq_getElem?_getD, List.getElem?_eq_getElem htailI,
      Option.getD_some]
    simp only [Denoise.overlapAdd, List.getElem_zipWith, List.getElem_take,
      List.getElem_append_left htailI]
  simp only [overlapAdd, require_eq (show g.frameLen ≤ frame.length by omega),
    require_eq (show tail.length = g.tailLen from htail), require_eq (Nat.le_of_eq hout.symm),
    ok_bind, hloop]
  rw [slice_eq (by omega) (by omega), ok_bind, copyFrom_eq, ok_bind, pure_eq_ok]
  · congr 2
    rw [Denoise.overlapAdd, List.drop_take, hlen, htailLen, show 2 * g.hop - g.hop = g.hop by omega]
  · rw [List.length_drop, List.length_take]
    omega

end Transforms

section Profiles

variable {k : Kernel} {p : Plan} {w : Workspace}

/-! ## Sampling -/

/-- The frames of a stretch are summed, each cut from where the one before ends. -/
theorem addFrames_eq (hk : k.Computes p.numerics.transform) (hw : w.Fits k p.geometry)
    (samples : List Sample) (count j : Nat)
    (h : ∀ i, j ≤ i → i < j + count → i * p.geometry.frameLen ≤ samples.length) :
    addFrames k p samples count j w
      = .ok ((ProfileRules.wholeFrames p.geometry.frameLen count
          (samples.drop (j * p.geometry.frameLen))).foldl (Workspace.addFrame k p) w) := by
  induction count generalizing j w with
  | zero => rfl
  | succ count ih =>
    have hstart := h j (Nat.le_refl j) (by omega)
    have hlater : (j + 1) * p.geometry.frameLen = j * p.geometry.frameLen + p.geometry.frameLen :=
      Nat.succ_mul _ _
    simp only [addFrames, ProfileRules.wholeFrames]
    rw [minus_eq (by omega), ok_bind, List.length_drop]
    by_cases hshort : samples.length - j * p.geometry.frameLen < p.geometry.frameLen
    · rw [if_pos (by omega), if_pos hshort]
      rfl
    · have hstop : min (j * p.geometry.frameLen + p.geometry.frameLen) samples.length
          = j * p.geometry.frameLen + p.geometry.frameLen := by omega
      let frame := (samples.drop (j * p.geometry.frameLen)).take p.geometry.frameLen
      have hframe : frame.length = p.geometry.frameLen := by
        rw [List.length_take, List.length_drop]
        omega
      have hcut : (samples.take (j * p.geometry.frameLen + p.geometry.frameLen)).drop
          (j * p.geometry.frameLen) = frame := by
        rw [List.drop_take, Nat.add_sub_cancel_left]
      have hframes : ∀ f ∈ [frame], f.length = p.geometry.frameLen := by simpa using hframe
      have hnext : (Workspace.addFrame k p w frame).Fits k p.geometry :=
        (Workspace.sums_addFrame hk hw hframes).2.2
      rw [if_neg (by omega), if_neg hshort, hstop, slice_eq (by omega) (by omega), ok_bind, hcut,
        analyze_eq hframe hw.sampledSpectrum hw.sampledMagnitudes hw.scratch, ok_bind,
        List.foldl_cons, List.drop_drop, ← hlater]
      exact ih hnext (j + 1) fun i hi hlt => h i (by omega) (by omega)

theorem smooth_eq {wideband : Bool} {means out : List Float32} (h : means.length = out.length) :
    smooth wideband means out = .ok (overwrite out
      (if wideband then Denoise.movingAverage .float ProfileRules.sampleWidth means else means)) := by
  cases wideband with
  | true =>
    rw [smooth, if_pos rfl, if_pos rfl, movingAverage_eq h,
      overwrite_eq ((length_movingAverage _ _ _).trans h)]
  | false => rw [smooth, if_neg (by decide), if_neg (by decide), copyFrom_eq h.symm, overwrite_eq h]

theorem sample_eq (hk : k.Computes p.numerics.transform) (hw : w.Fits k p.geometry)
    (samples : List Sample) (profile : Profile) :
    sample k p samples profile w = .ok (w.sample k p samples profile) := by
  have hframeLen : p.geometry.frameLen ≠ 0 := Nat.ne_of_gt p.geometry.frameLen_pos
  have hcleared : ({ w with sums := fillWith 0 w.sums } : Workspace).Fits k p.geometry :=
    { hw with sums := by rw [fillWith_eq, List.length_replicate, hw.sums] }
  -- the loop does not begin a frame behind the end
  have hwithin : ∀ i, 0 ≤ i → i < 0 + max (min (samples.length / p.geometry.frameLen)
      p.geometry.noiseFrames) 1 → i * p.geometry.frameLen ≤ samples.length := by
    intro i _ hi
    have hwhole := Nat.div_mul_le_self samples.length p.geometry.frameLen
    rcases Nat.eq_zero_or_pos i with rfl | hpos
    · omega
    · exact Nat.le_trans (Nat.mul_le_mul_right _ (by omega)) hwhole
  have hframes : ∀ frame ∈ ProfileRules.wholeFrames p.geometry.frameLen (max (min (samples.length
      / p.geometry.frameLen) p.geometry.noiseFrames) 1) samples,
      frame.length = p.geometry.frameLen :=
    fun _ hframe => ProfileRules.length_of_mem_wholeFrames hframe
  obtain ⟨-, -, hfits⟩ := Workspace.sums_addFrame hk hcleared hframes
  simp only [sample, quotient_eq hframeLen, ok_bind, addFrames_eq hk hcleared samples _ 0 hwithin]
  rw [divisor_eq (by omega), ok_bind, smooth_eq, ok_bind, Nat.zero_mul, List.drop_zero]
  · rfl
  · rw [Nat.zero_mul, List.drop_zero, List.length_map, hfits.sums, hfits.smoothed]

/-! ## Refinement -/

theorem refineAudio_eq {r : ProfileRules} {profile : Profile} (hw : w.Fits k r.geometry)
    (hprofile : profile.Sized r.geometry.fftSize) :
    refineAudio r profile w = .ok (w.refineAudio r profile) := by
  have hnewest : ∀ row ∈ profile.history.reverse.take
      (max (min r.geometry.noiseFrames profile.history.length) 1), row.length = r.geometry.fftSize :=
    fun row hrow => hprofile.history row (List.mem_reverse.1 (List.mem_of_mem_take hrow))
  have hadded : ((profile.history.reverse.take
      (max (min r.geometry.noiseFrames profile.history.length) 1)).foldl addOnto
        (fillWith 0 w.sums)).length = r.geometry.fftSize := by
    rw [fillWith_eq, hw.sums, Workspace.foldl_addOnto _ _ List.length_replicate hnewest]
    exact length_foldl_zipWith _ _ _ List.length_replicate hnewest
  have hwritten : (Denoise.movingAverage .float ProfileRules.refineWidth
      (((profile.history.reverse.take (max (min r.geometry.noiseFrames profile.history.length)
        1)).foldl addOnto (fillWith 0 w.sums)).map fun x => ProfileRules.square (x *
          (1 / ofCount (max (min r.geometry.noiseFrames profile.history.length) 1))))).length
      = w.smoothed.length := by
    rw [length_movingAverage, List.length_map, hadded, hw.smoothed]
  simp only [refineAudio, Workspace.refineAudio]
  rw [divisor_eq (by omega), ok_bind, movingAverage_eq, ok_bind, overwrite_eq hwritten]
  · split <;> rfl
  · rw [List.length_map, hadded, hw.smoothed]

/-- What is gathered of bin `i` along some frames is entry `i` of what is gathered of
them. -/
theorem foldlM_get {α : Type} (f : α → Float32 → α) {bins i : Nat} (hi : i < bins)
    (frames : List (List Float32)) (start : List α) (hstart : start.length = bins)
    (hframes : ∀ frame ∈ frames, frame.length = bins)
    (hgathered : i < (frames.foldl (List.zipWith f) start).length) :
    frames.foldlM (fun m frame => do return f m (← get frame i)) (start[i])
      = (.ok (frames.foldl (List.zipWith f) start)[i] : Checked α) := by
  induction frames generalizing start with
  | nil => rfl
  | cons frame frames ih =>
    have hframe := hframes frame List.mem_cons_self
    have hstep : (List.zipWith f start frame).length = bins := by
      rw [List.length_zipWith, hstart, hframe, Nat.min_self]
    have hlater := ih (List.zipWith f start frame) hstep
      (fun frame hframe => hframes frame (List.mem_cons_of_mem _ hframe)) hgathered
    rw [List.foldlM_cons, get_eq (by omega), ok_bind, pure_eq_ok, ok_bind]
    simp only [List.getElem_zipWith] at hlater
    exact hlater

/-- The moments of every bin over the history. -/
def moments (bins : Nat) (history : List (List Float32)) : List ProfileRules.Moments :=
  history.foldl (List.zipWith ProfileRules.Moments.add) (List.replicate bins ⟨0, 0⟩)

/-- The moments of a bin are read from the frames at its index. -/
theorem momentsAt_eq {history : List (List Float32)} {bins i : Nat} (hi : i < bins)
    (hhistory : ∀ frame ∈ history, frame.length = bins) (hlt : i < (moments bins history).length) :
    momentsAt history i = .ok (moments bins history)[i] := by
  have hzero : (List.replicate bins (⟨0, 0⟩ : ProfileRules.Moments)).length = bins :=
    List.length_replicate
  have hgathered := foldlM_get ProfileRules.Moments.add hi history _ hzero hhistory hlt
  rwa [List.getElem_replicate] at hgathered

theorem measure_eq {g : Geometry} (hw : w.Fits k g) {history : List (List Float32)}
    (hhistory : ∀ frame ∈ history, frame.length = g.fftSize) (hsome : history.length ≠ 0) :
    measure g.fftSize history w = .ok (w.measure g.fftSize history) := by
  let spreads := ProfileRules.spreads g.fftSize history
  have hspreads : spreads.length = g.fftSize := ProfileRules.length_spreads hhistory
  let means := spreads.map ProfileRules.Spread.mean
  let deviations := spreads.map ProfileRules.Spread.deviation
  have hmeans : means.length = g.fftSize := by rw [List.length_map, hspreads]
  have hdeviations : deviations.length = g.fftSize := by rw [List.length_map, hspreads]
  let state (i : Nat) : Workspace := { w with
    means := written means w.means i
    deviations := written deviations w.deviations i }
  have hstep : ∀ i, 0 ≤ i → i < 0 + g.fftSize →
      measureAt history i (state i) = .ok (state (i + 1)) := by
    intro i _ hi
    have hi : i < g.fftSize := by omega
    have hmoments : i < (moments g.fftSize history).length := by
      rw [moments, length_foldl_zipWith _ _ _ List.length_replicate hhistory]
      exact hi
    have hspread : spreads[i] = (moments g.fftSize history)[i].spread history.length := by
      simp only [spreads, ProfileRules.spreads, List.getElem_map]
      rfl
    have hmean : means[i] = spreads[i].mean := List.getElem_map _
    have hdeviation : deviations[i] = spreads[i].deviation := List.getElem_map _
    have hmeanPut : put (state i).means i means[i] = .ok (state (i + 1)).means :=
      put_written (by omega) (by rw [hw.means]; exact hi)
    have hdeviationPut : put (state i).deviations i deviations[i] = .ok (state (i + 1)).deviations :=
      put_written (by omega) (by rw [hw.deviations]; exact hi)
    rw [hmean, hspread] at hmeanPut
    rw [hdeviation, hspread] at hdeviationPut
    simp only [ProfileRules.Moments.spread] at hmeanPut hdeviationPut
    simp only [measureAt]
    rw [momentsAt_eq hi hhistory hmoments, ok_bind, divisor_eq hsome, ok_bind, hmeanPut, ok_bind,
      hdeviationPut, ok_bind]
    rfl
  have hloop := forEach_eq (measureAt history) state hstep
  have hend : state (0 + g.fftSize) = w.measure g.fftSize history := by
    simp only [state, Nat.zero_add, written_eq_overwrite hmeans (Nat.le_of_eq hw.means.symm),
      written_eq_overwrite hdeviations (Nat.le_of_eq hw.deviations.symm)]
    rfl
  rwa [hend] at hloop

/-- The deviations outside the centre are gathered into their buffer. -/
theorem outside_eq {bins : Nat} {deviations : List Float32} (h : deviations.length = bins) :
    outside bins deviations = .ok (deviations.zipIdx.filterMap fun (deviation, i) =>
      if ProfileRules.inCentre bins i then none else some deviation) := by
  let state (i : Nat) : List Float32 := (deviations.take i).zipIdx.filterMap fun (deviation, i) =>
    if ProfileRules.inCentre bins i then none else some deviation
  have hstep : ∀ i, 0 ≤ i → i < 0 + bins →
      (do if ProfileRules.inCentre bins i then return state i
          else return state i ++ [← get deviations i]) = (.ok (state (i + 1)) : Checked _) := by
    intro i _ hi
    have hi : i < deviations.length := by omega
    have hnext : state (i + 1) = state i
        ++ (if ProfileRules.inCentre bins i then [] else [deviations[i]]) := by
      simp only [state]
      rw [List.take_succ_eq_append_getElem hi, List.zipIdx_append, List.filterMap_append,
        List.length_take, Nat.min_eq_left (Nat.le_of_lt hi), Nat.zero_add]
      congr 1
      split <;> simp [*]
    rw [hnext]
    split
    · rw [List.append_nil, pure_eq_ok]
    · rw [get_eq hi, ok_bind, pure_eq_ok]
  have hloop := forEach_eq (fun i ranked => do
    if ProfileRules.inCentre bins i then return ranked
    else return ranked ++ [← get deviations i]) state hstep
  simp only [state, Nat.zero_add] at hloop
  rw [← h, List.take_length, h] at hloop
  exact hloop

theorem select_eq {g : Geometry} (hw : w.Fits k g) : select g.fftSize w = .ok w.select := by
  let spreads := List.zipWith ProfileRules.Spread.mk w.means w.deviations
  let threshold := ProfileRules.trustedMargin
    * Denoise.percentile (Denoise.sorted w.outside) ProfileRules.trustedShare
  let trusted := spreads.zipIdx.map fun e =>
    ProfileRules.trusts threshold spreads.length e.1 e.2
  let sums := w.means.map ProfileRules.square
  have hspreads : spreads.length = g.fftSize := by
    rw [List.length_zipWith, hw.means, hw.deviations, Nat.min_self]
  have htrusted : trusted.length = g.fftSize := by
    rw [List.length_map, List.length_zipIdx, hspreads]
  have hsums : sums.length = g.fftSize := by rw [List.length_map, hw.means]
  let state (i : Nat) : Workspace := { w with
    ranked := Denoise.sorted w.outside
    trusted := written trusted w.trusted i
    sums := written sums w.sums i }
  have hstep : ∀ i, 0 ≤ i → i < 0 + g.fftSize →
      selectAt g.fftSize threshold i (state i) = .ok (state (i + 1)) := by
    intro i _ hi
    have hi : i < g.fftSize := by omega
    have hmeans : i < w.means.length := by rw [hw.means]; exact hi
    have hdeviations : i < w.deviations.length := by rw [hw.deviations]; exact hi
    have hofTrusted : trusted[i]
        = ProfileRules.trusts threshold g.fftSize ⟨w.means[i], w.deviations[i]⟩ i := by
      simp only [trusted, List.getElem_map, List.getElem_zipIdx, Nat.zero_add, hspreads]
      simp only [spreads, List.getElem_zipWith]
    have htrustedPut : put (state i).trusted i trusted[i] = .ok (state (i + 1)).trusted :=
      put_written (by omega) (by rw [hw.trusted]; exact hi)
    have hsumsPut : put (state i).sums i sums[i] = .ok (state (i + 1)).sums :=
      put_written (by omega) (by rw [hw.sums]; exact hi)
    have hofSums : sums[i] = ProfileRules.square w.means[i] := List.getElem_map _
    rw [hofTrusted] at htrustedPut
    rw [hofSums] at hsumsPut
    rw [selectAt, get_eq hmeans, ok_bind, get_eq hdeviations, ok_bind, htrustedPut, ok_bind,
      hsumsPut, ok_bind]
    rfl
  have hloop := forEach_eq (selectAt g.fftSize threshold) state hstep
  have hend : state (0 + g.fftSize) = w.select := by
    simp only [state, Nat.zero_add, written_eq_overwrite htrusted (Nat.le_of_eq hw.trusted.symm),
      written_eq_overwrite hsums (Nat.le_of_eq hw.sums.symm)]
    rfl
  have houtside : outside g.fftSize w.deviations = .ok w.outside := by
    rw [outside_eq hw.deviations, Workspace.outside, hw.deviations]
  simp only [select, houtside, ok_bind, percentile_eq]
  rwa [hend] at hloop

theorem refineWideband_eq {r : ProfileRules} {profile : Profile} (hw : w.Fits k r.geometry)
    (hprofile : profile.Sized r.geometry.fftSize) (hsome : profile.history.length ≠ 0) :
    refineWideband r profile w = .ok (w.refineWideband r profile) := by
  obtain ⟨hmeans, hdeviations, hmeasured⟩ := Workspace.measure_eq hw hprofile.history
  obtain ⟨-, -, hselected⟩ := Workspace.select_eq hmeasured
    (ProfileRules.length_spreads hprofile.history) hmeans hdeviations
  have hlengths := hselected.sums.trans hselected.trusted.symm
  rw [refineWideband, measure_eq hw hprofile.history hsome, ok_bind, select_eq hmeasured, ok_bind,
    fillUntrusted_eq hlengths, ok_bind, Workspace.refineWideband]
  cases hfilled : Denoise.fillUntrusted (w.measure r.geometry.fftSize profile.history).select.sums
      (w.measure r.geometry.fftSize profile.history).select.trusted with
  | none => rfl
  | some estimate =>
    have hlength : estimate.length
        = (w.measure r.geometry.fftSize profile.history).select.sums.length := by
      rw [length_fillUntrusted hfilled, hlengths, Nat.min_self]
    simp only [pure_eq_ok, overwrite_eq hlength]

/-- A refinement at any rate passes the checks, on a profile of the right sizes. -/
theorem refine_eq {r : ProfileRules} {profile : Profile} (hw : w.Fits k r.geometry)
    (hprofile : profile.Sized r.geometry.fftSize) (held : Bool) :
    refine r profile held w = .ok (w.refine r profile held) := by
  have hrecord := hprofile.record hw.magnitudes
  have hsome : (profile.record w.spectral.magnitudes).history.length ≠ 0 := by
    simp [Profile.record]
  rw [refine, Workspace.refine]
  split
  · rfl
  · split
    · rfl
    · split
      · exact refineWideband_eq hw hrecord hsome
      · exact refineAudio_eq hw hrecord

end Profiles

/-! ## Gains -/

section Gains

variable {k : Kernel} {p : Plan} {w : Workspace}

/-- Magnitudes of zero are filled in place.  The entry before is read where it was
written. -/
theorem entryAt_eq {magnitudes old : List Float32} (h : magnitudes.length = old.length) {i : Nat}
    (hi : i < (Gain.fillZeros none magnitudes).length) :
    entryAt magnitudes (written (Gain.fillZeros none magnitudes) old i) i
      = .ok (Gain.fillZeros none magnitudes)[i] := by
  have hlength := Gain.length_fillZeros none magnitudes
  have hmagnitudes : i < magnitudes.length := by omega
  rw [entryAt, get_eq hmagnitudes, ok_bind]
  cases i with
  | zero =>
    cases magnitudes with
    | nil => exact absurd hmagnitudes (Nat.not_lt_zero _)
    | cons m later => simp [Gain.fillZeros]
  | succ i =>
    have hgetD : magnitudes.getD (i + 1) 0 = magnitudes[i + 1] := by
      rw [List.getD_eq_getElem?_getD, List.getElem?_eq_getElem hmagnitudes, Option.getD_some]
    rw [Gain.getElem_fillZeros none magnitudes i hi, hgetD]
    by_cases hzero : magnitudes[i + 1] == 0
    · rw [if_pos (by rw [hzero]; simp), if_pos hzero, minus_eq (by omega), ok_bind,
        Nat.add_sub_cancel, get_written_new (Nat.lt_succ_self i) (by omega) (by omega) (by omega)]
    · rw [if_neg (by simp [hzero]), if_neg hzero, pure_eq_ok]

/-- The signal and its squares, written side by side. -/
theorem forEach_signalAt {magnitudes signal power : List Float32} {bins : Nat}
    (hmagnitudes : magnitudes.length = bins) (hsignal : signal.length = bins)
    (hpower : power.length = bins) :
    forEach (signalAt magnitudes) bins 0 ⟨signal, power⟩
      = .ok ⟨Gain.fillZeros none magnitudes,
          (Gain.fillZeros none magnitudes).map fun x => x * x⟩ := by
  let filled := Gain.fillZeros none magnitudes
  let squares := filled.map fun x => x * x
  have hfilled : filled.length = bins := (Gain.length_fillZeros _ _).trans hmagnitudes
  have hsquares : squares.length = bins := by rw [List.length_map, hfilled]
  let state (i : Nat) : Signal := ⟨written filled signal i, written squares power i⟩
  have hstep : ∀ i, 0 ≤ i → i < 0 + bins →
      signalAt magnitudes i (state i) = .ok (state (i + 1)) := by
    intro i _ hi
    have hi : i < filled.length := by omega
    have hentry : entryAt magnitudes (state i).signal i = .ok filled[i] :=
      entryAt_eq (hmagnitudes.trans hsignal.symm) hi
    have hput : put (state i).signal i filled[i] = .ok (state (i + 1)).signal :=
      put_written hi (by omega)
    have hget : get (state (i + 1)).signal i = .ok filled[i] :=
      get_written_new (Nat.lt_succ_self i) hi (by omega) (by omega)
    have hputSquare : put (state i).power i squares[i] = .ok (state (i + 1)).power :=
      put_written (by omega) (by omega)
    have hsquare : squares[i] = filled[i] * filled[i] := List.getElem_map _
    rw [hsquare] at hputSquare
    rw [signalAt, hentry, ok_bind, hput, ok_bind, hget, ok_bind, hputSquare, ok_bind]
    rfl
  have hloop := forEach_eq (signalAt magnitudes) state hstep
  simp only [state, Nat.zero_add, written_zero, written_all hfilled hsignal,
    written_all hsquares hpower] at hloop
  exact hloop

/-- The gain of a bin passes the clamps if the floor of the prior ratio is below its
ceiling. -/
theorem binOf_eq {m : Elementary} {floor : Float32} (hfloor : floor ≤ Gain.priorCeiling)
    (noise magnitude power : Float32) (clean : Option Float32) :
    binOf m floor noise magnitude power clean
      = .ok (Gain.binOf m floor noise magnitude power clean) := by
  simp only [binOf, clamp_eq hfloor, ok_bind, pure_eq_ok]

theorem length_binsOf (m : Elementary) (floor : Float32) {bins : Nat}
    {noise signal power : List Float32} {clean : List (Option Float32)}
    (hnoise : noise.length = bins) (hsignal : signal.length = bins) (hpower : power.length = bins)
    (hclean : clean.length = bins) :
    (Workspace.binsOf m floor noise signal power clean).length = bins := by
  induction noise generalizing bins signal power clean with
  | nil => rw [Workspace.binsOf.eq_2 _ _ _ _ _ _ (by simp)]; exact hnoise
  | cons y noise ih =>
    subst hnoise
    obtain ⟨x, signal, rfl⟩ := List.exists_cons_of_length_eq_add_one hsignal
    obtain ⟨z, power, rfl⟩ := List.exists_cons_of_length_eq_add_one hpower
    obtain ⟨c, clean, rfl⟩ := List.exists_cons_of_length_eq_add_one hclean
    rw [Workspace.binsOf, List.length_cons, List.length_cons,
      ih rfl (Nat.succ.inj hsignal) (Nat.succ.inj hpower) (Nat.succ.inj hclean)]

/-- The bins are computed one by one, each from its own entries. -/
theorem getElem_binsOf {m : Elementary} {floor : Float32} {noise signal power : List Float32}
    {clean : List (Option Float32)} {i : Nat} (hnoise : i < noise.length)
    (hsignal : i < signal.length) (hpower : i < power.length) (hclean : i < clean.length)
    (hi : i < (Workspace.binsOf m floor noise signal power clean).length) :
    (Workspace.binsOf m floor noise signal power clean)[i]
      = Gain.binOf m floor noise[i] signal[i] power[i] clean[i] := by
  induction i generalizing noise signal power clean with
  | zero =>
    obtain ⟨y, noise, rfl⟩ := List.exists_cons_of_length_pos hnoise
    obtain ⟨x, signal, rfl⟩ := List.exists_cons_of_length_pos hsignal
    obtain ⟨z, power, rfl⟩ := List.exists_cons_of_length_pos hpower
    obtain ⟨c, clean, rfl⟩ := List.exists_cons_of_length_pos hclean
    rfl
  | succ i ih =>
    obtain ⟨y, noise, rfl⟩ := List.exists_cons_of_length_pos (Nat.zero_lt_of_lt hnoise)
    obtain ⟨x, signal, rfl⟩ := List.exists_cons_of_length_pos (Nat.zero_lt_of_lt hsignal)
    obtain ⟨z, power, rfl⟩ := List.exists_cons_of_length_pos (Nat.zero_lt_of_lt hpower)
    obtain ⟨c, clean, rfl⟩ := List.exists_cons_of_length_pos (Nat.zero_lt_of_lt hclean)
    exact ih (Nat.lt_of_succ_lt_succ hnoise) (Nat.lt_of_succ_lt_succ hsignal)
      (Nat.lt_of_succ_lt_succ hpower) (Nat.lt_of_succ_lt_succ hclean) (Nat.lt_of_succ_lt_succ hi)

/-- The gains and the clean powers, written side by side. -/
theorem forEach_gainAt {m : Elementary} {floor : Float32} (hfloor : floor ≤ Gain.priorCeiling)
    {noise gains clean : List Float32} {s : Signal} {first : Bool} {past : List (Option Float32)}
    {bins : Nat} (hnoise : noise.length = bins) (hsignal : s.signal.length = bins)
    (hpower : s.power.length = bins) (hpast : past.length = bins) (hgains : gains.length = bins)
    (hclean : clean.length = bins)
    (hpastAt : ∀ i v, (hi : i < past.length) → get v i = get clean i →
      pastAt v first i = .ok past[i]) :
    let done := Workspace.binsOf m floor noise s.signal s.power past
    forEach (gainAt m floor noise s first) bins 0 ⟨gains, clean, 0⟩
      = .ok ⟨done.map Gain.Bin.gain, done.map Gain.Bin.clean,
          done.foldl (fun sum b => sum + widen b.likelihood) 0⟩ := by
  intro done
  have hdone : done.length = bins := length_binsOf m floor hnoise hsignal hpower hpast
  have hgain : (done.map Gain.Bin.gain).length = bins := by rw [List.length_map, hdone]
  have hpowers : (done.map Gain.Bin.clean).length = bins := by rw [List.length_map, hdone]
  let state (i : Nat) : Gaining :=
    ⟨written (done.map Gain.Bin.gain) gains i, written (done.map Gain.Bin.clean) clean i,
      (done.take i).foldl (fun sum b => sum + widen b.likelihood) 0⟩
  have hstep : ∀ i, 0 ≤ i → i < 0 + bins →
      gainAt m floor noise s first i (state i) = .ok (state (i + 1)) := by
    intro i _ hi
    have hidone : i < done.length := by omega
    have hbin : done[i] = _ := getElem_binsOf (by omega) (by omega) (by omega) (by omega) hidone
    have hgainPut : put (state i).gains i done[i].gain = .ok (state (i + 1)).gains := by
      have hput := @put_written _ (done.map Gain.Bin.gain) gains i (by omega) (by omega)
      rwa [List.getElem_map] at hput
    have hcleanPut : put (state i).clean i done[i].clean = .ok (state (i + 1)).clean := by
      have hput := @put_written _ (done.map Gain.Bin.clean) clean i (by omega) (by omega)
      rwa [List.getElem_map] at hput
    have hold : get (state i).clean i = get clean i := by
      rw [get_written_old (by omega) (by omega), get_eq]
    have hsum : (state (i + 1)).sum = (state i).sum + widen done[i].likelihood := by
      simp only [state]
      rw [List.take_succ_eq_append_getElem hidone, List.foldl_append]
      rfl
    rw [gainAt, get_eq (by omega), ok_bind, get_eq (by omega), ok_bind, get_eq (by omega), ok_bind,
      hpastAt i _ (by omega) hold, ok_bind, binOf_eq hfloor, ok_bind, ← hbin, hgainPut, ok_bind,
      hcleanPut, ok_bind, ← hsum]
    rfl
  have hloop := forEach_eq (gainAt m floor noise s first) state hstep
  simp only [state, Nat.zero_add, written_zero, written_all hgain hgains,
    written_all hpowers hclean] at hloop
  rw [List.take_of_length_le (Nat.le_of_eq hdone)] at hloop
  exact hloop

/-- The clean powers of the frame before, as they are read. -/
theorem pastAt_previous (memory : Gain.Memory) (bins : Nat) {v : List Float32} {i : Nat}
    (hi : i < (memory.previous bins).length)
    (hv : get v i = get (if (memory.clean.getD []).isEmpty then List.replicate bins 0
      else memory.clean.getD []) i) :
    pastAt v (memory.clean.getD []).isEmpty i = .ok (memory.previous bins)[i] := by
  obtain ⟨clean, tail, floor⟩ := memory
  cases clean with
  | none => simp [pastAt, Gain.Memory.previous]
  | some powers =>
    cases powers with
    | nil => simp [pastAt, Gain.Memory.previous]
    | cons x later =>
      have hlt : i < (x :: later).length := by simpa [Gain.Memory.previous] using hi
      have hget : get v i = .ok (x :: later)[i] := hv.trans (get_eq hlt)
      show (do return some (← get v i)) = _
      rw [hget, ok_bind, pure_eq_ok]
      exact congrArg Except.ok (List.getElem_map some).symm

theorem estimate_eq (hw : w.Fits k p.geometry) {memory : Gain.Memory} {noise gains : List Float32}
    (hmemory : memory.Sized p.geometry) (hfloor : memory.priorFloor ≤ Gain.priorCeiling)
    (hnoise : noise.length = p.geometry.fftSize) (hgains : gains.length = p.geometry.fftSize) :
    estimate p memory noise gains w = .ok (w.estimate p memory noise) := by
  have hframeLen : p.geometry.frameLen ≠ 0 := Nat.ne_of_gt p.geometry.frameLen_pos
  have hsignal : writeEach (Workspace.signalEntry w.spectral.magnitudes) w.signal
      = Gain.fillZeros none w.spectral.magnitudes :=
    writeEach_signal (hw.magnitudes.trans hw.signal.symm)
  have hfilled : (Gain.fillZeros none w.spectral.magnitudes).length = p.geometry.fftSize :=
    (Gain.length_fillZeros _ _).trans hw.magnitudes
  have hsquares : ((Gain.fillZeros none w.spectral.magnitudes).map fun x => x * x).length
      = p.geometry.fftSize := by rw [List.length_map, hfilled]
  have hclean : (if (memory.clean.getD []).isEmpty then List.replicate p.geometry.fftSize 0
      else memory.clean.getD []).length = p.geometry.fftSize := by
    split
    next => exact List.length_replicate
    next hsome =>
      cases hpowers : memory.clean with
      | none => simp [hpowers] at hsome
      | some powers => exact hmemory.clean powers hpowers
  have hloop := forEach_gainAt (m := p.numerics.elementary) hfloor (s := ⟨_, _⟩) hnoise hfilled
    hsquares hmemory.previous hgains hclean fun i v hi hv => pastAt_previous memory _ hi hv
  simp only [estimate, hw.signal]
  rw [require_eq hw.magnitudes, ok_bind, require_eq hnoise, ok_bind, require_eq hgains, ok_bind,
    forEach_signalAt hw.magnitudes hw.signal hw.power, ok_bind, hloop, ok_bind, divisor_eq hframeLen,
    ok_bind, pure_eq_ok]
  simp only [Workspace.estimate, hsignal, overwrite_eq (hsquares.trans hw.power.symm), hfilled]
  rfl

end Gains

/-! ## Chains -/

section Chains

variable {k : Kernel} {p : Plan} {w : Workspace}

/-- A step of a chain passes the checks. -/
theorem step_eq (hk : k.Computes p.numerics.transform) (hw : w.Fits k p.geometry)
    (hfloor : p.numerics.elementary.powerOfDb Gain.priorFloorDb ≤ Gain.priorCeiling) {c : Chain}
    (hc : c.Shaped p) {out : List Sample} (hout : out.length = p.geometry.hop) (held : Bool) :
    step k p held c out w = .ok (w.step k p held c out) := by
  have hrules : w.Fits k p.rules.geometry := hw
  have hmagnitudes := hw.magnitudes
  have hspectrum := hw.spectrum
  obtain ⟨hrefined, hkept, hfits⟩ := Workspace.refine_eq hrules hc.sized.profile held
  have hpower := (p.rules.refine_sized hc.sized.profile hmagnitudes held).power
  rw [← hrefined] at hpower
  rw [step, refine_eq hrules hc.sized.profile held, ok_bind, Workspace.step]
  generalize w.refine p.rules c.profile held = refined at *
  have hmemoryFloor : c.memory.priorFloor ≤ Gain.priorCeiling := by rwa [hc.priorFloor]
  obtain ⟨hestimated, -, hkept', hfits'⟩ :=
    Workspace.estimate_eq hfits c.memory refined.result.profile.power
  obtain ⟨hgains, -, hmemory⟩ := Gain.estimate_sized p.numerics.elementary p.geometry.frameLen
    hc.sized.memory hpower (hkept.spectral ▸ hmagnitudes)
  rw [← hestimated] at hgains hmemory
  rw [estimate_eq hfits hc.sized.memory hmemoryFloor hpower hc.sized.gains, ok_bind]
  generalize refined.workspace.estimate p c.memory refined.result.profile.power = estimated at *
  have hwork : (overwrite estimated.workspace.work (applyGains
      estimated.workspace.spectral.spectrum estimated.result.gains)).length = p.geometry.fftSize :=
    (length_overwrite _ _).trans hfits'.work
  obtain ⟨hinvert, -⟩ := hk.invert_eq hwork hfits'.scratch
  have hinverted : (k.invert p (overwrite estimated.workspace.work (applyGains
      estimated.workspace.spectral.spectrum estimated.result.gains)) estimated.workspace.scratch).1.length
      = p.geometry.fftSize := by
    rw [hinvert, Denoise.invert, List.length_map, p.numerics.transform.length_inverse, hwork]
  simp only [invert_eq hwork hfits'.scratch, ok_bind]
  rw [overlapAdd_eq _ hmemory.tail hinverted hout, ok_bind]
  rfl

/-- So does a frame that both chains hear. -/
theorem process_eq (hk : k.Computes p.numerics.transform) (hw : w.Fits k p.geometry)
    (hfloor : p.numerics.elementary.powerOfDb Gain.priorFloorDb ≤ Gain.priorCeiling) {c : ChainPair}
    (hc : c.Shaped p) : process k p c w = .ok (w.process k p c) := by
  obtain ⟨hanalyze, hscratch⟩ := hk.analyze_eq hw.frame hw.spectrum hw.magnitudes hw.scratch
  simp only [process, Workspace.process]
  rw [analyze_eq hw.frame hw.spectrum hw.magnitudes hw.scratch, ok_bind]
  simp only [hanalyze]
  generalize hanalyzed : ({ w with
    spectral := ⟨p.spectrum w.frame, p.magnitudes w.frame⟩
    scratch := (k.analyze p w.frame w.spectral w.scratch).2 } : Workspace) = analyzed
  have hspectral : analyzed.spectral = ⟨p.spectrum w.frame, p.magnitudes w.frame⟩ := by
    rw [← hanalyzed]
  have hfits : analyzed.Fits k p.geometry := by
    rw [← hanalyzed]
    exact { hw with
      scratch := Nat.le_trans hw.scratch (Nat.le_of_eq hscratch.symm)
      spectrum := p.length_spectrum hw.frame
      magnitudes := p.length_magnitudes hw.frame }
  obtain ⟨hheard, -, hafter⟩ := Workspace.step_eq hk hfits hspectral hc.active.sized hw.hop c.held
  rw [step_eq hk hfits hfloor hc.active hw.hop, ok_bind]
  generalize analyzed.step k p c.held c.active w.hop = heard at *
  have hhop : heard.result.hop.length = p.geometry.hop := by
    rw [hheard]
    exact (hc.active.sized.step (p.length_spectrum hw.frame) c.held).2
  have hbetween : ({ heard.workspace with hop := heard.result.hop } : Workspace).Fits k p.geometry :=
    { hafter with hop := hhop }
  rw [step_eq hk hbetween hfloor hc.candidate hafter.unheard, ok_bind]
  rfl

/-! ## The protocol -/

theorem train_eq (hk : k.Computes p.numerics.transform) (hw : w.Fits k p.geometry) (c : ChainPair) :
    train k p c w = .ok (w.train k p c) := by
  rw [train, sample_eq hk hw, ok_bind]
  rfl

theorem retrain_eq (hk : k.Computes p.numerics.transform) (hw : w.Fits k p.geometry)
    (trailing : Trailing Sample) (range : Float32) (c : ChainPair) :
    retrain k p trailing range c w = .ok (w.retrain k p trailing range c) := by
  have hrecent : ({ w with recent := trailing.recent p.geometry.demand } : Workspace).Fits k
      p.geometry := { hw with }
  simp only [retrain]
  rw [sample_eq hk hrecent, ok_bind]
  rfl

/-- So does every move of the protocol. -/
theorem advance_eq (hk : k.Computes p.numerics.transform) (hw : w.Fits k p.geometry)
    (activity : Nat → Float32) (trailing : Trailing Sample) (samples : Nat) (c : ChainPair) :
    advance k p activity trailing samples c w
      = .ok (w.advance k p activity trailing samples c) := by
  simp only [advance, Workspace.advance]
  split
  · rfl
  · cases c.phase with
    | steady =>
      simp only
      split
      · split
        · rfl
        · exact retrain_eq hk hw _ _ _
      · rfl
    | swapPending =>
      simp only
      split <;> rfl
    | uninitialized => rfl
    | training => rfl
    | retraining => rfl

end Chains

end Checked

end Denoise
