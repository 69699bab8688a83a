import Denoise.Workspace
import Denoise.Proofs.Sizes

/-!
# Work in place gives the same

The operations of a workspace give what the chains compute, whatever its vectors hold
(`Workspace.process_eq`, `Workspace.train_eq`, `Workspace.advance_eq`).  All that counts
is that the vectors have their lengths, which `Workspace.Fits` says, and that the
kernel computes the transforms of the plan.

Every vector that is read was written before, over its whole length, so each lemma
here comes down to `overwrite_eq`.  Two passes need more.  The signal reads the entry
that it wrote last (`writeEach_signal`), and the sums are added to in turn, which
starts from zero (`Workspace.sums_addFrame`).
-/

namespace Denoise

/-! ## Vectors -/

section Vectors

variable {α : Type}

theorem overwrite_eq {old new : List α} (h : new.length = old.length) : overwrite old new = new := by
  rw [overwrite, h, List.drop_length, List.append_nil, ← h, List.take_length]

theorem length_overwrite (old new : List α) : (overwrite old new).length = old.length := by
  rw [overwrite, List.length_append, List.length_take, List.length_drop]
  omega

/-- The front of a longer vector fills a shorter one. -/
theorem overwrite_of_le {old new : List α} (h : old.length ≤ new.length) :
    overwrite old new = new.take old.length := by
  rw [overwrite, List.drop_of_length_le h, List.append_nil]

/-- A shorter list is the front of what it was written over. -/
theorem take_overwrite {old new : List α} {n : Nat} (hn : new.length = n) (h : n ≤ old.length) :
    (overwrite old new).take n = new := by
  rw [overwrite, List.take_of_length_le (Nat.le_trans (Nat.le_of_eq hn) h), ← hn, List.take_left]

theorem fillWith_eq (x : α) (old : List α) : fillWith x old = List.replicate old.length x :=
  List.map_const' ..

theorem addOnto_eq [Add α] {old more : List α} (h : more.length = old.length) :
    addOnto old more = List.zipWith (· + ·) old more := by
  rw [addOnto, h, List.drop_length, List.append_nil]

/-- A pass whose entries are those of a list, as long as all before it are, gives the
list. -/
theorem writeEach_eq {entry : Nat → List α → α} {old list : List α} (h : list.length = old.length)
    (hentry : ∀ i v, (hi : i < list.length) → v.length = list.length → v.take i = list.take i →
      entry i v = list[i]) : writeEach entry old = list := by
  have hfront : ∀ n ≤ list.length,
      ((List.range n).foldl (fun v i => v.set i (entry i v)) old).length = list.length
        ∧ ((List.range n).foldl (fun v i => v.set i (entry i v)) old).take n = list.take n := by
    intro n
    induction n with
    | zero => exact fun _ => ⟨h.symm, rfl⟩
    | succ n ih =>
      intro hn
      obtain ⟨hlength, htake⟩ := ih (Nat.le_of_succ_le hn)
      rw [List.range_succ, List.foldl_append, List.foldl_cons, List.foldl_nil,
        hentry n _ hn hlength htake]
      refine ⟨by rw [List.length_set, hlength], ?_⟩
      rw [List.take_succ_eq_append_getElem (by rw [List.length_set, hlength]; exact hn),
        List.take_set_of_le (Nat.le_refl n), htake, List.getElem_set_self,
        List.take_succ_eq_append_getElem hn]
  obtain ⟨hlength, htake⟩ := hfront list.length (Nat.le_refl _)
  rw [writeEach, ← h]
  rwa [List.take_of_length_le (Nat.le_of_eq hlength), List.take_length] at htake

end Vectors

/-- A filled entry is the magnitude, or the filled entry before it. -/
theorem Gain.getElem_fillZeros (left : Option Float32) (xs : List Float32) (i : Nat)
    (hi : i + 1 < (fillZeros left xs).length) :
    (fillZeros left xs)[i + 1] = if xs.getD (i + 1) 0 == 0 then (fillZeros left xs)[i]
      else xs.getD (i + 1) 0 := by
  induction xs generalizing left i with
  | nil => exact absurd hi (Nat.not_lt_zero _)
  | cons x xs ih =>
    cases i with
    | zero =>
      cases xs with
      | nil => simp [fillZeros] at hi
      | cons y xs => simp [fillZeros]
    | succ i =>
      simp only [fillZeros, List.getElem_cons_succ, List.getD_cons_succ]
      exact ih _ i (by simpa [fillZeros] using hi)

/-- The pass over the signal fills the zeros of the magnitudes. -/
theorem writeEach_signal {magnitudes old : List Float32} (h : magnitudes.length = old.length) :
    writeEach (Workspace.signalEntry magnitudes) old = Gain.fillZeros none magnitudes := by
  have hlength := Gain.length_fillZeros none magnitudes
  apply writeEach_eq (hlength.trans h)
  intro i v hi hv htake
  cases i with
  | zero =>
    cases magnitudes with
    | nil => exact absurd hi (Nat.not_lt_zero _)
    | cons m ms => simp [Workspace.signalEntry, Gain.fillZeros]
  | succ i =>
    have hlast : v.getD i 0 = (Gain.fillZeros none magnitudes)[i] := by
      have hget := congrArg (fun list => list[i]?) htake
      simp only [List.getElem?_take_of_lt (Nat.lt_succ_self i)] at hget
      rw [List.getD_eq_getElem?_getD, hget, List.getElem?_eq_getElem (by omega), Option.getD_some]
    rw [Gain.getElem_fillZeros none magnitudes i hi, ← hlast]
    simp [Workspace.signalEntry]

/-- The bins of a signal and its squares. -/
theorem binsOf_square (m : Elementary) (floor : Float32) (noise signal : List Float32)
    (clean : List (Option Float32)) :
    Workspace.binsOf m floor noise signal (signal.map fun x => x * x) clean
      = Gain.bins m floor noise signal clean := by
  induction noise generalizing signal clean with
  | nil => cases signal <;> cases clean <;> rfl
  | cons y noise ih =>
    cases signal with
    | nil => cases clean <;> rfl
    | cons x signal =>
      cases clean with
      | nil => rfl
      | cons c clean =>
        rw [List.map_cons, Workspace.binsOf, ih, Gain.bins, Gain.bin]

/-! ## Transforms -/

namespace Kernel.Computes

variable {k : Kernel} {p : Plan}

/-- A frame in the buffer of a spectrum, all of which is written. -/
theorem analyze_eq (hk : k.Computes p.numerics.transform) {frame scratch : List Sample}
    {old : Spectral} (hframe : frame.length = p.geometry.frameLen)
    (hspectrum : old.spectrum.length = p.geometry.fftSize)
    (hmagnitudes : old.magnitudes.length = p.geometry.fftSize)
    (hscratch : k.scratchLen p.geometry.fftSize ≤ scratch.length) :
    (k.analyze p frame old scratch).1 = ⟨p.spectrum frame, p.magnitudes frame⟩
      ∧ (k.analyze p frame old scratch).2.length = scratch.length := by
  have hweighted : (List.zipWith Phasor.scale frame p.window.weights).length
      = p.geometry.frameLen := by
    rw [List.length_zipWith, hframe, p.length_weights, Nat.min_self]
  have hle : p.geometry.frameLen ≤ old.spectrum.length := by
    rw [hspectrum, Geometry.fftSize]
    omega
  have hpadded : (overwrite old.spectrum (List.zipWith Phasor.scale frame p.window.weights)).take
        p.geometry.frameLen
      ++ fillWith 0 ((overwrite old.spectrum
        (List.zipWith Phasor.scale frame p.window.weights)).drop p.geometry.frameLen)
      = p.window.padded p.geometry.fftSize frame := by
    rw [fillWith_eq, List.length_drop, length_overwrite, hspectrum, take_overwrite hweighted hle,
      Window.padded, p.length_weights]
  have hlength : (p.window.padded p.geometry.fftSize frame).length = p.geometry.fftSize := by
    have hforward := p.numerics.transform.length_forward (p.window.padded p.geometry.fftSize frame)
    exact hforward.symm.trans (p.length_spectrum hframe)
  obtain ⟨hforward, hkept⟩ := hk.forward (p.window.padded p.geometry.fftSize frame) scratch
    (by rwa [hlength])
  have hwritten : overwrite old.magnitudes (p.magnitudes frame) = p.magnitudes frame :=
    overwrite_eq ((p.length_magnitudes hframe).trans hmagnitudes.symm)
  simp only [analyze, hpadded, hforward, hkept, and_true]
  exact congrArg (Spectral.mk (p.spectrum frame)) hwritten

/-- In scratch that is long enough, a spectrum is transformed back as it is elsewhere. -/
theorem invert_eq (hk : k.Computes p.numerics.transform) {buffer scratch : List Sample}
    (hbuffer : buffer.length = p.geometry.fftSize)
    (hscratch : k.scratchLen p.geometry.fftSize ≤ scratch.length) :
    (k.invert p buffer scratch).1 = Denoise.invert p.numerics.transform buffer
      ∧ (k.invert p buffer scratch).2.length = scratch.length := by
  obtain ⟨hinverse, hkept⟩ := hk.inverse buffer scratch (by rwa [hbuffer])
  simp only [Kernel.invert, Denoise.invert, hinverse, hkept, hbuffer, and_true]

end Kernel.Computes

/-! ## Lengths -/

/-- The vectors that are written entry by entry have the lengths of a geometry. -/
structure Workspace.Fits (k : Kernel) (g : Geometry) (w : Workspace) : Prop where
  scratch : k.scratchLen g.fftSize ≤ w.scratch.length
  spectrum : w.spectral.spectrum.length = g.fftSize
  magnitudes : w.spectral.magnitudes.length = g.fftSize
  work : w.work.length = g.fftSize
  signal : w.signal.length = g.fftSize
  power : w.power.length = g.fftSize
  sampledSpectrum : w.sampled.spectrum.length = g.fftSize
  sampledMagnitudes : w.sampled.magnitudes.length = g.fftSize
  sums : w.sums.length = g.fftSize
  smoothed : w.smoothed.length = g.fftSize
  means : w.means.length = g.fftSize
  deviations : w.deviations.length = g.fftSize
  trusted : w.trusted.length = g.fftSize
  unheard : w.unheard.length = g.hop
  frame : w.frame.length = g.frameLen
  hop : w.hop.length = g.hop

/-- A workspace with the frame and the hop of another. -/
structure Workspace.Keeps (w w' : Workspace) : Prop where
  spectral : w'.spectral = w.spectral
  hop : w'.hop = w.hop

namespace Workspace

variable {k : Kernel} {p : Plan} {w : Workspace}

/-- Every buffer of a fresh workspace has its length. -/
theorem fresh_fits (k : Kernel) (g : Geometry) : (fresh k g).Fits k g := by
  constructor <;> simp [fresh]

/-! ## Profiles -/

/-- The sums grow by the magnitudes of each frame.  The staged block is not touched. -/
theorem sums_addFrame (hk : k.Computes p.numerics.transform) (hw : w.Fits k p.geometry)
    {frames : List (List Sample)} (hframes : ∀ frame ∈ frames, frame.length = p.geometry.frameLen) :
    (frames.foldl (addFrame k p) w).sums
        = (frames.map p.magnitudes).foldl (List.zipWith (· + ·)) w.sums
      ∧ (frames.foldl (addFrame k p) w).staged = w.staged
      ∧ (frames.foldl (addFrame k p) w).Fits k p.geometry := by
  induction frames generalizing w with
  | nil => exact ⟨rfl, rfl, hw⟩
  | cons frame frames ih =>
    have hframe := hframes frame List.mem_cons_self
    obtain ⟨hanalyze, hscratch⟩ := hk.analyze_eq hframe hw.sampledSpectrum hw.sampledMagnitudes
      hw.scratch
    have hmagnitudes := p.length_magnitudes hframe
    have hsums : (addFrame k p w frame).sums = List.zipWith (· + ·) w.sums (p.magnitudes frame) := by
      simp only [addFrame, hanalyze]
      exact addOnto_eq (hmagnitudes.trans hw.sums.symm)
    have hfits : (addFrame k p w frame).Fits k p.geometry :=
      { hw with
        scratch := by
          simp only [addFrame, hscratch]
          exact hw.scratch
        sampledSpectrum := by
          simp only [addFrame, hanalyze]
          exact p.length_spectrum hframe
        sampledMagnitudes := by
          simp only [addFrame, hanalyze]
          exact hmagnitudes
        sums := by rw [hsums, List.length_zipWith, hw.sums, hmagnitudes, Nat.min_self] }
    obtain ⟨hsums', hstaged, hfits'⟩ := ih hfits fun f hf => hframes f (List.mem_cons_of_mem _ hf)
    refine ⟨?_, hstaged, hfits'⟩
    rw [List.foldl_cons, hsums', hsums, List.map_cons, List.foldl_cons]

/-- A profile sampled on the workspace is the one sampled elsewhere, whatever the buffers
held. -/
theorem sample_eq (hk : k.Computes p.numerics.transform) (hw : w.Fits k p.geometry)
    (samples : List Sample) (profile : Profile) :
    (w.sample k p samples profile).result = p.sampleProfile samples profile
      ∧ (w.sample k p samples profile).workspace.staged = w.staged
      ∧ (w.sample k p samples profile).workspace.Fits k p.geometry := by
  let count := max (min (samples.length / p.geometry.frameLen) p.geometry.noiseFrames) 1
  let frames := ProfileRules.wholeFrames p.geometry.frameLen count samples
  have hframes : ∀ frame ∈ frames, frame.length = p.geometry.frameLen :=
    fun frame hframe => ProfileRules.length_of_mem_wholeFrames hframe
  have hcleared : ({ w with sums := fillWith 0 w.sums } : Workspace).Fits k p.geometry :=
    { hw with sums := by rw [fillWith_eq, List.length_replicate, hw.sums] }
  obtain ⟨hsums, hstaged, hfits⟩ := sums_addFrame hk hcleared hframes
  let added := frames.foldl (addFrame k p) { w with sums := fillWith 0 w.sums }
  let share : Float32 := 1 / ofCount count
  have hmeans : added.sums.map (· * share)
      = (ProfileRules.sumFrames p.geometry.fftSize (frames.map p.magnitudes)).map (· * share) := by
    rw [hsums, fillWith_eq, hw.sums, ProfileRules.sumFrames]
  have hestimate : (if p.geometry.wideband then
      movingAverage .float ProfileRules.sampleWidth (added.sums.map (· * share))
        else added.sums.map (· * share)).length = added.smoothed.length := by
    rw [hfits.smoothed]
    split
    · rw [length_movingAverage, List.length_map, hfits.sums]
    · rw [List.length_map, hfits.sums]
  have hsquares := congrArg (List.map ProfileRules.square) (overwrite_eq hestimate)
  refine ⟨?_, hstaged, { hfits with sums := ?_, smoothed := ?_ }⟩
  · refine (congrArg (Profile.adopt { profile with history := [] }) hsquares).trans ?_
    rw [hmeans]
    rfl
  · exact (List.length_map _).trans hfits.sums
  · exact (List.length_map _).trans ((length_overwrite _ _).trans hfits.smoothed)

/-! ### Refinement -/

theorem foldl_addOnto {n : Nat} (rows : List (List Float32)) (start : List Float32)
    (hstart : start.length = n) (hrows : ∀ row ∈ rows, row.length = n) :
    rows.foldl addOnto start = rows.foldl (List.zipWith (· + ·)) start := by
  induction rows generalizing start with
  | nil => rfl
  | cons row rows ih =>
    have hrow := hrows row List.mem_cons_self
    rw [List.foldl_cons, List.foldl_cons, addOnto_eq (hrow.trans hstart.symm)]
    refine ih _ ?_ fun r hr => hrows r (List.mem_cons_of_mem _ hr)
    rw [List.length_zipWith, hstart, hrow, Nat.min_self]

theorem refineAudio_eq {r : ProfileRules} {profile : Profile} (hw : w.Fits k r.geometry)
    (hprofile : profile.Sized r.geometry.fftSize) :
    (w.refineAudio r profile).result = r.refineAudio profile
      ∧ w.Keeps (w.refineAudio r profile).workspace
      ∧ (w.refineAudio r profile).workspace.Fits k r.geometry := by
  let recent := max (min r.geometry.noiseFrames profile.history.length) 1
  let share : Float32 := 1 / ofCount recent
  let newest := profile.history.reverse.take recent
  have hnewest : ∀ row ∈ newest, row.length = r.geometry.fftSize :=
    fun row hrow => hprofile.history row (List.mem_reverse.1 (List.mem_of_mem_take hrow))
  have hadded : newest.foldl addOnto (fillWith 0 w.sums)
      = ProfileRules.sumFrames r.geometry.fftSize newest := by
    rw [fillWith_eq, hw.sums, foldl_addOnto newest _ List.length_replicate hnewest,
      ProfileRules.sumFrames]
  have hsmoothed : overwrite w.smoothed (movingAverage .float ProfileRules.refineWidth
      ((newest.foldl addOnto (fillWith 0 w.sums)).map fun x => ProfileRules.square (x * share)))
      = r.audioEstimate profile.history := by
    rw [hadded]
    exact overwrite_eq ((ProfileRules.length_audioEstimate hprofile.history).trans
      hw.smoothed.symm)
  have hfits : ({ w with
      sums := (newest.foldl addOnto (fillWith 0 w.sums)).map fun x =>
        ProfileRules.square (x * share)
      smoothed := r.audioEstimate profile.history } : Workspace).Fits k r.geometry :=
    { hw with
      sums := by rw [List.length_map, hadded, ProfileRules.length_sumFrames hnewest]
      smoothed := ProfileRules.length_audioEstimate hprofile.history }
  simp only [refineAudio, ProfileRules.refineAudio]
  rw [hsmoothed]
  split
  · exact ⟨rfl, ⟨rfl, rfl⟩, hfits⟩
  · exact ⟨rfl, ⟨rfl, rfl⟩, hfits⟩

theorem measure_eq {g : Geometry} (hw : w.Fits k g) {history : List (List Float32)}
    (hhistory : ∀ magnitudes ∈ history, magnitudes.length = g.fftSize) :
    (w.measure g.fftSize history).means
        = (ProfileRules.spreads g.fftSize history).map ProfileRules.Spread.mean
      ∧ (w.measure g.fftSize history).deviations
        = (ProfileRules.spreads g.fftSize history).map ProfileRules.Spread.deviation
      ∧ (w.measure g.fftSize history).Fits k g := by
  have hspreads := ProfileRules.length_spreads hhistory
  have hmeans : (w.measure g.fftSize history).means
      = (ProfileRules.spreads g.fftSize history).map ProfileRules.Spread.mean :=
    overwrite_eq (by rw [List.length_map, hspreads, hw.means])
  have hdeviations : (w.measure g.fftSize history).deviations
      = (ProfileRules.spreads g.fftSize history).map ProfileRules.Spread.deviation :=
    overwrite_eq (by rw [List.length_map, hspreads, hw.deviations])
  refine ⟨hmeans, hdeviations, { hw with means := ?_, deviations := ?_ }⟩
  · rw [hmeans, List.length_map, hspreads]
  · rw [hdeviations, List.length_map, hspreads]

/-- The deviations outside of the centre are ranked where they were written. -/
theorem outside_eq {ss : List ProfileRules.Spread}
    (h : w.deviations = ss.map ProfileRules.Spread.deviation) :
    w.outside = ss.zipIdx.filterMap fun (s, i) =>
      if ProfileRules.inCentre ss.length i then none else some s.deviation := by
  rw [outside, h, List.length_map, List.zipIdx_map, List.filterMap_map]
  rfl

theorem select_eq {g : Geometry} (hw : w.Fits k g) {ss : List ProfileRules.Spread}
    (hlength : ss.length = g.fftSize) (hmeans : w.means = ss.map ProfileRules.Spread.mean)
    (hdeviations : w.deviations = ss.map ProfileRules.Spread.deviation) :
    w.select.trusted = ProfileRules.trustedBins ss
      ∧ w.select.sums = ss.map (fun s => ProfileRules.square s.mean)
      ∧ w.select.Fits k g := by
  have hspreads : List.zipWith ProfileRules.Spread.mk w.means w.deviations = ss := by
    rw [hmeans, hdeviations, List.zipWith_map, List.zipWith_self]
    exact List.map_id ss
  have hwritten : overwrite w.trusted (ProfileRules.trustedBins ss) = ProfileRules.trustedBins ss :=
    overwrite_eq (by rw [ProfileRules.length_trustedBins, hlength, hw.trusted])
  have htrusted : w.select.trusted = ProfileRules.trustedBins ss := by
    rw [← hwritten, ProfileRules.trustedBins, ProfileRules.trustThreshold, ← outside_eq hdeviations]
    simp only [select, hspreads]
  have hsums : w.select.sums = ss.map fun s => ProfileRules.square s.mean := by
    refine (overwrite_eq ?_).trans ?_
    · rw [List.length_map, hw.means, hw.sums]
    · rw [hmeans, List.map_map]
      rfl
  refine ⟨htrusted, hsums, { hw with sums := ?_, trusted := ?_ }⟩
  · rw [hsums, List.length_map, hlength]
  · rw [htrusted, ProfileRules.length_trustedBins, hlength]

theorem refineWideband_eq {r : ProfileRules} {profile : Profile} (hw : w.Fits k r.geometry)
    (hprofile : profile.Sized r.geometry.fftSize) :
    (w.refineWideband r profile).result = r.refineWideband profile
      ∧ w.Keeps (w.refineWideband r profile).workspace
      ∧ (w.refineWideband r profile).workspace.Fits k r.geometry := by
  obtain ⟨hmeans, hdeviations, hmeasured⟩ := measure_eq hw hprofile.history
  obtain ⟨htrusted, hsums, hselected⟩ := select_eq hmeasured
    (ProfileRules.length_spreads hprofile.history) hmeans hdeviations
  have hfilled : fillUntrusted (w.measure r.geometry.fftSize profile.history).select.sums
      (w.measure r.geometry.fftSize profile.history).select.trusted
      = r.widebandEstimate profile.history := by
    rw [htrusted, hsums, ProfileRules.widebandEstimate]
  simp only [refineWideband, ProfileRules.refineWideband, hfilled]
  cases hestimate : r.widebandEstimate profile.history with
  | none => exact ⟨rfl, ⟨rfl, rfl⟩, hselected⟩
  | some estimate =>
    have hlength := ProfileRules.length_widebandEstimate hprofile.history hestimate
    have hwritten := overwrite_eq (hlength.trans hselected.sums.symm)
    refine ⟨?_, ⟨rfl, rfl⟩, { hselected with sums := (length_overwrite _ _).trans hselected.sums }⟩
    simp only [hwritten]

/-- A refinement reads the magnitudes of the frame, and keeps them and the block. -/
theorem refine_eq {r : ProfileRules} {profile : Profile} (hw : w.Fits k r.geometry)
    (hprofile : profile.Sized r.geometry.fftSize) (held : Bool) :
    (w.refine r profile held).result = r.refine profile w.spectral.magnitudes held
      ∧ w.Keeps (w.refine r profile held).workspace
      ∧ (w.refine r profile held).workspace.Fits k r.geometry := by
  have hrecord := hprofile.record hw.magnitudes
  rw [refine, ProfileRules.refine]
  split
  · exact ⟨rfl, ⟨rfl, rfl⟩, hw⟩
  · split
    · exact ⟨rfl, ⟨rfl, rfl⟩, hw⟩
    · split
      · exact refineWideband_eq hw hrecord
      · exact refineAudio_eq hw hrecord

/-! ## Gains -/

/-- The gains do not depend on what the buffers held, and the power is left for the
tracking. -/
theorem estimate_eq (hw : w.Fits k p.geometry) (memory : Gain.Memory) (noise : List Float32) :
    (w.estimate p memory noise).result
        = Gain.estimate p.numerics.elementary p.geometry.frameLen memory noise
          w.spectral.magnitudes
      ∧ (w.estimate p memory noise).workspace.power = (w.estimate p memory noise).result.power
      ∧ w.Keeps (w.estimate p memory noise).workspace
      ∧ (w.estimate p memory noise).workspace.Fits k p.geometry := by
  have hsignal : writeEach (signalEntry w.spectral.magnitudes) w.signal
      = Gain.fillZeros none w.spectral.magnitudes :=
    writeEach_signal (hw.magnitudes.trans hw.signal.symm)
  have hfilled : (Gain.fillZeros none w.spectral.magnitudes).length = p.geometry.fftSize :=
    (Gain.length_fillZeros _ _).trans hw.magnitudes
  have hpower : overwrite w.power ((Gain.fillZeros none w.spectral.magnitudes).map fun x => x * x)
      = (Gain.fillZeros none w.spectral.magnitudes).map fun x => x * x :=
    overwrite_eq (by rw [List.length_map, hfilled, hw.power])
  refine ⟨?_, rfl, ⟨rfl, rfl⟩, { hw with signal := ?_, power := ?_ }⟩
  · simp only [estimate, Gain.estimate, hsignal, hpower, binsOf_square]
  · simp only [estimate, hsignal]
    exact hfilled
  · exact (length_overwrite _ _).trans hw.power

/-! ## Chains -/

/-- A step of a chain on the workspace is a step of the chain. -/
theorem step_eq (hk : k.Computes p.numerics.transform) (hw : w.Fits k p.geometry)
    {spectrum : List Sample} (hspectral : w.spectral = ⟨spectrum, spectrum.map Phasor.norm⟩)
    {c : Chain} (hc : c.Sized p.geometry) {out : List Sample} (hout : out.length = p.geometry.hop)
    (held : Bool) :
    (w.step k p held c out).result = c.step p held spectrum
      ∧ w.Keeps (w.step k p held c out).workspace
      ∧ (w.step k p held c out).workspace.Fits k p.geometry := by
  have hspectrum := hw.spectrum
  have hmagnitudes := hw.magnitudes
  rw [hspectral] at hspectrum hmagnitudes
  have hrules : w.Fits k p.rules.geometry := hw
  obtain ⟨hrefined, hkept, hfits⟩ := refine_eq hrules hc.profile held
  rw [hspectral] at hrefined
  have hpower := (p.rules.refine_sized hc.profile hmagnitudes held).power
  rw [← hrefined] at hpower
  simp only [step]
  generalize w.refine p.rules c.profile held = refined at *
  obtain ⟨hestimated, hsquares, hkept', hfits'⟩ :=
    estimate_eq hfits c.memory refined.result.profile.power
  rw [hkept.spectral, hspectral] at hestimated
  obtain ⟨hgains, -, hmemory⟩ := Gain.estimate_sized p.numerics.elementary p.geometry.frameLen
    hc.memory hpower hmagnitudes
  rw [← hestimated] at hgains hmemory
  generalize refined.workspace.estimate p c.memory refined.result.profile.power = estimated at *
  -- every entry of the work buffer is written before it is transformed back
  have hlength : (applyGains spectrum estimated.result.gains).length = p.geometry.fftSize := by
    rw [applyGains, List.length_zipWith, hspectrum, hgains, Nat.min_self]
  have hwork : overwrite estimated.workspace.work
      (applyGains estimated.workspace.spectral.spectrum estimated.result.gains)
        = applyGains spectrum estimated.result.gains := by
    rw [hkept'.spectral, hkept.spectral, hspectral]
    exact overwrite_eq (hlength.trans hfits'.work.symm)
  obtain ⟨hinvert, hscratch⟩ := hk.invert_eq hlength hfits'.scratch
  have hhop : (overlapAdd p.geometry.hop p.outputScale estimated.result.memory.tail
      (invert p.numerics.transform (applyGains spectrum estimated.result.gains))).out.length
        = p.geometry.hop := (Chain.length_synthesize hspectrum hgains hmemory.tail).1
  rw [hwork, hinvert, overwrite_eq (hhop.trans hout.symm), hsquares]
  refine ⟨?_, ⟨hkept'.spectral.trans hkept.spectral, hkept'.hop.trans hkept.hop⟩,
    { hfits' with scratch := ?_, work := ?_, power := ?_ }⟩
  · rw [hestimated, hrefined]
    rfl
  · exact Nat.le_trans hfits'.scratch (Nat.le_of_eq hscratch.symm)
  · rw [invert, List.length_map, p.numerics.transform.length_inverse, hlength]
  · rw [← hsquares]
    exact hfits'.power

/-- Both chains hear the frame that the workspace holds, and the second gets its buffers
from the first. -/
theorem process_eq (hk : k.Computes p.numerics.transform) (hw : w.Fits k p.geometry)
    {c : ChainPair} (hc : c.Sized p.geometry) :
    (w.process k p c).result = c.process p w.frame
      ∧ (w.process k p c).workspace.Fits k p.geometry := by
  have hspectrum := p.length_spectrum hw.frame
  obtain ⟨hanalyze, hscratch⟩ := hk.analyze_eq hw.frame hw.spectrum hw.magnitudes hw.scratch
  simp only [process, hanalyze]
  generalize hanalyzed : ({ w with
    spectral := ⟨p.spectrum w.frame, p.magnitudes w.frame⟩
    scratch := (k.analyze p w.frame w.spectral w.scratch).2 } : Workspace) = analyzed
  have hspectral : analyzed.spectral = ⟨p.spectrum w.frame, p.magnitudes w.frame⟩ := by
    rw [← hanalyzed]
  have hfits : analyzed.Fits k p.geometry := by
    rw [← hanalyzed]
    exact { hw with
      scratch := Nat.le_trans hw.scratch (Nat.le_of_eq hscratch.symm)
      spectrum := hspectrum
      magnitudes := p.length_magnitudes hw.frame }
  obtain ⟨hheard, hkept, hfits⟩ := step_eq hk hfits hspectral hc.active hw.hop c.held
  generalize analyzed.step k p c.held c.active w.hop = heard at *
  have hhop : heard.result.hop.length = p.geometry.hop := by
    rw [hheard]
    exact (hc.active.step hspectrum c.held).2
  -- the candidate steps over the same frame, and its hop goes elsewhere
  have hroom := hfits.unheard
  generalize hbetween : ({ heard.workspace with hop := heard.result.hop } : Workspace) = between
  have hfits : between.Fits k p.geometry := by
    rw [← hbetween]
    exact { hfits with hop := hhop }
  have hspectral : between.spectral = ⟨p.spectrum w.frame, p.magnitudes w.frame⟩ := by
    rw [← hbetween]
    exact hkept.spectral.trans hspectral
  have hheardHop : between.hop = heard.result.hop := by rw [← hbetween]
  obtain ⟨hunheard, hkept', hfits⟩ := step_eq hk hfits hspectral hc.candidate hroom c.held
  generalize between.step k p c.held c.candidate heard.workspace.unheard = unheard at *
  have hhop' : unheard.result.hop.length = p.geometry.hop := by
    rw [hunheard]
    exact (hc.candidate.step hspectrum c.held).2
  refine ⟨?_, { hfits with unheard := hhop' }⟩
  rw [hkept'.hop, hheardHop, hheard, hunheard]
  rfl

/-! ## The protocol -/

theorem train_eq (hk : k.Computes p.numerics.transform) (hw : w.Fits k p.geometry)
    (c : ChainPair) :
    (w.train k p c).result = c.train p w.training
      ∧ (w.train k p c).workspace.Fits k p.geometry := by
  obtain ⟨hprofile, _, hfits⟩ := sample_eq hk hw w.training c.active.profile
  refine ⟨?_, hfits⟩
  simp only [train, hprofile]
  rfl

theorem retrain_eq (hk : k.Computes p.numerics.transform) (hw : w.Fits k p.geometry)
    (trailing : Trailing Sample) (range : Float32) (c : ChainPair) :
    (w.retrain k p trailing range c).result = c.retrain p trailing range
      ∧ (w.retrain k p trailing range c).workspace.staged = w.staged
      ∧ (w.retrain k p trailing range c).workspace.Fits k p.geometry := by
  have hrecent : ({ w with recent := trailing.recent p.geometry.demand } : Workspace).Fits k
      p.geometry := { hw with }
  obtain ⟨hprofile, hstaged, hfits⟩ := sample_eq hk hrecent (trailing.recent p.geometry.demand)
    c.candidate.profile
  refine ⟨?_, hstaged, hfits⟩
  simp only [retrain, hprofile]
  rfl

/-- A move of the protocol does not depend on the workspace. -/
theorem advance_eq (hk : k.Computes p.numerics.transform) (hw : w.Fits k p.geometry)
    (activity : Nat → Float32) (trailing : Trailing Sample) (samples : Nat) (c : ChainPair) :
    (w.advance k p activity trailing samples c).result = c.advance p activity trailing samples
      ∧ (w.advance k p activity trailing samples c).workspace.staged = w.staged
      ∧ (w.advance k p activity trailing samples c).workspace.Fits k p.geometry := by
  simp only [advance, ChainPair.advance]
  split
  · exact ⟨rfl, rfl, hw⟩
  · cases c.phase with
    | steady =>
      simp only
      split
      · split
        · exact ⟨rfl, rfl, hw⟩
        · exact retrain_eq hk hw _ _ _
      · exact ⟨rfl, rfl, hw⟩
    | swapPending =>
      simp only
      split
      · exact ⟨rfl, rfl, hw⟩
      · exact ⟨rfl, rfl, hw⟩
    | uninitialized => exact ⟨rfl, rfl, hw⟩
    | training => exact ⟨rfl, rfl, hw⟩
    | retraining => exact ⟨rfl, rfl, hw⟩

end Workspace

end Denoise
