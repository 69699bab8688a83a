import Denoise.Proofs.Intake

/-!
# Sizes of the adaptive state

Every vector of a chain has the length that the geometry gives it: one entry for
each bin in the noise power, the history, the gains and the clean power, and one
hop in the tail.  Nothing in the types says so, since the vectors are lists.

`Chain.Sized` is the invariant.  It holds of a fresh chain, and sampling,
training and every step keep it, whatever the samples are.  A step over a whole
frame then puts out exactly one hop (`Chain.Sized.step`), and this is what
counts of the output rest on (`Chain.length_hops`).

The sizes of the geometry are natural numbers.  `Geometry.Fits.words` says when
words of 64 bits compute the same ones.
-/

namespace Denoise

/-! ## Words -/

namespace Geometry

/-- The input buffer in hops: four for each frame of the demand, and eight more. -/
theorem bufferSize_eq (g : Geometry) : g.bufferSize = 4 * g.hop * (g.noiseFrames + 2) := by
  rw [bufferSize, demand, frameLen]
  grind

/-- Frames of less than 2 ^ 33 samples and a demand of less than 2 ^ 29 frames fit, with
any threshold of refinement that a word holds. -/
theorem fits_of_lt {g : Geometry} {s : Settings} (hhop : g.hop < 2 ^ 32)
    (hframes : g.noiseFrames < 2 ^ 29) (hmin : s.historyMinFrames + 1 < UInt64.size)
    (hwide : s.widebandHistoryFrames < UInt64.size) : g.Fits s := by
  constructor
  · have hle : 4 * g.hop * (g.noiseFrames + 2) ≤ 4 * 2 ^ 32 * (2 ^ 29 + 2) :=
      Nat.mul_le_mul (by omega) (by omega)
    rw [bufferSize_eq]
    exact hle.trans_lt (by decide)
  · rw [refineThreshold]
    split
    · exact hwide
    · exact hmin

/-- Sizes that fit are what words of 64 bits compute.  No product and no sum wraps. -/
theorem Fits.words {g : Geometry} {s : Settings} (h : g.Fits s) :
    (2 * g.hop.toUInt64).toNat = g.frameLen
      ∧ (2 * (2 * g.hop.toUInt64)).toNat = g.fftSize
      ∧ (g.noiseFrames.toUInt64 * (2 * g.hop.toUInt64) * 2).toNat = g.demand
      ∧ (g.noiseFrames.toUInt64 * (2 * g.hop.toUInt64) * 2
          + 4 * (2 * g.hop.toUInt64)).toNat = g.bufferSize
      ∧ (if g.wideband then s.widebandHistoryFrames.toUInt64
          else s.historyMinFrames.toUInt64 + 1).toNat = g.refineThreshold s := by
  obtain ⟨hbuffer, hthreshold⟩ := h
  -- A word that was computed is the word of the size, also where it wraps.
  have hframe : 2 * g.hop.toUInt64 = g.frameLen.toUInt64 := (UInt64.ofNat_mul 2 g.hop).symm
  have hfft : 2 * g.frameLen.toUInt64 = g.fftSize.toUInt64 := (UInt64.ofNat_mul 2 g.frameLen).symm
  have hdemand : g.noiseFrames.toUInt64 * g.frameLen.toUInt64 * 2 = g.demand.toUInt64 :=
    ((UInt64.ofNat_mul _ 2).trans (congrArg (· * 2) (UInt64.ofNat_mul _ _))).symm
  have hbufferSize : g.demand.toUInt64 + 4 * g.frameLen.toUInt64 = g.bufferSize.toUInt64 :=
    ((UInt64.ofNat_add _ _).trans (congrArg (_ + ·) (UInt64.ofNat_mul 4 _))).symm
  have hrefine : (if g.wideband then s.widebandHistoryFrames.toUInt64
      else s.historyMinFrames.toUInt64 + 1) = (g.refineThreshold s).toUInt64 := by
    rw [refineThreshold]
    split
    · rfl
    · exact (UInt64.ofNat_add _ 1).symm
  have hholds : ∀ n ≤ g.bufferSize, n.toUInt64.toNat = n :=
    fun n hn => UInt64.toNat_ofNat_of_lt' (hn.trans_lt hbuffer)
  rw [hframe, hfft, hdemand, hbufferSize, hrefine]
  refine ⟨hholds _ ?_, hholds _ ?_, hholds _ ?_, hholds _ le_rfl,
    UInt64.toNat_ofNat_of_lt' hthreshold⟩
  all_goals simp only [fftSize, bufferSize]; omega

end Geometry

/-! ## Passes over bins -/

theorem length_averagesAt {K W : Type} [Add W] [Sub W] [Div W] [OfScientific W]
    (p : Passage K W) (before after count : Nat) (r : RunningSum K W) (indices : List Nat) :
    (averagesAt p before after count r indices).length = indices.length := by
  induction indices generalizing r with
  | nil => rfl
  | cons i later ih => rw [averagesAt, List.length_cons, ih, List.length_cons]

/-- A moving average has an entry for each bin. -/
theorem length_movingAverage {K W : Type} [Zero W] [Add W] [Sub W] [Div W] [OfScientific W]
    (p : Passage K W) (width : Nat) (bins : List K) :
    (movingAverage p width bins).length = bins.length := by
  rw [movingAverage]
  split
  · rfl
  · rw [length_averagesAt, List.length_range]

section Filling

variable {K : Type} [OfScientific K] [Add K] [Sub K] [Mul K] [Div K]

theorem length_bridge (gap : Nat) (a b : K) : (bridge gap a b).length = gap := by
  rw [bridge, List.length_map, List.length_range]

theorem length_fillAfter (a : K) (gap : Nat) (bins : List (Option K)) :
    (fillAfter a gap bins).length = gap + bins.length := by
  induction bins generalizing a gap with
  | nil => rw [fillAfter, List.length_replicate, List.length_nil, Nat.add_zero]
  | cons bin later ih =>
    cases bin with
    | none => rw [fillAfter, ih, List.length_cons]; omega
    | some b =>
      rw [fillAfter, List.length_append, length_bridge, List.length_cons, ih, List.length_cons]
      omega

/-- Filling in gaps gives every bin a value. -/
theorem length_fillFrom {gap : Nat} {bins : List (Option K)} {filled : List K}
    (h : fillFrom gap bins = some filled) : filled.length = gap + bins.length := by
  induction bins generalizing gap with
  | nil => cases h
  | cons bin later ih =>
    cases bin with
    | none =>
      rw [fillFrom] at h
      rw [ih h, List.length_cons]
      omega
    | some b =>
      rw [fillFrom] at h
      cases h
      rw [List.length_append, List.length_replicate, List.length_cons, length_fillAfter,
        List.length_cons]
      omega

theorem length_fillUntrusted {values filled : List K} {trusted : List Bool}
    (h : fillUntrusted values trusted = some filled) :
    filled.length = min values.length trusted.length := by
  rw [length_fillFrom h, List.length_zipWith, Nat.zero_add]

end Filling

/-- A sum by bin over vectors of one length has that length. -/
theorem length_foldl_zipWith {A B : Type} (f : A → B → A) {n : Nat} (rows : List (List B))
    (start : List A) (hstart : start.length = n) (hrows : ∀ row ∈ rows, row.length = n) :
    (rows.foldl (List.zipWith f) start).length = n := by
  induction rows generalizing start with
  | nil => exact hstart
  | cons row rows ih =>
    have hrow := hrows row List.mem_cons_self
    refine ih _ ?_ fun r hr => hrows r (List.mem_cons_of_mem _ hr)
    rw [List.length_zipWith, hstart, hrow, Nat.min_self]

/-! ## Profiles -/

/-- Every vector of a profile has one entry for each of `bins` bins. -/
structure Profile.Sized (bins : Nat) (p : Profile) : Prop where
  /-- The noise power. -/
  power : p.power.length = bins
  /-- Each frame of the history. -/
  history : ∀ magnitudes ∈ p.history, magnitudes.length = bins

namespace Profile

theorem Sized.fresh (bins capacity : Nat) : (fresh bins capacity).Sized bins where
  power := List.length_replicate
  history := by simp [Profile.fresh]

/-- An estimate of every bin is adopted bin by bin. -/
theorem Sized.adopt {bins : Nat} {p : Profile} {estimate : List Float32} (h : p.Sized bins)
    (hestimate : estimate.length = bins) : (p.adopt estimate).Sized bins where
  power := by rw [Profile.adopt, List.length_map, hestimate]
  history := h.history

/-- A frame is recorded whole, and the oldest is let go whole. -/
theorem Sized.record {bins : Nat} {p : Profile} {magnitudes : List Float32} (h : p.Sized bins)
    (hmagnitudes : magnitudes.length = bins) : (p.record magnitudes).Sized bins where
  power := h.power
  history := by
    intro row hrow
    simp only [Profile.record, List.mem_append, List.mem_singleton] at hrow
    rcases hrow with hold | rfl
    · split at hold
      · exact h.history row (List.mem_of_mem_drop hold)
      · exact h.history row hold
    · exact hmagnitudes

end Profile

namespace ProfileRules

theorem length_sumFrames {bins : Nat} {frames : List (List Float32)}
    (h : ∀ frame ∈ frames, frame.length = bins) : (sumFrames bins frames).length = bins :=
  length_foldl_zipWith _ _ _ List.length_replicate h

/-- Only whole frames are averaged. -/
theorem length_of_mem_wholeFrames {frameLen count : Nat} {samples frame : List Sample}
    (h : frame ∈ wholeFrames frameLen count samples) : frame.length = frameLen := by
  induction count generalizing samples with
  | zero => cases h
  | succ count ih =>
    rw [wholeFrames] at h
    split at h
    next short => cases h
    next whole =>
      rcases List.mem_cons.1 h with rfl | hlater
      · rw [List.length_take]
        omega
      · exact ih hlater

/-- A sampled power has every bin, also if the stretch has no whole frame. -/
theorem length_sampledPower {r : ProfileRules} {magnitudes : List Sample → List Float32}
    (h : ∀ frame, frame.length = r.geometry.frameLen →
      (magnitudes frame).length = r.geometry.fftSize) (samples : List Sample) :
    (r.sampledPower magnitudes samples).length = r.geometry.fftSize := by
  have hsum : ∀ count, (sumFrames r.geometry.fftSize
      ((wholeFrames r.geometry.frameLen count samples).map magnitudes)).length
        = r.geometry.fftSize := by
    intro count
    apply length_sumFrames
    intro row hrow
    obtain ⟨frame, hframe, rfl⟩ := List.mem_map.1 hrow
    exact h frame (length_of_mem_wholeFrames hframe)
  simp only [sampledPower, List.length_map]
  split
  · rw [length_movingAverage, List.length_map, hsum]
  · rw [List.length_map, hsum]

/-- Sampling a profile keeps its sizes, whatever the stretch. -/
theorem sample_sized (r : ProfileRules) {magnitudes : List Sample → List Float32} {p : Profile}
    (h : ∀ frame, frame.length = r.geometry.frameLen →
      (magnitudes frame).length = r.geometry.fftSize)
    (hp : p.Sized r.geometry.fftSize) (samples : List Sample) :
    (r.sample magnitudes samples p).Sized r.geometry.fftSize :=
  Profile.Sized.adopt (p := { p with history := [] }) ⟨hp.power, by simp⟩
    (length_sampledPower h samples)

theorem length_audioEstimate {r : ProfileRules} {history : List (List Float32)}
    (h : ∀ magnitudes ∈ history, magnitudes.length = r.geometry.fftSize) :
    (r.audioEstimate history).length = r.geometry.fftSize := by
  rw [audioEstimate, length_movingAverage, List.length_map]
  apply length_sumFrames
  intro row hrow
  exact h row (List.mem_reverse.1 (List.mem_of_mem_take hrow))

theorem length_spreads {bins : Nat} {history : List (List Float32)}
    (h : ∀ magnitudes ∈ history, magnitudes.length = bins) :
    (spreads bins history).length = bins := by
  rw [spreads, List.length_map]
  exact length_foldl_zipWith _ _ _ List.length_replicate h

theorem length_trustedBins (ss : List Spread) : (trustedBins ss).length = ss.length := by
  rw [trustedBins, List.length_map, List.length_zipIdx]

/-- A wideband estimate has every bin, if there is one. -/
theorem length_widebandEstimate {r : ProfileRules} {history : List (List Float32)}
    {estimate : List Float32}
    (h : ∀ magnitudes ∈ history, magnitudes.length = r.geometry.fftSize)
    (hestimate : r.widebandEstimate history = some estimate) :
    estimate.length = r.geometry.fftSize := by
  rw [length_fillUntrusted hestimate, length_trustedBins, List.length_map, length_spreads h,
    Nat.min_self]

/-- Whatever comes of a refinement, the profile keeps its sizes. -/
theorem refine_sized (r : ProfileRules) {p : Profile} {magnitudes : List Float32}
    (hp : p.Sized r.geometry.fftSize) (h : magnitudes.length = r.geometry.fftSize) (held : Bool) :
    (r.refine p magnitudes held).profile.Sized r.geometry.fftSize := by
  have hrecord := hp.record h
  simp only [ProfileRules.refine]
  split
  next => exact hrecord
  next =>
    split
    next => exact hrecord
    next =>
      split
      next wide =>
        rw [refineWideband]
        split
        next estimate hestimate =>
          exact hrecord.adopt (length_widebandEstimate hrecord.history hestimate)
        next => exact ⟨hrecord.power, hrecord.history⟩
      next =>
        simp only [refineAudio]
        split
        next => exact hrecord.adopt (length_audioEstimate hrecord.history)
        next => exact hrecord

/-- Tracking the floor keeps the sizes. -/
theorem track_sized (r : ProfileRules) {bins : Nat} {p : Profile} {power : List Float32}
    (hp : p.Sized bins) (h : power.length = bins) (likelihood : Float32) :
    (r.track p likelihood power).Sized bins := by
  rw [ProfileRules.track]
  split
  next =>
    refine ⟨?_, hp.history⟩
    rw [List.length_zipWith, hp.power, h, Nat.min_self]
  next => exact hp

end ProfileRules

/-! ## Gains -/

namespace Gain

theorem length_fillZeros (left : Option Float32) (xs : List Float32) :
    (fillZeros left xs).length = xs.length := by
  induction xs generalizing left with
  | nil => rfl
  | cons x xs ih => simp only [fillZeros, List.length_cons, ih]

/-- The gains of a frame are as many as its bins. -/
theorem length_bins (m : Elementary) (floor : Float32) {n : Nat} {noise magnitudes : List Float32}
    {clean : List (Option Float32)} (hnoise : noise.length = n)
    (hmagnitudes : magnitudes.length = n) (hclean : clean.length = n) :
    (bins m floor noise magnitudes clean).length = n := by
  induction noise generalizing n magnitudes clean with
  | nil => rw [bins.eq_2 _ _ _ _ _ (by simp)]; exact hnoise
  | cons noise noises ih =>
    subst hnoise
    obtain ⟨magnitude, magnitudes, rfl⟩ := List.exists_cons_of_length_eq_add_one hmagnitudes
    obtain ⟨clean, cleans, rfl⟩ := List.exists_cons_of_length_eq_add_one hclean
    rw [bins, List.length_cons, List.length_cons,
      ih rfl (Nat.succ.inj hmagnitudes) (Nat.succ.inj hclean)]

/-- The memory of a chain has one clean power for each bin, or none, and a tail of
one hop. -/
structure Memory.Sized (g : Geometry) (mem : Memory) : Prop where
  /-- The clean powers. -/
  clean : ∀ powers, mem.clean = some powers → powers.length = g.fftSize
  /-- The tail. -/
  tail : mem.tail.length = g.hop

theorem Memory.Sized.previous {g : Geometry} {mem : Memory} (h : mem.Sized g) :
    (mem.previous g.fftSize).length = g.fftSize := by
  rw [Memory.previous]
  split
  next => exact List.length_replicate
  next => exact List.length_replicate
  next powers _ hpowers => rw [List.length_map, h.clean powers hpowers]

/-- What is estimated from a frame has every bin, and the memory keeps its sizes. -/
theorem estimate_sized (m : Elementary) (frameLen : Nat) {g : Geometry} {mem : Memory}
    {noise magnitudes : List Float32} (h : mem.Sized g) (hnoise : noise.length = g.fftSize)
    (hmagnitudes : magnitudes.length = g.fftSize) :
    (estimate m frameLen mem noise magnitudes).gains.length = g.fftSize
      ∧ (estimate m frameLen mem noise magnitudes).power.length = g.fftSize
      ∧ (estimate m frameLen mem noise magnitudes).memory.Sized g := by
  have hfilled := (length_fillZeros none magnitudes).trans hmagnitudes
  have hbins := length_bins m mem.priorFloor hnoise hfilled h.previous
  rw [← hfilled] at hbins
  simp only [estimate]
  refine ⟨?_, ?_, ?_, h.tail⟩
  · rw [List.length_map, hbins, hfilled]
  · rw [List.length_map, hfilled]
  · intro powers hpowers
    obtain rfl := Option.some.inj hpowers
    rw [List.length_map, hbins, hfilled]

end Gain

/-! ## Frames and spectra -/

namespace Plan

/-- A window has a weight for each sample of a frame, in both modes. -/
theorem length_weights (p : Plan) : p.window.weights.length = p.geometry.frameLen := by
  rw [p.window_eq, Window.forGeometry]
  split
  next => exact List.length_replicate
  next =>
    simp only [Window.ofWeights, List.length_map, hann]
    split
    next => exact List.length_replicate
    next => rw [List.length_map, List.length_range]

/-- The spectrum of a whole frame has every bin. -/
theorem length_spectrum (p : Plan) {frame : List Sample}
    (h : frame.length = p.geometry.frameLen) :
    (p.spectrum frame).length = p.geometry.fftSize := by
  rw [Plan.spectrum, Window.analyze, p.numerics.transform.length_forward, Window.padded,
    List.length_append, List.length_zipWith, List.length_replicate, length_weights, h,
    Nat.min_self, Geometry.fftSize]
  omega

theorem length_magnitudes (p : Plan) {frame : List Sample}
    (h : frame.length = p.geometry.frameLen) :
    (p.magnitudes frame).length = p.geometry.fftSize := by
  rw [Plan.magnitudes, List.length_map, p.length_spectrum h]

end Plan

/-! ## Chains -/

/-- Every vector of a chain has the length of the geometry. -/
structure Chain.Sized (g : Geometry) (c : Chain) : Prop where
  /-- The profile. -/
  profile : c.profile.Sized g.fftSize
  /-- The memory. -/
  memory : c.memory.Sized g
  /-- The gains. -/
  gains : c.gains.length = g.fftSize

namespace Chain

theorem Sized.fresh (p : Plan) : (fresh p).Sized p.geometry where
  profile := Profile.Sized.fresh _ _
  memory := ⟨by simp [Chain.fresh, Gain.Memory.fresh], List.length_replicate⟩
  gains := List.length_replicate

/-- A chain that is sampled anew keeps its sizes.  Its tail is cleared and stays one
hop. -/
theorem Sized.resample {p : Plan} {c : Chain} (h : c.Sized p.geometry) (samples : List Sample) :
    (c.resample p samples).Sized p.geometry where
  profile := p.rules.sample_sized (fun _ hframe => p.length_magnitudes hframe) h.profile samples
  memory := ⟨by simp [Chain.resample, Gain.Memory.reset],
    by rw [Chain.resample, Gain.Memory.reset, List.length_replicate, h.memory.tail]⟩
  gains := h.gains

theorem Sized.train {p : Plan} {c : Chain} (h : c.Sized p.geometry) (samples : List Sample) :
    (c.train p samples).Sized p.geometry where
  profile := (h.resample samples).profile
  memory := (h.resample samples).memory
  gains := by rw [Chain.train, List.length_replicate, h.gains]

/-- A frame of time that is as long as the spectrum gives a hop, and leaves a
tail. -/
theorem length_overlapAdd {hop : Nat} {scale : Float32} {tail frame : List Sample}
    (htail : tail.length = hop) (hframe : 2 * hop ≤ frame.length) :
    (overlapAdd hop scale tail frame).out.length = hop
      ∧ (overlapAdd hop scale tail frame).tail.length = hop := by
  constructor
  · rw [overlapAdd, List.length_zipWith, List.length_append, List.length_replicate,
      List.length_take, htail]
    omega
  · rw [overlapAdd, List.length_take, List.length_drop]
    omega

/-- A spectrum with every bin gives a hop and a tail. -/
theorem length_synthesize {p : Plan} {spectrum : List Sample} {gains : List Float32}
    {tail : List Sample} (hspectrum : spectrum.length = p.geometry.fftSize)
    (hgains : gains.length = p.geometry.fftSize) (htail : tail.length = p.geometry.hop) :
    (synthesize p spectrum gains tail).out.length = p.geometry.hop
      ∧ (synthesize p spectrum gains tail).tail.length = p.geometry.hop := by
  apply length_overlapAdd htail
  rw [invert, List.length_map, p.numerics.transform.length_inverse, applyGains, List.length_zipWith,
    hspectrum, hgains, Nat.min_self, Geometry.fftSize, Geometry.frameLen]
  omega

/-- A step over the spectrum of a frame keeps the sizes, and gives one hop. -/
theorem Sized.step {p : Plan} {c : Chain} {spectrum : List Sample} (h : c.Sized p.geometry)
    (hspectrum : spectrum.length = p.geometry.fftSize) (held : Bool) :
    (c.step p held spectrum).chain.Sized p.geometry
      ∧ (c.step p held spectrum).hop.length = p.geometry.hop := by
  have hmagnitudes : (spectrum.map Phasor.norm).length = p.geometry.fftSize := by
    rw [List.length_map, hspectrum]
  have hrefined := p.rules.refine_sized h.profile hmagnitudes held
  obtain ⟨hgains, hpower, hmemory⟩ := Gain.estimate_sized p.numerics.elementary p.geometry.frameLen
    h.memory hrefined.power hmagnitudes
  obtain ⟨hout, htail⟩ := length_synthesize hspectrum hgains hmemory.tail
  refine ⟨⟨?_, ⟨hmemory.clean, htail⟩, hgains⟩, hout⟩
  simp only [Chain.step]
  split
  next => exact hrefined
  next => exact p.rules.track_sized hrefined hpower _

/-- Every hop of a run along whole frames is a whole hop. -/
theorem length_hops {p : Plan} {held : Bool} {frames : List (List Sample)} {c : Chain}
    (h : c.Sized p.geometry) (hframes : ∀ frame ∈ frames, frame.length = p.geometry.frameLen) :
    (c.hops p held frames).flatten.length = frames.length * p.geometry.hop := by
  induction frames generalizing c with
  | nil => rw [List.length_nil, Nat.zero_mul]; rfl
  | cons frame frames ih =>
    have hstep := h.step (p.length_spectrum (hframes frame List.mem_cons_self)) held
    rw [Chain.hops, List.flatten_cons, List.length_append, hstep.2,
      ih hstep.1 fun f hf => hframes f (List.mem_cons_of_mem _ hf), List.length_cons,
      Nat.add_mul, Nat.one_mul, Nat.add_comm]

/-- Whole frames keep the sizes. -/
theorem Sized.along {p : Plan} {held : Bool} {frames : List (List Sample)} {c : Chain}
    (h : c.Sized p.geometry) (hframes : ∀ frame ∈ frames, frame.length = p.geometry.frameLen) :
    (c.along p held frames).Sized p.geometry := by
  induction frames generalizing c with
  | nil => exact h
  | cons frame frames ih =>
    have hstep := h.step (p.length_spectrum (hframes frame List.mem_cons_self)) held
    exact ih hstep.1 fun f hf => hframes f (List.mem_cons_of_mem _ hf)

end Chain

/-! ## The pair -/

/-- Both chains have the sizes of the geometry. -/
structure ChainPair.Sized (g : Geometry) (c : ChainPair) : Prop where
  /-- The active chain. -/
  active : c.active.Sized g
  /-- The candidate. -/
  candidate : c.candidate.Sized g

theorem ChainPair.Sized.along {p : Plan} {frames : List (List Sample)} {c : ChainPair}
    (h : c.Sized p.geometry) (hframes : ∀ frame ∈ frames, frame.length = p.geometry.frameLen) :
    (c.along p frames).Sized p.geometry :=
  ⟨h.active.along hframes, h.candidate.along hframes⟩

end Denoise
