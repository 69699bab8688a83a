import Denoise.Checked.Bins

/-!
# Checked work in place

The operations of a workspace as they run: loop by loop over the bins of a frame or of a
history, with every index and every copy checked.  A vector that is walked from front to
back beside others is not indexed, and is written by `overwrite` here too.
-/

namespace Denoise

namespace Checked

/-! ## Transforms -/

/-- A transform of `points` points in place.  A buffer has to hold a whole number of
them. -/
def transform (k : Kernel) (points : Nat) (run : List Sample → List Sample → List Sample × List Sample)
    (buffer scratch : List Sample) : Checked (List Sample × List Sample) := do
  let part ← rest buffer.length points
  if points ≤ buffer.length ∧ part = 0 ∧ k.scratchLen points ≤ scratch.length then
    return run buffer scratch
  else .error (.transform buffer.length scratch.length)

/-- A frame weighted and padded in the buffer of its spectrum, and transformed there. -/
def analyze (k : Kernel) (p : Plan) (frame : List Sample) (old : Spectral) (scratch : List Sample) :
    Checked (Spectral × List Sample) := do
  let g := p.geometry
  require (g.frameLen ≤ frame.length)
  require (old.spectrum.length = g.fftSize)
  require (old.magnitudes.length = g.fftSize)
  let weights := p.window.weights
  let weighted ← forEach (fun i v => do put v i ((← get frame i).scale (← get weights i)))
    (min old.spectrum.length weights.length) 0 old.spectrum
  let padded ← fill weighted g.frameLen weighted.length 0
  let (spectrum, scratch) ← transform k g.fftSize k.forward padded scratch
  return (⟨spectrum, overwrite old.magnitudes (spectrum.map Phasor.norm)⟩, scratch)

/-- A spectrum transformed back in its buffer. -/
def invert (k : Kernel) (p : Plan) (buffer scratch : List Sample) :
    Checked (List Sample × List Sample) := do
  let g := p.geometry
  require (buffer.length = g.fftSize)
  let (samples, scratch) ← transform k g.fftSize k.inverse buffer scratch
  let points : Float32 ← divisor g.fftSize
  return (samples.map fun z => z.scale (1.0 / points), scratch)

/-- A frame added to the tail of the frame before.  The hop is written over `out`. -/
def overlapAdd (g : Geometry) (scale : Float32) (tail frame out : List Sample) :
    Checked (Overlapped Float32) := do
  require (g.frameLen ≤ frame.length)
  require (tail.length = g.tailLen)
  require (g.hop ≤ out.length)
  let out ← forEach (fun i out => do
    put out i ((tail.getD i 0 + (← get frame i)).scale scale)) g.hop 0 out
  let tail ← copyFrom tail (← slice frame g.tailLen g.frameLen)
  return ⟨out, tail⟩

/-! ## Sampling -/

/-- The magnitudes of the `count` frames from frame `j` on, added to the sums.  A frame
that is not whole ends the loop. -/
def addFrames (k : Kernel) (p : Plan) (samples : List Sample) :
    (count j : Nat) → Workspace → Checked Workspace
  | 0, _, w => return w
  | count + 1, j, w => do
    let start := j * p.geometry.frameLen
    let stop := min (start + p.geometry.frameLen) samples.length
    if (← minus stop start) < p.geometry.frameLen then return w
    else
      let (sampled, scratch) ← analyze k p (← slice samples start stop) w.sampled w.scratch
      addFrames k p samples count (j + 1) { w with
        sampled := sampled
        scratch := scratch
        sums := addOnto w.sums sampled.magnitudes }

/-- The mean magnitudes smoothed, or as they are. -/
def smooth (wideband : Bool) (means out : List Float32) : Checked (List Float32) :=
  if wideband then movingAverage ProfileRules.sampleWidth means out else copyFrom out means

/-- A profile sampled anew. -/
def sample (k : Kernel) (p : Plan) (samples : List Sample) (profile : Profile) (w : Workspace) :
    Checked (Leaves Profile) := do
  let g := p.geometry
  let count := max (min (← quotient samples.length g.frameLen) g.noiseFrames) 1
  let w ← addFrames k p samples count 0 { w with sums := fillWith 0 w.sums }
  let frames : Float32 ← divisor count
  let sums := w.sums.map (· * (1 / frames))
  let smoothed ← smooth g.wideband sums w.smoothed
  let squares := smoothed.map ProfileRules.square
  return ⟨{ profile with history := [] }.adopt squares, { w with sums := sums, smoothed := squares }⟩

/-! ## Refinement -/

/-- Refinement at audio rate. -/
def refineAudio (r : ProfileRules) (profile : Profile) (w : Workspace) : Checked (Leaves Refined) := do
  let recent := max (min r.geometry.noiseFrames profile.history.length) 1
  let added := (profile.history.reverse.take recent).foldl addOnto (fillWith 0 w.sums)
  let frames : Float32 ← divisor recent
  let sums := added.map fun x => ProfileRules.square (x * (1 / frames))
  let smoothed ← movingAverage ProfileRules.refineWidth sums w.smoothed
  let w := { w with sums := sums, smoothed := smoothed }
  let low := Profile.leastOf smoothed
  let high := Profile.greatestOf smoothed
  if high - low < profile.floorHigh - profile.floorLow then
    return ⟨⟨profile.adopt smoothed, .adopted, [.tighterFloor low high]⟩, w⟩
  else return ⟨⟨profile, .kept, []⟩, w⟩

/-- The moments of bin `i` over the history. -/
def momentsAt (history : List (List Float32)) (i : Nat) : Checked ProfileRules.Moments :=
  history.foldlM (fun m frame => do return m.add (← get frame i)) ⟨0, 0⟩

/-- The mean and the deviation of bin `i` over the history. -/
def measureAt (history : List (List Float32)) (i : Nat) (w : Workspace) : Checked Workspace := do
  let moments ← momentsAt history i
  let frames : Float ← divisor history.length
  let mean := moments.sum / frames
  let variance := greater (moments.squares / frames - mean * mean) 0
  let means ← put w.means i (narrow mean)
  let deviations ← put w.deviations i (narrow variance.sqrt)
  return { w with means := means, deviations := deviations }

/-- The mean and the deviation of each bin over the history. -/
def measure (bins : Nat) (history : List (List Float32)) (w : Workspace) : Checked Workspace :=
  forEach (measureAt history) bins 0 w

/-- The deviations outside of the centre. -/
def outside (bins : Nat) (deviations : List Float32) : Checked (List Float32) :=
  forEach (fun i ranked => do
    if ProfileRules.inCentre bins i then return ranked
    else return ranked ++ [← get deviations i]) bins 0 []

/-- Whether bin `i` is trusted, and the square of its mean. -/
def selectAt (bins : Nat) (threshold : Float32) (i : Nat) (w : Workspace) : Checked Workspace := do
  let mean ← get w.means i
  let deviation ← get w.deviations i
  let trusted ← put w.trusted i (ProfileRules.trusts threshold bins ⟨mean, deviation⟩ i)
  let sums ← put w.sums i (ProfileRules.square mean)
  return { w with trusted := trusted, sums := sums }

/-- The bins that are trusted by what was measured, and the squares of the means. -/
def select (bins : Nat) (w : Workspace) : Checked Workspace := do
  let w := { w with ranked := Denoise.sorted (← outside bins w.deviations) }
  let threshold := ProfileRules.trustedMargin * (← percentile w.ranked ProfileRules.trustedShare)
  forEach (selectAt bins threshold) bins 0 w

/-- Refinement of wideband input. -/
def refineWideband (r : ProfileRules) (profile : Profile) (w : Workspace) :
    Checked (Leaves Refined) := do
  let w ← measure r.geometry.fftSize profile.history w
  let w ← select r.geometry.fftSize w
  match ← fillUntrusted w.sums w.trusted with
  | some estimate =>
    return ⟨⟨profile.adopt estimate, .adopted, []⟩, { w with sums := estimate }⟩
  | none =>
    return ⟨⟨{ profile with degenerate := true }, .degenerate,
      if profile.degenerate then [] else [.noTrustedBins]⟩, w⟩

/-- Refinement by the frame. -/
def refine (r : ProfileRules) (profile : Profile) (held : Bool) (w : Workspace) :
    Checked (Leaves Refined) :=
  let profile := profile.record w.spectral.magnitudes
  if profile.history.length < r.threshold then return ⟨⟨profile, .accumulating, []⟩, w⟩
  else if held then return ⟨⟨profile, .held, []⟩, w⟩
  else if r.geometry.wideband then refineWideband r profile w
  else refineAudio r profile w

/-! ## Gains -/

/-- The signal and its squares while they are written. -/
structure Signal where
  /-- The signal. -/
  signal : List Float32
  /-- The squares. -/
  power : List Float32

/-- Entry `i` of the signal: the magnitude, or the entry before where there is none. -/
def entryAt (magnitudes signal : List Float32) (i : Nat) : Checked Float32 := do
  let m ← get magnitudes i
  if m == 0 && 0 < i then get signal (← minus i 1) else return m

/-- Entry `i` of the signal and of the squares. -/
def signalAt (magnitudes : List Float32) (i : Nat) (s : Signal) : Checked Signal := do
  let signal ← put s.signal i (← entryAt magnitudes s.signal i)
  let x ← get signal i
  let power ← put s.power i (x * x)
  return ⟨signal, power⟩

/-- The gain of one bin.  The prior ratio is held between two bounds. -/
def binOf (m : Elementary) (floor noise magnitude power : Float32) (clean : Option Float32) :
    Checked Gain.Bin := do
  let raw := Gain.rawPrior (greater noise powerFloor)
    (Gain.posterior (greater noise powerFloor) power) clean
  let _ ← clamp floor Gain.priorCeiling (if raw.isFinite then raw else Gain.priorCeiling)
  return Gain.binOf m floor noise magnitude power clean

/-- Gains, clean powers and likelihoods while they are written. -/
structure Gaining where
  /-- The gains. -/
  gains : List Float32
  /-- The clean powers. -/
  clean : List Float32
  /-- The sum of the likelihoods. -/
  sum : Float

/-- The clean power of bin `i` on the frame before, if there was one. -/
def pastAt (clean : List Float32) (first : Bool) (i : Nat) : Checked (Option Float32) := do
  if first then return none else return some (← get clean i)

/-- Bin `i` of a frame. -/
def gainAt (m : Elementary) (floor : Float32) (noise : List Float32) (s : Signal) (first : Bool)
    (i : Nat) (t : Gaining) : Checked Gaining := do
  let bin ← binOf m floor (← get noise i) (← get s.signal i) (← get s.power i)
    (← pastAt t.clean first i)
  let gains ← put t.gains i bin.gain
  let clean ← put t.clean i bin.clean
  return ⟨gains, clean, t.sum + widen bin.likelihood⟩

/-- The gains of the frame over given noise powers, written over `gains`. -/
def estimate (p : Plan) (memory : Gain.Memory) (noise gains : List Float32) (w : Workspace) :
    Checked (Leaves Gain.Estimate) := do
  let bins := w.signal.length
  require (w.spectral.magnitudes.length = bins)
  require (noise.length = bins)
  require (gains.length = bins)
  let s ← forEach (signalAt w.spectral.magnitudes) bins 0 ⟨w.signal, w.power⟩
  let before := memory.clean.getD []
  let first := before.isEmpty
  let clean := if first then List.replicate bins 0 else before
  let t ← forEach (gainAt p.numerics.elementary memory.priorFloor noise s first) bins 0
    ⟨gains, clean, 0⟩
  let samples : Float ← divisor p.geometry.frameLen
  return ⟨{ gains := t.gains
            power := s.power
            likelihood := narrow (t.sum / samples)
            memory := { memory with clean := some t.clean } },
    { w with signal := s.signal, power := s.power }⟩

/-! ## Chains -/

/-- One chain over the frame.  Its hop is written over `out`. -/
def step (k : Kernel) (p : Plan) (held : Bool) (c : Chain) (out : List Sample) (w : Workspace) :
    Checked (Leaves Stepped) := do
  let refined ← refine p.rules c.profile held w
  let estimated ← estimate p c.memory refined.result.profile.power c.gains refined.workspace
  let w := estimated.workspace
  let e := estimated.result
  let profile :=
    if held then refined.result.profile
    else p.rules.track refined.result.profile e.likelihood w.power
  let (work, scratch) ← invert k p (overwrite w.work (applyGains w.spectral.spectrum e.gains))
    w.scratch
  let o ← overlapAdd p.geometry p.outputScale e.memory.tail work out
  return ⟨{ chain := ⟨profile, { e.memory with tail := o.tail }, e.gains⟩
            hop := o.out
            events := refined.result.events },
    { w with work := work, scratch := scratch }⟩

/-- The frame through both chains. -/
def process (k : Kernel) (p : Plan) (c : ChainPair) (w : Workspace) :
    Checked (Leaves ChainPair.Processed) := do
  let (spectral, scratch) ← analyze k p w.frame w.spectral w.scratch
  let w := { w with spectral := spectral, scratch := scratch }
  let heard ← step k p c.held c.active w.hop w
  let w := { heard.workspace with hop := heard.result.hop }
  let unheard ← step k p c.held c.candidate w.unheard w
  let w := { unheard.workspace with unheard := unheard.result.hop }
  return ⟨{ pair := { c with active := heard.result.chain, candidate := unheard.result.chain }
            hop := w.hop
            events := heard.result.events ++ unheard.result.events }, w⟩

/-! ## The protocol -/

/-- The active chain trained on the stretch that was set aside. -/
def train (k : Kernel) (p : Plan) (c : ChainPair) (w : Workspace) : Checked (Leaves Advanced) := do
  let sampled ← sample k p w.training c.active.profile w
  let trained : Chain :=
    ⟨sampled.result, c.active.memory.reset, List.replicate c.active.gains.length 1⟩
  return ⟨{ pair := { c with
              phase := .steady
              active := trained
              candidate := trained
              sinceTrigger := 0
              sinceRetrain := 0 }
            events := [.trained p.geometry.sampleRate p.geometry.frameLen p.geometry.wideband] },
    sampled.workspace⟩

/-- The candidate retrained on the newest samples. -/
def retrain (k : Kernel) (p : Plan) (trailing : Trailing Sample) (range : Float32) (c : ChainPair)
    (w : Workspace) : Checked (Leaves Advanced) := do
  let w := { w with recent := trailing.recent p.geometry.demand }
  let sampled ← sample k p w.recent c.candidate.profile w
  let retrained : Chain := ⟨sampled.result, c.candidate.memory.reset, c.candidate.gains⟩
  return ⟨{ pair := { c with
              phase := .swapPending
              candidate := retrained
              sinceTrigger := 0
              sinceRetrain := 0
              retrains := c.retrains + 1
              lastBusy := none }
            events := [.retrained range] },
    sampled.workspace⟩

/-- The protocol after a block of new samples. -/
def advance (k : Kernel) (p : Plan) (activity : Nat → Float32) (trailing : Trailing Sample)
    (samples : Nat) (c : ChainPair) (w : Workspace) : Checked (Leaves Advanced) :=
  if !c.phase.isTrained then return ⟨⟨c, []⟩, w⟩
  else
    let c := { c with sinceTrigger := ChainPair.count c.sinceTrigger samples }
    match c.phase with
    | .steady =>
      if p.settings.autoRetrain && p.settings.switchInterval ≤ c.sinceTrigger
          && p.geometry.demand ≤ trailing.length then
        let range := activity p.settings.activityWindow
        if ChainPair.isBusy p.settings range then return ⟨c.defer range, w⟩
        else retrain k p trailing range c w
      else return ⟨⟨c, []⟩, w⟩
    | .swapPending =>
      let c := { c with sinceRetrain := ChainPair.count c.sinceRetrain samples }
      if p.settings.overlapInterval ≤ c.sinceRetrain then return ⟨c.swap, w⟩
      else return ⟨⟨c, []⟩, w⟩
    | _ => return ⟨⟨c, []⟩, w⟩

end Checked

end Denoise
