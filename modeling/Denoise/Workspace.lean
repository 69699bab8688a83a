import Denoise.Engine

/-!
# Work in place

An engine runs on vectors that are made once for a sample rate and are written over
again with every frame.  Both chains share them, and a reset does not touch them.

A `Workspace` has all of these vectors.  Its operations are those of the chains as they
run: each vector is written entry by entry, what is not written keeps its old content,
and what is read next is read from the vector.  Nothing here depends on what the
vectors held before, as long as they have their lengths.

The transforms work in place too.  What a `Kernel` leaves in its scratch is up to it.
-/

namespace Denoise

/-! ## Vectors -/

section Vectors

variable {α : Type}

/-- A vector with new entries written over its front. -/
def overwrite (old new : List α) : List α := new.take old.length ++ old.drop new.length

/-- A vector with each entry set to `x`. -/
def fillWith (x : α) (old : List α) : List α := old.map fun _ => x

/-- A vector with other entries added to its front. -/
def addOnto [Add α] (old more : List α) : List α :=
  List.zipWith (· + ·) old more ++ old.drop more.length

/-- A vector written from the front, entry by entry.  `entry i v` is entry `i` by the
vector as it is by then. -/
def writeEach (entry : Nat → List α → α) (old : List α) : List α :=
  (List.range old.length).foldl (fun v i => v.set i (entry i v)) old

end Vectors

/-! ## Transforms -/

/-- A pair of transforms that work in place.  Each gives the buffer and its scratch. -/
structure Kernel where
  /-- The scratch needed for so many points. -/
  scratchLen : Nat → Nat
  /-- From samples to bins. -/
  forward : (buffer scratch : List Sample) → List Sample × List Sample
  /-- From bins to samples, not normalised. -/
  inverse : (buffer scratch : List Sample) → List Sample × List Sample

/-- The kernel gives what the transforms give, whatever its scratch holds. -/
structure Kernel.Computes (k : Kernel) (t : Transform Float32) : Prop where
  forward : ∀ buffer scratch, k.scratchLen buffer.length ≤ scratch.length →
    (k.forward buffer scratch).1 = t.forward buffer
      ∧ (k.forward buffer scratch).2.length = scratch.length
  inverse : ∀ buffer scratch, k.scratchLen buffer.length ≤ scratch.length →
    (k.inverse buffer scratch).1 = t.inverse buffer
      ∧ (k.inverse buffer scratch).2.length = scratch.length

/-- The spectrum of a frame, and its magnitudes. -/
structure Spectral where
  /-- The spectrum. -/
  spectrum : List Sample
  /-- The magnitudes. -/
  magnitudes : List Float32

namespace Kernel

/-- A frame weighted and padded in the buffer of its spectrum, and transformed there. -/
def analyze (k : Kernel) (p : Plan) (frame : List Sample) (old : Spectral) (scratch : List Sample) :
    Spectral × List Sample :=
  let weighted := overwrite old.spectrum (List.zipWith Phasor.scale frame p.window.weights)
  let padded := weighted.take p.geometry.frameLen ++ fillWith 0 (weighted.drop p.geometry.frameLen)
  let (spectrum, scratch) := k.forward padded scratch
  (⟨spectrum, overwrite old.magnitudes (spectrum.map Phasor.norm)⟩, scratch)

/-- A spectrum transformed back in its buffer. -/
def invert (k : Kernel) (p : Plan) (buffer scratch : List Sample) : List Sample × List Sample :=
  let (samples, scratch) := k.inverse buffer scratch
  let share := 1.0 / ofCount p.geometry.fftSize
  (samples.map fun z => z.scale share, scratch)

end Kernel

/-! ## The workspace -/

/-- The vectors of an engine. -/
structure Workspace where
  /-- The scratch of the transforms. -/
  scratch : List Sample
  /-- The frame that both chains step over. -/
  spectral : Spectral
  /-- The spectrum with the gains applied, and then the frame that is synthesized. -/
  work : List Sample
  /-- The magnitudes that the gains are estimated from. -/
  signal : List Float32
  /-- Their squares. -/
  power : List Float32
  /-- A frame of a stretch that a profile is sampled from. -/
  sampled : Spectral
  /-- Sums by bin. -/
  sums : List Float32
  /-- The estimate of a profile. -/
  smoothed : List Float32
  /-- Means by bin. -/
  means : List Float32
  /-- Deviations by bin. -/
  deviations : List Float32
  /-- The deviations outside of the centre, ranked. -/
  ranked : List Float32
  /-- The bins that are trusted. -/
  trusted : List Bool
  /-- The stretch of a retrain. -/
  recent : List Sample
  /-- The hop of the candidate. -/
  unheard : List Sample
  /-- The block on its way into the input buffer. -/
  staged : List Sample
  /-- The stretch of the training. -/
  training : List Sample
  /-- The frame. -/
  frame : List Sample
  /-- The hop of the active chain. -/
  hop : List Sample

/-- A result, and the workspace it leaves. -/
structure Leaves (α : Type) where
  /-- The result. -/
  result : α
  /-- The workspace. -/
  workspace : Workspace

namespace Workspace

/-- The vectors for a geometry.  Those that are cleared before they are written have no
length of their own. -/
def fresh (k : Kernel) (g : Geometry) : Workspace where
  scratch := List.replicate (k.scratchLen g.fftSize) 0
  spectral := ⟨List.replicate g.fftSize 0, List.replicate g.fftSize 0⟩
  work := List.replicate g.fftSize 0
  signal := List.replicate g.fftSize 0
  power := List.replicate g.fftSize 0
  sampled := ⟨List.replicate g.fftSize 0, List.replicate g.fftSize 0⟩
  sums := List.replicate g.fftSize 0
  smoothed := List.replicate g.fftSize 0
  means := List.replicate g.fftSize 0
  deviations := List.replicate g.fftSize 0
  ranked := []
  trusted := List.replicate g.fftSize false
  recent := []
  unheard := List.replicate g.hop 0
  staged := []
  training := []
  frame := List.replicate g.frameLen 0
  hop := List.replicate g.hop 0

/-! ## Profiles -/

/-- The magnitudes of a frame added to the sums. -/
def addFrame (k : Kernel) (p : Plan) (w : Workspace) (frame : List Sample) : Workspace :=
  let (sampled, scratch) := k.analyze p frame w.sampled w.scratch
  { w with
    sampled := sampled
    scratch := scratch
    sums := addOnto w.sums sampled.magnitudes }

/-- A profile sampled anew. -/
def sample (k : Kernel) (p : Plan) (samples : List Sample) (profile : Profile) (w : Workspace) :
    Leaves Profile :=
  let g := p.geometry
  let count := max (min (samples.length / g.frameLen) g.noiseFrames) 1
  let share : Float32 := 1 / ofCount count
  let w := (ProfileRules.wholeFrames g.frameLen count samples).foldl (addFrame k p)
    { w with sums := fillWith 0 w.sums }
  let sums := w.sums.map (· * share)
  let smoothed := overwrite w.smoothed
    (if g.wideband then movingAverage .float ProfileRules.sampleWidth sums else sums)
  let squares := smoothed.map ProfileRules.square
  ⟨{ profile with history := [] }.adopt squares, { w with sums := sums, smoothed := squares }⟩

/-- Refinement at audio rate. -/
def refineAudio (r : ProfileRules) (profile : Profile) (w : Workspace) : Leaves Refined :=
  let recent := max (min r.geometry.noiseFrames profile.history.length) 1
  let share : Float32 := 1 / ofCount recent
  let added := (profile.history.reverse.take recent).foldl addOnto (fillWith 0 w.sums)
  let sums := added.map fun x => ProfileRules.square (x * share)
  let smoothed := overwrite w.smoothed (movingAverage .float ProfileRules.refineWidth sums)
  let w := { w with sums := sums, smoothed := smoothed }
  let low := Profile.leastOf smoothed
  let high := Profile.greatestOf smoothed
  if high - low < profile.floorHigh - profile.floorLow then
    ⟨⟨profile.adopt smoothed, .adopted, [.tighterFloor low high]⟩, w⟩
  else ⟨⟨profile, .kept, []⟩, w⟩

/-- The mean and the deviation of each bin over the history. -/
def measure (bins : Nat) (history : List (List Float32)) (w : Workspace) : Workspace :=
  let spreads := ProfileRules.spreads bins history
  { w with
    means := overwrite w.means (spreads.map ProfileRules.Spread.mean)
    deviations := overwrite w.deviations (spreads.map ProfileRules.Spread.deviation) }

/-- The deviations outside of the centre. -/
def outside (w : Workspace) : List Float32 :=
  w.deviations.zipIdx.filterMap fun (deviation, i) =>
    if ProfileRules.inCentre w.deviations.length i then none else some deviation

/-- The bins that are trusted by what was measured, and the squares of the means. -/
def select (w : Workspace) : Workspace :=
  let w := { w with ranked := Denoise.sorted w.outside }
  let threshold := ProfileRules.trustedMargin * percentile w.ranked ProfileRules.trustedShare
  let spreads := List.zipWith ProfileRules.Spread.mk w.means w.deviations
  { w with
    trusted := overwrite w.trusted
      (spreads.zipIdx.map fun (s, i) => ProfileRules.trusts threshold spreads.length s i)
    sums := overwrite w.sums (w.means.map ProfileRules.square) }

/-- Refinement of wideband input. -/
def refineWideband (r : ProfileRules) (profile : Profile) (w : Workspace) : Leaves Refined :=
  let w := (w.measure r.geometry.fftSize profile.history).select
  match fillUntrusted w.sums w.trusted with
  | some estimate =>
    let w := { w with sums := overwrite w.sums estimate }
    ⟨⟨profile.adopt w.sums, .adopted, []⟩, w⟩
  | none =>
    ⟨⟨{ profile with degenerate := true }, .degenerate,
      if profile.degenerate then [] else [.noTrustedBins]⟩, w⟩

/-- Refinement by the frame. -/
def refine (r : ProfileRules) (profile : Profile) (held : Bool) (w : Workspace) : Leaves Refined :=
  let profile := profile.record w.spectral.magnitudes
  if profile.history.length < r.threshold then ⟨⟨profile, .accumulating, []⟩, w⟩
  else if held then ⟨⟨profile, .held, []⟩, w⟩
  else if r.geometry.wideband then w.refineWideband r profile
  else w.refineAudio r profile

/-! ## Gains -/

/-- Entry `i` of the signal: the magnitude, or the entry before where there is none. -/
def signalEntry (magnitudes : List Float32) (i : Nat) (signal : List Float32) : Float32 :=
  let m := magnitudes.getD i 0
  if m == 0 && 0 < i then signal.getD (i - 1) 0 else m

/-- The bins of a frame by its signal and its power. -/
def binsOf (m : Elementary) (floor : Float32) :
    List Float32 → List Float32 → List Float32 → List (Option Float32) → List Gain.Bin
  | noise :: noises, x :: signal, y :: power, clean :: cleans =>
    Gain.binOf m floor noise x y clean :: binsOf m floor noises signal power cleans
  | _, _, _, _ => []

/-- The gains of the frame over given noise powers. -/
def estimate (p : Plan) (memory : Gain.Memory) (noise : List Float32) (w : Workspace) :
    Leaves Gain.Estimate :=
  let signal := writeEach (signalEntry w.spectral.magnitudes) w.signal
  let power := overwrite w.power (signal.map fun x => x * x)
  let bs := binsOf p.numerics.elementary memory.priorFloor noise signal power
    (memory.previous signal.length)
  ⟨{ gains := bs.map Gain.Bin.gain
     power := power
     likelihood := Gain.meanLikelihood p.geometry.frameLen bs
     memory := { memory with clean := some (bs.map Gain.Bin.clean) } },
    { w with signal := signal, power := power }⟩

/-! ## Chains -/

/-- One chain over the frame.  Its hop is written over `out`. -/
def step (k : Kernel) (p : Plan) (held : Bool) (c : Chain) (out : List Sample) (w : Workspace) :
    Leaves Stepped :=
  let refined := w.refine p.rules c.profile held
  let estimated := refined.workspace.estimate p c.memory refined.result.profile.power
  let w := estimated.workspace
  let e := estimated.result
  let profile :=
    if held then refined.result.profile
    else p.rules.track refined.result.profile e.likelihood w.power
  let work := overwrite w.work (applyGains w.spectral.spectrum e.gains)
  let (work, scratch) := k.invert p work w.scratch
  let o := overlapAdd p.geometry.hop p.outputScale e.memory.tail work
  ⟨{ chain := ⟨profile, { e.memory with tail := o.tail }, e.gains⟩
     hop := overwrite out o.out
     events := refined.result.events },
    { w with work := work, scratch := scratch }⟩

/-- The frame through both chains. -/
def process (k : Kernel) (p : Plan) (c : ChainPair) (w : Workspace) :
    Leaves ChainPair.Processed :=
  let (spectral, scratch) := k.analyze p w.frame w.spectral w.scratch
  let w := { w with spectral := spectral, scratch := scratch }
  let heard := w.step k p c.held c.active w.hop
  let w := { heard.workspace with hop := heard.result.hop }
  let unheard := w.step k p c.held c.candidate w.unheard
  let w := { unheard.workspace with unheard := unheard.result.hop }
  ⟨{ pair := { c with active := heard.result.chain, candidate := unheard.result.chain }
     hop := w.hop
     events := heard.result.events ++ unheard.result.events }, w⟩

/-! ## The protocol -/

/-- The active chain trained on the stretch that was set aside. -/
def train (k : Kernel) (p : Plan) (c : ChainPair) (w : Workspace) : Leaves Advanced :=
  let sampled := w.sample k p w.training c.active.profile
  let trained : Chain :=
    ⟨sampled.result, c.active.memory.reset, List.replicate c.active.gains.length 1⟩
  ⟨{ pair := { c with
       phase := .steady
       active := trained
       candidate := trained
       sinceTrigger := 0
       sinceRetrain := 0 }
     events := [.trained p.geometry.sampleRate p.geometry.frameLen p.geometry.wideband] },
    sampled.workspace⟩

/-- The candidate retrained on the newest samples. -/
def retrain (k : Kernel) (p : Plan) (trailing : Trailing Sample) (range : Float32) (c : ChainPair)
    (w : Workspace) : Leaves Advanced :=
  let w := { w with recent := trailing.recent p.geometry.demand }
  let sampled := w.sample k p w.recent c.candidate.profile
  let retrained : Chain := ⟨sampled.result, c.candidate.memory.reset, c.candidate.gains⟩
  ⟨{ pair := { c with
       phase := .swapPending
       candidate := retrained
       sinceTrigger := 0
       sinceRetrain := 0
       retrains := c.retrains + 1
       lastBusy := none }
     events := [.retrained range] },
    sampled.workspace⟩

/-- The protocol after a block of new samples. -/
def advance (k : Kernel) (p : Plan) (activity : Nat → Float32) (trailing : Trailing Sample)
    (samples : Nat) (c : ChainPair) (w : Workspace) : Leaves Advanced :=
  if !c.phase.isTrained then ⟨⟨c, []⟩, w⟩
  else
    let c := { c with sinceTrigger := ChainPair.count c.sinceTrigger samples }
    match c.phase with
    | .steady =>
      if p.settings.autoRetrain && p.settings.switchInterval ≤ c.sinceTrigger
          && p.geometry.demand ≤ trailing.length then
        let range := activity p.settings.activityWindow
        if ChainPair.isBusy p.settings range then ⟨c.defer range, w⟩
        else w.retrain k p trailing range c
      else ⟨⟨c, []⟩, w⟩
    | .swapPending =>
      let c := { c with sinceRetrain := ChainPair.count c.sinceRetrain samples }
      if p.settings.overlapInterval ≤ c.sinceRetrain then ⟨c.swap, w⟩ else ⟨⟨c, []⟩, w⟩
    | _ => ⟨⟨c, []⟩, w⟩

end Workspace

end Denoise
