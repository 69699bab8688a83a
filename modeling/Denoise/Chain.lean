import Denoise.Plan
import Denoise.Trailing

/-!
# Chains, and the pair of them

A chain is one complete set of adaptive state: a noise profile, the memory of
its gains, and the gains of its last frame.  The reducer runs two over the same
frames.  The *active* one is heard.  The *candidate* is retrained now and then on
recent quiet input, converges unheard, and is then swapped in.

    uninitialized → training → steady → retraining → swapPending → steady

The phase `retraining` lasts only as long as the candidate's profile is sampled.
The protocol advances once per block, before the frames of the block are
processed.
-/

namespace Denoise

/-! ## One chain -/

/-- One set of adaptive state. -/
structure Chain where
  /-- The noise profile. -/
  profile : Profile
  /-- The memory of the gains. -/
  memory : Gain.Memory
  /-- The gains of the last frame. -/
  gains : List Float32
deriving DecidableEq

/-- A chain after a frame. -/
structure Stepped where
  /-- The chain. -/
  chain : Chain
  /-- Its hop of output. -/
  hop : List Sample
  /-- What is reported. -/
  events : List Event

namespace Chain

/-- A chain before any frame. -/
def fresh (p : Plan) : Chain where
  profile := p.rules.freshProfile
  memory := .fresh p.numerics.elementary p.geometry.tailLen
  gains := List.replicate p.geometry.fftSize 1

/-- The output of a frame with given gains, and the tail it leaves. -/
def synthesize (p : Plan) (spectrum : List Sample) (gains : List Float32) (tail : List Sample) :
    Overlapped Float32 :=
  overlapAdd p.geometry.hop p.outputScale tail
    (invert p.numerics.transform (applyGains spectrum gains))

/-- One frame: the profile is refined, the gains are estimated from it, the frame
may be blended into it, and the gains are applied. -/
def step (p : Plan) (held : Bool) (spectrum : List Sample) (c : Chain) : Stepped :=
  let magnitudes := spectrum.map Phasor.norm
  let refined := p.rules.refine c.profile magnitudes held
  let e := Gain.estimate p.numerics.elementary p.geometry.frameLen c.memory refined.profile.power
    magnitudes
  let profile :=
    if held then refined.profile else p.rules.track refined.profile e.likelihood e.power
  let o := synthesize p spectrum e.gains e.memory.tail
  { chain := ⟨profile, { e.memory with tail := o.tail }, e.gains⟩
    hop := o.out
    events := refined.events }

/-- A chain whose profile is sampled anew.  Its memory is forgotten, its gains
stay. -/
def resample (p : Plan) (samples : List Sample) (c : Chain) : Chain :=
  { c with profile := p.sampleProfile samples c.profile, memory := c.memory.reset }

/-- A chain that is trained: resampled, with gains that change nothing. -/
def train (p : Plan) (samples : List Sample) (c : Chain) : Chain :=
  { c.resample p samples with gains := List.replicate c.gains.length 1 }

end Chain

/-! ## The pair -/

/-- The phases of the protocol. -/
inductive Phase where
  /-- No input since the last reset. -/
  | uninitialized
  /-- The first stretch is being gathered. -/
  | training
  /-- The active chain is trained, and the candidate may be retrained. -/
  | steady
  /-- The candidate's profile is being sampled. -/
  | retraining
  /-- The candidate converges until it is swapped in. -/
  | swapPending
deriving DecidableEq, Repr

/-- Whether the active chain is trained. -/
def Phase.isTrained : Phase → Bool
  | .uninitialized => false
  | .training => false
  | _ => true

/-- The two chains and the state of the protocol. -/
structure ChainPair where
  /-- The phase. -/
  phase : Phase
  /-- The chain that is heard. -/
  active : Chain
  /-- The chain that may be promoted. -/
  candidate : Chain
  /-- Whether refinement is frozen. -/
  held : Bool
  /-- Samples since training, the last retrain or the last swap. -/
  sinceTrigger : Nat
  /-- Samples since the last retrain, while a swap is pending. -/
  sinceRetrain : Nat
  /-- The number of retrains. -/
  retrains : Nat
  /-- The number of swaps. -/
  swaps : Nat
  /-- The whole decibels of the last busy reading that was reported. -/
  lastBusy : Option Int
deriving DecidableEq

/-- A pair and what is reported. -/
structure Advanced where
  /-- The pair. -/
  pair : ChainPair
  /-- What is reported. -/
  events : List Event

namespace ChainPair

/-- A pair before any input. -/
def fresh (p : Plan) : ChainPair where
  phase := .uninitialized
  active := .fresh p
  candidate := .fresh p
  held := false
  sinceTrigger := 0
  sinceRetrain := 0
  retrains := 0
  swaps := 0
  lastBusy := none

/-- Fresh chains.  The hold is the user's and stays, and the counts go on. -/
def reset (p : Plan) (c : ChainPair) : ChainPair :=
  { c with
    phase := .uninitialized
    active := .fresh p
    candidate := .fresh p
    sinceTrigger := 0
    sinceRetrain := 0
    lastBusy := none }

/-- The start of training, once input arrives. -/
def beginTraining (c : ChainPair) : ChainPair :=
  if c.phase = .uninitialized then { c with phase := .training } else c

/-- The active chain is trained on a stretch of noise, and the candidate starts
as its copy. -/
def train (p : Plan) (samples : List Sample) (c : ChainPair) : Advanced :=
  let trained := c.active.train p samples
  { pair := { c with
      phase := .steady
      active := trained
      candidate := trained
      sinceTrigger := 0
      sinceRetrain := 0 }
    events := [.trained p.geometry.sampleRate p.geometry.frameLen p.geometry.wideband] }

/-- The whole decibels of a reading.  One that is not finite counts as the
greatest. -/
def wholeDecibels (range : Float32) : Int :=
  if range.isFinite then range.toInt32.toInt else 0x7fffffff

/-- Whether a channel with this range is too busy for a retrain. -/
def isBusy (s : Settings) (range : Float32) : Bool :=
  range.isNaN || s.silenceThresholdDb ≤ range

/-- A retrain put off.  It is reported when the whole decibels change. -/
def defer (range : Float32) (c : ChainPair) : Advanced :=
  let whole := wholeDecibels range
  if c.lastBusy = some whole then ⟨c, []⟩
  else ⟨{ c with lastBusy := some whole }, [.deferred range]⟩

/-- The candidate is retrained on the newest samples. -/
def retrain (p : Plan) (trailing : Trailing Sample) (range : Float32) (c : ChainPair) : Advanced :=
  let sampling := { c with phase := .retraining, lastBusy := none }
  let retrained := sampling.candidate.resample p (trailing.recent p.geometry.demand)
  { pair := { sampling with
      phase := .swapPending
      candidate := retrained
      sinceTrigger := 0
      sinceRetrain := 0
      retrains := c.retrains + 1 }
    events := [.retrained range] }

/-- The chains exchanged. -/
def swap (c : ChainPair) : Advanced where
  pair := { c with
    phase := .steady
    active := c.candidate
    candidate := c.active
    sinceTrigger := 0
    sinceRetrain := 0
    swaps := c.swaps + 1 }
  events := [.swapped c.candidate.profile.generation]

/-- A counter after some more samples. -/
def count (counter samples : Nat) : Nat := min (counter + samples) maxCount

/-- The protocol after a block of new samples.  `activity` gives the dynamic
range of the last readings of the channel. -/
def advance (p : Plan) (activity : Nat → Float32) (trailing : Trailing Sample) (samples : Nat)
    (c : ChainPair) : Advanced :=
  if !c.phase.isTrained then ⟨c, []⟩
  else
    let c := { c with sinceTrigger := count c.sinceTrigger samples }
    match c.phase with
    | .steady =>
      if p.settings.autoRetrain && p.settings.switchInterval ≤ c.sinceTrigger
          && p.geometry.demand ≤ trailing.length then
        let range := activity p.settings.activityWindow
        if isBusy p.settings range then c.defer range else c.retrain p trailing range
      else ⟨c, []⟩
    | .swapPending =>
      let c := { c with sinceRetrain := count c.sinceRetrain samples }
      if p.settings.overlapInterval ≤ c.sinceRetrain then c.swap else ⟨c, []⟩
    | _ => ⟨c, []⟩

/-- A pair after a frame, and the hop that is heard. -/
structure Processed where
  /-- The pair. -/
  pair : ChainPair
  /-- The hop of the active chain. -/
  hop : List Sample
  /-- What is reported. -/
  events : List Event

/-- One frame through both chains. -/
def process (p : Plan) (frame : List Sample) (c : ChainPair) : Processed :=
  let spectrum := p.spectrum frame
  let heard := c.active.step p c.held spectrum
  let unheard := c.candidate.step p c.held spectrum
  { pair := { c with active := heard.chain, candidate := unheard.chain }
    hop := heard.hop
    events := heard.events ++ unheard.events }

end ChainPair

end Denoise
