import Denoise.Snapshot

/-!
# The engine

The streaming front of the noise reducer.  It takes blocks of any size, cuts
them into overlapping frames, and gives back whole hops.

Until the training demand is buffered nothing is produced.  The first samples,
as many as the demand, are taken for noise and train the active chain.  They are
processed and published all the same.  From then on a frame is processed
whenever one is buffered.  It gives one hop and uses up one hop.

A block enters the bounded input buffer in rounds: as much as there is room for,
then training if the demand is reached, then every frame that is there.

A retune, a reset and a change of the rate discard the buffered input and all
adaptive state.
-/

namespace Denoise

/-! ## Samples of either kind -/

/-- The kinds of samples a stream may carry. -/
class SampleKind (S : Type) where
  /-- The sample as the reducer works on it. -/
  toPhasor : S → Sample
  /-- What the stream keeps of a processed sample. -/
  ofPhasor : Sample → S

instance : SampleKind Float32 := ⟨Phasor.ofReal, Phasor.re⟩

instance : SampleKind Sample := ⟨id, id⟩

/-! ## The engine -/

/-- Why an engine cannot be built. -/
inductive EngineError where
  /-- The sample rate is too low for a frame. -/
  | sampleRate (rate : Float32)
  /-- The settings break a rule. -/
  | setting (violation : Violation)
deriving DecidableEq

/-- The text of an error. -/
def EngineError.message : EngineError → String
  | .sampleRate rate =>
    "sample rate " ++ Event.plain rate ++ " Hz is too low to form an analysis frame"
  | .setting v => "invalid setting \x60" ++ v.setting ++ "\x60: " ++ v.reason

/-- A noise reducer for one stream. -/
structure Engine where
  /-- What is fixed at the current rate. -/
  plan : Plan
  /-- The chains. -/
  pair : ChainPair
  /-- The dynamic range of the last so many readings of the channel. -/
  activity : Nat → Float32
  /-- The frequency of the carrier (Hz). -/
  carrier : Float
  /-- Samples waiting to be processed, oldest first. -/
  input : List Sample
  /-- The newest samples fed. -/
  trailing : Trailing Sample

/-- How a block ended. -/
inductive Outcome where
  /-- Nothing was produced: so many samples are buffered, and so many needed. -/
  | starved (buffered demand : Nat)
  /-- So many samples were produced. -/
  | produced (count : Nat)
deriving DecidableEq, Repr

/-- The number of samples produced. -/
def Outcome.count : Outcome → Nat
  | .starved _ _ => 0
  | .produced n => n

/-- A block on its way through the input buffer. -/
structure Intake where
  /-- The chains. -/
  pair : ChainPair
  /-- The input buffer. -/
  input : List Sample
  /-- The samples that have not entered it. -/
  pending : List Sample
  /-- The hops that were produced, newest first. -/
  hops : List (List Sample)
  /-- What is reported. -/
  events : List Event

namespace Intake

/-- What was produced. -/
def output (i : Intake) : List Sample := i.hops.reverse.flatten

/-- As much of the block enters as there is room for. -/
def enter (p : Plan) (i : Intake) : Intake :=
  let room := p.geometry.bufferSize - i.input.length
  { i with input := i.input ++ i.pending.take room, pending := i.pending.drop room }

/-- Training, if it has not happened and the demand is buffered. -/
def train (p : Plan) (i : Intake) : Intake :=
  if !i.pair.phase.isTrained && p.geometry.demand ≤ i.input.length then
    let trained := i.pair.train p (i.input.take p.geometry.demand)
    { i with pair := trained.pair, events := i.events ++ trained.events }
  else i

/-- Frames are processed while there is one in the buffer, `turns` at most. -/
def drain (p : Plan) : (turns : Nat) → Intake → Intake
  | 0, i => i
  | turns + 1, i =>
    let frame := i.input.take p.geometry.frameLen
    if frame.length = p.geometry.frameLen then
      let done := i.pair.process p frame
      drain p turns { i with
        pair := done.pair
        input := i.input.drop p.geometry.hop
        hops := done.hop :: i.hops
        events := i.events ++ done.events }
    else i

/-- One round. -/
def round (p : Plan) (i : Intake) : Intake :=
  let i := (i.enter p).train p
  if i.pair.phase.isTrained then i.drain p i.input.length else i

/-- Rounds until the whole block has entered, or a round before training lets
nothing in, `turns` at most. -/
def run (p : Plan) : (turns : Nat) → Intake → Intake
  | 0, i => i
  | turns + 1, i =>
    let next := i.round p
    if next.pending.isEmpty
        || (!next.pair.phase.isTrained && next.pending.length == i.pending.length) then next
    else next.run p turns

end Intake

/-- An engine after a block. -/
structure Fed (S : Type) where
  /-- The engine. -/
  engine : Engine
  /-- The samples produced. -/
  output : List S
  /-- How the block ended. -/
  outcome : Outcome
  /-- What is reported. -/
  events : List Event

/-- An engine and what is reported. -/
structure Reconfigured where
  /-- The engine. -/
  engine : Engine
  /-- What is reported. -/
  events : List Event

namespace Engine

/-- An engine that has seen no input. -/
def idle (p : Plan) (activity : Nat → Float32) (carrier : Float) : Engine where
  plan := p
  pair := .fresh p
  activity := activity
  carrier := carrier
  input := []
  trailing := .empty p.geometry.demand

/-- An engine for valid settings and a rate that is high enough. -/
def create (numerics : Numerics) (rate : Float32) (s : Settings) (activity : Nat → Float32) :
    Except EngineError Reconfigured :=
  match s.violation? with
  | some v => .error (.setting v)
  | none =>
    match Plan.ofRate? numerics s rate with
    | none => .error (.sampleRate rate)
    | some p =>
      let g := p.geometry
      .ok ⟨idle p activity 0, [.started rate g.frameLen g.hop g.demand]⟩

/-- The gains of the active chain on the last frame. -/
def lastGains (e : Engine) : List Float32 := e.pair.active.gains

/-- The view of an engine. -/
def snapshot (e : Engine) : Snapshot where
  sampleRate := e.plan.geometry.sampleRate
  wideband := e.plan.geometry.wideband
  carrier := e.carrier
  phase := e.pair.phase
  held := e.pair.held
  buffered := e.input.length
  trailing := e.trailing.length
  sinceTrigger := e.pair.sinceTrigger
  sinceRetrain := e.pair.sinceRetrain
  retrains := e.pair.retrains
  swaps := e.pair.swaps
  activeGeneration := e.pair.active.profile.generation
  candidateGeneration := e.pair.candidate.profile.generation

/-- The arrival of a block, before any of it is processed: training begins, the
trailing buffer takes it, and the protocol advances.  An empty block changes
nothing. -/
def arrive (e : Engine) (block : List Sample) : Engine × List Event :=
  if block.isEmpty then (e, [])
  else
    let trailing := e.trailing.push block
    let advanced := e.pair.beginTraining.advance e.plan e.activity trailing block.length
    ({ e with pair := advanced.pair, trailing := trailing }, advanced.events)

/-- How a block ended, by the state it left. -/
def outcomeOf (p : Plan) (i : Intake) : Outcome :=
  let produced := i.output.length
  if !i.pair.phase.isTrained then .starved i.input.length p.geometry.demand
  else if produced = 0 then .starved i.input.length p.geometry.frameLen
  else .produced produced

/-- A block through the engine. -/
def feed (e : Engine) (block : List Sample) : Fed Sample :=
  let (arrived, reported) := e.arrive block
  let intake : Intake := ⟨arrived.pair, arrived.input, block, [], reported⟩
  let done := intake.run e.plan (block.length + 1)
  { engine := { arrived with pair := done.pair, input := done.input }
    output := done.output
    outcome := outcomeOf e.plan done
    events := done.events }

/-- A block of samples of either kind. -/
def process {S : Type} [SampleKind S] (e : Engine) (block : List S) : Fed S :=
  let fed := e.feed (block.map SampleKind.toPhasor)
  { engine := fed.engine
    output := fed.output.map SampleKind.ofPhasor
    outcome := fed.outcome
    events := fed.events }

/-- Buffered input and adaptive state discarded. -/
def reset (e : Engine) : Engine :=
  { e with pair := e.pair.reset e.plan, input := [], trailing := e.trailing.clear }

/-- A new carrier.  The noise is another one there, so the engine is reset. -/
def retune (e : Engine) (carrier : Float) : Engine := { e with carrier := carrier }.reset

/-- A new sample rate.  Everything is built anew, but for the carrier and the
hold.  An engine whose new rate is too low stays as it is. -/
def setRate (e : Engine) (rate : Float32) : Except EngineError Reconfigured :=
  match Plan.ofRate? e.plan.numerics e.plan.settings rate with
  | none => .error (.sampleRate rate)
  | some p =>
    let fresh := idle p e.activity e.carrier
    .ok ⟨{ fresh with pair := { fresh.pair with held := e.pair.held } },
      [.rateChanged rate p.geometry.wideband]⟩

/-- Refinement frozen or set free. -/
def setHold (e : Engine) (held : Bool) : Reconfigured :=
  ⟨{ e with pair := { e.pair with held := held } },
    if held = e.pair.held then [] else [.holdChanged held]⟩

end Engine

end Denoise
