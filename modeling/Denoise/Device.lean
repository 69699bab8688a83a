import Denoise.Workspace

/-!
# Engines in place

A device is an engine with the workspace it runs in.  `Device.process` is
`Engine.process` as it happens: the block is staged, and every frame, hop and stretch
goes through the vectors of the workspace.

An `Operation` is one call from outside, with what the activity source answers during
it.  `Device.perform` is a call and `Device.answers` what a caller sees of a series of
them: what was returned, what was logged, and a snapshot after each.
-/

namespace Denoise

/-- An engine and the vectors it runs in. -/
structure Device where
  /-- The engine. -/
  engine : Engine
  /-- Its vectors. -/
  workspace : Workspace

/-! ## A block -/

namespace Workspace

/-- Training, if it has not happened and the demand is buffered.  The stretch is set
aside first. -/
def trainFrom (k : Kernel) (p : Plan) (i : Intake) (w : Workspace) : Leaves Intake :=
  if !i.pair.phase.isTrained && p.geometry.demand ≤ i.input.length then
    let trained := { w with training := i.input.take p.geometry.demand }.train k p i.pair
    ⟨{ i with pair := trained.result.pair, events := i.events ++ trained.result.events },
      trained.workspace⟩
  else ⟨i, w⟩

/-- Frames are processed while there is one in the buffer, `turns` at most. -/
def drain (k : Kernel) (p : Plan) : (turns : Nat) → Intake → Workspace → Leaves Intake
  | 0, i, w => ⟨i, w⟩
  | turns + 1, i, w =>
    if w.frame.length ≤ i.input.length then
      let done := { w with frame := overwrite w.frame i.input }.process k p i.pair
      drain k p turns { i with
        pair := done.result.pair
        input := i.input.drop w.hop.length
        hops := done.result.hop :: i.hops
        events := i.events ++ done.result.events } done.workspace
    else ⟨i, w⟩

/-- One round. -/
def round (k : Kernel) (p : Plan) (i : Intake) (w : Workspace) : Leaves Intake :=
  let trained := w.trainFrom k p (i.enter p)
  let i := trained.result
  if i.pair.phase.isTrained then trained.workspace.drain k p i.input.length i else trained

/-- Rounds, `turns` at most. -/
def run (k : Kernel) (p : Plan) : (turns : Nat) → Intake → Workspace → Leaves Intake
  | 0, i, w => ⟨i, w⟩
  | turns + 1, i, w =>
    let next := w.round k p i
    if next.result.pending.isEmpty
        || (!next.result.pair.phase.isTrained
          && next.result.pending.length == i.pending.length) then next
    else run k p turns next.result next.workspace

end Workspace

namespace Device

/-- A device for valid settings and a rate that is high enough. -/
def create (k : Kernel) (numerics : Numerics) (rate : Float32) (s : Settings)
    (activity : Nat → Float32) : Except EngineError Device :=
  (Engine.create numerics rate s activity).map fun made =>
    ⟨made.engine, .fresh k made.engine.plan.geometry⟩

/-- The arrival of a block.  It is staged, unless it is empty. -/
def arrive (k : Kernel) (d : Device) (block : List Sample) : Device × List Event :=
  if block.isEmpty then (d, [])
  else
    let e := d.engine
    let w := { d.workspace with staged := block }
    let trailing := e.trailing.push w.staged
    let advanced := w.advance k e.plan e.activity trailing block.length e.pair.beginTraining
    (⟨{ e with pair := advanced.result.pair, trailing := trailing }, advanced.workspace⟩,
      advanced.result.events)

/-- A device after a block. -/
structure Done where
  /-- The device. -/
  device : Device
  /-- The samples produced. -/
  output : List Sample
  /-- How the block ended. -/
  outcome : Outcome
  /-- What is reported. -/
  events : List Event

/-- A block through the device.  What is staged enters the input buffer. -/
def feed (k : Kernel) (d : Device) (block : List Sample) : Done :=
  let (arrived, reported) := d.arrive k block
  let e := arrived.engine
  let w := arrived.workspace
  let done := w.run k e.plan (w.staged.length + 1) ⟨e.pair, e.input, w.staged, [], reported⟩
  { device := ⟨{ e with pair := done.result.pair, input := done.result.input },
      { done.workspace with staged := [] }⟩
    output := done.result.output
    outcome := Engine.outcomeOf e.plan done.result
    events := done.result.events }

end Device

/-! ## Operations -/

/-- A call from outside. -/
inductive Operation (S : Type) where
  /-- A block is fed.  `activity` is what the activity source answers during the call. -/
  | feed (activity : Nat → Float32) (block : List S)
  /-- Refinement is frozen or set free. -/
  | setHold (held : Bool)
  /-- Input and adaptive state are discarded. -/
  | reset
  /-- The carrier is changed. -/
  | retune (carrier : Float)
  /-- The sample rate is changed. -/
  | setRate (rate : Float32)

/-- What a call returns. -/
inductive Reply (S : Type) where
  /-- How a block ended, and what it produced. -/
  | fed (outcome : Outcome) (output : List S)
  /-- The call did what it is for. -/
  | done
  /-- The call did nothing. -/
  | refused (error : EngineError)

/-- A call that was made. -/
structure Performed (State S : Type) where
  /-- The state it left. -/
  state : State
  /-- What was returned. -/
  reply : Reply S
  /-- What was reported. -/
  events : List Event

/-- What a caller sees of a call. -/
structure Answer (S : Type) where
  /-- What was returned. -/
  reply : Reply S
  /-- What was logged. -/
  records : List Record
  /-- The snapshot after the call. -/
  snapshot : Snapshot

/-- What a caller sees, by the engine that a call left. -/
def Performed.answer {State S : Type} (engine : State → Engine) (done : Performed State S) :
    Answer S :=
  ⟨done.reply, done.events.map Event.record, (engine done.state).snapshot⟩

/-- A series of calls, each on the state that the one before it left. -/
def series {State S : Type} (perform : State → Operation S → Performed State S) :
    State → List (Operation S) → List (Performed State S)
  | _, [] => []
  | state, op :: later => perform state op :: series perform (perform state op).state later

variable {S : Type} [SampleKind S]

/-- A call on an engine by itself. -/
def Engine.perform (e : Engine) : Operation S → Performed Engine S
  | .feed activity block =>
    let fed := { e with activity := activity }.process block
    ⟨fed.engine, .fed fed.outcome fed.output, fed.events⟩
  | .setHold held => ⟨(e.setHold held).engine, .done, (e.setHold held).events⟩
  | .reset => ⟨e.reset, .done, []⟩
  | .retune carrier => ⟨e.retune carrier, .done, []⟩
  | .setRate rate =>
    match e.setRate rate with
    | .error error => ⟨e, .refused error, []⟩
    | .ok changed => ⟨changed.engine, .done, changed.events⟩

namespace Device

/-- A call on a device.  A new rate needs new vectors, but for those that are cleared
whenever they are used. -/
def perform (k : Kernel) (d : Device) : Operation S → Performed Device S
  | .feed activity block =>
    let done := { d with engine := { d.engine with activity := activity } }.feed k
      (block.map SampleKind.toPhasor)
    ⟨done.device, .fed done.outcome (done.output.map SampleKind.ofPhasor), done.events⟩
  | .setHold held =>
    let changed := d.engine.setHold held
    ⟨{ d with engine := changed.engine }, .done, changed.events⟩
  | .reset => ⟨{ d with engine := d.engine.reset }, .done, []⟩
  | .retune carrier => ⟨{ d with engine := d.engine.retune carrier }, .done, []⟩
  | .setRate rate =>
    match d.engine.setRate rate with
    | .error error => ⟨d, .refused error, []⟩
    | .ok changed =>
      let fresh := Workspace.fresh k changed.engine.plan.geometry
      ⟨⟨changed.engine, { fresh with
          staged := d.workspace.staged
          training := d.workspace.training }⟩, .done, changed.events⟩

/-- What a caller sees of a series of calls. -/
def answers (k : Kernel) (d : Device) (ops : List (Operation S)) : List (Answer S) :=
  (series (perform k) d ops).map (Performed.answer Device.engine)

end Device

end Denoise
