import Denoise.Engine
import Denoise.Pipe

/-!
# Processing blocks

A processing block is an engine with a bypass switch, placed between two pipes.

One cycle reads a block of samples, works on it, and publishes what comes out.
The work is one step for everybody else: nothing is reconfigured in the middle
of a block.  Between the steps anything may be reconfigured, and a switch of the
bypass takes effect at the next step of work.

An empty output is not published.
-/

namespace Denoise

/-- An engine with a bypass switch. -/
structure Block where
  /-- The engine. -/
  engine : Engine
  /-- Whether input is passed on as it is. -/
  bypassed : Bool

/-- A block and what is reported. -/
structure Served where
  /-- The block. -/
  block : Block
  /-- What is reported. -/
  events : List Event

/-- A block after some samples. -/
structure Worked (S : Type) where
  /-- The block. -/
  block : Block
  /-- What is to be published. -/
  output : List S
  /-- How many samples of it. -/
  count : Nat
  /-- What is reported. -/
  events : List Event

/-- A request to reconfigure a block. -/
inductive Request where
  /-- A new carrier. -/
  | retune (carrier : Float)
  /-- A new sample rate. -/
  | setRate (rate : Float32)
  /-- Refinement frozen or set free. -/
  | setHold (held : Bool)
  /-- Input and adaptive state discarded. -/
  | reset
  /-- The bypass switched. -/
  | setBypass (bypassed : Bool)

namespace Block

/-- A request to the engine.  One for a rate that is too low changes nothing. -/
def reconfigure (e : Engine) : Request → Reconfigured
  | .retune carrier => ⟨e.retune carrier, []⟩
  | .setRate rate =>
    match e.setRate rate with
    | .ok changed => changed
    | .error _ => ⟨e, []⟩
  | .setHold held => e.setHold held
  | .reset => ⟨e.reset, []⟩
  | .setBypass _ => ⟨e, []⟩

/-- The bypass switched.  It is reported when it changes. -/
def setBypass (b : Block) (bypassed : Bool) : Served :=
  ⟨{ b with bypassed := bypassed },
    if bypassed = b.bypassed then [] else [.bypassChanged bypassed]⟩

/-- A request served. -/
def serve (b : Block) (r : Request) : Served :=
  match r with
  | .setBypass bypassed => b.setBypass bypassed
  | r =>
    let changed := reconfigure b.engine r
    ⟨{ b with engine := changed.engine }, changed.events⟩

/-- The work on some samples. -/
def work {S : Type} [SampleKind S] (b : Block) (staged : List S) : Worked S :=
  if b.bypassed then ⟨b, staged, staged.length, []⟩
  else
    let fed := b.engine.process staged
    ⟨{ b with engine := fed.engine }, fed.output, fed.outcome.count, fed.events⟩

end Block

/-! ## Cycles -/

/-- How a cycle ended. -/
inductive Cycle where
  /-- So many samples were published. -/
  | published (count : Nat)
  /-- There was nothing to publish. -/
  | starved
  /-- The input has ended. -/
  | inputClosed
  /-- Nobody takes the output. -/
  | outputClosed
deriving DecidableEq, Repr

/-- The number of samples published. -/
def Cycle.count : Cycle → Nat
  | .published n => n
  | _ => 0

/-- The name of how a cycle ended. -/
def Cycle.text : Cycle → String
  | .published n => "Published(" ++ toString n ++ ")"
  | .starved => "Starved"
  | .inputClosed => "InputClosed"
  | .outputClosed => "OutputClosed"

/-- A block between two pipes. -/
structure Site (S : Type) where
  /-- The block. -/
  block : Block
  /-- The pipe it reads from. -/
  input : Pipe S
  /-- The pipe it publishes to. -/
  output : Pipe S

/-- Where a cycle stands. -/
inductive Stage where
  /-- A block of samples is read next. -/
  | reading
  /-- The block that was read is worked on next. -/
  | working
  /-- So many samples are published next. -/
  | publishing (count : Nat)
deriving DecidableEq, Repr

/-- What a step of a cycle leads to. -/
inductive Progress (S : Type) where
  /-- The cycle goes on. -/
  | goesOn (stage : Stage) (site : Site S) (events : List Event)
  /-- The cycle is over. -/
  | over (cycle : Cycle) (site : Site S) (events : List Event)

/-- A site after a whole cycle. -/
structure Cycled (S : Type) where
  /-- How the cycle ended. -/
  cycle : Cycle
  /-- The site. -/
  site : Site S
  /-- What is reported. -/
  events : List Event

namespace Site

variable {S : Type}

/-- The pending block of the input is read. -/
def receive (x : Site S) : Option (Progress S) :=
  match x.input.read with
  | .done (some _) input => some (.goesOn .working { x with input := input } [])
  | .done none input => some (.over .inputClosed { x with input := input } [])
  | _ => none

/-- The work of a cycle.  The input buffer is released, and the output staged. -/
def perform [SampleKind S] (x : Site S) : Progress S :=
  let worked := x.block.work (x.input.reader.getD [])
  let site : Site S :=
    { block := worked.block
      input := x.input.flush.getD x.input
      output := x.output.stage worked.output }
  if worked.count = 0 then .over .starved site worked.events
  else .goesOn (.publishing worked.count) site worked.events

/-- The output is published. -/
def publish (x : Site S) (count : Nat) : Option (Progress S) :=
  match x.output.swap count with
  | .done true output => some (.over (.published count) { x with output := output } [])
  | .done false output => some (.over .outputClosed { x with output := output } [])
  | _ => none

/-- One step of a cycle, unless it has to wait. -/
def step [SampleKind S] (x : Site S) : Stage → Option (Progress S)
  | .reading => x.receive
  | .working => some x.perform
  | .publishing count => x.publish count

/-- The rest of a cycle, `turns` steps at most, unless it has to wait. -/
def finish [SampleKind S] : (turns : Nat) → Stage → Site S → List Event → Option (Cycled S)
  | 0, _, _, _ => none
  | turns + 1, stage, x, reported =>
    match x.step stage with
    | none => none
    | some (.goesOn next site events) => finish turns next site (reported ++ events)
    | some (.over cycle site events) => some ⟨cycle, site, reported ++ events⟩

/-- A whole cycle, unless it has to wait.  It has no more than three steps. -/
def run [SampleKind S] (x : Site S) : Option (Cycled S) := x.finish 3 .reading []

end Site

end Denoise
