import Denoise.Block

/-!
# Workers

A worker runs the cycles of a processing block until one of its pipes closes.
When the input has ended the engine is reset, so that a new input trains it
anew.  A worker that ends lets go of both pipes.

`Worker.step?` is one step of a worker, and `Worker.serve` a request from
outside that comes between two steps.

A `Line` is a worker with a feeder before it and a consumer behind it.  The
feeder writes its blocks and goes.  The consumer reads until the stream ends.
`Line.step?` is a step of one of the three, if it does not have to wait, so a
run of the line is any sequence of such steps.  `Line.settle` is one run: the
worker goes first, then the consumer, then the feeder.
-/

namespace Denoise

/-- A worker on a site. -/
structure Worker (S : Type) where
  /-- The block and its pipes. -/
  site : Site S
  /-- Where the cycle stands, while the worker runs. -/
  stage : Option Stage
  /-- How each cycle ended, in order. -/
  cycles : List Cycle
  /-- What was reported. -/
  events : List Event

namespace Worker

variable {S : Type}

/-- A worker that starts. -/
def start (site : Site S) : Worker S := ⟨site, some .reading, [], []⟩

/-- The samples published. -/
def published (w : Worker S) : Nat := w.cycles.foldl (fun count c => count + c.count) 0

/-- The end of a worker. -/
def retire (w : Worker S) (event : Event) : Worker S :=
  { w with
    site := { w.site with
      input := w.site.input.dropReader
      output := w.site.output.dropWriter }
    stage := none
    events := w.events ++ [event] }

/-- What a worker does when a cycle is over. -/
def conclude (w : Worker S) : Cycle → Worker S
  | .inputClosed =>
    let block := { w.site.block with engine := w.site.block.engine.reset }
    { w with site := { w.site with block := block } }.retire (.inputDetached w.published)
  | .outputClosed => w.retire (.outputClosed w.published)
  | _ => { w with stage := some .reading }

/-- One step, unless the worker has ended or has to wait. -/
def step? [SampleKind S] (w : Worker S) : Option (Worker S) :=
  w.stage.bind fun stage =>
    (w.site.step stage).map fun
      | .goesOn next site events =>
        { w with site := site, stage := some next, events := w.events ++ events }
      | .over cycle site events =>
        { w with
          site := site
          cycles := w.cycles ++ [cycle]
          events := w.events ++ events }.conclude cycle

/-- A request from outside. -/
def serve (w : Worker S) (r : Request) : Worker S :=
  let served := w.site.block.serve r
  { w with
    site := { w.site with block := served.block }
    events := w.events ++ served.events }

end Worker

/-! ## A line -/

/-- Those who move a line. -/
inductive Actor where
  /-- Writes the input. -/
  | feeder
  /-- Runs the block. -/
  | worker
  /-- Reads the output. -/
  | consumer
deriving DecidableEq, Repr

/-- A worker with a feeder and a consumer. -/
structure Line (S : Type) where
  /-- The blocks still to be written. -/
  unfed : List (List S)
  /-- Whether every block written found a reader. -/
  fed : Bool
  /-- The worker. -/
  worker : Worker S
  /-- The blocks the consumer has read. -/
  received : List (List S)
  /-- Whether the consumer has seen the end of the stream. -/
  finished : Bool

namespace Line

variable {S : Type}

/-- A line before its first step. -/
def start (site : Site S) (blocks : List (List S)) : Line S :=
  ⟨blocks, true, .start site, [], false⟩

/-- The line with another input pipe. -/
def withInput (l : Line S) (input : Pipe S) : Line S :=
  { l with worker := { l.worker with site := { l.worker.site with input := input } } }

/-- The line with another output pipe. -/
def withOutput (l : Line S) (output : Pipe S) : Line S :=
  { l with worker := { l.worker with site := { l.worker.site with output := output } } }

/-- The feeder writes its next block.  After the last it goes. -/
def feed? (l : Line S) : Option (Line S) :=
  let input := l.worker.site.input
  match l.unfed with
  | [] => input.writer.map fun _ => l.withInput input.dropWriter
  | block :: rest =>
    match input.write block with
    | .done accepted input =>
      some { l.withInput input with unfed := rest, fed := l.fed && accepted }
    | _ => none

/-- The consumer reads a block, or learns that there is none to come. -/
def consume? (l : Line S) : Option (Line S) :=
  if l.finished then none
  else
    match l.worker.site.output.read with
    | .done (some _) output =>
      some { l.withOutput (output.flush.getD output) with
        received := l.received ++ [output.reader.getD []] }
    | .done none output => some { l.withOutput output with finished := true }
    | _ => none

/-- A step of one actor, unless it is done or has to wait. -/
def step? [SampleKind S] (l : Line S) : Actor → Option (Line S)
  | .feeder => l.feed?
  | .worker => l.worker.step?.map fun w => { l with worker := w }
  | .consumer => l.consume?

/-- A step of the first actor that can make one. -/
def next? [SampleKind S] (l : Line S) : Option (Line S) :=
  l.step? .worker <|> l.step? .consumer <|> l.step? .feeder

/-- Steps while there are any, `turns` at most. -/
def runFor [SampleKind S] : (turns : Nat) → Line S → Line S
  | 0, l => l
  | turns + 1, l =>
    match l.next? with
    | none => l
    | some next => runFor turns next

/-- The line after all its steps.  A block takes no more than five: it is written,
read, worked on, published and consumed.  The ends take four more. -/
def settle [SampleKind S] (l : Line S) : Line S := l.runFor (5 * l.unfed.length + 8)

end Line

end Denoise
