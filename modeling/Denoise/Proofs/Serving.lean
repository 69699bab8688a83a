import Denoise.Device
import Denoise.Proofs.Line
import Mathlib.Data.List.Basic

/-!
# Cycles and requests, one after another

A worker runs the cycles of a block.  Between any two of its steps other threads may
reconfigure the block, the feeder and the consumer may do anything to their halves of the
pipes, and the activity source may come to answer differently.  `Serving.Run` says which
worker a history of all this leads to.

The engine is only ever touched by requests and by the work of cycles that are not
bypassed, each of which is one step.  So the history itself has the order of the calls on
the engine (`operations`), and a sequential engine that is given them one after another is
where the engine of the block is.  What such an engine puts out, together with the blocks
that are passed on as they are, is what the worker offers to the consumer, block by block
(`outputs`), and how every cycle ended can be read off it (`cycles`).

The difficulty is that a cycle offers its output a step after it let go of the engine, so
requests come in between.  `Serving.Serves` is the invariant: until then the output is in
the writer's buffer, whole, and no request touches that.
-/

namespace Denoise

variable {S : Type}

/-! ## Histories -/

/-- Whether a step of a pipe is one of its writer. -/
def Pipe.Act.byWriter : Pipe.Act S → Bool
  | .fill | .swap .. | .dropWriter | .recycle => true
  | .read _ | .flush | .dropReader => false

/-- Whether a step of a pipe is one of its reader. -/
def Pipe.Act.byReader : Pipe.Act S → Bool
  | .read _ | .flush | .dropReader | .recycle => true
  | .fill | .swap .. | .dropWriter => false

/-- The call that a request makes on the engine.  The bypass is no matter of the
engine. -/
def Request.operation? : Request → Option (Operation S)
  | .retune carrier => some (.retune carrier)
  | .setRate rate => some (.setRate rate)
  | .setHold held => some (.setHold held)
  | .reset => some .reset
  | .setBypass _ => none

namespace Serving

/-- What was done at a site. -/
inductive Act (S : Type) where
  /-- The feeder made a step. -/
  | feeder (act : Pipe.Act S)
  /-- The consumer made a step. -/
  | consumer (act : Pipe.Act S)
  /-- The activity source came to answer differently. -/
  | hears
  /-- Another thread reconfigured the block. -/
  | request (r : Request)
  /-- A cycle read a block, or the end of the stream. -/
  | reads (block : Option (List S))
  /-- A cycle worked on a block, with the switch and the activity source as it says. -/
  | works (bypassed : Bool) (activity : Nat → Float32) (block : List S)
  /-- A cycle offered a block, and there was somebody to take it or not. -/
  | offers (block : List S) (taken : Bool)
  /-- The worker let go of its pipes. -/
  | leaves

namespace Act

/-- The call on the engine. -/
def operation? : Act S → Option (Operation S)
  | .request r => r.operation?
  | .works false activity block => some (.feed activity block)
  | _ => none

/-- What the bypass was switched to. -/
def switch? : Act S → Option Bool
  | .request (.setBypass bypassed) => some bypassed
  | _ => none

/-- The block that was read. -/
def read? : Act S → Option (List S)
  | .reads block => block
  | _ => none

/-- The block that was worked on. -/
def worked? : Act S → Option (List S)
  | .works _ _ block => some block
  | _ => none

/-- The block that was offered and taken. -/
def handed? : Act S → Option (List S)
  | .offers block true => some block
  | _ => none

/-- The block that was offered to nobody. -/
def refused? : Act S → Option (List S)
  | .offers block false => some block
  | _ => none

/-- What was done to the input pipe. -/
def onInput? : Act S → Option (Pipe.Act S)
  | .feeder act => some act
  | .reads block => some (.read block)
  | .works .. => some .flush
  | .leaves => some .dropReader
  | _ => none

/-- What was done to the output pipe. -/
def onOutput? : Act S → Option (Pipe.Act S)
  | .consumer act => some act
  | .works .. => some .fill
  | .offers block taken => some (.swap block block.length taken)
  | .leaves => some .dropWriter
  | _ => none

variable [SampleKind S]

/-- What the work of a cycle puts out, on a given engine. -/
def output? (e : Engine) : Act S → Option (List S)
  | .works true _ block => some block
  | .works false activity block => some ({ e with activity := activity }.process block).output
  | _ => none

/-- How a cycle ended by it, on a given engine. -/
def cycle? (e : Engine) : Act S → Option Cycle
  | .reads none => some .inputClosed
  | .offers block true => some (.published block.length)
  | .offers _ false => some .outputClosed
  | act => (act.output? e).bind fun output => if output.isEmpty then some .starved else none

end Act

/-- What some acts of a history show, in order. -/
def shown {β : Type} (show? : Act S → Option β) (history : List (Act S)) : List β :=
  history.filterMap show?

/-- The calls on the engine, in order. -/
def operations (history : List (Act S)) : List (Operation S) := shown Act.operation? history

/-- The bypass after a history. -/
def switchAfter (bypassed : Bool) (history : List (Act S)) : Bool :=
  (shown Act.switch? history).getLastD bypassed

section Sequential

variable [SampleKind S]

/-- A sequential engine after some calls. -/
def after (e : Engine) (ops : List (Operation S)) : Engine :=
  ops.foldl (fun e op => (e.perform op).state) e

/-- What there is to see along a history of a sequential engine, which each act finds as
the calls before it left it. -/
def along {β : Type} (see : Engine → Act S → Option β) : Engine → List (Act S) → List β
  | _, [] => []
  | e, act :: later => (see e act).toList ++ along see (after e act.operation?.toList) later

/-- What the cycles put out, in order. -/
def outputs (e : Engine) (history : List (Act S)) : List (List S) := along Act.output? e history

/-- How the cycles ended, in order. -/
def cycles (e : Engine) (history : List (Act S)) : List Cycle := along Act.cycle? e history

end Sequential

theorem shown_concat {β : Type} (show? : Act S → Option β) (history : List (Act S)) (act : Act S) :
    shown show? (history ++ [act]) = shown show? history ++ (show? act).toList := by
  rw [shown, List.filterMap_append, List.filterMap_cons, shown]
  cases show? act <;> rfl

theorem switchAfter_concat (bypassed : Bool) (history : List (Act S)) (act : Act S) :
    switchAfter bypassed (history ++ [act]) = act.switch?.getD (switchAfter bypassed history) := by
  rw [switchAfter, shown_concat, switchAfter]
  cases act.switch? with
  | none => rw [Option.toList_none, List.append_nil, Option.getD_none]
  | some b => rw [Option.toList_some, List.getLastD_concat, Option.getD_some]

section Sequential

variable [SampleKind S]

theorem after_append (e : Engine) (ops more : List (Operation S)) :
    after e (ops ++ more) = after (after e ops) more :=
  List.foldl_append

omit [SampleKind S] in
theorem operations_concat (history : List (Act S)) (act : Act S) :
    operations (history ++ [act]) = operations history ++ act.operation?.toList :=
  shown_concat _ _ _

/-- What is seen of one act more is seen by the engine that the calls before it left. -/
theorem along_concat {β : Type} (see : Engine → Act S → Option β) (e : Engine)
    (history : List (Act S)) (act : Act S) :
    along see e (history ++ [act])
      = along see e history ++ (see (after e (operations history)) act).toList := by
  induction history generalizing e with
  | nil => exact List.append_nil _
  | cons first later ih =>
    have hfirst : operations (first :: later) = first.operation?.toList ++ operations later := by
      rw [operations, shown, List.filterMap_cons, operations, shown]
      cases first.operation? <;> rfl
    rw [List.cons_append, along, ih, along, List.append_assoc, hfirst, after_append]

theorem outputs_concat (e : Engine) (history : List (Act S)) (act : Act S) :
    outputs e (history ++ [act])
      = outputs e history ++ (act.output? (after e (operations history))).toList :=
  along_concat _ _ _ _

theorem cycles_concat (e : Engine) (history : List (Act S)) (act : Act S) :
    cycles e (history ++ [act])
      = cycles e history ++ (act.cycle? (after e (operations history))).toList :=
  along_concat _ _ _ _

/-! ## Runs -/

/-- What a step of a cycle does, by where the cycle stands and by the site before and
after. -/
def actOf (x : Site S) (y : Site S) (result : Option Cycle) : Stage → Act S
  | .reading => .reads (result.elim y.input.reader fun _ => none)
  | .working => .works x.block.bypassed x.block.engine.activity (x.input.reader.getD [])
  | .publishing count => .offers ((x.output.writer.getD []).take count) x.output.reader.isSome

/-- The steps at a site.  What is reported is left open. -/
inductive Moves (w : Worker S) : Act S → Worker S → Prop
  | feeder {act : Pipe.Act S} {input : Pipe S} {events : List Event} :
    act.byWriter = true →
    Pipe.Turn w.site.input act input →
    Moves w (.feeder act) ⟨{ w.site with input := input }, w.stage, w.cycles, events⟩
  | consumer {act : Pipe.Act S} {output : Pipe S} {events : List Event} :
    act.byReader = true →
    Pipe.Turn w.site.output act output →
    Moves w (.consumer act) ⟨{ w.site with output := output }, w.stage, w.cycles, events⟩
  | hears (activity : Nat → Float32) {events : List Event} :
    Moves w .hears ⟨{ w.site with block := { w.site.block with
      engine := { w.site.block.engine with activity := activity } } }, w.stage, w.cycles, events⟩
  | request (r : Request) {events : List Event} :
    Moves w (.request r)
      ⟨{ w.site with block := (w.site.block.serve r).block }, w.stage, w.cycles, events⟩
  /-- A cycle goes on. -/
  | goesOn {stage next : Stage} {y : Site S} {reported events : List Event} :
    w.stage = some stage →
    w.site.step stage = some (.goesOn next y reported) →
    Moves w (actOf w.site y none stage) ⟨y, some next, w.cycles, events⟩
  /-- A cycle is over, and the next one begins. -/
  | finishes {stage : Stage} {cycle : Cycle} {y : Site S} {reported events : List Event} :
    w.stage = some stage →
    w.site.step stage = some (.over cycle y reported) →
    Moves w (actOf w.site y (some cycle) stage) ⟨y, some .reading, w.cycles ++ [cycle], events⟩
  | leaves {events : List Event} :
    w.stage = some .reading →
    Moves w .leaves ⟨{ w.site with
      input := w.site.input.dropReader
      output := w.site.output.dropWriter }, none, w.cycles, events⟩

/-- The worker after a history, from a block with two fresh pipes. -/
inductive Run (first : Block) : List (Act S) → Worker S → Prop
  | start : Run first [] (.start ⟨first, .fresh, .fresh⟩)
  | moves {history : List (Act S)} {act : Act S} {w next : Worker S} :
    Run first history w →
    Moves w act next →
    Run first (history ++ [act]) next

/-! ## The invariant -/

/-- What a history says of a worker. -/
structure Serves (first : Block) (history : List (Act S)) (w : Worker S) : Prop where
  /-- The engine is that of the sequential order. -/
  engine : w.site.block.engine = { after first.engine (operations history) with
    activity := w.site.block.engine.activity }
  holds : ∃ samples, w.site.block.engine.Holds samples
  switch : w.site.block.bypassed = switchAfter first.bypassed history
  /-- What was put out was handed over or refused, or is about to be offered. -/
  outputs : (outputs first.engine history).filter (!·.isEmpty)
    = shown Act.handed? history ++ shown Act.refused? history ++ w.ready
  refused : shown Act.refused? history ≠ [] → .dropReader ∈ shown Act.onOutput? history
  cycles : w.cycles = cycles first.engine history
  /-- What was read was worked on, or is in hand. -/
  read : shown Act.read? history = shown Act.worked? history ++ w.inHand
  input : Pipe.Run (shown Act.onInput? history) w.site.input
  output : Pipe.Run (shown Act.onOutput? history) w.site.output
  publishing : ∀ count, w.stage = some (.publishing count) →
    ∃ buffer, w.site.output.writer = some buffer ∧ buffer.length = count ∧ buffer ≠ []
  present : w.stage ≠ none → w.site.input.reader ≠ none ∧ w.site.output.writer ≠ none

/-! ### Calls on the engine -/

/-- A call keeps what ties the engine to some stretch. -/
theorem holds_perform {e : Engine} {samples : List Sample} (h : e.Holds samples)
    (op : Operation S) : ∃ samples, (e.perform op).state.Holds samples := by
  cases op with
  | feed activity block => exact ⟨_, (h.with_activity activity).feed _⟩
  | setHold held => exact ⟨_, h.with_hold held⟩
  | reset => exact ⟨_, h.reset⟩
  | retune carrier => exact ⟨_, (h.with_carrier carrier).reset⟩
  | setRate rate =>
    rw [Engine.perform]
    split
    next => exact ⟨_, h⟩
    next changed hset =>
      obtain ⟨p, hplan, hengine⟩ := Engine.setRate_eq hset
      obtain ⟨-, hsettings, -⟩ := Plan.ofRate?_eq hplan
      have hvalid : p.settings.Valid := by rw [hsettings]; exact h.valid
      exact ⟨[], by rw [hengine]; exact (Engine.Holds.of_idle hvalid).with_hold _⟩

/-- A request does to the block what its call does to the engine, and its switch to the
bypass. -/
theorem serve_eq (b : Block) (r : Request) :
    (b.serve r).block
      = ⟨after b.engine (Act.operation? (.request r : Act S)).toList,
          (Act.switch? (.request r : Act S)).getD b.bypassed⟩ := by
  cases r with
  | setBypass bypassed => rfl
  | retune carrier => rfl
  | setHold held => rfl
  | reset => rfl
  | setRate rate =>
    show Block.mk (Block.reconfigure b.engine (.setRate rate)).engine b.bypassed
      = ⟨(b.engine.perform (.setRate rate : Operation S)).state, b.bypassed⟩
    simp only [Block.reconfigure, Engine.perform]
    cases b.engine.setRate rate <;> rfl

/-- Until a call feeds the engine, it does not matter what the activity source would
answer. -/
theorem after_request (e : Engine) (activity : Nat → Float32) (r : Request) :
    after { e with activity := activity } (Act.operation? (.request r : Act S)).toList
      = { after e (Act.operation? (.request r : Act S)).toList with activity := activity } := by
  cases r with
  | setBypass bypassed => rfl
  | retune carrier => rfl
  | setHold held => rfl
  | reset => rfl
  | setRate rate =>
    show (Engine.perform { e with activity := activity } (.setRate rate : Operation S)).state
      = { (e.perform (.setRate rate : Operation S)).state with activity := activity }
    simp only [Engine.perform, Engine.setRate]
    cases Plan.ofRate? e.plan.numerics e.plan.settings rate <;> rfl

/-- A block that was processed counts what was put out. -/
theorem count_process {e : Engine} {samples : List Sample} (h : e.Holds samples)
    (block : List S) : (e.process block).outcome.count = (e.process block).output.length :=
  Call.count_outcome (c := ⟨e, e.activity, block⟩) h

/-- The work of a cycle is what its act says, on an engine that differs in no more than
what the activity source would answer. -/
theorem work_eq {b : Block} {e : Engine} {samples : List Sample}
    (hengine : b.engine = { e with activity := b.engine.activity }) (holds : b.engine.Holds samples)
    (block : List S) :
    let act := Act.works b.bypassed b.engine.activity block
    let worked := b.work block
    act.output? e = some worked.output
      ∧ worked.count = worked.output.length
      ∧ worked.block.bypassed = b.bypassed
      ∧ worked.block.engine
          = { after e act.operation?.toList with activity := worked.block.engine.activity }
      ∧ ∃ samples, worked.block.engine.Holds samples := by
  intro act worked
  obtain ⟨engine, bypassed⟩ := b
  cases bypassed with
  | true => exact ⟨rfl, rfl, rfl, hengine, samples, holds⟩
  | false =>
    have hstart : { e with activity := engine.activity } = engine := hengine.symm
    refine ⟨?_, count_process holds block, rfl, ?_, ?_⟩
    · show some (Engine.process { e with activity := engine.activity } block).output = _
      rw [hstart]
      rfl
    · show (engine.process block).engine
        = { (Engine.process { e with activity := engine.activity } block).engine with
            activity := (engine.process block).engine.activity }
      rw [hstart]
    · exact holds_perform holds (.feed engine.activity block)

/-! ### The steps of a cycle -/

omit [SampleKind S] in
theorem receive_done {x : Site S} {progress : Progress S} (h : x.receive = some progress) :
    ∃ result input, x.input.read = .done result input
      ∧ progress = match result with
        | some _ => .goesOn .working { x with input := input } []
        | none => .over .inputClosed { x with input := input } [] := by
  rw [Site.receive] at h
  split at h
  next length input hread => exact ⟨_, _, hread, (Option.some.inj h).symm⟩
  next input hread => exact ⟨_, _, hread, (Option.some.inj h).symm⟩
  next => cases h

omit [SampleKind S] in
/-- A block that is published is handed over, or there is nobody to take it. -/
theorem publish_done {x : Site S} {count : Nat} {progress : Progress S}
    (h : x.publish count = some progress) :
    ∃ taken output, x.output.swap count = .done taken output
      ∧ progress = .over (if taken then .published count else .outputClosed)
        { x with output := output } [] := by
  rw [Site.publish] at h
  split at h
  next output hswap => exact ⟨true, _, hswap, (Option.some.inj h).symm⟩
  next output hswap => exact ⟨false, _, hswap, (Option.some.inj h).symm⟩
  next => cases h

/-! ### The other halves of the pipes -/

omit [SampleKind S] in
/-- A step of the writer leaves the reader's buffer. -/
theorem reader_eq_of_byWriter {p q : Pipe S} {act : Pipe.Act S} (hact : act.byWriter = true)
    (hturn : Pipe.Turn p act q) : q.reader = p.reader := by
  cases hturn with
  | fill samples hfill =>
    obtain ⟨_, _, rfl⟩ := Option.map_eq_some_iff.1 hfill
    rfl
  | stage => rfl
  | swap _ hswap =>
    obtain ⟨_, _, ⟨_, _, rfl⟩ | ⟨_, _, _, rfl⟩⟩ := Pipe.swap_done hswap <;> rfl
  | write hwrite =>
    obtain ⟨_, ⟨_, _, rfl⟩ | ⟨_, _, _, rfl⟩⟩ := Pipe.write_done hwrite <;> rfl
  | dropWriter => rfl
  | read => cases hact
  | flush => cases hact
  | dropReader => cases hact
  | recycle => rfl

omit [SampleKind S] in
/-- A step of the reader leaves the writer's buffer. -/
theorem writer_eq_of_byReader {p q : Pipe S} {act : Pipe.Act S} (hact : act.byReader = true)
    (hturn : Pipe.Turn p act q) : q.writer = p.writer := by
  cases hturn with
  | fill => cases hact
  | stage => cases hact
  | swap => cases hact
  | write => cases hact
  | dropWriter => cases hact
  | read hread =>
    obtain ⟨_, _, ⟨_, _, _, rfl⟩ | ⟨_, _, _, rfl⟩⟩ := Pipe.read_done hread <;> rfl
  | flush hflush =>
    obtain ⟨_, _, rfl⟩ := Option.map_eq_some_iff.1 hflush
    rfl
  | dropReader => rfl
  | recycle => rfl

/-! ### Every step -/

namespace Serves

variable {first : Block} {history : List (Act S)} {w : Worker S} {events : List Event}

theorem start {samples : List Sample} (holds : first.engine.Holds samples) :
    Serves first [] (.start (S := S) ⟨first, .fresh, .fresh⟩) where
  engine := rfl
  holds := ⟨samples, holds⟩
  switch := rfl
  outputs := rfl
  refused := fun hne => absurd rfl hne
  cycles := rfl
  read := rfl
  input := .start
  output := .start
  publishing := nofun
  present := fun _ => ⟨nofun, nofun⟩

theorem feeder (h : Serves first history w) {act : Pipe.Act S} {input : Pipe S}
    (hact : act.byWriter = true) (hturn : Pipe.Turn w.site.input act input) :
    Serves first (history ++ [.feeder act])
      ⟨{ w.site with input := input }, w.stage, w.cycles, events⟩ := by
  have hreader := reader_eq_of_byWriter hact hturn
  exact
    { engine := by simpa [operations_concat, Act.operation?] using h.engine
      holds := h.holds
      switch := by simpa [switchAfter_concat, Act.switch?] using h.switch
      outputs := by
        simpa [outputs_concat, shown_concat, Act.output?, Act.handed?, Act.refused?, Worker.ready]
          using h.outputs
      refused := by simpa [shown_concat, Act.refused?, Act.onOutput?] using h.refused
      cycles := by simpa [cycles_concat, Act.cycle?, Act.output?] using h.cycles
      read := by simpa [shown_concat, Act.read?, Act.worked?, Worker.inHand, hreader] using h.read
      input := by
        rw [shown_concat]
        exact h.input.turn hturn
      output := by simpa [shown_concat, Act.onOutput?] using h.output
      publishing := h.publishing
      present := by simpa only [hreader] using h.present }

theorem consumer (h : Serves first history w) {act : Pipe.Act S} {output : Pipe S}
    (hact : act.byReader = true) (hturn : Pipe.Turn w.site.output act output) :
    Serves first (history ++ [.consumer act])
      ⟨{ w.site with output := output }, w.stage, w.cycles, events⟩ := by
  have hwriter := writer_eq_of_byReader hact hturn
  exact
    { engine := by simpa [operations_concat, Act.operation?] using h.engine
      holds := h.holds
      switch := by simpa [switchAfter_concat, Act.switch?] using h.switch
      outputs := by
        simpa [outputs_concat, shown_concat, Act.output?, Act.handed?, Act.refused?, Worker.ready, hwriter]
          using h.outputs
      refused := by
        intro hne
        rw [shown_concat]
        refine List.mem_append_left _ (h.refused ?_)
        simpa [shown_concat, Act.refused?] using hne
      cycles := by simpa [cycles_concat, Act.cycle?, Act.output?] using h.cycles
      read := by simpa [shown_concat, Act.read?, Act.worked?, Worker.inHand] using h.read
      input := by simpa [shown_concat, Act.onInput?] using h.input
      output := by
        rw [shown_concat]
        exact h.output.turn hturn
      publishing := by simpa only [hwriter] using h.publishing
      present := by simpa only [hwriter] using h.present }

theorem hears (h : Serves first history w) (activity : Nat → Float32) :
    Serves first (history ++ [.hears]) ⟨{ w.site with block := { w.site.block with
      engine := { w.site.block.engine with activity := activity } } }, w.stage, w.cycles,
      events⟩ where
  engine := by
    have hengine := congrArg (fun e : Engine => { e with activity := activity }) h.engine
    simpa [operations_concat, Act.operation?] using hengine
  holds := by
    obtain ⟨samples, holds⟩ := h.holds
    exact ⟨samples, holds.with_activity activity⟩
  switch := by simpa [switchAfter_concat, Act.switch?] using h.switch
  outputs := by
    simpa [outputs_concat, shown_concat, Act.output?, Act.handed?, Act.refused?, Worker.ready]
      using h.outputs
  refused := by simpa [shown_concat, Act.refused?, Act.onOutput?] using h.refused
  cycles := by simpa [cycles_concat, Act.cycle?, Act.output?] using h.cycles
  read := by simpa [shown_concat, Act.read?, Act.worked?, Worker.inHand] using h.read
  input := by simpa [shown_concat, Act.onInput?] using h.input
  output := by simpa [shown_concat, Act.onOutput?] using h.output
  publishing := h.publishing
  present := h.present

/-- A request is one call on the engine, and does not touch what is about to be
offered. -/
theorem request (h : Serves first history w) (r : Request) :
    Serves first (history ++ [.request r])
      ⟨{ w.site with block := (w.site.block.serve r).block }, w.stage, w.cycles, events⟩ where
  engine := by
    have hserved : (w.site.block.serve r).block.engine
        = { after first.engine (operations (history ++ [.request r])) with
            activity := w.site.block.engine.activity } := by
      rw [serve_eq (S := S), operations_concat, after_append, ← after_request, ← h.engine]
    show (w.site.block.serve r).block.engine = { after first.engine _ with
      activity := (w.site.block.serve r).block.engine.activity }
    rw [hserved]
  holds := by
    obtain ⟨samples, holds⟩ := h.holds
    rw [serve_eq (S := S)]
    cases hop : Act.operation? (.request r : Act S) with
    | none => exact ⟨samples, holds⟩
    | some op => exact holds_perform holds op
  switch := by rw [serve_eq (S := S), switchAfter_concat, h.switch]
  outputs := by
    simpa [outputs_concat, shown_concat, Act.output?, Act.handed?, Act.refused?, Worker.ready]
      using h.outputs
  refused := by simpa [shown_concat, Act.refused?, Act.onOutput?] using h.refused
  cycles := by simpa [cycles_concat, Act.cycle?, Act.output?] using h.cycles
  read := by simpa [shown_concat, Act.read?, Act.worked?, Worker.inHand] using h.read
  input := by simpa [shown_concat, Act.onInput?] using h.input
  output := by simpa [shown_concat, Act.onOutput?] using h.output
  publishing := h.publishing
  present := h.present

theorem leaves (h : Serves first history w) (hstage : w.stage = some .reading) :
    Serves first (history ++ [.leaves]) ⟨{ w.site with
      input := w.site.input.dropReader
      output := w.site.output.dropWriter }, none, w.cycles, events⟩ := by
  obtain ⟨hreader, hwriter⟩ := h.present (by simp [hstage])
  exact
    { engine := by simpa [operations_concat, Act.operation?] using h.engine
      holds := h.holds
      switch := by simpa [switchAfter_concat, Act.switch?] using h.switch
      outputs := by
        simpa [outputs_concat, shown_concat, Act.output?, Act.handed?, Act.refused?, Worker.ready, hstage]
          using h.outputs
      refused := by
        intro hne
        rw [shown_concat]
        refine List.mem_append_left _ (h.refused ?_)
        simpa [shown_concat, Act.refused?] using hne
      cycles := by simpa [cycles_concat, Act.cycle?, Act.output?] using h.cycles
      read := by simpa [shown_concat, Act.read?, Act.worked?, Worker.inHand, hstage] using h.read
      input := by
        rw [shown_concat]
        exact h.input.turn (.dropReader hreader)
      output := by
        rw [shown_concat]
        exact h.output.turn (.dropWriter hwriter)
      publishing := nofun
      present := fun hne => absurd rfl hne }

/-! #### The steps of the worker -/

theorem reads (h : Serves first history w) (hstage : w.stage = some .reading) {length : Nat}
    {input : Pipe S} (hread : w.site.input.read = .done (some length) input) :
    Serves first (history ++ [.reads input.reader])
      ⟨{ w.site with input := input }, some .working, w.cycles, events⟩ := by
  have hturn := Pipe.Turn.read hread
  obtain ⟨old, -, ⟨-, -, hnone, -⟩ | ⟨block, -, -, rfl⟩⟩ := Pipe.read_done hread
  · cases hnone
  · exact
      { engine := by simpa [operations_concat, Act.operation?] using h.engine
        holds := h.holds
        switch := by simpa [switchAfter_concat, Act.switch?] using h.switch
        outputs := by
          simpa [outputs_concat, shown_concat, Act.output?, Act.handed?, Act.refused?,
            Worker.ready, hstage] using h.outputs
        refused := by simpa [shown_concat, Act.refused?, Act.onOutput?] using h.refused
        cycles := by simpa [cycles_concat, Act.cycle?, Act.output?] using h.cycles
        read := by
          simpa [shown_concat, Act.read?, Act.worked?, Worker.inHand, hstage] using h.read
        input := by
          rw [shown_concat]
          exact h.input.turn hturn
        output := by simpa [shown_concat, Act.onOutput?] using h.output
        publishing := nofun
        present := fun _ => ⟨nofun, (h.present (by simp [hstage])).2⟩ }

theorem ends (h : Serves first history w) (hstage : w.stage = some .reading) {input : Pipe S}
    (hread : w.site.input.read = .done none input) :
    Serves first (history ++ [.reads none]) ⟨{ w.site with input := input }, some .reading,
      w.cycles ++ [.inputClosed], events⟩ := by
  have hturn := Pipe.Turn.read hread
  obtain ⟨rfl, -⟩ := (Pipe.read_eq_none_iff _ _).1 hread
  exact
    { engine := by simpa [operations_concat, Act.operation?] using h.engine
      holds := h.holds
      switch := by simpa [switchAfter_concat, Act.switch?] using h.switch
      outputs := by
        simpa [outputs_concat, shown_concat, Act.output?, Act.handed?, Act.refused?,
          Worker.ready, hstage] using h.outputs
      refused := by simpa [shown_concat, Act.refused?, Act.onOutput?] using h.refused
      cycles := by simp [cycles_concat, Act.cycle?, h.cycles]
      read := by
        simpa [shown_concat, Act.read?, Act.worked?, Worker.inHand, hstage] using h.read
      input := by
        rw [shown_concat]
        exact h.input.turn hturn
      output := by simpa [shown_concat, Act.onOutput?] using h.output
      publishing := nofun
      present := fun _ => h.present (by simp [hstage]) }

/-- What the work puts out is whole in the writer's buffer.  If it is nothing, the cycle
is over. -/
theorem works (h : Serves first history w) (hstage : w.stage = some .working) :
    let worked := w.site.block.work (w.site.input.reader.getD [])
    Serves first
      (history ++ [.works w.site.block.bypassed w.site.block.engine.activity
        (w.site.input.reader.getD [])])
      ⟨{ block := worked.block
         input := w.site.input.flush.getD w.site.input
         output := w.site.output.stage worked.output },
        some (if worked.count = 0 then .reading else .publishing worked.count),
        w.cycles ++ (if worked.count = 0 then [.starved] else []), events⟩ := by
  obtain ⟨hreader, hwriter⟩ := h.present (by simp [hstage])
  obtain ⟨block, hblock⟩ := Option.ne_none_iff_exists'.1 hreader
  obtain ⟨buffer, hbuffer⟩ := Option.ne_none_iff_exists'.1 hwriter
  obtain ⟨samples, holds⟩ := h.holds
  intro worked
  obtain ⟨houtput, hcount, hbypassed, hengine, hholds⟩ :=
    work_eq (S := S) h.engine holds (w.site.input.reader.getD [])
  have hflush : w.site.input.flush = some { w.site.input with reader := some [] } := by
    rw [Pipe.flush, hblock]
    rfl
  have hready : (Serving.outputs first.engine history).filter (!·.isEmpty)
      = shown Act.handed? history ++ shown Act.refused? history := by
    simpa [Worker.ready, hstage] using h.outputs
  have hzero : worked.count = 0 ↔ worked.output = [] := by
    rw [hcount]
    exact List.length_eq_zero_iff
  have hcycle : Act.cycle? (after first.engine (operations history))
      (.works w.site.block.bypassed w.site.block.engine.activity (w.site.input.reader.getD []))
        = if worked.count = 0 then some .starved else none := by
    show ((Act.output? _ _).bind fun output => if output.isEmpty then some Cycle.starved else none) = _
    rw [houtput, Option.bind_some]
    simp only [List.isEmpty_iff, hzero, worked]
  have hstaged : (w.site.output.stage worked.output).writer = some worked.output := by
    rw [Pipe.stage, hbuffer, Option.map_some]
  exact
    { engine := by
        rw [operations_concat, after_append]
        exact hengine
      holds := hholds
      switch := by
        rw [switchAfter_concat]
        exact hbypassed.trans h.switch
      outputs := by
        rw [outputs_concat, houtput, List.filter_append, hready]
        by_cases hnone : worked.output = []
        · have hfilter : (some worked.output).toList.filter (!·.isEmpty) = [] := by simp [hnone]
          rw [hfilter, if_pos (hzero.2 hnone)]
          simp [shown_concat, Act.handed?, Act.refused?, Worker.ready]
        · have hfilter : (some worked.output).toList.filter (!·.isEmpty) = [worked.output] := by
            simp [hnone]
          rw [hfilter, if_neg (mt hzero.1 hnone)]
          simp [shown_concat, Act.handed?, Act.refused?, Worker.ready, hstaged]
      refused := by
        intro hne
        rw [shown_concat]
        refine List.mem_append_left _ (h.refused ?_)
        simpa [shown_concat, Act.refused?] using hne
      cycles := by
        rw [cycles_concat, h.cycles, hcycle]
        by_cases hnone : worked.count = 0 <;> simp [hnone]
      read := by
        have hread := h.read
        rw [Worker.inHand, hstage, hblock] at hread
        by_cases hnone : worked.count = 0 <;>
          simp [shown_concat, Act.read?, Act.worked?, Worker.inHand, hread, hblock, hnone]
      input := by
        rw [shown_concat, hflush]
        exact h.input.turn (.flush hflush)
      output := by
        rw [shown_concat]
        exact h.output.turn (.stage worked.output hwriter)
      publishing := by
        intro count hpublishing
        by_cases hnone : worked.count = 0
        · rw [if_pos hnone] at hpublishing
          cases hpublishing
        · rw [if_neg hnone] at hpublishing
          cases hpublishing
          exact ⟨_, hstaged, hcount.symm, mt hzero.2 hnone⟩
      present := fun _ => by
        rw [hflush]
        exact ⟨Option.some_ne_none _, hstaged ▸ Option.some_ne_none _⟩ }

/-- What is published is the whole buffer. -/
theorem publishes (h : Serves first history w) {count : Nat}
    (hstage : w.stage = some (.publishing count)) {taken : Bool} {output : Pipe S}
    (hswap : w.site.output.swap count = .done taken output) :
    Serves first
      (history ++ [.offers ((w.site.output.writer.getD []).take count) w.site.output.reader.isSome])
      ⟨{ w.site with output := output }, some .reading,
        w.cycles ++ [if taken then .published count else .outputClosed], events⟩ := by
  obtain ⟨hreader, -⟩ := h.present (by simp [hstage])
  obtain ⟨buffer, hbuffer, rfl, hne⟩ := h.publishing count hstage
  have hready : (Serving.outputs first.engine history).filter (!·.isEmpty)
      = shown Act.handed? history ++ shown Act.refused? history ++ [buffer] := by
    simpa [Worker.ready, hstage, hbuffer] using h.outputs
  have hinHand : shown Act.read? history = shown Act.worked? history := by
    simpa [Worker.inHand, hstage] using h.read
  have hturn := Pipe.Turn.swap hbuffer hswap
  have htaken : w.site.output.reader.isSome = taken ∧ output.writer ≠ none := by
    obtain ⟨_, _, ⟨hnone, rfl, rfl⟩ | ⟨hsome, _, rfl, rfl⟩⟩ := Pipe.swap_done hswap
    · exact ⟨by rw [hnone]; rfl, Option.some_ne_none _⟩
    · exact ⟨Option.isSome_iff_ne_none.2 hsome, Option.some_ne_none _⟩
  have hrefused : taken = true → shown Act.refused? history = [] := by
    intro htrue
    by_contra hsome
    have hgone := h.output.carries.reader.2 (h.refused hsome)
    rw [htrue, hgone] at htaken
    exact Bool.false_ne_true htaken.1
  rw [htaken.1, hbuffer, Option.getD_some, List.take_length]
  exact
    { engine := by simpa [operations_concat, Act.operation?] using h.engine
      holds := h.holds
      switch := by simpa [switchAfter_concat, Act.switch?] using h.switch
      outputs := by
        refine ((congrArg (List.filter _) ((outputs_concat _ _ _).trans (List.append_nil _))).trans
          hready).trans ?_
        cases taken with
        | true => simp [shown_concat, Act.handed?, Act.refused?, Worker.ready, hrefused]
        | false => simp [shown_concat, Act.handed?, Act.refused?, Worker.ready]
      refused := by
        intro hsome
        rw [shown_concat]
        refine List.mem_append_left _ ?_
        cases taken with
        | true => simp [shown_concat, Act.refused?, hrefused] at hsome
        | false =>
          have hgone := Option.not_isSome_iff_eq_none.1 (Bool.eq_false_iff.1 htaken.1)
          exact h.output.carries.reader.1 hgone
      cycles := by
        rw [cycles_concat, h.cycles]
        cases taken <;> rfl
      read := by simp [shown_concat, Act.read?, Act.worked?, Worker.inHand, hinHand]
      input := by simpa [shown_concat, Act.onInput?] using h.input
      output := by
        rw [shown_concat]
        exact h.output.turn hturn
      publishing := by
        intro count hcount
        cases hcount
      present := fun _ => ⟨hreader, htaken.2⟩ }

/-! #### Every step -/

/-- A cycle goes on when it has read a block, and when it has something to publish. -/
theorem goesOn (h : Serves first history w) {stage next : Stage} {y : Site S}
    {reported : List Event} (hstage : w.stage = some stage)
    (hstep : w.site.step stage = some (.goesOn next y reported)) :
    Serves first (history ++ [actOf w.site y none stage]) ⟨y, some next, w.cycles, events⟩ := by
  cases stage with
  | reading =>
    obtain ⟨result, input, hread, hprogress⟩ := receive_done hstep
    cases result with
    | none => cases hprogress
    | some length =>
      cases hprogress
      exact h.reads hstage hread
  | working =>
    have hworks := @works S _ first history w events h hstage
    simp only [Site.step, Site.perform, Option.some.injEq] at hstep
    split at hstep
    next => cases hstep
    next hcount =>
      cases hstep
      simp only [if_neg hcount, List.append_nil] at hworks
      exact hworks
  | publishing count =>
    obtain ⟨taken, output, -, hprogress⟩ := publish_done hstep
    cases hprogress

/-- A cycle is over at the end of the stream, without output, and when the output was
offered. -/
theorem finishes (h : Serves first history w) {stage : Stage} {cycle : Cycle} {y : Site S}
    {reported : List Event} (hstage : w.stage = some stage)
    (hstep : w.site.step stage = some (.over cycle y reported)) :
    Serves first (history ++ [actOf w.site y (some cycle) stage])
      ⟨y, some .reading, w.cycles ++ [cycle], events⟩ := by
  cases stage with
  | reading =>
    obtain ⟨result, input, hread, hprogress⟩ := receive_done hstep
    cases result with
    | some length => cases hprogress
    | none =>
      cases hprogress
      exact h.ends hstage hread
  | working =>
    have hworks := @works S _ first history w events h hstage
    simp only [Site.step, Site.perform, Option.some.injEq] at hstep
    split at hstep
    next hcount =>
      cases hstep
      simp only [if_pos hcount] at hworks
      exact hworks
    next => cases hstep
  | publishing count =>
    obtain ⟨taken, output, hswap, hprogress⟩ := publish_done hstep
    cases hprogress
    exact h.publishes hstage hswap

/-- Every step keeps the invariant. -/
theorem moves (h : Serves first history w) {act : Act S} {next : Worker S}
    (hmoves : Moves w act next) : Serves first (history ++ [act]) next := by
  cases hmoves with
  | feeder hact hturn => exact h.feeder hact hturn
  | consumer hact hturn => exact h.consumer hact hturn
  | hears activity => exact h.hears activity
  | request r => exact h.request r
  | goesOn hstage hstep => exact h.goesOn hstage hstep
  | finishes hstage hstep => exact h.finishes hstage hstep
  | leaves hstage => exact h.leaves hstage

end Serves

/-! ## Every run -/

section Runs

variable {first : Block} {history : List (Act S)} {w next : Worker S}

/-- So it holds after any history. -/
theorem Run.serves {samples : List Sample} (run : Run first history w)
    (holds : first.engine.Holds samples) : Serves first history w := by
  induction run with
  | start => exact .start holds
  | moves _ hmoves ih => exact ih.moves hmoves

/-- A request comes in between. -/
theorem Run.serve (run : Run first history w) (r : Request) :
    Run first (history ++ [.request r]) (w.serve r) :=
  run.moves (.request r)

/-- A step of the worker is one move, and at the end of the stream three, since the reset
of the engine is a request like others. -/
theorem Run.step (run : Run first history w) (hstep : w.step? = some next) :
    ∃ acts, Run first (history ++ acts) next := by
  obtain ⟨stage, hstage, hstep⟩ := Option.bind_eq_some_iff.1 hstep
  obtain ⟨progress, hprogress, rfl⟩ := Option.map_eq_some_iff.1 hstep
  rcases progress with ⟨stage, site, events⟩ | ⟨cycle, site, events⟩
  · exact ⟨[_], run.moves (.goesOn hstage hprogress)⟩
  · have ended : Run first _ ⟨site, some .reading, _, w.events ++ events⟩ :=
      run.moves (.finishes hstage hprogress)
    cases cycle with
    | published count => exact ⟨[_], ended⟩
    | starved => exact ⟨[_], ended⟩
    | outputClosed =>
      refine ⟨[actOf w.site site (some .outputClosed) stage, .leaves], ?_⟩
      rw [List.append_cons]
      exact ended.moves (.leaves rfl)
    | inputClosed =>
      refine ⟨[actOf w.site site (some .inputClosed) stage, .request .reset, .leaves], ?_⟩
      rw [List.append_cons, List.append_cons]
      have reset := ended.serve .reset
      exact reset.moves (.leaves rfl)

omit [SampleKind S] in
/-- Only the consumer lets go of the output. -/
theorem dropReader_mem_iff (history : List (Act S)) :
    .dropReader ∈ shown Act.onOutput? history ↔ .consumer .dropReader ∈ history := by
  rw [shown, List.mem_filterMap]
  constructor
  · rintro ⟨act, hact, hon⟩
    cases act with
    | consumer act =>
      cases hon
      exact hact
    | leaves => cases hon
    | works => cases hon
    | offers => cases hon
    | feeder => cases hon
    | hears => cases hon
    | request => cases hon
    | reads => cases hon
  · intro hmem
    exact ⟨_, hmem, rfl⟩

/-- Samples are published exactly when a block of as many is handed over. -/
theorem cycle_eq_published_iff (e : Engine) (act : Act S) (count : Nat) :
    act.cycle? e = some (.published count)
      ↔ ∃ block, act = .offers block true ∧ block.length = count := by
  have hstarved : ∀ output : Option (List S),
      (output.bind fun output => if output.isEmpty then some Cycle.starved else none)
        ≠ some (.published count) := by
    rintro (_ | output) h
    · cases h
    · cases output <;> cases h
  constructor
  · intro hcycle
    cases act with
    | offers block taken =>
      cases taken with
      | true => exact ⟨block, rfl, Cycle.published.inj (Option.some.inj hcycle)⟩
      | false => cases hcycle
    | reads block => cases block <;> cases hcycle
    | works bypassed activity block => exact absurd hcycle (hstarved _)
    | feeder => cases hcycle
    | consumer => cases hcycle
    | hears => cases hcycle
    | request => cases hcycle
    | leaves => cases hcycle
  · rintro ⟨block, rfl, rfl⟩
    rfl

/-- A cycle is starved exactly when its work puts nothing out. -/
theorem cycle_eq_starved_iff (e : Engine) (act : Act S) :
    act.cycle? e = some .starved ↔ act.output? e = some [] := by
  cases act with
  | works bypassed activity block =>
    show ((Act.output? e (.works bypassed activity block)).bind fun output =>
      if output.isEmpty then some Cycle.starved else none) = _ ↔ _
    cases Act.output? e (.works bypassed activity block) with
    | none => exact ⟨nofun, nofun⟩
    | some output => cases output <;> simp
  | offers block taken => cases taken <;> exact ⟨nofun, nofun⟩
  | reads block => cases block <;> exact ⟨nofun, nofun⟩
  | feeder => exact ⟨nofun, nofun⟩
  | consumer => exact ⟨nofun, nofun⟩
  | hears => exact ⟨nofun, nofun⟩
  | request => exact ⟨nofun, nofun⟩
  | leaves => exact ⟨nofun, nofun⟩

/-! ### A step of the worker, by its act -/

omit [SampleKind S] in
theorem actOf_eq_works {x y : Site S} {result : Option Cycle} {stage : Stage} {bypassed : Bool}
    {activity : Nat → Float32} {block : List S}
    (h : actOf x y result stage = .works bypassed activity block) :
    stage = .working ∧ bypassed = x.block.bypassed ∧ block = x.input.reader.getD [] := by
  cases stage with
  | reading => cases h
  | working =>
    cases h
    exact ⟨rfl, rfl, rfl⟩
  | publishing count => cases h

omit [SampleKind S] in
theorem actOf_eq_offers {x y : Site S} {result : Option Cycle} {stage : Stage} {block : List S}
    {taken : Bool} (h : actOf x y result stage = .offers block taken) :
    ∃ count, stage = .publishing count ∧ block = (x.output.writer.getD []).take count
      ∧ taken = x.output.reader.isSome := by
  cases stage with
  | reading => cases h
  | working => cases h
  | publishing count =>
    cases h
    exact ⟨count, rfl, rfl, rfl⟩

/-- The work of a cycle is that of the block, and leaves it as it is when it is bypassed. -/
theorem Moves.of_works {bypassed : Bool} {activity : Nat → Float32} {block : List S}
    (h : Moves w (.works bypassed activity block) next) :
    w.stage = some .working ∧ bypassed = w.site.block.bypassed
      ∧ block = w.site.input.reader.getD []
      ∧ (bypassed = true → next.site.block = w.site.block) := by
  have hwork : w.site.block.bypassed = true →
      (w.site.block.work (w.site.input.reader.getD [])).block = w.site.block := by
    intro htrue
    rw [Block.work, if_pos htrue]
  generalize hact : Act.works bypassed activity block = act at h
  cases h with
  | feeder => cases hact
  | consumer => cases hact
  | hears => cases hact
  | request => cases hact
  | leaves => cases hact
  | goesOn hstage hstep =>
    obtain ⟨rfl, rfl, rfl⟩ := actOf_eq_works hact.symm
    refine ⟨hstage, rfl, rfl, fun htrue => ?_⟩
    simp only [Site.step, Site.perform, Option.some.injEq] at hstep
    split at hstep
    next => cases hstep
    next =>
      cases hstep
      exact hwork htrue
  | finishes hstage hstep =>
    obtain ⟨rfl, rfl, rfl⟩ := actOf_eq_works hact.symm
    refine ⟨hstage, rfl, rfl, fun htrue => ?_⟩
    simp only [Site.step, Site.perform, Option.some.injEq] at hstep
    split at hstep
    next =>
      cases hstep
      exact hwork htrue
    next => cases hstep

theorem Moves.of_offers {block : List S} {taken : Bool} (h : Moves w (.offers block taken) next) :
    ∃ count, w.stage = some (.publishing count)
      ∧ block = (w.site.output.writer.getD []).take count
      ∧ taken = w.site.output.reader.isSome := by
  generalize hact : Act.offers block taken = act at h
  cases h with
  | feeder => cases hact
  | consumer => cases hact
  | hears => cases hact
  | request => cases hact
  | leaves => cases hact
  | goesOn hstage hstep =>
    obtain ⟨count, rfl, hblock⟩ := actOf_eq_offers hact.symm
    exact ⟨count, hstage, hblock⟩
  | finishes hstage hstep =>
    obtain ⟨count, rfl, hblock⟩ := actOf_eq_offers hact.symm
    exact ⟨count, hstage, hblock⟩

namespace Serves

/-- What a cycle works on was read last, and the switch is where it was put. -/
theorem of_works (h : Serves first history w) {bypassed : Bool} {activity : Nat → Float32}
    {block : List S} (hmoves : Moves w (.works bypassed activity block) next) :
    bypassed = switchAfter first.bypassed history
      ∧ shown Act.read? history = shown Act.worked? history ++ [block]
      ∧ (bypassed = true → next.site.block = w.site.block) := by
  obtain ⟨hstage, hbypassed, hblock, hkept⟩ := hmoves.of_works
  obtain ⟨hreader, -⟩ := h.present (by simp [hstage])
  obtain ⟨staged, hstaged⟩ := Option.ne_none_iff_exists'.1 hreader
  have hread := h.read
  rw [Worker.inHand, hstage, hstaged] at hread
  rw [hstaged] at hblock
  exact ⟨hbypassed.trans h.switch, by rw [hread, hblock]; rfl, hkept⟩

/-- A block that is offered is not empty, and is taken while the consumer lives. -/
theorem of_offers (h : Serves first history w) {block : List S} {taken : Bool}
    (hmoves : Moves w (.offers block taken) next) :
    block ≠ [] ∧ (taken = true ↔ .consumer .dropReader ∉ history) := by
  obtain ⟨count, hstage, hblock, htaken⟩ := hmoves.of_offers
  obtain ⟨buffer, hbuffer, hcount, hne⟩ := h.publishing count hstage
  rw [hbuffer, Option.getD_some, ← hcount, List.take_length] at hblock
  refine ⟨hblock ▸ hne, ?_⟩
  rw [htaken, Option.isSome_iff_ne_none, Ne, h.output.carries.reader, dropReader_mem_iff]

/-- A block is refused only after the consumer has gone. -/
theorem refused_eq_nil (h : Serves first history w) (hlives : .consumer .dropReader ∉ history) :
    shown Act.refused? history = [] := by
  by_contra hne
  exact hlives ((dropReader_mem_iff history).1 (h.refused hne))

end Serves

/-! ### What went through the pipes -/

/-- The feeder writes, and the consumer reads. -/
theorem Moves.sides {act : Act S} (h : Moves w act next) :
    (∀ a, act = .feeder a → a.byWriter = true) ∧ ∀ a, act = .consumer a → a.byReader = true := by
  have hworker : ∀ (y : Site S) result stage a,
      actOf w.site y result stage ≠ .feeder a ∧ actOf w.site y result stage ≠ .consumer a := by
    rintro y result (_ | _ | _) a <;> exact ⟨nofun, nofun⟩
  cases h with
  | feeder hact =>
    refine ⟨?_, nofun⟩
    rintro a ⟨⟩
    exact hact
  | consumer hact =>
    refine ⟨nofun, ?_⟩
    rintro a ⟨⟩
    exact hact
  | hears => exact ⟨nofun, nofun⟩
  | request => exact ⟨nofun, nofun⟩
  | leaves => exact ⟨nofun, nofun⟩
  | goesOn =>
    exact ⟨fun a ha => absurd ha (hworker _ _ _ a).1, fun a ha => absurd ha (hworker _ _ _ a).2⟩
  | finishes =>
    exact ⟨fun a ha => absurd ha (hworker _ _ _ a).1, fun a ha => absurd ha (hworker _ _ _ a).2⟩

theorem Run.sides (run : Run first history w) :
    (∀ act, .feeder act ∈ history → act.byWriter = true)
      ∧ ∀ act, .consumer act ∈ history → act.byReader = true := by
  induction run with
  | start => exact ⟨nofun, nofun⟩
  | moves _ hmoves ih =>
    have hlast := hmoves.sides
    constructor
    · intro act hmem
      rcases List.mem_append.1 hmem with hmem | hmem
      · exact ih.1 act hmem
      · exact hlast.1 act (List.mem_singleton.1 hmem).symm
    · intro act hmem
      rcases List.mem_append.1 hmem with hmem | hmem
      · exact ih.2 act hmem
      · exact hlast.2 act (List.mem_singleton.1 hmem).symm

/-- What the input pipe delivered is what the cycles read. -/
theorem Run.delivered_eq (run : Run first history w) :
    Pipe.delivered (shown Act.onInput? history) = shown Act.read? history := by
  rw [Pipe.delivered, shown, List.filterMap_filterMap, shown]
  refine List.filterMap_congr fun act hact => ?_
  cases act with
  | feeder act =>
    have hwrites := run.sides.1 act hact
    cases act with
    | read => cases hwrites
    | _ => rfl
  | _ => rfl

/-- What the output pipe accepted is what the cycles handed over. -/
theorem Run.accepted_eq (run : Run first history w) :
    Pipe.accepted (shown Act.onOutput? history) = shown Act.handed? history := by
  rw [Pipe.accepted, shown, List.filterMap_filterMap, shown]
  refine List.filterMap_congr fun act hact => ?_
  cases act with
  | consumer act =>
    have hreads := run.sides.2 act hact
    cases act with
    | swap => cases hreads
    | _ => rfl
  | offers block taken =>
    cases taken with
    | false => rfl
    | true =>
      show some (block.take (min block.length block.length)) = some block
      rw [Nat.min_self, List.take_length]
  | _ => rfl

/-- Whatever else happens to a block between the steps of the cycles, its engine is
where a sequential engine is that is given the calls in their order.  What was handed
over, and after the consumer has gone refused, are just the blocks that such an engine
puts out and that are passed on, but for those with nothing in them.

A cycle works on the block that was read last, and the engine is left as it is when the
bypass is switched on.  So many samples are published exactly when a block of as many,
and not of none, is handed over, and a cycle is starved exactly when its work puts nothing
out. -/
theorem serialised {calls : List (Call S)} (session : Session calls first.engine)
    (run : Run first history w) :
    w.site.block.engine = { after first.engine (operations history) with
        activity := w.site.block.engine.activity }
      ∧ w.site.block.bypassed = switchAfter first.bypassed history
      ∧ (outputs first.engine history).filter (!·.isEmpty)
        = shown Act.handed? history ++ shown Act.refused? history ++ w.ready
      ∧ (.consumer .dropReader ∉ history → shown Act.refused? history = [])
      ∧ w.cycles = cycles first.engine history
      ∧ shown Act.read? history <+: Pipe.accepted (shown Act.onInput? history)
      ∧ Pipe.delivered (shown Act.onOutput? history) <+: shown Act.handed? history
      ∧ ∀ act next, Moves w act next →
        (∀ bypassed activity block, act = .works bypassed activity block →
            bypassed = switchAfter first.bypassed history
              ∧ shown Act.read? history = shown Act.worked? history ++ [block]
              ∧ (bypassed = true → next.site.block = w.site.block))
          ∧ (∀ block taken, act = .offers block taken →
            block ≠ [] ∧ (taken = true ↔ .consumer .dropReader ∉ history))
          ∧ (∀ count, next.cycles = w.cycles ++ [.published count]
            ↔ ∃ block, act = .offers block true ∧ block.length = count ∧ 0 < count)
          ∧ (next.cycles = w.cycles ++ [.starved]
            ↔ act.output? (after first.engine (operations history)) = some []) := by
  have h := run.serves session.holds
  refine ⟨h.engine, h.switch, h.outputs, h.refused_eq_nil, h.cycles, ?_, ?_, ?_⟩
  · obtain ⟨left, hblocks, -⟩ := h.input.carries.blocks
    rw [hblocks, run.delivered_eq]
    exact List.prefix_append _ _
  · obtain ⟨left, hblocks, -⟩ := h.output.carries.blocks
    rw [← run.accepted_eq, hblocks]
    exact List.prefix_append _ _
  · intro act next hmoves
    have hcycles : ∀ cycle, next.cycles = w.cycles ++ [cycle]
        ↔ act.cycle? (after first.engine (operations history)) = some cycle := by
      intro cycle
      rw [(h.moves hmoves).cycles, cycles_concat, ← h.cycles, List.append_cancel_left_eq]
      cases act.cycle? (after first.engine (operations history)) <;> simp
    refine ⟨?_, ?_, ?_, ?_⟩
    · rintro bypassed activity block rfl
      exact h.of_works hmoves
    · rintro block taken rfl
      exact h.of_offers hmoves
    · intro count
      rw [hcycles, cycle_eq_published_iff]
      refine exists_congr fun block => and_congr_right ?_
      rintro rfl
      have hpos := List.length_pos_iff.2 (h.of_offers hmoves).1
      constructor
      · rintro rfl
        exact ⟨rfl, hpos⟩
      · exact And.left
    · rw [hcycles, cycle_eq_starved_iff]

omit [SampleKind S] in
/-- The whole of a buffer is handed over to a reader that waits. -/
theorem swap_whole (buffer old : List S) (spares : List (List S)) :
    (⟨some buffer, some old, none, spares⟩ : Pipe S).swap buffer.length
      = .done true ⟨some [], some old, some buffer, spares.tail⟩ := by
  simp [Pipe.swap, Pipe.swapWaits, Pipe.nextBuffer_eq]

/-- A block that is fed to a worker with nothing to read is read and worked on, and what
comes out of it is about to be offered. -/
theorem Run.round {b worked : Block} {block output : List S} {spares : List (List S)}
    {offering : Pipe S} {cycles : List Cycle} {reported : List Event}
    (run : Run first history
      ⟨⟨b, ⟨some [], some [], none, spares⟩, offering⟩, some .reading, cycles, []⟩)
    (hspares : spares.tail = [])
    (hwork : b.work block = ⟨worked, output, output.length, reported⟩) (hne : output ≠ []) :
    Run first (history ++ [.feeder (.swap block block.length true), .reads (some block),
        .works b.bypassed b.engine.activity block])
      ⟨⟨worked, ⟨some [], some [], none, [[]]⟩, offering.stage output⟩,
        some (.publishing output.length), cycles, []⟩ := by
  have hswap := swap_whole block [] spares
  rw [hspares] at hswap
  have hfed : Run first (history ++ [.feeder (.swap block block.length true)])
      ⟨⟨b, ⟨some [], some [], some block, []⟩, offering⟩, some .reading, cycles, []⟩ :=
    run.moves (.feeder rfl (.write hswap))
  let read : Site S := ⟨b, ⟨some [], some block, none, [[]]⟩, offering⟩
  have hread : Run first (history ++ [.feeder (.swap block block.length true)]
      ++ [.reads (some block)]) ⟨read, some .working, cycles, []⟩ :=
    hfed.moves (@Moves.goesOn S _ _ .reading .working read [] [] rfl rfl)
  have hperform : read.perform = .goesOn (.publishing output.length)
      ⟨worked, ⟨some [], some [], none, [[]]⟩, offering.stage output⟩ reported := by
    simp only [Site.perform, read, Option.getD_some, hwork]
    exact if_neg (mt List.length_eq_zero_iff.1 hne)
  rw [List.append_cons, List.append_cons]
  exact hread.moves (@Moves.goesOn S _ _ .working _ _ _ [] rfl (congrArg some hperform))

/-- A request is served at once. -/
theorem Run.requested (run : Run first history w) (r : Request) :
    Run first (history ++ [.request r])
      ⟨{ w.site with block := (w.site.block.serve r).block }, w.stage, w.cycles, []⟩ :=
  run.moves (.request r)

/-- A reader that waits takes all that is offered. -/
theorem Run.offered {b : Block} {input : Pipe S} {output old : List S} {cycles : List Cycle}
    (run : Run first history ⟨⟨b, input, ⟨some output, some old, none, []⟩⟩,
      some (.publishing output.length), cycles, []⟩) :
    Run first (history ++ [.offers output true])
      ⟨⟨b, input, ⟨some [], some old, some output, []⟩⟩, some .reading,
        cycles ++ [.published output.length], []⟩ := by
  have hpublish : Site.publish ⟨b, input, ⟨some output, some old, none, []⟩⟩ output.length
      = some (.over (.published output.length)
          ⟨b, input, ⟨some [], some old, some output, []⟩⟩ []) := by
    rw [Site.publish, swap_whole]
    rfl
  have hoffers : Run first (history ++ [.offers (output.take output.length) true])
      ⟨⟨b, input, ⟨some [], some old, some output, []⟩⟩, some .reading,
        cycles ++ [.published output.length], []⟩ :=
    run.moves (@Moves.finishes S _ _ (.publishing output.length) _ _ _ [] rfl hpublish)
  rwa [List.take_length] at hoffers

/-- What is done while a block is on its way through the engine.  Before its output is
offered the engine is reset, and the bypass is switched on, so the sample that is fed
next goes by. -/
def interrupted (before after : Engine) (block output : List S) (sample : S) : List (Act S) :=
  [.feeder (.swap block block.length true), .reads (some block),
    .works false before.activity block, .request .reset, .request (.setBypass true),
    .offers output true, .feeder (.swap [sample] 1 true), .reads (some [sample]),
    .works true after.activity [sample]]

/-- The worker after that.  The sample is about to be offered. -/
def goneBy (after : Engine) (output : List S) (sample : S) : Worker S where
  site :=
    { block := ⟨after.reset, true⟩
      input := ⟨some [], some [], none, [[]]⟩
      output := ⟨some [sample], some [], some output, []⟩ }
  stage := some (.publishing 1)
  cycles := [.published output.length]
  events := []

/-- It is a run for any block that the engine gives something for. -/
theorem run_interrupted {before after : Engine} {block output : List S} {events : List Event}
    (hwork : Block.work ⟨before, false⟩ block = ⟨⟨after, false⟩, output, output.length, events⟩)
    (hne : output ≠ []) (sample : S) :
    Run ⟨before, false⟩ (interrupted before after block output sample)
      (goneBy after output sample) := by
  have hworked := Run.start.round rfl hwork hne
  have hswitched := (hworked.requested .reset).requested (.setBypass true)
  exact hswitched.offered.round rfl rfl (List.cons_ne_nil sample [])

/-- The demand of the small session yields three hops. -/
theorem length_output_first : Specimen.first.fed.output.length = 6 := by
  have run : Session [Specimen.first] Specimen.first.fed.engine :=
    .fed _ _ (.created Specimen.create_eq)
  have hyield := run.length_outputOf
  rw [outputOf, List.flatMap_singleton] at hyield
  exact hyield

/-- The engine trains on the block and is reset before the output is offered. -/
theorem serialised_specimen :
    let first := Specimen.first
    let history := interrupted first.before first.fed.engine first.block first.fed.output 0
    let w := goneBy first.fed.engine first.fed.output 0
    Run ⟨first.before, false⟩ history w
      ∧ operations history = [.feed Specimen.quiet first.block, .reset]
      ∧ w.site.block.engine = { after first.before (operations history) with
          activity := w.site.block.engine.activity }
      ∧ w.site.block.bypassed = true
      ∧ first.fed.output.length = 6
      ∧ (outputs first.before history).filter (!·.isEmpty) = [first.fed.output, [0]]
      ∧ w.cycles = [.published 6] ∧ cycles first.before history = [.published 6] := by
  intro first history w
  have session : Session ([] : List (Call Float32)) first.before := .created Specimen.create_eq
  have hcount : first.fed.outcome.count = first.fed.output.length :=
    Call.count_outcome (c := first) session.holds
  have hwork : Block.work ⟨first.before, false⟩ first.block
      = ⟨⟨first.fed.engine, false⟩, first.fed.output, first.fed.output.length, first.fed.events⟩ := by
    rw [← hcount]
    rfl
  have run : Run ⟨first.before, false⟩ history w :=
    run_interrupted hwork (List.ne_nil_of_length_eq_add_one length_output_first) 0
  have hpublished : w.cycles = [.published 6] :=
    congrArg (fun count => [Cycle.published count]) length_output_first
  obtain ⟨hengine, hbypassed, houtputs, -, hcycles, -⟩ := serialised session run
  exact ⟨run, rfl, hengine, hbypassed, length_output_first, houtputs, hpublished,
    hcycles.symm.trans hpublished⟩

end Runs

end Sequential
end Serving
end Denoise
