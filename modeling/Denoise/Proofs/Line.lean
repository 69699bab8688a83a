import Denoise.Worker
import Denoise.Proofs.Accounting
import Denoise.Proofs.Delivery

/-!
# A worker between a feeder and a consumer

A run of a line is any sequence of steps of its three actors.  Between the steps the
activity source may come to answer differently.

`Line.Moves` lists what a step can do, one constructor each (`Line.moves`).  The rest
of the module takes a step apart by these cases and looks into no pipe and no cycle
again.

`Flows` is the invariant.  Every block that was given is somewhere: worked on, in the
hand of the worker, pending, or not yet written.  So is everything that was put out:
received, pending, or about to be published.  A step moves one block one place on
(`Flows.moves`).

A run cannot go on for ever, since every step takes something off what is left to do
(`Line.Moves.toDo_lt`), and it cannot stop half way, since whoever waits, waits for
somebody who can move (`Flows.settled`).  So every run that goes on as long as it can
ends in the one way that `end_to_end` describes.
-/

namespace Denoise

variable {S : Type} [SampleKind S]

/-! ## Calls in a row -/

/-- The calls that took an engine to another, each on the engine that the one before
it left.  In each the activity source answers in one of some ways. -/
inductive InRow (sources : Set (Nat → Float32)) (e : Engine) : List (Call S) → Engine → Prop
  | none : InRow sources e [] e
  | call {calls : List (Call S)} {e' : Engine} {activity : Nat → Float32} (block : List S) :
    InRow sources e calls e' →
    activity ∈ sources →
    InRow sources e (calls ++ [⟨e', activity, block⟩]) (Call.fed ⟨e', activity, block⟩).engine

/-- Calls in a row are a session, if the engine was idle before. -/
theorem InRow.session {sources : Set (Nat → Float32)} {e e' : Engine} {calls : List (Call S)}
    (row : InRow sources e calls e') (idle : Session ([] : List (Call S)) e) : Session calls e' := by
  induction row with
  | none => exact idle
  | call block _ _ ih => exact .fed _ block ih

theorem InRow.plan_eq {sources : Set (Nat → Float32)} {e e' : Engine} {calls : List (Call S)}
    (row : InRow sources e calls e') : e'.plan = e.plan := by
  induction row with
  | none => rfl
  | call block _ _ ih => exact (Call.fed_plan _).trans ih

/-- What some calls put out, without the calls that put out nothing. -/
def blocksOut (calls : List (Call S)) : List (List S) :=
  (calls.map fun c => c.fed.output).filter fun out => !out.isEmpty

theorem blocksOut_concat (calls : List (Call S)) (c : Call S) :
    blocksOut (calls ++ [c])
      = blocksOut calls ++ if c.fed.output = [] then [] else [c.fed.output] := by
  rw [blocksOut, List.map_append, List.filter_append, ← blocksOut, List.map_singleton]
  by_cases h : c.fed.output = [] <;> simp [h]

theorem flatten_blocksOut (calls : List (Call S)) : (blocksOut calls).flatten = outputOf calls := by
  rw [blocksOut, List.flatten_filter_not_isEmpty, outputOf, List.flatMap_def]

/-- A call counts what it puts out. -/
theorem Call.count_outcome {c : Call S} {samples : List Sample} (h : c.before.Holds samples) :
    c.fed.outcome.count = c.fed.output.length := by
  rw [fed_outcome, (start_holds h).outcome, fed_output, List.length_map]
  split
  next hnone => exact hnone.symm
  next => rfl

/-- A call does not change what the activity source answers. -/
theorem Call.fed_activity (c : Call S) : c.fed.engine.activity = c.activity := by
  show (c.start.arrive c.samples).1.activity = c.activity
  rw [Engine.arrive]
  split <;> rfl

/-- What a worker makes of a block is a call. -/
theorem Call.work_eq (c : Call S) : Block.work ⟨c.start, false⟩ c.block
    = ⟨⟨c.fed.engine, false⟩, c.fed.output, c.fed.outcome.count, c.fed.events⟩ :=
  rfl

/-- A call puts out whole hops. -/
theorem Call.hop_dvd_output {c : Call S} {samples : List Sample} (h : c.before.Holds samples) :
    c.before.plan.geometry.hop ∣ c.fed.output.length := by
  have hyield := (feeds h).length_output (start_holds h)
  have hdvd : ∀ n, c.start.plan.geometry.hop ∣ c.start.plan.geometry.yield n := by
    intro n
    rw [Geometry.yield]
    split
    · exact dvd_zero _
    · exact dvd_mul_left _ _
  rw [fed_output, List.length_map]
  exact (Nat.dvd_add_right (hdvd samples.length)).1 (hyield ▸ hdvd _)

/-- Every block that comes out is whole hops, and at least one. -/
theorem InRow.hop_dvd {sources : Set (Nat → Float32)} {e e' : Engine} {calls : List (Call S)}
    (row : InRow sources e calls e') (idle : Session ([] : List (Call S)) e) :
    ∀ block ∈ blocksOut calls, block ≠ [] ∧ e.plan.geometry.hop ∣ block.length := by
  induction row with
  | none => exact fun _ hmem => absurd hmem List.not_mem_nil
  | call block earlier _ ih =>
    intro out hmem
    rw [blocksOut_concat] at hmem
    rcases List.mem_append.1 hmem with hmem | hmem
    · exact ih out hmem
    · split at hmem
      next => exact absurd hmem List.not_mem_nil
      next hne =>
        obtain rfl := List.mem_singleton.1 hmem
        rw [← earlier.plan_eq]
        exact ⟨hne, Call.hop_dvd_output (earlier.session idle).holds⟩

theorem length_fedSamples (calls : List (Call S)) :
    (fedSamples calls).length = (calls.map Call.block).flatten.length := by
  rw [fedSamples, List.flatMap_def, List.length_flatten, List.length_flatten, List.map_map,
    List.map_map]
  exact congrArg List.sum (List.map_congr_left fun c _ => c.length_samples)

/-! ## What a step can do -/

/-- A write that is done: there is nobody to take the block, or it is pending now. -/
theorem Pipe.write_done {α : Type} {p q : Pipe α} {samples : List α} {accepted : Bool}
    (h : p.write samples = .done accepted q) :
    p.writer ≠ none ∧
      ((p.reader = none ∧ accepted = false
          ∧ q = { p with writer := some [], spares := p.spares.tail })
        ∨ (p.reader ≠ none ∧ p.pending = none ∧ accepted = true
          ∧ q = { p with
              writer := some []
              spares := p.spares.tail
              pending := some samples })) := by
  obtain ⟨buffer, hbuffer, hcases⟩ := swap_done h
  obtain ⟨old, hold, rfl⟩ := Option.map_eq_some_iff.1 hbuffer
  refine ⟨by simp [hold], hcases.imp id fun ⟨hreader, hpending, haccepted, hq⟩ => ?_⟩
  rw [List.take_length] at hq
  exact ⟨hreader, hpending, haccepted, hq⟩

/-- A swap can go on when nothing is pending. -/
theorem Pipe.swap_ready {α : Type} {p : Pipe α} (count : Nat) (hwriter : p.writer ≠ none)
    (hpending : p.pending = none) : ∃ accepted q, p.swap count = .done accepted q := by
  obtain ⟨buffer, hbuffer⟩ := Option.ne_none_iff_exists'.1 hwriter
  cases hreader : p.reader <;> simp [swap, swapWaits, hbuffer, hpending, hreader]

/-- So can a write. -/
theorem Pipe.write_ready {α : Type} {p : Pipe α} (samples : List α) (hwriter : p.writer ≠ none)
    (hpending : p.pending = none) : ∃ accepted q, p.write samples = .done accepted q :=
  swap_ready _ (by simpa [stage] using hwriter) hpending

/-- A read can go on when something is pending, or nobody writes. -/
theorem Pipe.read_ready {α : Type} {p : Pipe α} (hreader : p.reader ≠ none)
    (h : p.pending ≠ none ∨ p.writer = none) : ∃ result q, p.read = .done result q := by
  obtain ⟨old, hold⟩ := Option.ne_none_iff_exists'.1 hreader
  cases hpending : p.pending with
  | some block => simp [read, hold, hpending]
  | none =>
    have hwriter := h.resolve_left (not_not.2 hpending)
    simp [read, readWaits, hold, hpending, hwriter]

namespace Line

/-- The steps of a line: the line before, and the line after. -/
inductive Moves (l : Line S) : Line S → Prop
  /-- The feeder writes a block. -/
  | writes {block : List S} {rest : List (List S)} :
    l.unfed = block :: rest →
    l.worker.site.input.writer ≠ none →
    l.worker.site.input.reader ≠ none →
    l.worker.site.input.pending = none →
    Moves l { l.withInput { l.worker.site.input with
        writer := some []
        spares := l.worker.site.input.spares.tail
        pending := some block } with unfed := rest, fed := l.fed && true }
  /-- The feeder writes a block for nobody. -/
  | wastes {block : List S} {rest : List (List S)} :
    l.unfed = block :: rest →
    l.worker.site.input.writer ≠ none →
    l.worker.site.input.reader = none →
    Moves l { l.withInput { l.worker.site.input with
        writer := some []
        spares := l.worker.site.input.spares.tail } with unfed := rest, fed := l.fed && false }
  /-- The feeder goes. -/
  | leaves :
    l.unfed = [] →
    l.worker.site.input.writer ≠ none →
    Moves l (l.withInput l.worker.site.input.dropWriter)
  /-- The worker reads a block. -/
  | reads {block old : List S} :
    l.worker.stage = some .reading →
    l.worker.site.input.reader = some old →
    l.worker.site.input.pending = some block →
    Moves l { l with worker := { l.worker with
      stage := some .working
      site := { l.worker.site with input := { l.worker.site.input with
        reader := some block
        pending := none
        spares := l.worker.site.input.giveBack old } }
      events := l.worker.events ++ [] } }
  /-- The worker learns that the input has ended. -/
  | ends :
    l.worker.stage = some .reading →
    l.worker.site.input.reader ≠ none →
    l.worker.site.input.writer = none →
    l.worker.site.input.pending = none →
    Moves l { l with worker := { l.worker with
      cycles := l.worker.cycles ++ [Cycle.inputClosed]
      events := l.worker.events ++ [] }.conclude .inputClosed }
  /-- The worker works on a block, and there is something to publish or not. -/
  | works {worked : Worked S} :
    l.worker.stage = some .working →
    worked = l.worker.site.block.work (l.worker.site.input.reader.getD []) →
    Moves l { l with worker := { l.worker with
      site := {
        block := worked.block
        input := l.worker.site.input.flush.getD l.worker.site.input
        output := l.worker.site.output.stage worked.output }
      stage := some (if worked.count = 0 then .reading else .publishing worked.count)
      cycles := l.worker.cycles ++ if worked.count = 0 then [.starved] else []
      events := l.worker.events ++ worked.events } }
  /-- The worker publishes a block. -/
  | publishes {count : Nat} {buffer : List S} :
    l.worker.stage = some (.publishing count) →
    l.worker.site.output.writer = some buffer →
    l.worker.site.output.pending = none →
    Moves l { l with worker := { l.worker with
      stage := some .reading
      site := { l.worker.site with output := { l.worker.site.output with
        writer := some []
        spares := l.worker.site.output.spares.tail
        pending := some (buffer.take count) } }
      cycles := l.worker.cycles ++ [.published count]
      events := l.worker.events ++ [] } }
  /-- The worker learns that nobody takes the output. -/
  | closes {count : Nat} :
    l.worker.stage = some (.publishing count) →
    l.worker.site.output.reader = none →
    Moves l { l with worker := { l.worker with
      site := { l.worker.site with output := { l.worker.site.output with
        writer := some []
        spares := l.worker.site.output.spares.tail } }
      cycles := l.worker.cycles ++ [Cycle.outputClosed]
      events := l.worker.events ++ [] }.conclude .outputClosed }
  /-- The consumer reads a block. -/
  | receives {block old : List S} :
    l.finished = false →
    l.worker.site.output.reader = some old →
    l.worker.site.output.pending = some block →
    Moves l { l.withOutput { l.worker.site.output with
        reader := some []
        pending := none
        spares := l.worker.site.output.giveBack old } with received := l.received ++ [block] }
  /-- The consumer learns that there is none to come. -/
  | finishes :
    l.finished = false →
    l.worker.site.output.writer = none →
    l.worker.site.output.pending = none →
    Moves l { l with finished := true }

theorem moves_feeder {l next : Line S} (h : l.feed? = some next) : Moves l next := by
  rw [feed?] at h
  split at h
  next hunfed =>
    obtain ⟨_, hwriter, rfl⟩ := Option.map_eq_some_iff.1 h
    exact .leaves hunfed (by simp [hwriter])
  next block rest hunfed =>
    split at h
    next accepted input hwrite =>
      cases h
      obtain ⟨hwriter, ⟨hreader, rfl, rfl⟩ | ⟨hreader, hpending, rfl, rfl⟩⟩ := Pipe.write_done hwrite
      · exact .wastes hunfed hwriter hreader
      · exact .writes hunfed hwriter hreader hpending
    next => cases h

theorem moves_worker {l : Line S} {w : Worker S} (h : l.worker.step? = some w) :
    Moves l { l with worker := w } := by
  obtain ⟨stage, hstage, h⟩ := Option.bind_eq_some_iff.1 h
  obtain ⟨progress, hstep, rfl⟩ := Option.map_eq_some_iff.1 h
  cases stage with
  | reading =>
    simp only [Site.step, Site.receive] at hstep
    split at hstep
    next length input hread =>
      cases hstep
      obtain ⟨old, hold, ⟨_, _, hnone, _⟩ | ⟨block, hpending, _, rfl⟩⟩ := Pipe.read_done hread
      · cases hnone
      · exact .reads hstage hold hpending
    next input hread =>
      cases hstep
      obtain ⟨old, hold, ⟨hpending, hwriter, _, rfl⟩ | ⟨_, _, hsome, _⟩⟩ := Pipe.read_done hread
      · exact .ends hstage (by simp [hold]) hwriter hpending
      · cases hsome
    next => cases hstep
  | working =>
    have hworks := Moves.works (l := l) hstage rfl
    simp only [Site.step, Site.perform, Option.some.injEq] at hstep
    split at hstep
    next hcount =>
      subst hstep
      simpa only [hcount, if_true, Worker.conclude] using hworks
    next hcount =>
      subst hstep
      simpa only [hcount, if_false, List.append_nil] using hworks
  | publishing count =>
    simp only [Site.step, Site.publish] at hstep
    split at hstep
    next output hswap =>
      cases hstep
      obtain ⟨buffer, hbuffer, ⟨_, hfalse, _⟩ | ⟨_, hpending, _, rfl⟩⟩ := Pipe.swap_done hswap
      · cases hfalse
      · exact .publishes hstage hbuffer hpending
    next output hswap =>
      cases hstep
      obtain ⟨_, _, ⟨hreader, _, rfl⟩ | ⟨_, _, htrue, _⟩⟩ := Pipe.swap_done hswap
      · exact .closes hstage hreader
      · cases htrue
    next => cases hstep

theorem moves_consumer {l next : Line S} (h : l.consume? = some next) : Moves l next := by
  rw [consume?] at h
  split at h
  next => cases h
  next hfinished =>
    have hfinished := Bool.eq_false_iff.2 hfinished
    split at h
    next length output hread =>
      cases h
      obtain ⟨old, hold, ⟨_, _, hnone, _⟩ | ⟨block, hpending, _, rfl⟩⟩ := Pipe.read_done hread
      · cases hnone
      · exact .receives hfinished hold hpending
    next output hread =>
      cases h
      obtain ⟨_, _, ⟨hpending, hwriter, _, rfl⟩ | ⟨_, _, hsome, _⟩⟩ := Pipe.read_done hread
      · exact .finishes hfinished hwriter hpending
      · cases hsome
    next => cases h

/-- Every step is one of the moves. -/
theorem moves {l next : Line S} {actor : Actor} (h : l.step? actor = some next) :
    Moves l next := by
  cases actor with
  | feeder => exact moves_feeder h
  | worker =>
    obtain ⟨w, hw, rfl⟩ := Option.map_eq_some_iff.1 h
    exact moves_worker hw
  | consumer => exact moves_consumer h

omit [SampleKind S] in
/-- A feeder that cannot move is gone, or waits for the worker to read. -/
theorem feeder_waits {l : Line S} (hfeed : l.feed? = none) :
    l.worker.site.input.writer = none ∨ l.worker.site.input.pending ≠ none := by
  by_contra hready
  obtain ⟨hwriter, hpending⟩ := not_or.1 hready
  obtain ⟨buffer, hbuffer⟩ := Option.ne_none_iff_exists'.1 hwriter
  rw [feed?] at hfeed
  split at hfeed
  next => cases (Option.map_eq_none_iff.1 hfeed).symm.trans hbuffer
  next block rest _ =>
    obtain ⟨accepted, q, hwrite⟩ := Pipe.write_ready block hwriter (not_not.1 hpending)
    simp [hwrite] at hfeed

/-! ## What is left to do -/

/-- The steps a worker has yet to take until its cycle is over, and those that its
output then takes. -/
def stageWork : Option Stage → Nat
  | none => 0
  | some .reading => 1
  | some .working => 4
  | some (.publishing _) => 3

/-- The most steps that are left. -/
def toDo (l : Line S) : Nat :=
  5 * l.unfed.length + l.worker.site.input.writer.toList.length
    + 4 * l.worker.site.input.pending.toList.length + stageWork l.worker.stage
    + l.worker.site.output.pending.toList.length + (!l.finished).toNat

/-- Every move leaves less to do, whoever makes it. -/
theorem Moves.toDo_lt {l next : Line S} (h : Moves l next) : next.toDo < l.toDo := by
  cases h with
  | writes hunfed hwriter _ hpending =>
    obtain ⟨buffer, hwriter⟩ := Option.ne_none_iff_exists'.1 hwriter
    simp [toDo, withInput, hunfed, hwriter, hpending]
    omega
  | wastes hunfed hwriter =>
    obtain ⟨buffer, hwriter⟩ := Option.ne_none_iff_exists'.1 hwriter
    simp [toDo, withInput, hunfed, hwriter]
  | leaves _ hwriter =>
    obtain ⟨buffer, hwriter⟩ := Option.ne_none_iff_exists'.1 hwriter
    simp [toDo, withInput, Pipe.dropWriter, hwriter]
  | reads hstage _ hpending => simp [toDo, stageWork, hstage, hpending]
  | ends hstage =>
    simp only [toDo, stageWork, Worker.conclude, Worker.retire, Pipe.dropReader, Pipe.dropWriter,
      hstage, List.append_nil, Option.toList_none, List.length_nil]
    omega
  | @works worked hstage _ =>
    have hflush : (l.worker.site.input.flush.getD l.worker.site.input).writer
          = l.worker.site.input.writer
        ∧ (l.worker.site.input.flush.getD l.worker.site.input).pending
          = l.worker.site.input.pending := by
      rw [Pipe.flush]
      cases l.worker.site.input.reader <;> exact ⟨rfl, rfl⟩
    by_cases hcount : worked.count = 0
    · simp [toDo, stageWork, Pipe.stage, hflush, hstage, hcount]
    · simp [toDo, stageWork, Pipe.stage, hflush, hstage, hcount]
  | publishes hstage _ hpending =>
    simp [toDo, stageWork, hstage, hpending]
  | closes hstage =>
    simp only [toDo, stageWork, Worker.conclude, Worker.retire, Pipe.dropReader, Pipe.dropWriter,
      hstage, List.append_nil, Option.toList_none, List.length_nil]
    omega
  | receives _ _ hpending =>
    simp [toDo, withOutput, hpending]
  | finishes hfinished => simp [toDo, hfinished]

end Line

/-! ## Runs -/

/-- The line when the activity source comes to answer differently. -/
def Line.hears (l : Line S) (activity : Nat → Float32) : Line S :=
  { l with worker := { l.worker with site := { l.worker.site with block :=
    { l.worker.site.block with engine :=
      { l.worker.site.block.engine with activity := activity } } } } }

/-- The line after so many steps, whoever made them. -/
inductive Line.Run (sources : Set (Nat → Float32)) (first : Line S) : Nat → Line S → Prop
  | start : Run sources first 0 first
  | step {steps : Nat} {l next : Line S} {actor : Actor} :
    Run sources first steps l →
    l.step? actor = some next →
    Run sources first (steps + 1) next
  | hears {steps : Nat} {l : Line S} {activity : Nat → Float32} :
    Run sources first steps l →
    activity ∈ sources →
    Run sources first steps (l.hears activity)

/-! ## The invariant -/

/-- The block a worker has read and not worked on. -/
def Worker.inHand (w : Worker S) : List (List S) :=
  match w.stage with
  | some .working => w.site.input.reader.toList
  | _ => []

/-- The block a worker is about to publish. -/
def Worker.ready (w : Worker S) : List (List S) :=
  match w.stage with
  | some (.publishing _) => w.site.output.writer.toList
  | _ => []

/-- Where everything is that was given to a line and that it put out, when the worker
made some calls. -/
structure Flows (sources : Set (Nat → Float32)) (e : Engine) (blocks : List (List S))
    (calls : List (Call S)) (l : Line S) : Prop where
  fed : l.fed = true
  /-- Every block is worked on, in hand, pending, or not yet written. -/
  given : blocks = calls.map Call.block ++ l.worker.inHand
    ++ l.worker.site.input.pending.toList ++ l.unfed
  /-- All that was put out is received, pending, or about to be published. -/
  out : blocksOut calls = l.received ++ l.worker.site.output.pending.toList ++ l.worker.ready
  published : l.worker.published
    = (l.received ++ l.worker.site.output.pending.toList).flatten.length
  leaves : l.worker.site.input.writer = none → l.unfed = []
  consumer : l.worker.site.output.reader ≠ none
  finished : l.finished = true → l.worker.stage = none ∧ l.worker.site.output.pending = none
  publishing : ∀ count, l.worker.stage = some (.publishing count) →
    ∃ buffer, l.worker.site.output.writer = some buffer ∧ buffer.length = count
  /-- While the worker runs, its engine is the one that the calls left. -/
  running : l.worker.stage ≠ none →
    l.worker.site.input.reader ≠ none ∧ l.worker.site.output.writer ≠ none
      ∧ ∃ e' : Engine, ∃ activity ∈ sources, InRow sources e calls e'
        ∧ l.worker.site.block = ⟨{ e' with activity := activity }, false⟩
  /-- When it has ended, there was nothing more to come, and nothing is left of it. -/
  ended : l.worker.stage = none →
    l.worker.site.input.writer = none ∧ l.worker.site.input.pending = none
      ∧ l.worker.site.output.writer = none
      ∧ (∃ e' : Engine, InRow sources e calls e')
      ∧ l.worker.site.block.engine.pair.phase = .uninitialized
      ∧ l.worker.site.block.engine.input = []
      ∧ l.worker.site.block.engine.trailing.samples = []

omit [SampleKind S] in
theorem Worker.published_concat (w : Worker S) (site : Site S) (stage : Option Stage) (c : Cycle)
    (events : List Event) :
    Worker.published ⟨site, stage, w.cycles ++ [c], events⟩ = w.published + c.count := by
  rw [published, List.foldl_append, List.foldl_cons, List.foldl_nil, published]

namespace Flows

variable {sources : Set (Nat → Float32)} {e : Engine} {blocks : List (List S)}
  {calls : List (Call S)} {l next : Line S}

/-- A line before its first step. -/
theorem start (heard : e.activity ∈ sources) :
    Flows sources e blocks ([] : List (Call S)) (.start ⟨⟨e, false⟩, .fresh, .fresh⟩ blocks) where
  fed := rfl
  given := rfl
  out := rfl
  published := rfl
  leaves := nofun
  consumer := nofun
  finished := nofun
  publishing := nofun
  running := fun _ => ⟨nofun, nofun, e, e.activity, heard, .none, rfl⟩
  ended := nofun

/-- The activity source may come to answer differently. -/
theorem hears (h : Flows sources e blocks calls l) {activity : Nat → Float32}
    (heard : activity ∈ sources) : Flows sources e blocks calls (l.hears activity) where
  fed := h.fed
  given := h.given
  out := h.out
  published := h.published
  leaves := h.leaves
  consumer := h.consumer
  finished := h.finished
  publishing := h.publishing
  running := fun hstage => by
    obtain ⟨hreader, hwriter, e', _, _, row, hblock⟩ := h.running hstage
    refine ⟨hreader, hwriter, e', activity, heard, row, ?_⟩
    simp only [Line.hears, hblock]
  ended := h.ended

/-! ### The moves of the feeder and of the consumer -/

theorem writes (h : Flows sources e blocks calls l) {block : List S} {rest : List (List S)}
    (hunfed : l.unfed = block :: rest) (hwriter : l.worker.site.input.writer ≠ none)
    (hpending : l.worker.site.input.pending = none) :
    Flows sources e blocks calls { l.withInput { l.worker.site.input with
        writer := some []
        spares := l.worker.site.input.spares.tail
        pending := some block } with unfed := rest, fed := l.fed && true } where
  fed := by rw [h.fed, Bool.and_true]
  given := by
    rw [h.given, hpending, hunfed]
    simp [Line.withInput, Worker.inHand]
  out := h.out
  published := h.published
  leaves := nofun
  consumer := h.consumer
  finished := h.finished
  publishing := h.publishing
  running := h.running
  ended := fun hstage => absurd (h.ended hstage).1 hwriter

theorem drops (h : Flows sources e blocks calls l) (hunfed : l.unfed = []) :
    Flows sources e blocks calls (l.withInput l.worker.site.input.dropWriter) where
  fed := h.fed
  given := h.given
  out := h.out
  published := h.published
  leaves := fun _ => hunfed
  consumer := h.consumer
  finished := h.finished
  publishing := h.publishing
  running := h.running
  ended := fun hstage => ⟨rfl, (h.ended hstage).2⟩

theorem receives (h : Flows sources e blocks calls l) {block : List S} {spares : List (List S)}
    (hfinished : l.finished = false) (hpending : l.worker.site.output.pending = some block) :
    Flows sources e blocks calls { l.withOutput { l.worker.site.output with
        reader := some []
        pending := none
        spares := spares } with received := l.received ++ [block] } where
  fed := h.fed
  given := h.given
  out := by
    rw [h.out, hpending]
    simp [Line.withOutput, Worker.ready]
  published := by
    refine h.published.trans ?_
    rw [hpending]
    simp [Line.withOutput]
  leaves := h.leaves
  consumer := nofun
  finished := fun htrue => absurd (hfinished.symm.trans htrue) nofun
  publishing := h.publishing
  running := h.running
  ended := h.ended

theorem finishes (h : Flows sources e blocks calls l)
    (hwriter : l.worker.site.output.writer = none)
    (hpending : l.worker.site.output.pending = none) :
    Flows sources e blocks calls { l with finished := true } where
  fed := h.fed
  given := h.given
  out := h.out
  published := h.published
  leaves := h.leaves
  consumer := h.consumer
  finished := fun _ =>
    ⟨Classical.byContradiction fun hstage => (h.running hstage).2.1 hwriter, hpending⟩
  publishing := h.publishing
  running := h.running
  ended := h.ended

/-! ### The moves of the worker -/

theorem reads (h : Flows sources e blocks calls l) {block : List S} {spares : List (List S)}
    (hstage : l.worker.stage = some .reading)
    (hpending : l.worker.site.input.pending = some block) :
    Flows sources e blocks calls { l with worker := { l.worker with
      stage := some .working
      site := { l.worker.site with input := { l.worker.site.input with
        reader := some block
        pending := none
        spares := spares } }
      events := l.worker.events ++ [] } } where
  fed := h.fed
  given := by
    rw [h.given, hpending]
    simp [Worker.inHand, hstage]
  out := by
    rw [h.out]
    simp [Worker.ready, hstage]
  published := h.published
  leaves := h.leaves
  consumer := h.consumer
  finished := fun hfinished => absurd (hstage.symm.trans (h.finished hfinished).1) nofun
  publishing := nofun
  running := fun _ =>
    ⟨nofun, (h.running (by simp [hstage])).2⟩
  ended := nofun

theorem ends (h : Flows sources e blocks calls l) (hstage : l.worker.stage = some .reading)
    (hwriter : l.worker.site.input.writer = none)
    (hpending : l.worker.site.input.pending = none) :
    Flows sources e blocks calls { l with worker := { l.worker with
      cycles := l.worker.cycles ++ [Cycle.inputClosed]
      events := l.worker.events ++ [] }.conclude .inputClosed } where
  fed := h.fed
  given := by
    rw [h.given, hpending, h.leaves hwriter]
    simp [Worker.conclude, Worker.retire, Worker.inHand, Pipe.dropReader, hstage]
  out := by
    rw [h.out]
    simp [Worker.conclude, Worker.retire, Worker.ready, Pipe.dropWriter, hstage]
  published := (l.worker.published_concat _ _ _ _).trans h.published
  leaves := h.leaves
  consumer := h.consumer
  finished := fun hfinished => absurd (hstage.symm.trans (h.finished hfinished).1) nofun
  publishing := nofun
  running := fun hne => absurd rfl hne
  ended := fun _ => by
    obtain ⟨_, _, e', _, _, row, _⟩ := h.running (by simp [hstage])
    exact ⟨hwriter, rfl, rfl, ⟨e', row⟩, rfl, rfl, rfl⟩

theorem publishes (h : Flows sources e blocks calls l) {count : Nat} {buffer : List S}
    (hstage : l.worker.stage = some (.publishing count))
    (hwriter : l.worker.site.output.writer = some buffer)
    (hpending : l.worker.site.output.pending = none) :
    Flows sources e blocks calls { l with worker := { l.worker with
      stage := some .reading
      site := { l.worker.site with output := { l.worker.site.output with
        writer := some []
        spares := l.worker.site.output.spares.tail
        pending := some (buffer.take count) } }
      cycles := l.worker.cycles ++ [.published count]
      events := l.worker.events ++ [] } } := by
  -- everything in the buffer is handed over
  obtain ⟨_, hbuffer, hcount⟩ := h.publishing count hstage
  obtain rfl := Option.some.inj (hwriter.symm.trans hbuffer)
  subst hcount
  rw [List.take_length]
  exact
    { fed := h.fed
      given := by
        rw [h.given]
        simp [Worker.inHand, hstage]
      out := by
        rw [h.out, hpending]
        simp [Worker.ready, hstage, hwriter]
      published := by
        refine (l.worker.published_concat _ _ _ _).trans ?_
        rw [h.published, hpending]
        simp [Cycle.count]
      leaves := h.leaves
      consumer := h.consumer
      finished := fun hfinished => absurd (hstage.symm.trans (h.finished hfinished).1) nofun
      publishing := nofun
      running := fun _ => by
        obtain ⟨hreader, _, hrow⟩ := h.running (by simp [hstage])
        exact ⟨hreader, nofun, hrow⟩
      ended := nofun }

/-- The block in hand is worked on in one more call. -/
theorem call (h : Flows sources e blocks calls l) (idle : Session ([] : List (Call S)) e)
    (hstage : l.worker.stage = some .working) :
    ∃ c : Call S,
      l.worker.site.block.work (l.worker.site.input.reader.getD [])
          = ⟨⟨c.fed.engine, false⟩, c.fed.output, c.fed.output.length, c.fed.events⟩
        ∧ blocks = (calls ++ [c]).map Call.block ++ l.worker.site.input.pending.toList ++ l.unfed
        ∧ ∃ e' : Engine, ∃ activity ∈ sources, InRow sources e (calls ++ [c]) e'
          ∧ (⟨c.fed.engine, false⟩ : Block) = ⟨{ e' with activity := activity }, false⟩ := by
  obtain ⟨hreader, _, e', activity, heard, row, hblock⟩ := h.running (by simp [hstage])
  obtain ⟨block, hread⟩ := Option.ne_none_iff_exists'.1 hreader
  let c : Call S := ⟨e', activity, block⟩
  refine ⟨c, ?_, ?_, c.fed.engine, c.fed.engine.activity, ?_, row.call block heard, rfl⟩
  · rw [hblock, hread, ← Call.count_outcome (row.session idle).holds]
    exact c.work_eq
  · rw [h.given, List.map_append]
    simp [Worker.inHand, hstage, hread, c]
  · rw [c.fed_activity]
    exact heard

/-- The work of a cycle is one call more.  What it puts out is in the buffer, and if that
is nothing the next cycle begins. -/
theorem works (h : Flows sources e blocks calls l) (idle : Session ([] : List (Call S)) e)
    {worked : Worked S} (hstage : l.worker.stage = some .working)
    (hworked : worked = l.worker.site.block.work (l.worker.site.input.reader.getD [])) :
    ∃ c : Call S, Flows sources e blocks (calls ++ [c]) { l with worker := { l.worker with
      site := {
        block := worked.block
        input := l.worker.site.input.flush.getD l.worker.site.input
        output := l.worker.site.output.stage worked.output }
      stage := some (if worked.count = 0 then .reading else .publishing worked.count)
      cycles := l.worker.cycles ++ if worked.count = 0 then [.starved] else []
      events := l.worker.events ++ worked.events } } := by
  obtain ⟨c, hwork, hgiven, hrunning⟩ := h.call idle hstage
  obtain ⟨hreader, hwriter, _⟩ := h.running (by simp [hstage])
  obtain ⟨block, hread⟩ := Option.ne_none_iff_exists'.1 hreader
  obtain ⟨buffer, hbuffer⟩ := Option.ne_none_iff_exists'.1 hwriter
  have hflush : l.worker.site.input.flush.getD l.worker.site.input
      = { l.worker.site.input with reader := some [] } := by
    rw [Pipe.flush, hread]
    rfl
  have hout : blocksOut calls = l.received ++ l.worker.site.output.pending.toList := by
    rw [h.out]
    simp [Worker.ready, hstage]
  have hfinished : l.finished ≠ true :=
    fun hfinished => absurd (hstage.symm.trans (h.finished hfinished).1) (Option.some_ne_none _)
  refine ⟨c, ?_⟩
  rw [hworked, hwork, hflush, Pipe.stage, hbuffer]
  -- without output the cycle is over, and else the output is published next
  by_cases hnone : c.fed.output = []
  · have hzero : c.fed.output.length = 0 := List.length_eq_zero_iff.2 hnone
    rw [if_pos hzero, if_pos hzero]
    exact
      { fed := h.fed
        given := by
          rw [hgiven]
          simp [Worker.inHand]
        out := by
          rw [blocksOut_concat, if_pos hnone, hout]
          simp [Worker.ready]
        published := (l.worker.published_concat _ _ _ _).trans h.published
        leaves := h.leaves
        consumer := h.consumer
        finished := fun htrue => absurd htrue hfinished
        publishing := fun _ hcount => by cases hcount
        running := fun _ => ⟨Option.some_ne_none _, Option.some_ne_none _, hrunning⟩
        ended := fun hnone => absurd hnone (Option.some_ne_none _) }
  · have hsome : c.fed.output.length ≠ 0 := mt List.length_eq_zero_iff.1 hnone
    rw [if_neg hsome, if_neg hsome, List.append_nil]
    exact
      { fed := h.fed
        given := by
          rw [hgiven]
          simp [Worker.inHand]
        out := by
          rw [blocksOut_concat, if_neg hnone, hout]
          simp [Worker.ready]
        published := h.published
        leaves := h.leaves
        consumer := h.consumer
        finished := fun htrue => absurd htrue hfinished
        publishing := fun count hcount => by
          cases hcount
          exact ⟨_, rfl, rfl⟩
        running := fun _ => ⟨Option.some_ne_none _, Option.some_ne_none _, hrunning⟩
        ended := fun hnone => absurd hnone (Option.some_ne_none _) }

/-! ### Every move -/

/-- A move of any of the three keeps the account, with the calls that were made by
then. -/
theorem moves (h : Flows sources e blocks calls l) (idle : Session ([] : List (Call S)) e)
    (hmoves : l.Moves next) : ∃ calls, Flows sources e blocks calls next := by
  cases hmoves with
  | writes hunfed hwriter _ hpending => exact ⟨calls, h.writes hunfed hwriter hpending⟩
  | wastes _ hwriter hreader =>
    have hstage : l.worker.stage = none :=
      Classical.byContradiction fun hstage => (h.running hstage).1 hreader
    exact absurd (h.ended hstage).1 hwriter
  | leaves hunfed => exact ⟨calls, h.drops hunfed⟩
  | reads hstage _ hpending => exact ⟨calls, h.reads hstage hpending⟩
  | ends hstage _ hwriter hpending => exact ⟨calls, h.ends hstage hwriter hpending⟩
  | works hstage hworked =>
    obtain ⟨c, hworks⟩ := h.works idle hstage hworked
    exact ⟨calls ++ [c], hworks⟩
  | publishes hstage hwriter hpending => exact ⟨calls, h.publishes hstage hwriter hpending⟩
  | closes _ hreader => exact absurd hreader h.consumer
  | receives hfinished _ hpending => exact ⟨calls, h.receives hfinished hpending⟩
  | finishes _ hwriter hpending => exact ⟨calls, h.finishes hwriter hpending⟩

/-! ### The end -/

/-- A worker that cannot move has ended, or waits for one of the other two. -/
theorem worker_waits (h : Flows sources e blocks calls l) (hstep : l.worker.step? = none) :
    l.worker.stage = none
      ∨ (l.worker.site.input.writer ≠ none ∧ l.worker.site.input.pending = none)
      ∨ (l.worker.stage ≠ none ∧ l.worker.site.output.pending ≠ none) := by
  cases hstage : l.worker.stage with
  | none => exact .inl rfl
  | some stage =>
    obtain ⟨hreader, hwriter, _⟩ := h.running (by simp [hstage])
    rw [Worker.step?, hstage, Option.bind_some, Option.map_eq_none_iff] at hstep
    refine .inr ?_
    cases stage with
    | reading =>
      refine .inl (Classical.byContradiction fun hready => ?_)
      obtain ⟨result, q, hread⟩ := Pipe.read_ready hreader
        (by rwa [not_and_or, not_not, or_comm] at hready)
      cases result <;> simp [Site.step, Site.receive, hread] at hstep
    | working => cases hstep
    | publishing count =>
      refine .inr ⟨Option.some_ne_none _, fun hpending => ?_⟩
      obtain ⟨accepted, q, hswap⟩ := Pipe.swap_ready count hwriter hpending
      cases accepted <;> simp [Site.step, Site.publish, hswap] at hstep

/-- A consumer that cannot move has seen the end, or waits for the worker to publish. -/
theorem consumer_waits (h : Flows sources e blocks calls l) (hconsume : l.consume? = none) :
    l.finished = true
      ∨ (l.worker.site.output.writer ≠ none ∧ l.worker.site.output.pending = none) := by
  by_contra hready
  obtain ⟨hfinished, hready⟩ := not_or.1 hready
  obtain ⟨result, q, hread⟩ := Pipe.read_ready h.consumer
    (by rwa [not_and_or, not_not, or_comm] at hready)
  cases result <;> simp [Line.consume?, hread, hfinished] at hconsume

/-- If nobody can move, everybody is done. -/
theorem settled (h : Flows sources e blocks calls l) (hstuck : ∀ actor, l.step? actor = none) :
    l.worker.stage = none ∧ l.finished = true := by
  have hfeed : l.feed? = none := hstuck .feeder
  have hwork : l.worker.step? = none := Option.map_eq_none_iff.1 (hstuck .worker)
  have hconsume : l.consume? = none := hstuck .consumer
  rcases h.worker_waits hwork with hstage | ⟨hwriter, hpending⟩ | ⟨hstage, hpending⟩
  · rcases h.consumer_waits hconsume with hfinished | ⟨hwriter, _⟩
    · exact ⟨hstage, hfinished⟩
    · exact absurd (h.ended hstage).2.2.1 hwriter
  · rcases Line.feeder_waits hfeed with hnone | hsome
    · exact absurd hnone hwriter
    · exact absurd hpending hsome
  · rcases h.consumer_waits hconsume with hfinished | ⟨_, hnone⟩
    · exact absurd (h.finished hfinished).1 hstage
    · exact absurd hnone hpending

end Flows

/-! ## Every run -/

namespace Line

variable {sources : Set (Nat → Float32)} {e : Engine} {blocks : List (List S)} {l : Line S}
  {steps : Nat}

/-- So it holds after any run. -/
theorem Run.flows (run : Run sources (.start ⟨⟨e, false⟩, .fresh, .fresh⟩ blocks) steps l)
    (idle : Session ([] : List (Call S)) e) (heard : e.activity ∈ sources) :
    ∃ calls, Flows sources e blocks calls l := by
  induction run with
  | start => exact ⟨[], .start heard⟩
  | step _ hstep ih =>
    obtain ⟨calls, h⟩ := ih
    exact h.moves idle (moves hstep)
  | hears _ hactivity ih =>
    obtain ⟨calls, h⟩ := ih
    exact ⟨calls, h.hears hactivity⟩

/-- Every step is one off what there was to do. -/
theorem Run.toDo_le {first : Line S} (run : Run sources first steps l) :
    l.toDo + steps ≤ first.toDo := by
  induction run with
  | start => exact Nat.le_refl _
  | step _ hstep ih =>
    have hlt := (moves hstep).toDo_lt
    omega
  | hears _ _ ih => exact ih

/-- In a run the worker never loses a block, and whatever the three do, they come to
an end after no more steps than this.  Then the feeder has written every block to the
worker, and the worker has ended.  It has worked on the blocks in their order, has
published what its engine put out, and counted it right, and the consumer has received
just that, in whole hops.  The engine that is left has no input and is not trained.

The hop and the demand are natural numbers, which words hold under `Geometry.Fits`. -/
theorem end_to_end (idle : Session ([] : List (Call S)) e) (heard : e.activity ∈ sources)
    (run : Run sources (.start ⟨⟨e, false⟩, .fresh, .fresh⟩ blocks) steps l) :
    let g := e.plan.geometry
    let n := blocks.flatten.length
    let count := if n < g.demand then 0 else (n / g.hop - 1) * g.hop
    steps ≤ 5 * blocks.length + 3
      ∧ (l.worker.stage = none →
          l.worker.site.block.engine.pair.phase = .uninitialized
            ∧ l.worker.site.block.engine.input = []
            ∧ l.worker.site.block.engine.trailing.samples = [])
      ∧ ((∀ actor, l.step? actor = none) →
          l.unfed = [] ∧ l.fed = true ∧ l.worker.stage = none ∧ l.finished = true
            ∧ ∃ (calls : List (Call S)) (e' : Engine),
              InRow sources e calls e' ∧ calls.map Call.block = blocks
                ∧ l.received.flatten = outputOf calls
                ∧ l.worker.published = count
                ∧ l.received.flatten.length = count
                ∧ (outputOf calls).length = count
                ∧ ∀ block ∈ l.received, block ≠ [] ∧ g.hop ∣ block.length) := by
  intro g n count
  obtain ⟨calls, h⟩ := run.flows idle heard
  refine ⟨?_, fun hstage => (h.ended hstage).2.2.2.2, fun hstuck => ?_⟩
  · have hle := run.toDo_le
    have hfirst : (start (S := S) ⟨⟨e, false⟩, .fresh, .fresh⟩ blocks).toDo
        = 5 * blocks.length + 3 := rfl
    omega
  · obtain ⟨hstage, hfinished⟩ := h.settled hstuck
    obtain ⟨hwriter, hpending, _, ⟨e', row⟩, _⟩ := h.ended hstage
    have hunfed := h.leaves hwriter
    have hblocks : calls.map Call.block = blocks := by
      rw [h.given, hpending, hunfed]
      simp [Worker.inHand, hstage]
    have hreceived : l.received = blocksOut calls := by
      rw [h.out, (h.finished hfinished).2]
      simp [Worker.ready, hstage]
    have hflatten : l.received.flatten = outputOf calls := by
      rw [hreceived, flatten_blocksOut]
    have hcount : (outputOf calls).length = count := by
      rw [(row.session idle).length_outputOf, row.plan_eq, length_fedSamples, hblocks]
      rfl
    have hpublished : l.worker.published = l.received.flatten.length := by
      rw [h.published, (h.finished hfinished).2, Option.toList_none, List.append_nil]
    refine ⟨hunfed, h.fed, hstage, hfinished, calls, e', row, hblocks, hflatten, ?_, ?_, hcount, ?_⟩
    · rw [hpublished, hflatten, hcount]
    · rw [hflatten, hcount]
    · rw [hreceived]
      exact row.hop_dvd idle

/-! ## The run of `settle` -/

theorem step_of_next {l next : Line S} (h : l.next? = some next) :
    ∃ actor, l.step? actor = some next := by
  rw [next?, Option.orElse_eq_some] at h
  rcases h with h | ⟨_, h⟩
  · exact ⟨.worker, h⟩
  · rcases (Option.orElse_eq_some _ _ _).1 h with h | ⟨_, h⟩
    · exact ⟨.consumer, h⟩
    · exact ⟨.feeder, h⟩

theorem stuck_of_next {l : Line S} (h : l.next? = none) (actor : Actor) :
    l.step? actor = none := by
  rw [next?, Option.orElse_eq_none, Option.orElse_eq_none] at h
  cases actor with
  | feeder => exact h.2.2
  | worker => exact h.1
  | consumer => exact h.2.1

/-- With as many turns as there is to do, nobody can move in the end. -/
theorem Run.runFor {first : Line S} (turns : Nat) (run : Run sources first steps l)
    (h : l.toDo ≤ turns) :
    ∃ steps, Run sources first steps (l.runFor turns)
      ∧ ∀ actor, (l.runFor turns).step? actor = none := by
  induction turns generalizing steps l with
  | zero =>
    refine ⟨steps, run, fun actor => Option.eq_none_iff_forall_ne_some.2 fun next hnext => ?_⟩
    have hlt := (moves hnext).toDo_lt
    simp only [Line.runFor] at hlt
    omega
  | succ turns ih =>
    rw [Line.runFor]
    split
    next hnone => exact ⟨steps, run, stuck_of_next hnone⟩
    next next hnext =>
      obtain ⟨actor, hstep⟩ := step_of_next hnext
      have hlt := (moves hstep).toDo_lt
      exact ih (run.step hstep) (by omega)

/-- Settling a line is a run of it, and nobody can move at the end. -/
theorem run_settle (sources : Set (Nat → Float32)) (block : Block) (blocks : List (List S)) :
    ∃ steps, Run sources (start ⟨block, .fresh, .fresh⟩ blocks) steps
        (settle (start ⟨block, .fresh, .fresh⟩ blocks))
      ∧ ∀ actor, (settle (start ⟨block, .fresh, .fresh⟩ blocks)).step? actor = none := by
  have hfirst : (start (S := S) ⟨block, .fresh, .fresh⟩ blocks).toDo = 5 * blocks.length + 3 := rfl
  exact Run.start.runFor _ (Nat.le_trans (Nat.le_of_eq hfirst) (Nat.le_add_right _ 5))

/-- Nine samples in three blocks, one of them empty. -/
theorem end_to_end_specimen :
    let l := settle (start ⟨⟨.idle Specimen.plan Specimen.quiet 0, false⟩, .fresh, .fresh⟩
      [List.replicate 8 (0 : Float32), [], [0]])
    l.worker.published = 6 ∧ l.received.flatten.length = 6
      ∧ l.worker.site.block.engine.pair.phase = .uninitialized := by
  intro l
  obtain ⟨steps, run, hstuck⟩ := run_settle {Specimen.quiet}
    ⟨.idle Specimen.plan Specimen.quiet 0, false⟩ [List.replicate 8 (0 : Float32), [], [0]]
  obtain ⟨_, hended, hsettled⟩ := end_to_end (.created Specimen.create_eq)
    (Set.mem_singleton Specimen.quiet) run
  obtain ⟨_, _, hstage, _, _, _, _, _, _, hpublished, hreceived, _⟩ := hsettled hstuck
  exact ⟨hpublished, hreceived, (hended hstage).1⟩

end Line

end Denoise
