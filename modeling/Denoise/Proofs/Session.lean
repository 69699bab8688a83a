import Denoise.Machine
import Denoise.Proofs.Holding
import Mathlib.Data.List.Induction

/-!
# Sessions

A session is a run of an engine from its construction: any blocks, any answers of
the activity source, and any reconfiguration in between.  `Session calls e` says
that `e` is the engine after one, and that `calls` are the blocks it was fed since
its adaptive state was last discarded, in order.  A reset, a new carrier and a new
rate empty that list.  A rate that is refused and a switch of the hold do not.

The engine of a session holds the stretch that its calls fed (`Session.holds`), so
what a call does is one of the cases of `Feeds` (`Call.feeds`).  The front of a
session is a session, and before each of its calls there is one
(`Session.before`).

The blocks of a session are of one kind.  A run whose calls differ in kind is a session
of complex samples (`Session.fed_any`).
-/

namespace Denoise

/-! ## Calls -/

/-- A block that was fed to an engine. -/
structure Call (S : Type) where
  /-- The engine before the call. -/
  before : Engine
  /-- What the activity source answers during the call. -/
  activity : Nat → Float32
  /-- The block. -/
  block : List S

namespace Call

variable {S : Type} [SampleKind S]

/-- The block as the reducer works on it. -/
def samples (c : Call S) : List Sample := c.block.map SampleKind.toPhasor

/-- The engine as the call finds it. -/
def start (c : Call S) : Engine := { c.before with activity := c.activity }

/-- The engine after the call, and what the call gave. -/
def fed (c : Call S) : Fed S := c.start.process c.block

/-- The reading of the activity source that a retrain goes by. -/
def reading (c : Call S) : Float32 := c.activity c.before.plan.settings.activityWindow

/-- The milestones of the call. -/
def milestones (c : Call S) : List Milestone := milestonesOf c.fed.events

theorem length_samples (c : Call S) : c.samples.length = c.block.length := List.length_map ..

theorem fed_output (c : Call S) :
    c.fed.output = (c.start.feed c.samples).output.map SampleKind.ofPhasor := by
  rw [fed, Engine.process, samples]

theorem fed_outcome (c : Call S) : c.fed.outcome = (c.start.feed c.samples).outcome := by
  rw [fed, Engine.process, samples]

end Call

section Session

variable {S : Type} [SampleKind S]

/-- The stretch that some calls fed. -/
def fedSamples (calls : List (Call S)) : List Sample := calls.flatMap Call.samples

/-- What some calls put out. -/
def outputOf (calls : List (Call S)) : List S := calls.flatMap fun c => c.fed.output

/-- The milestones of some calls, in order. -/
def milestonesOfCalls (calls : List (Call S)) : List Milestone := calls.flatMap Call.milestones

theorem fedSamples_cons (c : Call S) (calls : List (Call S)) :
    fedSamples (c :: calls) = c.samples ++ fedSamples calls :=
  List.flatMap_cons

theorem fedSamples_append (calls more : List (Call S)) :
    fedSamples (calls ++ more) = fedSamples calls ++ fedSamples more :=
  List.flatMap_append

theorem fedSamples_concat (calls : List (Call S)) (c : Call S) :
    fedSamples (calls ++ [c]) = fedSamples calls ++ c.samples := by
  rw [fedSamples_append, fedSamples, fedSamples, List.flatMap_singleton]

theorem outputOf_concat (calls : List (Call S)) (c : Call S) :
    outputOf (calls ++ [c]) = outputOf calls ++ c.fed.output := by
  rw [outputOf, List.flatMap_append, List.flatMap_singleton, outputOf]

theorem milestonesOfCalls_concat (calls : List (Call S)) (c : Call S) :
    milestonesOfCalls (calls ++ [c]) = milestonesOfCalls calls ++ c.milestones := by
  rw [milestonesOfCalls, List.flatMap_append, List.flatMap_singleton, milestonesOfCalls]

/-- The engine after a session, and the calls since its adaptive state was last
discarded. -/
inductive Session : List (Call S) → Engine → Prop
  /-- An engine that was built. -/
  | created {numerics : Numerics} {rate : Float32} {s : Settings} {activity : Nat → Float32}
      {made : Reconfigured} :
    Engine.create numerics rate s activity = .ok made →
    Session [] made.engine
  /-- A block was fed. -/
  | fed {calls : List (Call S)} {e : Engine} (activity : Nat → Float32) (block : List S) :
    Session calls e →
    Session (calls ++ [⟨e, activity, block⟩]) (Call.fed ⟨e, activity, block⟩).engine
  /-- The engine was reset. -/
  | reset {calls : List (Call S)} {e : Engine} :
    Session calls e →
    Session [] e.reset
  /-- The carrier was changed. -/
  | retuned {calls : List (Call S)} {e : Engine} (carrier : Float) :
    Session calls e →
    Session [] (e.retune carrier)
  /-- The sample rate was changed. -/
  | rateChanged {calls : List (Call S)} {e : Engine} {rate : Float32} {changed : Reconfigured} :
    Session calls e →
    e.setRate rate = .ok changed →
    Session [] changed.engine
  /-- A sample rate was refused. -/
  | rateRefused {calls : List (Call S)} {e : Engine} {rate : Float32} {error : EngineError} :
    Session calls e →
    e.setRate rate = .error error →
    Session calls e
  /-- The hold was switched. -/
  | holdSet {calls : List (Call S)} {e : Engine} (held : Bool) :
    Session calls e →
    Session calls (e.setHold held).engine

end Session

/-! ## Every session -/

/-- A plan has the arithmetic, the settings and the rate that it was made for. -/
theorem Plan.ofRate?_eq {numerics : Numerics} {s : Settings} {rate : Float32} {p : Plan}
    (h : Plan.ofRate? numerics s rate = some p) :
    p.numerics = numerics ∧ p.settings = s ∧ p.geometry.sampleRate = rate := by
  obtain ⟨g, hg, rfl⟩ := Option.map_eq_some_iff.1 h
  refine ⟨rfl, rfl, ?_⟩
  rw [Geometry.ofRate?] at hg
  split at hg
  next => cases hg
  next =>
    simp only at hg
    split at hg
    next => cases hg; rfl
    next => cases hg

/-- An engine that could be built is idle, and has the plan of its rate. -/
theorem Engine.create_eq {numerics : Numerics} {rate : Float32} {s : Settings}
    {activity : Nat → Float32} {made : Reconfigured}
    (h : Engine.create numerics rate s activity = .ok made) :
    ∃ p, s.Valid ∧ Plan.ofRate? numerics s rate = some p
      ∧ made.engine = Engine.idle p activity 0 := by
  rw [Engine.create] at h
  split at h
  next => cases h
  next valid =>
    split at h
    next => cases h
    next p hp =>
      cases h
      exact ⟨p, valid, hp, rfl⟩

/-- An engine whose rate was changed is idle with a new plan, and keeps its hold and its
carrier. -/
theorem Engine.setRate_eq {e : Engine} {rate : Float32} {changed : Reconfigured}
    (h : e.setRate rate = .ok changed) :
    ∃ p, Plan.ofRate? e.plan.numerics e.plan.settings rate = some p
      ∧ changed.engine = ((Engine.idle p e.activity e.carrier).setHold e.pair.held).engine := by
  rw [Engine.setRate] at h
  split at h
  next => cases h
  next p hp =>
    cases h
    exact ⟨p, hp, rfl⟩

/-- What held before a call holds as the call finds the engine. -/
theorem Call.start_holds {S : Type} {c : Call S} {samples : List Sample} (h : c.before.Holds samples) :
    c.start.Holds samples :=
  h.with_activity c.activity

/-! ## One call -/

namespace Call

variable {S : Type} [SampleKind S] {c : Call S} {samples : List Sample}

theorem fed_plan (c : Call S) : c.fed.engine.plan = c.before.plan :=
  Engine.Holds.feed_plan c.start c.samples

/-- A call is one of the cases of `Feeds`. -/
theorem feeds (h : c.before.Holds samples) :
    Feeds c.start samples c.samples c.fed.engine.pair (c.start.feed c.samples).output
      c.milestones :=
  (start_holds h).feeds c.samples

/-- An empty call leaves the pair as it is, and marks nothing. -/
theorem of_nil (h : c.before.Holds samples) (hblock : c.block = []) :
    c.fed.engine.pair = c.before.pair ∧ c.milestones = [] := by
  have hsamples : c.samples = [] := List.map_eq_nil_iff.2 hblock
  have hfeeds := feeds h
  generalize c.milestones = milestones at *
  generalize c.fed.engine.pair = pair at *
  generalize (c.start.feed c.samples).output = output at hfeeds
  cases hfeeds with
  | idles => exact ⟨rfl, rfl⟩
  | gathers hne => exact absurd hsamples hne
  | trains hlt hle =>
    rw [hsamples, List.append_nil] at hle
    exact absurd hle (Nat.not_le_of_lt hlt)
  | advances _ hne => exact absurd hsamples hne

/-- Once trained, a call that is not empty is a move of the protocol.  Then both
chains go along the new frames, and the active one is heard. -/
theorem advances (h : c.before.Holds samples) (htrained : c.before.pair.phase.isTrained = true)
    (hblock : c.block ≠ []) :
    ∃ pair, Advances c.before.plan c.reading (c.before.trailing.push c.samples) c.block.length
        c.before.pair pair c.milestones
      ∧ c.fed.engine.pair = pair.along c.before.plan (Batch.frames c.before.plan.geometry
          (Batch.rest c.before.plan.geometry samples ++ c.samples))
      ∧ c.fed.output = ((pair.active.hops c.before.plan pair.held
          (Batch.frames c.before.plan.geometry
            (Batch.rest c.before.plan.geometry samples ++ c.samples))).flatten).map
          SampleKind.ofPhasor := by
  have hle : c.before.plan.geometry.demand ≤ samples.length :=
    of_decide_eq_true (h.isTrained.symm.trans htrained)
  have hfeeds := feeds h
  rw [fed_output]
  generalize c.milestones = milestones at *
  generalize c.fed.engine.pair = pair at *
  generalize (c.start.feed c.samples).output = output at *
  cases hfeeds with
  | idles hnil => exact absurd (List.map_eq_nil_iff.1 hnil) hblock
  | gathers _ hshort =>
    rw [List.length_append] at hshort
    exact absurd (Nat.le_trans hle (Nat.le_add_right _ _)) (Nat.not_le_of_lt hshort)
  | trains hlt => exact absurd hle (Nat.not_le_of_lt hlt)
  | advances _ _ hadvances =>
    rw [length_samples] at hadvances
    exact ⟨_, hadvances, rfl, rfl⟩

/-- Only then does a call retrain or swap. -/
theorem isTrained_of_mem (h : c.before.Holds samples) {m : Milestone} (hm : m ∈ c.milestones)
    (hne : m ≠ .trained) : c.before.pair.phase.isTrained = true ∧ c.block ≠ [] := by
  have hisTrained : c.before.pair.phase.isTrained
      = decide (c.start.plan.geometry.demand ≤ samples.length) := h.isTrained
  have hfeeds := feeds h
  generalize c.milestones = milestones at *
  generalize c.fed.engine.pair = pair at *
  generalize (c.start.feed c.samples).output = output at hfeeds
  cases hfeeds with
  | idles => exact absurd hm List.not_mem_nil
  | gathers => exact absurd hm List.not_mem_nil
  | trains => exact absurd (List.mem_singleton.1 hm) hne
  | advances hle hblock =>
    rw [decide_eq_true hle] at hisTrained
    exact ⟨hisTrained, fun hnil => hblock (List.map_eq_nil_iff.2 hnil)⟩

end Call

section Session

variable {S : Type} [SampleKind S]

/-- An engine holds the stretch it was fed, after any session. -/
theorem Session.holds {calls : List (Call S)} {e : Engine} (run : Session calls e) :
    e.Holds (fedSamples calls) := by
  induction run with
  | created hcreate =>
    obtain ⟨p, valid, hplan, hengine⟩ := Engine.create_eq hcreate
    obtain ⟨-, rfl, -⟩ := Plan.ofRate?_eq hplan
    rw [hengine]
    exact .of_idle valid
  | fed activity block _ ih =>
    rw [fedSamples_concat]
    exact (ih.with_activity activity).feed _
  | reset _ ih => exact ih.reset
  | retuned carrier _ ih => exact (ih.with_carrier carrier).reset
  | rateChanged _ hset ih =>
    obtain ⟨p, hplan, hengine⟩ := Engine.setRate_eq hset
    obtain ⟨-, hsettings, -⟩ := Plan.ofRate?_eq hplan
    rw [hengine]
    exact (Engine.Holds.of_idle (by rw [hsettings]; exact ih.valid)).with_hold _
  | rateRefused _ _ ih => exact ih
  | holdSet held _ ih => exact ih.with_hold held

/-! ## Parts of a session -/

/-- A session with a last call: the session before it, and the engine of the call
but for the hold. -/
theorem Session.last {earlier : List (Call S)} {c : Call S} {e : Engine}
    (run : Session (earlier ++ [c]) e) :
    Session earlier c.before ∧ ∃ held, e = (c.fed.engine.setHold held).engine := by
  generalize hcalls : earlier ++ [c] = calls at run
  induction run with
  | created => simp at hcalls
  | reset => simp at hcalls
  | retuned => simp at hcalls
  | rateChanged => simp at hcalls
  | rateRefused _ _ ih => exact ih hcalls
  | holdSet held _ ih =>
    obtain ⟨before, held', hengine⟩ := ih hcalls
    exact ⟨before, held, by rw [hengine]; rfl⟩
  | @fed calls e activity block before ih =>
    obtain ⟨rfl, hlast⟩ := List.append_inj' hcalls rfl
    obtain rfl := List.singleton_inj.1 hlast
    exact ⟨before, (Call.fed ⟨e, activity, block⟩).engine.pair.held, rfl⟩

/-- The front of a session is a session. -/
theorem Session.front {calls more : List (Call S)} {e : Engine} (run : Session (calls ++ more) e) :
    ∃ e', Session calls e' := by
  induction more using List.reverseRecOn generalizing e with
  | nil => exact ⟨e, by rwa [List.append_nil] at run⟩
  | append_singleton more c ih =>
    rw [← List.append_assoc] at run
    exact ih run.last.1

/-- Before each call of a session there is the session of the calls before it. -/
theorem Session.before {earlier later : List (Call S)} {c : Call S} {e : Engine}
    (run : Session (earlier ++ c :: later) e) : Session earlier c.before := by
  rw [← List.singleton_append, ← List.append_assoc] at run
  obtain ⟨e', front⟩ := run.front
  exact front.last.1

/-- A call does not change what is fixed at a rate. -/
theorem Session.plan_eq {earlier later : List (Call S)} {c : Call S} {e : Engine}
    (run : Session (earlier ++ c :: later) e) : e.plan = c.before.plan := by
  have hfed : ∀ c : Call S, c.fed.engine.plan = c.before.plan :=
    fun c => Engine.Holds.feed_plan c.start c.samples
  induction later using List.reverseRecOn generalizing e with
  | nil =>
    obtain ⟨_, held, rfl⟩ := run.last
    exact hfed c
  | append_singleton later d ih =>
    rw [← List.cons_append, ← List.append_assoc] at run
    obtain ⟨before, held, rfl⟩ := run.last
    exact (hfed d).trans (ih before)

end Session

/-! ## Kinds of samples

The engine keeps nothing of the kind of a block.  So the calls of a session with the
samples as the reducer works on them are a session as well (`Session.complex`), and a
session of complex samples goes on with a block of any kind (`Session.fed_any`).  What is
proved of every session of complex samples holds of runs whose calls differ in kind. -/

section Kinds

variable {S : Type} [SampleKind S]

/-- The call with the samples as the reducer works on them. -/
def Call.complex (c : Call S) : Call Sample := ⟨c.before, c.activity, c.samples⟩

namespace Call

/-- Samples that are complex already are worked on as they are. -/
theorem samples_complex (c : Call S) : c.complex.samples = c.samples := List.map_id _

/-- What comes of it is what the reducer gives. -/
theorem fed_complex (c : Call S) : c.complex.fed = c.start.feed c.samples := by
  have hblock : c.complex.block.map SampleKind.toPhasor = c.samples := samples_complex c
  rw [fed, Engine.process, hblock]
  exact congrArg (fun output => { c.start.feed c.samples with output := output }) (List.map_id _)

theorem fed_engine_complex (c : Call S) : c.complex.fed.engine = c.fed.engine := by
  rw [fed_complex]
  rfl

/-- A stream of another kind gets what it can keep of the same output. -/
theorem fed_output_complex (c : Call S) :
    c.fed.output = c.complex.fed.output.map SampleKind.ofPhasor := by
  rw [fed_complex, fed_output]

theorem fed_outcome_complex (c : Call S) : c.complex.fed.outcome = c.fed.outcome := by
  rw [fed_complex, fed_outcome]

theorem milestones_complex (c : Call S) : c.complex.milestones = c.milestones := by
  rw [milestones, fed_complex]
  rfl

end Call

/-- The calls of a session with the samples as the reducer works on them are a session,
with the same engine. -/
theorem Session.complex {calls : List (Call S)} {e : Engine} (run : Session calls e) :
    Session (calls.map Call.complex) e := by
  induction run with
  | created hcreate => exact .created hcreate
  | @fed calls e activity block _ ih =>
    have hfed := ih.fed activity (block.map SampleKind.toPhasor)
    rw [List.map_append, List.map_singleton]
    rwa [← Call.fed_engine_complex]
  | reset _ ih => exact ih.reset
  | retuned carrier _ ih => exact ih.retuned carrier
  | rateChanged _ hset ih => exact ih.rateChanged hset
  | rateRefused _ hset ih => exact ih.rateRefused hset
  | holdSet held _ ih => exact ih.holdSet held

/-- A session of complex samples goes on with a block of any kind. -/
theorem Session.fed_any {calls : List (Call Sample)} {e : Engine} (run : Session calls e)
    (activity : Nat → Float32) (block : List S) :
    Session (calls ++ [Call.complex ⟨e, activity, block⟩])
      (Call.fed ⟨e, activity, block⟩).engine := by
  have hfed := run.fed activity (block.map SampleKind.toPhasor)
  rwa [← Call.fed_engine_complex]

/-- The samples that were fed are the same. -/
theorem fedSamples_complex (calls : List (Call S)) :
    fedSamples (calls.map Call.complex) = fedSamples calls := by
  rw [fedSamples, List.flatMap_map, fedSamples]
  exact congrArg List.flatten <| List.map_congr_left fun c _ => c.samples_complex

/-- The output of a session is what its stream keeps of that of complex samples. -/
theorem outputOf_complex (calls : List (Call S)) :
    outputOf calls = (outputOf (calls.map Call.complex)).map SampleKind.ofPhasor := by
  rw [outputOf, outputOf, List.flatMap_map, List.map_flatMap]
  exact congrArg List.flatten <| List.map_congr_left fun c _ => c.fed_output_complex

theorem milestonesOfCalls_complex (calls : List (Call S)) :
    milestonesOfCalls (calls.map Call.complex) = milestonesOfCalls calls := by
  rw [milestonesOfCalls, List.flatMap_map, milestonesOfCalls]
  exact congrArg List.flatten <| List.map_congr_left fun c _ => c.milestones_complex

end Kinds

/-! ## A small session

A quiet channel at 200 Hz, with the arithmetic of the machine: frames of four
samples, and a demand of eight.  The first call trains, the second retrains the
candidate, and the third promotes it. -/

namespace Specimen

/-- Every interval is as short as it can be. -/
def settings : Settings := { noiseFrames := 1, switchInterval := 1, overlapInterval := 1 }

/-- The sizes at 200 Hz. -/
def geometry : Geometry where
  sampleRate := 200
  wideband := false
  hop := 2
  noiseFrames := 1
  two_le_hop := Nat.le_refl 2
  noiseFrames_pos := Nat.zero_lt_one

/-- What is fixed at 200 Hz. -/
def plan : Plan := { numerics := .machine, settings := settings, geometry := geometry }

/-- A channel of no dynamic range. -/
def quiet : Nat → Float32 := fun _ => 0

/-- The call that trains. -/
def first : Call Float32 := ⟨.idle plan quiet 0, quiet, List.replicate 8 0⟩

/-- The call that retrains the candidate. -/
def second : Call Float32 := ⟨first.fed.engine, quiet, [0]⟩

/-- The call that promotes it. -/
def third : Call Float32 := ⟨second.fed.engine, quiet, [0]⟩

theorem geometry_eq : Geometry.ofRate? 200 settings = some geometry := by decide +kernel

theorem create_eq : Engine.create plan.numerics 200 settings quiet
    = .ok ⟨.idle plan quiet 0, [.started 200 4 2 8]⟩ := by
  have valid : settings.violation? = none := by decide +kernel
  simp only [Engine.create, valid, Plan.ofRate?, geometry_eq, Option.map_some]
  rfl

theorem session_retrained : Session [first, second] second.fed.engine :=
  .fed _ _ (.fed _ _ (.created create_eq))

theorem session : Session [first, second, third] third.fed.engine :=
  .fed _ _ session_retrained

end Specimen

end Denoise
