import Denoise.Proofs.Device
import Denoise.Proofs.Parallel

/-!
# What a reset leaves

A reset makes new chains and clears both queues.  The vectors of the workspace stay as
they are, and the counts of retrains and swaps go on.  The vectors do not matter, since
what a caller sees depends on the engine alone (`Device.Stands.answers_eq`).  The counts
do, but nothing reads them: an engine whose counts start elsewhere does the same, and
counts on from there (`Engine.perform_countedOn`).

The engine that a reset leaves is a new one with its counts carried on, as soon as a new
one for the same rate has the same plan (`Engine.Made`).  A new rate leaves a new one
just so.  `reset_leaves_nothing` puts this together.
-/

namespace Denoise

/-! ## Counts that go on -/

/-- A pair whose counts go on from earlier ones. -/
def ChainPair.countedOn (retrains swaps : Nat) (c : ChainPair) : ChainPair :=
  { c with retrains := retrains + c.retrains, swaps := swaps + c.swaps }

/-- An engine whose counts go on from earlier ones. -/
def Engine.countedOn (retrains swaps : Nat) (e : Engine) : Engine :=
  { e with pair := e.pair.countedOn retrains swaps }

/-- A snapshot whose counts go on from earlier ones. -/
def Snapshot.countedOn (retrains swaps : Nat) (s : Snapshot) : Snapshot :=
  { s with retrains := retrains + s.retrains, swaps := swaps + s.swaps }

/-- An advance whose counts go on from earlier ones. -/
def Advanced.countedOn (retrains swaps : Nat) (a : Advanced) : Advanced :=
  ⟨a.pair.countedOn retrains swaps, a.events⟩

section Counts

variable (retrains swaps : Nat)

namespace ChainPair

theorem beginTraining_countedOn (c : ChainPair) :
    (c.countedOn retrains swaps).beginTraining = c.beginTraining.countedOn retrains swaps := by
  obtain ⟨phase, active, candidate, held, sinceTrigger, sinceRetrain, made, done, lastBusy⟩ := c
  cases phase <;> rfl

theorem defer_countedOn (range : Float32) (c : ChainPair) :
    (c.countedOn retrains swaps).defer range = (c.defer range).countedOn retrains swaps := by
  rw [defer, defer, apply_ite (Advanced.countedOn retrains swaps)]
  rfl

/-- The protocol does not read how often it has retrained and swapped. -/
theorem advance_countedOn (p : Plan) (activity : Nat → Float32) (trailing : Trailing Sample)
    (samples : Nat) (c : ChainPair) :
    (c.countedOn retrains swaps).advance p activity trailing samples
      = (c.advance p activity trailing samples).countedOn retrains swaps := by
  obtain ⟨phase, active, candidate, held, sinceTrigger, sinceRetrain, made, done, lastBusy⟩ := c
  -- no guard reads the counts, so both sides take the same branch
  cases phase with
  | uninitialized => rfl
  | training => rfl
  | retraining => rfl
  | steady =>
    simp only [advance, Phase.isTrained, Bool.not_true, Bool.false_eq_true, if_false,
      apply_ite (Advanced.countedOn retrains swaps), ← defer_countedOn]
    rfl
  | swapPending =>
    simp only [advance, Phase.isTrained, Bool.not_true, Bool.false_eq_true, if_false,
      apply_ite (Advanced.countedOn retrains swaps)]
    rfl

/-- Neither training nor a frame reads the counts. -/
theorem countedOn_parallel (p : Plan) :
    Parallel p p fun a a' => a' = a.countedOn retrains swaps where
  geometry := rfl
  trained h := by rw [h]; rfl
  train h samples := by rw [h]; rfl
  process h frame := by rw [h]; rfl
  hop h frame := by rw [h]; rfl

end ChainPair

/-! ### A call -/

/-- An intake beside one whose counts go on. -/
theorem Intake.Beside.eq_countedOn {i i' : Intake}
    (h : Beside (fun a a' => a' = a.countedOn retrains swaps) i i') :
    i' = { i with pair := i.pair.countedOn retrains swaps } := by
  obtain ⟨pair, input, pending, hops, events⟩ := i'
  obtain ⟨hadvanced, rfl, rfl, rfl⟩ := h
  obtain ⟨hpair, hevents⟩ := Advanced.mk.inj hadvanced
  subst hpair hevents
  rfl

namespace Engine

variable (e : Engine)

theorem arrive_countedOn (block : List Sample) :
    (e.countedOn retrains swaps).arrive block
      = ((e.arrive block).1.countedOn retrains swaps, (e.arrive block).2) := by
  by_cases hblock : block = []
  · rw [hblock]
    rfl
  · rw [arrive_of_ne_nil hblock, arrive_of_ne_nil hblock]
    simp only [countedOn, ChainPair.beginTraining_countedOn, ChainPair.advance_countedOn]
    rfl

theorem feed_countedOn (block : List Sample) :
    (e.countedOn retrains swaps).feed block
      = { e.feed block with engine := (e.feed block).engine.countedOn retrains swaps } := by
  have hintake : Intake.Beside (fun a a' => a' = a.countedOn retrains swaps)
      ⟨(e.arrive block).1.pair, (e.arrive block).1.input, block, [], (e.arrive block).2⟩
      ⟨(e.arrive block).1.pair.countedOn retrains swaps, (e.arrive block).1.input, block, [],
        (e.arrive block).2⟩ := ⟨rfl, rfl, rfl, rfl⟩
  have hrun := (hintake.run (ChainPair.countedOn_parallel retrains swaps e.plan)
    (block.length + 1)).eq_countedOn
  rw [feed, arrive_countedOn]
  simp only [countedOn]
  rw [hrun]
  rfl

end Engine

end Counts

/-- Whether a call starts the counts anew. -/
def Operation.restarts {S : Type} : Operation S → Reply S → Bool
  | .setRate _, .done => true
  | _, _ => false

section Calls

variable {S : Type} [SampleKind S]

/-- The counts are read by no call, and go on until a call starts them anew. -/
theorem Engine.perform_countedOn (retrains swaps : Nat) (e : Engine) (op : Operation S) :
    (e.countedOn retrains swaps).perform op
      = { e.perform op with
          state := if op.restarts (e.perform op).reply then (e.perform op).state
            else (e.perform op).state.countedOn retrains swaps } := by
  cases op with
  | feed activity block =>
    have hfed : ({ e.countedOn retrains swaps with activity := activity } : Engine).feed
        (block.map SampleKind.toPhasor) = _ :=
      feed_countedOn retrains swaps { e with activity := activity } _
    simp only [perform, process, hfed]
    rfl
  | setHold held => rfl
  | reset => rfl
  | retune carrier => rfl
  | setRate rate =>
    have hset : (e.countedOn retrains swaps).setRate rate = e.setRate rate := by
      simp only [setRate, countedOn, ChainPair.countedOn]
    rw [perform, perform, hset]
    cases e.setRate rate with
    | error error => rfl
    | ok changed => rfl

/-- Answers whose counts go on from earlier ones, until a call starts them anew. -/
def answersCountedOn (retrains swaps : Nat) : List (Operation S) → List (Answer S) → List (Answer S)
  | op :: later, answer :: answers =>
    if op.restarts answer.reply then answer :: answers
    else { answer with snapshot := answer.snapshot.countedOn retrains swaps }
      :: answersCountedOn retrains swaps later answers
  | _, answers => answers

/-- A series of calls answers the same but for the counts, until a call starts these
anew. -/
theorem Engine.answers_countedOn (retrains swaps : Nat) (e : Engine) (ops : List (Operation S)) :
    (series Engine.perform (e.countedOn retrains swaps) ops).map (Performed.answer id)
      = answersCountedOn retrains swaps ops
          ((series Engine.perform e ops).map (Performed.answer id)) := by
  induction ops generalizing e with
  | nil => rfl
  | cons op ops ih =>
    simp only [series, List.map_cons, answersCountedOn]
    have hreply : (Performed.answer id (e.perform op)).reply = (e.perform op).reply := rfl
    rw [perform_countedOn, hreply]
    cases op.restarts (e.perform op).reply with
    | true => rfl
    | false =>
      simp only [Bool.false_eq_true, if_false, ih]
      rfl

/-- What a caller sees: a snapshot, and the answers to a series of calls. -/
structure View (S : Type) where
  /-- The snapshot before the calls. -/
  now : Snapshot
  /-- The answers. -/
  answers : List (Answer S)

/-- What a caller sees of a device. -/
def Device.view (k : Kernel) (d : Device) (ops : List (Operation S)) : View S :=
  ⟨d.engine.snapshot, d.answers k ops⟩

/-- What a caller sees, with counts that go on from earlier ones. -/
def View.countedOn (retrains swaps : Nat) (ops : List (Operation S)) (v : View S) : View S :=
  ⟨v.now.countedOn retrains swaps, answersCountedOn retrains swaps ops v.answers⟩

/-- Two devices with one engine cannot be told apart, but for the counts. -/
theorem Device.Stands.view_countedOn {k : Kernel} {d d' : Device} (h : d.Stands k)
    (h' : d'.Stands k) {retrains swaps : Nat}
    (hengine : d.engine = d'.engine.countedOn retrains swaps) (ops : List (Operation S)) :
    d.view k ops = (d'.view k ops).countedOn retrains swaps ops := by
  rw [view, view, h.answers_eq, h'.answers_eq, hengine, Engine.answers_countedOn]
  rfl

/-- Two devices with the same engine look the same to a caller. -/
theorem Device.Stands.view_congr {k : Kernel} {d d' : Device} (h : d.Stands k) (h' : d'.Stands k)
    (hengine : d.engine = d'.engine) (ops : List (Operation S)) : d.view k ops = d'.view k ops := by
  rw [view, view, h.answers_eq, h'.answers_eq, hengine]

end Calls

/-! ## New engines -/

/-- A new engine at the rate of this one would have its plan and its trailing queue. -/
structure Engine.Made (e : Engine) : Prop where
  valid : e.plan.settings.Valid
  plan : Plan.ofRate? e.plan.numerics e.plan.settings e.plan.geometry.sampleRate = some e.plan
  trailing : e.trailing.clear = .empty e.plan.geometry.demand

namespace Engine

/-- An engine that was built has the plan of its rate, and a trailing queue for the demand. -/
theorem Made.of_idle {numerics : Numerics} {s : Settings} {rate : Float32} {p : Plan}
    (valid : s.Valid) (hplan : Plan.ofRate? numerics s rate = some p) (activity : Nat → Float32)
    (carrier : Float) : (idle p activity carrier).Made := by
  obtain ⟨rfl, rfl, rfl⟩ := Plan.ofRate?_eq hplan
  exact ⟨valid, hplan, rfl⟩

theorem clear_feed (e : Engine) (block : List Sample) :
    (e.feed block).engine.trailing.clear = e.trailing.clear := by
  show (e.arrive block).1.trailing.clear = e.trailing.clear
  rw [arrive]
  split <;> rfl

section Calls

variable {S : Type} [SampleKind S]

/-- Every call keeps what the engine was made with.  A rate that is accepted makes a new
plan. -/
theorem Made.perform {e : Engine} (h : e.Made) (op : Operation S) : (e.perform op).state.Made := by
  cases op with
  | feed activity block =>
    have hplan := Holds.feed_plan { e with activity := activity } (block.map SampleKind.toPhasor)
    have hclear := clear_feed { e with activity := activity } (block.map SampleKind.toPhasor)
    refine ⟨?_, ?_, ?_⟩
    · simp only [Engine.perform, process, hplan]
      exact h.valid
    · simp only [Engine.perform, process, hplan]
      exact h.plan
    · simp only [Engine.perform, process, hplan, hclear]
      exact h.trailing
  | setHold held => exact ⟨h.valid, h.plan, h.trailing⟩
  | reset => exact ⟨h.valid, h.plan, h.trailing⟩
  | retune carrier => exact ⟨h.valid, h.plan, h.trailing⟩
  | setRate rate =>
    rw [Engine.perform]
    cases hset : e.setRate rate with
    | error error => exact h
    | ok changed =>
      obtain ⟨p, hplan, hengine⟩ := setRate_eq hset
      have hmade := Made.of_idle h.valid hplan e.activity e.carrier
      show changed.engine.Made
      rw [hengine]
      exact ⟨hmade.valid, hmade.plan, hmade.trailing⟩

end Calls

/-- A reset leaves a new engine with its carrier and its hold, but for the counts. -/
theorem Made.reset_eq {e : Engine} (h : e.Made) :
    e.reset = (((idle e.plan e.activity 0).retune e.carrier).setHold e.pair.held).engine.countedOn
      e.pair.retrains e.pair.swaps := by
  rw [reset, h.trailing]
  rfl

end Engine

/-- Every device that was reached by calls has an engine like that. -/
theorem Device.Reached.made {k : Kernel} {d : Device} (h : d.Reached k) : d.engine.Made := by
  induction h with
  | created _ hcreate =>
    obtain ⟨p, hvalid, hplan, rfl⟩ := create_idle hcreate
    exact .of_idle hvalid hplan _ _
  | @performed S _ d op hreached ih =>
    have hdone := congrArg Performed.state (hreached.stands.perform_eq op).1
    show (Performed.onEngine (d.perform k op)).state.Made
    rw [hdone]
    exact ih.perform op

/-! ## New devices -/

/-- A device set to a carrier and a hold. -/
def Device.setTo (k : Kernel) (carrier : Float) (held : Bool) (d : Device) : Device :=
  ((d.perform k (.retune carrier : Operation Sample)).state.perform k
    (.setHold held : Operation Sample)).state

theorem Device.create_of_ofRate? {numerics : Numerics} {s : Settings} {rate : Float32} {p : Plan}
    (k : Kernel) (valid : s.Valid) (hplan : Plan.ofRate? numerics s rate = some p)
    (activity : Nat → Float32) :
    create k numerics rate s activity = .ok ⟨.idle p activity 0, .fresh k p.geometry⟩ := by
  have hviolation : s.violation? = none := valid
  rw [create, Engine.create, hviolation]
  simp only [hplan]
  rfl

theorem Device.Stands.setTo {k : Kernel} {d : Device} (h : d.Stands k) (carrier : Float)
    (held : Bool) : (d.setTo k carrier held).Stands k :=
  ((h.perform_eq _).2.perform_eq _).2

section Calls

variable {S : Type} [SampleKind S] {k : Kernel} {d : Device}

/-- A rate is refused and nothing changes, or the engine is the new one for the rate. -/
theorem Device.perform_setRate_cases (k : Kernel) (d : Device) (rate : Float32) :
    (∃ error, d.perform k (.setRate rate : Operation S) = ⟨d, .refused error, []⟩)
      ∨ ((d.perform k (.setRate rate : Operation S)).reply = .done
        ∧ ∃ p, Plan.ofRate? d.engine.plan.numerics d.engine.plan.settings rate = some p
          ∧ (d.perform k (.setRate rate : Operation S)).state.engine
            = ((Engine.idle p d.engine.activity d.engine.carrier).setHold
                d.engine.pair.held).engine) := by
  rw [perform]
  cases hset : d.engine.setRate rate with
  | error error => exact .inl ⟨error, rfl⟩
  | ok changed =>
    obtain ⟨p, hplan, hengine⟩ := Engine.setRate_eq hset
    exact .inr ⟨rfl, p, hplan, hengine⟩

/-- After a reset, and after a change of the carrier, a caller sees what it would see of a
new device for the same rate, settings and activity source, set to the same carrier and
hold; only that the counts go on.  After a change of the rate it sees what it would see
of a new device for that rate.  A rate that is refused changes nothing. -/
theorem reset_leaves_nothing (reached : d.Reached k) :
    (∃ fresh, Device.create k d.engine.plan.numerics d.engine.plan.geometry.sampleRate
          d.engine.plan.settings d.engine.activity = .ok fresh
        ∧ (∀ ops : List (Operation S),
          (d.perform k (.reset : Operation S)).state.view k ops
            = ((fresh.setTo k d.engine.carrier d.engine.pair.held).view k ops).countedOn
                d.engine.pair.retrains d.engine.pair.swaps ops)
        ∧ ∀ (carrier : Float) (ops : List (Operation S)),
          (d.perform k (.retune carrier : Operation S)).state.view k ops
            = ((fresh.setTo k carrier d.engine.pair.held).view k ops).countedOn
                d.engine.pair.retrains d.engine.pair.swaps ops)
      ∧ (∀ rate : Float32, (d.perform k (.setRate rate : Operation S)).reply = .done →
        ∃ fresh, Device.create k d.engine.plan.numerics rate d.engine.plan.settings
            d.engine.activity = .ok fresh
          ∧ ∀ ops : List (Operation S),
            (d.perform k (.setRate rate : Operation S)).state.view k ops
              = (fresh.setTo k d.engine.carrier d.engine.pair.held).view k ops)
      ∧ ∀ (rate : Float32) (error : EngineError),
        (d.perform k (.setRate rate : Operation S)).reply = .refused error →
        ∀ ops : List (Operation S),
          (d.perform k (.setRate rate : Operation S)).state.view k ops = d.view k ops := by
  have hmade := reached.made
  have hstands := reached.stands
  refine ⟨?_, ?_, ?_⟩
  · have hcreate := Device.create_of_ofRate? k hmade.valid hmade.plan d.engine.activity
    have hfresh := Device.Stands.of_create hstands.computes hcreate
    refine ⟨_, hcreate, fun ops => ?_, fun carrier ops => ?_⟩
    · exact (hstands.perform_eq (.reset : Operation S)).2.view_countedOn (hfresh.setTo _ _)
        hmade.reset_eq ops
    · have hretuned : ({ d.engine with carrier := carrier } : Engine).Made :=
        ⟨hmade.valid, hmade.plan, hmade.trailing⟩
      exact (hstands.perform_eq (.retune carrier : Operation S)).2.view_countedOn
        (hfresh.setTo _ _) hretuned.reset_eq ops
  · intro rate hdone
    rcases Device.perform_setRate_cases (S := S) k d rate with
      ⟨error, hrefused⟩ | ⟨-, p, hplan, hengine⟩
    · rw [hrefused] at hdone
      cases hdone
    · have hcreate := Device.create_of_ofRate? k hmade.valid hplan d.engine.activity
      have hfresh := Device.Stands.of_create hstands.computes hcreate
      exact ⟨_, hcreate, (hstands.perform_eq (.setRate rate : Operation S)).2.view_congr
        (hfresh.setTo _ _) hengine⟩
  · intro rate error hrefused ops
    rcases Device.perform_setRate_cases (S := S) k d rate with ⟨error', hsame⟩ | ⟨hdone, -⟩
    · rw [hsame]
    · rw [hdone] at hrefused
      cases hrefused

end Calls

namespace Specimen

/-- The device once it has trained, retrained and swapped. -/
def swapped : Device :=
  (((device.perform kernel (.feed quiet (List.replicate 8 (0 : Float32)))).state.perform kernel
    (.feed quiet [(0 : Float32)])).state.perform kernel (.feed quiet [(0 : Float32)])).state

theorem swapped_reached : swapped.Reached kernel :=
  .performed _ (.performed _ (.performed _ device_reached))

end Specimen

/-- A reset of a device that has retrained once and swapped once. -/
theorem reset_leaves_nothing_specimen :
    ∃ fresh, Device.create Specimen.kernel Specimen.swapped.engine.plan.numerics
        Specimen.swapped.engine.plan.geometry.sampleRate Specimen.swapped.engine.plan.settings
        Specimen.swapped.engine.activity = .ok fresh
      ∧ ∀ ops : List (Operation Float32),
        (Specimen.swapped.perform Specimen.kernel (.reset : Operation Float32)).state.view
            Specimen.kernel ops
          = ((fresh.setTo Specimen.kernel Specimen.swapped.engine.carrier false).view
              Specimen.kernel ops).countedOn 1 1 ops := by
  have hretrains : Specimen.swapped.engine.pair.retrains = 1 := by decide +kernel
  have hswaps : Specimen.swapped.engine.pair.swaps = 1 := by decide +kernel
  have hheld : Specimen.swapped.engine.pair.held = false := by decide +kernel
  obtain ⟨⟨fresh, hcreate, hreset, -⟩, -⟩ :=
    reset_leaves_nothing (S := Float32) Specimen.swapped_reached
  rw [hretrains, hswaps, hheld] at hreset
  exact ⟨fresh, hcreate, hreset⟩

end Denoise
