import Denoise.Proofs.Device
import Denoise.Proofs.Parallel
import Denoise.Proofs.Streaming

/-!
# A candidate that is not promoted is not heard

Two continuations of one run get the same blocks and the same requests, but other rules
for retrains and other readings of the channel.  Their candidates and counters soon
differ.  `ChainPair.Unison` is what stays: the active chain, the hold, and whether there
was training.

The retrain rules are read by the protocol alone, so training and frames keep it by
definition (`ChainPair.unison_parallel`), and so does a whole block.  The protocol keeps
it unless it swaps (`ChainPair.unison_advance`).  So nothing that is heard differs before
the first swap on either side (`candidate_unheard`), even while the one candidate is
retrained in the vectors that both chains share.
-/

namespace Denoise

/-! ## Retrain rules -/

/-- The settings that say when the candidate is retrained. -/
structure RetrainRules where
  /-- Whether it is retrained at all. -/
  autoRetrain : Bool
  /-- Samples between attempts. -/
  switchInterval : Nat
  /-- The dynamic range below which the channel is quiet (dB). -/
  silenceThresholdDb : Float32
  /-- Readings inspected per attempt. -/
  activityWindow : Nat

/-- Settings with other retrain rules. -/
def Settings.under (s : Settings) (r : RetrainRules) : Settings :=
  { s with
    autoRetrain := r.autoRetrain
    switchInterval := r.switchInterval
    silenceThresholdDb := r.silenceThresholdDb
    activityWindow := r.activityWindow }

/-- A plan with other retrain rules. -/
def Plan.under (p : Plan) (r : RetrainRules) : Plan := { p with settings := p.settings.under r }

/-- A device with other retrain rules. -/
def Device.under (d : Device) (r : RetrainRules) : Device :=
  { d with engine := { d.engine with plan := d.engine.plan.under r } }

/-- The rules of retraining do not enter the sizes, nor anything else that a rate
fixes. -/
theorem Plan.ofRate?_under (numerics : Numerics) (s : Settings) (r : RetrainRules)
    (rate : Float32) :
    Plan.ofRate? numerics (s.under r) rate = (Plan.ofRate? numerics s rate).map (·.under r) := by
  rw [Plan.ofRate?, Plan.ofRate?, Option.map_map]
  rfl

theorem Device.Stands.under {k : Kernel} {d : Device} (h : d.Stands k) (r : RetrainRules) :
    (d.under r).Stands k :=
  ⟨h.computes, h.sized, h.fits, h.unstaged⟩

/-! ## What is heard of a pair -/

/-- Two pairs that put out the same. -/
structure ChainPair.Unison (c c' : ChainPair) : Prop where
  active : c'.active = c.active
  held : c'.held = c.held
  trained : c'.phase.isTrained = c.phase.isTrained

namespace ChainPair

variable {p : Plan} {c c' : ChainPair}

theorem Unison.refl (c : ChainPair) : c.Unison c := ⟨rfl, rfl, rfl⟩

theorem Unison.trans {c'' : ChainPair} (h : c.Unison c') (h' : c'.Unison c'') : c.Unison c'' :=
  ⟨h'.active.trans h.active, h'.held.trans h.held, h'.trained.trans h.trained⟩

/-- Two pairs that were in unison stay so if each goes on in unison with itself. -/
theorem Unison.across {left right : ChainPair} (h : c.Unison c') (hleft : c.Unison left)
    (hright : c'.Unison right) : left.Unison right where
  active := by rw [hright.active, h.active, hleft.active]
  held := by rw [hright.held, h.held, hleft.held]
  trained := by rw [hright.trained, h.trained, hleft.trained]

/-- Training that begins does not change what is heard. -/
theorem unison_beginTraining (c : ChainPair) : c.Unison c.beginTraining := by
  rw [beginTraining]
  split
  next hphase => exact ⟨rfl, rfl, by rw [hphase]; rfl⟩
  next => exact .refl c

/-- An advance that does not swap. -/
theorem unison_advance (activity : Nat → Float32) (trailing : Trailing Sample) (samples : Nat)
    (noSwap : .swapped ∉ milestonesOf (c.advance p activity trailing samples).events) :
    c.Unison (c.advance p activity trailing samples).pair := by
  -- in this phase nothing is advanced but a counter; `Advances` lists the moves of the others
  by_cases hphase : c.phase = .retraining
  · obtain ⟨_, _, _, _, _, _, _, _, _⟩ := c
    cases hphase
    exact ⟨rfl, rfl, rfl⟩
  · have hadvances := advance_advances p activity trailing samples hphase
    exact ⟨hadvances.active_eq noSwap, hadvances.held_eq, hadvances.isTrained_eq⟩

theorem Unison.step (h : c.Unison c') (p : Plan) (spectrum : List Sample) :
    c'.active.step p c'.held spectrum = c.active.step p c.held spectrum := by
  rw [h.active, h.held]

/-- Within a block no retrain rule is read, and only the active chain is heard. -/
theorem unison_parallel (p : Plan) (r r' : RetrainRules) :
    Parallel (p.under r) (p.under r') fun a a' => a.pair.Unison a'.pair where
  geometry := rfl
  trained h := h.trained
  train h samples := ⟨congrArg (Chain.train p samples) h.active, h.held, rfl⟩
  process h frame := ⟨congrArg Stepped.chain (h.step p (p.spectrum frame)), h.held, h.trained⟩
  hop h frame := congrArg Stepped.hop (h.step p (p.spectrum frame))

end ChainPair

/-! ## A block -/

namespace Intake

theorem events_train (p : Plan) (i : Intake) : i.events <+: (i.train p).events := by
  rw [Intake.train]
  split
  · exact List.prefix_append _ _
  · exact List.prefix_rfl

theorem events_drain (p : Plan) (turns : Nat) (i : Intake) :
    i.events <+: (i.drain p turns).events := by
  induction turns generalizing i with
  | zero => exact List.prefix_rfl
  | succ turns ih =>
    simp only [Intake.drain]
    split
    · exact (List.prefix_append i.events _).trans
        (ih ((i.hear p (i.input.take p.geometry.frameLen)).withInput (i.input.drop p.geometry.hop)))
    · exact List.prefix_rfl

/-- A loop only adds to what was reported. -/
theorem events_run (p : Plan) (turns : Nat) (i : Intake) : i.events <+: (i.run p turns).events := by
  have hround : ∀ i : Intake, i.events <+: (i.round p).events := by
    intro i
    have htrain := events_train p (i.enter p)
    simp only [Intake.round]
    split
    · exact htrain.trans (events_drain p _ _)
    · exact htrain
  induction turns generalizing i with
  | zero => exact List.prefix_rfl
  | succ turns ih =>
    simp only [Intake.run]
    split
    · exact hround i
    · exact (hround i).trans (ih _)

end Intake

/-! ## A call -/

/-- Two engines of one run that went on under different retrain rules. -/
structure Engine.Unison (e e' : Engine) : Prop where
  plan : ∃ p r r', e.plan = Plan.under p r ∧ e'.plan = Plan.under p r'
  pair : e.pair.Unison e'.pair
  input : e'.input = e.input

namespace Engine

variable {e e' : Engine}

/-- A block that arrives without a swap does not change what is heard. -/
theorem unison_arrive (e : Engine) (block : List Sample)
    (noSwap : .swapped ∉ milestonesOf (e.arrive block).2) :
    e.pair.Unison (e.arrive block).1.pair := by
  by_cases hblock : block = []
  · rw [hblock]
    exact .refl e.pair
  · rw [arrive_of_ne_nil hblock] at noSwap ⊢
    have hadvance := ChainPair.unison_advance e.activity (e.trailing.push block) block.length noSwap
    exact e.pair.unison_beginTraining.trans hadvance

/-- What arrival reports is reported by the call. -/
theorem milestones_arrive (e : Engine) (block : List Sample) :
    milestonesOf (e.arrive block).2 <+: milestonesOf (e.feed block).events :=
  (Intake.events_run e.plan (block.length + 1)
    ⟨(e.arrive block).1.pair, (e.arrive block).1.input, block, [], (e.arrive block).2⟩).filterMap
    Event.milestone?

/-- Two engines in unison are fed alike, as long as neither swaps. -/
theorem Unison.feed (h : e.Unison e') {block : List Sample}
    (noSwap : .swapped ∉ milestonesOf (e.feed block).events)
    (noSwap' : .swapped ∉ milestonesOf (e'.feed block).events) :
    (e.feed block).engine.Unison (e'.feed block).engine
      ∧ (e'.feed block).output = (e.feed block).output
      ∧ (e'.feed block).outcome = (e.feed block).outcome := by
  obtain ⟨p, r, r', hplan, hplan'⟩ := h.plan
  -- only the arrival can swap, and what it reports is among what the call reports
  have harrived : (e.arrive block).1.pair.Unison (e'.arrive block).1.pair :=
    h.pair.across
      (e.unison_arrive block fun hmem => noSwap ((e.milestones_arrive block).subset hmem))
      (e'.unison_arrive block fun hmem => noSwap' ((e'.milestones_arrive block).subset hmem))
  have hparallel := ChainPair.unison_parallel p r r'
  rw [← hplan, ← hplan'] at hparallel
  obtain ⟨hpair, hinput, houtput, houtcome⟩ := hparallel.feed h.input harrived
  exact ⟨⟨⟨p, r, r', (Holds.feed_plan e block).trans hplan,
    (Holds.feed_plan e' block).trans hplan'⟩, hpair, hinput⟩, houtput, houtcome⟩

end Engine

/-! ## Calls -/

/-- Calls that differ at most in what the activity source answers. -/
inductive Operation.Alike {S : Type} : Operation S → Operation S → Prop
  | fed (activity activity' : Nat → Float32) (block : List S) :
    Alike (.feed activity block) (.feed activity' block)
  | same (op : Operation S) : Alike op op

/-- A call that swapped the chains. -/
def Performed.Swaps {State S : Type} (done : Performed State S) : Prop :=
  .swapped ∈ milestonesOf done.events

instance {State S : Type} (done : Performed State S) : Decidable done.Swaps :=
  inferInstanceAs (Decidable (_ ∈ milestonesOf done.events))

/-- What a call returned, and the active chain it left. -/
def Performed.heard {State S : Type} (engine : State → Engine) (done : Performed State S) :
    Reply S × Chain :=
  (done.reply, (engine done.state).pair.active)

section Calls

variable {S : Type} [SampleKind S]

namespace Engine

variable {e e' : Engine}

/-- A change of the rate is accepted or refused whatever the rules of retraining are. -/
theorem setRate_under {p : Plan} {r : RetrainRules} (hplan : e.plan = p.under r) (rate : Float32) :
    e.setRate rate = match Plan.ofRate? p.numerics p.settings rate with
      | none => .error (.sampleRate rate)
      | some q => .ok ⟨((idle (q.under r) e.activity e.carrier).setHold e.pair.held).engine,
          [.rateChanged rate q.geometry.wideband]⟩ := by
  have hmade : Plan.ofRate? e.plan.numerics e.plan.settings rate
      = (Plan.ofRate? p.numerics p.settings rate).map (·.under r) := by
    rw [hplan]
    exact Plan.ofRate?_under p.numerics p.settings r rate
  rw [setRate, hmade]
  cases Plan.ofRate? p.numerics p.settings rate <;> rfl

theorem Unison.reset (h : e.Unison e') : e.reset.Unison e'.reset := by
  obtain ⟨p, r, r', hplan, hplan'⟩ := h.plan
  refine ⟨⟨p, r, r', hplan, hplan'⟩, ⟨?_, h.pair.held, rfl⟩, rfl⟩
  show Chain.fresh e'.plan = Chain.fresh e.plan
  rw [hplan, hplan']
  rfl

theorem Unison.perform_setRate (h : e.Unison e') (rate : Float32) :
    (e.perform (.setRate rate : Operation S)).state.Unison
        (e'.perform (.setRate rate : Operation S)).state
      ∧ (e'.perform (.setRate rate : Operation S)).reply
        = (e.perform (.setRate rate : Operation S)).reply := by
  obtain ⟨p, r, r', hplan, hplan'⟩ := h.plan
  simp only [perform, setRate_under hplan, setRate_under hplan']
  cases Plan.ofRate? p.numerics p.settings rate with
  | none => exact ⟨h, rfl⟩
  | some q => exact ⟨⟨⟨q, r, r', rfl, rfl⟩, ⟨rfl, h.pair.held, rfl⟩, rfl⟩, rfl⟩

theorem Unison.perform_feed (h : e.Unison e') {activity activity' : Nat → Float32}
    {block : List S}
    (noSwap : ¬(e.perform (.feed activity block)).Swaps)
    (noSwap' : ¬(e'.perform (.feed activity' block)).Swaps) :
    (e.perform (.feed activity block)).state.Unison (e'.perform (.feed activity' block)).state
      ∧ (e'.perform (.feed activity' block)).reply = (e.perform (.feed activity block)).reply := by
  have hstart : ({ e with activity := activity } : Engine).Unison
      { e' with activity := activity' } := ⟨h.plan, h.pair, h.input⟩
  obtain ⟨hfed, houtput, houtcome⟩ := hstart.feed noSwap noSwap'
  refine ⟨hfed, ?_⟩
  simp only [perform, process, houtput, houtcome]

/-- A call that swaps on neither side. -/
theorem Unison.perform (h : e.Unison e') {op op' : Operation S} (alike : op.Alike op')
    (noSwap : ¬(e.perform op).Swaps) (noSwap' : ¬(e'.perform op').Swaps) :
    (e.perform op).state.Unison (e'.perform op').state
      ∧ (e'.perform op').heard id = (e.perform op).heard id := by
  have hdone : (e.perform op).state.Unison (e'.perform op').state
      ∧ (e'.perform op').reply = (e.perform op).reply := by
    cases alike with
    | fed activity activity' block => exact h.perform_feed noSwap noSwap'
    | same =>
      cases op with
      | feed activity block => exact h.perform_feed noSwap noSwap'
      | setHold held => exact ⟨⟨h.plan, ⟨h.pair.active, rfl, h.pair.trained⟩, h.input⟩, rfl⟩
      | reset => exact ⟨h.reset, rfl⟩
      | retune carrier =>
        have hset : ({ e with carrier := carrier } : Engine).Unison { e' with carrier := carrier } :=
          ⟨h.plan, h.pair, h.input⟩
        exact ⟨hset.reset, rfl⟩
      | setRate rate => exact h.perform_setRate rate
  exact ⟨hdone.1, Prod.ext hdone.2 hdone.1.pair.active⟩

/-- So does a series of calls, up to the first that swaps on either side. -/
theorem Unison.series {ops ops' : List (Operation S)} (h : e.Unison e')
    (alike : List.Forall₂ Operation.Alike ops ops') (n : Nat)
    (noSwap : ∀ done ∈ (Denoise.series Engine.perform e ops).take n, ¬done.Swaps)
    (noSwap' : ∀ done ∈ (Denoise.series Engine.perform e' ops').take n, ¬done.Swaps) :
    ((Denoise.series Engine.perform e' ops').take n).map (Performed.heard id)
      = ((Denoise.series Engine.perform e ops).take n).map (Performed.heard id) := by
  induction alike generalizing e e' n with
  | nil => rfl
  | @cons op op' later later' hop hlater ih =>
    cases n with
    | zero => rfl
    | succ n =>
      simp only [Denoise.series, List.take_succ_cons, List.forall_mem_cons] at noSwap noSwap'
      obtain ⟨hdone, hheard⟩ := h.perform hop noSwap.1 noSwap'.1
      simp only [Denoise.series, List.take_succ_cons, List.map_cons]
      rw [hheard, ih hdone n noSwap.2 noSwap'.2]

end Engine

/-! ## The candidate -/

theorem Device.Stands.series_take {k : Kernel} {d : Device} (h : d.Stands k)
    (ops : List (Operation S)) (n : Nat) :
    ((series (Device.perform k) d ops).take n).map Performed.onEngine
      = (series Engine.perform d.engine ops).take n := by
  rw [List.map_take, h.series_eq ops]

/-- Two continuations of one run, under other retrain rules and with other readings of
the channel, return the same and have the same active chain, call by call, until a call
swaps on either side. -/
theorem candidate_unheard {k : Kernel} {d : Device} (reached : d.Reached k) (r r' : RetrainRules)
    {ops ops' : List (Operation S)} (alike : List.Forall₂ Operation.Alike ops ops') {n : Nat}
    (noSwap : ∀ done ∈ (series (Device.perform k) (d.under r) ops).take n, ¬done.Swaps)
    (noSwap' : ∀ done ∈ (series (Device.perform k) (d.under r') ops').take n, ¬done.Swaps) :
    ((series (Device.perform k) (d.under r') ops').take n).map (Performed.heard Device.engine)
      = ((series (Device.perform k) (d.under r) ops).take n).map
          (Performed.heard Device.engine) := by
  have hleft := (reached.stands.under r).series_take ops n
  have hright := (reached.stands.under r').series_take ops' n
  have hunison : (d.under r).engine.Unison (d.under r').engine :=
    ⟨⟨d.engine.plan, r, r', rfl, rfl⟩, .refl _, rfl⟩
  have hheard := hunison.series alike n
  rw [← hleft, ← hright, List.map_map, List.map_map] at hheard
  exact hheard (List.forall_mem_map.2 noSwap) (List.forall_mem_map.2 noSwap')

end Calls

namespace Specimen

/-- Retrain rules for the plan of the specimen. -/
def retrainRules (autoRetrain : Bool) : RetrainRules where
  autoRetrain := autoRetrain
  switchInterval := 1
  silenceThresholdDb := settings.silenceThresholdDb
  activityWindow := settings.activityWindow

/-- What the device does under such rules with a stretch of noise and one sample more. -/
def twoBlocks (autoRetrain : Bool) : List (Performed Device Float32) :=
  series (Device.perform kernel) (device.under (retrainRules autoRetrain))
    [.feed quiet (List.replicate 8 0), .feed quiet [0]]

end Specimen

/-- One side retrains in the second call, and the other does not. -/
theorem candidate_unheard_specimen :
    (Specimen.twoBlocks true).map (milestonesOf ·.events) = [[.trained], [.retrained]]
      ∧ (Specimen.twoBlocks false).map (milestonesOf ·.events) = [[.trained], []]
      ∧ ((Specimen.twoBlocks false).take 2).map (Performed.heard Device.engine)
        = ((Specimen.twoBlocks true).take 2).map (Performed.heard Device.engine) := by
  have noSwap : ∀ done ∈ (Specimen.twoBlocks true).take 2, ¬done.Swaps := by decide +kernel
  have noSwap' : ∀ done ∈ (Specimen.twoBlocks false).take 2, ¬done.Swaps := by decide +kernel
  exact ⟨by decide +kernel, by decide +kernel, candidate_unheard Specimen.device_reached
    (Specimen.retrainRules true) (Specimen.retrainRules false)
    (.cons (.same _) (.cons (.same _) .nil)) noSwap noSwap'⟩

end Denoise
