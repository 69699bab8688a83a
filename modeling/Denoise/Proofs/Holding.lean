import Denoise.Proofs.Feeding
import Denoise.Proofs.Sizes
import Denoise.Proofs.Trailing

/-!
# An engine and its stretch

`Engine.Holds samples e` is what ties an engine to the stretch `samples` that it
was fed since its adaptive state was discarded.  The phase, the input buffer and
the trailing queue are functions of the stretch, up to the moves of the protocol,
and every vector has its size.

`Feeds` lists what a block does to such an engine, one constructor for each case
(`Engine.Holds.feeds`).  What it leaves holds the longer stretch
(`Engine.Holds.feed`).  The later modules take a call apart by these cases and
look into nothing below them.
-/

namespace Denoise

/-! ## The invariant -/

/-- What ties an engine to the stretch it was fed since its adaptive state was
discarded. -/
structure Engine.Holds (samples : List Sample) (e : Engine) : Prop where
  /-- The settings break no rule. -/
  valid : e.plan.settings.Valid
  /-- Before any sample the phase is the first. -/
  idle : samples = [] → e.pair.phase = .uninitialized
  /-- Short of the demand it is that of training. -/
  gathering : samples ≠ [] → samples.length < e.plan.geometry.demand → e.pair.phase = .training
  /-- From the demand on the pair is trained. -/
  trained : e.plan.geometry.demand ≤ samples.length →
    e.pair.phase = .steady ∨ e.pair.phase = .swapPending
  /-- Short of the demand both chains are fresh. -/
  fresh : samples.length < e.plan.geometry.demand →
    e.pair.active = .fresh e.plan ∧ e.pair.candidate = .fresh e.plan
  /-- The input is the stretch, and later what its whole frames leave. -/
  input : e.input = if samples.length < e.plan.geometry.demand then samples
    else Batch.rest e.plan.geometry samples
  /-- The trailing queue has the newest samples, as many as the demand. -/
  trailing : e.trailing = ⟨e.plan.geometry.demand,
    samples.drop (samples.length - e.plan.geometry.demand)⟩
  /-- Every vector has its size. -/
  sized : e.pair.Sized e.plan.geometry

namespace Engine.Holds

variable {samples : List Sample} {e : Engine}

/-- An engine is trained exactly when it was fed the demand. -/
theorem isTrained (h : e.Holds samples) :
    e.pair.phase.isTrained = decide (e.plan.geometry.demand ≤ samples.length) := by
  by_cases hdemand : e.plan.geometry.demand ≤ samples.length
  · rw [decide_eq_true hdemand]
    rcases h.trained hdemand with hphase | hphase <;> rw [hphase] <;> rfl
  · rw [decide_eq_false hdemand]
    by_cases hnil : samples = []
    · rw [h.idle hnil]; rfl
    · rw [h.gathering hnil (Nat.lt_of_not_le hdemand)]; rfl

theorem phase_ne_retraining (h : e.Holds samples) : e.pair.phase ≠ .retraining := by
  intro hphase
  by_cases hdemand : e.plan.geometry.demand ≤ samples.length
  · rcases h.trained hdemand with h' | h' <;> rw [h'] at hphase <;> cases hphase
  · by_cases hnil : samples = []
    · rw [h.idle hnil] at hphase; cases hphase
    · rw [h.gathering hnil (Nat.lt_of_not_le hdemand)] at hphase; cases hphase

/-- The phase follows the number of samples. -/
theorem phase_iff (h : e.Holds samples) :
    e.pair.phase ≠ .retraining
      ∧ (e.pair.phase = .uninitialized ↔ samples.length = 0)
      ∧ (e.pair.phase = .training ↔ 0 < samples.length ∧ samples.length < e.plan.geometry.demand)
      ∧ (e.pair.phase = .steady ∨ e.pair.phase = .swapPending
        ↔ e.plan.geometry.demand ≤ samples.length) := by
  have hpos := Nat.lt_trans e.plan.geometry.frameLen_pos e.plan.geometry.frameLen_lt_demand
  refine ⟨h.phase_ne_retraining, ?_⟩
  by_cases hdemand : e.plan.geometry.demand ≤ samples.length
  · rcases h.trained hdemand with hphase | hphase <;> rw [hphase] <;>
      simp only [reduceCtorEq, false_iff, or_true, true_or, true_iff] <;> omega
  · by_cases hnil : samples = []
    · rw [h.idle hnil, hnil, List.length_nil]
      simp only [reduceCtorEq, false_iff, or_self, true_and]
      omega
    · have hlength := List.length_pos_iff.2 hnil
      rw [h.gathering hnil (Nat.lt_of_not_le hdemand)]
      simp only [reduceCtorEq, false_iff, or_self, true_iff]
      omega

/-- Less is buffered than is waited for. -/
theorem waits (h : e.Holds samples) :
    e.input.length < e.plan.geometry.limit (decide (e.plan.geometry.demand ≤ samples.length)) := by
  rw [h.input]
  split
  next short => rwa [decide_eq_false (Nat.not_le_of_lt short)]
  next long =>
    rw [decide_eq_true (Nat.le_of_not_lt long)]
    exact Batch.length_rest_lt _ _

/-- A new engine holds nothing. -/
theorem of_idle {p : Plan} {activity : Nat → Float32} {carrier : Float}
    (valid : p.settings.Valid) : (Engine.idle p activity carrier).Holds [] where
  valid := valid
  idle := fun _ => rfl
  gathering := fun h => absurd rfl h
  trained := fun h => absurd h (Nat.not_le_of_lt (Nat.lt_trans p.geometry.frameLen_pos
    p.geometry.frameLen_lt_demand))
  fresh := fun _ => ⟨rfl, rfl⟩
  input := by simp [Engine.idle, Batch.rest]
  trailing := by
    have := Nat.lt_trans p.geometry.frameLen_pos p.geometry.frameLen_lt_demand
    simp only [Engine.idle, Trailing.empty, List.drop_nil, Trailing.mk.injEq, and_true]
    omega
  sized := ⟨Chain.Sized.fresh p, Chain.Sized.fresh p⟩

/-- A reset leaves an engine that was fed nothing. -/
theorem reset (h : e.Holds samples) : e.reset.Holds [] where
  valid := h.valid
  idle := fun _ => rfl
  gathering := fun hne => absurd rfl hne
  trained := fun hle => absurd hle (Nat.not_le_of_lt (Nat.lt_trans e.plan.geometry.frameLen_pos
    e.plan.geometry.frameLen_lt_demand))
  fresh := fun _ => ⟨rfl, rfl⟩
  input := by simp [Engine.reset, Batch.rest]
  trailing := by simp [Engine.reset, Trailing.clear, h.trailing]
  sized := ⟨Chain.Sized.fresh e.plan, Chain.Sized.fresh e.plan⟩

/-- The hold, the activity source and the carrier are no part of it. -/
theorem with_hold (h : e.Holds samples) (held : Bool) : (e.setHold held).engine.Holds samples :=
  ⟨h.valid, h.idle, h.gathering, h.trained, h.fresh, h.input, h.trailing,
    ⟨h.sized.active, h.sized.candidate⟩⟩

theorem with_activity (h : e.Holds samples) (activity : Nat → Float32) :
    ({ e with activity := activity } : Engine).Holds samples :=
  ⟨h.valid, h.idle, h.gathering, h.trained, h.fresh, h.input, h.trailing, h.sized⟩

theorem with_carrier (h : e.Holds samples) (carrier : Float) :
    ({ e with carrier := carrier } : Engine).Holds samples :=
  ⟨h.valid, h.idle, h.gathering, h.trained, h.fresh, h.input, h.trailing, h.sized⟩

end Engine.Holds

/-! ## What a block does -/

/-- What a block does to an engine that was fed the stretch `samples`: the pair it
leaves, what is put out, and the milestones. -/
inductive Feeds (e : Engine) (samples block : List Sample) :
    ChainPair → List Sample → List Milestone → Prop
  /-- An empty block does nothing. -/
  | idles :
    block = [] →
    Feeds e samples block e.pair [] []
  /-- The demand is not reached. -/
  | gathers :
    block ≠ [] →
    (samples ++ block).length < e.plan.geometry.demand →
    Feeds e samples block { e.pair with phase := .training } [] []
  /-- The demand is reached. -/
  | trains {trained : Chain} :
    samples.length < e.plan.geometry.demand →
    e.plan.geometry.demand ≤ (samples ++ block).length →
    trained = e.pair.active.train e.plan ((samples ++ block).take e.plan.geometry.demand) →
    Feeds e samples block
      (ChainPair.along e.plan (Batch.frames e.plan.geometry (samples ++ block))
        { e.pair with
          phase := .steady
          active := trained
          candidate := trained
          sinceTrigger := 0
          sinceRetrain := 0 })
      (trained.hops e.plan e.pair.held (Batch.frames e.plan.geometry (samples ++ block))).flatten
      [.trained]
  /-- The protocol advances, and the new frames are heard. -/
  | advances {pair : ChainPair} {milestones : List Milestone} :
    e.plan.geometry.demand ≤ samples.length →
    block ≠ [] →
    Advances e.plan (e.activity e.plan.settings.activityWindow) (e.trailing.push block)
      block.length e.pair pair milestones →
    Feeds e samples block
      (pair.along e.plan
        (Batch.frames e.plan.geometry (Batch.rest e.plan.geometry samples ++ block)))
      (pair.active.hops e.plan pair.held
        (Batch.frames e.plan.geometry (Batch.rest e.plan.geometry samples ++ block))).flatten
      milestones

namespace Engine.Holds

variable {samples : List Sample} {e : Engine}

/-- Before training the arrival of a block only begins it. -/
theorem arrive_of_lt (h : e.Holds samples) (short : samples.length < e.plan.geometry.demand)
    {block : List Sample} (hblock : block ≠ []) :
    e.arrive block
      = ({ e with
          pair := { e.pair with phase := .training }
          trailing := e.trailing.push block }, []) := by
  have hbegin : e.pair.beginTraining = { e.pair with phase := .training } := by
    by_cases hnil : samples = []
    · rw [ChainPair.beginTraining, if_pos (h.idle hnil)]
    · have hphase := h.gathering hnil short
      rw [ChainPair.beginTraining, hphase, if_neg (by decide), ← hphase]
  have hadvance : ∀ trailing, (e.pair.beginTraining).advance e.plan e.activity trailing
      block.length = ⟨{ e.pair with phase := .training }, []⟩ := by
    intro trailing
    rw [hbegin]
    rfl
  rw [arrive_of_ne_nil hblock, hadvance]

/-- After training it is a move of the protocol. -/
theorem arrive_advances (h : e.Holds samples) (long : e.plan.geometry.demand ≤ samples.length)
    {block : List Sample} (hblock : block ≠ []) :
    Advances e.plan (e.activity e.plan.settings.activityWindow) (e.trailing.push block)
      block.length e.pair (e.arrive block).1.pair (milestonesOf (e.arrive block).2) := by
  have htrained : e.pair.phase.isTrained = true := by rw [h.isTrained, decide_eq_true long]
  have hadvances := ChainPair.advance_advances e.plan e.activity (e.trailing.push block)
    block.length h.phase_ne_retraining
  rwa [arrive_of_ne_nil hblock, ChainPair.beginTraining_of_trained htrained]

theorem arrive_isTrained (h : e.Holds samples) (block : List Sample) :
    (e.arrive block).1.pair.phase.isTrained
      = decide (e.plan.geometry.demand ≤ samples.length) := by
  by_cases hblock : block = []
  · rw [hblock, arrive_nil, h.isTrained]
  · by_cases long : e.plan.geometry.demand ≤ samples.length
    · rw [(h.arrive_advances long hblock).isTrained_eq, h.isTrained]
    · rw [h.arrive_of_lt (Nat.lt_of_not_le long) hblock, decide_eq_false long]
      rfl

/-- The block has entered, and what there is to do with it is done. -/
theorem feed_eq (h : e.Holds samples) (block : List Sample) :
    e.feed block
      = { engine := { (e.arrive block).1 with
            pair := ((e.intake block).work e.plan).pair
            input := ((e.intake block).work e.plan).input }
          output := ((e.intake block).work e.plan).output
          outcome := outcomeOf e.plan ((e.intake block).work e.plan)
          events := ((e.intake block).work e.plan).events } :=
  feed_eq_work (by rw [h.arrive_isTrained]; exact h.waits)

theorem intake_input (h : e.Holds samples) (block : List Sample) :
    (e.intake block).input = if samples.length < e.plan.geometry.demand then samples ++ block
      else Batch.rest e.plan.geometry samples ++ block := by
  rw [intake, h.input]
  split <;> rfl

/-- The block is done with in one of the ways that `Feeds` lists. -/
theorem feeds (h : e.Holds samples) (block : List Sample) :
    Feeds e samples block (e.feed block).engine.pair (e.feed block).output
      (milestonesOf (e.feed block).events) := by
  have hinput := h.intake_input block
  have htrained := h.arrive_isTrained block
  rw [h.feed_eq]
  by_cases hshort : samples.length < e.plan.geometry.demand
  · rw [if_pos hshort] at hinput
    rw [decide_eq_false (Nat.not_le_of_lt hshort)] at htrained
    by_cases hdemand : (samples ++ block).length < e.plan.geometry.demand
    · rw [Intake.work_of_lt (i := e.intake block) htrained (by rwa [hinput])]
      by_cases hblock : block = []
      · subst hblock
        exact .idles rfl
      · rw [intake, h.arrive_of_lt hshort hblock]
        exact .gathers hblock hdemand
    · have hle := Nat.le_of_not_lt hdemand
      have hblock : block ≠ [] := by
        rintro rfl
        rw [List.append_nil] at hdemand
        exact hdemand hshort
      rw [Intake.work_of_le (by rwa [hinput]), Intake.train_of_le (i := e.intake block) htrained
        (by rwa [hinput])]
      simp only [Intake.hearAll_pair, Intake.hearAll_output, Intake.milestonesOf_hearAll, hinput]
      rw [intake, h.arrive_of_lt hshort hblock]
      exact .trains hshort hle rfl
  · rw [if_neg hshort] at hinput
    have hlong := Nat.le_of_not_lt hshort
    rw [decide_eq_true hlong] at htrained
    rw [Intake.work_of_trained (i := e.intake block) htrained]
    simp only [Intake.hearAll_pair, Intake.hearAll_output, Intake.milestonesOf_hearAll, hinput]
    by_cases hblock : block = []
    · subst hblock
      rw [Batch.frames_rest_append_nil]
      exact .idles rfl
    · exact .advances hlong hblock (h.arrive_advances hlong hblock)

/-- The input after a block. -/
theorem feed_input (h : e.Holds samples) (block : List Sample) :
    (e.feed block).engine.input
      = if (samples ++ block).length < e.plan.geometry.demand then samples ++ block
        else Batch.rest e.plan.geometry (samples ++ block) := by
  have hinput := h.intake_input block
  have htrained := h.arrive_isTrained block
  have hlength : (samples ++ block).length = samples.length + block.length := List.length_append
  rw [h.feed_eq]
  by_cases hshort : samples.length < e.plan.geometry.demand
  · rw [if_pos hshort] at hinput
    rw [decide_eq_false (Nat.not_le_of_lt hshort)] at htrained
    split
    next hdemand =>
      rw [Intake.work_of_lt (i := e.intake block) htrained (by rwa [hinput]), hinput]
    next hdemand =>
      have hle := Nat.le_of_not_lt hdemand
      rw [Intake.work_of_le (by rwa [hinput]), Intake.hearAll_input,
        Intake.train_of_le (i := e.intake block) htrained (by rwa [hinput]), hinput]
  · rw [if_neg hshort] at hinput
    rw [decide_eq_true (Nat.le_of_not_lt hshort)] at htrained
    rw [if_neg (by omega), Intake.work_of_trained (i := e.intake block) htrained,
      Intake.hearAll_input, hinput, ← Batch.rest_append]

theorem feed_plan (e : Engine) (block : List Sample) : (e.feed block).engine.plan = e.plan :=
  arrive_plan e block

/-- The trailing queue takes a block and keeps the newest samples of the longer
stretch. -/
theorem push_trailing (h : e.Holds samples) (block : List Sample) :
    e.trailing.push block = ⟨e.plan.geometry.demand,
      (samples ++ block).drop ((samples ++ block).length - e.plan.geometry.demand)⟩ := by
  have hroom : e.trailing.samples.length ≤ e.trailing.capacity := by
    rw [h.trailing]
    show (samples.drop (samples.length - e.plan.geometry.demand)).length
      ≤ e.plan.geometry.demand
    rw [List.length_drop]
    omega
  have hpush := Trailing.push_samples hroom block
  rw [h.trailing, Trailing.drop_drop_append] at hpush
  rw [h.trailing, ← hpush]
  rfl

/-- Once trained, the queue has enough for a retrain. -/
theorem demand_le_trailing (h : e.Holds samples) (htrained : e.pair.phase.isTrained = true)
    (block : List Sample) : e.plan.geometry.demand ≤ (e.trailing.push block).length := by
  have hle : e.plan.geometry.demand ≤ samples.length :=
    of_decide_eq_true (h.isTrained.symm.trans htrained)
  rw [h.push_trailing block, Trailing.length, List.length_drop, List.length_append]
  omega

/-- The trailing queue has the end of what was fed, as long as the demand. -/
theorem feed_trailing (h : e.Holds samples) (block : List Sample) :
    (e.feed block).engine.trailing = ⟨e.plan.geometry.demand,
      (samples ++ block).drop ((samples ++ block).length - e.plan.geometry.demand)⟩ := by
  by_cases hblock : block = []
  · subst hblock
    rw [List.append_nil]
    exact h.trailing
  · rw [← h.push_trailing block, feed, arrive_of_ne_nil hblock]

end Engine.Holds

/-! ### Every vector keeps its size -/

theorem Advances.sized {p : Plan} {range : Float32} {trailing : Trailing Sample} {samples : Nat}
    {c pair : ChainPair} {milestones : List Milestone}
    (h : Advances p range trailing samples c pair milestones) (hc : c.Sized p.geometry) :
    pair.Sized p.geometry := by
  cases h with
  | untrained => exact hc
  | waits => exact ⟨hc.active, hc.candidate⟩
  | retrains => exact ⟨hc.active, hc.candidate.resample _⟩
  | converges => exact ⟨hc.active, hc.candidate⟩
  | swaps => exact ⟨hc.candidate, hc.active⟩

theorem Feeds.sized {e : Engine} {samples block output : List Sample} {pair : ChainPair}
    {milestones : List Milestone} (h : Feeds e samples block pair output milestones)
    (he : e.pair.Sized e.plan.geometry) : pair.Sized e.plan.geometry := by
  cases h with
  | idles => exact he
  | gathers => exact ⟨he.active, he.candidate⟩
  | trains _ _ htrained =>
    subst htrained
    exact ChainPair.Sized.along ⟨he.active.train _, he.active.train _⟩
      fun frame hframe => Batch.length_of_mem_frames hframe
  | advances _ _ hadvances =>
    exact (hadvances.sized he).along fun frame hframe => Batch.length_of_mem_frames hframe

/-! ### The longer stretch -/

namespace Engine.Holds

variable {samples : List Sample} {e : Engine}

/-- What a block leaves holds of the longer stretch. -/
theorem feed (h : e.Holds samples) (block : List Sample) :
    (e.feed block).engine.Holds (samples ++ block) := by
  have hfeeds := h.feeds block
  have hsized := hfeeds.sized h.sized
  have hinput := h.feed_input block
  have htrailing := h.feed_trailing block
  have hplan := feed_plan e block
  have hlength : (samples ++ block).length = samples.length + block.length := List.length_append
  generalize milestonesOf (e.feed block).events = milestones at hfeeds
  generalize (e.feed block).output = output at hfeeds
  generalize (e.feed block).engine = done at *
  obtain ⟨plan, pair, activity, carrier, input, trailing⟩ := done
  obtain rfl : plan = e.plan := hplan
  refine ⟨h.valid, ?_, ?_, ?_, ?_, hinput, htrailing, hsized⟩
  · intro hnil
    obtain ⟨rfl, rfl⟩ := List.append_eq_nil_iff.1 hnil
    cases hfeeds with
    | idles => exact h.idle rfl
    | gathers hblock => exact absurd rfl hblock
    | trains hlt hle => exact absurd hle (Nat.not_le_of_lt hlt)
    | advances _ hblock => exact absurd rfl hblock
  · intro hne hshort
    cases hfeeds with
    | idles hblock =>
      subst hblock
      rw [List.append_nil] at hne hshort
      exact h.gathering hne hshort
    | gathers => rfl
    | trains _ hle => exact absurd hle (Nat.not_le_of_lt hshort)
    | advances hle => exact absurd hle (by simp only at hshort; omega)
  · intro hle
    cases hfeeds with
    | idles hblock =>
      subst hblock
      rw [List.append_nil] at hle
      exact h.trained hle
    | gathers _ hshort => exact absurd hle (Nat.not_le_of_lt hshort)
    | trains => exact .inl rfl
    | advances hlong _ hadvances => exact hadvances.phase (h.trained hlong)
  · intro hshort
    cases hfeeds with
    | idles => exact h.fresh (by simp only at hshort; omega)
    | gathers => exact h.fresh (by simp only at hshort; omega)
    | trains _ hle => exact absurd hle (Nat.not_le_of_lt hshort)
    | advances hle => exact absurd hle (by simp only at hshort; omega)

end Engine.Holds

end Denoise
