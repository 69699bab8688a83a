import Denoise.Proofs.Intake

/-!
# A block through an engine

What `Engine.feed` does, without buffer and rounds, in three cases.

* The pair is not trained and the demand is not reached: the block is kept.
* The demand is reached: the active chain is trained on the front of the input,
  and the pair hears every whole frame.
* The pair is trained: it hears every whole frame.

`Engine.arrive` comes before all three.  It is the only place where the retrain
and swap protocol moves.  `Advances` lists its moves, one constructor each, with
the conditions of a move and the pair it leaves (`ChainPair.advance_advances`).
-/

namespace Denoise

/-! ## Milestones -/

/-- The events that mark the progress of the protocol. -/
inductive Milestone where
  /-- The active chain was trained. -/
  | trained
  /-- The candidate was retrained. -/
  | retrained
  /-- The candidate was promoted. -/
  | swapped
deriving DecidableEq, Repr

/-- The milestone an event marks, if any. -/
def Event.milestone? : Event → Option Milestone
  | .trained _ _ _ => some .trained
  | .retrained _ => some .retrained
  | .swapped _ => some .swapped
  | _ => none

/-- The milestones among some events, in order. -/
def milestonesOf (events : List Event) : List Milestone := events.filterMap Event.milestone?

theorem milestonesOf_append (events more : List Event) :
    milestonesOf (events ++ more) = milestonesOf events ++ milestonesOf more :=
  List.filterMap_append

/-! ### Frames mark none -/

/-- A refinement is no milestone, and neither is its warning. -/
theorem milestonesOf_refine (r : ProfileRules) (p : Profile) (magnitudes : List Float32)
    (held : Bool) : milestonesOf (r.refine p magnitudes held).events = [] := by
  simp only [ProfileRules.refine, ProfileRules.refineWideband, ProfileRules.refineAudio]
  repeat' split
  all_goals rfl

/-- No frame retrains, swaps or trains. -/
theorem milestonesOf_process (p : Plan) (frame : List Sample) (c : ChainPair) :
    milestonesOf (c.process p frame).events = [] := by
  simp [ChainPair.process, Chain.step, milestonesOf_append, milestonesOf_refine]

theorem Intake.milestonesOf_hearAll (p : Plan) (i : Intake) :
    milestonesOf (i.hearAll p).events = milestonesOf i.events := by
  have hfold : ∀ (frames : List (List Sample)) (j : Intake),
      milestonesOf (frames.foldl (hear p) j).events = milestonesOf j.events := by
    intro frames
    induction frames with
    | nil => exact fun j => rfl
    | cons frame frames ih =>
      intro j
      rw [List.foldl_cons, ih, hear, milestonesOf_append, milestonesOf_process, List.append_nil]
  exact hfold _ i

/-! ## The moves of the protocol -/

/-- The moves of the protocol over `samples` new samples: the pair before, the pair
after, and the milestones. -/
inductive Advances (p : Plan) (range : Float32) (trailing : Trailing Sample) (samples : Nat)
    (c : ChainPair) : ChainPair → List Milestone → Prop
  /-- Nothing is counted before training. -/
  | untrained :
    c.phase.isTrained = false →
    Advances p range trailing samples c c []
  /-- No retrain is due, or the channel is too busy for one. -/
  | waits (lastBusy : Option Int) :
    c.phase = .steady →
    ¬(p.settings.autoRetrain = true
      ∧ p.settings.switchInterval ≤ ChainPair.count c.sinceTrigger samples
      ∧ p.geometry.demand ≤ trailing.length
      ∧ ChainPair.isBusy p.settings range = false) →
    Advances p range trailing samples c
      { c with sinceTrigger := ChainPair.count c.sinceTrigger samples, lastBusy := lastBusy } []
  /-- The candidate is retrained. -/
  | retrains :
    c.phase = .steady →
    p.settings.autoRetrain = true →
    p.settings.switchInterval ≤ ChainPair.count c.sinceTrigger samples →
    p.geometry.demand ≤ trailing.length →
    ChainPair.isBusy p.settings range = false →
    Advances p range trailing samples c
      { c with
        phase := .swapPending
        candidate := c.candidate.resample p (trailing.recent p.geometry.demand)
        sinceTrigger := 0
        sinceRetrain := 0
        retrains := c.retrains + 1
        lastBusy := none } [.retrained]
  /-- The candidate converges. -/
  | converges :
    c.phase = .swapPending →
    ChainPair.count c.sinceRetrain samples < p.settings.overlapInterval →
    Advances p range trailing samples c
      { c with
        sinceTrigger := ChainPair.count c.sinceTrigger samples
        sinceRetrain := ChainPair.count c.sinceRetrain samples } []
  /-- The candidate is promoted. -/
  | swaps :
    c.phase = .swapPending →
    p.settings.overlapInterval ≤ ChainPair.count c.sinceRetrain samples →
    Advances p range trailing samples c
      { c with
        phase := .steady
        active := c.candidate
        candidate := c.active
        sinceTrigger := 0
        sinceRetrain := 0
        swaps := c.swaps + 1 } [.swapped]

namespace Advances

variable {p : Plan} {range : Float32} {trailing : Trailing Sample} {samples : Nat}
  {c pair : ChainPair} {milestones : List Milestone}

/-! ### What every move keeps -/

theorem held_eq (h : Advances p range trailing samples c pair milestones) :
    pair.held = c.held := by
  cases h <;> rfl

theorem isTrained_eq (h : Advances p range trailing samples c pair milestones) :
    pair.phase.isTrained = c.phase.isTrained := by
  cases h with
  | untrained => rfl
  | waits => rfl
  | retrains hphase => rw [hphase]; rfl
  | converges => rfl
  | swaps hphase => rw [hphase]; rfl

/-- A trained pair is steady or waits for its swap, whatever the move. -/
theorem phase (h : Advances p range trailing samples c pair milestones)
    (hc : c.phase = .steady ∨ c.phase = .swapPending) :
    pair.phase = .steady ∨ pair.phase = .swapPending := by
  cases h with
  | untrained => exact hc
  | waits => exact hc
  | retrains => exact .inr rfl
  | converges => exact hc
  | swaps => exact .inl rfl

/-! ### What a milestone says of the move -/

/-- What a retrain needs: a steady pair, retraining switched on, the interval over, and a
channel that is not busy.  The pair waits for its swap then. -/
theorem of_retrained (h : Advances p range trailing samples c pair milestones)
    (hm : .retrained ∈ milestones) :
    c.phase = .steady
      ∧ p.settings.autoRetrain = true
      ∧ p.settings.switchInterval ≤ ChainPair.count c.sinceTrigger samples
      ∧ ChainPair.isBusy p.settings range = false
      ∧ pair.phase = .swapPending := by
  cases h with
  | untrained => exact absurd hm List.not_mem_nil
  | waits => exact absurd hm List.not_mem_nil
  | retrains hphase hauto hinterval _ hquiet => exact ⟨hphase, hauto, hinterval, hquiet, rfl⟩
  | converges => exact absurd hm List.not_mem_nil
  | swaps => cases List.mem_singleton.1 hm

/-- What a swap needs: a pair that waits for it, and the interval of overlap over.  The
candidate is the active chain then. -/
theorem of_swapped (h : Advances p range trailing samples c pair milestones)
    (hm : .swapped ∈ milestones) :
    c.phase = .swapPending
      ∧ p.settings.overlapInterval ≤ ChainPair.count c.sinceRetrain samples
      ∧ pair.active = c.candidate
      ∧ pair.held = c.held := by
  cases h with
  | untrained => exact absurd hm List.not_mem_nil
  | waits => exact absurd hm List.not_mem_nil
  | retrains => cases List.mem_singleton.1 hm
  | converges => exact absurd hm List.not_mem_nil
  | swaps hphase hoverlap => exact ⟨hphase, hoverlap, rfl, rfl⟩

end Advances

namespace ChainPair

theorem beginTraining_of_trained {c : ChainPair} (h : c.phase.isTrained = true) :
    c.beginTraining = c := by
  rw [beginTraining, if_neg]
  intro hphase
  rw [hphase] at h
  cases h

/-- Every advance is one of the moves. -/
theorem advance_advances (p : Plan) (activity : Nat → Float32) (trailing : Trailing Sample)
    (samples : Nat) {c : ChainPair} (h : c.phase ≠ .retraining) :
    Advances p (activity p.settings.activityWindow) trailing samples c
      (c.advance p activity trailing samples).pair
      (milestonesOf (c.advance p activity trailing samples).events) := by
  obtain ⟨phase, active, candidate, held, sinceTrigger, sinceRetrain, retrains, swaps, lastBusy⟩ := c
  cases phase with
  | uninitialized => exact .untrained rfl
  | training => exact .untrained rfl
  | retraining => exact absurd rfl h
  | steady =>
    simp only [advance, Phase.isTrained, Bool.not_true, Bool.false_eq_true, if_false]
    split
    next due =>
      simp only [Bool.and_eq_true, decide_eq_true_eq] at due
      obtain ⟨⟨hauto, hinterval⟩, hdemand⟩ := due
      split
      next busy =>
        have hwait : ¬(p.settings.autoRetrain = true
            ∧ p.settings.switchInterval ≤ count sinceTrigger samples
            ∧ p.geometry.demand ≤ trailing.length
            ∧ isBusy p.settings (activity p.settings.activityWindow) = false) := by
          simp [busy]
        simp only [defer]
        split
        next => exact .waits lastBusy rfl hwait
        next => exact .waits _ rfl hwait
      next quiet => exact .retrains rfl hauto hinterval hdemand (Bool.eq_false_iff.2 quiet)
    next notDue =>
      simp only [Bool.and_eq_true, decide_eq_true_eq, not_and] at notDue
      refine .waits lastBusy rfl ?_
      rintro ⟨hauto, hinterval, hdemand, -⟩
      exact notDue ⟨hauto, hinterval⟩ hdemand
  | swapPending =>
    simp only [advance, Phase.isTrained, Bool.not_true, Bool.false_eq_true, if_false]
    split
    next due => exact .swaps rfl due
    next notDue => exact .converges rfl (Nat.lt_of_not_le notDue)

end ChainPair

/-! ## Arrival -/

namespace Engine

theorem arrive_nil (e : Engine) : e.arrive [] = (e, []) := rfl

/-- A block that is not empty is queued, and then the protocol makes one move. -/
theorem arrive_of_ne_nil {e : Engine} {block : List Sample} (h : block ≠ []) :
    e.arrive block
      = ({ e with
          pair := (e.pair.beginTraining.advance e.plan e.activity (e.trailing.push block)
            block.length).pair
          trailing := e.trailing.push block },
        (e.pair.beginTraining.advance e.plan e.activity (e.trailing.push block)
          block.length).events) := by
  rw [arrive, if_neg (by simpa using h)]

theorem arrive_plan (e : Engine) (block : List Sample) : (e.arrive block).1.plan = e.plan := by
  rw [arrive]
  split <;> rfl

theorem arrive_input (e : Engine) (block : List Sample) : (e.arrive block).1.input = e.input := by
  rw [arrive]
  split <;> rfl

/-- What has arrived, on its way through the input buffer. -/
def intake (e : Engine) (block : List Sample) : Intake :=
  ⟨(e.arrive block).1.pair, e.input ++ block, [], [], (e.arrive block).2⟩

/-- A block is worked on as if it had entered at once. -/
theorem feed_eq_work {e : Engine} {block : List Sample}
    (waits : e.input.length
      < e.plan.geometry.limit (e.arrive block).1.pair.phase.isTrained) :
    e.feed block
      = { engine := { (e.arrive block).1 with
            pair := ((e.intake block).work e.plan).pair
            input := ((e.intake block).work e.plan).input }
          output := ((e.intake block).work e.plan).output
          outcome := outcomeOf e.plan ((e.intake block).work e.plan)
          events := ((e.intake block).work e.plan).events } := by
  have hrun := Intake.run_eq_settle e.plan (block.length + 1)
    ⟨(e.arrive block).1.pair, (e.arrive block).1.input, block, [], (e.arrive block).2⟩
    (Nat.lt_succ_self _) (by rw [arrive_input]; exact waits)
  have hsettle : Intake.settle e.plan
      ⟨(e.arrive block).1.pair, (e.arrive block).1.input, block, [], (e.arrive block).2⟩
        = (e.intake block).work e.plan := by
    rw [Intake.settle, intake, ← arrive_input e block]
    rfl
  rw [hsettle] at hrun
  simp only [feed, hrun]

end Engine

end Denoise
