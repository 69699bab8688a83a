import Denoise.Proofs.History
import Denoise.Proofs.Line

/-!
# The hold

While the hold is set, a frame adds its magnitudes to the history of both profiles and
leaves everything else of them as it is, whether noise frames are blended in or not
(`Chain.profile_step_held`).  So the floors of the two chains change at the start of a call
only, by the move of the protocol: a retrain makes a new one for the candidate, and a swap
exchanges the two (`ChainPair.Exchanges`).

`hold_freezes_refinement` says this of every call of a run, and of a run without a swap
what it comes to.
-/

namespace Denoise

/-! ## Floors -/

namespace Profile

/-- What the gains and the refinement take from a profile besides its history. -/
structure Floor where
  /-- The noise power of each bin. -/
  power : List Float32
  /-- The least power at the last adoption. -/
  low : Float32
  /-- The greatest power at the last adoption. -/
  high : Float32
  /-- The number of estimates adopted. -/
  generation : Nat
deriving DecidableEq

/-- The floor of a profile. -/
def floor (p : Profile) : Floor := ⟨p.power, p.floorLow, p.floorHigh, p.generation⟩

end Profile

/-- The last so many of some frames. -/
def newestFrames (capacity : Nat) (rows : List (List Float32)) : List (List Float32) :=
  rows.drop (rows.length - capacity)

theorem newestFrames_append (capacity : Nat) (rows more : List (List Float32)) :
    newestFrames capacity (newestFrames capacity rows ++ more)
      = newestFrames capacity (rows ++ more) :=
  Trailing.drop_drop_append

namespace ChainPair

/-- The floors of the active chain and of the candidate. -/
def floors (c : ChainPair) : Profile.Floor × Profile.Floor :=
  (c.active.profile.floor, c.candidate.profile.floor)

/-- What a move of the protocol does to the profiles, with the milestone it marks.
`stretch` is what the candidate would be sampled from. -/
inductive Exchanges (p : Plan) (stretch : List Sample) (before after : ChainPair) :
    List Milestone → Prop
  /-- Nothing. -/
  | none :
    after.active.profile = before.active.profile →
    after.candidate.profile = before.candidate.profile →
    Exchanges p stretch before after []
  /-- The candidate is sampled anew. -/
  | resampled :
    after.active.profile = before.active.profile →
    after.candidate.profile = p.sampleProfile stretch before.candidate.profile →
    after.candidate.profile.generation = before.candidate.profile.generation + 1 →
    Exchanges p stretch before after [.retrained]
  /-- The two are exchanged. -/
  | swapped :
    after.active.profile = before.candidate.profile →
    after.candidate.profile = before.active.profile →
    Exchanges p stretch before after [.swapped]

theorem Exchanges.active_eq {p : Plan} {stretch : List Sample} {before after : ChainPair}
    {milestones : List Milestone} (h : Exchanges p stretch before after milestones)
    (noSwap : .swapped ∉ milestones) : after.active.profile = before.active.profile := by
  cases h with
  | none hactive => exact hactive
  | resampled hactive => exact hactive
  | swapped => exact absurd (List.mem_singleton_self _) noSwap

theorem Exchanges.generation_of_retrained {p : Plan} {stretch : List Sample}
    {before after : ChainPair} {milestones : List Milestone}
    (h : Exchanges p stretch before after milestones) (hm : milestones = [.retrained]) :
    after.candidate.profile.generation = before.candidate.profile.generation + 1 := by
  cases h with
  | none => cases hm
  | resampled _ _ hgeneration => exact hgeneration
  | swapped => cases hm

end ChainPair

/-- Every move of the protocol is one of these. -/
theorem Advances.exchanges {p : Plan} {range : Float32} {trailing : Trailing Sample} {samples : Nat}
    {c pair : ChainPair} {milestones : List Milestone}
    (h : Advances p range trailing samples c pair milestones) :
    ChainPair.Exchanges p (trailing.recent p.geometry.demand) c pair milestones := by
  cases h with
  | untrained => exact .none rfl rfl
  | waits => exact .none rfl rfl
  | retrains => exact .resampled rfl rfl rfl
  | converges => exact .none rfl rfl
  | swaps => exact .swapped rfl rfl

/-! ## Frames under the hold -/

namespace Chain

/-- The frame is recorded, and that is all. -/
theorem profile_step_held (p : Plan) (spectrum : List Sample) (c : Chain) :
    (c.step p true spectrum).chain.profile = c.profile.record (spectrum.map Phasor.norm) := by
  simp only [step, ProfileRules.refine, if_true]
  split <;> rfl

theorem floor_along_held (p : Plan) (frames : List (List Sample)) (c : Chain) :
    (c.along p true frames).profile.floor = c.profile.floor := by
  induction frames generalizing c with
  | nil => rfl
  | cons frame frames ih =>
    rw [along_cons, ih, profile_step_held]
    rfl

end Chain

theorem ChainPair.floors_along {p : Plan} {c : ChainPair} (held : c.held = true)
    (frames : List (List Sample)) : (c.along p frames).floors = c.floors := by
  simp only [floors, along, held, Chain.floor_along_held]

/-! ## The course of a chain -/

/-- The profile of a chain comes from the deeds of a past. -/
def Chain.Courses (p : Plan) (past : List ProfileRules.Deed) (c : Chain) : Prop :=
  p.rules.Course past c.profile

namespace Chain.Courses

open ProfileRules

variable {p : Plan} {past : List Deed} {c : Chain}

/-- A step refines the profile by the magnitudes of its frame. -/
theorem step (h : c.Courses p past) (held : Bool) (spectrum : List Sample) :
    ∃ past', (c.step p held spectrum).chain.Courses p past'
      ∧ framesSince past' = framesSince past ++ [spectrum.map Phasor.norm] := by
  simp only [Chain.step, Courses]
  have hrefined := Course.refine (spectrum.map Phasor.norm) held h
  split
  · exact ⟨_, hrefined, framesSince_refine ..⟩
  · exact ⟨_, hrefined.track _ _, (framesSince_track _).trans (framesSince_refine ..)⟩

theorem along (h : c.Courses p past) (held : Bool) (frames : List (List Sample)) :
    ∃ past', (c.along p held frames).Courses p past'
      ∧ framesSince past' = framesSince past ++ frames.map p.magnitudes := by
  induction frames generalizing c past with
  | nil => exact ⟨past, h, (List.append_nil _).symm⟩
  | cons frame frames ih =>
    obtain ⟨past', hstep, hframe⟩ := h.step held (p.spectrum frame)
    obtain ⟨past'', halong, hframes⟩ := ih hstep
    refine ⟨past'', halong, ?_⟩
    rw [hframes, hframe, List.append_assoc]
    rfl

/-- Its history is the newest of what it was and of the frames. -/
theorem history_along (h : c.Courses p past) (held : Bool) (frames : List (List Sample)) :
    (c.along p held frames).profile.history
      = newestFrames c.profile.capacity (c.profile.history ++ frames.map p.magnitudes) := by
  obtain ⟨past', halong, hframes⟩ := h.along held frames
  have hcapacity : (c.along p held frames).profile.capacity = c.profile.capacity :=
    halong.told.capacity.trans h.told.capacity.symm
  rw [halong.told.history, hcapacity, hframes, h.told.history]
  exact (newestFrames_append _ _ _).symm

end Chain.Courses

/-- So for both chains of a pair. -/
structure ChainPair.Courses (p : Plan) (c : ChainPair) : Prop where
  active : ∃ past, c.active.Courses p past
  candidate : ∃ past, c.candidate.Courses p past

namespace ChainPair.Courses

open ProfileRules

variable {p : Plan} {c : ChainPair}

theorem along (h : c.Courses p) (frames : List (List Sample)) : (c.along p frames).Courses p := by
  obtain ⟨⟨_, hactive⟩, ⟨_, hcandidate⟩⟩ := h
  obtain ⟨past, hheard, -⟩ := hactive.along c.held frames
  obtain ⟨past', hunheard, -⟩ := hcandidate.along c.held frames
  exact ⟨⟨past, hheard⟩, ⟨past', hunheard⟩⟩

theorem advances {range : Float32} {trailing : Trailing Sample} {samples : Nat} {pair : ChainPair}
    {milestones : List Milestone} (h : c.Courses p)
    (hmove : Advances p range trailing samples c pair milestones) : pair.Courses p := by
  cases hmove with
  | untrained => exact h
  | waits => exact ⟨h.active, h.candidate⟩
  | retrains =>
    obtain ⟨past, hcandidate⟩ := h.candidate
    exact ⟨h.active, _, Course.sample _ _ hcandidate⟩
  | converges => exact ⟨h.active, h.candidate⟩
  | swaps => exact ⟨h.candidate, h.active⟩

end ChainPair.Courses

theorem Feeds.courses {e : Engine} {samples block output : List Sample} {pair : ChainPair}
    {milestones : List Milestone} (h : Feeds e samples block pair output milestones)
    (he : e.pair.Courses e.plan) : pair.Courses e.plan := by
  cases h with
  | idles => exact he
  | gathers => exact ⟨he.active, he.candidate⟩
  | trains _ _ htrained =>
    obtain ⟨past, hactive⟩ := he.active
    subst htrained
    have trained : (e.pair.active.train e.plan
        ((samples ++ block).take e.plan.geometry.demand)).Courses e.plan (.sample :: past) :=
      ProfileRules.Course.sample _ _ hactive
    exact ChainPair.Courses.along ⟨⟨_, trained⟩, ⟨_, trained⟩⟩ _
  | advances _ _ hadvances => exact (he.advances hadvances).along _

section Session

variable {S : Type} [SampleKind S]

theorem Session.courses {calls : List (Call S)} {e : Engine} (run : Session calls e) :
    e.pair.Courses e.plan := by
  induction run with
  | created hcreate =>
    obtain ⟨p, _, _, hengine⟩ := Engine.create_eq hcreate
    rw [hengine]
    exact ⟨⟨_, .fresh⟩, ⟨_, .fresh⟩⟩
  | @fed calls e activity block earlier ih =>
    have hplan : (Call.fed ⟨e, activity, block⟩).engine.plan = e.plan := Call.fed_plan _
    rw [hplan]
    exact (Call.feeds (c := ⟨e, activity, block⟩) earlier.holds).courses ih
  | reset => exact ⟨⟨_, .fresh⟩, ⟨_, .fresh⟩⟩
  | retuned => exact ⟨⟨_, .fresh⟩, ⟨_, .fresh⟩⟩
  | rateChanged _ hset =>
    obtain ⟨p, _, hengine⟩ := Engine.setRate_eq hset
    rw [hengine]
    exact ⟨⟨_, .fresh⟩, ⟨_, .fresh⟩⟩
  | rateRefused _ _ ih => exact ih
  | holdSet _ _ ih => exact ⟨ih.active, ih.candidate⟩

/-! ## Calls under the hold -/

/-- A row of calls goes on with a session. -/
theorem InRow.continues {sources : Set (Nat → Float32)} {calls more : List (Call S)}
    {e e' : Engine} (row : InRow sources e more e') (run : Session calls e) :
    Session (calls ++ more) e' := by
  induction row with
  | none => rwa [List.append_nil]
  | call block _ _ ih =>
    rw [← List.append_assoc]
    exact .fed _ block ih

/-- Before each call of a row there is the row of the calls before it. -/
theorem InRow.before {sources : Set (Nat → Float32)} {front back : List (Call S)} {c : Call S}
    {e e' : Engine} (row : InRow sources e (front ++ c :: back) e') :
    InRow sources e front c.before := by
  generalize hcalls : front ++ c :: back = calls at row
  induction row generalizing back with
  | none => simp at hcalls
  | @call calls e'' activity block earlier _ ih =>
    rcases List.eq_nil_or_concat back with rfl | ⟨back, d, rfl⟩
    · obtain ⟨rfl, hlast⟩ := List.append_inj' hcalls rfl
      obtain rfl := List.singleton_inj.1 hlast
      exact earlier
    · rw [List.concat_eq_append, ← List.cons_append, ← List.append_assoc] at hcalls
      exact ih (List.append_inj' hcalls rfl).1

/-- A call on a trained engine moves the protocol, and then the chains go along the frames
that have become whole. -/
theorem Call.moved {c : Call S} {samples : List Sample} (h : c.before.Holds samples)
    (trained : c.before.pair.phase.isTrained = true) :
    let g := c.before.plan.geometry
    let moved := (c.start.arrive c.samples).1.pair
    c.fed.engine.pair
        = moved.along c.before.plan (Batch.frames g (Batch.rest g samples ++ c.samples))
      ∧ moved.held = c.before.pair.held
      ∧ ChainPair.Exchanges c.before.plan ((c.before.trailing.push c.samples).recent g.demand)
        c.before.pair moved c.milestones := by
  intro g moved
  have holds : c.start.Holds samples := start_holds h
  have long : c.start.plan.geometry.demand ≤ samples.length :=
    of_decide_eq_true (h.isTrained.symm.trans trained)
  have hinput := holds.intake_input c.samples
  rw [if_neg (Nat.not_lt_of_le long)] at hinput
  have harrived := holds.arrive_isTrained c.samples
  have hfed : c.fed.engine.pair = ((c.start.intake c.samples).work c.start.plan).pair :=
    congrArg (fun fed : Fed Sample => fed.engine.pair) (holds.feed_eq c.samples)
  have hmarks : c.milestones
      = milestonesOf ((c.start.intake c.samples).work c.start.plan).events :=
    congrArg (fun fed : Fed Sample => milestonesOf fed.events) (holds.feed_eq c.samples)
  rw [Intake.work_of_trained (harrived.trans (decide_eq_true long))] at hfed hmarks
  rw [Intake.hearAll_pair, hinput] at hfed
  rw [Intake.milestonesOf_hearAll] at hmarks
  refine ⟨hfed, ?_⟩
  rw [hmarks]
  by_cases hblock : c.samples = []
  · have hmoved : moved = c.before.pair := by
      simp only [moved, hblock, Engine.arrive_nil]
      rfl
    have hnone : milestonesOf (c.start.intake c.samples).events = [] := by
      rw [Engine.intake, hblock, Engine.arrive_nil]
      rfl
    rw [hnone, hmoved]
    exact ⟨rfl, .none rfl rfl⟩
  · have hadvances := holds.arrive_advances long hblock
    exact ⟨hadvances.held_eq, hadvances.exchanges⟩

/-- Under the hold a call that does not swap keeps the active floor, and the active profile
records every frame. -/
theorem Call.active_profile {c : Call S} {calls : List (Call S)} (run : Session calls c.before)
    (trained : c.before.pair.phase.isTrained = true) (held : c.before.pair.held = true)
    (noSwap : .swapped ∉ c.milestones) :
    let g := c.before.plan.geometry
    let profile := c.before.pair.active.profile
    c.fed.engine.pair.active.profile.floor = profile.floor
      ∧ c.fed.engine.pair.active.profile.history = newestFrames profile.capacity (profile.history
        ++ (Batch.frames g (Batch.rest g (fedSamples calls) ++ c.samples)).map
          c.before.plan.magnitudes) := by
  intro g profile
  obtain ⟨hpair, hkept, hexchanges⟩ := moved run.holds trained
  have hactive := hexchanges.active_eq noSwap
  obtain ⟨past, courses⟩ := run.courses.active
  generalize (c.start.arrive c.samples).1.pair = moved at hpair hkept hactive
  have hmoved : moved.active.Courses c.before.plan past := by rwa [Chain.Courses, hactive]
  rw [hpair, ChainPair.along, hkept, held, Chain.floor_along_held, hmoved.history_along, hactive]
  exact ⟨rfl, rfl⟩

end Session

/-- The frames that come with a stretch in two parts. -/
theorem Batch.frames_rest_append (g : Geometry) (samples more block : List Sample) :
    frames g (rest g samples ++ (more ++ block))
      = frames g (rest g samples ++ more) ++ frames g (rest g (samples ++ more) ++ block) := by
  rw [← List.append_assoc, frames_append, ← rest_append]

section Session

variable {S : Type} [SampleKind S]

namespace InRow

variable {sources : Set (Nat → Float32)} {calls more : List (Call S)} {e e' : Engine}

/-- The hold stays, and so does the training. -/
theorem holding (row : InRow sources e more e') (run : Session calls e)
    (trained : e.pair.phase.isTrained = true) (held : e.pair.held = true) :
    e'.pair.phase.isTrained = true ∧ e'.pair.held = true := by
  have long : e.plan.geometry.demand ≤ (fedSamples calls).length :=
    of_decide_eq_true (run.holds.isTrained.symm.trans trained)
  induction row with
  | none => exact ⟨trained, held⟩
  | @call more e' activity block earlier heard ih =>
    obtain ⟨htrained, hheld⟩ := ih
    obtain ⟨hpair, hkept, -⟩ :=
      Call.moved (c := ⟨e', activity, block⟩) (earlier.continues run).holds htrained
    have row := earlier.call block heard
    refine ⟨?_, ?_⟩
    · rw [(row.continues run).holds.isTrained, row.plan_eq, fedSamples_append, List.length_append]
      exact decide_eq_true (Nat.le_trans long (Nat.le_add_right _ _))
    · rw [hpair]
      exact hkept.trans hheld

/-- The room for history is that of the plan. -/
theorem capacity_eq (row : InRow sources e more e') (run : Session calls e) :
    e'.pair.active.profile.capacity = e.pair.active.profile.capacity := by
  obtain ⟨past, before⟩ := run.courses.active
  obtain ⟨past', after⟩ := (row.continues run).courses.active
  rw [after.told.capacity, before.told.capacity, row.plan_eq]

/-- Over a row of calls under a hold the floor stays, and the history has the newest of
what it was and of the frames. -/
theorem active_profile (row : InRow sources e more e') (run : Session calls e)
    (trained : e.pair.phase.isTrained = true) (held : e.pair.held = true)
    (noSwap : ∀ c ∈ more, .swapped ∉ c.milestones) :
    e'.pair.active.profile.floor = e.pair.active.profile.floor
      ∧ e'.pair.active.profile.history
        = newestFrames e.pair.active.profile.capacity (e.pair.active.profile.history
          ++ (Batch.frames e.plan.geometry
            (Batch.rest e.plan.geometry (fedSamples calls) ++ fedSamples more)).map
            e.plan.magnitudes) := by
  induction row with
  | none =>
    obtain ⟨past, courses⟩ := run.courses.active
    have hframes := Batch.frames_rest_append_nil e.plan.geometry (fedSamples calls)
    rw [show fedSamples ([] : List (Call S)) = [] from rfl, hframes]
    exact ⟨rfl, courses.history_along true []⟩
  | @call more e' activity block earlier _ ih =>
    obtain ⟨hfloor, hhistory⟩ := ih fun c hc => noSwap c (List.mem_append_left _ hc)
    obtain ⟨htrained, hheld⟩ := earlier.holding run trained held
    obtain ⟨hkept, hrecorded⟩ := Call.active_profile (c := ⟨e', activity, block⟩)
      (earlier.continues run) htrained hheld
      (noSwap _ (List.mem_append_right _ (List.mem_singleton_self _)))
    rw [hkept, hrecorded]
    simp only [hfloor, hhistory, earlier.capacity_eq run, earlier.plan_eq, newestFrames_append,
      fedSamples_append calls, fedSamples_concat, Batch.frames_rest_append, List.map_append,
      List.append_assoc, and_self]

end InRow

/-- A trained engine whose hold is set, fed any blocks.  In each call the profiles of the two
chains move as the protocol says, and no frame of the call changes the floor of either.  If
no call swaps, the active floor at the end is the one at the start, and the active history
is the newest of what it was and of all frames since. -/
theorem hold_freezes_refinement {sources : Set (Nat → Float32)} {calls more : List (Call S)}
    {e e' : Engine} (run : Session calls e) (trained : e.pair.phase.isTrained = true)
    (held : e.pair.held = true) (row : InRow sources e more e') :
    let p := e.plan
    let g := p.geometry
    let profile := e.pair.active.profile
    (∀ front c back, more = front ++ c :: back →
      let moved := (c.start.arrive c.samples).1.pair
      let stretch := (c.before.trailing.push c.samples).recent g.demand
      let frames := Batch.frames g (Batch.rest g (fedSamples (calls ++ front)) ++ c.samples)
      ChainPair.Exchanges p stretch c.before.pair moved c.milestones
        ∧ c.fed.engine.pair = moved.along p frames
        ∧ c.fed.engine.pair.floors = moved.floors
        ∧ ∀ earlier frame later, frames = earlier ++ frame :: later →
          ((moved.along p earlier).process p frame).pair.floors = (moved.along p earlier).floors)
      ∧ ((∀ c ∈ more, .swapped ∉ c.milestones) →
        e'.pair.active.profile.floor = profile.floor
          ∧ e'.pair.active.profile.history = newestFrames profile.capacity (profile.history
            ++ (Batch.frames g (Batch.rest g (fedSamples calls) ++ fedSamples more)).map
              p.magnitudes)) := by
  intro p g profile
  refine ⟨?_, row.active_profile run trained held⟩
  rintro front c back rfl
  have earlier := row.before
  obtain ⟨htrained, hheld⟩ := earlier.holding run trained held
  have hplan : c.before.plan = p := earlier.plan_eq
  obtain ⟨hpair, hkept, hexchanges⟩ := Call.moved (earlier.continues run).holds htrained
  rw [hplan] at hpair hexchanges
  have hmoved : (c.start.arrive c.samples).1.pair.held = true := hkept.trans hheld
  intro moved stretch frames
  refine ⟨hexchanges, hpair, ?_, fun before frame _ _ => ?_⟩
  · rw [hpair]
    exact ChainPair.floors_along hmoved _
  · exact ChainPair.floors_along (c := moved.along p before) hmoved [frame]

end Session

namespace Specimen

/-- Noise frames are blended in where they may be. -/
def tracking : Settings := { settings with vadNoiseTracking := true }

/-- An engine that has not been fed yet, with its hold set. -/
def idleHeld : Engine :=
  ((Engine.idle { plan with settings := tracking } quiet 0).setHold true).engine

/-- The call that trains it. -/
def trainingHeld : Call Float32 := ⟨idleHeld, quiet, List.replicate 8 0⟩

/-- Three more samples, which retrain the candidate and make another frame whole. -/
def loud : Call Float32 := ⟨trainingHeld.fed.engine, quiet, [5, -7, 9]⟩

theorem session_held : Session [trainingHeld] loud.before := by
  have valid : tracking.violation? = none := by decide +kernel
  have hgeometry : Geometry.ofRate? 200 tracking = some geometry := by decide +kernel
  have hcreate : Engine.create .machine 200 tracking quiet = .ok
      ⟨.idle { plan with settings := tracking } quiet 0, [.started 200 4 2 8]⟩ := by
    simp only [Engine.create, valid, Plan.ofRate?, hgeometry, Option.map_some]
    rfl
  exact .fed quiet (List.replicate 8 0) (.holdSet true (.created hcreate))

end Specimen

/-- A loud frame while the candidate is retrained. -/
theorem hold_freezes_refinement_specimen :
    let before := Specimen.loud.before.pair
    let after := Specimen.loud.fed.engine.pair
    Specimen.loud.milestones = [.retrained]
      ∧ before.held = true
      ∧ after.active.profile.floor = before.active.profile.floor
      ∧ after.candidate.profile.generation = before.candidate.profile.generation + 1 := by
  intro before after
  have trained : before.phase.isTrained = true := by decide +kernel
  have held : before.held = true := by decide +kernel
  have hmarks : Specimen.loud.milestones = [.retrained] := by decide +kernel
  have quiet : Specimen.quiet ∈ Set.univ := trivial
  have row : InRow Set.univ Specimen.loud.before ([] ++ [Specimen.loud])
      Specimen.loud.fed.engine := .call _ .none quiet
  obtain ⟨hcalls, hrun⟩ := hold_freezes_refinement Specimen.session_held trained held row
  obtain ⟨hexchanges, -, hfloors, -⟩ := hcalls [] Specimen.loud [] rfl
  have noSwap : ∀ c ∈ [Specimen.loud], .swapped ∉ c.milestones := by
    intro c hc
    rw [List.mem_singleton.1 hc, hmarks]
    decide
  have hgeneration : after.candidate.profile.floor.generation
      = (Specimen.loud.start.arrive Specimen.loud.samples).1.pair.candidate.profile.generation :=
    congrArg (fun floors : Profile.Floor × Profile.Floor => floors.2.generation) hfloors
  refine ⟨hmarks, held, (hrun noSwap).1, hgeneration.trans ?_⟩
  exact hexchanges.generation_of_retrained hmarks

end Denoise
