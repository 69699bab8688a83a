import Denoise.Proofs.Device
import Denoise.Proofs.Profile

/-!
# The shape of a chain

Besides the lengths of its vectors, a chain always has room for a frame of history, and
the floor of its prior ratio is that of its plan.  `Chain.Shaped` says all of this.
Training, frames and the protocol keep it, and so it holds of both chains of every device
that was reached by calls (`Device.Reached.shaped`).

Nor does a buffer of such a device hold more than it has room for, since it holds the end
of what was fed (`Device.Reached.holds`).
-/

namespace Denoise

/-! ## Profiles -/

namespace ProfileRules

/-- A refinement does not change how many frames are kept. -/
theorem capacity_refine (r : ProfileRules) (p : Profile) (magnitudes : List Float32) (held : Bool) :
    (r.refine p magnitudes held).profile.capacity = p.capacity := by
  rcases r.refine_cases p magnitudes held with ⟨estimate, hadopted, -⟩ | ⟨degenerate, hkept, -⟩
  · rw [hadopted]
    rfl
  · rw [hkept]
    rfl

/-- Nor does the tracking of the floor. -/
theorem capacity_track (r : ProfileRules) (p : Profile) (likelihood : Float32)
    (power : List Float32) : (r.track p likelihood power).capacity = p.capacity := by
  rw [track]
  split <;> rfl

end ProfileRules

/-! ## Chains -/

/-- Every vector has its size, there is room for a frame of history, and the prior ratio
has its floor. -/
structure Chain.Shaped (p : Plan) (c : Chain) : Prop where
  sized : c.Sized p.geometry
  capacity : 0 < c.profile.capacity
  priorFloor : c.memory.priorFloor = p.numerics.elementary.powerOfDb Gain.priorFloorDb

namespace Chain.Shaped

variable {p : Plan} {c : Chain}

/-- A chain that was built has the shape of its plan. -/
theorem fresh (p : Plan) : (Chain.fresh p).Shaped p :=
  ⟨Sized.fresh p, Nat.lt_of_lt_of_le Nat.zero_lt_one (Nat.le_max_right _ _), rfl⟩

/-- A step over a whole spectrum keeps the shape. -/
theorem step (h : c.Shaped p) {spectrum : List Sample}
    (hspectrum : spectrum.length = p.geometry.fftSize) (held : Bool) :
    (c.step p held spectrum).chain.Shaped p := by
  refine ⟨(h.sized.step hspectrum held).1, ?_, h.priorFloor⟩
  simp only [Chain.step]
  split
  · rw [ProfileRules.capacity_refine]
    exact h.capacity
  · rw [ProfileRules.capacity_track, ProfileRules.capacity_refine]
    exact h.capacity

/-- So does sampling the profile anew, whatever the samples are. -/
theorem resample (h : c.Shaped p) (samples : List Sample) : (c.resample p samples).Shaped p :=
  ⟨h.sized.resample samples, h.capacity, h.priorFloor⟩

theorem train (h : c.Shaped p) (samples : List Sample) : (c.train p samples).Shaped p :=
  ⟨h.sized.train samples, h.capacity, h.priorFloor⟩

end Chain.Shaped

/-! ## The pair -/

/-- Both chains have their shape. -/
structure ChainPair.Shaped (p : Plan) (c : ChainPair) : Prop where
  active : c.active.Shaped p
  candidate : c.candidate.Shaped p

namespace ChainPair.Shaped

variable {p : Plan} {c : ChainPair}

/-- The vectors of both chains have their sizes. -/
theorem sized (h : c.Shaped p) : c.Sized p.geometry := ⟨h.active.sized, h.candidate.sized⟩

theorem beginTraining (h : c.Shaped p) : c.beginTraining.Shaped p := by
  rw [ChainPair.beginTraining]
  split
  · exact ⟨h.active, h.candidate⟩
  · exact h

theorem train (h : c.Shaped p) (samples : List Sample) : (c.train p samples).pair.Shaped p :=
  ⟨h.active.train samples, h.active.train samples⟩

theorem process (h : c.Shaped p) {frame : List Sample}
    (hframe : frame.length = p.geometry.frameLen) : (c.process p frame).pair.Shaped p :=
  ⟨h.active.step (p.length_spectrum hframe) c.held,
    h.candidate.step (p.length_spectrum hframe) c.held⟩

/-- No move of the protocol leaves a chain out of shape.  A swap only exchanges the
two. -/
theorem advance (h : c.Shaped p) (activity : Nat → Float32) (trailing : Trailing Sample)
    (samples : Nat) : (c.advance p activity trailing samples).pair.Shaped p := by
  simp only [ChainPair.advance]
  split
  · exact h
  · cases c.phase with
    | steady =>
      simp only
      split
      · split
        · rw [ChainPair.defer]
          split <;> exact ⟨h.active, h.candidate⟩
        · exact ⟨h.active, h.candidate.resample _⟩
      · exact ⟨h.active, h.candidate⟩
    | swapPending =>
      simp only
      split
      · exact ⟨h.candidate, h.active⟩
      · exact ⟨h.active, h.candidate⟩
    | uninitialized => exact ⟨h.active, h.candidate⟩
    | training => exact ⟨h.active, h.candidate⟩
    | retraining => exact ⟨h.active, h.candidate⟩

end ChainPair.Shaped

/-! ## A block -/

namespace Intake

variable {p : Plan} {i : Intake}

theorem shaped_train (h : i.pair.Shaped p) : (i.train p).pair.Shaped p := by
  rw [Intake.train]
  split
  · exact h.train _
  · exact h

theorem shaped_drain (turns : Nat) (h : i.pair.Shaped p) : (i.drain p turns).pair.Shaped p := by
  induction turns generalizing i with
  | zero => exact h
  | succ turns ih =>
    simp only [Intake.drain]
    split
    next hframe => exact ih (h.process hframe)
    next => exact h

theorem shaped_round (h : i.pair.Shaped p) : (i.round p).pair.Shaped p := by
  have htrained : ((i.enter p).train p).pair.Shaped p := shaped_train h
  simp only [Intake.round]
  split
  · exact shaped_drain _ htrained
  · exact htrained

/-- The whole loop over a block keeps the shape, however many turns it is given. -/
theorem shaped_run (turns : Nat) (h : i.pair.Shaped p) : (i.run p turns).pair.Shaped p := by
  induction turns generalizing i with
  | zero => exact h
  | succ turns ih =>
    simp only [Intake.run]
    split
    · exact shaped_round h
    · exact ih (shaped_round h)

end Intake

/-! ## Calls -/

namespace Engine

variable {e : Engine}

theorem shaped_arrive (h : e.pair.Shaped e.plan) (block : List Sample) :
    (e.arrive block).1.pair.Shaped e.plan := by
  rw [arrive]
  split
  · exact h
  · exact h.beginTraining.advance _ _ _

/-- A block leaves both chains in the shape that the plan asks for. -/
theorem shaped_feed (h : e.pair.Shaped e.plan) (block : List Sample) :
    (e.feed block).engine.pair.Shaped e.plan :=
  Intake.shaped_run _ (shaped_arrive h block)

section Calls

variable {S : Type} [SampleKind S]

/-- So does every other call.  After a change of the rate the shape is that of the new
plan. -/
theorem shaped_perform (h : e.pair.Shaped e.plan) (op : Operation S) :
    (e.perform op).state.pair.Shaped (e.perform op).state.plan := by
  have hfresh := Chain.Shaped.fresh e.plan
  cases op with
  | feed activity block =>
    have hplan := Holds.feed_plan { e with activity := activity } (block.map SampleKind.toPhasor)
    simp only [Engine.perform, process, hplan]
    exact shaped_feed (e := { e with activity := activity }) h _
  | setHold held => exact ⟨h.active, h.candidate⟩
  | reset => exact ⟨hfresh, hfresh⟩
  | retune carrier => exact ⟨hfresh, hfresh⟩
  | setRate rate =>
    rw [Engine.perform]
    cases hset : e.setRate rate with
    | error error => exact h
    | ok changed =>
      obtain ⟨p, -, hengine⟩ := setRate_eq hset
      show changed.engine.pair.Shaped changed.engine.plan
      rw [hengine]
      exact ⟨Chain.Shaped.fresh p, Chain.Shaped.fresh p⟩

/-- After a call an engine holds what was fed since its adaptive state was discarded. -/
theorem Holds.perform {samples : List Sample} (h : e.Holds samples) (op : Operation S) :
    ∃ later, (e.perform op).state.Holds later := by
  cases op with
  | feed activity block => exact ⟨_, (h.with_activity activity).feed _⟩
  | setHold held => exact ⟨_, h.with_hold held⟩
  | reset => exact ⟨_, h.reset⟩
  | retune carrier => exact ⟨_, (h.with_carrier carrier).reset⟩
  | setRate rate =>
    rw [Engine.perform]
    cases hset : e.setRate rate with
    | error error => exact ⟨_, h⟩
    | ok changed =>
      obtain ⟨p, hplan, hengine⟩ := setRate_eq hset
      obtain ⟨-, hsettings, -⟩ := Plan.ofRate?_eq hplan
      have hvalid : p.settings.Valid := hsettings ▸ h.valid
      show ∃ later, changed.engine.Holds later
      rw [hengine]
      exact ⟨_, (Holds.of_idle hvalid).with_hold _⟩

end Calls

end Engine

namespace Device.Reached

variable {k : Kernel} {d : Device}

/-- In every device that was reached by calls both chains have their shape. -/
theorem shaped (h : d.Reached k) : d.engine.pair.Shaped d.engine.plan := by
  induction h with
  | created _ hcreate =>
    obtain ⟨p, -, -, rfl⟩ := create_idle hcreate
    exact ⟨Chain.Shaped.fresh p, Chain.Shaped.fresh p⟩
  | @performed S _ d op hreached ih =>
    have hdone := congrArg Performed.state (hreached.stands.perform_eq op).1
    show (Performed.onEngine (d.perform k op)).state.pair.Shaped
      (Performed.onEngine (d.perform k op)).state.plan
    rw [hdone]
    exact Engine.shaped_perform ih op

/-- Its engine holds some stretch, as the engine of a session does. -/
theorem holds (h : d.Reached k) : ∃ samples, d.engine.Holds samples := by
  induction h with
  | created _ hcreate =>
    obtain ⟨p, hvalid, hplan, rfl⟩ := create_idle hcreate
    obtain ⟨-, hsettings, -⟩ := Plan.ofRate?_eq hplan
    exact ⟨[], .of_idle (hsettings ▸ hvalid)⟩
  | @performed S _ d op hreached ih =>
    obtain ⟨samples, hholds⟩ := ih
    have hdone := congrArg Performed.state (hreached.stands.perform_eq op).1
    show ∃ later, (Performed.onEngine (d.perform k op)).state.Holds later
    rw [hdone]
    exact hholds.perform op

end Device.Reached

end Denoise
