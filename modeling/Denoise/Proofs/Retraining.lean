import Denoise.Proofs.Feeding
import Denoise.Proofs.Shapes

/-!
# Retraining is training

A retrain works on the candidate as it is: it samples the profile anew and resets the memory,
and the gains stay.  Of what the candidate was before, two things are left, the gains until
the next frame and the count of its estimates (`Chain.Native.resample_eq`).  A step does not
read the gains, and it carries the count along (`Chain.step_aged`).  So from the retrain on,
the candidate does what the active chain of a pair does that was made for this and trained
on the same samples (`retrain_is_training`).
-/

namespace Denoise

/-! ## Generations -/

namespace Profile

/-- A profile of which some estimates more are counted. -/
def aged (offset : Nat) (p : Profile) : Profile := { p with generation := p.generation + offset }

/-- Adopting an estimate counts on from where the count is. -/
theorem adopt_aged (offset : Nat) (p : Profile) (estimate : List Float32) :
    (p.aged offset).adopt estimate = (p.adopt estimate).aged offset := by
  rw [aged, adopt, adopt, aged]
  congr 1
  exact Nat.add_right_comm _ _ _

end Profile

/-- A refinement of such a profile. -/
def Refined.aged (offset : Nat) (refined : Refined) : Refined :=
  { refined with profile := refined.profile.aged offset }

namespace ProfileRules

variable (r : ProfileRules) (offset : Nat) (p : Profile)

theorem refineAudio_aged : r.refineAudio (p.aged offset) = (r.refineAudio p).aged offset := by
  simp only [refineAudio, apply_ite (Refined.aged offset), Profile.adopt_aged]
  rfl

/-- A refinement does not read the count. -/
theorem refineWideband_aged :
    r.refineWideband (p.aged offset) = (r.refineWideband p).aged offset := by
  have hhistory : (p.aged offset).history = p.history := rfl
  rw [refineWideband, refineWideband, hhistory]
  cases r.widebandEstimate p.history with
  | some estimate => simp only [Refined.aged, Profile.adopt_aged]
  | none => rfl

/-- Refinement does not ask how many estimates there were. -/
theorem refine_aged (magnitudes : List Float32) (held : Bool) :
    r.refine (p.aged offset) magnitudes held = (r.refine p magnitudes held).aged offset := by
  have hrecord : (p.aged offset).record magnitudes = (p.record magnitudes).aged offset := rfl
  simp only [refine, hrecord, refineAudio_aged, refineWideband_aged,
    apply_ite (Refined.aged offset)]
  rfl

theorem track_aged (likelihood : Float32) (power : List Float32) :
    r.track (p.aged offset) likelihood power = (r.track p likelihood power).aged offset := by
  rw [track, track]
  split <;> rfl

end ProfileRules

/-! ## Chains -/

/-- A chain of whose profile some estimates more are counted. -/
def Chain.aged (offset : Nat) (c : Chain) : Chain := { c with profile := c.profile.aged offset }

/-- A step of such a chain. -/
def Stepped.aged (offset : Nat) (s : Stepped) : Stepped := { s with chain := s.chain.aged offset }

/-- Everything that training does not settle anew is as the plan has it. -/
structure Chain.Native (p : Plan) (c : Chain) : Prop where
  shaped : c.Shaped p
  capacity : c.profile.capacity = p.rules.freshProfile.capacity

namespace Chain

/-- A step does the same whatever the gains and the count of the estimates are, and adds to
the count what it would have added. -/
theorem step_aged (p : Plan) (held : Bool) (spectrum : List Sample) (offset : Nat)
    (gains : List Float32) (c : Chain) :
    ({ c.aged offset with gains := gains } : Chain).step p held spectrum
      = (c.step p held spectrum).aged offset := by
  simp only [step, aged, ProfileRules.refine_aged, Refined.aged, ProfileRules.track_aged]
  split <;> rfl

namespace Native

variable {p : Plan} {c : Chain}

theorem fresh (p : Plan) : (Chain.fresh p).Native p := ⟨.fresh p, rfl⟩

theorem train (h : c.Native p) (samples : List Sample) : (c.train p samples).Native p :=
  ⟨h.shaped.train samples, h.capacity⟩

theorem resample (h : c.Native p) (samples : List Sample) : (c.resample p samples).Native p :=
  ⟨h.shaped.resample samples, h.capacity⟩

/-- A step keeps what a chain was built with. -/
theorem step (h : c.Native p) {frame : List Sample} (hframe : frame.length = p.geometry.frameLen)
    (held : Bool) : (c.step p held (p.spectrum frame)).chain.Native p := by
  refine ⟨h.shaped.step (p.length_spectrum hframe) held, ?_⟩
  simp only [Chain.step]
  split
  · rw [ProfileRules.capacity_refine, h.capacity]
  · rw [ProfileRules.capacity_track, ProfileRules.capacity_refine, h.capacity]

/-- A chain that is resampled is a fresh one that is trained on the same samples, but for
its gains and for the estimates that were counted before. -/
theorem resample_eq (h : c.Native p) (samples : List Sample) :
    c.resample p samples = { ((Chain.fresh p).train p samples).aged c.profile.generation with
      gains := c.gains } := by
  have hmemory : c.memory.reset = (Chain.fresh p).memory.reset := by
    rw [Gain.Memory.reset, Gain.Memory.reset, h.shaped.sized.memory.tail, h.shaped.priorFloor]
    simp only [Chain.fresh, Gain.Memory.fresh, List.length_replicate]
    rfl
  have hprofile : p.sampleProfile samples c.profile
      = (p.sampleProfile samples p.rules.freshProfile).aged c.profile.generation := by
    simp only [Plan.sampleProfile, ProfileRules.sample, Profile.adopt, Profile.aged, h.capacity,
      ProfileRules.freshProfile, Profile.fresh]
    rw [Nat.zero_add, Nat.add_comm]
  rw [Chain.resample, hmemory, hprofile]
  rfl

end Native

end Chain

/-! ## Pairs -/

/-- A retrain has as many samples as it asks for, and concerns the candidate alone. -/
theorem Advances.chains_of_retrained {p : Plan} {range : Float32} {trailing : Trailing Sample}
    {samples : Nat} {c pair : ChainPair} {milestones : List Milestone}
    (h : Advances p range trailing samples c pair milestones) (hm : .retrained ∈ milestones) :
    p.geometry.demand ≤ trailing.length
      ∧ pair.active = c.active
      ∧ pair.candidate = c.candidate.resample p (trailing.recent p.geometry.demand) := by
  cases h with
  | untrained => exact absurd hm List.not_mem_nil
  | waits => exact absurd hm List.not_mem_nil
  | retrains _ _ _ hdemand => exact ⟨hdemand, rfl, rfl⟩
  | converges => exact absurd hm List.not_mem_nil
  | swaps => cases List.mem_singleton.1 hm

namespace ChainPair

/-- What can become of a new pair. -/
inductive Reached (p : Plan) : ChainPair → Prop
  | fresh : Reached p (.fresh p)
  | reset {c : ChainPair} : Reached p c → Reached p (c.reset p)
  | hold {c : ChainPair} (held : Bool) : Reached p c → Reached p { c with held := held }
  | beginTraining {c : ChainPair} : Reached p c → Reached p c.beginTraining
  | train {c : ChainPair} (samples : List Sample) :
    Reached p c → Reached p (c.train p samples).pair
  | advance {c : ChainPair} (activity : Nat → Float32) (trailing : Trailing Sample)
      (samples : Nat) :
    Reached p c → Reached p (c.advance p activity trailing samples).pair
  | process {c : ChainPair} (frame : List Sample) :
    frame.length = p.geometry.frameLen → Reached p c → Reached p (c.process p frame).pair

/-- Both chains are of the plan, and no retrain is under way. -/
structure Native (p : Plan) (c : ChainPair) : Prop where
  active : c.active.Native p
  candidate : c.candidate.Native p
  phase : c.phase ≠ .retraining

namespace Native

variable {p : Plan} {c : ChainPair}

theorem advance (h : c.Native p) (activity : Nat → Float32) (trailing : Trailing Sample)
    (samples : Nat) : (c.advance p activity trailing samples).pair.Native p := by
  have hmove := advance_advances p activity trailing samples h.phase
  generalize c.advance p activity trailing samples = advanced at hmove ⊢
  obtain ⟨pair, events⟩ := advanced
  simp only at hmove ⊢
  generalize milestonesOf events = milestones at hmove
  cases hmove with
  | untrained => exact h
  | waits => exact ⟨h.active, h.candidate, h.phase⟩
  | retrains => exact ⟨h.active, h.candidate.resample _, nofun⟩
  | converges => exact ⟨h.active, h.candidate, h.phase⟩
  | swaps => exact ⟨h.candidate, h.active, nofun⟩

theorem beginTraining (h : c.Native p) : c.beginTraining.Native p := by
  rw [ChainPair.beginTraining]
  split
  · exact ⟨h.active, h.candidate, by rintro ⟨⟩⟩
  · exact h

end Native

variable {p : Plan} {c : ChainPair}

theorem Reached.native (h : c.Reached p) : c.Native p := by
  induction h with
  | fresh => exact ⟨.fresh p, .fresh p, nofun⟩
  | reset => exact ⟨.fresh p, .fresh p, nofun⟩
  | hold held _ ih => exact ⟨ih.active, ih.candidate, ih.phase⟩
  | beginTraining _ ih => exact ih.beginTraining
  | train samples _ ih => exact ⟨ih.active.train samples, ih.active.train samples, nofun⟩
  | advance activity trailing samples _ ih => exact ih.advance activity trailing samples
  | process frame hframe _ ih =>
    exact ⟨ih.active.step hframe _, ih.candidate.step hframe _, ih.phase⟩

/-! ## Frames -/

/-- What frames make of the active chain, each under its own hold. -/
def heard (p : Plan) : List (Bool × List Sample) → ChainPair → List Stepped
  | [], _ => []
  | (held, frame) :: frames, c =>
    c.active.step p held (p.spectrum frame)
      :: heard p frames ({ c with held := held }.process p frame).pair

/-- What frames make of the candidate, each under its own hold. -/
def unheard (p : Plan) : List (Bool × List Sample) → ChainPair → List Stepped
  | [], _ => []
  | (held, frame) :: frames, c =>
    c.candidate.step p held (p.spectrum frame)
      :: unheard p frames ({ c with held := held }.process p frame).pair

/-- A candidate that differs from the active chain of another pair in its gains and in the
count of its estimates does the same as that chain. -/
theorem unheard_eq_heard {other : ChainPair} {offset : Nat} {gains : List Float32}
    (h : c.candidate = { other.active.aged offset with gains := gains })
    (frames : List (Bool × List Sample)) :
    c.unheard p frames = (other.heard p frames).map (Stepped.aged offset) := by
  induction frames generalizing c other gains with
  | nil => rfl
  | cons frame frames ih =>
    obtain ⟨held, frame⟩ := frame
    have hstep : c.candidate.step p held (p.spectrum frame)
        = (other.active.step p held (p.spectrum frame)).aged offset := by
      rw [h, Chain.step_aged]
    rw [unheard, heard, List.map_cons, hstep]
    -- after the frame the gains are equal, too
    have hchain : (c.candidate.step p held (p.spectrum frame)).chain
        = { (other.active.step p held (p.spectrum frame)).chain.aged offset with
          gains := (other.active.step p held (p.spectrum frame)).chain.gains } :=
      congrArg Stepped.chain hstep
    exact congrArg _ (ih hchain)

/-! ## The retrain -/

/-- A retrain leaves the active chain as it is.  The profile and the memory of the candidate
are those of the active chain of a new pair that is trained on the same samples, but for the
generations that the candidate had before.  Whatever frames follow, under whatever holds,
the candidate gives the same hops, reports the same and comes to the same states, gains
included, as that chain, always as many generations ahead. -/
theorem retrain_is_training (h : c.Reached p) (activity : Nat → Float32)
    (trailing : Trailing Sample) (samples : Nat)
    (hretrained : .retrained
      ∈ milestonesOf (c.advance p activity trailing samples).events) :
    let retrained := (c.advance p activity trailing samples).pair
    let stretch := trailing.recent p.geometry.demand
    let trained := ((ChainPair.fresh p).train p stretch).pair
    let offset := c.candidate.profile.generation
    stretch.length = p.geometry.demand
      ∧ retrained.active = c.active
      ∧ retrained.candidate.profile = trained.active.profile.aged offset
      ∧ retrained.candidate.profile.history = []
      ∧ retrained.candidate.profile.stable = true
      ∧ retrained.candidate.memory = trained.active.memory
      ∧ ∀ frames, retrained.unheard p frames = (trained.heard p frames).map (.aged offset) := by
  intro retrained stretch trained offset
  have hnative := h.native
  obtain ⟨hdemand, hactive, hcandidate⟩ :=
    (advance_advances p activity trailing samples hnative.phase).chains_of_retrained hretrained
  change retrained.candidate = c.candidate.resample p stretch at hcandidate
  rw [hnative.candidate.resample_eq] at hcandidate
  have hlength : (trailing.samples.drop (trailing.samples.length - p.geometry.demand)).length
      = p.geometry.demand := by
    rw [Trailing.length] at hdemand
    rw [List.length_drop]
    omega
  have hprofile : retrained.candidate.profile = trained.active.profile.aged offset :=
    congrArg Chain.profile hcandidate
  have hmemory : retrained.candidate.memory = trained.active.memory := by
    rw [hcandidate]
    rfl
  exact ⟨hlength, hactive, hprofile, congrArg Profile.history hprofile,
    congrArg Profile.stable hprofile, hmemory, unheard_eq_heard hcandidate⟩

namespace Specimen

/-- A pair that is trained on silence. -/
def trained : ChainPair :=
  ((ChainPair.fresh Denoise.Specimen.plan).train Denoise.Specimen.plan (List.replicate 8 0)).pair

/-- A stretch that is not silent. -/
def stretch : Trailing Sample := ⟨8, List.replicate 8 ⟨1, 0⟩⟩

end Specimen

/-- Retrained on another stretch, the candidate is one generation ahead. -/
theorem retrain_is_training_specimen :
    let p := Denoise.Specimen.plan
    let advanced := Specimen.trained.advance p Denoise.Specimen.quiet Specimen.stretch 1
    .retrained ∈ milestonesOf advanced.events
      ∧ ∀ frames, advanced.pair.unheard p frames
        = (((ChainPair.fresh p).train p (List.replicate 8 ⟨1, 0⟩)).pair.heard p frames).map
          (.aged 1) := by
  intro p advanced
  have hretrained : .retrained ∈ milestonesOf advanced.events := by decide +kernel
  obtain ⟨-, -, -, -, -, -, hframes⟩ := retrain_is_training (.train _ .fresh)
    Denoise.Specimen.quiet Specimen.stretch 1 hretrained
  exact ⟨hretrained, hframes⟩

end ChainPair

end Denoise
