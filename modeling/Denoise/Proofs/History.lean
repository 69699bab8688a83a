import Denoise.Proofs.Profile
import Denoise.Proofs.Trailing

/-!
# What refinement does

`Refines` lists everything that a refinement by one frame can do, with the condition of
each case, so that no later proof has to open the definition.

A `Course` is a profile together with the deeds that made it.  What a profile remembers
of them is little (`Course.told`): the newest frames since it was last sampled, as many as
it has room for, and whether a refinement since the last adoption found no bin to trust.
From the two together follows what each outcome of a refinement means
(`refinement_effect`), and when refinement ever starts (`refinement_starts`).
-/

namespace Denoise

namespace ProfileRules

/-! ## One refinement -/

/-- What a refinement by a frame can do to a profile. -/
inductive Refines (r : ProfileRules) (p : Profile) (magnitudes : List Float32) (held : Bool) :
    Refined → Prop
  | accumulating :
    (p.record magnitudes).history.length < r.threshold →
    Refines r p magnitudes held ⟨p.record magnitudes, .accumulating, []⟩
  | held :
    r.threshold ≤ (p.record magnitudes).history.length → held = true →
    Refines r p magnitudes held ⟨p.record magnitudes, .held, []⟩
  | tighter {estimate : List Float32} :
    r.threshold ≤ (p.record magnitudes).history.length → held = false →
    r.geometry.wideband = false →
    r.audioEstimate (p.record magnitudes).history = estimate →
    Profile.greatestOf estimate - Profile.leastOf estimate < p.floorHigh - p.floorLow →
    Refines r p magnitudes held ⟨(p.record magnitudes).adopt estimate, .adopted,
      [.tighterFloor (Profile.leastOf estimate) (Profile.greatestOf estimate)]⟩
  | kept :
    r.threshold ≤ (p.record magnitudes).history.length → held = false →
    r.geometry.wideband = false →
    Refines r p magnitudes held ⟨p.record magnitudes, .kept, []⟩
  | trusted {estimate : List Float32} :
    r.threshold ≤ (p.record magnitudes).history.length → held = false →
    r.geometry.wideband = true →
    r.widebandEstimate (p.record magnitudes).history = some estimate →
    Refines r p magnitudes held ⟨(p.record magnitudes).adopt estimate, .adopted, []⟩
  | degenerate :
    r.threshold ≤ (p.record magnitudes).history.length → held = false →
    r.geometry.wideband = true →
    r.widebandEstimate (p.record magnitudes).history = none →
    Refines r p magnitudes held ⟨{ p.record magnitudes with degenerate := true }, .degenerate,
      if p.degenerate then [] else [.noTrustedBins]⟩

/-- A refinement is one of the five cases. -/
theorem refines (r : ProfileRules) (p : Profile) (magnitudes : List Float32) (held : Bool) :
    r.Refines p magnitudes held (r.refine p magnitudes held) := by
  rw [refine]
  split
  next hshort => exact .accumulating hshort
  next hlong =>
    have hlong' := Nat.le_of_not_lt hlong
    cases held with
    | true => exact .held hlong' rfl
    | false =>
      cases hwide : r.geometry.wideband with
      | true =>
        rw [if_neg Bool.false_ne_true, if_pos rfl, refineWideband]
        split
        next hestimate => exact .trusted hlong' rfl hwide hestimate
        next hnone => exact .degenerate hlong' rfl hwide hnone
      | false =>
        rw [if_neg Bool.false_ne_true, if_neg Bool.false_ne_true, refineAudio]
        split
        next htighter => exact .tighter hlong' rfl hwide rfl htighter
        next => exact .kept hlong' rfl hwide

namespace Refines

variable {r : ProfileRules} {p : Profile} {magnitudes : List Float32} {held : Bool}
  {refined : Refined}

theorem history (h : r.Refines p magnitudes held refined) :
    refined.profile.history = (p.record magnitudes).history := by
  cases h with
  | accumulating => rfl
  | held => rfl
  | tighter => rfl
  | kept => rfl
  | trusted => rfl
  | degenerate => rfl

/-- It waits exactly while the history is too short. -/
theorem accumulating_iff (h : r.Refines p magnitudes held refined) :
    refined.outcome = .accumulating ↔ (p.record magnitudes).history.length < r.threshold := by
  cases h with
  | accumulating hshort => exact iff_of_true rfl hshort
  | held hlong => exact iff_of_false nofun (Nat.not_lt.2 hlong)
  | tighter hlong => exact iff_of_false nofun (Nat.not_lt.2 hlong)
  | kept hlong => exact iff_of_false nofun (Nat.not_lt.2 hlong)
  | trusted hlong => exact iff_of_false nofun (Nat.not_lt.2 hlong)
  | degenerate hlong => exact iff_of_false nofun (Nat.not_lt.2 hlong)

/-- Once the history is long enough, a hold is what keeps it. -/
theorem held_iff (h : r.Refines p magnitudes held refined)
    (hlong : refined.outcome ≠ .accumulating) : refined.outcome = .held ↔ held = true := by
  cases h with
  | accumulating => exact absurd rfl hlong
  | held _ hheld => exact iff_of_true rfl hheld
  | tighter _ hfree => exact iff_of_false nofun (Bool.not_eq_true _ ▸ hfree)
  | kept _ hfree => exact iff_of_false nofun (Bool.not_eq_true _ ▸ hfree)
  | trusted _ hfree => exact iff_of_false nofun (Bool.not_eq_true _ ▸ hfree)
  | degenerate _ hfree => exact iff_of_false nofun (Bool.not_eq_true _ ▸ hfree)

/-- Unless an estimate is adopted, nothing of the noise power changes. -/
theorem unchanged (h : r.Refines p magnitudes held refined) (hother : refined.outcome ≠ .adopted) :
    refined.profile.power = p.power
      ∧ refined.profile.floorLow = p.floorLow ∧ refined.profile.floorHigh = p.floorHigh
      ∧ refined.profile.generation = p.generation ∧ refined.profile.stable = p.stable := by
  cases h with
  | accumulating => exact ⟨rfl, rfl, rfl, rfl, rfl⟩
  | held => exact ⟨rfl, rfl, rfl, rfl, rfl⟩
  | tighter => exact absurd rfl hother
  | kept => exact ⟨rfl, rfl, rfl, rfl, rfl⟩
  | trusted => exact absurd rfl hother
  | degenerate => exact ⟨rfl, rfl, rfl, rfl, rfl⟩

/-- An adopted estimate begins a generation, and the profile is stable. -/
theorem renewed (h : r.Refines p magnitudes held refined) (hadopted : refined.outcome = .adopted) :
    refined.profile.generation = p.generation + 1 ∧ refined.profile.stable = true := by
  cases h with
  | accumulating => cases hadopted
  | held => cases hadopted
  | tighter => exact ⟨rfl, rfl⟩
  | kept => cases hadopted
  | trusted => exact ⟨rfl, rfl⟩
  | degenerate => cases hadopted

/-- A warning is given if the estimate was degenerate and the one before was not. -/
theorem warns_iff (h : r.Refines p magnitudes held refined) :
    (∃ event ∈ refined.events, event.level = .warn)
      ↔ refined.outcome = .degenerate ∧ p.degenerate = false := by
  cases h with
  | accumulating => simp
  | held => simp
  | tighter => simp [Event.level]
  | kept => simp
  | trusted => simp
  | degenerate => cases p.degenerate <;> simp [Event.level]

end Refines

/-! ## The deeds that made a profile -/

/-- One thing that is done to a profile. -/
inductive Deed where
  /-- It is sampled anew. -/
  | sample
  /-- It is refined by a frame of these magnitudes. -/
  | refine (magnitudes : List Float32) (outcome : Refinement)
  /-- A frame is offered for blending. -/
  | track

namespace Deed

/-- Whether a profile is sampled anew. -/
def samples : Deed → Bool
  | sample => true
  | _ => false

/-- Whether an estimate is adopted. -/
def adopts : Deed → Bool
  | sample => true
  | refine _ outcome => outcome = .adopted
  | track => false

/-- The magnitudes that a profile is refined by. -/
def magnitudes? : Deed → Option (List Float32)
  | refine magnitudes _ => some magnitudes
  | _ => none

end Deed

/-- A profile and the deeds that made it, newest first. -/
inductive Course (r : ProfileRules) : List Deed → Profile → Prop
  | fresh : Course r [] r.freshProfile
  | sample {past : List Deed} {p : Profile} (magnitudes : List Sample → List Float32)
      (samples : List Sample) :
    Course r past p →
    Course r (.sample :: past) (r.sample magnitudes samples p)
  | refine {past : List Deed} {p : Profile} (magnitudes : List Float32) (held : Bool) :
    Course r past p →
    Course r (.refine magnitudes (r.refine p magnitudes held).outcome :: past)
      (r.refine p magnitudes held).profile
  | track {past : List Deed} {p : Profile} (likelihood : Float32) (power : List Float32) :
    Course r past p →
    Course r (.track :: past) (r.track p likelihood power)

/-- The frames of the refinements since a profile was sampled or made, oldest first. -/
def framesSince (past : List Deed) : List (List Float32) :=
  ((past.takeWhile fun deed => !deed.samples).filterMap Deed.magnitudes?).reverse

/-- No bin was trusted in some refinement since an estimate was adopted or the profile was
made. -/
def FailedSince (past : List Deed) : Prop :=
  ∃ magnitudes, .refine magnitudes .degenerate ∈ past.takeWhile fun deed => !deed.adopts

section Since

variable (past : List Deed) (magnitudes : List Float32) (outcome : Refinement)

theorem framesSince_sample : framesSince (.sample :: past) = [] := rfl

theorem framesSince_refine :
    framesSince (.refine magnitudes outcome :: past) = framesSince past ++ [magnitudes] := by
  rw [framesSince, List.takeWhile_cons_of_pos rfl]
  exact List.reverse_cons

theorem framesSince_track : framesSince (.track :: past) = framesSince past := by
  rw [framesSince, List.takeWhile_cons_of_pos rfl]
  rfl

theorem not_failedSince_of_adopts {deed : Deed} (h : deed.adopts = true) :
    ¬FailedSince (deed :: past) := by
  simp [FailedSince, h]

theorem failedSince_degenerate : FailedSince (.refine magnitudes .degenerate :: past) :=
  ⟨magnitudes, by simp [Deed.adopts]⟩

/-- What neither adopts an estimate nor ends degenerate begins and ends no failure. -/
theorem failedSince_cons_iff {deed : Deed} (h : deed.adopts = false)
    (hdeed : ∀ magnitudes, deed ≠ .refine magnitudes .degenerate) :
    FailedSince (deed :: past) ↔ FailedSince past := by
  simp [FailedSince, h, fun magnitudes => (hdeed magnitudes).symm]

end Since

/-! ## What a profile remembers of them -/

/-- What the deeds of the past say of a profile. -/
structure Told (r : ProfileRules) (past : List Deed) (p : Profile) : Prop where
  capacity : p.capacity = max r.capacity 1
  history : p.history = (framesSince past).drop ((framesSince past).length - p.capacity)
  degenerate : p.degenerate = true ↔ FailedSince past

namespace Told

variable {r : ProfileRules} {past : List Deed} {p : Profile}

theorem fresh (r : ProfileRules) : r.Told [] r.freshProfile where
  capacity := rfl
  history := List.drop_nil.symm
  degenerate := by
    constructor
    · intro hdegenerate
      cases hdegenerate
    · rintro ⟨_, hmem⟩
      cases hmem

/-- A frame joins the history, and the oldest one leaves a full one. -/
theorem record_history (h : r.Told past p) (magnitudes : List Float32) :
    (p.record magnitudes).history = (framesSince past ++ [magnitudes]).drop
      ((framesSince past ++ [magnitudes]).length - p.capacity) := by
  have hpos : 1 ≤ p.capacity := by
    rw [h.capacity]
    exact Nat.le_max_right _ _
  have hlength : p.history.length = min (framesSince past).length p.capacity := by
    rw [h.history, List.length_drop]
    omega
  rw [← Trailing.drop_drop_append, ← h.history, List.length_append, List.length_singleton,
    Profile.record]
  simp only
  split
  next hfull =>
    rw [List.drop_append_of_le_length (by omega)]
    congr 2
    omega
  next hroom =>
    rw [(by omega : p.history.length + 1 - p.capacity = 0), List.drop_zero]

/-- The history is as long as the frames since the last sampling, up to its capacity. -/
theorem length_record (h : r.Told past p) (magnitudes : List Float32) :
    (p.record magnitudes).history.length
      = min (max r.capacity 1) ((framesSince past).length + 1) := by
  rw [h.record_history, List.length_drop, List.length_append, List.length_singleton, h.capacity]
  omega

theorem sample (h : r.Told past p) (magnitudes : List Sample → List Float32)
    (samples : List Sample) : r.Told (.sample :: past) (r.sample magnitudes samples p) where
  capacity := h.capacity
  history := by rw [framesSince_sample, List.drop_nil]; rfl
  degenerate := iff_of_false Bool.false_ne_true (not_failedSince_of_adopts past rfl)

theorem refine (h : r.Told past p) (magnitudes : List Float32) (held : Bool) :
    r.Told (.refine magnitudes (r.refine p magnitudes held).outcome :: past)
      (r.refine p magnitudes held).profile := by
  have hrefines := r.refines p magnitudes held
  have hhistory := h.record_history magnitudes
  generalize r.refine p magnitudes held = refined at hrefines ⊢
  cases hrefines with
  | accumulating =>
    refine ⟨h.capacity, by rwa [framesSince_refine], ?_⟩
    rw [failedSince_cons_iff past rfl (by rintro _ ⟨⟩)]
    exact h.degenerate
  | held =>
    refine ⟨h.capacity, by rwa [framesSince_refine], ?_⟩
    rw [failedSince_cons_iff past rfl (by rintro _ ⟨⟩)]
    exact h.degenerate
  | tighter =>
    exact ⟨h.capacity, by rwa [framesSince_refine],
      iff_of_false Bool.false_ne_true (not_failedSince_of_adopts past rfl)⟩
  | kept =>
    refine ⟨h.capacity, by rwa [framesSince_refine], ?_⟩
    rw [failedSince_cons_iff past rfl (by rintro _ ⟨⟩)]
    exact h.degenerate
  | trusted =>
    exact ⟨h.capacity, by rwa [framesSince_refine],
      iff_of_false Bool.false_ne_true (not_failedSince_of_adopts past rfl)⟩
  | degenerate =>
    exact ⟨h.capacity, by rwa [framesSince_refine],
      iff_of_true rfl (failedSince_degenerate past magnitudes)⟩

theorem track (h : r.Told past p) (likelihood : Float32) (power : List Float32) :
    r.Told (.track :: past) (r.track p likelihood power) := by
  have htold : r.Told (.track :: past) p :=
    ⟨h.capacity, by rw [framesSince_track]; exact h.history, by
      rw [failedSince_cons_iff past rfl (by rintro _ ⟨⟩)]
      exact h.degenerate⟩
  rw [ProfileRules.track]
  split
  · exact ⟨htold.capacity, htold.history, htold.degenerate⟩
  · exact htold

end Told

variable {r : ProfileRules} {past : List Deed} {p : Profile}

/-- What is told of a profile holds at the end of any course. -/
theorem Course.told (course : r.Course past p) : r.Told past p := by
  induction course with
  | fresh => exact .fresh r
  | sample magnitudes samples _ ih => exact ih.sample magnitudes samples
  | refine magnitudes held _ ih => exact ih.refine magnitudes held
  | track likelihood power _ ih => exact ih.track likelihood power

/-! ## What the outcome says -/

/-- After a refinement the history is the newest frames since the profile was sampled, and
the outcome says what else has changed: nothing unless an estimate is adopted.  A warning
is given once, until an estimate is adopted. -/
theorem refinement_effect (course : r.Course past p) (magnitudes : List Float32) (held : Bool) :
    let refined := r.refine p magnitudes held
    let frames := framesSince past ++ [magnitudes]
    refined.profile.history = frames.drop (frames.length - min (max r.capacity 1) frames.length)
      ∧ refined.profile.history.length = min (max r.capacity 1) frames.length
      ∧ (refined.outcome = .accumulating ↔ refined.profile.history.length < r.threshold)
      ∧ (refined.outcome ≠ .accumulating → (refined.outcome = .held ↔ held = true))
      ∧ (refined.outcome ≠ .adopted →
        refined.profile.power = p.power
          ∧ refined.profile.floorLow = p.floorLow ∧ refined.profile.floorHigh = p.floorHigh
          ∧ refined.profile.generation = p.generation ∧ refined.profile.stable = p.stable)
      ∧ (refined.outcome = .adopted →
        refined.profile.generation = p.generation + 1 ∧ refined.profile.stable = true)
      ∧ ((∃ event ∈ refined.events, event.level = .warn)
        ↔ refined.outcome = .degenerate ∧ ¬FailedSince past) := by
  intro refined frames
  have hrefines : r.Refines p magnitudes held refined := r.refines p magnitudes held
  have told := course.told
  have hframes : frames.length = (framesSince past).length + 1 := by
    rw [List.length_append, List.length_singleton]
  have hcut : frames.length - min (max r.capacity 1) frames.length
      = frames.length - p.capacity := by
    rw [told.capacity]
    omega
  refine ⟨?_, ?_, ?_, hrefines.held_iff, hrefines.unchanged, hrefines.renewed, ?_⟩
  · rw [hrefines.history, hcut]
    exact told.record_history magnitudes
  · rw [hrefines.history, hframes]
    exact told.length_record magnitudes
  · rw [hrefines.history]
    exact hrefines.accumulating_iff
  · rw [← told.degenerate, Bool.not_eq_true]
    exact hrefines.warns_iff

namespace Specimen

/-- At audio rate, with room for two frames of history. -/
def rules : ProfileRules :=
  .of Denoise.Specimen.geometry
    { Denoise.Specimen.settings with audioHistoryFrames := 2, historyMinFrames := 1 }

/-- A frame whose bins are equal. -/
def level (x : Float32) : List Float32 := List.replicate 8 x

/-- A profile that is sampled, refined by two frames, and offered another for blending. -/
def refinedTwice : Profile :=
  rules.track (rules.refine (rules.refine (rules.sample (fun _ => level 2) [] rules.freshProfile)
    (level 3) false).profile (level 4) true).profile 0 (level 5)

theorem course : ∃ past, rules.Course past refinedTwice
    ∧ framesSince past = [level 3, level 4] :=
  ⟨_, .track 0 (level 5) (.refine (level 4) true
    (.refine (level 3) false (.sample (fun _ => level 2) [] .fresh))), rfl⟩

end Specimen

/-- Refined by a third frame, the profile forgets the first. -/
theorem refinement_effect_specimen :
    (Specimen.rules.refine Specimen.refinedTwice (Specimen.level 6) false).outcome = .kept
      ∧ (Specimen.rules.refine Specimen.refinedTwice (Specimen.level 6) false).profile.history
        = [Specimen.level 4, Specimen.level 6]
      ∧ (Specimen.rules.refine Specimen.refinedTwice (Specimen.level 6) false).profile.power
        = Specimen.refinedTwice.power := by
  obtain ⟨past, course, hframes⟩ := Specimen.course
  have houtcome : (Specimen.rules.refine Specimen.refinedTwice (Specimen.level 6) false).outcome
      = .kept := by decide +kernel
  have hother : (Specimen.rules.refine Specimen.refinedTwice (Specimen.level 6) false).outcome
      ≠ .adopted := by
    rw [houtcome]
    rintro ⟨⟩
  obtain ⟨hhistory, -, -, -, hsame, -⟩ := refinement_effect course (Specimen.level 6) false
  rw [hframes] at hhistory
  exact ⟨houtcome, hhistory, (hsame hother).1⟩

/-! ## When refinement starts -/

/-- A profile after some frames, each with whether refinement was held. -/
def refineAll (r : ProfileRules) (p : Profile) (frames : List (List Float32 × Bool)) : Profile :=
  frames.foldl (fun p frame => (r.refine p frame.1 frame.2).profile) p

/-- A course goes on through any frames, and each of them counts. -/
theorem Course.refineAll (course : r.Course past p) (frames : List (List Float32 × Bool)) :
    ∃ later, r.Course (later ++ past) (r.refineAll p frames)
      ∧ (framesSince (later ++ past)).length = (framesSince past).length + frames.length := by
  induction frames generalizing past p with
  | nil => exact ⟨[], course, rfl⟩
  | cons frame frames ih =>
    obtain ⟨later, hcourse, hlength⟩ := ih (course.refine frame.1 frame.2)
    refine ⟨later ++ [_], by rw [List.append_assoc]; exact hcourse, ?_⟩
    rw [List.append_assoc, List.singleton_append, hlength, framesSince_refine, List.length_append,
      List.length_singleton, List.length_cons]
    omega

/-- Some frames after the last sampling, refinement waits exactly if the history can not yet,
or can never, hold as many frames as the threshold asks for. -/
theorem Course.waits_iff (course : r.Course past p) (frames : List (List Float32 × Bool))
    (magnitudes : List Float32) (held : Bool) :
    (r.refine (r.refineAll p frames) magnitudes held).outcome = .accumulating
      ↔ min (max r.capacity 1) ((framesSince past).length + frames.length + 1) < r.threshold := by
  obtain ⟨later, hcourse, hlength⟩ := course.refineAll frames
  rw [(r.refines _ magnitudes held).accumulating_iff, hcourse.told.length_record, hlength]

/-- Under valid settings refinement starts after as many frames as it waits for, at a
wideband rate always, and at audio rate if more frames are kept than it waits for.  Where no
more are kept every refinement of every profile waits, however many frames came before.

At audio rate it waits for one frame more than the settings say.  Words count them under
`Geometry.Fits`, which leaves out the greatest word. -/
theorem refinement_starts {s : Settings} {g : Geometry} (valid : s.Valid)
    (course : (ProfileRules.of g s).Course past p) :
    let outcome := fun frames magnitudes held =>
      ((ProfileRules.of g s).refine ((ProfileRules.of g s).refineAll p frames) magnitudes held).outcome
    (g.wideband = true ∨ s.historyMinFrames < s.audioHistoryFrames →
        ∀ frames, g.refineThreshold s ≤ frames.length →
          ∀ magnitudes held, outcome frames magnitudes held ≠ .accumulating)
      ∧ (g.wideband = false → s.audioHistoryFrames ≤ s.historyMinFrames →
        ∀ frames magnitudes held, outcome frames magnitudes held = .accumulating) := by
  intro outcome
  have hpositive : s.audioHistoryFrames ≠ 0 := (Settings.valid_iff.1 valid).2.2.1.1
  have hwaits : ∀ frames magnitudes held, outcome frames magnitudes held = .accumulating
      ↔ min (max (g.historyCapacity s) 1) ((framesSince past).length + frames.length + 1)
        < g.refineThreshold s := course.waits_iff
  rw [Geometry.historyCapacity, Geometry.refineThreshold] at hwaits
  rw [Geometry.refineThreshold]
  constructor
  · intro hroom frames hframes magnitudes held hwaiting
    have hshort := (hwaits frames magnitudes held).1 hwaiting
    cases hwide : g.wideband with
    | true =>
      rw [hwide, if_pos rfl] at hframes hshort
      rw [if_pos rfl] at hshort
      omega
    | false =>
      have hroom := hroom.resolve_left (by rw [hwide]; exact Bool.false_ne_true)
      rw [hwide, if_neg Bool.false_ne_true] at hframes hshort
      rw [if_neg Bool.false_ne_true] at hshort
      omega
  · intro haudio hfull frames magnitudes held
    rw [hwaits, haudio, if_neg Bool.false_ne_true, if_neg Bool.false_ne_true]
    omega

/-- Four frames are waited for, and three are kept. -/
theorem refinement_starts_specimen :
    let s : Settings := { historyMinFrames := 3, audioHistoryFrames := 3 }
    let r : ProfileRules := .of Denoise.Specimen.geometry s
    s.Valid ∧ ∀ frames magnitudes held,
      (r.refine (r.refineAll r.freshProfile frames) magnitudes held).outcome = .accumulating := by
  intro s r
  have valid : s.Valid := by decide +kernel
  exact ⟨valid, (refinement_starts valid .fresh).2 rfl (Nat.le_refl 3)⟩

end ProfileRules

end Denoise
