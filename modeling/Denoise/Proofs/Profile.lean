import Denoise.Proofs.Singles
import Denoise.Proofs.Session

/-!
# The noise profile along a run

The gains divide by the noise power, so every entry of it has to be finite and not below
the power floor, whatever the samples were.  `Settled` is the invariant.  It also ties
the floor bounds to the power as it was when an estimate was last adopted, which is the
power itself unless noise frames are blended in, and the generation to the number of
adoptions.

An estimate is made usable bin by bin, and so is a blend, which keeps the old power when
it is not finite.  Nothing else writes the power.
-/

namespace Denoise

/-! ## The lesser and the greater of two singles -/

namespace Singles

variable {a b : Float32}

/-- Of two numbers the lesser is below both. -/
theorem lesser_le (ha : a.isNaN = false) (hb : b.isNaN = false) :
    lesser a b ≤ a ∧ lesser a b ≤ b := by
  rw [lesser, beq_self_eq_not_isNaN, ha]
  split
  next hless =>
    have hlt := hless.resolve_right nofun
    exact ⟨le_of_lt hb ha hlt, le_refl hb⟩
  next hless => exact ⟨le_refl ha, le_of_not_lt hb ha fun hlt => hless (.inl hlt)⟩

theorem le_greater (ha : a.isNaN = false) (hb : b.isNaN = false) :
    a ≤ greater a b ∧ b ≤ greater a b := by
  rw [greater, beq_self_eq_not_isNaN, ha]
  split
  next hless =>
    have hlt := hless.resolve_right nofun
    exact ⟨le_of_lt ha hb hlt, le_refl hb⟩
  next hless => exact ⟨le_refl ha, le_of_not_lt ha hb fun hlt => hless (.inl hlt)⟩

theorem lesser_eq_or (a b : Float32) : lesser a b = a ∨ lesser a b = b := by
  rw [lesser]
  split
  · exact .inr rfl
  · exact .inl rfl

theorem greater_eq_or (a b : Float32) : greater a b = a ∨ greater a b = b := by
  rw [greater]
  split
  · exact .inr rfl
  · exact .inl rfl

/-- Of some numbers, one that stands in a relation to all is found by comparing each with
the one found so far. -/
theorem foldl_choose {choose : Float32 → Float32 → Float32} {R : Float32 → Float32 → Prop}
    (one : ∀ a b, choose a b = a ∨ choose a b = b)
    (related : ∀ a b, a.isNaN = false → b.isNaN = false → R (choose a b) a ∧ R (choose a b) b)
    (refl : ∀ a, a.isNaN = false → R a a)
    (trans : ∀ a b c, a.isNaN = false → b.isNaN = false → c.isNaN = false →
      R a b → R b c → R a c)
    {xs : List Float32} (hxs : ∀ x ∈ xs, x.isNaN = false) {start : Float32}
    (hstart : start.isNaN = false) :
    (xs.foldl choose start = start ∨ xs.foldl choose start ∈ xs)
      ∧ R (xs.foldl choose start) start ∧ ∀ x ∈ xs, R (xs.foldl choose start) x := by
  induction xs generalizing start with
  | nil => exact ⟨.inl rfl, refl start hstart, nofun⟩
  | cons x xs ih =>
    obtain ⟨hx, hxs⟩ := List.forall_mem_cons.1 hxs
    have hnext : (choose start x).isNaN = false := by
      rcases one start x with h | h <;> rw [h] <;> assumption
    obtain ⟨hfound, hnextR, hall⟩ := ih hxs hnext
    rw [List.foldl_cons]
    have hnumber : (xs.foldl choose (choose start x)).isNaN = false := by
      rcases hfound with h | h
      · rw [h]
        exact hnext
      · exact hxs _ h
    obtain ⟨hleft, hright⟩ := related start x hstart hx
    refine ⟨?_, trans _ _ _ hnumber hnext hstart hnextR hleft, ?_⟩
    · rcases hfound with h | h
      · rw [h]
        rcases one start x with h' | h'
        · exact .inl h'
        · rw [h']
          exact .inr List.mem_cons_self
      · exact .inr (List.mem_cons_of_mem _ h)
    · rintro y (_ | ⟨_, hy⟩)
      · exact trans _ _ _ hnumber hnext hx hnextR hright
      · exact hall y hy

end Singles

/-! ## Powers that can be divided by -/

namespace Profile

/-- A power that can be divided by. -/
def Usable (power : Float32) : Prop := power.isFinite = true ∧ powerFloor ≤ power

theorem usable_powerFloor : Usable powerFloor :=
  ⟨by decide, Singles.le_refl (by decide)⟩

/-- Whatever a finite power is, it is usable once it is raised to the floor. -/
theorem usable_greater {power : Float32} (h : power.isFinite = true) :
    Usable (greater power powerFloor) := by
  have hnumber := Singles.isNaN_of_isFinite h
  have hfloor : powerFloor.isNaN = false := by decide
  refine ⟨?_, (Singles.le_greater hnumber hfloor).2⟩
  rcases Singles.greater_eq_or power powerFloor with heq | heq
  · rw [heq]
    exact h
  · rw [heq]
    exact usable_powerFloor.1

theorem usable_usable (power : Float32) : Usable (usable power) := by
  rw [usable]
  split
  next h => exact usable_greater h
  next => exact usable_powerFloor

/-- The blend is usable, or the power stays. -/
theorem usable_blend {power : Float32} (h : Usable power) (smoothing other : Float32) :
    Usable (ProfileRules.blend smoothing power other) := by
  rw [ProfileRules.blend]
  split
  next hfinite => exact usable_greater hfinite
  next => exact h

/-- The least of some powers, which is one of them. -/
def IsLeast (low : Float32) (powers : List Float32) : Prop :=
  low ∈ powers ∧ ∀ power ∈ powers, low ≤ power

/-- The greatest of some powers, which is one of them. -/
def IsGreatest (high : Float32) (powers : List Float32) : Prop :=
  high ∈ powers ∧ ∀ power ∈ powers, power ≤ high

/-- The least of finite powers is one of them, and below all. -/
theorem isLeast_leastOf {powers : List Float32} (h : ∀ power ∈ powers, power.isFinite = true)
    (hne : powers ≠ []) : IsLeast (leastOf powers) powers := by
  have hnumbers : ∀ power ∈ powers, power.isNaN = false :=
    fun power hpower => Singles.isNaN_of_isFinite (h power hpower)
  obtain ⟨hfound, -, hall⟩ := Singles.foldl_choose (R := (· ≤ ·)) Singles.lesser_eq_or
    (fun _ _ => Singles.lesser_le) (fun _ => Singles.le_refl) (fun _ _ _ => Singles.le_trans)
    hnumbers (show greatestSingle.isNaN = false by decide)
  refine ⟨?_, hall⟩
  rcases hfound with hstart | hmem
  · -- a power that is not below the start of the search is that number itself
    obtain ⟨power, hpower⟩ := List.exists_mem_of_ne_nil powers hne
    have hle := hall power hpower
    rw [hstart] at hle
    rw [leastOf, hstart, ← Singles.eq_greatestSingle (h power hpower) hle]
    exact hpower
  · exact hmem

/-- So is the greatest of usable ones. -/
theorem isGreatest_greatestOf {powers : List Float32} (h : ∀ power ∈ powers, Usable power)
    (hne : powers ≠ []) : IsGreatest (greatestOf powers) powers := by
  have hnumbers : ∀ power ∈ powers, power.isNaN = false :=
    fun power hpower => Singles.isNaN_of_isFinite (h power hpower).1
  obtain ⟨hfound, -, hall⟩ := Singles.foldl_choose (R := fun a b => b ≤ a) Singles.greater_eq_or
    (fun _ _ => Singles.le_greater) (fun _ => Singles.le_refl)
    (fun _ _ _ ha hb hc hab hbc => Singles.le_trans hc hb ha hbc hab)
    hnumbers (show (0 : Float32).isNaN = false by decide)
  refine ⟨?_, hall⟩
  rcases hfound with hstart | hmem
  · obtain ⟨power, hpower⟩ := List.exists_mem_of_ne_nil powers hne
    have hle := hall power hpower
    rw [hstart] at hle
    -- no usable power is as low as zero
    have hzero : ¬powerFloor ≤ (0 : Float32) := by decide
    exact absurd (Singles.le_trans (by decide) (hnumbers power hpower) (by decide)
      (h power hpower).2 hle) hzero
  · exact hmem

end Profile

/-! ## Runs -/

namespace ProfileRules

/-- The profile after a run, with the number of estimates that were adopted in it, and the
power as it was when the last of them was. -/
inductive Run (r : ProfileRules) : (adopted : Nat) → (last : List Float32) → Profile → Prop
  | fresh : Run r 0 r.freshProfile.power r.freshProfile
  | sample {adopted : Nat} {last : List Float32} {p : Profile}
      (magnitudes : List Sample → List Float32) (samples : List Sample) :
    (∀ frame, frame.length = r.geometry.frameLen →
      (magnitudes frame).length = r.geometry.fftSize) →
    Run r adopted last p →
    Run r (adopted + 1) (r.sample magnitudes samples p).power (r.sample magnitudes samples p)
  | refine {adopted : Nat} {last : List Float32} {p : Profile} (magnitudes : List Float32)
      (held : Bool) :
    magnitudes.length = r.geometry.fftSize →
    (r.refine p magnitudes held).outcome ≠ .adopted →
    Run r adopted last p →
    Run r adopted last (r.refine p magnitudes held).profile
  | adopt {adopted : Nat} {last : List Float32} {p : Profile} (magnitudes : List Float32)
      (held : Bool) :
    magnitudes.length = r.geometry.fftSize →
    (r.refine p magnitudes held).outcome = .adopted →
    Run r adopted last p →
    Run r (adopted + 1) (r.refine p magnitudes held).profile.power
      (r.refine p magnitudes held).profile
  | track {adopted : Nat} {last : List Float32} {p : Profile} (likelihood : Float32)
      (power : List Float32) :
    power.length = r.geometry.fftSize →
    Run r adopted last p →
    Run r adopted last (r.track p likelihood power)

/-! ## The invariant -/

/-- What a run says of a profile. -/
structure Settled (r : ProfileRules) (adopted : Nat) (last : List Float32) (p : Profile) :
    Prop where
  sized : p.Sized r.geometry.fftSize
  usable : ∀ power ∈ p.power, Profile.Usable power
  low : Profile.IsLeast p.floorLow last
  high : Profile.IsGreatest p.floorHigh last
  /-- Only a blend comes between. -/
  kept : r.tracking = false → p.power = last
  generation : p.generation = adopted
  stable : p.stable = true ↔ 0 < adopted

/-- A refinement adopts an estimate, or leaves everything but the history and the mark that
no bin was trusted. -/
theorem refine_cases (r : ProfileRules) (p : Profile) (magnitudes : List Float32) (held : Bool) :
    (∃ estimate, (r.refine p magnitudes held).profile = (p.record magnitudes).adopt estimate
        ∧ (r.refine p magnitudes held).outcome = .adopted)
      ∨ (∃ degenerate, (r.refine p magnitudes held).profile
          = { p.record magnitudes with degenerate := degenerate }
        ∧ (r.refine p magnitudes held).outcome ≠ .adopted) := by
  rw [refine]
  split
  next => exact .inr ⟨_, rfl, by rintro ⟨⟩⟩
  next =>
    split
    next => exact .inr ⟨_, rfl, by rintro ⟨⟩⟩
    next =>
      split
      next =>
        rw [refineWideband]
        split
        next => exact .inl ⟨_, rfl, rfl⟩
        next => exact .inr ⟨_, rfl, by rintro ⟨⟩⟩
      next =>
        rw [refineAudio]
        split
        next => exact .inl ⟨_, rfl, rfl⟩
        next => exact .inr ⟨_, rfl, by rintro ⟨⟩⟩

theorem ne_nil_of_length {r : ProfileRules} {powers : List Float32}
    (h : powers.length = r.geometry.fftSize) : powers ≠ [] := by
  rintro rfl
  have hhop := r.geometry.two_le_hop
  rw [List.length_nil, Geometry.fftSize, Geometry.frameLen] at h
  omega

namespace Settled

variable {r : ProfileRules} {adopted : Nat} {last : List Float32} {p : Profile}

/-- Before the first estimate every power is the floor. -/
theorem fresh (r : ProfileRules) : r.Settled 0 r.freshProfile.power r.freshProfile := by
  have hpowers : ∀ power ∈ r.freshProfile.power, power = powerFloor :=
    fun power hpower => List.eq_of_mem_replicate hpower
  have hmem : powerFloor ∈ r.freshProfile.power := by
    refine List.mem_replicate.2 ⟨?_, rfl⟩
    have hne : r.freshProfile.power ≠ [] := ne_nil_of_length List.length_replicate
    exact fun hzero => hne (by rw [freshProfile, Profile.fresh, hzero, List.replicate_zero])
  exact
    { sized := .fresh _ _
      usable := by
        intro power hpower
        rw [hpowers power hpower]
        exact Profile.usable_powerFloor
      low := by
        refine ⟨hmem, fun power hpower => ?_⟩
        rw [hpowers power hpower]
        exact Profile.usable_powerFloor.2
      high := by
        refine ⟨hmem, fun power hpower => ?_⟩
        rw [hpowers power hpower]
        exact Profile.usable_powerFloor.2
      kept := fun _ => rfl
      generation := rfl
      stable := by
        constructor
        · intro hstable
          cases hstable
        · intro hadopted
          cases hadopted }

/-- An estimate that is adopted settles a profile. -/
theorem adopt {estimate : List Float32} (hsized : (p.adopt estimate).Sized r.geometry.fftSize)
    (hgeneration : p.generation = adopted) :
    r.Settled (adopted + 1) (p.adopt estimate).power (p.adopt estimate) := by
  have husable : ∀ power ∈ (p.adopt estimate).power, Profile.Usable power := by
    intro power hpower
    obtain ⟨entry, -, rfl⟩ := List.mem_map.1 hpower
    exact Profile.usable_usable entry
  have hne := ne_nil_of_length hsized.power
  exact
    { sized := hsized
      usable := husable
      low := Profile.isLeast_leastOf (fun power hpower => (husable power hpower).1) hne
      high := Profile.isGreatest_greatestOf husable hne
      kept := fun _ => rfl
      generation := congrArg (· + 1) hgeneration
      stable := iff_of_true rfl (Nat.succ_pos adopted) }

theorem sample (h : r.Settled adopted last p) {magnitudes : List Sample → List Float32}
    (hmagnitudes : ∀ frame, frame.length = r.geometry.frameLen →
      (magnitudes frame).length = r.geometry.fftSize) (samples : List Sample) :
    r.Settled (adopted + 1) (r.sample magnitudes samples p).power
      (r.sample magnitudes samples p) :=
  adopt (r.sample_sized hmagnitudes h.sized samples) h.generation

/-- A refinement settles the profile anew if it adopts an estimate, and else leaves it as
settled as it was. -/
theorem refine (h : r.Settled adopted last p) {magnitudes : List Float32}
    (hmagnitudes : magnitudes.length = r.geometry.fftSize) (held : Bool) :
    ((r.refine p magnitudes held).outcome = .adopted →
        r.Settled (adopted + 1) (r.refine p magnitudes held).profile.power
          (r.refine p magnitudes held).profile)
      ∧ ((r.refine p magnitudes held).outcome ≠ .adopted →
        r.Settled adopted last (r.refine p magnitudes held).profile) := by
  have hsized := r.refine_sized h.sized hmagnitudes held
  rcases r.refine_cases p magnitudes held with ⟨estimate, hprofile, houtcome⟩
    | ⟨degenerate, hprofile, houtcome⟩
  · rw [hprofile] at hsized ⊢
    exact ⟨fun _ => adopt hsized h.generation, fun hne => absurd houtcome hne⟩
  · rw [hprofile] at hsized ⊢
    exact ⟨fun heq => absurd heq houtcome, fun _ =>
      ⟨hsized, h.usable, h.low, h.high, h.kept, h.generation, h.stable⟩⟩

theorem track (h : r.Settled adopted last p) {power : List Float32}
    (hpower : power.length = r.geometry.fftSize) (likelihood : Float32) :
    r.Settled adopted last (r.track p likelihood power) := by
  have hsized := r.track_sized h.sized hpower likelihood
  rw [ProfileRules.track] at hsized ⊢
  split at hsized
  next hnoise =>
    rw [if_pos hnoise]
    exact
      { sized := hsized
        usable := by
          intro blended hblended
          obtain ⟨i, hi, rfl⟩ := List.getElem_of_mem hblended
          rw [List.getElem_zipWith]
          exact Profile.usable_blend (h.usable _ (List.getElem_mem _)) _ _
        low := h.low
        high := h.high
        kept := by
          intro hoff
          rw [isNoise, hoff] at hnoise
          cases hnoise
        generation := h.generation
        stable := h.stable }
  next hsignal =>
    rw [if_neg hsignal]
    exact h

end Settled

variable {r : ProfileRules} {adopted : Nat} {last : List Float32} {p : Profile}

/-- So a profile is settled after any run. -/
theorem Run.settled (run : r.Run adopted last p) : r.Settled adopted last p := by
  induction run with
  | fresh => exact .fresh r
  | sample magnitudes samples hmagnitudes _ ih => exact ih.sample hmagnitudes samples
  | refine magnitudes held hmagnitudes houtcome _ ih => exact (ih.refine hmagnitudes held).2 houtcome
  | adopt magnitudes held hmagnitudes houtcome _ ih => exact (ih.refine hmagnitudes held).1 houtcome
  | track likelihood power hpower _ ih => exact ih.track hpower likelihood

/-- After any run every noise power is finite and not below the floor, and the floor bounds
are the least and the greatest power at the last adoption.  Without tracking that is the
power as it is.  The generation counts the adoptions, and a profile is stable after the
first. -/
theorem noise_profile_invariant (run : r.Run adopted last p) :
    (∀ power ∈ p.power, power.isFinite = true ∧ powerFloor ≤ power)
      ∧ Profile.IsLeast p.floorLow last
      ∧ Profile.IsGreatest p.floorHigh last
      ∧ (r.tracking = false →
        Profile.IsLeast p.floorLow p.power ∧ Profile.IsGreatest p.floorHigh p.power)
      ∧ p.generation = adopted
      ∧ (p.stable = true ↔ 0 < p.generation) := by
  have h := run.settled
  refine ⟨h.usable, h.low, h.high, ?_, h.generation, ?_⟩
  · intro hoff
    rw [h.kept hoff]
    exact ⟨h.low, h.high⟩
  · rw [h.generation]
    exact h.stable

/-- A profile is sampled from magnitudes that are no numbers, and an infinite power is
blended in. -/
theorem noise_profile_invariant_specimen :
    let r : ProfileRules := .of Specimen.plan.geometry { vadNoiseTracking := true }
    let undefined := List.replicate r.geometry.fftSize (0 / 0 : Float32)
    let infinite := List.replicate r.geometry.fftSize (1 / 0 : Float32)
    let p := r.track (r.sample (fun _ => undefined) [] r.freshProfile) 0 infinite
    (∀ power ∈ p.power, power.isFinite = true ∧ powerFloor ≤ power)
      ∧ p.generation = 1 ∧ p.stable = true := by
  intro r undefined infinite p
  have run : r.Run 1 (r.sample (fun _ => undefined) [] r.freshProfile).power p :=
    .track 0 infinite List.length_replicate
      (.sample (fun _ => undefined) [] (fun _ _ => List.length_replicate) .fresh)
  obtain ⟨husable, -, -, -, hgeneration, hstable⟩ := noise_profile_invariant run
  exact ⟨husable, hgeneration, hstable.2 (hgeneration ▸ Nat.one_pos)⟩

end ProfileRules

end Denoise
