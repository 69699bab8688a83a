import Denoise.Proofs.Session
import Denoise.Proofs.Singles
import Mathlib.Data.List.DropRight

/-!
# The retrain and swap protocol

The protocol advances once in each call, before the frames of the block.  Seen
from the calls since the adaptive state was last discarded, it is this.

* The milestones are training, then retrains and swaps in turn.
* A retrain happens when the phase is steady, enough samples were fed since
  training or the last swap, and the channel is quiet.
* A swap happens in the first call that brings the samples since the retrain up
  to the overlap.

`Standing` is the invariant.  It says which milestone was last, and ties both
counters to the samples that were fed after it.  A call keeps it (`Standing.fed`),
so every session has it (`Session.standing`), and `retrain_swap_protocol` reads the
rules off.  A retrain also needs a full trailing queue, which it always finds
(`Engine.Holds.demand_le_trailing`).
-/

namespace Denoise

/-! ## Counting -/

namespace ChainPair

/-- A counter that stopped and counts on has stopped where it would have. -/
theorem count_min (counted samples : Nat) :
    count (min counted maxCount) samples = min (counted + samples) maxCount := by
  rw [count]
  omega

/-- A counter reaches what it can hold when the samples do. -/
theorem le_count_iff {interval : Nat} (h : interval ≤ maxCount) (counted samples : Nat) :
    interval ≤ count (min counted maxCount) samples ↔ interval ≤ counted + samples := by
  rw [count_min]
  omega

/-- A channel is quiet when its reading is a number below the threshold. -/
theorem isBusy_eq_false_iff {s : Settings} (valid : s.Valid) (range : Float32) :
    isBusy s range = false ↔ range.isNaN = false ∧ range < s.silenceThresholdDb := by
  have hthreshold := Singles.isNaN_of_isFinite valid.silenceThresholdDb
  rw [isBusy, Bool.or_eq_false_iff, decide_eq_false_iff_not]
  constructor
  · rintro ⟨hnumber, hle⟩
    exact ⟨hnumber, (Singles.not_le_iff_lt hthreshold hnumber).1 hle⟩
  · rintro ⟨hnumber, hlt⟩
    exact ⟨hnumber, (Singles.not_le_iff_lt hthreshold hnumber).2 hlt⟩

end ChainPair

/-- The intervals are machine counts, which the counters can hold. -/
structure Settings.Countable (s : Settings) : Prop where
  /-- The interval between a swap and a retrain. -/
  switchInterval : s.switchInterval ≤ maxCount
  /-- The interval between a retrain and a swap. -/
  overlapInterval : s.overlapInterval ≤ maxCount

/-! ## The last milestone -/

section Session

variable {S : Type} [SampleKind S]

/-- Whether a call marked none of these. -/
def Call.marksNone (marks : List Milestone) (c : Call S) : Bool :=
  c.milestones.all fun m => !marks.contains m

/-- The calls after the last one that marked any of these. -/
def callsSince (marks : List Milestone) (calls : List (Call S)) : List (Call S) :=
  calls.rtakeWhile (Call.marksNone marks)

/-- The number of samples that these calls fed. -/
def samplesSince (marks : List Milestone) (calls : List (Call S)) : Nat :=
  (fedSamples (callsSince marks calls)).length

/-- The last milestone of some calls, and the calls after it. -/
structure LastMilestone (m : Milestone) (calls later : List (Call S)) : Prop where
  /-- The call that marked it. -/
  marked : ∃ earlier c, calls = earlier ++ c :: later ∧ m ∈ c.milestones
  /-- There was none since. -/
  quiet : ∀ c ∈ later, c.milestones = []

namespace LastMilestone

variable {m : Milestone} {calls later : List (Call S)} {c : Call S}

theorem of_mem (calls : List (Call S)) (h : m ∈ c.milestones) :
    LastMilestone m (calls ++ [c]) [] :=
  ⟨⟨calls, c, rfl, h⟩, fun _ hc => absurd hc List.not_mem_nil⟩

theorem concat (h : LastMilestone m calls later) (hc : c.milestones = []) :
    LastMilestone m (calls ++ [c]) (later ++ [c]) := by
  obtain ⟨earlier, d, rfl, hd⟩ := h.marked
  refine ⟨⟨earlier, d, by rw [List.append_assoc, List.cons_append], hd⟩, ?_⟩
  intro d hd
  rcases List.mem_append.1 hd with hd | hd
  · exact h.quiet d hd
  · rwa [List.mem_singleton.1 hd]

/-- Whatever is counted back to, the count stops at the last milestone. -/
theorem callsSince_eq (h : LastMilestone m calls later) {marks : List Milestone} (hm : m ∈ marks) :
    callsSince marks calls = later := by
  obtain ⟨earlier, c, rfl, hc⟩ := h.marked
  have hquiet : ∀ d ∈ later.reverse, d.marksNone marks = true := by
    intro d hd
    rw [Call.marksNone, h.quiet d (List.mem_reverse.1 hd), List.all_nil]
  have hstop : ¬c.marksNone marks = true := by
    intro hall
    have hnot := List.all_eq_true.1 hall m hc
    rw [List.contains_iff_mem.2 hm] at hnot
    cases hnot
  rw [callsSince, List.rtakeWhile, List.reverse_append, List.reverse_cons, List.append_assoc,
    List.takeWhile_append_of_pos hquiet, List.singleton_append, List.takeWhile_cons_of_neg hstop,
    List.append_nil, List.reverse_reverse]

theorem samplesSince_eq (h : LastMilestone m calls later) {marks : List Milestone}
    (hm : m ∈ marks) : samplesSince marks calls = (fedSamples later).length := by
  rw [samplesSince, h.callsSince_eq hm]

/-- There is only one last milestone to count back to. -/
theorem unique {m' : Milestone} {later' : List (Call S)} (h : LastMilestone m calls later)
    (h' : LastMilestone m' calls later') : later = later' := by
  have hm : m ∈ [m, m'] := List.mem_cons_self
  have hm' : m' ∈ [m, m'] := List.mem_cons_of_mem _ (List.mem_singleton_self _)
  rw [← h.callsSince_eq hm, h'.callsSince_eq hm']

end LastMilestone

/-! ## Where the protocol stands -/

/-- Training, and so many rounds of a retrain and a swap. -/
def roundsOf (rounds : Nat) : List Milestone :=
  .trained :: (List.replicate rounds [.retrained, .swapped]).flatten

theorem roundsOf_succ (rounds : Nat) :
    roundsOf rounds ++ [.retrained] ++ [.swapped] = roundsOf (rounds + 1) := by
  rw [roundsOf, roundsOf, List.replicate_succ', List.flatten_append, List.append_assoc]
  rfl

/-- The call is not empty, and with the calls `since` it feeds an interval. -/
def Call.Reaches (interval : Nat) (since : List (Call S)) (c : Call S) : Prop :=
  c.block ≠ [] ∧ interval ≤ (fedSamples (since ++ [c])).length

/-- None of some calls brings them up to an interval. -/
def Unreached (interval : Nat) (calls : List (Call S)) : Prop :=
  ∀ before c after, calls = before ++ c :: after → ¬c.Reaches interval before

/-- What the calls since the adaptive state was discarded say of the phase and of
both counters. -/
inductive Standing (overlap : Nat) (calls : List (Call S)) (c : ChainPair) : Prop
  /-- Before training. -/
  | untrained :
    c.phase.isTrained = false →
    milestonesOfCalls calls = [] →
    c.sinceTrigger = 0 →
    Standing overlap calls c
  /-- Training or a swap was last. -/
  | steady {rounds : Nat} {m : Milestone} {later : List (Call S)} :
    c.phase = .steady →
    milestonesOfCalls calls = roundsOf rounds →
    m ∈ [Milestone.trained, .swapped] →
    LastMilestone m calls later →
    c.sinceTrigger = min (fedSamples later).length maxCount →
    Standing overlap calls c
  /-- A retrain was last. -/
  | swapPending {rounds : Nat} {later : List (Call S)} :
    c.phase = .swapPending →
    milestonesOfCalls calls = roundsOf rounds ++ [.retrained] →
    LastMilestone .retrained calls later →
    Unreached overlap later →
    c.sinceTrigger = min (fedSamples later).length maxCount →
    c.sinceRetrain = min (fedSamples later).length maxCount →
    Standing overlap calls c

theorem fedSamples_length_concat (calls : List (Call S)) (c : Call S) :
    (fedSamples (calls ++ [c])).length = (fedSamples calls).length + c.block.length := by
  rw [fedSamples_concat, List.length_append, Call.length_samples]

theorem Unreached.concat {interval : Nat} {calls : List (Call S)} {c : Call S}
    (h : Unreached interval calls) (hc : ¬c.Reaches interval calls) :
    Unreached interval (calls ++ [c]) := by
  intro before d after hsplit
  rcases List.eq_nil_or_concat after with rfl | ⟨after, last, rfl⟩
  · obtain ⟨rfl, hlast⟩ := List.append_inj' hsplit rfl
    rwa [← List.singleton_inj.1 hlast]
  · rw [List.concat_eq_append, ← List.cons_append, ← List.append_assoc] at hsplit
    exact h before d after (List.append_inj' hsplit rfl).1

theorem Unreached.front {interval : Nat} {calls more : List (Call S)}
    (h : Unreached interval (calls ++ more)) : Unreached interval calls := by
  rintro before c after rfl
  exact h before c (after ++ more) (by rw [List.append_assoc, List.cons_append])

namespace Standing

variable {overlap : Nat} {calls : List (Call S)} {c : Call S} {pair : ChainPair}

/-- The chains and the hold are no part of it. -/
theorem of_eq {pair' : ChainPair} (h : Standing overlap calls pair) (hphase : pair'.phase = pair.phase)
    (htrigger : pair'.sinceTrigger = pair.sinceTrigger)
    (hretrain : pair'.sinceRetrain = pair.sinceRetrain) : Standing overlap calls pair' := by
  cases h with
  | untrained h₁ h₂ h₃ => exact .untrained (hphase ▸ h₁) h₂ (htrigger.trans h₃)
  | steady h₁ h₂ h₃ h₄ h₅ => exact .steady (hphase.trans h₁) h₂ h₃ h₄ (htrigger.trans h₅)
  | swapPending h₁ h₂ h₃ h₄ h₅ h₆ =>
    exact .swapPending (hphase.trans h₁) h₂ h₃ h₄ (htrigger.trans h₅) (hretrain.trans h₆)

/-- An empty call changes nothing. -/
theorem idle (h : Standing overlap calls pair) (hblock : c.block = []) (hquiet : c.milestones = []) :
    Standing overlap (calls ++ [c]) pair := by
  have hlength : ∀ later : List (Call S),
      (fedSamples later).length = (fedSamples (later ++ [c])).length := by
    intro later
    rw [fedSamples_length_concat, hblock, List.length_nil, Nat.add_zero]
  have hmilestones : milestonesOfCalls (calls ++ [c]) = milestonesOfCalls calls := by
    rw [milestonesOfCalls_concat, hquiet, List.append_nil]
  cases h with
  | untrained hphase hnone htrigger =>
    exact .untrained hphase (hmilestones.trans hnone) htrigger
  | steady hphase hrounds hm hlast htrigger =>
    exact .steady hphase (hmilestones.trans hrounds) hm (hlast.concat hquiet)
      (by rw [htrigger, hlength])
  | swapPending hphase hrounds hlast hunreached htrigger hretrain =>
    exact .swapPending hphase (hmilestones.trans hrounds) (hlast.concat hquiet)
      (hunreached.concat fun hreaches => hreaches.1 hblock)
      (by rw [htrigger, hlength]) (by rw [hretrain, hlength])

/-- What a move of the protocol makes of it. -/
theorem advances {p : Plan} {range : Float32} {trailing : Trailing Sample} {pair' : ChainPair}
    (h : Standing p.settings.overlapInterval calls pair)
    (counts : p.settings.Countable) (htrained : pair.phase.isTrained = true)
    (hadvances : Advances p range trailing c.block.length pair pair' c.milestones) :
    Standing p.settings.overlapInterval (calls ++ [c]) pair' := by
  have hcount : ∀ (counter : Nat) (later : List (Call S)),
      counter = min (fedSamples later).length maxCount →
      ChainPair.count counter c.block.length
        = min (fedSamples (later ++ [c])).length maxCount := by
    rintro _ later rfl
    rw [ChainPair.count_min, fedSamples_length_concat]
  have hnone : min (fedSamples ([] : List (Call S))).length maxCount = 0 := Nat.zero_min _
  generalize hmarks : c.milestones = marks at hadvances
  have hmilestones : milestonesOfCalls (calls ++ [c]) = milestonesOfCalls calls ++ marks := by
    rw [milestonesOfCalls_concat, hmarks]
  cases hadvances with
  | untrained huntrained => rw [htrained] at huntrained; cases huntrained
  | waits lastBusy hphase =>
    cases h with
    | untrained huntrained => rw [htrained] at huntrained; cases huntrained
    | steady _ hrounds hm hlast htrigger =>
      rw [List.append_nil] at hmilestones
      exact .steady hphase (hmilestones.trans hrounds) hm (hlast.concat hmarks)
        (hcount _ _ htrigger)
    | swapPending hpending => rw [hphase] at hpending; cases hpending
  | retrains hphase =>
    cases h with
    | untrained huntrained => rw [htrained] at huntrained; cases huntrained
    | steady _ hrounds _ _ _ =>
      have hlast : LastMilestone .retrained (calls ++ [c]) [] :=
        .of_mem calls (by rw [hmarks]; exact List.mem_singleton_self _)
      exact .swapPending rfl (by rw [hmilestones, hrounds]) hlast
        (fun before d after hsplit => by simp at hsplit) hnone.symm hnone.symm
    | swapPending hpending => rw [hphase] at hpending; cases hpending
  | converges hphase hshort =>
    cases h with
    | untrained huntrained => rw [htrained] at huntrained; cases huntrained
    | steady hsteady => rw [hphase] at hsteady; cases hsteady
    | @swapPending rounds later _ hrounds hlast hunreached htrigger hretrain =>
      rw [List.append_nil] at hmilestones
      -- a call that reached the overlap would have swapped
      have hnot : ¬c.Reaches p.settings.overlapInterval later := by
        rintro ⟨_, hreaches⟩
        rw [fedSamples_length_concat] at hreaches
        rw [hretrain] at hshort
        exact absurd ((ChainPair.le_count_iff counts.overlapInterval _ _).2 hreaches)
          (Nat.not_le_of_lt hshort)
      exact .swapPending hphase (hmilestones.trans hrounds) (hlast.concat hmarks)
        (hunreached.concat hnot) (hcount _ _ htrigger) (hcount _ _ hretrain)
  | swaps hphase =>
    cases h with
    | untrained huntrained => rw [htrained] at huntrained; cases huntrained
    | steady hsteady => rw [hphase] at hsteady; cases hsteady
    | swapPending _ hrounds _ _ _ _ =>
      have hlast : LastMilestone .swapped (calls ++ [c]) [] :=
        .of_mem calls (by rw [hmarks]; exact List.mem_singleton_self _)
      exact .steady rfl (by rw [hmilestones, hrounds, roundsOf_succ])
        (List.mem_cons_of_mem _ (List.mem_singleton_self _)) hlast hnone.symm

/-- Before training there is nothing to count. -/
theorem of_untrained (h : Standing overlap calls pair) (huntrained : pair.phase.isTrained = false) :
    milestonesOfCalls calls = [] ∧ pair.sinceTrigger = 0 := by
  cases h with
  | untrained _ hnone htrigger => exact ⟨hnone, htrigger⟩
  | steady hphase => rw [hphase] at huntrained; cases huntrained
  | swapPending hphase => rw [hphase] at huntrained; cases huntrained

/-- What a call makes of it. -/
theorem fed (h : Standing c.before.plan.settings.overlapInterval calls c.before.pair)
    (holds : c.before.Holds (fedSamples calls)) (counts : c.before.plan.settings.Countable) :
    Standing c.before.plan.settings.overlapInterval (calls ++ [c]) c.fed.engine.pair := by
  have hfeeds := Call.feeds holds
  have hisTrained : c.before.pair.phase.isTrained
      = decide (c.start.plan.geometry.demand ≤ (fedSamples calls).length) := holds.isTrained
  generalize hmarks : c.milestones = marks at hfeeds
  generalize c.fed.engine.pair = pair at hfeeds
  generalize (c.start.feed c.samples).output = output at hfeeds
  have hmilestones : milestonesOfCalls (calls ++ [c]) = milestonesOfCalls calls ++ marks := by
    rw [milestonesOfCalls_concat, hmarks]
  cases hfeeds with
  | idles hblock => exact h.idle (List.map_eq_nil_iff.1 hblock) hmarks
  | gathers _ hshort =>
    have hlt : ¬c.start.plan.geometry.demand ≤ (fedSamples calls).length := by
      rw [List.length_append] at hshort
      exact Nat.not_le_of_lt (Nat.lt_of_le_of_lt (Nat.le_add_right _ _) hshort)
    rw [decide_eq_false hlt] at hisTrained
    obtain ⟨hnone, htrigger⟩ := h.of_untrained hisTrained
    exact .untrained rfl (by rw [hmilestones, hnone, List.nil_append]) htrigger
  | trains hlt =>
    rw [decide_eq_false (Nat.not_le_of_lt hlt)] at hisTrained
    obtain ⟨hnone, _⟩ := h.of_untrained hisTrained
    have hlast : LastMilestone .trained (calls ++ [c]) [] :=
      .of_mem calls (by rw [hmarks]; exact List.mem_singleton_self _)
    have hrounds : milestonesOfCalls (calls ++ [c]) = roundsOf 0 := by
      rw [hmilestones, hnone]
      rfl
    exact .steady rfl hrounds List.mem_cons_self hlast (Nat.zero_min _).symm
  | advances hle _ hadvances =>
    rw [decide_eq_true hle] at hisTrained
    rw [Call.length_samples, ← hmarks] at hadvances
    exact (h.advances counts hisTrained hadvances).of_eq rfl rfl rfl

end Standing

/-! ## Retrains and swaps -/

/-- Samples count towards a retrain from training, or from the last swap. -/
theorem Standing.sinceTrigger_of_steady {overlap : Nat} {calls : List (Call S)} {pair : ChainPair}
    (h : Standing overlap calls pair) (hphase : pair.phase = .steady) :
    pair.sinceTrigger = min (samplesSince [.trained, .swapped] calls) maxCount := by
  cases h with
  | untrained huntrained => rw [hphase] at huntrained; cases huntrained
  | steady _ _ hm hlast htrigger => rw [htrigger, hlast.samplesSince_eq hm]
  | swapPending hpending => rw [hphase] at hpending; cases hpending

namespace Call

variable {c : Call S} {calls : List (Call S)}

/-- When a call retrains the candidate. -/
theorem retrained_mem_iff (holds : c.before.Holds (fedSamples calls))
    (standing : Standing c.before.plan.settings.overlapInterval calls c.before.pair)
    (counts : c.before.plan.settings.Countable) :
    .retrained ∈ c.milestones ↔
      c.block ≠ []
        ∧ c.before.pair.phase = .steady
        ∧ c.before.plan.settings.autoRetrain = true
        ∧ c.before.plan.settings.switchInterval
            ≤ samplesSince [.trained, .swapped] calls + c.block.length
        ∧ c.reading.isNaN = false
        ∧ c.reading < c.before.plan.settings.silenceThresholdDb := by
  have hquiet := ChainPair.isBusy_eq_false_iff holds.valid c.reading
  constructor
  · intro hmem
    obtain ⟨htrained, hblock⟩ := isTrained_of_mem holds hmem (by decide)
    obtain ⟨pair, hadvances, _⟩ := advances holds htrained hblock
    obtain ⟨hphase, hauto, hinterval, hfree, _⟩ := hadvances.of_retrained hmem
    rw [standing.sinceTrigger_of_steady hphase] at hinterval
    exact ⟨hblock, hphase, hauto, (ChainPair.le_count_iff counts.switchInterval _ _).1 hinterval,
      hquiet.1 hfree⟩
  · rintro ⟨hblock, hphase, hauto, hinterval, hreading⟩
    have htrained : c.before.pair.phase.isTrained = true := by rw [hphase]; rfl
    have htrailing := holds.demand_le_trailing htrained c.samples
    obtain ⟨pair, hadvances, _⟩ := advances holds htrained hblock
    generalize c.milestones = milestones at *
    cases hadvances with
    | untrained huntrained => rw [htrained] at huntrained; cases huntrained
    | waits _ _ hwaits =>
      refine absurd ⟨hauto, ?_, htrailing, hquiet.2 hreading⟩ hwaits
      rw [standing.sinceTrigger_of_steady hphase]
      exact (ChainPair.le_count_iff counts.switchInterval _ _).2 hinterval
    | retrains => exact List.mem_singleton_self _
    | converges hpending => rw [hphase] at hpending; cases hpending
    | swaps hpending => rw [hphase] at hpending; cases hpending

/-- After a retrain the phase is that of a pending swap. -/
theorem phase_of_retrained {samples : List Sample} (holds : c.before.Holds samples)
    (hmem : .retrained ∈ c.milestones) : c.fed.engine.pair.phase = .swapPending := by
  obtain ⟨htrained, hblock⟩ := isTrained_of_mem holds hmem (by decide)
  obtain ⟨pair, hadvances, hpair, _⟩ := advances holds htrained hblock
  obtain ⟨_, _, _, _, hphase⟩ := hadvances.of_retrained hmem
  rw [hpair]
  exact hphase

/-- A swap was pending before it. -/
theorem swapPending_of_swapped {samples : List Sample} (holds : c.before.Holds samples)
    (hmem : .swapped ∈ c.milestones) : c.before.pair.phase = .swapPending := by
  obtain ⟨htrained, hblock⟩ := isTrained_of_mem holds hmem (by decide)
  obtain ⟨pair, hadvances, _⟩ := advances holds htrained hblock
  exact (hadvances.of_swapped hmem).1

/-- While a swap is pending, a call swaps if it reaches the overlap, and else marks
nothing and leaves it pending. -/
theorem of_swapPending (holds : c.before.Holds (fedSamples calls))
    (standing : Standing c.before.plan.settings.overlapInterval calls c.before.pair)
    (counts : c.before.plan.settings.Countable) {later : List (Call S)}
    (hphase : c.before.pair.phase = .swapPending) (hlast : LastMilestone .retrained calls later) :
    (c.Reaches c.before.plan.settings.overlapInterval later ∧ .swapped ∈ c.milestones)
      ∨ (¬c.Reaches c.before.plan.settings.overlapInterval later ∧ c.milestones = []
        ∧ c.fed.engine.pair.phase = .swapPending) := by
  have htrained : c.before.pair.phase.isTrained = true := by rw [hphase]; rfl
  have hretrain : c.before.pair.sinceRetrain = min (fedSamples later).length maxCount := by
    cases standing with
    | untrained huntrained => rw [htrained] at huntrained; cases huntrained
    | steady hsteady => rw [hphase] at hsteady; cases hsteady
    | swapPending _ _ hlast' _ _ hretrain => rwa [hlast.unique hlast']
  have hreaches := ChainPair.le_count_iff counts.overlapInterval (fedSamples later).length
    c.block.length
  rw [← hretrain, ← fedSamples_length_concat] at hreaches
  by_cases hblock : c.block = []
  · obtain ⟨hpair, hnone⟩ := of_nil holds hblock
    exact .inr ⟨fun h => h.1 hblock, hnone, by rw [hpair, hphase]⟩
  · obtain ⟨pair, hadvances, hpair, _⟩ := advances holds htrained hblock
    rw [hpair]
    generalize c.milestones = milestones at *
    cases hadvances with
    | untrained huntrained => rw [htrained] at huntrained; cases huntrained
    | waits _ hsteady => rw [hphase] at hsteady; cases hsteady
    | retrains hsteady => rw [hphase] at hsteady; cases hsteady
    | converges _ hshort =>
      exact .inr ⟨fun h => absurd (hreaches.2 h.2) (Nat.not_le_of_lt hshort), rfl, hphase⟩
    | swaps _ hlong => exact .inl ⟨⟨hblock, hreaches.1 hlong⟩, List.mem_singleton_self _⟩

end Call

/-! ## Every session -/

/-- The calls of a session say it of its engine. -/
theorem Session.standing {calls : List (Call S)} {e : Engine} (run : Session calls e)
    (counts : e.plan.settings.Countable) : Standing e.plan.settings.overlapInterval calls e.pair := by
  induction run with
  | created hcreate =>
    obtain ⟨p, _, _, hengine⟩ := Engine.create_eq hcreate
    rw [hengine]
    exact .untrained rfl rfl rfl
  | @fed calls e activity block earlier ih =>
    have hplan : (Call.fed ⟨e, activity, block⟩).engine.plan = e.plan :=
      Engine.Holds.feed_plan _ _
    rw [hplan] at counts ⊢
    have h := Standing.fed (c := ⟨e, activity, block⟩) (ih counts) earlier.holds counts
    exact h
  | reset => exact .untrained rfl rfl rfl
  | retuned => exact .untrained rfl rfl rfl
  | rateChanged _ hset =>
    obtain ⟨p, _, hengine⟩ := Engine.setRate_eq hset
    rw [hengine]
    exact .untrained rfl rfl rfl
  | rateRefused _ _ ih => exact ih counts
  | holdSet _ _ ih => exact (ih counts).of_eq rfl rfl rfl

/-- After a retrain a swap is pending until a call reaches the overlap. -/
theorem Session.swapPending {earlier later : List (Call S)} {r : Call S} {e : Engine}
    (run : Session (earlier ++ r :: later) e) (counts : e.plan.settings.Countable)
    (hr : .retrained ∈ r.milestones)
    (hunreached : Unreached e.plan.settings.overlapInterval later) :
    e.pair.phase = .swapPending ∧ LastMilestone .retrained (earlier ++ r :: later) later := by
  -- the calls since the retrain grow at their end, as the session does
  induction later using List.reverseRecOn generalizing e with
  | nil =>
    obtain ⟨before, held, rfl⟩ := run.last
    exact ⟨Call.phase_of_retrained before.holds hr, .of_mem earlier hr⟩
  | append_singleton later c ih =>
    rw [← List.cons_append, ← List.append_assoc] at run ⊢
    have hplan := run.plan_eq
    rw [hplan] at counts hunreached
    obtain ⟨before, held, rfl⟩ := run.last
    obtain ⟨hphase, hlast⟩ := ih before counts hunreached.front
    rcases Call.of_swapPending before.holds (before.standing counts) counts hphase hlast with
      ⟨hreaches, _⟩ | ⟨_, hnone, hpending⟩
    · exact absurd hreaches (hunreached later c [] rfl)
    · exact ⟨hpending, hlast.concat hnone⟩

/-- A call swaps when it is the first after a retrain to reach the overlap. -/
theorem Session.swapped_mem_iff {earlier : List (Call S)} {c : Call S}
    (run : Session earlier c.before) (counts : c.before.plan.settings.Countable) :
    .swapped ∈ c.milestones ↔ ∃ front r later,
      earlier = front ++ r :: later
        ∧ .retrained ∈ r.milestones
        ∧ Unreached c.before.plan.settings.overlapInterval later
        ∧ c.Reaches c.before.plan.settings.overlapInterval later := by
  have standing := run.standing counts
  constructor
  · intro hmem
    obtain ⟨htrained, _⟩ := Call.isTrained_of_mem run.holds hmem (by decide)
    have hphase := Call.swapPending_of_swapped run.holds hmem
    cases standing with
    | untrained huntrained => rw [htrained] at huntrained; cases huntrained
    | steady hsteady => rw [hphase] at hsteady; cases hsteady
    | @swapPending rounds later _ _ hlast hunreached _ _ =>
      obtain ⟨front, r, rfl, hr⟩ := hlast.marked
      rcases Call.of_swapPending run.holds (run.standing counts) counts hphase hlast with
        ⟨hreaches, _⟩ | ⟨_, hnone, _⟩
      · exact ⟨front, r, later, rfl, hr, hunreached, hreaches⟩
      · rw [hnone] at hmem
        exact absurd hmem List.not_mem_nil
  · rintro ⟨front, r, later, rfl, hr, hunreached, hreaches⟩
    obtain ⟨hphase, hlast⟩ := run.swapPending counts hr hunreached
    rcases Call.of_swapPending run.holds standing counts hphase hlast with
      ⟨_, hmem⟩ | ⟨hnot, _⟩
    · exact hmem
    · exact absurd hreaches hnot

/-- The milestones of a session, by how far training is. -/
theorem Session.milestones_eq {calls : List (Call S)} {e : Engine} (run : Session calls e)
    (counts : e.plan.settings.Countable) :
    if (fedSamples calls).length < e.plan.geometry.demand then milestonesOfCalls calls = []
    else ∃ rounds, milestonesOfCalls calls = roundsOf rounds
      ∨ milestonesOfCalls calls = roundsOf rounds ++ [.retrained] := by
  have htrained := run.holds.isTrained
  split
  next hlt =>
    rw [decide_eq_false (Nat.not_le_of_lt hlt)] at htrained
    exact ((run.standing counts).of_untrained htrained).1
  next hle =>
    rw [decide_eq_true (Nat.le_of_not_lt hle)] at htrained
    cases run.standing counts with
    | untrained huntrained => rw [htrained] at huntrained; cases huntrained
    | steady _ hrounds => exact ⟨_, .inl hrounds⟩
    | swapPending _ hrounds => exact ⟨_, .inr hrounds⟩

/-- The counter of a session, by how far training is. -/
theorem Session.sinceTrigger_eq {calls : List (Call S)} {e : Engine} (run : Session calls e)
    (counts : e.plan.settings.Countable) :
    e.pair.sinceTrigger = if (fedSamples calls).length < e.plan.geometry.demand then 0
      else min (samplesSince [.trained, .retrained, .swapped] calls) maxCount := by
  have htrained := run.holds.isTrained
  split
  next hlt =>
    rw [decide_eq_false (Nat.not_le_of_lt hlt)] at htrained
    exact ((run.standing counts).of_untrained htrained).2
  next hle =>
    rw [decide_eq_true (Nat.le_of_not_lt hle)] at htrained
    cases run.standing counts with
    | untrained huntrained => rw [htrained] at huntrained; cases huntrained
    | @steady rounds m later _ _ hm hlast htrigger =>
      have hmarks : m ∈ [Milestone.trained, .retrained, .swapped] := by
        rcases List.mem_cons.1 hm with rfl | hm
        · exact List.mem_cons_self
        · exact List.mem_cons_of_mem _ (List.mem_cons_of_mem _ hm)
      rw [htrigger, hlast.samplesSince_eq hmarks]
    | swapPending _ _ hlast _ htrigger =>
      rw [htrigger, hlast.samplesSince_eq (List.mem_cons_of_mem _ List.mem_cons_self)]

/-- The protocol over any session, seen from the calls since the adaptive state was
last discarded: the phase between calls, the milestones, the counter, and for each
call when it retrains and when it swaps. -/
theorem retrain_swap_protocol {calls : List (Call S)} {e : Engine} (run : Session calls e)
    (counts : e.plan.settings.Countable) :
    let s := e.plan.settings
    let n := (fedSamples calls).length
    let demand := e.plan.geometry.demand
    (e.pair.phase ≠ .retraining
        ∧ (e.pair.phase = .uninitialized ↔ n = 0)
        ∧ (e.pair.phase = .training ↔ 0 < n ∧ n < demand)
        ∧ (e.pair.phase = .steady ∨ e.pair.phase = .swapPending ↔ demand ≤ n))
      ∧ (if n < demand then milestonesOfCalls calls = []
        else ∃ rounds, milestonesOfCalls calls = roundsOf rounds
          ∨ milestonesOfCalls calls = roundsOf rounds ++ [.retrained])
      ∧ (e.pair.sinceTrigger = if n < demand then 0
        else min (samplesSince [.trained, .retrained, .swapped] calls) maxCount)
      ∧ ∀ earlier c later, calls = earlier ++ c :: later →
        (.retrained ∈ c.milestones ↔
          c.block ≠ []
            ∧ c.before.pair.phase = .steady
            ∧ s.autoRetrain = true
            ∧ s.switchInterval ≤ samplesSince [.trained, .swapped] earlier + c.block.length
            ∧ c.reading.isNaN = false
            ∧ c.reading < s.silenceThresholdDb)
        ∧ (.swapped ∈ c.milestones ↔ ∃ front r since,
          earlier = front ++ r :: since
            ∧ .retrained ∈ r.milestones
            ∧ Unreached s.overlapInterval since
            ∧ c.Reaches s.overlapInterval since) := by
  intro s n demand
  refine ⟨run.holds.phase_iff, run.milestones_eq counts, run.sinceTrigger_eq counts, ?_⟩
  rintro earlier c later rfl
  have before := run.before
  have hplan := run.plan_eq
  have hcounts : c.before.plan.settings.Countable := by rwa [← hplan]
  have hsettings : s = c.before.plan.settings := congrArg Plan.settings hplan
  rw [hsettings]
  exact ⟨Call.retrained_mem_iff before.holds (before.standing hcounts) hcounts,
    before.swapped_mem_iff hcounts⟩

end Session

/-- A session whose third call swaps, since the second retrained. -/
theorem retrain_swap_protocol_specimen :
    Specimen.third.fed.engine.plan.settings.Countable ∧ ∃ front r since,
      [Specimen.first, Specimen.second] = front ++ r :: since
        ∧ .retrained ∈ r.milestones
        ∧ Unreached Specimen.third.fed.engine.plan.settings.overlapInterval since
        ∧ Specimen.third.Reaches Specimen.third.fed.engine.plan.settings.overlapInterval since := by
  have counts : Specimen.third.fed.engine.plan.settings.Countable :=
    ⟨by decide +kernel, by decide +kernel⟩
  have hmem : .swapped ∈ Specimen.third.milestones := by decide +kernel
  obtain ⟨_, _, _, hcalls⟩ := retrain_swap_protocol Specimen.session counts
  have hthird := hcalls [Specimen.first, Specimen.second] Specimen.third [] rfl
  exact ⟨counts, hthird.2.1 hmem⟩

end Denoise
