import Denoise.Proofs.Protocol

/-!
# What a swap promotes

A swap promotes the candidate as the call finds it, before any frame of the call.
The protocol counts the samples of a block at once, also those that are in no
whole frame yet.  So the overlap may be reached while the candidate has heard
nothing since its retrain.  Then it goes on with no memory, and its first hop
overlaps a tail of zeros.

Whether it has heard a frame depends on two numbers of samples only
(`promoted_candidate`): those fed before the call that retrained it, and those fed
before the call that promotes it.  There is a frame if they are in different
hops.  If the block of the swap is short against the overlap, there is always one
(`promoted_memory_of_short_block`).
-/

namespace Denoise

/-! ## What a chain has heard -/

namespace Chain

/-- A chain that remembers no frame. -/
structure Blank (g : Geometry) (c : Chain) : Prop where
  /-- There is no power estimated for a last frame. -/
  clean : c.memory.clean = none
  /-- The next hop overlaps with zeros. -/
  tail : c.memory.tail = List.replicate g.tailLen 0

/-- A chain as a step over a frame has left it. -/
def Heard (p : Plan) (frame : List Sample) (c : Chain) : Prop :=
  ∃ (held : Bool) (earlier : Chain), c = (earlier.step p held (p.spectrum frame)).chain

theorem Heard.clean_ne_none {p : Plan} {frame : List Sample} {c : Chain} (h : c.Heard p frame) :
    c.memory.clean ≠ none := by
  obtain ⟨held, earlier, rfl⟩ := h
  simp [step, Gain.estimate]

/-- A chain that is sampled anew forgets what it heard. -/
theorem Sized.blank_resample {p : Plan} {c : Chain} (h : c.Sized p.geometry)
    (samples : List Sample) : (c.resample p samples).Blank p.geometry where
  clean := rfl
  tail := by rw [Chain.resample, Gain.Memory.reset, h.memory.tail]; rfl

/-- What a chain has heard of a stretch, if it was blank after `start` samples: the
last whole frame, and nothing if none became whole since. -/
structure HeardSince (p : Plan) (start : Nat) (samples : List Sample) (c : Chain) : Prop where
  /-- There is a new frame. -/
  heard : start / p.geometry.hop < samples.length / p.geometry.hop →
    c.Heard p (Batch.frameAt p.geometry samples (samples.length / p.geometry.hop - 2))
  /-- There is none. -/
  blank : samples.length / p.geometry.hop ≤ start / p.geometry.hop → c.Blank p.geometry

theorem Blank.heardSince {p : Plan} {c : Chain} (h : c.Blank p.geometry) (samples : List Sample) :
    c.HeardSince p samples.length samples :=
  ⟨fun hlt => absurd hlt (Nat.lt_irrefl _), fun _ => h⟩

namespace HeardSince

variable {p : Plan} {start : Nat} {samples : List Sample} {c : Chain}

/-- The frames that come with a block are heard, the last one last. -/
theorem along (h : c.HeardSince p start samples) (hstart : start ≤ samples.length)
    (hle : p.geometry.frameLen ≤ samples.length) (held : Bool) (block : List Sample) :
    (c.along p held (Batch.frames p.geometry
      (Batch.rest p.geometry samples ++ block))).HeardSince p start (samples ++ block) := by
  have htwo : 2 ≤ samples.length / p.geometry.hop :=
    (Nat.le_div_iff_mul_le p.geometry.hop_pos).2 hle
  have hhops : start / p.geometry.hop ≤ samples.length / p.geometry.hop :=
    Nat.div_le_div_right hstart
  have hcount := Batch.length_frames_rest_append p.geometry samples block
  simp only [Batch.frameCount] at hcount
  -- a chain is as its last frame left it, so only the last of the new ones matters
  rcases List.eq_nil_or_concat (Batch.frames p.geometry (Batch.rest p.geometry samples ++ block))
    with hnone | ⟨front, frame, hframes⟩
  · rw [hnone, List.length_nil] at hcount
    have hsame : (samples ++ block).length / p.geometry.hop = samples.length / p.geometry.hop := by
      omega
    have hwhole : samples.length / p.geometry.hop - 2
        < Batch.frameCount p.geometry samples.length := by
      rw [Batch.frameCount]
      omega
    have hframe := Batch.frameAt_append hwhole block
    rw [hnone, along_nil]
    exact ⟨by rw [hsame, hframe]; exact h.heard, by rw [hsame]; exact h.blank⟩
  · rw [List.concat_eq_append] at hframes
    have hframe := Batch.frameAt_of_frames_concat hframes
    rw [hframes, List.length_append, List.length_singleton] at hcount
    rw [Batch.frameCount, Nat.sub_sub] at hframe
    rw [hframes, along_append]
    refine ⟨fun _ => ?_, fun hnone => by omega⟩
    rw [← hframe]
    exact ⟨held, c.along p held front, rfl⟩

theorem clean_ne_none_iff (h : c.HeardSince p start samples) :
    c.memory.clean ≠ none ↔ start / p.geometry.hop < samples.length / p.geometry.hop := by
  constructor
  · intro hclean
    by_contra hnone
    exact hclean (h.blank (Nat.le_of_not_lt hnone)).clean
  · exact fun hnew => (h.heard hnew).clean_ne_none

end HeardSince

end Chain

/-! ## While a swap is pending -/

section Session

variable {S : Type} [SampleKind S]

/-- The candidate since the call `r` retrained it, with the calls before and since. -/
structure Converging (p : Plan) (front : List (Call S)) (r : Call S) (since : List (Call S))
    (pair : ChainPair) : Prop where
  /-- The retrain. -/
  retrained : .retrained ∈ r.milestones
  /-- It fed something. -/
  fed : r.block ≠ []
  /-- There was no milestone since. -/
  quiet : ∀ c ∈ since, c.milestones = []
  /-- No more was counted than was fed. -/
  counted : pair.sinceRetrain ≤ (fedSamples since).length
  /-- The candidate heard the frames that became whole. -/
  heard : pair.candidate.HeardSince p (fedSamples front).length
    (fedSamples (front ++ r :: since))

namespace Converging

variable {p : Plan} {front since : List (Call S)} {r c : Call S} {pair : ChainPair}

/-- A call that marks nothing only adds to it. -/
theorem concat (h : Converging p front r since pair)
    (hle : p.geometry.frameLen ≤ (fedSamples (front ++ r :: since)).length)
    (hc : c.milestones = []) {pair' : ChainPair} {held : Bool}
    (hcounted : pair'.sinceRetrain ≤ pair.sinceRetrain + c.block.length)
    (hcandidate : pair'.candidate = pair.candidate.along p held (Batch.frames p.geometry
      (Batch.rest p.geometry (fedSamples (front ++ r :: since)) ++ c.samples))) :
    Converging p front r (since ++ [c]) pair' where
  retrained := h.retrained
  fed := h.fed
  quiet := by
    intro d hd
    rcases List.mem_append.1 hd with hd | hd
    · exact h.quiet d hd
    · rwa [List.mem_singleton.1 hd]
  counted := by
    rw [fedSamples_length_concat]
    exact Nat.le_trans hcounted (Nat.add_le_add_right h.counted _)
  heard := by
    have hstart : (fedSamples front).length ≤ (fedSamples (front ++ r :: since)).length := by
      rw [fedSamples_append, List.length_append]
      exact Nat.le_add_right _ _
    rw [← List.cons_append, ← List.append_assoc, fedSamples_concat, hcandidate]
    exact h.heard.along hstart hle held c.samples

end Converging

namespace Call

variable {c : Call S} {calls : List (Call S)}

/-- No swap is pending right after training. -/
theorem phase_ne_of_untrained (holds : c.before.Holds (fedSamples calls))
    (huntrained : c.before.pair.phase.isTrained = false) :
    c.fed.engine.pair.phase ≠ .swapPending := by
  have hshort : ¬c.start.plan.geometry.demand ≤ (fedSamples calls).length :=
    of_decide_eq_false (holds.isTrained.symm.trans huntrained)
  have hfeeds := feeds holds
  generalize c.milestones = milestones at hfeeds
  generalize c.fed.engine.pair = pair at *
  generalize (c.start.feed c.samples).output = output at hfeeds
  cases hfeeds with
  | idles =>
    intro hpending
    rw [show c.before.pair.phase = .swapPending from hpending] at huntrained
    cases huntrained
  | gathers => exact fun hpending => Phase.noConfusion hpending
  | trains => exact fun hpending => Phase.noConfusion hpending
  | advances hle => exact absurd hle hshort

/-- What is known of the candidate while a swap is pending, one call later. -/
theorem converging (holds : c.before.Holds (fedSamples calls))
    (h : c.before.pair.phase = .swapPending → ∃ front r since,
      calls = front ++ r :: since ∧ Converging c.before.plan front r since c.before.pair)
    (hpending : c.fed.engine.pair.phase = .swapPending) :
    ∃ front r since, calls ++ [c] = front ++ r :: since
      ∧ Converging c.before.plan front r since c.fed.engine.pair := by
  have htrained : c.before.pair.phase.isTrained = true := by
    cases huntrained : c.before.pair.phase.isTrained with
    | true => rfl
    | false => exact absurd hpending (phase_ne_of_untrained holds huntrained)
  have hdemand : c.before.plan.geometry.demand ≤ (fedSamples calls).length :=
    of_decide_eq_true (holds.isTrained.symm.trans htrained)
  have hle := Nat.le_trans (Nat.le_of_lt c.before.plan.geometry.frameLen_lt_demand) hdemand
  by_cases hblock : c.block = []
  · obtain ⟨hpair, hnone⟩ := of_nil holds hblock
    have hsamples : c.samples = [] := List.map_eq_nil_iff.2 hblock
    rw [hpair] at hpending ⊢
    obtain ⟨front, r, since, rfl, hconverging⟩ := h hpending
    have hcandidate : c.before.pair.candidate
        = c.before.pair.candidate.along c.before.plan c.before.pair.held
          (Batch.frames c.before.plan.geometry (Batch.rest c.before.plan.geometry
            (fedSamples (front ++ r :: since)) ++ c.samples)) := by
      rw [hsamples, Batch.frames_rest_append_nil, Chain.along_nil]
    exact ⟨front, r, since ++ [c], by simp,
      hconverging.concat hle hnone (Nat.le_add_right _ _) hcandidate⟩
  · obtain ⟨pair, hadvances, hpair, _⟩ := advances holds htrained hblock
    rw [hpair] at hpending ⊢
    generalize hmarks : c.milestones = milestones at hadvances
    cases hadvances with
    | untrained huntrained => rw [htrained] at huntrained; cases huntrained
    | waits _ hsteady => cases hsteady.symm.trans hpending
    | retrains _ _ _ _ _ =>
      have hblank := holds.sized.candidate.blank_resample
        ((c.before.trailing.push c.samples).recent c.before.plan.geometry.demand)
      refine ⟨calls, c, [], rfl, ⟨by rw [hmarks]; exact List.mem_singleton_self _, hblock,
        fun _ hc => absurd hc List.not_mem_nil, Nat.zero_le _, ?_⟩⟩
      rw [fedSamples_concat]
      exact (hblank.heardSince _).along (Nat.le_refl _) hle _ _
    | converges hphase =>
      obtain ⟨front, r, since, rfl, hconverging⟩ := h hphase
      refine ⟨front, r, since ++ [c], by simp, hconverging.concat hle hmarks ?_ rfl⟩
      exact Nat.min_le_left _ _
    | swaps => cases hpending

end Call

/-- While a swap is pending there is the call that retrained the candidate. -/
theorem Session.converging {calls : List (Call S)} {e : Engine} (run : Session calls e)
    (hpending : e.pair.phase = .swapPending) :
    ∃ front r since, calls = front ++ r :: since ∧ Converging e.plan front r since e.pair := by
  induction run with
  | created hcreate =>
    obtain ⟨p, _, _, hengine⟩ := Engine.create_eq hcreate
    rw [hengine] at hpending
    cases hpending
  | @fed calls e activity block earlier ih =>
    have hplan : (Call.fed ⟨e, activity, block⟩).engine.plan = e.plan := Call.fed_plan _
    rw [hplan]
    exact Call.converging (c := ⟨e, activity, block⟩) earlier.holds ih hpending
  | reset => cases hpending
  | retuned => cases hpending
  | rateChanged _ hset =>
    obtain ⟨p, _, hengine⟩ := Engine.setRate_eq hset
    rw [hengine] at hpending
    cases hpending
  | rateRefused _ _ ih => exact ih hpending
  | holdSet _ _ ih =>
    obtain ⟨front, r, since, hcalls, h⟩ := ih hpending
    exact ⟨front, r, since, hcalls, ⟨h.retrained, h.fed, h.quiet, h.counted, h.heard⟩⟩

/-! ## The swap -/

/-- What a swap promotes is the candidate as the call finds it, and its hops are those
that the call puts out. -/
theorem Call.output_of_swapped {c : Call S} {samples : List Sample}
    (holds : c.before.Holds samples) (hc : .swapped ∈ c.milestones) :
    c.before.plan.settings.overlapInterval ≤ c.before.pair.sinceRetrain + c.block.length
      ∧ c.fed.output = ((c.before.pair.candidate.hops c.before.plan c.before.pair.held
        (Batch.frames c.before.plan.geometry
          (Batch.rest c.before.plan.geometry samples ++ c.samples))).flatten).map
        SampleKind.ofPhasor := by
  obtain ⟨htrained, hblock⟩ := isTrained_of_mem holds hc (by decide)
  obtain ⟨pair, hadvances, _, houtput⟩ := advances holds htrained hblock
  obtain ⟨_, hoverlap, hactive, hheld⟩ := hadvances.of_swapped hc
  rw [houtput, hactive, hheld]
  exact ⟨Nat.le_trans hoverlap (Nat.min_le_left _ _), rfl⟩

/-- A call that swaps publishes the hops of the candidate it found.  That candidate
remembers a frame exactly if one became whole between the call that retrained it and
this call.  Then it is as a step over the frame before has left it.  Otherwise its
first hop overlaps a tail of zeros. -/
theorem promoted_candidate {earlier later : List (Call S)} {c : Call S} {e : Engine}
    (run : Session (earlier ++ c :: later) e) (hc : .swapped ∈ c.milestones) :
    let g := e.plan.geometry
    let x := fedSamples earlier
    let promoted := c.before.pair.candidate
    c.fed.output = ((promoted.hops e.plan c.before.pair.held
        (Batch.frames g (Batch.rest g x ++ c.samples))).flatten).map SampleKind.ofPhasor
      ∧ ∃ front r since, earlier = front ++ r :: since
        ∧ .retrained ∈ r.milestones
        ∧ (∀ d ∈ since, d.milestones = [])
        ∧ (promoted.memory.clean ≠ none
          ↔ (fedSamples front).length / g.hop < x.length / g.hop)
        ∧ ((fedSamples front).length / g.hop < x.length / g.hop →
          promoted.Heard e.plan (Batch.frameAt g x (x.length / g.hop - 2)))
        ∧ (x.length / g.hop ≤ (fedSamples front).length / g.hop →
          promoted.memory.tail = List.replicate g.tailLen 0) := by
  intro g x promoted
  have hplan := run.plan_eq
  have before := run.before
  have hpending := Call.swapPending_of_swapped before.holds hc
  obtain ⟨front, r, since, rfl, h⟩ := before.converging hpending
  obtain ⟨_, houtput⟩ := Call.output_of_swapped before.holds hc
  rw [← hplan] at h houtput
  exact ⟨houtput, front, r, since, rfl, h.retrained, h.quiet, h.heard.clean_ne_none_iff,
    h.heard.heard, fun hnone => (h.heard.blank hnone).tail⟩

/-- If the block of the swap and a hop are within the overlap, the candidate
remembers a frame. -/
theorem promoted_memory_of_short_block {earlier later : List (Call S)} {c : Call S} {e : Engine}
    (run : Session (earlier ++ c :: later) e) (hc : .swapped ∈ c.milestones)
    (hshort : c.block.length + e.plan.geometry.hop ≤ e.plan.settings.overlapInterval + 1) :
    c.before.pair.candidate.memory.clean ≠ none := by
  have before := run.before
  rw [run.plan_eq] at hshort
  have hpending := Call.swapPending_of_swapped before.holds hc
  obtain ⟨front, r, since, rfl, h⟩ := before.converging hpending
  obtain ⟨hoverlap, _⟩ := Call.output_of_swapped before.holds hc
  have hcounted := h.counted
  have hfed := List.length_pos_iff.2 h.fed
  have hlength : (fedSamples front).length + c.before.plan.geometry.hop
      ≤ (fedSamples (front ++ r :: since)).length := by
    rw [fedSamples_append, fedSamples_cons, List.length_append, List.length_append,
      Call.length_samples]
    omega
  have hhop := Nat.div_le_div_right (c := c.before.plan.geometry.hop) hlength
  rw [Nat.add_div_right _ c.before.plan.geometry.hop_pos] at hhop
  exact h.heard.clean_ne_none_iff.2 hhop

end Session

/-- A session that promotes a candidate which has heard nothing since its retrain. -/
theorem promoted_candidate_specimen :
    Specimen.third.before.pair.candidate.memory.clean = none ∧ ∃ front r since,
      [Specimen.first, Specimen.second] = front ++ r :: since
        ∧ .retrained ∈ r.milestones
        ∧ Specimen.third.before.pair.candidate.memory.tail
          = List.replicate Specimen.third.fed.engine.plan.geometry.tailLen 0 := by
  have hc : .swapped ∈ Specimen.third.milestones := by decide +kernel
  have hnone : Specimen.third.before.pair.candidate.memory.clean = none := by decide +kernel
  have run : Session ([Specimen.first, Specimen.second] ++ [Specimen.third])
      Specimen.third.fed.engine := Specimen.session
  obtain ⟨_, front, r, since, hsplit, hr, _, hclean, _, htail⟩ := promoted_candidate run hc
  have hsame := Nat.le_of_not_lt fun hnew => hclean.2 hnew hnone
  exact ⟨hnone, front, r, since, hsplit, hr, htail hsame⟩

end Denoise
