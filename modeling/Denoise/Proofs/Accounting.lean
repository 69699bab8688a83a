import Denoise.Proofs.Session

/-!
# Sample accounting

How much an engine has put out, how much it buffers and how each call ends are
functions of the number of samples fed since its adaptive state was last
discarded (`sample_accounting`).  Retrains, swaps and the sizes of the blocks do
not matter, since a step over a whole frame gives one hop whichever chain is
heard.
-/

namespace Denoise

/-- The samples put out for so many that were fed. -/
def Geometry.yield (g : Geometry) (fed : Nat) : Nat :=
  if fed < g.demand then 0 else (fed / g.hop - 1) * g.hop

/-- A block puts out what the longer stretch yields over the shorter. -/
theorem Feeds.length_output {e : Engine} {samples block output : List Sample} {pair : ChainPair}
    {milestones : List Milestone} (h : Feeds e samples block pair output milestones)
    (holds : e.Holds samples) :
    e.plan.geometry.yield samples.length + output.length
      = e.plan.geometry.yield (samples ++ block).length := by
  have hlength : (samples ++ block).length = samples.length + block.length := List.length_append
  cases h with
  | idles hblock => rw [hblock, List.append_nil, List.length_nil, Nat.add_zero]
  | gathers _ hshort =>
    rw [Geometry.yield, Geometry.yield, if_pos hshort, if_pos (by omega), List.length_nil]
  | trains hlt hle htrained =>
    subst htrained
    rw [Chain.length_hops (holds.sized.active.train _) fun f hf => Batch.length_of_mem_frames hf,
      Batch.length_frames, Geometry.yield, Geometry.yield, if_pos hlt,
      if_neg (Nat.not_lt_of_le hle), Nat.zero_add, Batch.frameCount]
  | advances hle _ hadvances =>
    have hsized := (hadvances.sized holds.sized).active
    rw [Chain.length_hops hsized fun f hf => Batch.length_of_mem_frames hf, Geometry.yield,
      Geometry.yield, if_neg (by omega), if_neg (by omega), ← Batch.frameCount, ← Batch.frameCount,
      ← Nat.add_mul, Batch.length_frames_rest_append]

/-- How a call ends, by what it left and what it put out. -/
theorem Engine.feed_outcome (e : Engine) (block : List Sample) :
    (e.feed block).outcome
      = if !(e.feed block).engine.pair.phase.isTrained then
          .starved (e.feed block).engine.input.length e.plan.geometry.demand
        else if (e.feed block).output.length = 0 then
          .starved (e.feed block).engine.input.length e.plan.geometry.frameLen
        else .produced (e.feed block).output.length := by
  rfl

/-- A call produces what it puts out, and starves if that is nothing. -/
theorem Engine.Holds.outcome {samples : List Sample} {e : Engine} (h : e.Holds samples)
    (block : List Sample) :
    (e.feed block).outcome
      = if (e.feed block).output.length = 0 then
          .starved (e.feed block).engine.input.length
            (if (samples ++ block).length < e.plan.geometry.demand then e.plan.geometry.demand
              else e.plan.geometry.frameLen)
        else .produced (e.feed block).output.length := by
  have htrained := (h.feed block).isTrained
  rw [feed_plan] at htrained
  rw [Engine.feed_outcome, htrained]
  by_cases hshort : (samples ++ block).length < e.plan.geometry.demand
  · have hyield := (h.feeds block).length_output h
    have hnone : (e.feed block).output.length = 0 := by
      rw [Geometry.yield, Geometry.yield, if_pos hshort] at hyield
      omega
    rw [decide_eq_false (Nat.not_le_of_lt hshort), if_pos hnone, if_pos hnone, if_pos hshort]
    rfl
  · rw [decide_eq_true (Nat.le_of_not_lt hshort), if_neg hshort]
    simp only [Bool.not_true, Bool.false_eq_true, if_false]

section Session

variable {S : Type} [SampleKind S]

/-- The output of a session has the length that the stretch yields. -/
theorem Session.length_outputOf {calls : List (Call S)} {e : Engine} (run : Session calls e) :
    (outputOf calls).length = e.plan.geometry.yield (fedSamples calls).length := by
  have hnothing : ∀ g : Geometry, g.yield 0 = 0 := by
    intro g
    rw [Geometry.yield, if_pos (Nat.lt_trans g.frameLen_pos g.frameLen_lt_demand)]
  induction run with
  | created => exact (hnothing _).symm
  | reset => exact (hnothing _).symm
  | retuned => exact (hnothing _).symm
  | rateChanged => exact (hnothing _).symm
  | rateRefused _ _ ih => exact ih
  | holdSet _ _ ih => exact ih
  | @fed calls e activity block earlier ih =>
    have holds := earlier.holds.with_activity activity
    have hyield := (holds.feeds (block.map SampleKind.toPhasor)).length_output holds
    have hplan : (Call.fed ⟨e, activity, block⟩).engine.plan = e.plan :=
      Engine.Holds.feed_plan _ _
    rw [outputOf_concat, fedSamples_concat, List.length_append, ih, Call.fed_output,
      List.length_map, hplan]
    exact hyield

/-- After any session, with `n` samples fed since the adaptive state was last
discarded: what was put out, what is buffered, what the trailing queue has, and
how the last call ended.

The demand and the frame are natural numbers, which words hold under `Geometry.Fits`.
Calls that differ in the kind of their samples are covered by `Session.fed_any`. -/
theorem sample_accounting {calls : List (Call S)} {e : Engine} (run : Session calls e) :
    let g := e.plan.geometry
    let n := (fedSamples calls).length
    let demand := if n < g.demand then g.demand else g.frameLen
    (outputOf calls).length = (if n < g.demand then 0 else (n / g.hop - 1) * g.hop)
      ∧ e.input.length = (if n < g.demand then n else g.hop + n % g.hop)
      ∧ e.input.length < demand
      ∧ e.trailing.length = min n g.demand
      ∧ ∀ earlier c, calls = earlier ++ [c] →
          (∀ count, c.fed.outcome = .produced count ↔ c.fed.output.length = count ∧ 0 < count)
            ∧ (c.fed.output.length = 0 → c.fed.outcome = .starved e.input.length demand) := by
  intro g n demand
  have holds := run.holds
  have hinput : e.input.length = if n < g.demand then n else g.hop + n % g.hop := by
    rw [holds.input]
    split
    next => rfl
    next hle =>
      exact Batch.length_rest_of_le
        (Nat.le_trans (Nat.le_of_lt g.frameLen_lt_demand) (Nat.le_of_not_lt hle))
  refine ⟨run.length_outputOf, hinput, ?_, ?_, ?_⟩
  · have hmod := Nat.mod_lt n g.hop_pos
    rw [hinput]
    simp only [demand]
    split
    next hlt => exact hlt
    next => rw [Geometry.frameLen]; omega
  · rw [Trailing.length, holds.trailing, List.length_drop]
    exact Nat.sub_sub_eq_min n g.demand
  · rintro earlier c rfl
    obtain ⟨before, held, rfl⟩ := run.last
    have hg : g = c.start.plan.geometry :=
      congrArg Plan.geometry (Engine.Holds.feed_plan c.start c.samples)
    have hn : n = (fedSamples earlier ++ c.samples).length :=
      congrArg List.length (fedSamples_concat earlier c)
    have houtcome : c.fed.outcome = if c.fed.output.length = 0 then
        .starved c.fed.engine.input.length demand else .produced c.fed.output.length := by
      rw [Call.fed_outcome, (Call.start_holds before.holds).outcome, Call.fed_output,
        List.length_map]
      simp only [demand, hg, hn]
      rfl
    rw [houtcome]
    refine ⟨fun count => ?_, fun hnone => if_pos hnone⟩
    split
    next hnone =>
      refine ⟨fun h => (by cases h), fun h => ?_⟩
      omega
    next hsome =>
      refine ⟨fun h => ?_, fun h => by rw [h.1]⟩
      obtain rfl := Outcome.produced.inj h
      exact ⟨rfl, Nat.pos_of_ne_zero hsome⟩

end Session

/-- The accounts of a session that trains, retrains and promotes the candidate. -/
theorem sample_accounting_specimen :
    (outputOf [Specimen.first, Specimen.second, Specimen.third]).length = (10 / 2 - 1) * 2
      ∧ Specimen.third.fed.engine.input.length = 2 + 10 % 2 := by
  obtain ⟨houtput, hinput, -⟩ := sample_accounting Specimen.session
  exact ⟨houtput, hinput⟩

end Denoise
