import Denoise.Proofs.Session

/-!
# Streaming and the stretch as a whole

However a stretch is cut into blocks, an engine puts out what `Batch.process`
makes of the whole of it, and its active chain is the one that is left there
(`streaming_eq_batch`).  The hold has to stay as it is, and no swap may have
happened.  Retrains of the candidate are allowed, since a candidate is not heard.

A batch over a longer stretch goes on where the one over the shorter stretch
ended (`Batch.process_append`), with the frames of the rest and of the new
samples.  These are the frames that the engine hears when the block arrives.
-/

namespace Denoise

/-! ## The batch as a run along its frames -/

namespace Batch

theorem foldl_step (p : Plan) (held : Bool) (frames : List (List Sample)) (r : Result) :
    frames.foldl (Result.step p held) r
      = ⟨r.chain.along p held frames, r.output ++ (r.chain.hops p held frames).flatten⟩ := by
  induction frames generalizing r with
  | nil => simp [Chain.hops]
  | cons frame frames ih =>
    rw [List.foldl_cons, ih]
    simp only [Result.step, Chain.along_cons, Chain.hops, List.flatten_cons, List.append_assoc]

theorem process_of_lt {p : Plan} {held : Bool} {samples : List Sample}
    (h : samples.length < p.geometry.demand) : process p held samples = ⟨.fresh p, []⟩ := by
  rw [process, if_pos h]

theorem process_of_le {p : Plan} {held : Bool} {samples : List Sample} {trained : Chain}
    (h : p.geometry.demand ≤ samples.length)
    (htrained : trained = (Chain.fresh p).train p (samples.take p.geometry.demand)) :
    process p held samples
      = ⟨trained.along p held (frames p.geometry samples),
        (trained.hops p held (frames p.geometry samples)).flatten⟩ := by
  rw [process, if_neg (Nat.not_lt_of_le h), foldl_step, ← htrained]
  rfl

/-- Once a stretch has trained the chain, a longer one only adds frames. -/
theorem process_append {p : Plan} {held : Bool} {samples : List Sample}
    (h : p.geometry.demand ≤ samples.length) (more : List Sample) :
    process p held (samples ++ more)
      = ⟨(process p held samples).chain.along p held
          (frames p.geometry (rest p.geometry samples ++ more)),
        (process p held samples).output ++ ((process p held samples).chain.hops p held
          (frames p.geometry (rest p.geometry samples ++ more))).flatten⟩ := by
  have hlong : p.geometry.demand ≤ (samples ++ more).length := by
    rw [List.length_append]
    omega
  rw [process_of_le h rfl, process_of_le hlong rfl, List.take_append_of_le_length h,
    frames_append, Chain.along_append, Chain.hops_append, List.flatten_append]

end Batch

/-! ## One block -/

/-- No move of the protocol but a swap touches the active chain. -/
theorem Advances.active_eq {p : Plan} {range : Float32} {trailing : Trailing Sample} {samples : Nat}
    {c pair : ChainPair} {milestones : List Milestone}
    (h : Advances p range trailing samples c pair milestones)
    (noSwap : Milestone.swapped ∉ milestones) : pair.active = c.active := by
  cases h with
  | untrained => rfl
  | waits => rfl
  | retrains => rfl
  | converges => rfl
  | swaps => exact absurd (List.mem_singleton_self _) noSwap

/-- A block takes the batch over a stretch to the batch over the stretch and the
block. -/
theorem Feeds.batch {e : Engine} {samples block output : List Sample} {pair : ChainPair}
    {milestones : List Milestone} (h : Feeds e samples block pair output milestones)
    (holds : e.Holds samples) (noSwap : Milestone.swapped ∉ milestones)
    (active : e.pair.active = (Batch.process e.plan e.pair.held samples).chain) :
    Batch.process e.plan e.pair.held (samples ++ block)
      = ⟨pair.active, (Batch.process e.plan e.pair.held samples).output ++ output⟩ := by
  cases h with
  | idles hblock =>
    rw [hblock, List.append_nil, List.append_nil, active]
  | gathers hblock hshort =>
    have hlt : samples.length < e.plan.geometry.demand := by
      rw [List.length_append] at hshort
      omega
    rw [Batch.process_of_lt hshort, Batch.process_of_lt hlt, List.append_nil, (holds.fresh hlt).1]
  | trains hlt hle htrained =>
    rw [(holds.fresh hlt).1] at htrained
    rw [Batch.process_of_le hle htrained, Batch.process_of_lt hlt, List.nil_append]
    rfl
  | advances hle hblock hadvances =>
    rw [Batch.process_append hle, ← active, ← hadvances.active_eq noSwap, ← hadvances.held_eq]
    rfl

/-! ## Every session -/

section Session

variable {S : Type} [SampleKind S]

/-- The output of a session, and its active chain, are those of the batch over all
samples that it was fed.

Both cut frames by the same sizes, which words hold under `Geometry.Fits`.  Calls that
differ in the kind of their samples are covered by `Session.fed_any`. -/
theorem streaming_eq_batch {calls : List (Call S)} {e : Engine} (run : Session calls e)
    (held : Bool) (hold : ∀ c ∈ calls, c.before.pair.held = held)
    (noSwap : ∀ c ∈ calls, Milestone.swapped ∉ c.milestones) :
    outputOf calls
        = (Batch.process e.plan held (fedSamples calls)).output.map SampleKind.ofPhasor
      ∧ e.pair.active = (Batch.process e.plan held (fedSamples calls)).chain := by
  -- where the adaptive state was discarded, the stretch begins anew
  have nothing : ∀ e : Engine, e.Holds [] →
      ([] : List S) = (Batch.process e.plan held []).output.map SampleKind.ofPhasor
        ∧ e.pair.active = (Batch.process e.plan held []).chain := by
    intro e holds
    have hpos : ([] : List Sample).length < e.plan.geometry.demand :=
      Nat.lt_trans e.plan.geometry.frameLen_pos e.plan.geometry.frameLen_lt_demand
    rw [Batch.process_of_lt hpos]
    exact ⟨rfl, (holds.fresh hpos).1⟩
  induction run with
  | created hcreate => exact nothing _ (Session.created (S := S) hcreate).holds
  | reset earlier => exact nothing _ earlier.reset.holds
  | retuned carrier earlier => exact nothing _ (earlier.retuned carrier).holds
  | rateChanged earlier hset => exact nothing _ (earlier.rateChanged hset).holds
  | rateRefused _ _ ih => exact ih hold noSwap
  | holdSet _ _ ih => exact ih hold noSwap
  | @fed calls e activity block earlier ih =>
    obtain ⟨houtput, hactive⟩ := ih (fun c hc => hold c (List.mem_append_left _ hc))
      (fun c hc => noSwap c (List.mem_append_left _ hc))
    have hheld : e.pair.held = held := hold _ (List.mem_append_right _ (List.mem_singleton_self _))
    have hcall := noSwap _ (List.mem_append_right _ (List.mem_singleton_self _))
    have holds := earlier.holds.with_activity activity
    subst hheld
    have hbatch := (holds.feeds (block.map SampleKind.toPhasor)).batch holds hcall hactive
    have hplan : (Call.fed ⟨e, activity, block⟩).engine.plan = e.plan :=
      Engine.Holds.feed_plan _ _
    rw [outputOf_concat, fedSamples_concat, houtput, Call.fed_output, ← List.map_append, hplan]
    exact ⟨congrArg (List.map SampleKind.ofPhasor ·.output) hbatch.symm,
      (congrArg (·.chain) hbatch).symm⟩

end Session

/-- A session that trains and retrains. -/
theorem streaming_eq_batch_specimen :
    outputOf [Specimen.first, Specimen.second]
        = (Batch.process Specimen.second.fed.engine.plan false
            (fedSamples [Specimen.first, Specimen.second])).output.map SampleKind.ofPhasor
      ∧ Specimen.second.fed.engine.pair.active
        = (Batch.process Specimen.second.fed.engine.plan false
            (fedSamples [Specimen.first, Specimen.second])).chain := by
  have hold : ∀ c ∈ [Specimen.first, Specimen.second], c.before.pair.held = false := by
    decide +kernel
  have noSwap : ∀ c ∈ [Specimen.first, Specimen.second], Milestone.swapped ∉ c.milestones := by
    decide +kernel
  exact streaming_eq_batch Specimen.session_retrained false hold noSwap

end Denoise
