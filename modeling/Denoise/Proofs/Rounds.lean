import Denoise.Proofs.Accounting

/-!
# The loop of the input buffer

`Intake.run` bounds its rounds, and `Intake.drain` its frames.  Here both loops stand
without a bound, as relations: `Intake.Drains` hears frames while there is one, and
`Intake.Loop` lets a block in until it has entered or a turn stalls, with what entered in
each turn.

For every engine of a session the loop ends, in one way only (`intake_loop_ends`): the
whole block has entered, in order, and no turn but the last let nothing in.  A turn that
leaves samples behind has filled the buffer, so the demand is there, the pair is trained,
and less than a frame is left of the input when the next turn begins
(`Intake.round_of_lt`).
-/

namespace Denoise

namespace Intake

variable {p : Plan} {i j k : Intake}

/-! ## The loops -/

/-- The part of the block that there is room for. -/
def entering (p : Plan) (i : Intake) : List Sample :=
  i.pending.take (i.room p)

/-- Frames are heard while there is one in the buffer. -/
inductive Drains (p : Plan) : Intake → Intake → Prop
  | short {i : Intake} :
    i.input.length < p.geometry.frameLen →
    Drains p i i
  | frame {i j : Intake} :
    p.geometry.frameLen ≤ i.input.length →
    Drains p ((i.hear p (i.input.take p.geometry.frameLen)).withInput
      (i.input.drop p.geometry.hop)) j →
    Drains p i j

/-- A turn of the loop, with what enters in it.  Frames are heard if the pair is trained. -/
inductive Turn (p : Plan) (i : Intake) : List Sample → Intake → Prop
  | gathers :
    ((i.enter p).train p).pair.phase.isTrained = false →
    Turn p i (i.entering p) ((i.enter p).train p)
  | drains {j : Intake} :
    ((i.enter p).train p).pair.phase.isTrained = true →
    Drains p ((i.enter p).train p) j →
    Turn p i (i.entering p) j

/-- What ends the loop. -/
inductive Ending where
  /-- The whole block has entered. -/
  | entered
  /-- Some of it has not, nothing entered in the last turn, and the pair is not trained. -/
  | stalled
deriving DecidableEq

/-- The loop, with what enters in each of its turns, and how it ends. -/
inductive Loop (p : Plan) : Intake → List (List Sample) → Intake → Ending → Prop
  | entered {i j : Intake} {piece : List Sample} :
    Turn p i piece j →
    j.pending = [] →
    Loop p i [piece] j .entered
  | stalled {i j : Intake} :
    Turn p i [] j →
    j.pending ≠ [] →
    j.pair.phase.isTrained = false →
    Loop p i [[]] j .stalled
  | again {i j k : Intake} {piece : List Sample} {pieces : List (List Sample)} {ending : Ending} :
    Turn p i piece j →
    j.pending ≠ [] →
    (piece = [] → j.pair.phase.isTrained = true) →
    Loop p j pieces k ending →
    Loop p i (piece :: pieces) k ending

/-! ## There is one way through them -/

theorem Drains.unique (h : Drains p i j) (h' : Drains p i k) : j = k := by
  induction h with
  | short hshort =>
    cases h' with
    | short => rfl
    | frame hwhole => exact absurd hwhole (Nat.not_le_of_lt hshort)
  | frame hwhole _ ih =>
    cases h' with
    | short hshort => exact absurd hwhole (Nat.not_le_of_lt hshort)
    | frame _ h' => exact ih h'

theorem Turn.unique {piece piece' : List Sample} (h : Turn p i piece j) (h' : Turn p i piece' k) :
    piece = piece' ∧ j = k := by
  cases h with
  | gathers huntrained =>
    cases h' with
    | gathers => exact ⟨rfl, rfl⟩
    | drains htrained => cases huntrained.symm.trans htrained
  | drains htrained h =>
    cases h' with
    | gathers huntrained => cases huntrained.symm.trans htrained
    | drains _ h' => exact ⟨rfl, h.unique h'⟩

theorem Loop.unique {pieces pieces' : List (List Sample)} {ending ending' : Ending}
    (h : Loop p i pieces j ending) (h' : Loop p i pieces' k ending') :
    pieces' = pieces ∧ k = j ∧ ending' = ending := by
  induction h generalizing pieces' with
  | entered hturn hnone =>
    cases h' with
    | entered hturn' =>
      obtain ⟨rfl, rfl⟩ := hturn.unique hturn'
      exact ⟨rfl, rfl, rfl⟩
    | stalled hturn' hsome =>
      obtain ⟨rfl, rfl⟩ := hturn.unique hturn'
      exact absurd hnone hsome
    | again hturn' hsome =>
      obtain ⟨rfl, rfl⟩ := hturn.unique hturn'
      exact absurd hnone hsome
  | stalled hturn hsome huntrained =>
    cases h' with
    | entered hturn' hnone =>
      obtain ⟨rfl, rfl⟩ := hturn.unique hturn'
      exact absurd hnone hsome
    | stalled hturn' =>
      obtain ⟨-, rfl⟩ := hturn.unique hturn'
      exact ⟨rfl, rfl, rfl⟩
    | again hturn' _ htrained =>
      obtain ⟨rfl, rfl⟩ := hturn.unique hturn'
      cases huntrained.symm.trans (htrained rfl)
  | again hturn hsome htrained _ ih =>
    cases h' with
    | entered hturn' hnone =>
      obtain ⟨rfl, rfl⟩ := hturn.unique hturn'
      exact absurd hnone hsome
    | stalled hturn' _ huntrained =>
      obtain ⟨rfl, rfl⟩ := hturn.unique hturn'
      cases huntrained.symm.trans (htrained rfl)
    | again hturn' _ _ hlater =>
      obtain ⟨rfl, rfl⟩ := hturn.unique hturn'
      obtain ⟨rfl, hend⟩ := ih hlater
      exact ⟨rfl, hend⟩

/-! ## The bounds are enough -/

theorem drains_drain (turns : Nat) (enough : Batch.frameCount p.geometry i.input.length ≤ turns) :
    Drains p i (i.drain p turns) := by
  induction turns generalizing i with
  | zero => exact .short (Batch.frameCount_eq_zero.1 (Nat.le_zero.1 enough))
  | succ turns ih =>
    by_cases whole : p.geometry.frameLen ≤ i.input.length
    · have hlen : (i.input.take p.geometry.frameLen).length = p.geometry.frameLen := by
        rw [List.length_take]
        omega
      rw [Batch.frameCount_of_le whole] at enough
      rw [drain, if_pos hlen]
      refine .frame whole (ih (i := (i.hear p _).withInput _) ?_)
      rw [withInput_input, List.length_drop]
      omega
    · have hlen : (i.input.take p.geometry.frameLen).length ≠ p.geometry.frameLen := by
        rw [List.length_take]
        omega
      rw [drain, if_neg hlen]
      exact .short (Nat.lt_of_not_le whole)

/-- A round of the loop is a turn. -/
theorem turn_round (p : Plan) (i : Intake) : Turn p i (i.entering p) (i.round p) := by
  simp only [round]
  split
  next htrained =>
    refine .drains htrained (drains_drain _ ?_)
    have hle := Batch.frameCount_mul_le p.geometry ((i.enter p).train p).input.length
    exact Nat.le_trans (Nat.le_mul_of_pos_right _ p.geometry.hop_pos) hle
  next huntrained => exact .gathers (Bool.eq_false_iff.2 huntrained)

/-! ## The loop ends -/

/-- The loop settles the block.  Every turn but the last lets something in, and all turns
together the block. -/
theorem exists_loop (i : Intake)
    (waits : i.input.length < p.geometry.limit i.pair.phase.isTrained) :
    ∃ pieces, Loop p i pieces (i.settle p) .entered
      ∧ pieces.flatten = i.pending
      ∧ ∀ piece ∈ pieces.dropLast, piece ≠ [] := by
  have hturn := turn_round p i
  have hroom := room_pos waits
  by_cases fits : i.pending.length ≤ i.room p
  · have hpiece : i.entering p = i.pending := List.take_of_length_le fits
    rw [round_of_le fits, hpiece] at hturn
    exact ⟨[i.pending], .entered hturn (settle_pending p i), List.flatten_singleton, nofun⟩
  · obtain ⟨trained, short, hpending, hsettle⟩ := round_of_lt waits (Nat.lt_of_not_le fits)
    have hsome : (i.round p).pending ≠ [] := by
      rw [hpending, ← List.length_pos_iff, List.length_drop]
      omega
    have hentering : i.entering p ≠ [] := by
      rw [entering, ← List.length_pos_iff, List.length_take]
      omega
    have hfewer : (i.round p).pending.length < i.pending.length := by
      rw [hpending, List.length_drop]
      omega
    obtain ⟨pieces, hloop, hflatten, hpieces⟩ :=
      exists_loop (i.round p) (by rw [trained]; exact short)
    rw [hsettle] at hloop
    refine ⟨i.entering p :: pieces, .again hturn hsome (fun _ => trained) hloop, ?_, ?_⟩
    · rw [List.flatten_cons, hflatten, hpending, entering, List.take_append_drop]
    · have hne : pieces ≠ [] := by
        rintro rfl
        cases hloop
      rw [List.dropLast_cons_of_ne_nil hne]
      exact List.forall_mem_cons.2 ⟨hentering, hpieces⟩
termination_by i.pending.length

end Intake

/-! ## The loop of a call -/

namespace Engine.Holds

variable {samples : List Sample} {e : Engine}

/-- The input is the stretch without what was put out for it. -/
theorem input_eq_drop (h : e.Holds samples) :
    e.input = samples.drop (e.plan.geometry.yield samples.length) := by
  rw [h.input, Geometry.yield]
  split
  next => rw [List.drop_zero]
  next => rfl

/-- A block puts out as many samples as leave the input. -/
theorem feed_input_eq_drop (h : e.Holds samples) (block : List Sample) :
    (e.feed block).engine.input = (e.input ++ block).drop (e.feed block).output.length := by
  have hyield := (h.feeds block).length_output h
  have hle : e.plan.geometry.yield samples.length ≤ samples.length := by
    rw [Geometry.yield]
    split
    next => exact Nat.zero_le _
    next =>
      rw [Nat.sub_mul]
      exact Nat.le_trans (Nat.sub_le _ _) (Nat.div_mul_le_self _ _)
  rw [(h.feed block).input_eq_drop, feed_plan, ← hyield, ← List.drop_drop,
    List.drop_append_of_le_length hle, ← h.input_eq_drop]

end Engine.Holds

/-- A call as it comes to the loop: its block has arrived, and none of it has entered. -/
def Call.intake {S : Type} [SampleKind S] (c : Call S) : Intake where
  pair := (c.start.arrive c.samples).1.pair
  input := c.before.input
  pending := c.samples
  hops := []
  events := (c.start.arrive c.samples).2

/-- The loop of any call of a session, also of one whose block is many times as long as the
buffer.

It ends, and never stalled.  What entered in its turns, put together, is the block, and in
no turn but the last is it nothing.  What the buffer had and what entered are still there
afterwards, in order, but for the front that was put out.  And this loop is what the call
does.

The buffer it fills is the largest of the sizes, which words hold under `Geometry.Fits`. -/
theorem intake_loop_ends {S : Type} [SampleKind S] {calls : List (Call S)} {c : Call S}
    (run : Session calls c.before) :
    ∃ pieces done,
      (∀ pieces' done' ending, Intake.Loop c.before.plan c.intake pieces' done' ending
        ↔ pieces' = pieces ∧ done' = done ∧ ending = .entered)
      ∧ done.pending = []
      ∧ pieces.flatten = c.samples
      ∧ (∀ piece ∈ pieces.dropLast, piece ≠ [])
      ∧ done.input = (c.before.input ++ c.samples).drop done.output.length
      ∧ c.fed = { engine := { (c.start.arrive c.samples).1 with
                    pair := done.pair
                    input := done.input }
                  output := done.output.map SampleKind.ofPhasor
                  outcome := Engine.outcomeOf c.before.plan done
                  events := done.events } := by
  have holds := Call.start_holds run.holds
  have hinput := Engine.arrive_input c.start c.samples
  have waits : c.intake.input.length
      < c.before.plan.geometry.limit c.intake.pair.phase.isTrained := by
    have htrained : c.intake.pair.phase.isTrained
        = decide (c.before.plan.geometry.demand ≤ (fedSamples calls).length) :=
      holds.arrive_isTrained c.samples
    rw [htrained]
    exact holds.waits
  obtain ⟨pieces, hloop, hflatten, hpieces⟩ := Intake.exists_loop c.intake waits
  have hfeed : c.start.feed c.samples
      = { engine := { (c.start.arrive c.samples).1 with
            pair := (c.intake.settle c.before.plan).pair
            input := (c.intake.settle c.before.plan).input }
          output := (c.intake.settle c.before.plan).output
          outcome := Engine.outcomeOf c.before.plan (c.intake.settle c.before.plan)
          events := (c.intake.settle c.before.plan).events } := by
    have hrun := Intake.run_eq_settle c.before.plan (c.samples.length + 1) c.intake
      (Nat.lt_succ_self _) waits
    have harrived : (⟨(c.start.arrive c.samples).1.pair, (c.start.arrive c.samples).1.input,
        c.samples, [], (c.start.arrive c.samples).2⟩ : Intake) = c.intake := by
      rw [hinput]
      rfl
    rw [← hrun, ← harrived]
    rfl
  refine ⟨pieces, c.intake.settle c.before.plan, ?_, Intake.settle_pending _ _, hflatten,
    hpieces, ?_, ?_⟩
  · intro pieces' done' ending
    constructor
    · exact hloop.unique
    · rintro ⟨rfl, rfl, rfl⟩
      exact hloop
  · have hdrop := holds.feed_input_eq_drop c.samples
    rw [hfeed] at hdrop
    exact hdrop
  · rw [Call.fed, Engine.process, ← Call.samples, hfeed]

/-- A block four times as long as the buffer enters the engine that was just built. -/
theorem intake_loop_ends_specimen :
    Specimen.geometry.bufferSize = 24
      ∧ ∃ pieces done,
          Intake.Loop Specimen.plan
              (Call.intake ⟨.idle Specimen.plan Specimen.quiet 0, Specimen.quiet,
                List.replicate 96 (0 : Float32)⟩) pieces done .entered
            ∧ done.pending = []
            ∧ pieces.flatten.length = 96 := by
  refine ⟨rfl, ?_⟩
  obtain ⟨pieces, done, hloop, hpending, hflatten, -⟩ :=
    intake_loop_ends (c := ⟨.idle Specimen.plan Specimen.quiet 0, Specimen.quiet,
      List.replicate 96 (0 : Float32)⟩) (.created Specimen.create_eq)
  refine ⟨pieces, done, (hloop pieces done .entered).2 ⟨rfl, rfl, rfl⟩, hpending, ?_⟩
  rw [hflatten, Call.length_samples, List.length_replicate]

end Denoise
