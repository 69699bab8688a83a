import Denoise.Proofs.Feeding

/-!
# Two engines side by side

Two engines get the same block.  Their pairs differ, and their plans may differ too.
A relation between the pairs, and what is reported with them, is `Parallel` if training
keeps it, and if a frame keeps it and is heard alike on both sides.

Then the whole block keeps it.  The two come to train, to cut frames and to stop in the
same rounds, and what they produce is the same (`Parallel.feed`).
-/

namespace Denoise

/-! ## Relations that a block keeps -/

/-- A pair trained on a stretch, with what was reported before. -/
def Advanced.thenTrained (p : Plan) (samples : List Sample) (a : Advanced) : Advanced :=
  ⟨(a.pair.train p samples).pair, a.events ++ (a.pair.train p samples).events⟩

/-- A pair after a frame, with what was reported before. -/
def Advanced.thenProcessed (p : Plan) (frame : List Sample) (a : Advanced) : Advanced :=
  ⟨(a.pair.process p frame).pair, a.events ++ (a.pair.process p frame).events⟩

/-- A relation between pairs, and what was reported, that what happens within a block
keeps. -/
structure Parallel (p p' : Plan) (R : Advanced → Advanced → Prop) : Prop where
  /-- Frames are cut alike. -/
  geometry : p'.geometry = p.geometry
  /-- Both pairs are trained, or none is. -/
  trained : ∀ {a a'}, R a a' → a'.pair.phase.isTrained = a.pair.phase.isTrained
  /-- Training keeps it. -/
  train : ∀ {a a'}, R a a' → ∀ samples, R (a.thenTrained p samples) (a'.thenTrained p' samples)
  /-- A frame keeps it. -/
  process : ∀ {a a'}, R a a' → ∀ frame,
    R (a.thenProcessed p frame) (a'.thenProcessed p' frame)
  /-- A frame is heard alike. -/
  hop : ∀ {a a'}, R a a' → ∀ frame, (a'.pair.process p' frame).hop = (a.pair.process p frame).hop

/-! ## A block -/

namespace Intake

/-- The pair of an intake, and what was reported. -/
def advanced (i : Intake) : Advanced := ⟨i.pair, i.events⟩

/-- Two intakes of one block. -/
structure Beside (R : Advanced → Advanced → Prop) (i i' : Intake) : Prop where
  /-- The pairs are related. -/
  advanced : R i.advanced i'.advanced
  /-- The same is buffered. -/
  input : i'.input = i.input
  /-- The same has not entered. -/
  pending : i'.pending = i.pending
  /-- The same was produced. -/
  hops : i'.hops = i.hops

variable {p p' : Plan} {R : Advanced → Advanced → Prop} {i i' : Intake}

theorem Beside.enter (parallel : Parallel p p' R) (h : Beside R i i') :
    Beside R (i.enter p) (i'.enter p') := by
  refine ⟨h.advanced, ?_, ?_, h.hops⟩ <;>
    simp only [Intake.enter, parallel.geometry, h.input, h.pending]

/-- Both sides train in the same round, and on the same stretch. -/
theorem Beside.train (parallel : Parallel p p' R) (h : Beside R i i') :
    Beside R (i.train p) (i'.train p') := by
  have hphase : i'.pair.phase.isTrained = i.pair.phase.isTrained := parallel.trained h.advanced
  cases htrained : i.pair.phase.isTrained with
  | true =>
    rw [train_of_trained htrained, train_of_trained (hphase.trans htrained)]
    exact h
  | false =>
    have hgeometry := parallel.geometry
    by_cases hdue : p.geometry.demand ≤ i.input.length
    · rw [train_of_le htrained hdue,
        train_of_le (hphase.trans htrained) (by rwa [hgeometry, h.input]), hgeometry, h.input]
      exact ⟨parallel.train h.advanced _, rfl, h.pending, h.hops⟩
    · rw [train_of_lt (Nat.lt_of_not_le hdue),
        train_of_lt (by rw [hgeometry, h.input]; exact Nat.lt_of_not_le hdue)]
      exact h

/-- Both sides cut the same frames, and hear them alike. -/
theorem Beside.drain (parallel : Parallel p p' R) (turns : Nat) (h : Beside R i i') :
    Beside R (i.drain p turns) (i'.drain p' turns) := by
  induction turns generalizing i i' with
  | zero => exact h
  | succ turns ih =>
    simp only [Intake.drain, parallel.geometry, h.input]
    split
    · have hhop := parallel.hop h.advanced (i.input.take p.geometry.frameLen)
      exact ih ⟨parallel.process h.advanced _, rfl, h.pending, congrArg₂ List.cons hhop h.hops⟩
    · exact h

theorem Beside.round (parallel : Parallel p p' R) (h : Beside R i i') :
    Beside R (i.round p) (i'.round p') := by
  have htrain := (h.enter parallel).train parallel
  have hphase : ((i'.enter p').train p').pair.phase.isTrained
      = ((i.enter p).train p).pair.phase.isTrained := parallel.trained htrain.advanced
  simp only [Intake.round, hphase, htrain.input]
  split
  · exact htrain.drain parallel _
  · exact htrain

/-- So the loops over the block end in the same round. -/
theorem Beside.run (parallel : Parallel p p' R) (turns : Nat) (h : Beside R i i') :
    Beside R (i.run p turns) (i'.run p' turns) := by
  induction turns generalizing i i' with
  | zero => exact h
  | succ turns ih =>
    have hround := h.round parallel
    have hphase : (i'.round p').pair.phase.isTrained = (i.round p).pair.phase.isTrained :=
      parallel.trained hround.advanced
    simp only [Intake.run, hphase, hround.pending, h.pending]
    split
    · exact hround
    · exact ih hround

/-- What a call reports of its end is the same on both sides. -/
theorem Beside.outcomeOf (parallel : Parallel p p' R) (h : Beside R i i') :
    Engine.outcomeOf p' i' = Engine.outcomeOf p i := by
  have hphase : i'.pair.phase.isTrained = i.pair.phase.isTrained := parallel.trained h.advanced
  rw [Engine.outcomeOf, Engine.outcomeOf, Intake.output, Intake.output, hphase, h.input, h.hops,
    parallel.geometry]

end Intake

/-! ## A call -/

/-- A block keeps the relation and produces the same, if it arrives related. -/
theorem Parallel.feed {R : Advanced → Advanced → Prop} {e e' : Engine}
    (parallel : Parallel e.plan e'.plan R) (input : e'.input = e.input) {block : List Sample}
    (arrived : R ⟨(e.arrive block).1.pair, (e.arrive block).2⟩
      ⟨(e'.arrive block).1.pair, (e'.arrive block).2⟩) :
    R ⟨(e.feed block).engine.pair, (e.feed block).events⟩
        ⟨(e'.feed block).engine.pair, (e'.feed block).events⟩
      ∧ (e'.feed block).engine.input = (e.feed block).engine.input
      ∧ (e'.feed block).output = (e.feed block).output
      ∧ (e'.feed block).outcome = (e.feed block).outcome := by
  have hintake : Intake.Beside R
      ⟨(e.arrive block).1.pair, (e.arrive block).1.input, block, [], (e.arrive block).2⟩
      ⟨(e'.arrive block).1.pair, (e'.arrive block).1.input, block, [], (e'.arrive block).2⟩ :=
    ⟨arrived, by rw [Engine.arrive_input, Engine.arrive_input, input], rfl, rfl⟩
  have hrun := hintake.run parallel (block.length + 1)
  exact ⟨hrun.advanced, hrun.input, congrArg (·.reverse.flatten) hrun.hops,
    hrun.outcomeOf parallel⟩

end Denoise
