import Denoise.Engine
import Denoise.Proofs.Frames

/-!
# The way of a block through the input buffer

A block enters the bounded buffer in rounds.  `Intake.settle` is what the rounds
come to, without buffer and without rounds: the whole block joins the input, the
pair is trained if the demand is there, and then hears every whole frame.

`Intake.run_eq_settle` says the two agree for any block, also for one many times
as long as the buffer.  It needs that less is buffered than is waited for
(`Geometry.limit`), and then as many turns as there are samples are enough.

Two facts carry the proof.  A round is a settling of the part of the block that
there is room for (`Intake.round_eq`).  And settling in two parts is settling at
once (`Intake.settle_append`), since a stretch that grows keeps its frames.
-/

namespace Denoise

/-- What the input waits for: the training demand, and a frame once the pair is
trained. -/
def Geometry.limit (g : Geometry) (trained : Bool) : Nat := if trained then g.frameLen else g.demand

/-- A call stops for want of input below the demand at the latest. -/
theorem Geometry.limit_le_demand (g : Geometry) (trained : Bool) : g.limit trained ≤ g.demand := by
  cases trained with
  | false => exact Nat.le_refl _
  | true => exact Nat.le_of_lt g.frameLen_lt_demand

/-- Whatever is waited for, there is room in the buffer until it is there. -/
theorem Geometry.limit_lt_bufferSize (g : Geometry) (trained : Bool) :
    g.limit trained < g.bufferSize := by
  have := g.frameLen_pos
  have := g.limit_le_demand trained
  simp only [Geometry.bufferSize]
  omega

/-! ## Chains along frames -/

/-- A chain after some frames. -/
def Chain.along (p : Plan) (held : Bool) (frames : List (List Sample)) (c : Chain) : Chain :=
  frames.foldl (fun c frame => (c.step p held (p.spectrum frame)).chain) c

/-- The hops of a chain on its way along some frames. -/
def Chain.hops (p : Plan) (held : Bool) : List (List Sample) → Chain → List (List Sample)
  | [], _ => []
  | frame :: later, c =>
    let done := c.step p held (p.spectrum frame)
    done.hop :: Chain.hops p held later done.chain

@[simp] theorem Chain.along_nil (p : Plan) (held : Bool) (c : Chain) : c.along p held [] = c := rfl

@[simp] theorem Chain.along_cons (p : Plan) (held : Bool) (frame : List Sample)
    (later : List (List Sample)) (c : Chain) :
    c.along p held (frame :: later) = (c.step p held (p.spectrum frame)).chain.along p held later :=
  rfl

/-- A run along frames goes on where the run along the first ones stopped. -/
theorem Chain.along_append (p : Plan) (held : Bool) (frames later : List (List Sample))
    (c : Chain) : c.along p held (frames ++ later) = (c.along p held frames).along p held later :=
  List.foldl_append

theorem Chain.hops_append (p : Plan) (held : Bool) (frames later : List (List Sample)) (c : Chain) :
    c.hops p held (frames ++ later)
      = c.hops p held frames ++ (c.along p held frames).hops p held later := by
  induction frames generalizing c with
  | nil => rfl
  | cons frame frames ih => rw [List.cons_append, Chain.hops, Chain.hops, ih, Chain.along_cons,
      List.cons_append]

/-- Both chains after some frames. -/
def ChainPair.along (p : Plan) (frames : List (List Sample)) (c : ChainPair) : ChainPair :=
  { c with
    active := c.active.along p c.held frames
    candidate := c.candidate.along p c.held frames }

namespace Intake

/-! ## Frames -/

/-- A frame heard by the pair. -/
def hear (p : Plan) (i : Intake) (frame : List Sample) : Intake :=
  let done := i.pair.process p frame
  { i with
    pair := done.pair
    hops := done.hop :: i.hops
    events := i.events ++ done.events }

theorem foldl_hear_pair (p : Plan) (frames : List (List Sample)) (i : Intake) :
    (frames.foldl (hear p) i).pair = i.pair.along p frames := by
  induction frames generalizing i with
  | nil => rfl
  | cons frame frames ih => exact ih (i.hear p frame)

/-- A frame adds the hop of the active chain to the output. -/
theorem output_hear (p : Plan) (i : Intake) (frame : List Sample) :
    (i.hear p frame).output
      = i.output ++ (i.pair.active.step p i.pair.held (p.spectrum frame)).hop := by
  simp [output, hear, ChainPair.process]

/-- Frames add the hops of the active chain along them, whatever the candidate does. -/
theorem foldl_hear_output (p : Plan) (frames : List (List Sample)) (i : Intake) :
    (frames.foldl (hear p) i).output
      = i.output ++ (i.pair.active.hops p i.pair.held frames).flatten := by
  induction frames generalizing i with
  | nil => simp [Chain.hops]
  | cons frame frames ih =>
    rw [List.foldl_cons, ih, output_hear, Chain.hops, List.flatten_cons, List.append_assoc]
    rfl

/-- An intake with another input buffer. -/
def withInput (i : Intake) (input : List Sample) : Intake := { i with input := input }

/-- An intake with other samples that have not entered. -/
def withPending (i : Intake) (pending : List Sample) : Intake := { i with pending := pending }

@[simp] theorem withInput_input (i : Intake) (input : List Sample) :
    (i.withInput input).input = input := rfl

@[simp] theorem withInput_pair (i : Intake) (input : List Sample) :
    (i.withInput input).pair = i.pair := rfl

@[simp] theorem withInput_withInput (i : Intake) (input other : List Sample) :
    (i.withInput input).withInput other = i.withInput other := rfl

@[simp] theorem withPending_input (i : Intake) (pending : List Sample) :
    (i.withPending pending).input = i.input := rfl

@[simp] theorem withPending_pair (i : Intake) (pending : List Sample) :
    (i.withPending pending).pair = i.pair := rfl

@[simp] theorem withPending_pending (i : Intake) (pending : List Sample) :
    (i.withPending pending).pending = pending := rfl

/-- Frames do not touch the input buffer. -/
theorem foldl_hear_withInput (p : Plan) (frames : List (List Sample)) (i : Intake)
    (input : List Sample) :
    frames.foldl (hear p) (i.withInput input) = (frames.foldl (hear p) i).withInput input := by
  induction frames generalizing i with
  | nil => rfl
  | cons frame frames ih => exact ih (i.hear p frame)

/-- Frames do not touch what has not entered. -/
theorem foldl_hear_withPending (p : Plan) (frames : List (List Sample)) (i : Intake)
    (pending : List Sample) :
    frames.foldl (hear p) (i.withPending pending)
      = (frames.foldl (hear p) i).withPending pending := by
  induction frames generalizing i with
  | nil => rfl
  | cons frame frames ih => exact ih (i.hear p frame)

/-! ## All frames of the input -/

/-- Every whole frame of the input heard, and the rest kept. -/
def hearAll (p : Plan) (i : Intake) : Intake :=
  ((Batch.frames p.geometry i.input).foldl (hear p) i).withInput (Batch.rest p.geometry i.input)

theorem hearAll_input (p : Plan) (i : Intake) :
    (i.hearAll p).input = Batch.rest p.geometry i.input := rfl

/-- Both chains go along all frames that are in the buffer. -/
theorem hearAll_pair (p : Plan) (i : Intake) :
    (i.hearAll p).pair = i.pair.along p (Batch.frames p.geometry i.input) :=
  foldl_hear_pair ..

theorem hearAll_output (p : Plan) (i : Intake) :
    (i.hearAll p).output = i.output
      ++ (i.pair.active.hops p i.pair.held (Batch.frames p.geometry i.input)).flatten :=
  foldl_hear_output ..

/-- What has not entered the buffer is not cut into frames. -/
theorem hearAll_withPending (p : Plan) (i : Intake) (pending : List Sample) :
    (i.withPending pending).hearAll p = (i.hearAll p).withPending pending := by
  rw [hearAll, withPending_input, foldl_hear_withPending]
  rfl

theorem hearAll_withInput (p : Plan) (i : Intake) (input : List Sample) :
    (i.withInput input).hearAll p
      = ((Batch.frames p.geometry input).foldl (hear p) i).withInput (Batch.rest p.geometry input) := by
  rw [hearAll, withInput_input, foldl_hear_withInput, withInput_withInput]

/-- Hearing the frames of a growing input in two parts. -/
theorem hearAll_append (p : Plan) (i : Intake) (more : List Sample) :
    ((i.hearAll p).withInput ((i.hearAll p).input ++ more)).hearAll p
      = (i.withInput (i.input ++ more)).hearAll p := by
  have hfirst : (i.hearAll p).withInput ((i.hearAll p).input ++ more)
      = ((Batch.frames p.geometry i.input).foldl (hear p) i).withInput
          (Batch.rest p.geometry i.input ++ more) := rfl
  rw [hfirst, hearAll_withInput, hearAll_withInput, Batch.frames_append p.geometry i.input,
    List.foldl_append, Batch.rest_append p.geometry i.input]

/-- As many turns as there are frames drain the input. -/
theorem drain_eq_hearAll (p : Plan) (turns : Nat) (i : Intake)
    (enough : Batch.frameCount p.geometry i.input.length ≤ turns) :
    i.drain p turns = i.hearAll p := by
  induction turns generalizing i with
  | zero =>
    have short := Batch.frameCount_eq_zero.1 (Nat.le_zero.1 enough)
    rw [hearAll, Batch.frames_of_lt short, Batch.rest_of_lt short]
    rfl
  | succ turns ih =>
    by_cases whole : p.geometry.frameLen ≤ i.input.length
    · have hlen : (i.input.take p.geometry.frameLen).length = p.geometry.frameLen := by
        rw [List.length_take]
        omega
      have hstep : i.drain p (turns + 1)
          = ((i.hear p (i.input.take p.geometry.frameLen)).withInput
              (i.input.drop p.geometry.hop)).drain p turns := by
        rw [drain, if_pos hlen]
        rfl
      rw [Batch.frameCount_of_le whole] at enough
      rw [hstep, ih _ (by simpa using enough), hearAll, hearAll, withInput_input,
        foldl_hear_withInput, withInput_withInput, Batch.frames_of_le whole,
        Batch.rest_drop_hop whole]
      rfl
    · have short : i.input.length < p.geometry.frameLen := Nat.lt_of_not_le whole
      have hlen : (i.input.take p.geometry.frameLen).length ≠ p.geometry.frameLen := by
        rw [List.length_take]
        omega
      rw [drain, if_neg hlen, hearAll, Batch.frames_of_lt short, Batch.rest_of_lt short]
      rfl

/-! ## Training -/

/-- A trained pair is not trained again. -/
theorem train_of_trained {p : Plan} {i : Intake} (h : i.pair.phase.isTrained = true) :
    i.train p = i := by
  simp [train, h]

theorem train_of_lt {p : Plan} {i : Intake} (h : i.input.length < p.geometry.demand) :
    i.train p = i := by
  simp [train, h]

/-- A pair is trained on the front of the buffer, as long as the demand, and the buffer
keeps it. -/
theorem train_of_le {p : Plan} {i : Intake} (untrained : i.pair.phase.isTrained = false)
    (h : p.geometry.demand ≤ i.input.length) :
    i.train p = { i with
      pair := (i.pair.train p (i.input.take p.geometry.demand)).pair
      events := i.events ++ (i.pair.train p (i.input.take p.geometry.demand)).events } := by
  simp [train, untrained, h]

/-- With the demand in the buffer the pair is trained afterwards, if it was not before. -/
theorem train_isTrained {p : Plan} {i : Intake} (h : p.geometry.demand ≤ i.input.length) :
    (i.train p).pair.phase.isTrained = true := by
  cases trained : i.pair.phase.isTrained with
  | false => rw [train_of_le trained h]; rfl
  | true => rwa [train_of_trained trained]

theorem train_withPending (p : Plan) (i : Intake) (pending : List Sample) :
    (i.withPending pending).train p = (i.train p).withPending pending := by
  cases trained : i.pair.phase.isTrained with
  | true => rw [train_of_trained trained, train_of_trained (i := i.withPending pending) trained]
  | false =>
    by_cases h : p.geometry.demand ≤ i.input.length
    · rw [train_of_le trained h, train_of_le (i := i.withPending pending) trained h]
      rfl
    · have short := Nat.lt_of_not_le h
      rw [train_of_lt short, train_of_lt (i := i.withPending pending) short]

/-- More input after training is more input before it: the demand is the front of
both. -/
theorem train_append {p : Plan} {i : Intake} (h : p.geometry.demand ≤ i.input.length)
    (more : List Sample) :
    (i.withInput (i.input ++ more)).train p
      = (i.train p).withInput ((i.train p).input ++ more) := by
  cases trained : i.pair.phase.isTrained with
  | false =>
    have hlong : p.geometry.demand ≤ (i.withInput (i.input ++ more)).input.length := by
      rw [withInput_input, List.length_append]
      omega
    rw [train_of_le trained h, train_of_le (i := i.withInput (i.input ++ more)) trained hlong,
      withInput_input, List.take_append_of_le_length h]
    rfl
  | true =>
    rw [train_of_trained trained, train_of_trained (i := i.withInput (i.input ++ more)) trained]

/-! ## A block at once -/

/-- Training if it is due, and then every whole frame. -/
def work (p : Plan) (i : Intake) : Intake :=
  if (i.train p).pair.phase.isTrained then (i.train p).hearAll p else i.train p

/-- The whole block joins the input at once. -/
def settle (p : Plan) (i : Intake) : Intake :=
  ((i.withInput (i.input ++ i.pending)).withPending []).work p

/-- Once trained, every whole frame is heard. -/
theorem work_of_trained {p : Plan} {i : Intake} (h : i.pair.phase.isTrained = true) :
    i.work p = i.hearAll p := by
  rw [work, train_of_trained h, if_pos h]

/-- Before training nothing happens until the demand is there. -/
theorem work_of_lt {p : Plan} {i : Intake} (untrained : i.pair.phase.isTrained = false)
    (h : i.input.length < p.geometry.demand) : i.work p = i := by
  rw [work, train_of_lt h, untrained]
  rfl

theorem work_of_le {p : Plan} {i : Intake} (h : p.geometry.demand ≤ i.input.length) :
    i.work p = (i.train p).hearAll p := by
  rw [work, if_pos (train_isTrained h)]

/-- What has not entered the buffer does not count. -/
theorem work_withPending (p : Plan) (i : Intake) (pending : List Sample) :
    (i.withPending pending).work p = (i.work p).withPending pending := by
  rw [work, work, train_withPending, withPending_pair]
  split
  · exact hearAll_withPending p (i.train p) pending
  · rfl

/-- Working on a growing input in two parts. -/
theorem work_append (p : Plan) (i : Intake) (more : List Sample) :
    ((i.work p).withInput ((i.work p).input ++ more)).work p
      = (i.withInput (i.input ++ more)).work p := by
  cases trained : i.pair.phase.isTrained with
  | true =>
    have hdone : ((i.hearAll p).withInput ((i.hearAll p).input ++ more)).pair.phase.isTrained
        = true := by
      rw [withInput_pair, hearAll_pair]
      exact trained
    rw [work_of_trained trained, work_of_trained hdone,
      work_of_trained (i := i.withInput (i.input ++ more)) trained, hearAll_append]
  | false =>
    by_cases h : p.geometry.demand ≤ i.input.length
    · have hlong : p.geometry.demand ≤ (i.withInput (i.input ++ more)).input.length := by
        rw [withInput_input, List.length_append]
        omega
      have hdone : (((i.train p).hearAll p).withInput
          (((i.train p).hearAll p).input ++ more)).pair.phase.isTrained = true := by
        rw [withInput_pair, hearAll_pair]
        exact train_isTrained h
      rw [work_of_le h, work_of_trained hdone, work_of_le hlong, hearAll_append, train_append h]
    · rw [work_of_lt trained (Nat.lt_of_not_le h)]

/-- Settling a block is working on the buffer and the block at once. -/
theorem settle_withPending (p : Plan) (i : Intake) (block : List Sample) :
    (i.withPending block).settle p = ((i.withInput (i.input ++ block)).work p).withPending [] :=
  work_withPending p (i.withInput (i.input ++ block)) []

/-- Settling a block in two parts is settling it at once. -/
theorem settle_append (p : Plan) (i : Intake) (block more : List Sample) :
    (((i.withPending block).settle p).withPending more).settle p
      = (i.withPending (block ++ more)).settle p := by
  have hparts := work_append p (i.withInput (i.input ++ block)) more
  rw [withInput_input, withInput_withInput, List.append_assoc] at hparts
  have hpending := work_withPending p (((i.withInput (i.input ++ block)).work p).withInput
    (((i.withInput (i.input ++ block)).work p).input ++ more)) []
  rw [hparts] at hpending
  rw [settle_withPending p i block, settle_withPending, settle_withPending, ← hpending]
  exact (work_withPending p _ []).symm

/-! ## Rounds -/

/-- A round takes in what there is room for, and works on it. -/
theorem round_eq_work (p : Plan) (i : Intake) : i.round p = (i.enter p).work p := by
  simp only [round, work]
  split
  next trained =>
    apply drain_eq_hearAll
    have h := Batch.frameCount_mul_le p.geometry ((i.enter p).train p).input.length
    exact Nat.le_trans (Nat.le_mul_of_pos_right _ p.geometry.hop_pos) h
  next => rfl

/-- A round settles what there is room for. -/
theorem round_eq (p : Plan) (i : Intake) :
    i.round p
      = ((i.withPending (i.pending.take (p.geometry.bufferSize - i.input.length))).settle
          p).withPending (i.pending.drop (p.geometry.bufferSize - i.input.length)) := by
  rw [round_eq_work, settle, ← work_withPending]
  rfl

/-- After a round that reached the demand the pair is trained, and less than a frame
is buffered. -/
theorem settle_of_le {p : Plan} {i : Intake}
    (h : p.geometry.demand ≤ (i.input ++ i.pending).length) :
    (i.settle p).pair.phase.isTrained = true
      ∧ (i.settle p).input.length < p.geometry.frameLen := by
  have hwork := work_of_le (i := (i.withInput (i.input ++ i.pending)).withPending []) h
  rw [settle, hwork, hearAll_pair, hearAll_input]
  exact ⟨train_isTrained h, Batch.length_rest_lt _ _⟩

theorem settle_pending (p : Plan) (i : Intake) : (i.settle p).pending = [] := by
  rw [settle, work_withPending, withPending_pending]

/-- The room in the input buffer. -/
def room (p : Plan) (i : Intake) : Nat := p.geometry.bufferSize - i.input.length

/-- While more input is waited for there is room for it. -/
theorem room_pos {p : Plan} {i : Intake}
    (waits : i.input.length < p.geometry.limit i.pair.phase.isTrained) : 0 < i.room p :=
  Nat.sub_pos_of_lt (Nat.lt_trans waits (p.geometry.limit_lt_bufferSize _))

/-- A round that there is room enough for settles the block. -/
theorem round_of_le {p : Plan} {i : Intake} (fits : i.pending.length ≤ i.room p) :
    i.round p = i.settle p := by
  rw [room] at fits
  rw [round_eq, List.take_of_length_le fits, List.drop_of_length_le fits, ← settle_pending p i]
  rfl

/-- Any other round fills the buffer, and a full buffer has the demand.  So the pair is
trained, less than a frame is buffered, and there is room again. -/
theorem round_of_lt {p : Plan} {i : Intake}
    (waits : i.input.length < p.geometry.limit i.pair.phase.isTrained)
    (more : i.room p < i.pending.length) :
    (i.round p).pair.phase.isTrained = true
      ∧ (i.round p).input.length < p.geometry.frameLen
      ∧ (i.round p).pending = i.pending.drop (i.room p)
      ∧ (i.round p).settle p = i.settle p := by
  have hroom := Nat.lt_trans waits (p.geometry.limit_lt_bufferSize _)
  have hround : i.round p = ((i.withPending (i.pending.take (i.room p))).settle p).withPending
    (i.pending.drop (i.room p)) := round_eq p i
  have hfull : p.geometry.demand ≤ (i.input ++ i.pending.take (i.room p)).length := by
    rw [room] at more ⊢
    rw [List.length_append, List.length_take]
    simp only [Geometry.bufferSize] at more hroom ⊢
    omega
  obtain ⟨trained, short⟩ := settle_of_le (i := i.withPending (i.pending.take (i.room p))) hfull
  have hwhole := settle_append p i (i.pending.take (i.room p)) (i.pending.drop (i.room p))
  rw [List.take_append_drop] at hwhole
  rw [hround]
  exact ⟨trained, short, rfl, hwhole⟩

/-- The rounds settle the block. -/
theorem run_eq_settle (p : Plan) (turns : Nat) (i : Intake)
    (enough : i.pending.length < turns)
    (waits : i.input.length < p.geometry.limit i.pair.phase.isTrained) :
    i.run p turns = i.settle p := by
  induction turns generalizing i with
  | zero => omega
  | succ turns ih =>
    by_cases fits : i.pending.length ≤ i.room p
    · simp [run, round_of_le fits, settle_pending]
    · obtain ⟨trained, short, hpending, hsettle⟩ := round_of_lt waits (Nat.lt_of_not_le fits)
      have hroom := room_pos waits
      have hleft : (i.round p).pending.length < turns := by
        rw [hpending, List.length_drop]
        omega
      have hmore : (i.round p).pending.isEmpty = false := by
        rw [List.isEmpty_eq_false_iff, ← List.length_pos_iff, hpending, List.length_drop]
        omega
      calc i.run p (turns + 1)
          = (i.round p).run p turns := by simp [run, hmore, trained]
        _ = (i.round p).settle p := ih _ hleft (by rw [trained]; exact short)
        _ = i.settle p := hsettle

end Intake

end Denoise
