import Denoise.Checked.Device
import Denoise.Proofs.Checked.Workspace
import Denoise.Proofs.Reset

/-!
# No call can stop a device

A device that was reached by calls passes every check of the next call, whatever the call
is and whatever samples it brings (`Device.Reached.no_fault`).  The call then does what
it does without the checks.

The lengths that every check of an index or a copy rests on are those of
`Device.Reached.shaped`.  What the counts rest on is that the buffers hold no more than
they have room for, which is part of `Device.Reached.holds`.
-/

namespace Denoise

namespace Checked

/-! ## Plans -/

/-- The frame is made even, and so its halves are equal. -/
theorem lengths_eq (samples : Nat) :
    lengths samples = .ok ⟨2 * ((samples + 1) / 2), (samples + 1) / 2, (samples + 1) / 2⟩ := by
  have hframe : (if samples % 2 = 1 then samples + 1 else samples) = 2 * ((samples + 1) / 2) := by
    split <;> omega
  simp only [lengths, rest_eq two_ne_zero, ok_bind, hframe]
  rw [quotient_eq two_ne_zero, ok_bind, minus_eq (by omega), ok_bind, pure_eq_ok]
  congr 2 <;> omega

/-- The sizes of any rate pass the checks, also those of a rate that is refused. -/
theorem geometryOf_eq (rate : Float32) (s : Settings) :
    geometryOf rate s = .ok (Geometry.ofRate? rate s) := by
  rw [geometryOf, Geometry.ofRate?]
  split
  · rfl
  · simp only [lengths_eq, ok_bind]
    by_cases hhalf : 2 ≤ (Geometry.frameSamples rate + 1) / 2
    · rw [if_neg (by omega), dif_pos hhalf, ensure, dif_pos hhalf, ok_bind]
      rfl
    · rw [if_pos (by omega), dif_neg hhalf]
      rfl

theorem hann_eq (m : Elementary) (n : Nat) : hann m n = .ok (Denoise.hann m n) := by
  rw [hann, Denoise.hann]
  split
  · rfl
  · rw [minus_eq (by omega), ok_bind, divisor_eq (by omega), ok_bind, pure_eq_ok]

theorem windowFor_eq (m : Elementary) (g : Geometry) :
    windowFor m g = .ok (.forGeometry m g) := by
  rw [windowFor, Window.forGeometry]
  split
  · rfl
  · rw [hann_eq, ok_bind]
    rfl

theorem planOf_eq (numerics : Numerics) (s : Settings) (rate : Float32) :
    planOf numerics s rate = .ok (Plan.ofRate? numerics s rate) := by
  rw [planOf, geometryOf_eq, ok_bind, Plan.ofRate?]
  cases Geometry.ofRate? rate s with
  | none => rfl
  | some g =>
    simp only [windowFor_eq, ok_bind]
    rfl

/-! ## A block -/

/-- A buffer that holds no more than it has room for takes in a block of any length. -/
theorem push_eq {t : Trailing Sample} (h : t.samples.length ≤ t.capacity) (block : List Sample) :
    push t block = .ok (t.push block) := by
  have hnewest : newestOf t.capacity block = .ok (block.drop (block.length - t.capacity)) := by
    rw [newestOf]
    split
    · rw [minus_eq (by omega), ok_bind, slice_eq (by omega) (Nat.le_refl _), List.take_length]
    · rw [show block.length - t.capacity = 0 by omega, List.drop_zero, pure_eq_ok]
  rw [push, hnewest, ok_bind, minus_eq h, ok_bind]
  split
  · rw [minus_eq (by omega), ok_bind]
    rfl
  · have hnone : (block.drop (block.length - t.capacity)).length
        - (t.capacity - t.samples.length) = 0 := by omega
    simp only [Trailing.push, hnone, List.drop_zero, pure_eq_ok]

section Block

variable {k : Kernel} {p : Plan} {w : Workspace} {i : Intake}

theorem trainFrom_eq (hk : k.Computes p.numerics.transform) (hw : w.Fits k p.geometry) :
    trainFrom k p i w = .ok (w.trainFrom k p i) := by
  rw [trainFrom, Workspace.trainFrom]
  split
  · have hset : ({ w with training := i.input.take p.geometry.demand } : Workspace).Fits k
        p.geometry := { hw with }
    rw [train_eq hk hset, ok_bind]
    rfl
  · rfl

variable (hk : k.Computes p.numerics.transform)
  (hfloor : p.numerics.elementary.powerOfDb Gain.priorFloorDb ≤ Gain.priorCeiling)

include hk hfloor

theorem drain_eq (turns : Nat) (hw : w.Fits k p.geometry) (hi : i.pair.Shaped p) :
    drain k p turns i w = .ok (w.drain k p turns i) := by
  induction turns generalizing i w with
  | zero => rfl
  | succ turns ih =>
    rw [drain, Workspace.drain]
    split
    next hwhole =>
      have htake : (i.input.take p.geometry.frameLen).length = p.geometry.frameLen := by
        rw [hw.frame] at hwhole
        rw [List.length_take, Nat.min_eq_left hwhole]
      have hwritten : overwrite w.frame i.input = i.input.take p.geometry.frameLen := by
        rw [overwrite_of_le hwhole, hw.frame]
      have hset : ({ w with frame := overwrite w.frame i.input } : Workspace).Fits k p.geometry :=
        { hw with frame := by rw [hwritten, htake] }
      obtain ⟨hprocessed, hfits⟩ := Workspace.process_eq hk hset hi.sized
      rw [process_eq hk hset hfloor hi, ok_bind]
      refine ih hfits ?_
      rw [hprocessed]
      exact hi.process (by rw [hwritten, htake])
    next => rfl

theorem work_eq (hw : w.Fits k p.geometry) (hi : i.pair.Shaped p) :
    work k p (i.enter p) w = .ok (w.round k p i) := by
  have hentered : (i.enter p).pair.Shaped p := hi
  obtain ⟨htrained, -, hfits⟩ := Workspace.trainFrom_eq hk hw hentered.sized
  rw [work, trainFrom_eq hk hw, ok_bind, Workspace.round]
  simp only
  split
  · refine drain_eq hk hfloor _ hfits ?_
    rw [htrained]
    exact Intake.shaped_train hentered
  · rfl

end Block

end Checked

namespace Intake

variable {p : Plan} {i : Intake}

/-- Cutting frames leaves no more in the buffer than there was. -/
theorem length_input_drain (turns : Nat) : (i.drain p turns).input.length ≤ i.input.length := by
  induction turns generalizing i with
  | zero => exact Nat.le_refl _
  | succ turns ih =>
    simp only [Intake.drain]
    split
    · refine Nat.le_trans ih ?_
      rw [List.length_drop]
      omega
    · exact Nat.le_refl _

/-- A round puts no more into the buffer than it has room for. -/
theorem length_input_round (h : i.input.length ≤ p.geometry.bufferSize) :
    (i.round p).input.length ≤ p.geometry.bufferSize := by
  have hentered : (i.enter p).input.length ≤ p.geometry.bufferSize := by
    rw [Intake.enter, List.length_append, List.length_take]
    omega
  have htrained : ((i.enter p).train p).input = (i.enter p).input := by
    rw [Intake.train]
    split <;> rfl
  simp only [Intake.round]
  split
  · refine Nat.le_trans (length_input_drain _) ?_
    rwa [htrained]
  · rwa [htrained]

/-- A round takes as much as the buffer has room for. -/
theorem pending_round : (i.round p).pending
    = i.pending.drop (p.geometry.bufferSize - i.input.length) := by
  rw [round_eq]
  rfl

end Intake

namespace Checked

section Block

variable {k : Kernel} {p : Plan} {w : Workspace} {i : Intake}

/-- What is taken out of a staged block is cut off within its bounds. -/
theorem takeIn_eq {staged : List Sample} {offset : Nat} (hoffset : offset ≤ staged.length)
    (hpending : i.pending = staged.drop offset) (hroom : i.input.length ≤ p.geometry.bufferSize) :
    takeIn p staged offset i = .ok (i.enter p,
      offset + min (staged.length - offset) (p.geometry.bufferSize - i.input.length)) := by
  rw [takeIn, slice_eq hoffset (Nat.le_refl _), ok_bind, List.take_length, minus_eq hroom, ok_bind,
    List.length_drop, ← hpending]
  rfl

/-- Every turn of the loop passes the checks.  The invariant is that what is pending is
the rest of the staged block, and that the buffer is not over its size. -/
theorem run_eq (hk : k.Computes p.numerics.transform)
    (hfloor : p.numerics.elementary.powerOfDb Gain.priorFloorDb ≤ Gain.priorCeiling)
    {staged : List Sample} {offset : Nat} (turns : Nat) (hw : w.Fits k p.geometry)
    (hi : i.pair.Shaped p) (hoffset : offset ≤ staged.length)
    (hpending : i.pending = staged.drop offset) (hroom : i.input.length ≤ p.geometry.bufferSize) :
    run k p staged turns offset i w = .ok (w.run k p turns i) := by
  induction turns generalizing i w offset with
  | zero => rfl
  | succ turns ih =>
    let next := offset + min (staged.length - offset) (p.geometry.bufferSize - i.input.length)
    have hnext : next ≤ staged.length := by omega
    obtain ⟨hround, -, hfits⟩ := Workspace.round_eq hk hw hi.sized
    have hleft : (w.round k p i).result.pending = staged.drop next := by
      rw [hround, Intake.pending_round, hpending, List.drop_drop]
      by_cases hlast : staged.length - offset ≤ p.geometry.bufferSize - i.input.length
      · rw [List.drop_of_length_le (by omega), List.drop_of_length_le (by omega)]
      · congr 1
        omega
    have hdone : (decide (staged.length ≤ next) || next == offset
          && !(w.round k p i).result.pair.phase.isTrained)
        = ((w.round k p i).result.pending.isEmpty
          || (!(w.round k p i).result.pair.phase.isTrained
            && (w.round k p i).result.pending.length == i.pending.length)) := by
      have hempty : decide (staged.length ≤ next) = (staged.drop next).isEmpty := by
        rw [Bool.eq_iff_iff, decide_eq_true_iff, List.isEmpty_iff, List.drop_eq_nil_iff]
      have hstill : (next == offset)
          = ((staged.drop next).length == (staged.drop offset).length) := by
        rw [Bool.eq_iff_iff, beq_iff_eq, beq_iff_eq, List.length_drop, List.length_drop]
        omega
      rw [hleft, hpending, hempty, hstill, Bool.and_comm]
    rw [run, takeIn_eq hoffset hpending hroom, ok_bind]
    simp only
    rw [work_eq hk hfloor hw hi, ok_bind, hdone]
    simp only [Workspace.run]
    split
    · rfl
    · refine ih hfits ?_ hnext hleft ?_
      · rw [hround]
        exact Intake.shaped_round hi
      · rw [hround]
        exact Intake.length_input_round hroom

end Block

/-! ## Calls -/

section Calls

variable {k : Kernel} {d : Device}

theorem arrive_eq (h : d.Stands k)
    (htrailing : d.engine.trailing.samples.length ≤ d.engine.trailing.capacity)
    (block : List Sample) : arrive k d block = .ok (d.arrive k block) := by
  rw [arrive, Device.arrive]
  split
  · rfl
  · have hset : ({ d.workspace with staged := block } : Workspace).Fits k d.engine.plan.geometry :=
      { h.fits with }
    simp only [push_eq htrailing, ok_bind]
    rw [advance_eq h.computes hset, ok_bind]
    rfl

/-- A block passes the checks if the engine is in shape and no buffer is over its size. -/
theorem feed_eq (h : d.Stands k) (hshaped : d.engine.pair.Shaped d.engine.plan)
    (hfloor : d.engine.plan.numerics.elementary.powerOfDb Gain.priorFloorDb ≤ Gain.priorCeiling)
    (htrailing : d.engine.trailing.samples.length ≤ d.engine.trailing.capacity)
    (hinput : d.engine.input.length ≤ d.engine.plan.geometry.bufferSize) (block : List Sample) :
    feed k d block = .ok (d.feed k block) := by
  obtain ⟨hengine, -, -, -, hfits⟩ := h.arrive_eq block
  have hplan : (d.arrive k block).1.engine.plan = d.engine.plan := by
    rw [hengine, Engine.arrive_plan]
  have harrived : (d.arrive k block).1.engine.input = d.engine.input := by
    rw [hengine, Engine.arrive_input]
  have hpair : (d.arrive k block).1.engine.pair.Shaped d.engine.plan := by
    rw [hengine]
    exact Engine.shaped_arrive hshaped block
  let w := (d.arrive k block).1.workspace
  let i : Intake := ⟨(d.arrive k block).1.engine.pair, (d.arrive k block).1.engine.input, w.staged,
    [], (d.arrive k block).2⟩
  have hinput : i.input.length ≤ d.engine.plan.geometry.bufferSize := by
    show (d.arrive k block).1.engine.input.length ≤ _
    rwa [harrived]
  have hpending : i.pending = w.staged.drop 0 := rfl
  have hrun := run_eq h.computes hfloor (w.staged.length + 1) hfits hpair (Nat.zero_le _) hpending
    hinput
  simp only [feed, arrive_eq h htrailing, ok_bind, Device.feed, hplan]
  rw [hrun, ok_bind]
  rfl

section Operations

variable {S : Type} [SampleKind S]

theorem setRate_eq (k : Kernel) (d : Device) (rate : Float32) :
    (setRate k d rate : Checked (Performed Device S)) = .ok (d.perform k (.setRate rate)) := by
  simp only [setRate, planOf_eq, ok_bind, Device.perform, Engine.setRate]
  cases Plan.ofRate? d.engine.plan.numerics d.engine.plan.settings rate <;> rfl

/-- A device is created, or refused, without a check that fails. -/
theorem create_eq (k : Kernel) (numerics : Numerics) (rate : Float32) (s : Settings)
    (activity : Nat → Float32) :
    create k numerics rate s activity = .ok (Device.create k numerics rate s activity) := by
  rw [create, Device.create, Engine.create]
  cases s.violation? with
  | some v => rfl
  | none =>
    simp only [planOf_eq, ok_bind]
    cases Plan.ofRate? numerics s rate <;> rfl

/-- Every call on a device that was reached by calls passes the checks. -/
theorem perform_eq (h : d.Reached k)
    (hfloor : d.engine.plan.numerics.elementary.powerOfDb Gain.priorFloorDb ≤ Gain.priorCeiling)
    (op : Operation S) : perform k d op = .ok (d.perform k op) := by
  cases op with
  | feed activity block =>
    obtain ⟨samples, hholds⟩ := h.holds
    have hset : ({ d with engine := { d.engine with activity := activity } } : Device).Stands k :=
      ⟨h.stands.computes, h.stands.sized, h.stands.fits, h.stands.unstaged⟩
    have htrailing : d.engine.trailing.samples.length ≤ d.engine.trailing.capacity := by
      rw [hholds.trailing, List.length_drop]
      show samples.length - (samples.length - _) ≤ d.engine.plan.geometry.demand
      omega
    have hinput : d.engine.input.length ≤ d.engine.plan.geometry.bufferSize :=
      Nat.le_of_lt (Nat.lt_trans hholds.waits (d.engine.plan.geometry.limit_lt_bufferSize _))
    rw [perform, feed_eq hset h.shaped hfloor htrailing hinput, ok_bind]
    rfl
  | setHold held => rfl
  | reset => rfl
  | retune carrier => rfl
  | setRate rate => exact setRate_eq k d rate

end Operations

/-- The geometry of a device is that of the samples of a frame at its rate. -/
theorem lengths_of_reached (h : d.Reached k) :
    lengths (Geometry.frameSamples d.engine.plan.geometry.sampleRate)
      = .ok ⟨d.engine.plan.geometry.frameLen, d.engine.plan.geometry.tailLen,
          d.engine.plan.geometry.hop⟩ := by
  obtain ⟨g, hgeometry, hplan⟩ := Option.map_eq_some_iff.1 h.made.plan
  have hg : g = d.engine.plan.geometry := congrArg Plan.geometry hplan
  have hhop : (Geometry.frameSamples d.engine.plan.geometry.sampleRate + 1) / 2
      = d.engine.plan.geometry.hop := by
    rw [Geometry.ofRate?] at hgeometry
    split at hgeometry
    · cases hgeometry
    · simp only at hgeometry
      split at hgeometry
      · rw [← hg, ← Option.some.inj hgeometry]
      · cases hgeometry
  rw [lengths_eq, hhop]
  rfl

/-- Nothing can stop a device.  A new one is built for any settings and any rate, or
refused.  In one that was reached by calls, whatever the samples were, every vector has
the length that its geometry gives it, and the next call passes every check.  The floor
of the prior ratio is computed outside, and is not to lie above its ceiling.

No check is made on the sizes themselves, which words hold under `Geometry.Fits`. -/
theorem no_operation_stops (h : d.Reached k)
    (hfloor : d.engine.plan.numerics.elementary.powerOfDb Gain.priorFloorDb ≤ Gain.priorCeiling) :
    let g := d.engine.plan.geometry
    (∀ c, c = d.engine.pair.active ∨ c = d.engine.pair.candidate →
        c.profile.power.length = g.fftSize
          ∧ c.gains.length = g.fftSize
          ∧ (∀ frame ∈ c.profile.history, frame.length = g.fftSize)
          ∧ c.memory.tail.length = g.tailLen
          ∧ (∀ powers, c.memory.clean = some powers → powers.length = g.fftSize)
          ∧ 0 < c.profile.capacity)
      ∧ lengths (Geometry.frameSamples g.sampleRate) = .ok ⟨g.frameLen, g.tailLen, g.hop⟩
      ∧ g.tailLen = g.hop ∧ g.hop = g.frameLen / 2 ∧ g.fftSize = 2 * g.frameLen
      ∧ (∀ (numerics : Numerics) (rate : Float32) (s : Settings) (activity : Nat → Float32),
        create k numerics rate s activity = .ok (Device.create k numerics rate s activity))
      ∧ ∀ (S : Type) [SampleKind S] (op : Operation S), perform k d op = .ok (d.perform k op) := by
  intro g
  have hhalf : g.hop = g.frameLen / 2 := by
    rw [Geometry.frameLen]
    omega
  have hshape : ∀ c : Chain, c.Shaped d.engine.plan →
      c.profile.power.length = g.fftSize ∧ c.gains.length = g.fftSize
        ∧ (∀ frame ∈ c.profile.history, frame.length = g.fftSize)
        ∧ c.memory.tail.length = g.tailLen
        ∧ (∀ powers, c.memory.clean = some powers → powers.length = g.fftSize)
        ∧ 0 < c.profile.capacity := fun c hc =>
    ⟨hc.sized.profile.power, hc.sized.gains, hc.sized.profile.history, hc.sized.memory.tail,
      hc.sized.memory.clean, hc.capacity⟩
  refine ⟨?_, lengths_of_reached h, rfl, hhalf, rfl, create_eq k, fun S _ op => perform_eq h hfloor op⟩
  rintro c (rfl | rfl)
  · exact hshape _ h.shaped.active
  · exact hshape _ h.shaped.candidate

end Calls

end Checked

namespace Specimen

/-- The functions of the platform, with the one power that a chain needs written out. -/
def elementary : Elementary :=
  { Elementary.native with
    pow := fun x y => if x == 10 && y == -2.5 then 0.0031622776 else Float32.pow x y }

/-- A plan with these functions. -/
def checkedPlan : Plan :=
  { numerics := ⟨elementary, plan.numerics.transform⟩, settings := settings, geometry := geometry }

/-- A device for this plan. -/
def checkedDevice : Device := ⟨.idle checkedPlan quiet 0, .fresh kernel geometry⟩

theorem checkedDevice_reached : checkedDevice.Reached kernel := by
  have hvalid : settings.Valid := by
    show settings.violation? = none
    decide +kernel
  have hplan : Plan.ofRate? checkedPlan.numerics settings 200 = some checkedPlan := by
    rw [Plan.ofRate?, geometry_eq]
    rfl
  have hcomputes : kernel.Computes checkedPlan.numerics.transform := kernel_computes
  exact .created hcomputes (Device.create_of_ofRate? kernel hvalid hplan quiet)

/-- Eight samples, none of which is a number. -/
def undefinedBlock : Operation Float32 := .feed quiet (List.replicate 8 (0.0 / 0.0))

theorem no_operation_stops_specimen :
    checkedDevice.Reached kernel
      ∧ checkedPlan.numerics.elementary.powerOfDb Gain.priorFloorDb ≤ Gain.priorCeiling
      ∧ Checked.perform kernel checkedDevice undefinedBlock
        = .ok (checkedDevice.perform kernel undefinedBlock) := by
  have hfloor : checkedPlan.numerics.elementary.powerOfDb Gain.priorFloorDb ≤ Gain.priorCeiling := by
    decide +kernel
  have hdone := Checked.no_operation_stops checkedDevice_reached hfloor
  exact ⟨checkedDevice_reached, hfloor, hdone.2.2.2.2.2.2 Float32 undefinedBlock⟩

end Specimen

end Denoise
