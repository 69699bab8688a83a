import Denoise.Device
import Denoise.Proofs.Session
import Denoise.Proofs.Workspace

/-!
# A device does what its engine does

Whatever the vectors of a device hold, a call on it returns, reports and leaves what
the same call on its engine by itself does (`Device.perform_eq`).  So two devices with
one engine cannot be told apart (`Device.answers_eq`), and what is known of sessions of
engines is known of devices.

`Device.Stands` is what is true of a device between two calls, and `Device.Reached` says
that it came about by calls.
-/

namespace Denoise

/-! ## A block -/

theorem ChainPair.Sized.process {p : Plan} {c : ChainPair} (h : c.Sized p.geometry)
    {frame : List Sample} (hframe : frame.length = p.geometry.frameLen) :
    (c.process p frame).pair.Sized p.geometry :=
  ⟨(h.active.step (p.length_spectrum hframe) c.held).1,
    (h.candidate.step (p.length_spectrum hframe) c.held).1⟩

namespace Workspace

variable {k : Kernel} {p : Plan} {w : Workspace} {i : Intake}

/-- Training on the workspace is training, and leaves every buffer as long as it was. -/
theorem trainFrom_eq (hk : k.Computes p.numerics.transform) (hw : w.Fits k p.geometry)
    (hi : i.pair.Sized p.geometry) :
    (w.trainFrom k p i).result = i.train p
      ∧ (i.train p).pair.Sized p.geometry
      ∧ (w.trainFrom k p i).workspace.Fits k p.geometry := by
  rw [trainFrom, Intake.train]
  split
  · have hset : ({ w with training := i.input.take p.geometry.demand } : Workspace).Fits k
        p.geometry := { hw with }
    obtain ⟨htrained, hfits⟩ := train_eq hk hset i.pair
    refine ⟨?_, ⟨hi.active.train _, hi.active.train _⟩, hfits⟩
    simp only [htrained]
  · exact ⟨rfl, hi, hw⟩

/-- The frames that are cut on the workspace are those of the engine, and are heard
alike. -/
theorem drain_eq (hk : k.Computes p.numerics.transform) (turns : Nat) (hw : w.Fits k p.geometry)
    (hi : i.pair.Sized p.geometry) :
    (w.drain k p turns i).result = i.drain p turns
      ∧ (i.drain p turns).pair.Sized p.geometry
      ∧ (w.drain k p turns i).workspace.Fits k p.geometry := by
  induction turns generalizing i w with
  | zero => exact ⟨rfl, hi, hw⟩
  | succ turns ih =>
    simp only [drain, Intake.drain, hw.frame, hw.hop]
    by_cases hwhole : p.geometry.frameLen ≤ i.input.length
    · have htake : (i.input.take p.geometry.frameLen).length = p.geometry.frameLen := by
        rw [List.length_take, Nat.min_eq_left hwhole]
      have hwritten : overwrite w.frame i.input = i.input.take p.geometry.frameLen := by
        rw [overwrite_of_le (by rwa [hw.frame]), hw.frame]
      rw [if_pos hwhole, if_pos htake, hwritten]
      have hset : ({ w with frame := i.input.take p.geometry.frameLen } : Workspace).Fits k
          p.geometry := { hw with frame := htake }
      obtain ⟨hprocessed, hfits⟩ := process_eq hk hset hi
      rw [hprocessed]
      exact ih hfits (hi.process htake)
    · have htake : (i.input.take p.geometry.frameLen).length ≠ p.geometry.frameLen := by
        rw [List.length_take]
        omega
      rw [if_neg hwhole, if_neg htake]
      exact ⟨rfl, hi, hw⟩

theorem round_eq (hk : k.Computes p.numerics.transform) (hw : w.Fits k p.geometry)
    (hi : i.pair.Sized p.geometry) :
    (w.round k p i).result = i.round p
      ∧ (i.round p).pair.Sized p.geometry
      ∧ (w.round k p i).workspace.Fits k p.geometry := by
  have hentered : (i.enter p).pair.Sized p.geometry := hi
  obtain ⟨htrained, hsized, hfits⟩ := trainFrom_eq hk hw hentered
  simp only [round, Intake.round]
  rw [htrained]
  split
  · exact drain_eq hk _ hfits hsized
  · exact ⟨htrained, hsized, hfits⟩

/-- The loop on the workspace is that of the engine, in as many turns. -/
theorem run_eq (hk : k.Computes p.numerics.transform) (turns : Nat) (hw : w.Fits k p.geometry)
    (hi : i.pair.Sized p.geometry) :
    (w.run k p turns i).result = i.run p turns
      ∧ (i.run p turns).pair.Sized p.geometry
      ∧ (w.run k p turns i).workspace.Fits k p.geometry := by
  induction turns generalizing i w with
  | zero => exact ⟨rfl, hi, hw⟩
  | succ turns ih =>
    obtain ⟨hround, hsized, hfits⟩ := round_eq hk hw hi
    simp only [run, Intake.run, hround]
    split
    · exact ⟨hround, hsized, hfits⟩
    · exact ih hfits hsized

end Workspace

/-! ## Between two calls -/

/-- A move of the protocol keeps the sizes of both chains. -/
theorem ChainPair.Sized.advance {p : Plan} {c : ChainPair} (h : c.Sized p.geometry)
    (activity : Nat → Float32) (trailing : Trailing Sample) (samples : Nat) :
    (c.advance p activity trailing samples).pair.Sized p.geometry := by
  simp only [ChainPair.advance]
  split
  · exact h
  · cases c.phase with
    | steady =>
      simp only
      split
      · split
        · rw [ChainPair.defer]
          split <;> exact ⟨h.active, h.candidate⟩
        · exact ⟨h.active, h.candidate.resample _⟩
      · exact ⟨h.active, h.candidate⟩
    | swapPending =>
      simp only
      split
      · exact ⟨h.candidate, h.active⟩
      · exact ⟨h.active, h.candidate⟩
    | uninitialized => exact ⟨h.active, h.candidate⟩
    | training => exact ⟨h.active, h.candidate⟩
    | retraining => exact ⟨h.active, h.candidate⟩

theorem ChainPair.Sized.beginTraining {g : Geometry} {c : ChainPair} (h : c.Sized g) :
    c.beginTraining.Sized g := by
  rw [ChainPair.beginTraining]
  split
  · exact ⟨h.active, h.candidate⟩
  · exact h

/-- What is true of a device between two calls. -/
structure Device.Stands (k : Kernel) (d : Device) : Prop where
  /-- The kernel computes the transforms of the plan. -/
  computes : k.Computes d.engine.plan.numerics.transform
  /-- The vectors of the chains have their lengths. -/
  sized : d.engine.pair.Sized d.engine.plan.geometry
  /-- So have those of the workspace. -/
  fits : d.workspace.Fits k d.engine.plan.geometry
  /-- Nothing is staged. -/
  unstaged : d.workspace.staged = []

namespace Device.Stands

variable {k : Kernel} {d : Device}

theorem arrive_eq (h : d.Stands k) (block : List Sample) :
    (d.arrive k block).1.engine = (d.engine.arrive block).1
      ∧ (d.arrive k block).2 = (d.engine.arrive block).2
      ∧ (d.engine.arrive block).1.pair.Sized d.engine.plan.geometry
      ∧ (d.arrive k block).1.workspace.staged = block
      ∧ (d.arrive k block).1.workspace.Fits k d.engine.plan.geometry := by
  by_cases hblock : block = []
  · rw [hblock]
    exact ⟨rfl, rfl, h.sized, h.unstaged, h.fits⟩
  · have hset : ({ d.workspace with staged := block } : Workspace).Fits k d.engine.plan.geometry :=
      { h.fits with }
    obtain ⟨hadvanced, hstaged, hfits⟩ := Workspace.advance_eq h.computes hset d.engine.activity
      (d.engine.trailing.push block) block.length d.engine.pair.beginTraining
    rw [Engine.arrive_of_ne_nil hblock, arrive, if_neg (by simpa using hblock)]
    exact ⟨by simp only [hadvanced], by simp only [hadvanced], h.sized.beginTraining.advance _ _ _,
      hstaged, hfits⟩

/-- A block does to a device what it does to the engine. -/
theorem feed_eq (h : d.Stands k) (block : List Sample) :
    (d.feed k block).device.engine = (d.engine.feed block).engine
      ∧ (d.feed k block).output = (d.engine.feed block).output
      ∧ (d.feed k block).outcome = (d.engine.feed block).outcome
      ∧ (d.feed k block).events = (d.engine.feed block).events
      ∧ (d.engine.feed block).engine.pair.Sized d.engine.plan.geometry
      ∧ (d.feed k block).device.workspace.Fits k d.engine.plan.geometry := by
  obtain ⟨hengine, hevents, hsized, hstaged, hfits⟩ := h.arrive_eq block
  have hplan := Engine.arrive_plan d.engine block
  simp only [feed, Engine.feed, hengine, hevents, hstaged, hplan]
  obtain ⟨hrun, hsized', hfits'⟩ := Workspace.run_eq h.computes (block.length + 1) hfits
    (i := ⟨(d.engine.arrive block).1.pair, (d.engine.arrive block).1.input, block, [],
      (d.engine.arrive block).2⟩) hsized
  rw [hrun]
  exact ⟨rfl, rfl, rfl, rfl, hsized', { hfits' with }⟩

end Device.Stands

/-! ## Construction -/

/-- A device that could be created has an idle engine and a fresh workspace. -/
theorem Device.create_idle {k : Kernel} {numerics : Numerics} {rate : Float32} {s : Settings}
    {activity : Nat → Float32} {made : Device}
    (h : Device.create k numerics rate s activity = .ok made) :
    ∃ p, s.Valid ∧ Plan.ofRate? numerics s rate = some p
      ∧ made = ⟨.idle p activity 0, .fresh k p.geometry⟩ := by
  rw [Device.create] at h
  cases hmade : Engine.create numerics rate s activity with
  | error error =>
    rw [hmade] at h
    cases h
  | ok reconfigured =>
    obtain ⟨p, hvalid, hplan, hengine⟩ := Engine.create_eq hmade
    rw [hmade] at h
    cases h
    exact ⟨p, hvalid, hplan, by simp only [hengine]; rfl⟩

/-! ## A call -/

/-- What a call on a device did to its engine. -/
def Performed.onEngine {S : Type} (done : Performed Device S) : Performed Engine S :=
  ⟨done.state.engine, done.reply, done.events⟩

section Calls

variable {S : Type} [SampleKind S] {k : Kernel} {d : Device}

namespace Device.Stands

/-- Fed a block, a device does what its engine does. -/
theorem perform_feed (h : d.Stands k) (activity : Nat → Float32) (block : List S) :
    (d.perform k (.feed activity block)).onEngine = d.engine.perform (.feed activity block)
      ∧ (d.perform k (.feed activity block)).state.Stands k := by
  have hset : ({ d with engine := { d.engine with activity := activity } } : Device).Stands k :=
    ⟨h.computes, h.sized, h.fits, h.unstaged⟩
  obtain ⟨hengine, houtput, houtcome, hevents, hsized, hfits⟩ :=
    hset.feed_eq (block.map SampleKind.toPhasor)
  have hplan := Engine.Holds.feed_plan { d.engine with activity := activity }
    (block.map SampleKind.toPhasor)
  rw [← hengine] at hsized hplan
  refine ⟨?_, ?_, ?_, ?_, rfl⟩
  · simp only [Performed.onEngine, perform, Engine.perform, Engine.process, hengine, houtput,
      houtcome, hevents]
  · simp only [perform, hplan]
    exact h.computes
  · simp only [perform, hplan]
    exact hsized
  · simp only [perform, hplan]
    exact hfits

theorem perform_setRate (h : d.Stands k) (rate : Float32) :
    (d.perform k (.setRate rate : Operation S)).onEngine = d.engine.perform (.setRate rate)
      ∧ (d.perform k (.setRate rate : Operation S)).state.Stands k := by
  simp only [perform, Engine.perform]
  cases hset : d.engine.setRate rate with
  | error error => exact ⟨rfl, h⟩
  | ok changed =>
    obtain ⟨p, hplan, hengine⟩ := Engine.setRate_eq hset
    obtain ⟨hnumerics, -, -⟩ := Plan.ofRate?_eq hplan
    have hcomputes : k.Computes changed.engine.plan.numerics.transform := by
      rw [hengine]
      show k.Computes p.numerics.transform
      rw [hnumerics]
      exact h.computes
    have hsized : changed.engine.pair.Sized changed.engine.plan.geometry := by
      rw [hengine]
      exact ⟨Chain.Sized.fresh p, Chain.Sized.fresh p⟩
    exact ⟨rfl, hcomputes, hsized, { Workspace.fresh_fits k changed.engine.plan.geometry with },
      h.unstaged⟩

/-- A call does to a device what it does to the engine by itself. -/
theorem perform_eq (h : d.Stands k) (op : Operation S) :
    (d.perform k op).onEngine = d.engine.perform op ∧ (d.perform k op).state.Stands k := by
  have hfresh := Chain.Sized.fresh d.engine.plan
  cases op with
  | feed activity block => exact h.perform_feed activity block
  | setHold held =>
    exact ⟨rfl, h.computes, ⟨h.sized.active, h.sized.candidate⟩, h.fits, h.unstaged⟩
  | reset => exact ⟨rfl, h.computes, ⟨hfresh, hfresh⟩, h.fits, h.unstaged⟩
  | retune carrier => exact ⟨rfl, h.computes, ⟨hfresh, hfresh⟩, h.fits, h.unstaged⟩
  | setRate rate => exact h.perform_setRate rate

/-- A device that was created can stand in for its engine. -/
theorem of_create {numerics : Numerics} {rate : Float32} {s : Settings} {activity : Nat → Float32}
    {made : Device} (hk : k.Computes numerics.transform)
    (hmade : Device.create k numerics rate s activity = .ok made) : made.Stands k := by
  obtain ⟨p, hvalid, hplan, rfl⟩ := create_idle hmade
  obtain ⟨hnumerics, -, -⟩ := Plan.ofRate?_eq hplan
  refine ⟨?_, ⟨Chain.Sized.fresh p, Chain.Sized.fresh p⟩, Workspace.fresh_fits k p.geometry, rfl⟩
  show k.Computes p.numerics.transform
  rw [hnumerics]
  exact hk

/-! ## Series of calls -/

/-- So a series of calls gives the same on a device and on its engine. -/
theorem series_eq (h : d.Stands k) (ops : List (Operation S)) :
    (series (Device.perform k) d ops).map Performed.onEngine
      = series Engine.perform d.engine ops := by
  induction ops generalizing d with
  | nil => rfl
  | cons op ops ih =>
    obtain ⟨hdone, hstands⟩ := h.perform_eq op
    rw [series, List.map_cons, hdone, ih hstands, series, ← hdone]
    rfl

/-- What a caller sees depends on the engine alone. -/
theorem answers_eq (h : d.Stands k) (ops : List (Operation S)) :
    d.answers k ops = (series Engine.perform d.engine ops).map (Performed.answer id) := by
  rw [answers, ← h.series_eq ops, List.map_map]
  rfl

end Device.Stands

/-! ## Every device -/

/-- A device that was built, and on which calls were made.  Each call may be for samples
of another kind. -/
inductive Device.Reached (k : Kernel) : Device → Prop
  | created {numerics : Numerics} {rate : Float32} {s : Settings} {activity : Nat → Float32}
      {d : Device} :
    k.Computes numerics.transform →
    Device.create k numerics rate s activity = .ok d →
    Reached k d
  | performed {S : Type} [SampleKind S] {d : Device} (op : Operation S) :
    Reached k d →
    Reached k (d.perform k op).state

theorem Device.Reached.stands (h : d.Reached k) : d.Stands k := by
  induction h with
  | created hk hcreate => exact .of_create hk hcreate
  | performed op _ ih => exact (ih.perform_eq op).2

end Calls

namespace Specimen

/-- The transforms of the machine, which leave the points they were given in their
scratch. -/
def kernel : Kernel where
  scratchLen := id
  forward buffer scratch := (plan.numerics.transform.forward buffer, overwrite scratch buffer)
  inverse buffer scratch := (plan.numerics.transform.inverse buffer, overwrite scratch buffer)

theorem kernel_computes : kernel.Computes plan.numerics.transform :=
  ⟨fun _ _ _ => ⟨rfl, length_overwrite _ _⟩, fun _ _ _ => ⟨rfl, length_overwrite _ _⟩⟩

/-- A device for the plan. -/
def device : Device := ⟨.idle plan quiet 0, .fresh kernel geometry⟩

theorem device_reached : device.Reached kernel := by
  have hcreate : Device.create kernel plan.numerics 200 settings quiet = .ok device := by
    rw [Device.create, create_eq]
    rfl
  exact .created kernel_computes hcreate

end Specimen

end Denoise
