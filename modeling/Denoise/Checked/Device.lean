import Denoise.Checked.Workspace

/-!
# Checked calls

A device as it runs, with every check: how it is built, how a block goes through it, and
what each call does.
-/

namespace Denoise

namespace Checked

/-! ## Plans -/

/-- The samples of a frame, of its tail and of its hop. -/
structure Lengths where
  /-- The frame. -/
  frameLen : Nat
  /-- The tail. -/
  tailLen : Nat
  /-- The hop. -/
  hop : Nat
deriving DecidableEq

/-- The lengths for a frame of so many samples, or of one more where they are odd. -/
def lengths (samples : Nat) : Checked Lengths := do
  let odd ← rest samples 2
  let frameLen := if odd = 1 then samples + 1 else samples
  let tailLen ← quotient frameLen 2
  let hop ← minus frameLen tailLen
  return ⟨frameLen, tailLen, hop⟩

/-- The sizes at a sample rate, unless the rate is too low for a frame. -/
def geometryOf (rate : Float32) (s : Settings) : Checked (Option Geometry) := do
  if !rate.isFinite || rate ≤ 0 then return none
  else
    let l ← lengths (Geometry.frameSamples rate)
    if l.frameLen < 4 then return none
    else
      let ⟨hhop⟩ ← ensure (2 ≤ l.hop)
      return some {
        sampleRate := rate
        wideband := s.widebandThresholdHz < rate
        hop := l.hop
        noiseFrames := max s.noiseFrames 1
        two_le_hop := hhop
        noiseFrames_pos := by omega }

/-- The symmetric Hann window. -/
def hann (m : Elementary) (n : Nat) : Checked (List Float32) := do
  if n < 2 then return List.replicate n 1
  else
    let last : Float ← divisor (← minus n 1)
    return (List.range n).map fun i =>
      narrow (0.5 - 0.5 * m.cosWide (2 * 3.141592653589793 * ofCount i / last))

/-- The window for a geometry. -/
def windowFor (m : Elementary) (g : Geometry) : Checked (Window Float32) := do
  if g.wideband then return .ofWeights g.hop (List.replicate g.frameLen 1)
  else
    let shape ← hann m g.frameLen
    let gain := hopGain g.hop shape
    return .ofWeights g.hop (shape.map (· * gain))

/-- The window of a plan is that of its geometry. -/
theorem forGeometry_plan (numerics : Numerics) (g : Geometry) :
    Window.forGeometry numerics.elementary g = .forGeometry numerics.elementary g := rfl

/-- The plan at a sample rate, unless the rate is too low.  Its window is computed. -/
def planOf (numerics : Numerics) (s : Settings) (rate : Float32) : Checked (Option Plan) := do
  match ← geometryOf rate s with
  | none => return none
  | some g =>
    let _ ← windowFor numerics.elementary g
    return some
      { numerics := numerics, settings := s, geometry := g, window_eq := forGeometry_plan numerics g }

/-! ## A block -/

/-- The part of a block that there can be room for. -/
def newestOf (capacity : Nat) (block : List Sample) : Checked (List Sample) := do
  if capacity < block.length then slice block (← minus block.length capacity) block.length
  else return block

/-- A block joins the queue of the newest samples. -/
def push (t : Trailing Sample) (block : List Sample) : Checked (Trailing Sample) := do
  let newest ← newestOf t.capacity block
  let room ← minus t.capacity t.samples.length
  if room < newest.length then
    let discarded ← minus newest.length room
    return { t with samples := t.samples.drop discarded ++ newest }
  else return { t with samples := t.samples ++ newest }

/-- As much of what is staged from `offset` on enters as there is room for. -/
def takeIn (p : Plan) (staged : List Sample) (offset : Nat) (i : Intake) : Checked (Intake × Nat) := do
  let pending ← slice staged offset staged.length
  let room ← minus p.geometry.bufferSize i.input.length
  return ({ i with input := i.input ++ pending.take room, pending := pending.drop room },
    offset + min pending.length room)

/-- Training, if it has not happened and the demand is buffered. -/
def trainFrom (k : Kernel) (p : Plan) (i : Intake) (w : Workspace) : Checked (Leaves Intake) := do
  if !i.pair.phase.isTrained && p.geometry.demand ≤ i.input.length then
    let trained ← train k p i.pair { w with training := i.input.take p.geometry.demand }
    return ⟨{ i with pair := trained.result.pair, events := i.events ++ trained.result.events },
      trained.workspace⟩
  else return ⟨i, w⟩

/-- Frames are processed while there is one in the buffer, `turns` at most. -/
def drain (k : Kernel) (p : Plan) : (turns : Nat) → Intake → Workspace → Checked (Leaves Intake)
  | 0, i, w => return ⟨i, w⟩
  | turns + 1, i, w => do
    if w.frame.length ≤ i.input.length then
      let done ← process k p i.pair { w with frame := overwrite w.frame i.input }
      drain k p turns { i with
        pair := done.result.pair
        input := i.input.drop w.hop.length
        hops := done.result.hop :: i.hops
        events := i.events ++ done.result.events } done.workspace
    else return ⟨i, w⟩

/-- Training and frames of one round. -/
def work (k : Kernel) (p : Plan) (i : Intake) (w : Workspace) : Checked (Leaves Intake) := do
  let trained ← trainFrom k p i w
  let i := trained.result
  if i.pair.phase.isTrained then drain k p i.input.length i trained.workspace else return trained

/-- Rounds over what is staged from `offset` on, `turns` at most. -/
def run (k : Kernel) (p : Plan) (staged : List Sample) :
    (turns offset : Nat) → Intake → Workspace → Checked (Leaves Intake)
  | 0, _, i, w => return ⟨i, w⟩
  | turns + 1, offset, i, w => do
    let (entered, next) ← takeIn p staged offset i
    let done ← work k p entered w
    if staged.length ≤ next || (next == offset && !done.result.pair.phase.isTrained) then
      return done
    else run k p staged turns next done.result done.workspace

/-- The arrival of a block. -/
def arrive (k : Kernel) (d : Device) (block : List Sample) : Checked (Device × List Event) := do
  if block.isEmpty then return (d, [])
  else
    let e := d.engine
    let w := { d.workspace with staged := block }
    let trailing ← push e.trailing w.staged
    let advanced ← advance k e.plan e.activity trailing block.length e.pair.beginTraining w
    return (⟨{ e with pair := advanced.result.pair, trailing := trailing }, advanced.workspace⟩,
      advanced.result.events)

/-- A block through the device. -/
def feed (k : Kernel) (d : Device) (block : List Sample) : Checked Device.Done := do
  let (arrived, reported) ← arrive k d block
  let e := arrived.engine
  let w := arrived.workspace
  let done ← run k e.plan w.staged (w.staged.length + 1) 0 ⟨e.pair, e.input, w.staged, [], reported⟩ w
  return { device := ⟨{ e with pair := done.result.pair, input := done.result.input },
             { done.workspace with staged := [] }⟩
           output := done.result.output
           outcome := Engine.outcomeOf e.plan done.result
           events := done.result.events }

/-! ## Calls -/

/-- A device for valid settings and a rate that is high enough. -/
def create (k : Kernel) (numerics : Numerics) (rate : Float32) (s : Settings)
    (activity : Nat → Float32) : Checked (Except EngineError Device) := do
  match s.violation? with
  | some v => return .error (.setting v)
  | none =>
    match ← planOf numerics s rate with
    | none => return .error (.sampleRate rate)
    | some p => return .ok ⟨.idle p activity 0, .fresh k p.geometry⟩

/-- A new sample rate.  A device whose new rate is too low stays as it is. -/
def setRate {S : Type} (k : Kernel) (d : Device) (rate : Float32) : Checked (Performed Device S) := do
  let e := d.engine
  match ← planOf e.plan.numerics e.plan.settings rate with
  | none => return ⟨d, .refused (.sampleRate rate), []⟩
  | some p =>
    let new := Engine.idle p e.activity e.carrier
    return ⟨⟨{ new with pair := { new.pair with held := e.pair.held } },
        { Workspace.fresh k p.geometry with
          staged := d.workspace.staged
          training := d.workspace.training }⟩,
      .done, [.rateChanged rate p.geometry.wideband]⟩

/-- A call on a device.  A hold, a reset and a new carrier have nothing to check. -/
def perform {S : Type} [SampleKind S] (k : Kernel) (d : Device) :
    Operation S → Checked (Performed Device S)
  | .feed activity block => do
    let done ← feed k { d with engine := { d.engine with activity := activity } }
      (block.map SampleKind.toPhasor)
    return ⟨done.device, .fed done.outcome (done.output.map SampleKind.ofPhasor), done.events⟩
  | .setHold held =>
    let changed := d.engine.setHold held
    return ⟨{ d with engine := changed.engine }, .done, changed.events⟩
  | .reset => return ⟨{ d with engine := d.engine.reset }, .done, []⟩
  | .retune carrier => return ⟨{ d with engine := d.engine.retune carrier }, .done, []⟩
  | .setRate rate => setRate k d rate

end Checked

end Denoise
