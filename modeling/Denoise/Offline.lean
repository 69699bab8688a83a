import Denoise.Engine
import Denoise.Wave

/-!
# Whole recordings

A recording is denoised channel by channel.  Each channel has an engine of its
own, which is fed blocks of a fixed size.  The start of a channel, as long as the
training demand, must be noise only.

The output has as many frames as the shortest channel.  It is shorter than the
input by what stays in the engine.
-/

namespace Denoise.Offline

/-- Why a recording cannot be denoised. -/
inductive Failure where
  /-- There is no engine for the rate and the settings. -/
  | engine (error : EngineError)
  /-- Nothing comes out: so many samples of each channel are needed. -/
  | tooShort (demand : Nat)
deriving DecidableEq

/-- Samples fed at a time. -/
def blockSize : Nat := 4096

/-! ## Channels -/

/-- Every `channels`-th sample of an interleaved list, from sample `index` on. -/
def channel {α : Type} (channels index : Nat) (samples : List α) : List α :=
  (samples.zipIdx.filter fun (_, i) => i % channels == index).map Prod.fst

/-- The first `frames` samples of each channel side by side. -/
def interleave (frames : Nat) (channels : List (List Float32)) : List Float32 :=
  let columns := channels.map List.toArray
  (List.range frames).flatMap fun i => columns.map fun column => column.getD i 0

/-- Blocks of `size`, the last of which may be shorter, `turns` at most. -/
def blocksFor {α : Type} (size : Nat) : (turns : Nat) → List α → List (List α)
  | 0, _ => []
  | _, [] => []
  | turns + 1, samples => samples.take size :: blocksFor size turns (samples.drop size)

/-- A list cut into blocks of `size`. -/
def blocks {α : Type} (size : Nat) (samples : List α) : List (List α) :=
  blocksFor size samples.length samples

example : channel 2 1 [10, 20, 11, 21, 12] = [20, 21] := by decide
example : blocks 2 [1, 2, 3, 4, 5] = [[1, 2], [3, 4], [5]] := by decide

/-! ## Engines -/

/-- A channel on its way through an engine. -/
structure Played where
  /-- The engine. -/
  engine : Engine
  /-- The blocks of output, newest first. -/
  outputs : List (List Float32)
  /-- What is reported. -/
  events : List Event

namespace Played

/-- One block more. -/
def step (p : Played) (block : List Float32) : Played :=
  let fed := p.engine.process block
  ⟨fed.engine, fed.output :: p.outputs, p.events ++ fed.events⟩

/-- The whole output. -/
def output (p : Played) : List Float32 := p.outputs.reverse.flatten

end Played

/-- A channel played through an engine. -/
def play (e : Engine) (samples : List Float32) : Played :=
  (blocks blockSize samples).foldl Played.step ⟨e, [], []⟩

/-- A recording, and what is reported. -/
structure Cleaned where
  /-- The samples, interleaved by channel. -/
  samples : List Float32
  /-- What is reported. -/
  events : List Event

/-- The number of frames that every channel has. -/
def commonLength (channels : List (List Float32)) : Nat :=
  match channels.map List.length with
  | [] => 0
  | n :: ns => ns.foldl min n

/-- The interleaved samples of a recording, denoised. -/
def denoise (numerics : Numerics) (s : Settings) (held : Bool) (rate : Float32) (channels : Nat)
    (samples : List Float32) : Except Failure Cleaned :=
  match Engine.create numerics rate s fun _ => 0 with
  | .error error => .error (.engine error)
  | .ok created =>
    let ready := created.engine.setHold held
    let played := (List.range channels).map fun i => play ready.engine (channel channels i samples)
    let outputs := played.map Played.output
    let frames := commonLength outputs
    if frames = 0 then .error (.tooShort created.engine.plan.geometry.demand)
    else .ok ⟨interleave frames outputs,
      played.flatMap fun p => created.events ++ ready.events ++ p.events⟩

end Denoise.Offline
