import Denoise.ExponentialIntegral
import Denoise.Phasor

/-!
# Gains by bin

The log-spectral-amplitude gain with a decision-directed prior.  For a bin of
magnitude `m` over noise power `λ`:

* the posterior ratio is `γ = min (m² / λ) 40`;
* the prior ratio is `ξ = 0.98 · X / λ + 0.02 · max (γ - 1) 0`, where `X` is the
  clean power estimated for the frame before, and `0.98` stands for the first
  term on the first frame.  It is held between its floor and `10⁸`;
* the gain is `ξ / (1 + ξ) · exp (½ E₁ (v))` with `v = γ ξ / (1 + ξ)`.

The noise power, `v` and the gain are guarded, so a frame of silence and a frame
of undefined magnitudes both give finite gains.
-/

namespace Denoise

/-- The least noise power of a bin.  It keeps every ratio to it finite on silent
input. -/
def powerFloor : Float32 := 1e-20

namespace Gain

/-- The weight of the frame before in the prior. -/
def smoothing : Float32 := 0.98

/-- The floor of the prior ratio (dB). -/
def priorFloorDb : Float32 := -25

/-- The ceiling of the prior ratio. -/
def priorCeiling : Float32 := 1e8

/-- The ceiling of the posterior ratio. -/
def posteriorCeiling : Float32 := 40

/-- The least argument of the exponential integral. -/
def leastArgument : Float32 := 1e-8

/-! ## Memory -/

/-- What a chain remembers from frame to frame. -/
structure Memory where
  /-- The clean power estimated for the last frame, before which there is none. -/
  clean : Option (List Float32)
  /-- The back half of the last frame, waiting to be overlapped. -/
  tail : List Sample
  /-- The floor of the prior ratio. -/
  priorFloor : Float32
deriving DecidableEq

/-- A memory of no frame. -/
def Memory.fresh (m : Elementary) (tailLen : Nat) : Memory :=
  ⟨none, List.replicate tailLen 0, m.powerOfDb priorFloorDb⟩

/-- The last frame forgotten. -/
def Memory.reset (mem : Memory) : Memory :=
  { mem with clean := none, tail := List.replicate mem.tail.length 0 }

/-- The clean powers by bin.  On the first frame no bin has one. -/
def Memory.previous (mem : Memory) (bins : Nat) : List (Option Float32) :=
  match mem.clean with
  | none => List.replicate bins none
  | some [] => List.replicate bins none
  | some powers => powers.map some

/-! ## One bin -/

/-- What is computed for one bin. -/
structure Bin where
  /-- The posterior ratio. -/
  posterior : Float32
  /-- The prior ratio. -/
  prior : Float32
  /-- The argument of the exponential integral. -/
  argument : Float32
  /-- The log-likelihood ratio of signal against noise. -/
  likelihood : Float32
  /-- The gain. -/
  gain : Float32
  /-- The estimated clean power. -/
  clean : Float32

/-- The posterior ratio of a power over a noise power. -/
def posterior (noise power : Float32) : Float32 := lesser (power / noise) posteriorCeiling

/-- The prior ratio before it is held in range. -/
def rawPrior (noise posterior : Float32) (clean : Option Float32) : Float32 :=
  let past := match clean with
    | none => smoothing
    | some power => smoothing * power / noise
  past + (1 - smoothing) * greater (posterior - 1) 0

/-- A prior ratio held in range.  One that is not finite counts as the ceiling. -/
def heldPrior (floor raw : Float32) : Float32 :=
  clamp floor priorCeiling (if raw.isFinite then raw else priorCeiling)

/-- The gain of one bin from its magnitude and its power. -/
def binOf (m : Elementary) (floor noise magnitude power : Float32) (clean : Option Float32) : Bin :=
  let noise := greater noise powerFloor
  let posterior := posterior noise power
  let prior := heldPrior floor (rawPrior noise posterior clean)
  let weight := prior / (1 + prior)
  let argument := greater (weight * posterior) leastArgument
  let raw := weight * m.exp (0.5 * ExponentialIntegral.e1 m argument)
  let gain := if raw.isFinite then raw else 0
  let amplitude := magnitude * gain
  { posterior := posterior
    prior := prior
    argument := argument
    likelihood := posterior * prior / (1 + prior) - m.log (1 + prior)
    gain := gain
    clean := amplitude * amplitude }

/-- The gain of one bin. -/
def bin (m : Elementary) (floor noise magnitude : Float32) (clean : Option Float32) : Bin :=
  binOf m floor noise magnitude (magnitude * magnitude) clean

/-! ## One frame -/

/-- Magnitudes with each zero replaced by its left neighbour, itself filled. -/
def fillZeros : Option Float32 → List Float32 → List Float32
  | _, [] => []
  | left, x :: xs =>
    let y := match left with
      | some l => if x == 0 then l else x
      | none => x
    y :: fillZeros (some y) xs

example : fillZeros none [0, 3, 0, 0, 2, 0] = [0, 3, 3, 3, 2, 2] := by decide +kernel

/-- The bins of one frame: the noise power, the magnitude and the clean power of
the frame before, side by side. -/
def bins (m : Elementary) (floor : Float32) :
    List Float32 → List Float32 → List (Option Float32) → List Bin
  | noise :: noises, magnitude :: magnitudes, clean :: cleans =>
    bin m floor noise magnitude clean :: bins m floor noises magnitudes cleans
  | _, _, _ => []

/-- The gains of one frame. -/
structure Estimate where
  /-- The gain of each bin. -/
  gains : List Float32
  /-- The power of each bin. -/
  power : List Float32
  /-- The mean log-likelihood ratio per sample of the frame. -/
  likelihood : Float32
  /-- The memory after the frame. -/
  memory : Memory

/-- The mean over the samples of a frame, summed in double precision. -/
def meanLikelihood (frameLen : Nat) (bs : List Bin) : Float32 :=
  narrow (bs.foldl (fun sum b => sum + widen b.likelihood) 0 / ofCount frameLen)

/-- The gains of a frame of given magnitudes over given noise powers. -/
def estimate (m : Elementary) (frameLen : Nat) (mem : Memory) (noise magnitudes : List Float32) :
    Estimate :=
  let filled := fillZeros none magnitudes
  let bs := bins m mem.priorFloor noise filled (mem.previous filled.length)
  { gains := bs.map Bin.gain
    power := filled.map fun x => x * x
    likelihood := meanLikelihood frameLen bs
    memory := { mem with clean := some (bs.map Bin.clean) } }

end Gain

end Denoise
