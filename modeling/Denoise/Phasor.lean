import Denoise.Arithmetic

/-!
# Complex samples

A `Phasor` is a complex number over any number type: a sample of a complex
baseband signal, or one bin of a spectrum.  Only what the signal path needs is
here: sum, scaling by a real number, and the norm of a single-precision phasor.
-/

namespace Denoise

/-- A complex number. -/
structure Phasor (K : Type) where
  /-- The real part. -/
  re : K
  /-- The imaginary part. -/
  im : K
deriving BEq, DecidableEq

/-- A sample as the noise reducer sees it. -/
abbrev Sample := Phasor Float32

namespace Phasor

variable {K : Type}

instance [Zero K] : Zero (Phasor K) := ⟨⟨0, 0⟩⟩

instance [Add K] : Add (Phasor K) := ⟨fun z w => ⟨z.re + w.re, z.im + w.im⟩⟩

/-- A real number as a phasor. -/
def ofReal [Zero K] (x : K) : Phasor K := ⟨x, 0⟩

/-- A phasor times a real number. -/
def scale [Mul K] (z : Phasor K) (g : K) : Phasor K := ⟨z.re * g, z.im * g⟩

@[simp] theorem zero_re [Zero K] : (0 : Phasor K).re = 0 := rfl

@[simp] theorem zero_im [Zero K] : (0 : Phasor K).im = 0 := rfl

@[simp] theorem add_re [Add K] (z w : Phasor K) : (z + w).re = z.re + w.re := rfl

@[simp] theorem add_im [Add K] (z w : Phasor K) : (z + w).im = z.im + w.im := rfl

@[simp] theorem scale_re [Mul K] (z : Phasor K) (g : K) : (z.scale g).re = z.re * g := rfl

@[simp] theorem scale_im [Mul K] (z : Phasor K) (g : K) : (z.scale g).im = z.im * g := rfl

/-- The modulus, through double precision.  It is infinite where a part is, also
beside an undefined one. -/
def norm (z : Sample) : Float32 :=
  if z.re.isInf || z.im.isInf then 1 / 0
  else
    let x := widen z.re
    let y := widen z.im
    narrow (x * x + y * y).sqrt

example : norm ⟨3, -4⟩ = 5 ∧ norm ⟨0.0 / 0.0, -1 / 0⟩ = 1 / 0 := by decide +kernel

end Phasor

end Denoise
