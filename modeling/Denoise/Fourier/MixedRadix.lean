import Denoise.Fourier.Layout

/-!
# A transform for every size

The transform that runs.  It works in single precision, by the scheme of the number
of points.
-/

namespace Denoise.Fourier

/-- The transform of a list, in one direction. -/
def transform (inverse : Bool) (zs : List Sample) : List Sample :=
  let n := zs.length
  let y := (Scheme.ofSize n).along ⟨.single, inverse⟩ 1 1 (.ofList zs)
  (List.range n).map y.sample

theorem length_transform (inverse : Bool) (zs : List Sample) :
    (transform inverse zs).length = zs.length := by
  simp [transform]

/-- The transform of the platform's arithmetic. -/
def mixedRadix : Transform Float32 :=
  ⟨transform false, transform true, length_transform false, length_transform true⟩

end Denoise.Fourier
