import Denoise.Fourier.MixedRadix
import Denoise.Plan

/-!
# The arithmetic of the machine

The arithmetic that a running noise reducer uses: the elementary functions of
the platform and the transform for every size.
-/

namespace Denoise

/-- The arithmetic in use. -/
def Numerics.machine : Numerics := ⟨.native, Fourier.mixedRadix⟩

end Denoise
