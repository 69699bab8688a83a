/-!
# Elementary functions

Exponentials, logarithms and cosines come from outside.  The noise reducer is a
function of them, and what is proved about it holds for any choice that has the
properties the proof names.  `Elementary.native` is the choice that runs.
-/

namespace Denoise

/-- The elementary functions in use, in the precision they are used in. -/
structure Elementary where
  /-- The exponential of a single. -/
  exp : Float32 → Float32
  /-- The natural logarithm of a single. -/
  log : Float32 → Float32
  /-- A single to the power of a single. -/
  pow : Float32 → Float32 → Float32
  /-- The exponential of a double. -/
  expWide : Float → Float
  /-- The natural logarithm of a double. -/
  logWide : Float → Float
  /-- The cosine of a double. -/
  cosWide : Float → Float

/-- The functions of the platform. -/
def Elementary.native : Elementary where
  exp := Float32.exp
  log := Float32.log
  pow := Float32.pow
  expWide := Float.exp
  logWide := Float.log
  cosWide := Float.cos

/-- A power ratio from its decibels. -/
def Elementary.powerOfDb (m : Elementary) (db : Float32) : Float32 := m.pow 10 (db / 10)

end Denoise
