import Denoise.Profile

/-!
# Plans

Everything that stays fixed while an engine runs at one sample rate: the
arithmetic from outside, the settings, the geometry, and the window, which is
computed once.
-/

namespace Denoise

/-- The arithmetic that comes from outside. -/
structure Numerics where
  /-- The elementary functions. -/
  elementary : Elementary
  /-- The transforms. -/
  transform : Transform Float32

/-- What is fixed at one sample rate. -/
structure Plan where
  /-- The arithmetic. -/
  numerics : Numerics
  /-- The tunables. -/
  settings : Settings
  /-- The sizes. -/
  geometry : Geometry
  /-- The analysis window. -/
  window : Window Float32 := .forGeometry numerics.elementary geometry
  /-- The window is the one of the geometry. -/
  window_eq : window = .forGeometry numerics.elementary geometry := by rfl

namespace Plan

/-- The plan at a sample rate, unless the rate is too low. -/
def ofRate? (numerics : Numerics) (s : Settings) (rate : Float32) : Option Plan :=
  (Geometry.ofRate? rate s).map fun g => { numerics := numerics, settings := s, geometry := g }

/-- The rules of its profiles. -/
def rules (p : Plan) : ProfileRules := .of p.geometry p.settings

/-- The gain on the output of synthesis. -/
def outputScale (p : Plan) : Float32 := p.window.compensation * p.settings.outputGain

/-- The spectrum of a frame. -/
def spectrum (p : Plan) (frame : List Sample) : List Sample :=
  p.window.analyze p.numerics.transform p.geometry.fftSize frame

/-- The magnitudes of a frame. -/
def magnitudes (p : Plan) (frame : List Sample) : List Float32 :=
  (p.spectrum frame).map Phasor.norm

/-- A profile sampled from a stretch of noise. -/
def sampleProfile (p : Plan) (samples : List Sample) (profile : Profile) : Profile :=
  p.rules.sample p.magnitudes samples profile

end Plan

end Denoise
