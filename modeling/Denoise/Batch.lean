import Denoise.Chain

/-!
# A stretch as a whole

What one chain makes of a stretch of input that is there from the start.  It is
trained on the front of the stretch, as long as the training demand, and then
steps over every frame that is whole, a hop from one to the next.

There is no buffer here and no division into blocks.  It is what an engine comes
to that is fed the stretch in any blocks, as long as no swap happens.
-/

namespace Denoise.Batch

/-- Frame `index` of a stretch. -/
def frameAt (g : Geometry) (samples : List Sample) (index : Nat) : List Sample :=
  (samples.drop (index * g.hop)).take g.frameLen

/-- The number of whole frames in `length` samples. -/
def frameCount (g : Geometry) (length : Nat) : Nat := length / g.hop - 1

/-- The whole frames of a stretch, in order. -/
def frames (g : Geometry) (samples : List Sample) : List (List Sample) :=
  (List.range (frameCount g samples.length)).map (frameAt g samples)

/-- A chain, and what it has put out. -/
structure Result where
  /-- The chain. -/
  chain : Chain
  /-- The output. -/
  output : List Sample

/-- One frame more. -/
def Result.step (p : Plan) (held : Bool) (r : Result) (frame : List Sample) : Result :=
  let done := r.chain.step p held (p.spectrum frame)
  ⟨done.chain, r.output ++ done.hop⟩

/-- A stretch processed as a whole.  One that is shorter than the demand gives
nothing. -/
def process (p : Plan) (held : Bool) (samples : List Sample) : Result :=
  if samples.length < p.geometry.demand then ⟨.fresh p, []⟩
  else
    (frames p.geometry samples).foldl (Result.step p held)
      ⟨(Chain.fresh p).train p (samples.take p.geometry.demand), []⟩

end Denoise.Batch
