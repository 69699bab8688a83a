import Denoise.Batch
import Mathlib.Tactic.Ring

/-!
# Frames of a growing stretch

`Batch.frames` cuts a stretch into overlapping frames.  `Batch.rest` is what the
last of them leaves: the samples from the start of the frame that is not whole
yet.  It is always shorter than a frame.

A stretch that grows keeps the frames it had.  The new ones are those of the rest
and what was added (`Batch.frames_append`), and the new rest is theirs too
(`Batch.rest_append`).  So whoever holds the rest alone can go on as if it had
the whole stretch.
-/

namespace Denoise

/-! ## Sizes -/

namespace Geometry

theorem hop_pos (g : Geometry) : 0 < g.hop := Nat.lt_of_lt_of_le Nat.zero_lt_two g.two_le_hop

theorem frameLen_pos (g : Geometry) : 0 < g.frameLen := Nat.mul_pos Nat.zero_lt_two g.hop_pos

/-- The training demand holds at least two frames. -/
theorem two_frames_le_demand (g : Geometry) : 2 * g.frameLen ≤ g.demand := by
  have h : 1 * g.frameLen ≤ g.noiseFrames * g.frameLen :=
    Nat.mul_le_mul_right _ g.noiseFrames_pos
  simp only [demand]
  omega

/-- There is a frame in the training demand. -/
theorem frameLen_lt_demand (g : Geometry) : g.frameLen < g.demand := by
  have h := g.two_frames_le_demand
  have := g.frameLen_pos
  omega

end Geometry

namespace Batch

/-- What the whole frames of a stretch leave of it. -/
def rest (g : Geometry) (samples : List Sample) : List Sample :=
  samples.drop (frameCount g samples.length * g.hop)

/-! ## How many frames there are -/

/-- A frame is there exactly if there are samples for it. -/
theorem frameCount_eq_zero {g : Geometry} {length : Nat} :
    frameCount g length = 0 ↔ length < g.frameLen := by
  have h : length / g.hop < 2 ↔ length < 2 * g.hop := Nat.div_lt_iff_lt_mul g.hop_pos
  simp only [frameCount, Geometry.frameLen]
  omega

/-- One hop fewer is one frame fewer. -/
theorem frameCount_of_le {g : Geometry} {length : Nat} (h : g.frameLen ≤ length) :
    frameCount g length = frameCount g (length - g.hop) + 1 := by
  have hdiv : length / g.hop = (length - g.hop) / g.hop + 1 :=
    Nat.div_eq_sub_div g.hop_pos (by simp only [Geometry.frameLen] at h; omega)
  have hone : 1 ≤ (length - g.hop) / g.hop :=
    (Nat.one_le_div_iff g.hop_pos).2 (by simp only [Geometry.frameLen] at h; omega)
  simp only [frameCount]
  omega

/-- The hops of the whole frames, and one more, are there. -/
theorem frameCount_mul_le (g : Geometry) (length : Nat) :
    frameCount g length * g.hop ≤ length := by
  calc frameCount g length * g.hop
      ≤ length / g.hop * g.hop := Nat.mul_le_mul_right _ (Nat.sub_le _ _)
    _ ≤ length := Nat.div_mul_le_self _ _

/-- Every frame that is counted is whole. -/
theorem frame_end_le {g : Geometry} {length index : Nat} (h : index < frameCount g length) :
    index * g.hop + g.frameLen ≤ length := by
  have hle : index + 2 ≤ length / g.hop := by simp only [frameCount] at h; omega
  calc index * g.hop + g.frameLen
      = (index + 2) * g.hop := by simp only [Geometry.frameLen]; ring
    _ ≤ length / g.hop * g.hop := Nat.mul_le_mul_right _ hle
    _ ≤ length := Nat.div_mul_le_self _ _

/-! ## What is left -/

theorem length_rest (g : Geometry) (samples : List Sample) :
    (rest g samples).length = samples.length - frameCount g samples.length * g.hop :=
  List.length_drop

/-- Once a frame has been whole, a hop and the samples of the next are left. -/
theorem length_rest_of_le {g : Geometry} {samples : List Sample}
    (h : g.frameLen ≤ samples.length) :
    (rest g samples).length = g.hop + samples.length % g.hop := by
  have hone : 1 ≤ samples.length / g.hop :=
    (Nat.one_le_div_iff g.hop_pos).2 (by simp only [Geometry.frameLen] at h; omega)
  have hmul : (samples.length / g.hop - 1) * g.hop = samples.length / g.hop * g.hop - g.hop := by
    rw [Nat.sub_mul, Nat.one_mul]
  have hle : 1 * g.hop ≤ samples.length / g.hop * g.hop := Nat.mul_le_mul_right _ hone
  have hdiv := Nat.div_add_mod' samples.length g.hop
  rw [length_rest, frameCount, hmul]
  omega

/-- A stretch without a whole frame is left as it is. -/
theorem rest_of_lt {g : Geometry} {samples : List Sample} (h : samples.length < g.frameLen) :
    rest g samples = samples := by
  rw [rest, frameCount_eq_zero.2 h, Nat.zero_mul, List.drop_zero]

/-- What is left is shorter than a frame. -/
theorem length_rest_lt (g : Geometry) (samples : List Sample) :
    (rest g samples).length < g.frameLen := by
  by_cases h : samples.length < g.frameLen
  · rwa [rest_of_lt h]
  · rw [length_rest_of_le (Nat.le_of_not_lt h), Geometry.frameLen, Nat.two_mul]
    exact Nat.add_lt_add_left (Nat.mod_lt _ g.hop_pos) _

/-- The rest of a stretch is the rest of what its first hop leaves. -/
theorem rest_drop_hop {g : Geometry} {samples : List Sample} (h : g.frameLen ≤ samples.length) :
    rest g (samples.drop g.hop) = rest g samples := by
  rw [rest, rest, List.length_drop, frameCount_of_le h, List.drop_drop]
  congr 1
  ring

/-! ## The frames -/

theorem frames_of_lt {g : Geometry} {samples : List Sample} (h : samples.length < g.frameLen) :
    frames g samples = [] := by
  rw [frames, frameCount_eq_zero.2 h, List.range_zero, List.map_nil]

/-- What the frames of a stretch leave has no frame. -/
theorem frames_rest_append_nil (g : Geometry) (samples : List Sample) :
    frames g (rest g samples ++ []) = [] := by
  rw [List.append_nil]
  exact frames_of_lt (length_rest_lt g samples)

theorem frameAt_drop_hop (g : Geometry) (samples : List Sample) (index : Nat) :
    frameAt g (samples.drop g.hop) index = frameAt g samples (index + 1) := by
  rw [frameAt, frameAt, List.drop_drop]
  congr 2
  ring

/-- The first frame, and those that come a hop later. -/
theorem frames_of_le {g : Geometry} {samples : List Sample} (h : g.frameLen ≤ samples.length) :
    frames g samples = samples.take g.frameLen :: frames g (samples.drop g.hop) := by
  rw [frames, frames, List.length_drop, frameCount_of_le h, List.range_succ_eq_map, List.map_cons,
    List.map_map]
  congr 1
  · rw [frameAt, Nat.zero_mul, List.drop_zero]
  · exact List.map_congr_left fun index _ => (frameAt_drop_hop g samples index).symm

theorem length_frames (g : Geometry) (samples : List Sample) :
    (frames g samples).length = frameCount g samples.length := by
  rw [frames, List.length_map, List.length_range]

theorem length_of_mem_frames {g : Geometry} {samples frame : List Sample}
    (h : frame ∈ frames g samples) : frame.length = g.frameLen := by
  obtain ⟨index, hindex, rfl⟩ := List.mem_map.1 h
  have hend := frame_end_le (List.mem_range.1 hindex)
  rw [frameAt, List.length_take, List.length_drop]
  omega

/-! ## A stretch that grows -/

/-- The first whole frames of a longer stretch are those of the shorter one, and
the others are those of its rest and what was added. -/
theorem frames_append (g : Geometry) (samples more : List Sample) :
    frames g (samples ++ more) = frames g samples ++ frames g (rest g samples ++ more) := by
  by_cases h : samples.length < g.frameLen
  · rw [frames_of_lt h, rest_of_lt h, List.nil_append]
  · have hle : g.frameLen ≤ samples.length := Nat.le_of_not_lt h
    have hhop : g.hop ≤ samples.length := by simp only [Geometry.frameLen] at hle; omega
    have hall : g.frameLen ≤ (samples ++ more).length := by rw [List.length_append]; omega
    have ih := frames_append g (samples.drop g.hop) more
    rw [rest_drop_hop hle] at ih
    rw [frames_of_le hall, frames_of_le hle, List.take_append_of_le_length hle,
      List.drop_append_of_le_length hhop, ih, List.cons_append]
termination_by samples.length
decreasing_by
  have := g.hop_pos
  rw [List.length_drop]
  omega

/-- The frames of the longer stretch are as many as those of the shorter one and those of
the rest. -/
theorem length_frames_rest_append (g : Geometry) (samples more : List Sample) :
    frameCount g samples.length + (frames g (rest g samples ++ more)).length
      = frameCount g (samples ++ more).length := by
  have h := congrArg List.length (frames_append g samples more)
  rw [List.length_append, length_frames, length_frames] at h
  exact h.symm

/-- A whole frame stays what it is when the stretch grows. -/
theorem frameAt_append {g : Geometry} {samples : List Sample} {index : Nat}
    (h : index < frameCount g samples.length) (more : List Sample) :
    frameAt g (samples ++ more) index = frameAt g samples index := by
  have hend := frame_end_le h
  rw [frameAt, frameAt, List.drop_append_of_le_length (by omega), List.take_append_of_le_length]
  rw [List.length_drop]
  omega

/-- The last of the frames that come with a longer stretch. -/
theorem frameAt_of_frames_concat {g : Geometry} {samples more : List Sample}
    {front : List (List Sample)} {frame : List Sample}
    (h : frames g (rest g samples ++ more) = front ++ [frame]) :
    frame = frameAt g (samples ++ more) (frameCount g (samples ++ more).length - 1) := by
  have hall := frames_append g samples more
  have hcount := length_frames_rest_append g samples more
  rw [h, List.length_append, List.length_singleton, ← Nat.add_assoc] at hcount
  rw [h, ← List.append_assoc, frames, ← hcount, List.range_succ, List.map_append,
    List.map_singleton] at hall
  rw [← hcount, Nat.add_sub_cancel]
  exact (List.singleton_inj.1 (List.append_inj' hall rfl).2).symm

/-- The rest of a longer stretch is that of the rest and what was added. -/
theorem rest_append (g : Geometry) (samples more : List Sample) :
    rest g (samples ++ more) = rest g (rest g samples ++ more) := by
  by_cases h : samples.length < g.frameLen
  · rw [rest_of_lt h]
  · have hle : g.frameLen ≤ samples.length := Nat.le_of_not_lt h
    have hhop : g.hop ≤ samples.length := by simp only [Geometry.frameLen] at hle; omega
    have hall : g.frameLen ≤ (samples ++ more).length := by rw [List.length_append]; omega
    have ih := rest_append g (samples.drop g.hop) more
    rw [rest_drop_hop hle, ← List.drop_append_of_le_length hhop, rest_drop_hop hall] at ih
    exact ih
termination_by samples.length
decreasing_by
  have := g.hop_pos
  rw [List.length_drop]
  omega

end Batch

end Denoise
