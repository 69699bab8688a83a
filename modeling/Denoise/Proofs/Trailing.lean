import Denoise.Trailing

/-!
# What the trailing queue keeps

A queue that has kept the last `capacity` samples of a stretch keeps those of the
longer stretch when a block joins (`Trailing.push_samples`).  Cutting a long
block first and discarding only as many samples as there is no room for come to
the same.
-/

namespace Denoise.Trailing

variable {α : Type}

/-- Dropping from the front of a stretch before it grows is dropping after. -/
theorem drop_drop_append {samples block : List α} {capacity : Nat} :
    (samples.drop (samples.length - capacity) ++ block).drop
        ((samples.drop (samples.length - capacity) ++ block).length - capacity)
      = (samples ++ block).drop ((samples ++ block).length - capacity) := by
  rw [← List.drop_append_of_le_length (Nat.sub_le _ _), List.drop_drop, List.length_drop]
  congr 1
  simp only [List.length_append]
  omega

/-- A queue within its capacity takes a block and keeps the newest samples. -/
theorem push_samples {t : Trailing α} (h : t.samples.length ≤ t.capacity) (block : List α) :
    (t.push block).samples
      = (t.samples ++ block).drop ((t.samples ++ block).length - t.capacity) := by
  have hcut : t.samples.length + block.length - t.capacity - t.samples.length
      = block.length - t.capacity := by omega
  rw [push, List.drop_append, List.length_append, hcut]
  simp only
  congr 1
  rw [List.length_drop]
  by_cases long : t.capacity ≤ block.length
  · rw [List.drop_of_length_le (by omega), List.drop_of_length_le (by omega)]
  · congr 1
    omega

end Denoise.Trailing
