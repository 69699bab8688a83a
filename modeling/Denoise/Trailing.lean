/-!
# The most recent samples

A bounded queue that keeps the newest samples and drops the oldest.  A block
that is longer than the queue is cut to its newest part.  Then as many of the
oldest are discarded as the block finds no room for, and the block joins.
-/

namespace Denoise

/-- The newest samples, oldest first. -/
structure Trailing (α : Type) where
  /-- The most samples kept. -/
  capacity : Nat
  /-- The samples kept. -/
  samples : List α
deriving DecidableEq

namespace Trailing

variable {α : Type}

/-- A queue of no sample.  It has room for at least one. -/
def empty (capacity : Nat) : Trailing α := ⟨max capacity 1, []⟩

/-- The number of samples kept. -/
def length (t : Trailing α) : Nat := t.samples.length

/-- A block joins the queue. -/
def push (t : Trailing α) (block : List α) : Trailing α :=
  let newest := block.drop (block.length - t.capacity)
  let room := t.capacity - t.samples.length
  let discarded := newest.length - room
  { t with samples := t.samples.drop discarded ++ newest }

/-- The newest `count` samples, oldest first. -/
def recent (t : Trailing α) (count : Nat) : List α := t.samples.drop (t.length - count)

/-- The queue emptied. -/
def clear (t : Trailing α) : Trailing α := { t with samples := [] }

example : (((empty 4).push [0, 1, 2]).push [3, 4, 5]).samples = [2, 3, 4, 5] := by decide
example : (((empty 4).push [0, 1]).push [2, 3, 4, 5, 6, 7]).recent 2 = [6, 7] := by decide

end Trailing

end Denoise
