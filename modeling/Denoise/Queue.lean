import Denoise.Trailing

/-!
# The newest samples in a bounded queue

`Trailing` says which samples are kept.  They are kept in a queue that is made once.  It takes
nothing that it has no room for, and it lets samples go only when it is told how many.

`Queue` has the operations of such a queue, and `Queue.Bounded` says what they do.  Whatever queue
that is, `Queue.keep` makes room in it for a block and `Queue.copyRecent` copies the newest samples
from it, over a list that may hold anything.
-/

namespace Denoise

/-- The operations of a queue `R` of samples. -/
structure Queue (R α : Type) where
  /-- A queue of no sample, with room for so many. -/
  make : Nat → R
  /-- The most samples in it. -/
  capacity : R → Nat
  /-- The samples in it, oldest first. -/
  contents : R → List α
  /-- The number of samples in it. -/
  length : R → Nat
  /-- The number of samples that it has room for. -/
  vacant : R → Nat
  /-- So many of the oldest samples leave. -/
  discard : R → Nat → R
  /-- Samples join. -/
  join : R → List α → R

namespace Queue

variable {R α : Type}

/-- The queue is first in, first out, and takes only as many samples as it has room for. -/
structure Bounded (q : Queue R α) : Prop where
  capacity_make : ∀ n, 0 < n → q.capacity (q.make n) = n
  contents_make : ∀ n, q.contents (q.make n) = []
  length_eq : ∀ r, q.length r = (q.contents r).length
  vacant_eq : ∀ r, q.vacant r = q.capacity r - (q.contents r).length
  capacity_discard : ∀ r n, q.capacity (q.discard r n) = q.capacity r
  contents_discard : ∀ r n, q.contents (q.discard r n) = (q.contents r).drop n
  capacity_join : ∀ r samples, q.capacity (q.join r samples) = q.capacity r
  contents_join : ∀ r samples,
    q.contents (q.join r samples) = q.contents r ++ samples.take (q.vacant r)

/-- A block joins the newest samples. -/
def keep (q : Queue R α) (r : R) (block : List α) : R :=
  let capacity := q.capacity r
  let newest := if capacity < block.length then block.drop (block.length - capacity) else block
  let vacant := q.vacant r
  let r := if vacant < newest.length then q.discard r (newest.length - vacant) else r
  q.join r newest

/-- All samples leave. -/
def clear (q : Queue R α) (r : R) : R := q.discard r (q.length r)

/-- The newest `count` samples, oldest first, copied to a list that is emptied before. -/
def copyRecent (q : Queue R α) (r : R) (count : Nat) (old : List α) : List α :=
  old.take 0 ++ (q.contents r).drop (q.length r - count)

/-- A queue that is a list. -/
def listed : Queue (Trailing α) α where
  make n := ⟨n, []⟩
  capacity := Trailing.capacity
  contents := Trailing.samples
  length := Trailing.length
  vacant t := t.capacity - t.length
  discard t n := { t with samples := t.samples.drop n }
  join t samples := { t with samples := t.samples ++ samples.take (t.capacity - t.length) }

theorem listed_bounded : (listed : Queue (Trailing α) α).Bounded where
  capacity_make _ _ := rfl
  contents_make _ := rfl
  length_eq _ := rfl
  vacant_eq _ := rfl
  capacity_discard _ _ := rfl
  contents_discard _ _ := rfl
  capacity_join _ _ := rfl
  contents_join _ _ := rfl

/-- A full queue refuses what comes, unless room is made. -/
example : listed.join ⟨3, [0, 1, 2]⟩ [3, 4] = ⟨3, [0, 1, 2]⟩
    ∧ listed.keep ⟨3, [0, 1, 2]⟩ [3, 4] = ⟨3, [2, 3, 4]⟩ := by decide

end Queue

end Denoise
