import Denoise.Log.Entry

/-!
# The log ring

A ring of entries between the thread that processes and the thread that writes
the log.  `head` is the next slot to fill and `tail` the next to empty.  They are
equal when nothing is queued, so one slot always stays free.

An entry that finds no free slot is dropped and counted.  A slot that was emptied
keeps its entry until it is filled again.
-/

namespace Denoise

/-- A ring of log entries. -/
structure Ring where
  /-- The slots. -/
  slots : Array Entry
  /-- The next slot to fill. -/
  head : Nat
  /-- The next slot to empty. -/
  tail : Nat
  /-- Entries dropped since they were last reported. -/
  dropped : Nat
  /-- There is a slot to fill. -/
  head_lt : head < slots.size
  /-- There is a slot to empty. -/
  tail_lt : tail < slots.size

namespace Ring

/-- The number of slots. -/
def slotCount : Nat := 256

/-- A ring of nothing. -/
def empty : Ring where
  slots := Array.replicate slotCount .blank
  head := 0
  tail := 0
  dropped := 0
  head_lt := by simp [slotCount]
  tail_lt := by simp [slotCount]

/-- The slot after a slot. -/
def after (r : Ring) (slot : Nat) : Nat := (slot + 1) % r.slots.size

theorem after_lt (r : Ring) (slot : Nat) : r.after slot < r.slots.size :=
  Nat.mod_lt _ (Nat.lt_of_le_of_lt (Nat.zero_le _) r.head_lt)

/-- An entry joins, or is dropped. -/
def push (r : Ring) (e : Entry) : Ring :=
  if r.after r.head = r.tail then { r with dropped := r.dropped + 1 }
  else
    { slots := r.slots.set r.head e r.head_lt
      head := r.after r.head
      tail := r.tail
      dropped := r.dropped
      head_lt := by simpa using r.after_lt r.head
      tail_lt := by simpa using r.tail_lt }

/-- The oldest entry leaves. -/
def pop (r : Ring) : Option (Entry × Ring) :=
  if r.tail = r.head then none
  else
    have := r.tail_lt
    some (r.slots[r.tail], { r with tail := r.after r.tail, tail_lt := r.after_lt r.tail })

/-- The number of entries queued. -/
def queued (r : Ring) : Nat := (r.head + r.slots.size - r.tail) % r.slots.size

/-- The oldest entries leave, `turns` at most. -/
def popUpTo : (turns : Nat) → Ring → List Entry × Ring
  | 0, r => ([], r)
  | turns + 1, r =>
    match r.pop with
    | none => ([], r)
    | some (e, rest) =>
      let (es, rest) := popUpTo turns rest
      (e :: es, rest)

/-- All entries leave, oldest first. -/
def popAll (r : Ring) : List Entry × Ring := r.popUpTo r.queued

end Ring

end Denoise
