import Denoise.Arithmetic

/-!
# Channel activity

A retrain waits until the channel looks quiet.  Quiet is judged by the dynamic
range of the last readings of the signal strength, the greatest less the least.

`Meter` keeps the newest readings in a ring.  A slot is written over once the
ring has gone round.  `head` is the next slot to write, `count` the number of
readings that are there.  `recent n` walks back from the head over the last `n`
of them, and no further than what was written since the last `clear`.

`Activity` is a meter, or a range that somebody sets.
-/

namespace Denoise

/-- The newest readings of the signal strength (dB). -/
structure Meter where
  /-- The slots of the ring. -/
  slots : Array Float32
  /-- The slot of the next reading. -/
  head : Nat
  /-- The number of readings kept. -/
  count : Nat
  /-- There is a next slot. -/
  head_lt : head < slots.size
  /-- No more readings than slots. -/
  count_le : count ≤ slots.size

namespace Meter

/-- The capacity of a meter that asks for none. -/
def usualCapacity : Nat := 1500

/-- A meter of no reading.  It has room for at least one. -/
def empty (capacity : Nat) : Meter where
  slots := Array.replicate (max capacity 1) 0
  head := 0
  count := 0
  head_lt := by rw [Array.size_replicate]; omega
  count_le := Nat.zero_le _

/-- The most readings kept. -/
def capacity (m : Meter) : Nat := m.slots.size

/-- The slot after a slot. -/
def nextSlot (m : Meter) : Nat := (m.head + 1) % m.capacity

/-- A reading joins.  One that is not finite does not. -/
def push (m : Meter) (reading : Float32) : Meter :=
  if reading.isFinite then
    { slots := m.slots.set m.head reading m.head_lt
      head := m.nextSlot
      count := min (m.count + 1) m.capacity
      head_lt := by
        rw [Array.size_set]
        exact Nat.mod_lt _ (Nat.lt_of_le_of_lt (Nat.zero_le _) m.head_lt)
      count_le := by
        rw [Array.size_set]
        exact Nat.min_le_right _ _ }
  else m

/-- All readings forgotten.  Their slots are not written. -/
def clear (m : Meter) : Meter where
  slots := m.slots
  head := 0
  count := 0
  head_lt := by have := m.head_lt; omega
  count_le := Nat.zero_le _

/-- The slot of the reading `age` before the newest. -/
def slotOf (m : Meter) (age : Nat) : Nat := (m.head + m.capacity - (age + 1)) % m.capacity

theorem slotOf_lt (m : Meter) (age : Nat) : m.slotOf age < m.slots.size :=
  Nat.mod_lt _ (Nat.lt_of_le_of_lt (Nat.zero_le _) m.head_lt)

/-- The reading `age` before the newest. -/
def reading (m : Meter) (age : Nat) : Float32 :=
  have := m.slotOf_lt age
  m.slots[m.slotOf age]

/-- The last `window` readings, newest first, or all if there are fewer. -/
def recent (m : Meter) (window : Nat) : List Float32 :=
  (List.range (min window m.count)).map m.reading

/-- The greatest of some readings less the least.  No reading has no range. -/
def spread : List Float32 → Float32
  | [] => 0
  | readings => readings.foldl greater leastSingle - readings.foldl lesser greatestSingle

/-- The dynamic range of the last `window` readings (dB). -/
def recentRange (m : Meter) (window : Nat) : Float32 := spread (m.recent window)

/-- A ring of three after five readings, one of them undefined. -/
example : (([1, 2, 3, 0 / 0, 4] : List Float32).foldl push (empty 3)).recent 9 = [4, 3, 2] := by
  decide +kernel
/-- What was there before a `clear` is not read again. -/
example : (((([7, 8, 9] : List Float32).foldl push (empty 3)).clear).push 1).recent 3 = [1] := by
  decide +kernel
example : (([40, 1, 2, 5] : List Float32).foldl push (empty 8)).recentRange 3 = 4 := by
  decide +kernel

end Meter

/-! ## Sources -/

/-- Where the dynamic range of the channel comes from. -/
inductive Activity where
  /-- A fixed range (dB), whatever the window. -/
  | constant (range : Float32)
  /-- The readings of a meter. -/
  | metered (meter : Meter)

namespace Activity

/-- The dynamic range of the last `window` readings (dB). -/
def range (window : Nat) : Activity → Float32
  | constant r => r
  | metered m => m.recentRange window

/-- A source with one more reading.  It takes the place of a fixed range. -/
def observe (reading : Float32) : Activity → Activity
  | constant _ => constant reading
  | metered m => metered (m.push reading)

end Activity

end Denoise
