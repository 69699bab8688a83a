import Denoise.Activity
import Denoise.Proofs.Tightening

/-!
# What a meter reads

A meter is a ring that is written over, and a `clear` leaves the old readings in their slots.  So
what it reads back has to be tied to what was pushed, whatever was pushed and cleared before.

`Wrote` says who wrote a slot last.  A write to the slot ends it, and so does a clear.  `Keeps` is
the invariant: the slot that is walked to at an age below the count was last written by the finite
reading that was pushed so many before the newest (`Keeps.perform`, `after_keeps`).  The count is
that of the finite readings since the clear, as far as there are slots.

The rest is about the range of a list of finite readings (`spread_eq`), which grows with the list.
-/

namespace Denoise

namespace Meter

/-! ## Histories -/

/-- What is done to a meter. -/
inductive Act where
  /-- A reading is pushed. -/
  | push (reading : Float32)
  /-- All readings are forgotten. -/
  | clear

/-- The reading that an act adds, which has to be finite. -/
def Act.added? : Act → Option Float32
  | push reading => if reading.isFinite then some reading else none
  | clear => none

/-- Whether an act leaves the earlier readings. -/
def Act.isPush : Act → Bool
  | push _ => true
  | clear => false

/-- The finite readings that were pushed since the last clear, newest first. -/
def added (acts : List Act) : List Float32 :=
  (acts.reverse.takeWhile Act.isPush).filterMap Act.added?

/-- A meter after an act. -/
def perform (m : Meter) : Act → Meter
  | .push reading => m.push reading
  | .clear => m.clear

/-- A new meter after some acts, in order. -/
def after (capacity : Nat) (acts : List Act) : Meter := acts.foldl perform (empty capacity)

/-- The last write to `slot` since the last clear was that of `reading`, and so many finite
readings were pushed after it. -/
inductive Wrote (capacity : Nat) : List Act → (slot age : Nat) → Float32 → Prop
  /-- It was the last push. -/
  | now {acts : List Act} {reading : Float32} :
    reading.isFinite = true →
    Wrote capacity (acts ++ [.push reading]) (after capacity acts).head 0 reading
  /-- The last push went to another slot. -/
  | before {acts : List Act} {slot age : Nat} {reading newest : Float32} :
    Wrote capacity acts slot age reading →
    newest.isFinite = true →
    (after capacity acts).head ≠ slot →
    Wrote capacity (acts ++ [.push newest]) slot (age + 1) reading
  /-- The last push was none. -/
  | refused {acts : List Act} {slot age : Nat} {reading newest : Float32} :
    Wrote capacity acts slot age reading →
    newest.isFinite = false →
    Wrote capacity (acts ++ [.push newest]) slot age reading

theorem after_concat (capacity : Nat) (acts : List Act) (act : Act) :
    after capacity (acts ++ [act]) = (after capacity acts).perform act := by
  rw [after, List.foldl_append, List.foldl_cons, List.foldl_nil, after]

theorem added_clear (acts : List Act) : added (acts ++ [.clear]) = [] := by
  rw [added, List.reverse_concat, List.takeWhile_cons_of_neg (by decide), List.filterMap_nil]

theorem added_push (acts : List Act) (reading : Float32) :
    added (acts ++ [.push reading])
      = if reading.isFinite then reading :: added acts else added acts := by
  rw [added, List.reverse_concat, List.takeWhile_cons_of_pos rfl, List.filterMap_cons, ← added,
    Act.added?]
  cases reading.isFinite <;> rfl

theorem isFinite_of_mem_added {acts : List Act} {reading : Float32} (h : reading ∈ added acts) :
    reading.isFinite = true := by
  obtain ⟨act, -, hadded⟩ := List.mem_filterMap.1 h
  cases act with
  | clear => cases hadded
  | push pushed =>
    rw [Act.added?] at hadded
    split at hadded
    next hfinite =>
      cases hadded
      exact hfinite
    next => cases hadded

/-- What a slot was last written with is the reading of that age. -/
theorem Wrote.added {capacity slot age : Nat} {acts : List Act} {reading : Float32}
    (h : Wrote capacity acts slot age reading) : (added acts)[age]? = some reading := by
  induction h with
  | now hfinite => rw [added_push, if_pos hfinite, List.getElem?_cons_zero]
  | before _ hfinite _ ih => rw [added_push, if_pos hfinite, List.getElem?_cons_succ, ih]
  | refused _ hinfinite ih => rw [added_push, hinfinite, if_neg Bool.false_ne_true, ih]

/-! ## The ring -/

section Ring

variable {m : Meter} {reading : Float32} {age : Nat}

theorem push_of_not_finite (h : reading.isFinite = false) : m.push reading = m := by
  rw [push, h, if_neg Bool.false_ne_true]

/-- A reading that is finite takes the slot at the head. -/
theorem head_push (h : reading.isFinite = true) : (m.push reading).head = m.nextSlot := by
  rw [push, if_pos h]

theorem count_push (h : reading.isFinite = true) :
    (m.push reading).count = min (m.count + 1) m.capacity := by
  rw [push, if_pos h]

theorem slots_push (h : reading.isFinite = true) :
    (m.push reading).slots = m.slots.set m.head reading m.head_lt := by
  rw [push, if_pos h]

theorem capacity_push (m : Meter) (reading : Float32) :
    (m.push reading).capacity = m.capacity := by
  cases h : reading.isFinite with
  | false => rw [push_of_not_finite h]
  | true => rw [capacity, slots_push h, Array.size_set, capacity]

theorem head_lt_capacity (m : Meter) : m.head < m.capacity := m.head_lt

/-- The next slot, without division. -/
theorem nextSlot_eq (m : Meter) :
    m.nextSlot = if m.head + 1 = m.capacity then 0 else m.head + 1 := by
  have hlt := m.head_lt_capacity
  rw [nextSlot]
  split
  next hlast => rw [hlast, Nat.mod_self]
  next hinner => exact Nat.mod_eq_of_lt (by omega)

/-- The slot of an age, without division.  Walking back goes round the ring once at most. -/
theorem slotOf_eq (hage : age < m.capacity) : m.slotOf age
    = if age < m.head then m.head - (age + 1) else m.head + m.capacity - (age + 1) := by
  have hlt := m.head_lt_capacity
  rw [slotOf]
  split
  next hfront =>
    rw [show m.head + m.capacity - (age + 1) = m.head - (age + 1) + m.capacity by omega,
      Nat.add_mod_right]
    exact Nat.mod_eq_of_lt (by omega)
  next hback => exact Nat.mod_eq_of_lt (by omega)

/-- The newest reading is where the head was. -/
theorem slotOf_push_zero (h : reading.isFinite = true) : (m.push reading).slotOf 0 = m.head := by
  have hlt := m.head_lt_capacity
  rw [slotOf_eq (by rw [capacity_push]; omega), capacity_push, head_push h, nextSlot_eq]
  split_ifs <;> omega

/-- The others are where they were, one older. -/
theorem slotOf_push_succ (h : reading.isFinite = true) (hage : age + 1 < m.capacity) :
    (m.push reading).slotOf (age + 1) = m.slotOf age := by
  have hlt := m.head_lt_capacity
  rw [slotOf_eq (by rwa [capacity_push]), slotOf_eq (by omega), capacity_push, head_push h,
    nextSlot_eq]
  split_ifs <;> omega

/-- Only the oldest reading of a full ring is at the head. -/
theorem head_ne_slotOf (hage : age + 1 < m.capacity) : m.head ≠ m.slotOf age := by
  have hlt := m.head_lt_capacity
  rw [slotOf_eq (by omega)]
  split_ifs <;> omega

theorem reading_eq (m : Meter) (age : Nat) : some (m.reading age) = m.slots[m.slotOf age]? :=
  (Array.getElem?_eq_getElem (m.slotOf_lt age)).symm

theorem reading_push_zero (h : reading.isFinite = true) :
    (m.push reading).reading 0 = reading := by
  refine Option.some.inj ?_
  rw [reading_eq, slotOf_push_zero h, slots_push h, Array.getElem?_set_self]

/-- The earlier readings are one older then. -/
theorem reading_push_succ (h : reading.isFinite = true) (hage : age + 1 < m.capacity) :
    (m.push reading).reading (age + 1) = m.reading age := by
  refine Option.some.inj ?_
  rw [reading_eq, slotOf_push_succ h hage, slots_push h,
    Array.getElem?_set_ne _ (head_ne_slotOf hage), reading_eq]

end Ring

/-! ## The invariant -/

/-- What the acts say of a meter. -/
structure Keeps (capacity : Nat) (acts : List Act) (m : Meter) : Prop where
  room : m.capacity = max capacity 1
  count : m.count = min (max capacity 1) (added acts).length
  /-- Every slot that may be read was last written by the reading of its age. -/
  wrote : ∀ age < m.count, Wrote capacity acts (m.slotOf age) age (m.reading age)

theorem Keeps.empty (capacity : Nat) : Keeps capacity [] (empty capacity) where
  room := Array.size_replicate
  count := (Nat.min_zero _).symm
  wrote := fun _ hage => absurd hage (Nat.not_lt_zero _)

/-- An act keeps it. -/
theorem Keeps.perform {capacity : Nat} {acts : List Act}
    (h : Keeps capacity acts (after capacity acts)) (act : Act) :
    Keeps capacity (acts ++ [act]) ((after capacity acts).perform act) := by
  cases act with
  | clear =>
    exact ⟨h.room, by rw [added_clear]; exact (Nat.min_zero _).symm,
      fun _ hage => absurd hage (Nat.not_lt_zero _)⟩
  | push reading =>
    cases hfinite : reading.isFinite with
    | false =>
      rw [Meter.perform, push_of_not_finite hfinite]
      refine ⟨h.room, ?_, fun age hage => .refused (h.wrote age hage) hfinite⟩
      rw [added_push, hfinite, if_neg Bool.false_ne_true, h.count]
    | true =>
      refine ⟨(capacity_push _ _).trans h.room, ?_, fun age hage => ?_⟩
      · rw [Meter.perform, count_push hfinite, added_push, if_pos hfinite, h.count, h.room,
          List.length_cons]
        omega
      · rw [Meter.perform] at hage ⊢
        rw [count_push hfinite] at hage
        cases age with
        | zero =>
          rw [slotOf_push_zero hfinite, reading_push_zero hfinite]
          exact .now hfinite
        | succ age =>
          have hinner : age + 1 < (after capacity acts).capacity := by omega
          rw [slotOf_push_succ hfinite hinner, reading_push_succ hfinite hinner]
          exact .before (h.wrote age (by omega)) hfinite (head_ne_slotOf hinner)

/-- It holds after any acts. -/
theorem after_keeps (capacity : Nat) (acts : List Act) :
    Keeps capacity acts (after capacity acts) := by
  induction acts using List.reverseRecOn with
  | nil => exact .empty capacity
  | append_singleton acts act ih =>
    rw [after_concat]
    exact ih.perform act

/-- What is read back is the front of what was added. -/
theorem Keeps.recent {capacity : Nat} {acts : List Act} {m : Meter} (h : Keeps capacity acts m)
    (window : Nat) : m.recent window = (added acts).take (min window m.count) := by
  have hcount : m.count ≤ (added acts).length := h.count ▸ Nat.min_le_right _ _
  refine List.ext_getElem? fun age => ?_
  rw [Meter.recent, List.getElem?_map, List.getElem?_take]
  split
  next hage =>
    rw [List.getElem?_range hage, Option.map_some]
    exact (h.wrote age (by omega)).added.symm
  next hage =>
    rw [List.getElem?_eq_none (by rw [List.length_range]; omega), Option.map_none]

/-! ## The range of some readings -/

section Spread

open Singles Values

variable {readings more : List Float32}

/-- The greatest of some finite readings, which is one of them. -/
theorem isGreatest_foldl (hfinite : ∀ reading ∈ readings, reading.isFinite = true)
    (hne : readings ≠ []) : Profile.IsGreatest (readings.foldl greater leastSingle) readings := by
  obtain ⟨hfound, -, hall⟩ := foldl_choose (R := fun a b => b ≤ a) greater_eq_or
    (fun _ _ => le_greater) (fun _ => le_refl)
    (fun _ _ _ ha hb hc hab hbc => le_trans hc hb ha hbc hab)
    (fun reading hreading => isNaN_of_isFinite (hfinite reading hreading))
    (show leastSingle.isNaN = false by decide)
  refine ⟨?_, hall⟩
  rcases hfound with hstart | hmem
  · -- a reading that is not above the start of the search is that number itself
    obtain ⟨reading, hreading⟩ := List.exists_mem_of_ne_nil readings hne
    have hle := hall reading hreading
    rw [hstart] at hle
    rw [hstart, ← eq_leastSingle (hfinite reading hreading) hle]
    exact hreading
  · exact hmem

/-- The range is the greatest reading less the least. -/
theorem spread_eq (hfinite : ∀ reading ∈ readings, reading.isFinite = true)
    (hne : readings ≠ []) : ∃ high low,
      Profile.IsGreatest high readings ∧ Profile.IsLeast low readings
        ∧ spread readings = high - low := by
  refine ⟨_, _, isGreatest_foldl hfinite hne, Profile.isLeast_leastOf hfinite hne, ?_⟩
  cases readings with
  | nil => exact absurd rfl hne
  | cons => rfl

/-- It is a number, and not negative. -/
theorem spread_nonneg (hfinite : ∀ reading ∈ readings, reading.isFinite = true) :
    (spread readings).isNaN = false ∧ 0 ≤ spread readings := by
  by_cases hne : readings = []
  · rw [hne]
    decide
  · obtain ⟨high, low, hhigh, hlow, heq⟩ := spread_eq hfinite hne
    have hyields := yields_sub (hfinite high hhigh.1) (hfinite low hlow.1)
    have hle := (le_iff_value (hfinite low hlow.1) (hfinite high hhigh.1)).1 (hhigh.2 low hlow.1)
    have hnumber : (high - low).isNaN = false := hyields.isNaN
    rw [heq]
    refine ⟨hnumber, (unsigned_iff.1 (hyields.unsigned (sub_nonneg.2 hle))).resolve_left ?_⟩
    rw [hnumber]
    exact Bool.false_ne_true

/-- More readings have no smaller range. -/
theorem spread_mono (hfinite : ∀ reading ∈ more, reading.isFinite = true)
    (hsub : readings ⊆ more) : spread readings ≤ spread more := by
  by_cases hne : readings = []
  · rw [hne]
    exact (spread_nonneg hfinite).2
  · obtain ⟨reading, hreading⟩ := List.exists_mem_of_ne_nil readings hne
    obtain ⟨high, low, hhigh, hlow, heq⟩ :=
      spread_eq (fun reading hreading => hfinite reading (hsub hreading)) hne
    obtain ⟨high', low', hhigh', hlow', heq'⟩ :=
      spread_eq hfinite (List.ne_nil_of_mem (hsub hreading))
    have fhigh := hfinite high (hsub hhigh.1)
    have flow := hfinite low (hsub hlow.1)
    have fhigh' := hfinite high' hhigh'.1
    have flow' := hfinite low' hlow'.1
    have habove := (le_iff_value fhigh fhigh').1 (hhigh'.2 high (hsub hhigh.1))
    have hbelow := (le_iff_value flow' flow).1 (hlow'.2 low (hsub hlow.1))
    rw [heq, heq']
    exact sub_le_sub_of_value fhigh flow fhigh' flow' (sub_le_sub habove hbelow)

end Spread

/-! ## Every history -/

/-- After any pushes and clears: how many readings are there, which are read back for a window and
who wrote their slots, what the range of them is, and that a wider window has no smaller one. -/
theorem range_of_history (capacity : Nat) (acts : List Act) (window : Nat) :
    let m := after capacity acts
    let read := (added acts).take (min window m.count)
    m.capacity = max capacity 1
      ∧ m.count = min m.capacity (added acts).length
      ∧ m.recent window = read
      ∧ (∀ age < min window m.count, Wrote capacity acts (m.slotOf age) age (m.reading age))
      ∧ (window = 0 ∨ m.count = 0 → m.recentRange window = 0)
      ∧ (window ≠ 0 → m.count ≠ 0 → ∃ high low, Profile.IsGreatest high read
          ∧ Profile.IsLeast low read ∧ m.recentRange window = high - low)
      ∧ (m.recentRange window).isNaN = false
      ∧ 0 ≤ m.recentRange window
      ∧ ∀ wider, window ≤ wider → m.recentRange window ≤ m.recentRange wider := by
  intro m read
  have keeps : Keeps capacity acts m := after_keeps capacity acts
  have hread : m.recent window = read := keeps.recent window
  have hfinite : ∀ reading ∈ added acts, reading.isFinite = true :=
    fun _ => isFinite_of_mem_added
  have hreadFinite : ∀ reading ∈ read, reading.isFinite = true :=
    fun reading hreading => hfinite reading (List.mem_of_mem_take hreading)
  have hlength : read.length = min window m.count := by
    have hcount : m.count ≤ (added acts).length := keeps.count ▸ Nat.min_le_right _ _
    rw [List.length_take]
    omega
  have hnonneg := spread_nonneg hreadFinite
  rw [← hread] at hnonneg
  refine ⟨keeps.room, keeps.room ▸ keeps.count, hread,
    fun age hage => keeps.wrote age (by omega), ?_, ?_, hnonneg.1, hnonneg.2, ?_⟩
  · intro hnone
    have hnil : read = [] := List.length_eq_zero_iff.1 (by omega)
    rw [recentRange, hread, hnil]
    rfl
  · intro hwindow hcount
    rw [recentRange, hread]
    exact spread_eq hreadFinite (List.length_pos_iff.1 (by omega))
  · intro wider hle
    rw [recentRange, recentRange, hread, keeps.recent wider]
    refine spread_mono (fun reading hreading => hfinite reading (List.mem_of_mem_take hreading)) ?_
    exact List.take_subset_take_left _ (by omega)

end Meter

end Denoise
