import Denoise.Log.Ring
import Denoise.Proofs.Log.Entry
import Mathlib.Tactic.SplitIfs

/-!
# What a log ring queues

The entries between tail and head, oldest first (`entries`).  To `push` an entry puts it at the end
(`entries_push`), unless all slots but one are taken (`after_head_eq_tail`).  To `pop` takes the
first entry (`entries_pop`), and the loop that pops until nothing is left takes all of them
(`popAll_entries`).

The places in the ring are first stated without division, since none is as far as twice round it
(`mod_size`).  What is left of them is arithmetic.
-/

namespace Denoise.Ring

variable {r rest : Ring} {e : Entry}

/-! ## Places -/

/-- The slot of the entry that is so many behind the oldest. -/
def place (r : Ring) (behind : Nat) : Nat := (r.tail + behind) % r.slots.size

theorem place_lt (r : Ring) (behind : Nat) : r.place behind < r.slots.size :=
  Nat.mod_lt _ (Nat.zero_lt_of_lt r.head_lt)

/-- The entry that is so many behind the oldest. -/
def entry (r : Ring) (behind : Nat) : Entry :=
  have := r.place_lt behind
  r.slots[r.place behind]

/-- The queued entries, oldest first. -/
def entries (r : Ring) : List Entry := (List.range r.queued).map r.entry

/-- The places that are less than twice round the ring. -/
theorem mod_size {k : Nat} (h : k < r.slots.size + r.slots.size) :
    k % r.slots.size = if k < r.slots.size then k else k - r.slots.size := by
  split
  next hfront => exact Nat.mod_eq_of_lt hfront
  next hback =>
    rw [Nat.mod_eq_sub_mod (Nat.le_of_not_lt hback)]
    exact Nat.mod_eq_of_lt (by omega)

/-- The slot after the last one is the first. -/
theorem after_eq {slot : Nat} (h : slot < r.slots.size) :
    r.after slot = if slot + 1 = r.slots.size then 0 else slot + 1 := by
  rw [after, mod_size (by omega)]
  split_ifs <;> omega

/-- An entry is as many slots behind the tail as there are entries before it, without a
division. -/
theorem place_eq {behind : Nat} (h : behind < r.slots.size) :
    r.place behind = if r.tail + behind < r.slots.size then r.tail + behind
      else r.tail + behind - r.slots.size := by
  have htail := r.tail_lt
  rw [place, mod_size (by omega)]

/-- The number of entries is the way from the tail to the head, round the end of the
slots if the head is there already. -/
theorem queued_eq (r : Ring) : r.queued
    = if r.tail ≤ r.head then r.head - r.tail else r.head + r.slots.size - r.tail := by
  have hhead := r.head_lt
  have htail := r.tail_lt
  rw [queued, mod_size (by omega)]
  split_ifs <;> omega

/-- One slot is always free. -/
theorem queued_lt (r : Ring) : r.queued < r.slots.size :=
  Nat.mod_lt _ (Nat.zero_lt_of_lt r.head_lt)

/-- The next slot to fill is the one behind the last entry. -/
theorem place_queued (r : Ring) : r.place r.queued = r.head := by
  have hhead := r.head_lt
  have htail := r.tail_lt
  rw [place_eq r.queued_lt, queued_eq]
  split_ifs <;> omega

/-- No queued entry is in it. -/
theorem head_ne_place {behind : Nat} (h : behind < r.queued) : r.head ≠ r.place behind := by
  have hhead := r.head_lt
  have htail := r.tail_lt
  have hqueued := r.queued_lt
  rw [place_eq (by omega)]
  rw [queued_eq] at h hqueued
  split_ifs at * <;> omega

/-- One slot is always free: without another there is no room. -/
theorem after_head_eq_tail (r : Ring) :
    r.after r.head = r.tail ↔ r.queued + 1 = r.slots.size := by
  have hhead := r.head_lt
  have htail := r.tail_lt
  rw [after_eq hhead, queued_eq]
  split_ifs <;> omega

/-- The ring is empty exactly if its ends meet. -/
theorem tail_eq_head (r : Ring) : r.tail = r.head ↔ r.queued = 0 := by
  have hhead := r.head_lt
  have htail := r.tail_lt
  rw [queued_eq]
  split_ifs <;> omega

theorem slots_empty : empty.slots = Array.replicate slotCount .blank := rfl

theorem queued_empty : empty.queued = 0 := empty.tail_eq_head.1 rfl

theorem length_entries (r : Ring) : r.entries.length = r.queued := by
  rw [entries, List.length_map, List.length_range]

theorem entries_eq_nil (h : r.queued = 0) : r.entries = [] := by
  rw [← List.length_eq_zero_iff, length_entries, h]

theorem entry_eq (r : Ring) (behind : Nat) : some (r.entry behind) = r.slots[r.place behind]? :=
  (Array.getElem?_eq_getElem (r.place_lt behind)).symm

/-! ## An entry joins -/

/-- Where no slot is left, a message is only counted. -/
theorem push_of_full (h : r.queued + 1 = r.slots.size) (e : Entry) :
    r.push e = { r with dropped := r.dropped + 1 } := by
  rw [push, if_pos (r.after_head_eq_tail.2 h)]

section Push

variable (h : r.queued + 1 < r.slots.size)

include h

/-- Else it takes the slot at the head, and the head goes on by one. -/
theorem push_of_room (e : Entry) :
    (r.push e).slots = r.slots.set r.head e r.head_lt ∧ (r.push e).head = r.after r.head
      ∧ (r.push e).tail = r.tail ∧ (r.push e).dropped = r.dropped := by
  rw [push, if_neg (mt r.after_head_eq_tail.1 (Nat.ne_of_lt h))]
  exact ⟨rfl, rfl, rfl, rfl⟩

/-- The entries that are there stay in their places. -/
theorem place_push (e : Entry) (behind : Nat) : (r.push e).place behind = r.place behind := by
  obtain ⟨hslots, -, htail, -⟩ := push_of_room h e
  rw [place, htail, hslots, Array.size_set, place]

theorem queued_push (e : Entry) : (r.push e).queued = r.queued + 1 := by
  have hhead := r.head_lt
  have htail := r.tail_lt
  obtain ⟨hslots, hnext, hsame, -⟩ := push_of_room h e
  rw [queued_eq] at h
  rw [queued_eq, queued_eq, hsame, hnext, hslots, Array.size_set, after_eq hhead]
  split_ifs at * <;> omega

/-- A push leaves the entries that are there, with the new one behind them. -/
theorem entries_push (e : Entry) : (r.push e).entries = r.entries ++ [e] := by
  have hslots := (push_of_room h e).1
  have hlast : (r.push e).entry r.queued = e := by
    refine Option.some.inj ?_
    rw [entry_eq, place_push h, place_queued, hslots, Array.getElem?_set_self]
  have hother : ∀ behind < r.queued, (r.push e).entry behind = r.entry behind := by
    intro behind hbehind
    refine Option.some.inj ?_
    rw [entry_eq, place_push h, hslots, Array.getElem?_set_ne _ (head_ne_place hbehind),
      entry_eq]
  rw [entries, queued_push h, List.range_succ, List.map_append, List.map_singleton, hlast, entries]
  exact congrArg (· ++ [e]) (List.map_congr_left fun behind hbehind =>
    hother behind (List.mem_range.1 hbehind))

end Push

theorem size_push (r : Ring) (e : Entry) : (r.push e).slots.size = r.slots.size := by
  rw [push]
  split
  next => rfl
  next => exact Array.size_set r.head_lt

/-- What is in a slot was there before or has just joined. -/
theorem mem_slots_push {found : Entry} (h : found ∈ (r.push e).slots) :
    found ∈ r.slots ∨ found = e := by
  rw [push] at h
  split at h
  next => exact .inl h
  next => exact Array.mem_or_eq_of_mem_set (w := r.head_lt) h

/-! ## Entries leave -/

/-- Nothing is taken from an empty ring. -/
theorem pop_of_none (h : r.queued = 0) : r.pop = none := by
  rw [pop, if_pos (r.tail_eq_head.2 h)]

/-- The first entry leaves, and the slots stay as they are. -/
theorem entries_pop (h : r.queued ≠ 0) : ∃ rest, r.pop = some (r.entry 0, rest)
    ∧ r.entries = r.entry 0 :: rest.entries ∧ rest.queued + 1 = r.queued
    ∧ rest.slots = r.slots ∧ rest.dropped = r.dropped := by
  have hhead := r.head_lt
  have htail := r.tail_lt
  have hplace : r.place 0 = r.tail := Nat.mod_eq_of_lt htail
  refine ⟨{ r with tail := r.after r.tail, tail_lt := r.after_lt r.tail }, ?_, ?_⟩
  · rw [pop, if_neg (mt r.tail_eq_head.1 h)]
    simp only [entry, hplace]
  generalize hrest : ({ r with tail := _, tail_lt := _ } : Ring) = rest
  have hrestTail : rest.tail = r.after r.tail := hrest ▸ rfl
  have hrestHead : rest.head = r.head := hrest ▸ rfl
  have hslots : rest.slots = r.slots := hrest ▸ rfl
  have hqueued : rest.queued + 1 = r.queued := by
    rw [queued_eq] at h
    rw [queued_eq, queued_eq, hrestTail, hrestHead, hslots, after_eq htail]
    split_ifs at * <;> omega
  have hbehind : ∀ behind, rest.entry behind = r.entry (behind + 1) := by
    intro behind
    refine Option.some.inj ?_
    rw [entry_eq, entry_eq, hslots, place, place, hrestTail, hslots, after, Nat.mod_add_mod,
      Nat.add_assoc, Nat.add_comm 1]
  refine ⟨?_, hqueued, hslots, hrest ▸ rfl⟩
  rw [entries, ← hqueued, List.range_succ_eq_map, List.map_cons, List.map_map, entries]
  exact congrArg _ (List.map_congr_left fun behind _ => (hbehind behind).symm)

/-- As many turns as there are entries take them all. -/
theorem popUpTo_of_le {turns : Nat} (h : r.queued ≤ turns) :
    (popUpTo turns r).1 = r.entries ∧ (popUpTo turns r).2.queued = 0
      ∧ (popUpTo turns r).2.slots = r.slots ∧ (popUpTo turns r).2.dropped = r.dropped := by
  induction turns generalizing r with
  | zero =>
    have hnone : r.queued = 0 := Nat.le_zero.1 h
    exact ⟨(entries_eq_nil hnone).symm, hnone, rfl, rfl⟩
  | succ turns ih =>
    by_cases hnone : r.queued = 0
    · rw [popUpTo, pop_of_none hnone]
      exact ⟨(entries_eq_nil hnone).symm, hnone, rfl, rfl⟩
    · obtain ⟨rest, hpop, hentries, hqueued, hslots, hdropped⟩ := entries_pop hnone
      obtain ⟨htaken, hleft, hsame, hcount⟩ := ih (r := rest) (by omega)
      rw [popUpTo, hpop]
      refine ⟨?_, hleft, hsame.trans hslots, hcount.trans hdropped⟩
      rw [hentries, ← htaken]

/-- Taking everything gives all entries, oldest first. -/
theorem popAll_entries (r : Ring) : r.popAll.1 = r.entries := (popUpTo_of_le (Nat.le_refl _)).1

theorem popAll_queued (r : Ring) : r.popAll.2.queued = 0 := (popUpTo_of_le (Nat.le_refl _)).2.1

theorem popAll_slots (r : Ring) : r.popAll.2.slots = r.slots :=
  (popUpTo_of_le (Nat.le_refl _)).2.2.1

theorem popAll_dropped (r : Ring) : r.popAll.2.dropped = r.dropped :=
  (popUpTo_of_le (Nat.le_refl _)).2.2.2

end Denoise.Ring
