import Denoise.Log
import Denoise.Proofs.Log.Ring
import Mathlib.Data.List.Induction

/-!
# What becomes of the messages

Messages are written to a buffered log and it is drained, in any order.  Every act has a fate
(`Fate`), and what is promised of the log is read off the list of fates: which entries were
accepted, taken and lost, which records were emitted, which counts were returned.

`Balanced` is the invariant.  The accepted entries are the taken ones with the queued ones after
them, the count of the ring is that of the losses since the last drain, and every message written
is an entry accepted or a loss.  What was emitted and returned follows from the fates alone
(`Fate.Faithful`).
-/

namespace Denoise.Log

/-! ## Histories -/

/-- What is done to a log. -/
inductive Act where
  /-- A message is written, in fragments. -/
  | write (fragments : List String)
  /-- The log is drained. -/
  | drain

/-- Whether an act writes a message. -/
def Act.isWrite : Act → Bool
  | write _ => true
  | drain => false

/-- What becomes of an act. -/
inductive Fate where
  /-- The entry of the message joins the queue. -/
  | accepted (e : Entry)
  /-- The entry of the message finds no room. -/
  | lost
  /-- Entries are taken from the queue, a count is returned and records are emitted. -/
  | drained (taken : List Entry) (count : Nat) (records : List Record)

/-- Entries a log has dropped since it last reported. -/
def dropped : Log → Nat
  | buffered (some r) => r.dropped
  | _ => 0

/-- The entries that a drain takes out. -/
def drainable : Log → List Entry
  | buffered (some r) => r.popAll.1
  | _ => []

/-- A log after an act. -/
def perform (l : Log) : Act → Log
  | .write fragments => (l.write fragments).log
  | .drain => l.drain.log

/-- The fate of an act.  A message is lost when the log counts it. -/
def fate (l : Log) : Act → Fate
  | .write fragments =>
    if (l.write fragments).log.dropped = l.dropped then .accepted (.ofFragments fragments)
    else .lost
  | .drain => .drained l.drainable l.drain.count l.drain.records

/-- The fates of some acts, in order. -/
def fatesFrom (l : Log) : List Act → List Fate
  | [] => []
  | act :: acts => l.fate act :: fatesFrom (l.perform act) acts

/-- A buffered log that takes messages. -/
def started : Log := start (buffered none)

/-- A started log after some acts. -/
def after (acts : List Act) : Log := acts.foldl perform started

/-- The fates of some acts on a started log. -/
def fates (acts : List Act) : List Fate := fatesFrom started acts

theorem after_concat (acts : List Act) (act : Act) :
    after (acts ++ [act]) = (after acts).perform act := by
  rw [after, List.foldl_append, List.foldl_cons, List.foldl_nil, after]

/-- What becomes of an act is decided by the log as the acts before it left it. -/
theorem fatesFrom_concat (l : Log) (acts : List Act) (act : Act) :
    fatesFrom l (acts ++ [act]) = fatesFrom l acts ++ [(acts.foldl perform l).fate act] := by
  induction acts generalizing l with
  | nil => rfl
  | cons first acts ih =>
    rw [List.cons_append, fatesFrom, ih, fatesFrom, List.foldl_cons, List.cons_append]

theorem fates_concat (acts : List Act) (act : Act) :
    fates (acts ++ [act]) = fates acts ++ [(after acts).fate act] :=
  fatesFrom_concat started acts act

/-! ## Counts -/

namespace Fate

/-- The entry that joined the queue. -/
def joined : Fate → List Entry
  | accepted e => [e]
  | lost => []
  | drained _ _ _ => []

/-- The entries that left it. -/
def taken : Fate → List Entry
  | accepted _ => []
  | lost => []
  | drained taken _ _ => taken

/-- The records. -/
def emitted : Fate → List Record
  | accepted _ => []
  | lost => []
  | drained _ _ records => records

/-- The count that was returned. -/
def returned : Fate → Nat
  | accepted _ => 0
  | lost => 0
  | drained _ count _ => count

/-- Whether it is that of a message which was lost. -/
def isLost : Fate → Bool
  | accepted _ => false
  | lost => true
  | drained _ _ _ => false

/-- Whether it is that of a drain. -/
def isDrained : Fate → Bool
  | accepted _ => false
  | lost => false
  | drained _ _ _ => true

end Fate

/-- The counts that were returned, added up. -/
def returnedSum : List Fate → Nat
  | [] => 0
  | f :: fates => f.returned + returnedSum fates

/-- The messages lost since the last drain. -/
def lostSince (fates : List Fate) : Nat :=
  (fates.reverse.takeWhile fun f => !f.isDrained).countP Fate.isLost

/-- After a drain nothing is lost as yet. -/
theorem lostSince_drained (fates : List Fate) {f : Fate} (h : f.isDrained = true) :
    lostSince (fates ++ [f]) = 0 := by
  rw [lostSince, List.reverse_concat, List.takeWhile_cons_of_neg (by rw [h]; decide),
    List.countP_nil]

theorem lostSince_concat (fates : List Fate) {f : Fate} (h : f.isDrained = false) :
    lostSince (fates ++ [f]) = lostSince fates + if f.isLost then 1 else 0 := by
  rw [lostSince, List.reverse_concat, List.takeWhile_cons_of_pos (by rw [h]; rfl),
    List.countP_cons, lostSince]

/-- The records of entries, without the blank ones. -/
def shown (entries : List Entry) : List Record :=
  (entries.filter fun e => !e.isBlank).map fun e => message e.text

/-- A fate that an act on a ring can have. -/
inductive Fate.Faithful : Fate → Prop where
  /-- What joins the queue is a sound entry. -/
  | accepted {e : Entry} : e.Sound → Faithful (.accepted e)
  /-- A message is lost. -/
  | lost : Faithful .lost
  /-- What is taken is shown, and counted as far as it is.  Losses are reported after it. -/
  | drained (taken : List Entry) (lost : Nat) :
    Faithful (.drained taken (shown taken).length (shown taken ++ report lost))

theorem shown_append (entries others : List Entry) :
    shown (entries ++ others) = shown entries ++ shown others := by
  rw [shown, List.filter_append, List.map_append, shown, shown]

/-- The messages among the records of a drain are what it shows. -/
theorem filter_shown_report (entries : List Entry) (lost : Nat) :
    (shown entries ++ report lost).filter (·.level == .debug) = shown entries := by
  have hshown : ∀ record ∈ shown entries, (record.level == .debug) = true := by
    intro record hrecord
    obtain ⟨e, -, rfl⟩ := List.mem_map.1 hrecord
    rfl
  have hreport : (report lost).filter (·.level == .debug) = [] := by
    rw [report]
    split <;> rfl
  rw [List.filter_append, List.filter_eq_self.2 hshown, hreport, List.append_nil]

section Faithful

variable {fates : List Fate} (h : ∀ f ∈ fates, f.Faithful)

include h

/-- The messages emitted are the entries taken, each once and in order. -/
theorem filter_emitted : (fates.flatMap Fate.emitted).filter (·.level == .debug)
    = shown (fates.flatMap Fate.taken) := by
  induction fates with
  | nil => rfl
  | cons f fates ih =>
    rw [List.flatMap_cons, List.filter_append, ih fun f hf => h f (List.mem_cons_of_mem _ hf),
      List.flatMap_cons, shown_append]
    cases h f List.mem_cons_self with
    | accepted => rfl
    | lost => rfl
    | drained taken lost => rw [Fate.emitted, filter_shown_report, Fate.taken]

/-- The counts returned are the number of messages emitted. -/
theorem returnedSum_eq : returnedSum fates = (shown (fates.flatMap Fate.taken)).length := by
  induction fates with
  | nil => rfl
  | cons f fates ih =>
    rw [returnedSum, ih fun f hf => h f (List.mem_cons_of_mem _ hf),
      List.flatMap_cons, shown_append, List.length_append]
    cases h f List.mem_cons_self <;> rfl

/-- Every entry that joined the queue is sound. -/
theorem sound_of_joined {e : Entry} (he : e ∈ fates.flatMap Fate.joined) : e.Sound := by
  obtain ⟨f, hf, hjoined⟩ := List.mem_flatMap.1 he
  cases h f hf with
  | accepted hsound =>
    rw [List.mem_singleton.1 hjoined]
    exact hsound
  | lost => cases hjoined
  | drained => cases hjoined

end Faithful

/-! ## One act -/

variable {r : Ring}

/-- A message is accepted while a slot is free. -/
theorem fate_write_of_room (h : r.queued + 1 < r.slots.size) (fragments : List String) :
    (buffered (some r)).fate (.write fragments) = .accepted (.ofFragments fragments) :=
  if_pos (Ring.push_of_room h _).2.2.2

theorem fate_write_of_full (h : r.queued + 1 = r.slots.size) (fragments : List String) :
    (buffered (some r)).fate (.write fragments) = .lost := by
  refine if_neg ?_
  show (r.push _).dropped ≠ r.dropped
  rw [Ring.push_of_full h]
  exact Nat.succ_ne_self _

/-- A drain shows every entry that is queued and has a text, then the report of the
losses. -/
theorem fate_drain (r : Ring) : (buffered (some r)).fate .drain
    = .drained r.entries (shown r.entries).length (shown r.entries ++ report r.dropped) := by
  rw [← r.popAll_entries, ← r.popAll_dropped]
  simp only [fate, drainable, drain, shown, List.length_map, List.map_map]
  rfl

/-- It leaves an empty ring that has lost nothing. -/
theorem perform_drain (r : Ring) : ∃ rest,
    (buffered (some r)).perform .drain = buffered (some rest) ∧ rest.entries = []
      ∧ rest.slots = r.slots ∧ rest.dropped = 0 :=
  ⟨{ r.popAll.2 with dropped := 0 }, rfl, Ring.entries_eq_nil r.popAll_queued, r.popAll_slots,
    rfl⟩

/-! ## The invariant -/

/-- What some acts and their fates say of the ring. -/
structure Balanced (acts : List Act) (fates : List Fate) (r : Ring) : Prop where
  size : r.slots.size = Ring.slotCount
  slots : ∀ e ∈ r.slots, e.Sound
  faithful : ∀ f ∈ fates, f.Faithful
  order : fates.flatMap Fate.joined = fates.flatMap Fate.taken ++ r.entries
  lost : r.dropped = lostSince fates
  writes : acts.countP Act.isWrite = (fates.flatMap Fate.joined).length + fates.countP Fate.isLost

theorem balanced_empty : Balanced [] [] Ring.empty where
  size := by rw [Ring.slots_empty, Array.size_replicate]
  slots e he := by
    rw [Ring.slots_empty] at he
    rw [Array.eq_of_mem_replicate he]
    exact Entry.sound_blank
  faithful f hf := absurd hf List.not_mem_nil
  order := by rw [Ring.entries_eq_nil Ring.queued_empty, List.flatMap_nil, List.flatMap_nil,
    List.append_nil]
  lost := rfl
  writes := rfl

namespace Balanced

variable {acts : List Act} {fates : List Fate}

/-- An accepted message keeps the balance. -/
theorem accepted (h : Balanced acts fates r) (hroom : r.queued + 1 < r.slots.size)
    (fragments : List String) : Balanced (acts ++ [.write fragments])
      (fates ++ [.accepted (.ofFragments fragments)]) (r.push (.ofFragments fragments)) where
  size := (r.size_push _).trans h.size
  slots e he := by
    rcases Ring.mem_slots_push he with hold | rfl
    · exact h.slots e hold
    · exact Entry.sound_ofFragments fragments
  faithful := List.forall_mem_append.2 ⟨h.faithful,
    List.forall_mem_singleton.2 (.accepted (Entry.sound_ofFragments fragments))⟩
  order := by
    rw [List.flatMap_append, h.order, List.flatMap_append, List.flatMap_singleton,
      List.flatMap_singleton, Fate.joined, Fate.taken, List.append_nil, Ring.entries_push hroom,
      List.append_assoc]
  lost := by
    rw [lostSince_concat _ rfl, (Ring.push_of_room hroom _).2.2.2, h.lost]
    rfl
  writes := by
    rw [List.countP_append, h.writes, List.flatMap_append, List.length_append, List.countP_append]
    exact Nat.add_right_comm _ _ _

theorem dropped (h : Balanced acts fates r) (fragments : List String) :
    Balanced (acts ++ [.write fragments]) (fates ++ [.lost])
      { r with dropped := r.dropped + 1 } where
  size := h.size
  slots := h.slots
  faithful := List.forall_mem_append.2 ⟨h.faithful, List.forall_mem_singleton.2 .lost⟩
  order := by
    rw [List.flatMap_append, h.order, List.flatMap_append, List.flatMap_singleton,
      List.flatMap_singleton, Fate.joined, Fate.taken, List.append_nil, List.append_nil]
    rfl
  lost := by
    rw [lostSince_concat _ rfl, ← h.lost]
    rfl
  writes := by
    rw [List.countP_append, h.writes, List.flatMap_append, List.length_append, List.countP_append]
    rfl

theorem drained (h : Balanced acts fates r) {rest : Ring} (hentries : rest.entries = [])
    (hslots : rest.slots = r.slots) (hdropped : rest.dropped = 0) :
    Balanced (acts ++ [.drain]) (fates ++ [.drained r.entries (shown r.entries).length
      (shown r.entries ++ report r.dropped)]) rest where
  size := hslots ▸ h.size
  slots := hslots ▸ h.slots
  faithful := List.forall_mem_append.2 ⟨h.faithful, List.forall_mem_singleton.2 (.drained _ _)⟩
  order := by
    rw [List.flatMap_append, h.order, List.flatMap_append, List.flatMap_singleton,
      List.flatMap_singleton, Fate.joined, Fate.taken, hentries]
  lost := by rw [lostSince_drained _ rfl, hdropped]
  writes := by
    rw [List.countP_append, h.writes, List.flatMap_append, List.length_append, List.countP_append]
    rfl

/-- An act keeps it. -/
theorem perform (h : Balanced acts fates r) (act : Act) :
    ∃ rest, (buffered (some r)).perform act = buffered (some rest)
      ∧ Balanced (acts ++ [act]) (fates ++ [(buffered (some r)).fate act]) rest := by
  cases act with
  | drain =>
    obtain ⟨rest, hperform, hentries, hslots, hdropped⟩ := perform_drain r
    refine ⟨rest, hperform, ?_⟩
    rw [fate_drain]
    exact h.drained hentries hslots hdropped
  | write fragments =>
    refine ⟨r.push (.ofFragments fragments), rfl, ?_⟩
    rcases Nat.lt_or_ge (r.queued + 1) r.slots.size with hroom | hfull
    · rw [fate_write_of_room hroom]
      exact h.accepted hroom fragments
    · have hfull : r.queued + 1 = r.slots.size := Nat.le_antisymm r.queued_lt hfull
      rw [fate_write_of_full hfull, Ring.push_of_full hfull]
      exact h.dropped fragments

end Balanced

/-- It holds after any acts. -/
theorem after_balanced (acts : List Act) :
    ∃ r, after acts = buffered (some r) ∧ Balanced acts (fates acts) r := by
  induction acts using List.reverseRecOn with
  | nil => exact ⟨Ring.empty, rfl, balanced_empty⟩
  | append_singleton acts act ih =>
    obtain ⟨r, hafter, balanced⟩ := ih
    rw [after_concat, fates_concat, hafter]
    exact balanced.perform act

/-- What is taken is shown or blank. -/
theorem length_shown (entries : List Entry) :
    (shown entries).length + entries.countP Entry.isBlank = entries.length := by
  rw [shown, List.length_map, ← List.countP_eq_length_filter,
    List.length_eq_countP_add_countP Entry.isBlank, Nat.add_comm]
  congr 2
  funext e
  cases e.isBlank <;> rfl

theorem ofFragments_bytes (fragments : List String) :
    (Entry.ofFragments fragments).bytes = fragments.foldl Entry.writeBytes .empty := by
  rw [Entry.ofFragments]
  exact (List.foldl_hom Entry.bytes fun e fragment => (e.append_bytes fragment).symm).symm

/-- After any messages and drains of a log: no more than 255 entries are queued, and the next
message is accepted as long as there are fewer.  The accepted entries have been taken or are
queued, in order, and what was taken was shown.  Every message was shown, blank, queued or lost.
The next drain shows what is queued, and reports the losses since the drain before.  No entry is
longer than a slot, and each is the encoding of the text that is shown of it. -/
theorem every_message_accounted (acts : List Act) :
    let joined := (fates acts).flatMap Fate.joined
    let taken := (fates acts).flatMap Fate.taken
    let lost := lostSince (fates acts)
    ∃ r, after acts = buffered (some r)
      ∧ r.entries.length = r.queued
      ∧ r.queued ≤ 255
      ∧ (∀ fragments, (after acts).fate (.write fragments)
          = if r.queued < 255 then .accepted (.ofFragments fragments) else .lost)
      ∧ joined = taken ++ r.entries
      ∧ ((fates acts).flatMap Fate.emitted).filter (·.level == .debug) = shown taken
      ∧ returnedSum (fates acts) = (shown taken).length
      ∧ acts.countP Act.isWrite = (shown taken).length + taken.countP Entry.isBlank + r.queued
          + (fates acts).countP Fate.isLost
      ∧ (after acts).fate .drain = .drained r.entries (shown r.entries).length (shown r.entries
          ++ if 0 < lost then [⟨.warn, "processing log ring overflowed, " ++ toString lost
            ++ " entries dropped"⟩] else [])
      ∧ (∀ fragments,
          (Entry.ofFragments fragments).bytes = fragments.foldl Entry.writeBytes .empty)
      ∧ ∀ e, e ∈ joined ∨ e ∈ r.slots →
          e.bytes.size ≤ 256 ∧ String.fromUTF8? e.bytes = some e.text := by
  intro joined taken lost
  obtain ⟨r, hafter, balanced⟩ := after_balanced acts
  have hsize : r.slots.size = 256 := balanced.size
  have hqueued := r.queued_lt
  have hjoined : joined = taken ++ r.entries := balanced.order
  refine ⟨r, hafter, r.length_entries, by omega, fun fragments => ?_, hjoined,
    filter_emitted balanced.faithful, returnedSum_eq balanced.faithful, ?_, ?_, ofFragments_bytes,
    fun e he => ?_⟩
  · rw [hafter]
    split
    next hroom => exact fate_write_of_room (by omega) fragments
    next hfull => exact fate_write_of_full (by omega) fragments
  · have hwrites : _ = joined.length + _ := balanced.writes
    have hlength := congrArg List.length hjoined
    rw [List.length_append, r.length_entries, ← length_shown taken] at hlength
    omega
  · rw [hafter, fate_drain, balanced.lost]
    rfl
  · have hsound : e.Sound := he.elim (sound_of_joined balanced.faithful) (balanced.slots e)
    exact ⟨hsound.within, hsound.text⟩

end Denoise.Log
