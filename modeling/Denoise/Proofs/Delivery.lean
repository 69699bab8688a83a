import Denoise.Pipe

/-!
# What a pipe delivers

A history of a pipe lists what its two halves did, in the order in which it took
effect.  `Pipe.Run history p` says that `p` is the pipe after it, from a fresh one.
The two halves take turns in any way, and either may go at any moment.  Which
buffers are on their way back is left open: `Turn.recycle` may put any others in
their place.

The blocks that were accepted are those of the swaps that found a reader, each cut
to the front that was handed over.  The blocks that were delivered are those that
reads gave.  At any time the former are the latter and at most one more
(`Run.carries`), and as long as there is a reader that one is pending.  What a swap
and a read answer follows from this alone (`delivered_in_order`).
-/

namespace Denoise.Pipe

variable {α : Type}

/-! ## The ways of a swap and of a read -/

theorem nextBuffer_eq (p : Pipe α) : p.nextBuffer = [] := List.take_zero

/-- A swap that is done: there is nobody to take the block, or it is pending now. -/
theorem swap_done {p q : Pipe α} {count : Nat} {accepted : Bool}
    (h : p.swap count = .done accepted q) :
    ∃ buffer, p.writer = some buffer ∧
      ((p.reader = none ∧ accepted = false
          ∧ q = { p with writer := some [], spares := p.spares.tail })
        ∨ (p.reader ≠ none ∧ p.pending = none ∧ accepted = true
          ∧ q = { p with
              writer := some []
              spares := p.spares.tail
              pending := some (buffer.take count) })) := by
  obtain ⟨writer, reader, pending, spares⟩ := p
  cases writer with
  | none => cases h
  | some buffer =>
    refine ⟨buffer, rfl, ?_⟩
    cases reader with
    | none =>
      simp only [swap, swapWaits, Option.isSome_none, Bool.and_false, Bool.false_eq_true, if_false,
        nextBuffer_eq, Attempt.done.injEq] at h
      obtain ⟨rfl, rfl⟩ := h
      exact .inl ⟨rfl, rfl, rfl⟩
    | some old =>
      cases pending with
      | some block => cases h
      | none =>
        simp only [swap, swapWaits, Option.isSome_none, Bool.false_and, Bool.false_eq_true,
          if_false, nextBuffer_eq, Attempt.done.injEq] at h
        obtain ⟨rfl, rfl⟩ := h
        exact .inr ⟨Option.some_ne_none old, rfl, rfl, rfl⟩

/-- A read that is done: the stream has ended, or the pending block is taken. -/
theorem read_done {p q : Pipe α} {result : Option Nat} (h : p.read = .done result q) :
    ∃ old, p.reader = some old ∧
      ((p.pending = none ∧ p.writer = none ∧ result = none ∧ q = p)
        ∨ ∃ block, p.pending = some block ∧ result = some block.length
          ∧ q = { p with
              reader := some block
              pending := none
              spares := p.giveBack old }) := by
  obtain ⟨writer, reader, pending, spares⟩ := p
  cases reader with
  | none => cases h
  | some old =>
    refine ⟨old, rfl, ?_⟩
    cases pending with
    | some block =>
      simp only [read, Attempt.done.injEq] at h
      obtain ⟨rfl, rfl⟩ := h
      exact .inr ⟨block, rfl, rfl, rfl⟩
    | none =>
      cases writer with
      | some buffer => cases h
      | none =>
        simp only [read, readWaits, Option.isSome_none, Bool.and_false, Bool.false_eq_true,
          if_false, Attempt.done.injEq] at h
        obtain ⟨rfl, rfl⟩ := h
        exact .inl ⟨rfl, rfl, rfl, rfl⟩

/-! ## Histories -/

/-- What was done to a pipe. -/
inductive Act (α : Type) where
  /-- The buffer of the writer was filled. -/
  | fill
  /-- The front of a buffer was handed over, and there was a reader for it or not. -/
  | swap (buffer : List α) (count : Nat) (accepted : Bool)
  /-- The writer went. -/
  | dropWriter
  /-- A block was read, or the end of the stream. -/
  | read (block : Option (List α))
  /-- The buffer of the reader was emptied. -/
  | flush
  /-- The reader went. -/
  | dropReader
  /-- Other buffers came back. -/
  | recycle
deriving DecidableEq

/-- The block of a swap that found a reader. -/
def Act.accepted? : Act α → Option (List α)
  | .swap buffer count true => some (buffer.take (min count buffer.length))
  | _ => none

/-- The block that was read. -/
def Act.delivered? : Act α → Option (List α)
  | .read block => block
  | _ => none

/-- The blocks that were accepted, in order. -/
def accepted (history : List (Act α)) : List (List α) := history.filterMap Act.accepted?

/-- The blocks that were delivered, in order. -/
def delivered (history : List (Act α)) : List (List α) := history.filterMap Act.delivered?

/-- One step of one half. -/
inductive Turn (p : Pipe α) : Act α → Pipe α → Prop
  | fill {q : Pipe α} (samples : List α) :
    p.fill samples = some q →
    Turn p .fill q
  /-- The writer may do with its buffer what it likes. -/
  | stage (samples : List α) :
    p.writer ≠ none →
    Turn p .fill (p.stage samples)
  | swap {q : Pipe α} {buffer : List α} {count : Nat} {accepted : Bool} :
    p.writer = some buffer →
    p.swap count = .done accepted q →
    Turn p (.swap buffer count accepted) q
  | write {q : Pipe α} {samples : List α} {accepted : Bool} :
    p.write samples = .done accepted q →
    Turn p (.swap samples samples.length accepted) q
  | dropWriter :
    p.writer ≠ none →
    Turn p .dropWriter p.dropWriter
  | read {q : Pipe α} {result : Option Nat} :
    p.read = .done result q →
    Turn p (.read (result.bind fun _ => q.reader)) q
  | flush {q : Pipe α} :
    p.flush = some q →
    Turn p .flush q
  | dropReader :
    p.reader ≠ none →
    Turn p .dropReader p.dropReader
  | recycle (spares : List (List α)) :
    Turn p .recycle { p with spares := spares }

/-- The pipe after a history. -/
inductive Run : List (Act α) → Pipe α → Prop
  | start : Run [] .fresh
  | turn {history : List (Act α)} {p q : Pipe α} {act : Act α} :
    Run history p →
    Turn p act q →
    Run (history ++ [act]) q

theorem accepted_concat (history : List (Act α)) (act : Act α) :
    accepted (history ++ [act]) = accepted history ++ act.accepted?.toList := by
  rw [accepted, accepted, List.filterMap_append, List.filterMap_cons]
  cases act.accepted? <;> rfl

theorem delivered_concat (history : List (Act α)) (act : Act α) :
    delivered (history ++ [act]) = delivered history ++ act.delivered?.toList := by
  rw [delivered, delivered, List.filterMap_append, List.filterMap_cons]
  cases act.delivered? <;> rfl

/-! ## The invariant -/

/-- What a history says of a pipe. -/
structure Carries (history : List (Act α)) (p : Pipe α) : Prop where
  writer : p.writer = none ↔ .dropWriter ∈ history
  reader : p.reader = none ↔ .dropReader ∈ history
  /-- What was accepted and not delivered is pending, or was when the reader went. -/
  blocks : ∃ left : Option (List α),
    accepted history = delivered history ++ left.toList ∧ (p.reader ≠ none → left = p.pending)

namespace Carries

variable {history : List (Act α)} {p q : Pipe α} {act : Act α}

/-- A step that neither hands a block over nor takes one, and after which both
halves are there as they were. -/
theorem of_quiet (h : Carries history p) (haccepted : act.accepted? = none)
    (hdelivered : act.delivered? = none) (hact : act ≠ .dropWriter ∧ act ≠ .dropReader)
    (hwriter : q.writer = none ↔ p.writer = none) (hreader : q.reader = none ↔ p.reader = none)
    (hpending : q.pending = p.pending) : Carries (history ++ [act]) q where
  writer := by
    rw [hwriter, h.writer, List.mem_append, List.mem_singleton, or_iff_left hact.1.symm]
  reader := by
    rw [hreader, h.reader, List.mem_append, List.mem_singleton, or_iff_left hact.2.symm]
  blocks := by
    obtain ⟨left, hblocks, hleft⟩ := h.blocks
    refine ⟨left, ?_, fun hq => ?_⟩
    · rw [accepted_concat, delivered_concat, haccepted, hdelivered, hblocks]
      simp
    · rw [hpending]
      exact hleft fun hp => hq (hreader.2 hp)

/-- A swap of a buffer, which the writer may have staged for it. -/
theorem swap {buffer : List α} {count : Nat} {found : Bool} (h : Carries history p)
    (hbuffer : p.writer = some buffer) (hswap : p.swap count = .done found q) :
    Carries (history ++ [.swap buffer count found]) q := by
  obtain ⟨held, hheld, hcases⟩ := swap_done hswap
  obtain rfl := Option.some.inj (hbuffer.symm.trans hheld)
  have hpresent : (some ([] : List α) = none) ↔ p.writer = none := by
    rw [hbuffer]
    simp
  rcases hcases with ⟨_, rfl, rfl⟩ | ⟨hreader, hpending, rfl, rfl⟩
  · exact h.of_quiet rfl rfl ⟨nofun, nofun⟩ hpresent Iff.rfl rfl
  · obtain ⟨left, hblocks, hleft⟩ := h.blocks
    obtain rfl : left = none := (hleft hreader).trans hpending
    refine ⟨?_, ?_, some (buffer.take count), ?_, fun _ => rfl⟩
    · simp [← h.writer, hbuffer]
    · simp [← h.reader]
    · rw [accepted_concat, delivered_concat, hblocks]
      simp [Act.accepted?, Act.delivered?, ← List.take_eq_take_min]

/-- A read delivers what was pending, or nothing at the end of the stream. -/
theorem read {result : Option Nat} (h : Carries history p) (hread : p.read = .done result q) :
    Carries (history ++ [.read (result.bind fun _ => q.reader)]) q := by
  obtain ⟨old, hold, hcases⟩ := read_done hread
  rcases hcases with ⟨_, _, rfl, rfl⟩ | ⟨block, hpending, rfl, rfl⟩
  · exact h.of_quiet rfl rfl ⟨nofun, nofun⟩ Iff.rfl Iff.rfl rfl
  · have hreader : p.reader ≠ none := by simp [hold]
    obtain ⟨left, hblocks, hleft⟩ := h.blocks
    obtain rfl : left = some block := (hleft hreader).trans hpending
    refine ⟨?_, ?_, none, ?_, fun _ => rfl⟩
    · simp [← h.writer]
    · simp [← h.reader, hold]
    · rw [accepted_concat, delivered_concat, hblocks]
      simp [Act.accepted?, Act.delivered?]

theorem turn (h : Carries history p) (hturn : Turn p act q) : Carries (history ++ [act]) q := by
  cases hturn with
  | fill samples hfill =>
    obtain ⟨buffer, hbuffer, rfl⟩ := Option.map_eq_some_iff.1 hfill
    exact h.of_quiet rfl rfl ⟨nofun, nofun⟩ (by simp [hbuffer]) Iff.rfl rfl
  | stage samples hwriter =>
    exact h.of_quiet rfl rfl ⟨nofun, nofun⟩ (by simp [Pipe.stage]) Iff.rfl rfl
  | swap hbuffer hswap => exact h.swap hbuffer hswap
  | @write q samples found hwrite =>
    -- a write stages its samples first, which is a step of its own
    have hstage : Carries history (p.stage samples) :=
      ⟨by simp [Pipe.stage, h.writer], h.reader, h.blocks⟩
    obtain ⟨buffer, hbuffer, _⟩ := swap_done hwrite
    obtain ⟨_, _, hsamples⟩ := Option.map_eq_some_iff.1 hbuffer
    rw [← hsamples] at hbuffer
    exact hstage.swap hbuffer hwrite
  | dropWriter =>
    obtain ⟨left, hblocks, hleft⟩ := h.blocks
    refine ⟨by simp [Pipe.dropWriter], by simp [Pipe.dropWriter, h.reader], left, ?_, hleft⟩
    rw [accepted_concat, delivered_concat, hblocks]
    simp [Act.accepted?, Act.delivered?]
  | read hread => exact h.read hread
  | flush hflush =>
    obtain ⟨buffer, hbuffer, rfl⟩ := Option.map_eq_some_iff.1 hflush
    exact h.of_quiet rfl rfl ⟨nofun, nofun⟩ Iff.rfl (by simp [hbuffer]) rfl
  | dropReader =>
    obtain ⟨left, hblocks, _⟩ := h.blocks
    refine ⟨by simp [Pipe.dropReader, h.writer], by simp [Pipe.dropReader], left, ?_,
      fun hq => absurd rfl hq⟩
    rw [accepted_concat, delivered_concat, hblocks]
    simp [Act.accepted?, Act.delivered?]
  | recycle spares => exact h.of_quiet rfl rfl ⟨nofun, nofun⟩ Iff.rfl Iff.rfl rfl

/-- As long as there is a reader, a block is pending exactly if one that was accepted
is not delivered. -/
theorem pending_eq_none_iff (h : Carries history p) (hreader : p.reader ≠ none) :
    p.pending = none ↔ delivered history = accepted history := by
  obtain ⟨left, hblocks, hleft⟩ := h.blocks
  rw [← hleft hreader, hblocks]
  cases left <;> simp

end Carries

/-- So the account holds after any history. -/
theorem Run.carries {history : List (Act α)} {p : Pipe α} (run : Run history p) :
    Carries history p := by
  induction run with
  | start => exact ⟨by simp [Pipe.fresh], by simp [Pipe.fresh], none, rfl, fun _ => rfl⟩
  | turn _ hturn ih => exact ih.turn hturn

/-! ## What a swap and a read answer -/

theorem swap_eq_false_iff (p : Pipe α) (count : Nat) :
    (∃ q, p.swap count = .done false q) ↔ p.writer ≠ none ∧ p.reader = none := by
  constructor
  · rintro ⟨q, hswap⟩
    obtain ⟨buffer, hbuffer, ⟨hreader, _⟩ | ⟨_, _, hfound, _⟩⟩ := swap_done hswap
    · exact ⟨by simp [hbuffer], hreader⟩
    · cases hfound
  · rintro ⟨hwriter, hreader⟩
    obtain ⟨buffer, hbuffer⟩ := Option.ne_none_iff_exists'.1 hwriter
    simp [swap, swapWaits, hbuffer, hreader]

/-- A swap waits exactly while the reader has a block to read. -/
theorem swap_eq_waits_iff (p : Pipe α) (count : Nat) :
    p.swap count = .waits ↔ p.writer ≠ none ∧ p.reader ≠ none ∧ p.pending ≠ none := by
  obtain ⟨writer, reader, pending, spares⟩ := p
  cases writer <;> cases reader <;> cases pending <;> simp [swap, swapWaits]

theorem read_eq_none_iff (p q : Pipe α) :
    p.read = .done none q ↔ q = p ∧ p.reader ≠ none ∧ p.writer = none ∧ p.pending = none := by
  constructor
  · intro hread
    obtain ⟨old, hold, ⟨hpending, hwriter, _, rfl⟩ | ⟨_, _, hresult, _⟩⟩ := read_done hread
    · exact ⟨rfl, by simp [hold], hwriter, hpending⟩
    · cases hresult
  · rintro ⟨rfl, hreader, hwriter, hpending⟩
    obtain ⟨old, hold⟩ := Option.ne_none_iff_exists'.1 hreader
    simp [read, readWaits, hold, hwriter, hpending]

/-- A read waits exactly while the writer may still send one. -/
theorem read_eq_waits_iff (p : Pipe α) :
    p.read = .waits ↔ p.reader ≠ none ∧ p.writer ≠ none ∧ p.pending = none := by
  obtain ⟨writer, reader, pending, spares⟩ := p
  cases writer <;> cases reader <;> cases pending <;> simp [read, readWaits]

/-! ## Every history -/

/-- After any history: what was delivered is a front of what was accepted, and lacks
one block at most.  A swap finds no reader exactly if the reader went, and waits as
long as there is a reader and a block it has not read; whatever comes back, the writer
goes on with an empty buffer.  A read ends the stream exactly if the writer went and
every accepted block was delivered, and then changes nothing; it waits as long as there
is a writer and nothing to read; and else it gives the block that was accepted next. -/
theorem delivered_in_order {history : List (Act α)} {p : Pipe α} (run : Run history p) :
    delivered history <+: accepted history
      ∧ (accepted history).length ≤ (delivered history).length + 1
      ∧ (∀ count, (∃ q, p.swap count = .done false q)
          ↔ .dropWriter ∉ history ∧ .dropReader ∈ history)
      ∧ (∀ count, p.swap count = .waits
          ↔ .dropWriter ∉ history ∧ .dropReader ∉ history
            ∧ delivered history ≠ accepted history)
      ∧ (∀ count found q, p.swap count = .done found q → q.writer = some [])
      ∧ (∀ q, p.read = .done none q
          ↔ q = p ∧ .dropReader ∉ history ∧ .dropWriter ∈ history
            ∧ delivered history = accepted history)
      ∧ (p.read = .waits
          ↔ .dropReader ∉ history ∧ .dropWriter ∉ history
            ∧ delivered history = accepted history)
      ∧ ∀ length q, p.read = .done (some length) q → ∃ block, q.reader = some block
          ∧ block.length = length ∧ accepted history = delivered history ++ [block] := by
  have h := run.carries
  obtain ⟨left, hblocks, hleft⟩ := h.blocks
  refine ⟨?_, ?_, ?_, ?_, ?_, ?_, ?_, ?_⟩
  · exact ⟨left.toList, hblocks.symm⟩
  · rw [hblocks, List.length_append]
    cases left <;> simp
  · intro count
    rw [swap_eq_false_iff, Ne, h.writer, h.reader]
  · intro count
    rw [swap_eq_waits_iff, Ne, Ne, h.writer, h.reader]
    refine and_congr_right fun _ => and_congr_right fun hreader => ?_
    exact not_congr (h.pending_eq_none_iff (mt h.reader.1 hreader))
  · intro count found q hswap
    obtain ⟨_, _, ⟨_, _, rfl⟩ | ⟨_, _, _, rfl⟩⟩ := swap_done hswap
    · rfl
    · rfl
  · intro q
    rw [read_eq_none_iff, Ne, h.writer, h.reader]
    refine and_congr_right fun _ => and_congr_right fun hreader => and_congr_right fun _ => ?_
    exact h.pending_eq_none_iff (mt h.reader.1 hreader)
  · rw [read_eq_waits_iff, Ne, Ne, h.writer, h.reader]
    refine and_congr_right fun hreader => and_congr_right fun _ => ?_
    exact h.pending_eq_none_iff (mt h.reader.1 hreader)
  · intro length q hread
    obtain ⟨old, hold, ⟨_, _, hnone, _⟩ | ⟨block, hpending, hlength, rfl⟩⟩ := read_done hread
    · cases hnone
    · have hreader : p.reader ≠ none := by simp [hold]
      rw [hleft hreader, hpending] at hblocks
      exact ⟨block, rfl, (Option.some.inj hlength).symm, hblocks⟩

/-- Two blocks are accepted, and the reader goes before it has read the second. -/
theorem run_specimen :
    Run [.fill, .swap [1, 2, 3] 2 true, .read (some [1, 2]), .recycle, .swap [4] 1 true, .dropReader]
      (⟨some [], none, none, []⟩ : Pipe Nat) := by
  have filled : Run [.fill] (⟨some [1, 2, 3], some [], none, []⟩ : Pipe Nat) :=
    Run.start.turn (.fill [1, 2, 3] rfl)
  have swapped : Run [.fill, .swap [1, 2, 3] 2 true] (⟨some [], some [], some [1, 2], []⟩ : Pipe Nat) :=
    filled.turn (.swap rfl rfl)
  have read := swapped.turn (.read rfl)
  have written : Run [.fill, .swap [1, 2, 3] 2 true, .read (some [1, 2]), .recycle, .swap [4] 1 true]
      (⟨some [], some [1, 2], some [4], []⟩ : Pipe Nat) :=
    (read.turn (.recycle [[9]])).turn (.write rfl)
  exact written.turn (.dropReader (by decide))

theorem delivered_in_order_specimen :
    delivered [.fill, .swap [1, 2, 3] 2 true, .read (some [1, 2]), .recycle, .swap [4] 1 true,
        .dropReader] <+: [[1, 2], [4]]
      ∧ ∃ q, (⟨some [], none, none, []⟩ : Pipe Nat).swap 0 = .done false q := by
  obtain ⟨hfront, _, hfalse, _⟩ := delivered_in_order run_specimen
  exact ⟨hfront, (hfalse 0).2 (by decide)⟩

end Denoise.Pipe
