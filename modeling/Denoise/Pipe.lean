/-!
# Pipes

A pipe carries blocks of samples from a writer to a reader, one at a time.  Each
half has a buffer of its own.  A swap hands the front of the writer's buffer
over, and a read takes the pending block for the reader's buffer.

* A swap waits while a block is pending and there is a reader to take it.
* A read waits while no block is pending and there is a writer to send one.

The half that is left goes on without the other.  A swap without a reader sends
nothing, and a read without a writer gives what is still pending and then ends.
A block that is pending when the reader goes is lost.

Buffers go round.  What the reader is done with goes back to the writer, with
whatever is left in it, and is emptied when the writer takes it up.
-/

namespace Denoise

/-- A pipe for blocks of `α`. -/
structure Pipe (α : Type) where
  /-- The buffer of the writer, as long as there is one. -/
  writer : Option (List α)
  /-- The buffer of the reader, as long as there is one. -/
  reader : Option (List α)
  /-- The block that was handed over and not read. -/
  pending : Option (List α)
  /-- Buffers on their way back to the writer. -/
  spares : List (List α)
deriving DecidableEq

namespace Pipe

/-- What comes of an operation of one half. -/
inductive Attempt (α ρ : Type) where
  /-- It waits for the other half. -/
  | waits
  /-- This half is gone. -/
  | gone
  /-- It is done, with a result. -/
  | done (result : ρ) (pipe : Pipe α)
deriving DecidableEq

variable {α : Type}

/-- A pipe with both halves, and nothing in it. -/
def fresh : Pipe α := ⟨some [], some [], none, []⟩

/-- The most buffers on their way back. -/
def spareRoom : Nat := 2

/-! ## The writer -/

/-- Whether a swap has to wait. -/
def swapWaits (p : Pipe α) : Bool := p.pending.isSome && p.reader.isSome

/-- The writer's buffer with samples at its end. -/
def fill (p : Pipe α) (samples : List α) : Option (Pipe α) :=
  p.writer.map fun buffer => { p with writer := some (buffer ++ samples) }

/-- The writer's buffer replaced. -/
def stage (p : Pipe α) (samples : List α) : Pipe α :=
  { p with writer := p.writer.map fun _ => samples }

/-- The buffer the writer goes on with: one that came back, emptied. -/
def nextBuffer (p : Pipe α) : List α := (p.spares.headD []).take 0

/-- The first `count` samples of the writer's buffer are handed over.  The result
says whether there is a reader for them. -/
def swap (p : Pipe α) (count : Nat) : Attempt α Bool :=
  match p.writer with
  | none => .gone
  | some buffer =>
    if p.swapWaits then .waits
    else
      let next := { p with writer := some p.nextBuffer, spares := p.spares.tail }
      match p.reader with
      | none => .done false next
      | some _ => .done true { next with pending := some (buffer.take count) }

/-- A block is handed over. -/
def write (p : Pipe α) (samples : List α) : Attempt α Bool :=
  (p.stage samples).swap samples.length

/-- The writer goes. -/
def dropWriter (p : Pipe α) : Pipe α := { p with writer := none }

/-! ## The reader -/

/-- Whether a read has to wait. -/
def readWaits (p : Pipe α) : Bool := p.pending.isNone && p.writer.isSome

/-- The buffers on their way back, after one more.  It is let go if there is no
room. -/
def giveBack (p : Pipe α) (buffer : List α) : List (List α) :=
  if p.spares.length < spareRoom then p.spares ++ [buffer] else p.spares

/-- The pending block is taken.  The result is its length, or nothing at the end
of the stream, where the reader keeps its buffer. -/
def read (p : Pipe α) : Attempt α (Option Nat) :=
  match p.reader, p.pending with
  | none, _ => .gone
  | some _, none => if p.readWaits then .waits else .done none p
  | some old, some block =>
    .done (some block.length)
      { p with reader := some block, pending := none, spares := p.giveBack old }

/-- The reader's buffer emptied. -/
def flush (p : Pipe α) : Option (Pipe α) :=
  p.reader.map fun _ => { p with reader := some [] }

/-- The reader goes, and the pending block with it. -/
def dropReader (p : Pipe α) : Pipe α := { p with reader := none, pending := none }

/-- Only the front of the buffer is handed over, and the rest does not stay. -/
example : (({ fresh with writer := some [1, 2, 3] } : Pipe Nat).swap 2) =
    .done true ⟨some [], some [], some [1, 2], []⟩ := by decide
/-- A second block waits for the first to be read. -/
example : (({ fresh with pending := some [1] } : Pipe Nat).write [2]) = .waits := by decide
/-- What is pending survives the writer. -/
example : (({ fresh with pending := some [7, 8] } : Pipe Nat).dropWriter.read) =
    .done (some 2) ⟨none, some [7, 8], none, [[]]⟩ := by decide

end Pipe

end Denoise
