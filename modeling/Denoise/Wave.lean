import Denoise.Arithmetic

/-!
# Wave recordings

A wave file is a sequence of chunks.  The format chunk says how samples are
stored, and the data chunk holds them, those of all channels side by side.

`Format` is what a format chunk says.  A sample takes `container` bytes, of which
`bits` bits count.  `Recording` is a format with its samples as numbers: floating
point as it is stored, and integers as shares of their full range.
-/

namespace Denoise.Wave

/-- How a sample is stored. -/
inductive Encoding where
  /-- As an integer. -/
  | integer
  /-- As a floating-point number. -/
  | floating
deriving DecidableEq, Repr

/-- The format of the samples in a file. -/
structure Format where
  /-- The number of channels. -/
  channels : Nat
  /-- The sample rate (Hz). -/
  rate : Nat
  /-- The bytes that a sample takes. -/
  container : Nat
  /-- The bits of a sample that count. -/
  bits : Nat
  /-- How a sample is stored. -/
  encoding : Encoding
deriving DecidableEq, Repr

/-- A format and samples, interleaved by channel. -/
structure Recording where
  /-- The format. -/
  format : Format
  /-- The samples. -/
  samples : List Float32

/-! ## Bytes -/

/-- The value of some bytes, the least significant first. -/
def ofLittleEndian : List UInt8 → Nat
  | [] => 0
  | b :: bytes => b.toNat + 256 * ofLittleEndian bytes

/-- The `count` bytes of a value, the least significant first. -/
def toLittleEndian : (count : Nat) → Nat → List UInt8
  | 0, _ => []
  | count + 1, value => UInt8.ofNat value :: toLittleEndian count (value / 256)

/-- The bytes of a tag. -/
def tag (name : String) : List UInt8 := name.toUTF8.toList

/-- A value of `bits` bits as a signed number. -/
def signed (bits value : Nat) : Int :=
  if value < Nat.pow 2 (bits - 1) then value else (value : Int) - (Nat.pow 2 bits : Nat)

/-- Reading from bytes.  One that does not fail gives what was read and the bytes
after it. -/
abbrev Reader (α : Type) := List UInt8 → Option (α × List UInt8)

/-- The next `count` bytes. -/
def takeBytes (count : Nat) : Reader (List UInt8) := fun bytes =>
  let front := bytes.take count
  if front.length = count then some (front, bytes.drop count) else none

/-- The next number of `count` bytes. -/
def takeNumber (count : Nat) : Reader Nat := fun bytes =>
  (takeBytes count bytes).map fun (front, rest) => (ofLittleEndian front, rest)

example : ofLittleEndian [0x34, 0x12] = 0x1234 ∧ toLittleEndian 4 0x1234 = [0x34, 0x12, 0, 0] := by
  decide
example : signed 8 0x7f = 127 ∧ signed 8 0x80 = -128 := by decide

end Denoise.Wave
