import Denoise.Wave

/-!
# Reading wave files

A file starts with a header and goes on in chunks, each with a tag and a length.
They are read in order as far as the data chunk, before which there must be a
format chunk.  Chunks that are not known are skipped.

A format chunk is checked in full.  A sample has a whole number of bytes and at
least as many bits as count, and the byte rate agrees with the sample rate.
Three forms are known: plain integers, floating point, and the extensible form,
which says how many bits count and names its encoding by an identifier.

The data chunk says how many samples there are.  They are decoded only after the
file has been opened, and a file may turn out to hold fewer.
-/

namespace Denoise.Wave

/-- A file read up to its samples. -/
structure Opened where
  /-- The format. -/
  format : Format
  /-- The number of samples that the data chunk announces. -/
  count : Nat
  /-- The bytes from the first sample on. -/
  data : List UInt8
  /-- There is a channel. -/
  channels_pos : 0 < format.channels

/-! ## The format chunk -/

/-- A format with a channel. -/
structure Checked where
  /-- The format. -/
  format : Format
  /-- There is a channel. -/
  channels_pos : 0 < format.channels

/-- The form of plain integers. -/
def integerForm : Nat := 1

/-- The form of floating point. -/
def floatingForm : Nat := 3

/-- The extensible form. -/
def extensibleForm : Nat := 0xfffe

/-- The bytes of an encoding's identifier after its first two. -/
def identifierTail : List UInt8 :=
  [0x00, 0x00, 0x00, 0x00, 0x10, 0x00, 0x80, 0x00, 0x00, 0xaa, 0x00, 0x38, 0x9b, 0x71]

/-- The identifier of an encoding. -/
def identifier : Encoding → List UInt8
  | .integer => toLittleEndian 2 integerForm ++ identifierTail
  | .floating => toLittleEndian 2 floatingForm ++ identifierTail

/-- The encoding of an identifier. -/
def encoding? (bytes : List UInt8) : Option Encoding :=
  if bytes = identifier .integer then some .integer
  else if bytes = identifier .floating then some .floating
  else none

/-- The rest of a format chunk for plain integers.  Where the chunk is longer than
its least form, only some widths are allowed. -/
def readIntegerForm (length : Nat) (c : Checked) : Reader Checked := fun bytes =>
  let allowed := c.format.bits = 8 ∨ c.format.bits = 16 ∨ c.format.bits = 24
  match length with
  | 16 => some (c, bytes)
  | 18 => if allowed then (takeBytes 2 bytes).map fun (_, rest) => (c, rest) else none
  | 40 => if allowed then (takeBytes 24 bytes).map fun (_, rest) => (c, rest) else none
  | _ => none

/-- The rest of a format chunk for floating point. -/
def readFloatingForm (length : Nat) (c : Checked) : Reader Checked := fun bytes =>
  let floating : Checked := ⟨{ c.format with encoding := .floating }, c.channels_pos⟩
  if c.format.bits ≠ 32 then none
  else
    match length with
    | 16 => some (floating, bytes)
    | 18 => do
      let (extra, rest) ← takeNumber 2 bytes
      if extra = 0 then some (floating, rest) else none
    | _ => none

/-- The rest of a format chunk in the extensible form.  Where it does not say how
many bits count, all do. -/
def readExtensibleForm (length : Nat) (c : Checked) : Reader Checked := fun bytes =>
  if length < 40 then none
  else do
    let (extra, bytes) ← takeNumber 2 bytes
    if extra = 22 then
      let (valid, bytes) ← takeNumber 2 bytes
      let (_, bytes) ← takeNumber 4 bytes
      let (name, bytes) ← takeBytes 16 bytes
      let encoding ← encoding? name
      let bits := if 0 < valid then valid else c.format.bits
      some (⟨{ c.format with bits := bits, encoding := encoding }, c.channels_pos⟩, bytes)
    else none

/-- A format chunk after its length. -/
def readFormat (length : Nat) : Reader Checked := fun bytes =>
  if length < 16 then none
  else do
    let (form, bytes) ← takeNumber 2 bytes
    let (channels, bytes) ← takeNumber 2 bytes
    let (rate, bytes) ← takeNumber 4 bytes
    let (byteRate, bytes) ← takeNumber 4 bytes
    let (align, bytes) ← takeNumber 2 bytes
    let (bits, bytes) ← takeNumber 2 bytes
    if h : 0 < channels then
      let container := align / channels
      let c : Checked := ⟨⟨channels, rate, container, bits, .integer⟩, h⟩
      if container * 8 < bits ∨ 0x10000 ≤ container * 8 then none
      else if byteRate ≠ align * rate then none
      else if bits % 8 ≠ 0 ∨ bits = 0 then none
      else if form = integerForm then readIntegerForm length c bytes
      else if form = floatingForm then readFloatingForm length c bytes
      else if form = extensibleForm then readExtensibleForm length c bytes
      else none
    else none

/-! ## Chunks -/

/-- The data chunk after its length, for a format that has been read.  It holds
whole samples of all channels. -/
def openData (length : Nat) (c : Checked) (bytes : List UInt8) : Option Opened :=
  let count := length / c.format.container
  if count * c.format.container = length ∧ count % c.format.channels = 0 then
    some ⟨c.format, count, bytes, c.channels_pos⟩
  else none

/-- Chunks up to the data chunk, `turns` at most. -/
def readChunks : (turns : Nat) → Option Checked → List UInt8 → Option Opened
  | 0, _, _ => none
  | turns + 1, format, bytes => do
    let (name, bytes) ← takeBytes 4 bytes
    let (length, bytes) ← takeNumber 4 bytes
    if name = tag "fmt " then
      let (c, bytes) ← readFormat length bytes
      readChunks turns (some c) bytes
    else if name = tag "fact" then readChunks turns format (bytes.drop 4)
    else if name = tag "data" then openData length (← format) bytes
    else
      let (_, bytes) ← takeBytes length bytes
      readChunks turns format bytes

/-- The header of a file. -/
def readHeader (bytes : List UInt8) : Option (List UInt8) := do
  let (riff, bytes) ← takeBytes 4 bytes
  let (_, bytes) ← takeNumber 4 bytes
  let (wave, bytes) ← takeBytes 4 bytes
  if riff = tag "RIFF" ∧ wave = tag "WAVE" then some bytes else none

/-- A file opened, if it is one. -/
def open? (bytes : List UInt8) : Option Opened := do
  let chunks ← readHeader bytes
  readChunks (bytes.length + 1) none chunks

/-! ## Samples -/

/-- The integer in the bytes of a sample.  Bytes of eight bits are stored with
their sign bit turned, and 24 bits may come in a container of four bytes. -/
def integerOf (container bits : Nat) (bytes : List UInt8) : Option Int :=
  match container, bits with
  | 1, 8 => some ((ofLittleEndian bytes : Int) - 128)
  | 2, 16 => some (signed 16 (ofLittleEndian bytes))
  | 3, 24 => some (signed 24 (ofLittleEndian bytes))
  | 4, 24 => some (signed 24 (ofLittleEndian (bytes.take 3)))
  | 4, 32 => some (signed 32 (ofLittleEndian bytes))
  | _, _ => none

/-- The number in the bytes of a floating-point sample. -/
def floatingOf (container bits : Nat) (bytes : List UInt8) : Option Float32 :=
  if container = 4 ∧ bits = 32 then some (.ofBits (UInt32.ofNat (ofLittleEndian bytes))) else none

/-- One step of an integer sample of so many bits, as a share of the full range. -/
def step (bits : Nat) : Float32 := 1 / ofCount (Nat.pow 2 (bits - 1))

/-- The number that the bytes of a sample stand for. -/
def sampleOf (f : Format) (bytes : List UInt8) : Option Float32 :=
  match f.encoding with
  | .integer =>
    (integerOf f.container f.bits bytes).map fun n => n.toInt32.toFloat32 * step f.bits
  | .floating => floatingOf f.container f.bits bytes

/-- The next `count` samples after those that are `done`, newest first, if they
are there and can be decoded. -/
def readSamples (f : Format) : (count : Nat) → (done : List Float32) → List UInt8 →
    Option (List Float32)
  | 0, done, _ => some done.reverse
  | count + 1, done, bytes =>
    match takeBytes f.container bytes with
    | none => none
    | some (front, rest) =>
      match sampleOf f front with
      | none => none
      | some x => readSamples f count (x :: done) rest

/-- The samples of an opened file. -/
def Opened.recording? (o : Opened) : Option Recording :=
  (readSamples o.format o.count [] o.data).map fun samples => ⟨o.format, samples⟩

end Denoise.Wave
