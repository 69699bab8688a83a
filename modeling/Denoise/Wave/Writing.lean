import Denoise.Wave.Reading

/-!
# Writing wave files

A recording is written in floating point of 32 bits.  The file has a format chunk
in the extensible form and a data chunk.
-/

namespace Denoise.Wave

/-- The format of a written file. -/
def writtenFormat (channels rate : Nat) : Format := ⟨channels, rate, 4, 32, .floating⟩

/-- The speaker positions that have a bit. -/
def speakers : Nat := 18

/-- A bit for each channel, as far as there are speaker positions. -/
def speakerMask (channels : Nat) : Nat := Nat.pow 2 (min channels speakers) - 1

/-- The bytes of a sample. -/
def sampleBytes (x : Float32) : List UInt8 := toLittleEndian 4 x.toBits.toNat

/-- A chunk: its tag, its length and its bytes. -/
def chunk (name : String) (body : List UInt8) : List UInt8 :=
  tag name ++ toLittleEndian 4 body.length ++ body

/-- The bytes of a format chunk. -/
def formatBody (f : Format) : List UInt8 :=
  toLittleEndian 2 extensibleForm ++ toLittleEndian 2 f.channels ++ toLittleEndian 4 f.rate
    ++ toLittleEndian 4 (f.rate * f.container * f.channels)
    ++ toLittleEndian 2 (f.container * f.channels) ++ toLittleEndian 2 (f.container * 8)
    ++ toLittleEndian 2 22 ++ toLittleEndian 2 f.bits
    ++ toLittleEndian 4 (speakerMask f.channels) ++ identifier f.encoding

/-- The bytes of a file of floating-point samples. -/
def toBytes (r : Recording) : List UInt8 :=
  chunk "RIFF" (tag "WAVE" ++ chunk "fmt " (formatBody r.format)
    ++ chunk "data" (r.samples.flatMap sampleBytes))

/-- What is written is read back. -/
example : ((open? (toBytes ⟨writtenFormat 2 8000, [0.5, -1, 0, 0.25]⟩)).bind
      Opened.recording?).map (fun r => (r.format, r.samples))
    = some (writtenFormat 2 8000, [0.5, -1, 0, 0.25]) := by decide +kernel

end Denoise.Wave
