/-!
# Log entries

An entry holds the bytes of a message, at most as many as a slot has room for.
A message is written as a sequence of fragments.  Of each as many whole
characters are kept as there is room left for, so the bytes of an entry are
always well formed.

Every fragment is cut on its own.  A fragment may end with a byte or two unused,
because its next character is wider than that.  A narrow character of a later
fragment then takes them.
-/

namespace Denoise

/-- The message in a slot of the log ring. -/
structure Entry where
  /-- The encoded text. -/
  bytes : ByteArray

namespace Entry

/-- The bytes a slot has room for. -/
def room : Nat := 256

/-- An entry of no text. -/
def blank : Entry := ⟨.empty⟩

/-- The longest front of a text that is no more than so many bytes. -/
def fitting (room : Nat) : List Char → List Char
  | [] => []
  | c :: text => if c.utf8Size ≤ room then c :: fitting (room - c.utf8Size) text else []

/-- An entry with a fragment at its end, as far as there is room. -/
def append (e : Entry) (fragment : String) : Entry :=
  ⟨e.bytes ++ (String.ofList (fitting (room - e.bytes.size) fragment.toList)).toUTF8⟩

/-- The entry of a message. -/
def ofFragments (fragments : List String) : Entry := fragments.foldl append blank

/-- Whether an entry has no text. -/
def isBlank (e : Entry) : Bool := e.bytes.size == 0

/-- The text of an entry.  Bytes that encode no text would be shown as such. -/
def text (e : Entry) : String := (String.fromUTF8? e.bytes).getD "<invalid>"

/-- A character that does not fit ends its fragment, even if the next one would. -/
example : fitting 4 ['a', 'é', '😀', 'b'] = ['a', 'é'] := by decide

/-! ## Bytes

The same by the bytes of a fragment: a cut at the room that is left, moved back until
it is between two characters. -/

/-- The last boundary of characters up to a place. -/
def boundary (fragment : String) : (place : Nat) → Nat
  | 0 => 0
  | place + 1 =>
    if String.Pos.Raw.isValid fragment ⟨place + 1⟩ then place + 1 else boundary fragment place

/-- The bytes of an entry with those of a fragment after them. -/
def writeBytes (bytes : ByteArray) (fragment : String) : ByteArray :=
  let cut := min fragment.utf8ByteSize (room - bytes.size)
  bytes ++ fragment.toUTF8.extract 0 (boundary fragment cut)

example : boundary "aé😀b" 6 = 3 ∧ boundary "aé😀b" 7 = 7 := by decide

end Entry

end Denoise
