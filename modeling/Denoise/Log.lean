import Denoise.Event
import Denoise.Log.Ring

/-!
# The processing log

Messages from the processing thread.  A direct log emits each at once.  A
buffered log queues them in a ring, so that processing waits for nothing, and
somebody else drains it.  It takes messages once it is started.

A message of no text is queued like any other, but not emitted.  A drain reports
how many messages found no room since the drain before.
-/

namespace Denoise

/-- A log of messages. -/
inductive Log where
  /-- Messages are emitted at once. -/
  | direct
  /-- Messages are queued, once there is a ring. -/
  | buffered (ring : Option Ring)

/-- A log and the records it emits. -/
structure Emitted where
  /-- The log. -/
  log : Log
  /-- The records. -/
  records : List Record

/-- A log after a drain. -/
structure Drained where
  /-- The log. -/
  log : Log
  /-- The number of messages emitted. -/
  count : Nat
  /-- The records. -/
  records : List Record

namespace Log

/-- The record of a message. -/
def message (text : String) : Record := ⟨.debug, text⟩

/-- The log starts to take messages. -/
def start : Log → Log
  | direct => direct
  | buffered none => buffered (some .empty)
  | buffered (some ring) => buffered (some ring)

/-- A message, given as the fragments it is written in. -/
def write (fragments : List String) : Log → Emitted
  | direct => ⟨direct, [message (String.join fragments)]⟩
  | buffered none => ⟨buffered none, []⟩
  | buffered (some ring) => ⟨buffered (some (ring.push (.ofFragments fragments))), []⟩

/-- The report on dropped entries. -/
def report (dropped : Nat) : List Record :=
  if 0 < dropped then [(Event.entriesDropped dropped).record] else []

/-- Every queued message is emitted. -/
def drain : Log → Drained
  | direct => ⟨direct, 0, []⟩
  | buffered none => ⟨buffered none, 0, []⟩
  | buffered (some ring) =>
    let (entries, rest) := ring.popAll
    let messages := (entries.filter fun e => !e.isBlank).map Entry.text
    { log := buffered (some { rest with dropped := 0 })
      count := messages.length
      records := messages.map message ++ report rest.dropped }

end Log

end Denoise
