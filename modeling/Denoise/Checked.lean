import Denoise.Device

/-!
# Checked work

Where a vector is indexed or cut, one is copied over another, a count is subtracted or
divided by, or a number is held between two bounds, a machine checks what it is given,
and stops if it does not fit.  The operations here say so: each gives what it computes,
or the `Fault` that stops it.

A pass over vectors in step ends with the shortest, so nothing is checked there.
-/

namespace Denoise

/-- Why a machine stops. -/
inductive Fault where
  /-- A vector has no such entry. -/
  | index (entry length : Nat)
  /-- A vector has no such part. -/
  | slice (start stop length : Nat)
  /-- A vector does not fit over another. -/
  | copy (target source : Nat)
  /-- More is taken away than there is. -/
  | underflow (count taken : Nat)
  /-- The divisor is a count of none. -/
  | divisor
  /-- The lower bound is not below the upper one. -/
  | bounds (low high : Float32)
  /-- What a function takes for granted is not so. -/
  | assertion
  /-- A transform is given too few points, or too little scratch. -/
  | transform (points scratch : Nat)
deriving DecidableEq

/-- A result, unless the machine stops. -/
abbrev Checked (α : Type) := Except Fault α

namespace Checked

variable {α : Type}

/-- What is taken for granted. -/
def require (claim : Prop) [Decidable claim] : Checked Unit :=
  if claim then .ok () else .error .assertion

/-- What is taken for granted, for use in what follows. -/
def ensure (claim : Prop) [Decidable claim] : Checked (PLift claim) :=
  if h : claim then .ok ⟨h⟩ else .error .assertion

/-! ## Vectors -/

/-- An entry. -/
def get (v : List α) (i : Nat) : Checked α :=
  match v[i]? with
  | some x => .ok x
  | none => .error (.index i v.length)

/-- An entry written over. -/
def put (v : List α) (i : Nat) (x : α) : Checked (List α) :=
  if i < v.length then .ok (v.set i x) else .error (.index i v.length)

/-- The entries from `start` up to `stop`. -/
def slice (v : List α) (start stop : Nat) : Checked (List α) :=
  if start ≤ stop ∧ stop ≤ v.length then .ok ((v.take stop).drop start)
  else .error (.slice start stop v.length)

/-- The entries from `start` up to `stop` all set to `x`. -/
def fill (v : List α) (start stop : Nat) (x : α) : Checked (List α) :=
  if start ≤ stop ∧ stop ≤ v.length then
    .ok (v.take start ++ List.replicate (stop - start) x ++ v.drop stop)
  else .error (.slice start stop v.length)

/-- A vector copied over one of its length. -/
def copyFrom (old new : List α) : Checked (List α) :=
  if old.length = new.length then .ok new else .error (.copy old.length new.length)

/-! ## Counts and numbers -/

/-- A count less another. -/
def minus (count taken : Nat) : Checked Nat :=
  if taken ≤ count then .ok (count - taken) else .error (.underflow count taken)

/-- How often a count goes into another. -/
def quotient (count divisor : Nat) : Checked Nat :=
  if divisor = 0 then .error .divisor else .ok (count / divisor)

/-- What is left of a count when another is taken from it as often as it goes. -/
def rest (count divisor : Nat) : Checked Nat :=
  if divisor = 0 then .error .divisor else .ok (count % divisor)

/-- A count as a number to divide by. -/
def divisor {K : Type} [OfScientific K] (count : Nat) : Checked K :=
  if count = 0 then .error .divisor else .ok (ofCount count)

/-- A number held between two bounds.  Neither may be undefined. -/
def clamp (low high x : Float32) : Checked Float32 :=
  if low ≤ high then .ok (Denoise.clamp low high x) else .error (.bounds low high)

/-! ## Loops -/

/-- A pass over the `count` indices from `first` on. -/
def forEach (body : Nat → α → Checked α) : (count first : Nat) → α → Checked α
  | 0, _, state => .ok state
  | count + 1, first, state => body first state >>= forEach body count (first + 1)

/-- A part that goes past the end is not there to be cut out. -/
example : slice [1, 2, 3] 1 3 = .ok [2, 3] ∧ slice [1, 2, 3] 2 4 = .error (.slice 2 4 3) :=
  ⟨rfl, rfl⟩
example : forEach (fun i v => put v i (10 * i)) 2 1 [7, 7, 7] = .ok [7, 10, 20]
    ∧ forEach (fun i v => put v i (10 * i)) 3 1 [7, 7, 7] = .error (.index 3 3) := ⟨rfl, rfl⟩

end Checked

end Denoise
