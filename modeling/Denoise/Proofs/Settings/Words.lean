import Denoise.Settings.Loading
import Mathlib.Algebra.Group.Nat.Defs

/-!
# The counts of a document

The digits of a number are taken as long as they fit a 64-bit word, and a number that
goes on after that is no count.  So all the counts that a document gives fit a word
(`words_of_ofText`).
-/

namespace Denoise

namespace Settings

/-! ## Readings -/

section Readings

variable {α β : Type} {p : α → Prop} {q : β → Prop} {x : Reading α} {f : α → Reading β}

/-- What is read, if anything is, has a property. -/
def Gives (p : α → Prop) (x : Reading α) : Prop := ∀ a, x = .ok a → p a

theorem Gives.ok {a : α} (h : p a) : Gives p (.ok a) := by
  rintro _ ⟨⟩
  exact h

theorem Gives.error {failure : DocumentFailure} : Gives p (.error failure) := by
  rintro _ ⟨⟩

/-- What a reader gives is passed to the next one. -/
theorem Gives.bind (hx : Gives p x) (hf : ∀ a, p a → Gives q (f a)) : Gives q (x >>= f) := by
  cases x with
  | error => exact .error
  | ok a => exact hf a (hx a rfl)

/-- Where nothing has to be known of what is read first. -/
theorem Gives.after (hf : ∀ a, Gives q (f a)) : Gives q (x >>= f) :=
  .bind (p := fun _ => True) (fun _ _ => trivial) fun a _ => hf a

/-- Three ways to read on in the same manner. -/
theorem Gives.branch {c d : Prop} [Decidable c] [Decidable d] {y z : Reading α}
    (hf : ∀ a, Gives q (f a)) : Gives q (if c then x >>= f else if d then y >>= f else z >>= f) := by
  split
  · exact .after hf
  · split
    · exact .after hf
    · exact .after hf

end Readings

/-! ## Numbers -/

/-- A number that fits a word, if it is a count. -/
def Number.InWord : Number → Prop
  | .natural n => n < 2 ^ 64
  | .negative _ => True
  | .real _ => True

/-- Digits are only taken while the number fits. -/
theorem accumulate_lt {start : ℕ} (h : start < 2 ^ 64) (ds : List Char) :
    (accumulate start ds).1 < 2 ^ 64 := by
  induction ds generalizing start with
  | nil => exact h
  | cons c ds ih =>
    rw [accumulate]
    split
    next hfits => exact ih hfits
    next => exact h

theorem gives_toReal (negative : Bool) (n : ℕ) (k : Int) :
    Gives Number.InWord (toReal negative n k) := by
  rw [toReal]
  split
  · exact .ok trivial
  · exact .error

/-- A number that gets a fraction or an exponent is no count, and any other fits already. -/
theorem gives_readTail {negative : Bool} {n beyond : ℕ} {text : List Char} (hn : n < 2 ^ 64) :
    Gives (fun r => r.1.InWord) (readTail negative n beyond text) := by
  rw [readTail.eq_def]
  split
  · split
    · exact .error
    · exact .error
    · exact .after fun r => (gives_toReal negative _ _).bind fun x hx => .ok hx
  · split
    · exact .after fun r => (gives_toReal negative _ _).bind fun x hx => .ok hx
    · split
      · exact .ok hn
      · split
        · exact .ok trivial
        · exact .ok trivial

theorem gives_readNumber (negative : Bool) (text : List Char) :
    Gives (fun r => r.1.InWord) (readNumber negative text) := by
  rw [readNumber.eq_def]
  split
  · exact .error
  · exact .error
  · split
    · exact .error
    · exact gives_readTail (accumulate_lt (by decide) _)

/-- A numeral that is read as a natural number fits a word. -/
theorem gives_readNumeral (text : List Char) : Gives (fun r => r.1.InWord) (readNumeral text) := by
  rw [readNumeral.eq_def]
  split
  · exact .error
  · split
    · exact gives_readNumber true _
    · split
      · exact gives_readNumber false _
      · exact .error

theorem gives_readCount (text : List Char) : Gives (fun r => r.1 < 2 ^ 64) (readCount text) := by
  refine (gives_readNumeral text).bind fun r hr => ?_
  split
  · exact .ok hr
  · exact .error

/-! ## Fields -/

/-- A count that is held in a field fits a 64-bit word. -/
def Slot.InWord (s : Settings) : Slot → Prop
  | .count get _ => get s < 2 ^ 64
  | .number _ _ => True
  | .switch _ _ => True

/-- All counts fit 64-bit words. -/
def Words (s : Settings) : Prop := ∀ f ∈ fields, f.slot.InWord s

variable {s : Settings}

/-- The counts of the settings one by one. -/
theorem words_iff : s.Words ↔ s.noiseFrames < 2 ^ 64 ∧ s.switchInterval < 2 ^ 64
    ∧ s.overlapInterval < 2 ^ 64 ∧ s.activityWindow < 2 ^ 64 ∧ s.audioHistoryFrames < 2 ^ 64
    ∧ s.widebandHistoryFrames < 2 ^ 64 ∧ s.historyMinFrames < 2 ^ 64 := by
  simp [Words, fields, Slot.InWord]

/-- A field into which no value can be put that takes the counts out of their words. -/
def Slot.Keeps : Slot → Prop
  | .count _ set => ∀ s : Settings, s.Words → ∀ v < 2 ^ 64, (set v s).Words
  | .number _ set => ∀ s : Settings, s.Words → ∀ v, (set v s).Words
  | .switch _ set => ∀ s : Settings, s.Words → ∀ v, (set v s).Words

/-- No field puts more into a count than a word holds. -/
theorem keeps_fields : ∀ f ∈ fields, f.slot.Keeps := by
  simp +contextual [fields, Slot.Keeps, words_iff]

theorem gives_read {slot : Slot} (hslot : slot.Keeps) (hs : s.Words) (text : List Char) :
    Gives (fun r => r.1.Words) (slot.read s text) := by
  cases slot with
  | count get set => exact (gives_readCount text).bind fun r hr => .ok (hslot s hs r.1 hr)
  | number get set => exact .after fun r => .ok (hslot s hs r.1)
  | switch get set => exact .after fun r => .ok (hslot s hs r.1)

/-! ## Documents -/

/-- A member of a document leaves all counts within words. -/
theorem gives_readMember (hs : s.Words) (seen : List (List Char)) (text : List Char) :
    Gives (fun r => r.1.1.Words) (readMember s seen text) := by
  refine .after fun r => ?_
  obtain ⟨name, rest⟩ := r
  dsimp only
  split
  next f hfield =>
    have hkeeps := keeps_fields f (List.mem_of_find?_eq_some hfield)
    split
    · exact .error
    · exact .after fun _ => (gives_read hkeeps hs _).bind fun r hr => .ok hr
  next => exact .after fun _ => .after fun _ => .ok hs

theorem gives_readMembers {turns : ℕ} {first : Bool} (hs : s.Words) (seen : List (List Char))
    (text : List Char) : Gives (fun r => r.1.Words) (readMembers turns first s seen text) := by
  induction turns generalizing first s seen text with
  | zero => exact .error
  | succ turns ih =>
    rw [readMembers]
    split
    · exact .error
    · split
      · exact .ok hs
      · refine .branch fun next => ?_
        cases next with
        | nil => exact .error
        | cons d rest =>
          show Gives _ (if _ then _ else _)
          split
          · exact (gives_readMember hs seen _).bind fun r hr => ih hr _ _
          · exact .error

/-- So do the elements of a list that stands for the settings. -/
theorem gives_readElements {fs : List Field} {first : Bool} (hfs : ∀ f ∈ fs, f ∈ fields) (hs : s.Words)
    (text : List Char) : Gives (fun r => r.1.Words) (readElements s first text fs) := by
  induction fs generalizing first s text with
  | nil =>
    rw [readElements]
    split
    · exact .error
    · split
      · exact .ok hs
      · exact .error
  | cons f fs ih =>
    have hread : ∀ text, Gives (fun r => r.1.Words) (f.slot.read s text >>= fun r =>
        readElements r.1 false r.2 fs) := fun text =>
      (gives_read (keeps_fields f (hfs f (List.mem_cons_self ..))) hs text).bind fun r hr =>
        ih (fun g hg => hfs g (List.mem_cons_of_mem f hg)) hr r.2
    rw [readElements]
    split
    · exact .error
    · split
      · exact .ok hs
      · split
        · exact hread _
        · split
          · split
            · exact .error
            · split
              · exact .error
              · exact hread _
          · exact .error

theorem words_default : ({} : Settings).Words := by
  rw [words_iff]
  decide

/-- Settings that come from a text have counts that fit words. -/
theorem gives_ofDocument (text : List Char) : Gives Words (ofDocument text) := by
  have hend : ∀ r : Settings × List Char, r.1.Words →
      Gives Words (if skipBlanks r.2 = [] then .ok r.1 else .error .malformed) := by
    intro r hr
    split
    · exact .ok hr
    · exact .error
  rw [ofDocument]
  dsimp only
  split
  · exact .bind .error hend
  · split
    · exact .bind (gives_readMembers words_default _ _) hend
    · split
      · exact .bind (gives_readElements (fun _ hf => hf) words_default _) hend
      · exact .bind .error hend

/-- What a text gives is valid, and its counts fit. -/
theorem of_ofText {text : List Char} (h : ofText text = .ok s) : s.Valid ∧ s.Words := by
  rw [ofText] at h
  split at h
  next => cases h
  next t hread =>
    split at h
    next => cases h
    next hvalid =>
      cases h
      exact ⟨hvalid, gives_ofDocument text s hread⟩

end Settings

end Denoise
