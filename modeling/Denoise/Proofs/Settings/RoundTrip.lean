import Denoise.Proofs.Settings.Values
import Denoise.Proofs.Settings.Words

/-!
# Reading a document back

The document of settings is read line by line.  Each line gives back the value of its
field (`readMember_line`), unless that is a number that is not finite, and the fields
together are the settings (`ofDocument_document`).  The induction is on the lines that are
left, with the names of the fields read so far.

The rules of `Valid` leave one number that need not be finite, and `document_round_trip`
says what comes of it.
-/

namespace Denoise

namespace Settings

variable {s t : Settings} {rest : List Char} {seen : List (List Char)}

/-! ## Fields -/

/-- A number that is held in a field is finite. -/
def Slot.isFinite (s : Settings) : Slot → Bool
  | .count _ _ => true
  | .number get _ => (get s).isFinite
  | .switch _ _ => true

/-- The value of a field, put into other settings. -/
def Slot.copy (s t : Settings) : Slot → Settings
  | .count get set => set (get s) t
  | .number get set => set (get s) t
  | .switch get set => set (get s) t

/-- What comes of reading the text of a field. -/
theorem Slot.read_text {slot : Slot} (hword : slot.InWord s) (hrest : Ends rest) :
    slot.read t (' ' :: (slot.text s ++ rest))
      = if slot.isFinite s then .ok (slot.copy s t, rest) else .error .mismatched := by
  cases slot with
  | count get set =>
    show readCount (' ' :: (Decimal.digits (get s) ++ rest)) >>= _ = _
    rw [readCount_text hword hrest]
    rfl
  | number get set =>
    show readSingle (' ' :: (Decimal.inDocuments.single (get s) ++ rest)) >>= _ = _
    cases hfinite : (get s).isFinite with
    | true =>
      rw [readSingle_text hfinite hrest, isFinite, hfinite]
      rfl
    | false =>
      rw [readSingle_null hfinite, isFinite, hfinite]
      rfl
  | switch get set =>
    show readSwitch (' ' :: ((if get s then "true" else "false").toList ++ rest)) >>= _ = _
    rw [readSwitch_text]
    rfl

/-! ## Names -/

/-- A character that stands for itself in a string. -/
def isPlain (c : Char) : Bool := c != '"' && c != '\\' && 0x20 ≤ c.toNat

theorem readString_plain {name : List Char} {turns : ℕ} (hname : name.all isPlain = true)
    (hturns : name.length < turns) : readString turns (name ++ '"' :: rest) = .ok (name, rest) := by
  induction name generalizing turns with
  | nil =>
    obtain ⟨turns, rfl⟩ : ∃ turns', turns = turns' + 1 := ⟨turns - 1, by omega⟩
    rfl
  | cons c name ih =>
    rw [List.length_cons] at hturns
    rw [List.all_cons, Bool.and_eq_true, isPlain, Bool.and_eq_true, Bool.and_eq_true, bne_iff_ne,
      bne_iff_ne, decide_eq_true_iff] at hname
    obtain ⟨⟨⟨hquote, hescape⟩, hcontrol⟩, hname⟩ := hname
    obtain ⟨turns, rfl⟩ : ∃ turns', turns = turns' + 1 := ⟨turns - 1, by omega⟩
    rw [List.cons_append, readString, if_neg hquote, if_neg hescape, if_neg (by omega),
      ih hname (by omega)]
    rfl

theorem plain_names : fields.all (fun f => f.name.all isPlain) = true := by decide

theorem nodup_names : (fields.map Field.name).Nodup := by decide

/-- The field that a name belongs to is found. -/
theorem field?_name {f : Field} (hf : f ∈ fields) : field? f.name = some f := by
  have hnodup := nodup_names
  rw [field?]
  generalize fields = fs at *
  induction fs with
  | nil => cases hf
  | cons g fs ih =>
    rw [List.map_cons, List.nodup_cons] at hnodup
    rcases List.mem_cons.1 hf with rfl | hf
    · exact List.find?_cons_of_pos (beq_self_eq_true f.name)
    · have hne : ¬(g.name == f.name) = true := fun heq =>
        hnodup.1 (List.mem_map.2 ⟨f, hf, (eq_of_beq heq).symm⟩)
      rw [List.find?_cons_of_neg (p := fun g : Field => g.name == f.name) hne]
      exact ih hf hnodup.2

/-! ## Lines -/

/-- A line gives its field back, if the number in it is finite.  Else it has `null`, which
is refused. -/
theorem readMember_line {f : Field} (hf : f ∈ fields) (hseen : f.name ∉ seen)
    (hword : f.slot.InWord s) (hrest : Ends rest) :
    readMember t seen (f.name ++ "\": ".toList ++ f.slot.text s ++ rest)
      = if f.slot.isFinite s then .ok ((f.slot.copy s t, f.name :: seen), rest)
        else .error .mismatched := by
  have htext : f.name ++ "\": ".toList ++ f.slot.text s ++ rest
      = f.name ++ '"' :: (": ".toList ++ (f.slot.text s ++ rest)) := by
    rw [List.append_assoc, List.append_assoc]
    rfl
  have hname : readString ((f.name ++ '"' :: (": ".toList ++ (f.slot.text s ++ rest))).length + 1)
      (f.name ++ '"' :: (": ".toList ++ (f.slot.text s ++ rest)))
      = .ok (f.name, ": ".toList ++ (f.slot.text s ++ rest)) :=
    readString_plain (List.all_eq_true.1 plain_names f hf) (by rw [List.length_append]; omega)
  have hnew : ¬seen.contains f.name = true := by
    rw [List.contains_iff_mem]
    exact hseen
  rw [htext, readMember, hname]
  show (Except.ok _ >>= _) = _
  dsimp only [bind, Except.bind]
  rw [field?_name hf]
  show (if _ then _ else _) = _
  rw [if_neg hnew]
  show f.slot.read t (' ' :: (f.slot.text s ++ rest))
    >>= (fun r => .ok ((r.1, f.name :: seen), r.2)) = _
  rw [Slot.read_text hword hrest]
  cases f.slot.isFinite s with
  | true => rfl
  | false => rfl

/-- The lines after the first, and the end of the document. -/
def laterLines (s : Settings) : List Field → List Char
  | [] => "\n\x7d".toList
  | f :: fs => ",\n".toList ++ f.line s ++ laterLines s fs

theorem ends_laterLines (s : Settings) (fs : List Field) : Ends (laterLines s fs) := by
  cases fs with
  | nil =>
    rintro c ⟨⟩
    decide
  | cons f fs =>
    rintro c ⟨⟩
    decide

theorem readMembers_first {turns : ℕ} {f : Field} :
    readMembers (turns + 1) true t seen ("\n".toList ++ f.line s ++ rest)
      = readMember t seen (f.name ++ "\": ".toList ++ f.slot.text s ++ rest) >>= fun r =>
        readMembers turns false r.1.1 r.1.2 r.2 := rfl

theorem readMembers_later {turns : ℕ} {f : Field} :
    readMembers (turns + 1) false t seen (",\n".toList ++ f.line s ++ rest)
      = readMember t seen (f.name ++ "\": ".toList ++ f.slot.text s ++ rest) >>= fun r =>
        readMembers turns false r.1.1 r.1.2 r.2 := rfl

/-- What comes of reading lines: the values of all their fields, unless one of them is
no number. -/
def copied (s t : Settings) (fs : List Field) : Reading (Settings × List Char) :=
  if fs.all (·.slot.isFinite s) then .ok (fs.foldl (fun t f => f.slot.copy s t) t, [])
  else .error .mismatched

theorem copied_cons (f : Field) (fs : List Field) : copied s t (f :: fs)
    = if f.slot.isFinite s then copied s (f.slot.copy s t) fs else .error .mismatched := by
  rw [copied, List.all_cons]
  cases f.slot.isFinite s with
  | true => rfl
  | false => rfl

/-- The later lines give their fields back one after another. -/
theorem readMembers_laterLines {fs : List Field} {turns : ℕ} (hfs : ∀ f ∈ fs, f ∈ fields)
    (hnodup : (fs.map Field.name).Nodup) (hseen : ∀ f ∈ fs, f.name ∉ seen)
    (hwords : ∀ f ∈ fs, f.slot.InWord s) (hturns : (laterLines s fs).length ≤ turns) :
    readMembers turns false t seen (laterLines s fs) = copied s t fs := by
  induction fs generalizing turns t seen with
  | nil =>
    have hlength : (laterLines s []).length = 2 := rfl
    obtain ⟨turns, rfl⟩ : ∃ turns', turns = turns' + 1 := ⟨turns - 1, by omega⟩
    rfl
  | cons f fs ih =>
    have hlength : (laterLines s (f :: fs)).length
        = 2 + (f.line s).length + (laterLines s fs).length := by
      rw [laterLines, List.length_append, List.length_append]
      rfl
    obtain ⟨turns, rfl⟩ : ∃ turns', turns = turns' + 1 := ⟨turns - 1, by omega⟩
    rw [List.map_cons, List.nodup_cons] at hnodup
    rw [laterLines, readMembers_later, readMember_line (hfs f (List.mem_cons_self ..))
      (hseen f (List.mem_cons_self ..)) (hwords f (List.mem_cons_self ..)) (ends_laterLines s fs),
      copied_cons]
    cases f.slot.isFinite s with
    | false => rfl
    | true =>
      refine ih (fun g hg => hfs g (List.mem_cons_of_mem f hg)) hnodup.2 (fun g hg => ?_)
        (fun g hg => hwords g (List.mem_cons_of_mem f hg)) (by omega)
      intro hmem
      rcases List.mem_cons.1 hmem with heq | hmem
      · exact hnodup.1 (heq ▸ List.mem_map_of_mem hg)
      · exact hseen g (List.mem_cons_of_mem f hg) hmem

theorem intercalate_lines (f : Field) (fs : List Field) :
    ",\n".toList.intercalate ((f :: fs).map (Field.line s)) ++ "\n\x7d".toList
      = f.line s ++ laterLines s fs := by
  induction fs generalizing f with
  | nil =>
    rw [List.map_singleton, List.intercalate_singleton]
    rfl
  | cons g fs ih =>
    rw [List.map_cons, List.map_cons, List.intercalate_cons_cons, List.append_assoc,
      ← List.map_cons, ih g, laterLines, List.append_assoc, List.append_assoc]

/-- So do all lines of a document. -/
theorem readMembers_lines {f : Field} {fs : List Field} {turns : ℕ}
    (hfs : ∀ g ∈ f :: fs, g ∈ fields) (hnodup : ((f :: fs).map Field.name).Nodup)
    (hwords : ∀ g ∈ f :: fs, g.slot.InWord s) (hturns : (laterLines s fs).length ≤ turns) :
    readMembers (turns + 1) true t [] ("\n".toList ++ f.line s ++ laterLines s fs)
      = copied s t (f :: fs) := by
  rw [List.map_cons, List.nodup_cons] at hnodup
  rw [readMembers_first, readMember_line (hfs f (List.mem_cons_self ..)) List.not_mem_nil
    (hwords f (List.mem_cons_self ..)) (ends_laterLines s fs), copied_cons]
  cases f.slot.isFinite s with
  | false => rfl
  | true =>
    refine readMembers_laterLines (fun g hg => hfs g (List.mem_cons_of_mem f hg)) hnodup.2
      (fun g hg heq => ?_) (fun g hg => hwords g (List.mem_cons_of_mem f hg)) hturns
    exact hnodup.1 (List.mem_singleton.1 heq ▸ List.mem_map_of_mem hg)

/-- All fields together are the settings. -/
theorem foldl_copy_fields (s t : Settings) : fields.foldl (fun t f => f.slot.copy s t) t = s := by
  simp only [fields, List.foldl_cons, List.foldl_nil, Slot.copy]

/-- The document of settings is read back if every number in it is finite. -/
theorem ofDocument_document (hwords : s.Words) :
    ofDocument (document s)
      = if fields.all (·.slot.isFinite s) then .ok s else .error .mismatched := by
  obtain ⟨f, fs, hfields⟩ : ∃ f fs, fields = f :: fs := ⟨_, _, rfl⟩
  have hdocument : document s = '\x7b' :: ("\n".toList ++ f.line s ++ laterLines s fs) := by
    rw [document, hfields, List.append_assoc, intercalate_lines]
    rfl
  have hread : readMembers (("\n".toList ++ f.line s ++ laterLines s fs).length + 1) true {} []
      ("\n".toList ++ f.line s ++ laterLines s fs) = copied s {} fields := by
    rw [hfields]
    refine readMembers_lines (fun g hg => hfields ▸ hg) (hfields ▸ nodup_names)
      (fun g hg => hwords g (hfields ▸ hg)) ?_
    rw [List.length_append]
    omega
  rw [hdocument]
  show (readMembers _ true {} [] _ >>= fun r => if skipBlanks r.2 = [] then .ok r.1 else _) = _
  rw [hread, copied, foldl_copy_fields]
  cases fields.all (·.slot.isFinite s) with
  | true => rfl
  | false => rfl

/-! ## Valid settings -/

/-- The rules ask of every number but the threshold of the detector that it is finite. -/
theorem Valid.all_isFinite (valid : s.Valid) :
    fields.all (·.slot.isFinite s) = s.vadThreshold.isFinite := by
  obtain ⟨-, -, -, ⟨hwideband, -⟩, ⟨hgain, -⟩, hsilence, hlow, hhigh⟩ := valid_iff.1 valid
  have hsmoothing := Singles.isFinite_of_unit hlow hhigh
  simp [fields, Slot.isFinite, hwideband, hgain, hsilence, hsmoothing]

/-- The document of valid settings gives them back, also if they come from a text.  The
one exception is a threshold of the detector that is not finite.  No rule is about it,
and no number is written for it. -/
theorem document_round_trip (hs : s.Valid ∧ s.Words ∨ ∃ text, ofText text = .ok s) :
    ofText (document s)
      = if s.vadThreshold.isFinite then .ok s else .error (.document .mismatched) := by
  obtain ⟨valid, hwords⟩ : s.Valid ∧ s.Words := by
    rcases hs with hs | ⟨text, htext⟩
    · exact hs
    · exact of_ofText htext
  rw [ofText, ofDocument_document hwords, valid.all_isFinite]
  cases s.vadThreshold.isFinite with
  | false => rfl
  | true =>
    have hnone : s.violation? = none := valid
    simp only [if_true, hnone]

/-- The number of the first text overflows to an infinity. -/
theorem document_round_trip_specimen :
    (∃ s, ofText "\x7b\"vad_threshold\": 1e39\x7d".toList = .ok s
      ∧ ofText (document s) = .error (.document .mismatched))
    ∧ ∃ s, ofText "[7, 3, 2, -1.5e-7]".toList = .ok s ∧ ofText (document s) = .ok s := by
  have hinfinite : ofText "\x7b\"vad_threshold\": 1e39\x7d".toList
      = .ok { vadThreshold := 1 / 0 } := by decide +kernel
  have hfinite : ofText "[7, 3, 2, -1.5e-7]".toList
      = .ok
        { noiseFrames := 7, switchInterval := 3, overlapInterval := 2,
          silenceThresholdDb := -1.5e-7 } := by decide +kernel
  exact ⟨⟨_, hinfinite, document_round_trip (.inr ⟨_, hinfinite⟩)⟩,
    ⟨_, hfinite, document_round_trip (.inr ⟨_, hfinite⟩)⟩⟩

end Settings

end Denoise
