import Denoise.Proofs.Log.Fates

/-!
# Messages that are cut

The entry of a message should hold the longest front of it that a slot has room for.  Up to the
first fragment that is cut it does.  But the bytes that a wide character leaves unused are offered
to every later fragment, and the entry ends with what these put there (`keptOf_eq`).  There are
three such bytes at most, and they stay unused exactly if each later fragment starts with a
character that is too wide for them (`later_fragments_fill_up`).
-/

namespace Denoise.Entry

/-! ## What is kept of a text -/

/-- What an entry with so much space keeps of a text. -/
def kept (space : Nat) (text : String) : String := String.ofList (fitting space text.toList)

section Text

variable {space : Nat}

theorem fitting_of_le {text : List Char} (h : (String.ofList text).utf8ByteSize ≤ space) :
    fitting space text = text := by
  induction text generalizing space with
  | nil => rfl
  | cons c text ih =>
    rw [utf8ByteSize_cons] at h
    rw [fitting, if_pos (by omega), ih (by omega)]

/-- A front that fits is kept, and the rest of the text has the rest of the room. -/
theorem fitting_append_of_le {front : List Char} (text : List Char)
    (h : (String.ofList front).utf8ByteSize ≤ space) :
    fitting space (front ++ text)
      = front ++ fitting (space - (String.ofList front).utf8ByteSize) text := by
  induction front generalizing space with
  | nil => rfl
  | cons c front ih =>
    rw [utf8ByteSize_cons] at h
    rw [List.cons_append, fitting, if_pos (by omega), ih (by omega), utf8ByteSize_cons,
      Nat.sub_sub, List.cons_append]

/-- Behind a front that is cut nothing is kept. -/
theorem fitting_append_of_lt {front : List Char} (text : List Char)
    (h : space < (String.ofList front).utf8ByteSize) :
    fitting space (front ++ text) = fitting space front := by
  induction front generalizing space with
  | nil => exact absurd h (Nat.not_lt_zero _)
  | cons c front ih =>
    rw [utf8ByteSize_cons] at h
    rw [List.cons_append, fitting, fitting]
    split
    · rw [ih (by omega)]
    · rfl

/-- When a text is cut, the space left over is too small for some character. -/
theorem space_le_of_cut {text : List Char} (h : space < (String.ofList text).utf8ByteSize) :
    space - (String.ofList (fitting space text)).utf8ByteSize ≤ 3 := by
  induction text generalizing space with
  | nil => exact absurd h (Nat.not_lt_zero _)
  | cons c text ih =>
    rw [utf8ByteSize_cons] at h
    rw [fitting]
    split
    next hfits =>
      have hrest := @ih (space - c.utf8Size) (by omega)
      rw [utf8ByteSize_cons]
      omega
    next hwide =>
      have hfour := c.utf8Size_le_four
      exact Nat.le_trans (Nat.sub_le _ _) (by omega)

/-- Nothing is kept exactly if the first character is too wide. -/
theorem fitting_eq_nil_iff {text : List Char} :
    fitting space text = [] ↔ ∀ c ∈ text.head?, space < c.utf8Size := by
  cases text with
  | nil => exact iff_of_true rfl nofun
  | cons c text =>
    rw [fitting]
    split
    next hfits =>
      refine iff_of_false (List.cons_ne_nil _ _) fun h => ?_
      exact Nat.not_lt.2 hfits (h c rfl)
    next hwide =>
      refine iff_of_true rfl fun d hd => ?_
      obtain rfl : c = d := Option.some.inj hd
      exact Nat.lt_of_not_le hwide

theorem kept_le (space : Nat) (text : String) : (kept space text).utf8ByteSize ≤ space :=
  fitting_le space text.toList

theorem kept_of_le {text : String} (h : text.utf8ByteSize ≤ space) : kept space text = text := by
  rw [kept, fitting_of_le (by rwa [String.ofList_toList]), String.ofList_toList]

theorem kept_append_of_le {front : String} (text : String) (h : front.utf8ByteSize ≤ space) :
    kept space (front ++ text) = front ++ kept (space - front.utf8ByteSize) text := by
  rw [kept, String.toList_append, fitting_append_of_le _ (by rwa [String.ofList_toList]),
    String.ofList_append, String.ofList_toList, kept]

theorem kept_append_of_lt {front : String} (text : String) (h : space < front.utf8ByteSize) :
    kept space (front ++ text) = kept space front := by
  rw [kept, String.toList_append, fitting_append_of_lt _ (by rwa [String.ofList_toList]), kept]

theorem kept_eq_empty_iff {text : String} :
    kept space text = "" ↔ ∀ c ∈ text.toList.head?, space < c.utf8Size := by
  rw [kept, String.ofList_eq_empty_iff, fitting_eq_nil_iff]

/-- What is kept is the longest front that there is space for. -/
theorem exists_append_of_fits {front text rest : String} (htext : text = front ++ rest)
    (hfits : front.utf8ByteSize ≤ space) : ∃ more, kept space text = front ++ more :=
  ⟨_, htext ▸ kept_append_of_le rest hfits⟩

end Text

/-! ## What is kept of fragments -/

/-- What an entry with so much space keeps of fragments, one after the other. -/
def keptOf : (space : Nat) → List String → String
  | _, [] => ""
  | space, fragment :: later =>
    kept space fragment ++ keptOf (space - (kept space fragment).utf8ByteSize) later

/-- The fragments after the first one that is cut. -/
def afterCut : (space : Nat) → List String → List String
  | _, [] => []
  | space, fragment :: later =>
    if fragment.utf8ByteSize ≤ space then afterCut (space - fragment.utf8ByteSize) later else later

theorem writeBytes_eq (bytes : ByteArray) (fragment : String) :
    writeBytes bytes fragment = bytes ++ (kept (room - bytes.size) fragment).toUTF8 :=
  congrArg (bytes ++ ·) (extract_boundary fragment _)

/-- What is written of some fragments is what is kept of each in the room that those
before leave. -/
theorem foldl_writeBytes (bytes : ByteArray) (fragments : List String) :
    fragments.foldl writeBytes bytes
      = bytes ++ (keptOf (room - bytes.size) fragments).toUTF8 := by
  induction fragments generalizing bytes with
  | nil => exact (ByteArray.append_empty).symm
  | cons fragment later ih =>
    rw [List.foldl_cons, ih, writeBytes_eq, ByteArray.size_append, String.toUTF8_eq_toByteArray,
      String.size_toByteArray, ← Nat.sub_sub, ByteArray.append_assoc, keptOf,
      String.toUTF8_eq_toByteArray, String.toUTF8_eq_toByteArray, String.toByteArray_append]

section Fragments

variable {space : Nat} {fragments : List String}

/-- No more is kept of some fragments than there is room for. -/
theorem keptOf_le (space : Nat) (fragments : List String) :
    (keptOf space fragments).utf8ByteSize ≤ space := by
  induction fragments generalizing space with
  | nil => exact Nat.zero_le _
  | cons fragment later ih =>
    have hfirst := kept_le space fragment
    have hlater := ih (space - (kept space fragment).utf8ByteSize)
    rw [keptOf, String.utf8ByteSize_append]
    omega

/-- Of the fragments there is kept what is kept of the whole message, and then what there is
space for of the fragments after the cut. -/
theorem keptOf_eq (space : Nat) (fragments : List String) :
    keptOf space fragments = kept space (String.join fragments)
      ++ keptOf (space - (kept space (String.join fragments)).utf8ByteSize)
        (afterCut space fragments) := by
  induction fragments generalizing space with
  | nil => rfl
  | cons fragment later ih =>
    rw [String.join_cons, afterCut, keptOf]
    split
    next hfits =>
      rw [kept_of_le hfits, kept_append_of_le _ hfits, ih, String.utf8ByteSize_append,
        Nat.sub_sub, String.append_assoc]
    next hcut => rw [kept_append_of_lt _ (Nat.lt_of_not_le hcut)]

/-- If all fragments fit, none comes after a cut. -/
theorem afterCut_of_le (h : (String.join fragments).utf8ByteSize ≤ space) :
    afterCut space fragments = [] := by
  induction fragments generalizing space with
  | nil => rfl
  | cons fragment later ih =>
    rw [String.join_cons, String.utf8ByteSize_append] at h
    rw [afterCut, if_pos (by omega), ih (by omega)]

theorem keptOf_eq_empty_iff : keptOf space fragments = ""
    ↔ ∀ fragment ∈ fragments, ∀ c ∈ fragment.toList.head?, space < c.utf8Size := by
  induction fragments with
  | nil => exact iff_of_true rfl nofun
  | cons fragment later ih =>
    rw [keptOf, String.append_eq_empty_iff, kept_eq_empty_iff, List.forall_mem_cons]
    refine and_congr_right fun hfirst => ?_
    rw [kept_eq_empty_iff.2 hfirst]
    exact ih

end Fragments

/-! ## Messages -/

/-- The longest front of a message that an entry has room for. -/
def frontOf (fragments : List String) : String := kept room (String.join fragments)

/-- The bytes of an entry that the longest front leaves unused. -/
def leftBy (fragments : List String) : Nat := room - (frontOf fragments).utf8ByteSize

/-- What is kept of the fragments after the first one that is cut. -/
def refill (fragments : List String) : String :=
  keptOf (leftBy fragments) (afterCut room fragments)

/-- The bytes of an entry are the longest front of the message and what fills the room
behind it. -/
theorem bytes_eq (fragments : List String) :
    fragments.foldl writeBytes .empty = (frontOf fragments ++ refill fragments).toUTF8 := by
  have hfold : fragments.foldl writeBytes .empty = .empty ++ (keptOf room fragments).toUTF8 :=
    foldl_writeBytes _ _
  rw [hfold, ByteArray.empty_append, keptOf_eq]
  rfl

/-- A character has four bytes at most, so the room behind a cut is less than that. -/
theorem refill_le (fragments : List String) : (refill fragments).utf8ByteSize ≤ 3 := by
  rcases Nat.lt_or_ge room (String.join fragments).utf8ByteSize with hcut | hfits
  · have hleft : leftBy fragments ≤ 3 := space_le_of_cut (by rwa [String.ofList_toList])
    exact Nat.le_trans (keptOf_le _ _) hleft
  · rw [refill, afterCut_of_le hfits]
    exact Nat.zero_le _

/-- The entry of a message starts with the longest front of the message that there is room for.
What follows is kept of the fragments after the first one that is cut, and is three bytes at most.
There is nothing that follows exactly if each of these fragments starts with a character that is
too wide for the room left over. -/
theorem later_fragments_fill_up (fragments : List String) :
    (ofFragments fragments).bytes = fragments.foldl writeBytes .empty
      ∧ (∃ rest, String.join fragments = frontOf fragments ++ rest)
      ∧ (frontOf fragments).utf8ByteSize ≤ 256
      ∧ (∀ other rest, String.join fragments = other ++ rest → other.utf8ByteSize ≤ 256 →
          ∃ more, frontOf fragments = other ++ more)
      ∧ (ofFragments fragments).bytes = (frontOf fragments ++ refill fragments).toUTF8
      ∧ (refill fragments).utf8ByteSize ≤ 3
      ∧ ((ofFragments fragments).bytes = (frontOf fragments).toUTF8
          ↔ ∀ fragment ∈ afterCut room fragments, ∀ c ∈ fragment.toList.head?,
            leftBy fragments < c.utf8Size) := by
  have hbytes := (Log.ofFragments_bytes fragments).trans (bytes_eq fragments)
  refine ⟨Log.ofFragments_bytes fragments, exists_rest _ room, kept_le room _,
    fun other rest hwhole hfits => exists_append_of_fits hwhole hfits, hbytes,
    refill_le fragments, ?_⟩
  rw [hbytes, ← keptOf_eq_empty_iff, String.toUTF8_eq_toByteArray, String.toUTF8_eq_toByteArray,
    String.toByteArray_inj]
  exact String.append_eq_left_iff

namespace Specimen

/-- A front that leaves two bytes of an entry unused. -/
def narrowFront : String := String.ofList (List.replicate 254 'a')

/-- A message that is cut before a character of four bytes, and goes on. -/
def cutMessage : List String := [narrowFront ++ "😀", "bc"]

theorem frontOf_cutMessage : frontOf cutMessage = narrowFront := by
  have hfront : narrowFront.utf8ByteSize = 254 := by decide +kernel
  have hrest : kept 2 ("😀" ++ String.join ["bc"]) = "" := by decide +kernel
  have hfits : narrowFront.utf8ByteSize ≤ room := by rw [hfront]; decide
  have hleft : room - narrowFront.utf8ByteSize = 2 := by rw [hfront]; decide
  rw [frontOf, cutMessage, String.join_cons, String.append_assoc, kept_append_of_le _ hfits, hleft,
    hrest, String.append_empty]

end Specimen

/-- The character is missing from the entry, and the text after it is there. -/
theorem later_fragments_fill_up_specimen :
    (ofFragments Specimen.cutMessage).bytes = (Specimen.narrowFront ++ "bc").toUTF8
      ∧ (ofFragments Specimen.cutMessage).bytes ≠ Specimen.narrowFront.toUTF8 := by
  obtain ⟨-, -, -, -, hbytes, -, hexact⟩ := later_fragments_fill_up Specimen.cutMessage
  have hlater : afterCut room Specimen.cutMessage = ["bc"] := by decide +kernel
  have hleft : leftBy Specimen.cutMessage = 2 := by
    rw [leftBy, Specimen.frontOf_cutMessage]
    decide +kernel
  rw [refill, hlater, hleft, Specimen.frontOf_cutMessage] at hbytes
  rw [hlater, hleft, Specimen.frontOf_cutMessage] at hexact
  refine ⟨hbytes, fun heq => ?_⟩
  have hwide := hexact.1 heq "bc" List.mem_cons_self 'b' (by decide +kernel)
  exact absurd hwide (by decide)

end Denoise.Entry
