import Denoise.Log.Entry

/-!
# What an entry holds

`Entry.append` keeps the longest front of a fragment that there is room for (`le_fitting`).  By the
bytes that is a cut at the last boundary of characters which is no farther than the room
(`append_bytes`).  So the bytes of an entry never split a character, and there are never too many
of them (`Sound`).
-/

namespace Denoise.Entry

/-! ## Characters -/

theorem utf8ByteSize_cons (c : Char) (text : List Char) :
    (String.ofList (c :: text)).utf8ByteSize
      = c.utf8Size + (String.ofList text).utf8ByteSize := by
  rw [String.ofList_cons, String.utf8ByteSize_append, String.utf8ByteSize_singleton]

theorem fitting_prefix (room : Nat) (text : List Char) : fitting room text <+: text := by
  induction text generalizing room with
  | nil => exact List.prefix_refl []
  | cons c text ih =>
    rw [fitting]
    split
    · exact List.prefix_cons_inj c |>.2 (ih _)
    · exact List.nil_prefix

theorem fitting_le (room : Nat) (text : List Char) :
    (String.ofList (fitting room text)).utf8ByteSize ≤ room := by
  induction text generalizing room with
  | nil => exact Nat.zero_le _
  | cons c text ih =>
    rw [fitting]
    split
    next hfits =>
      have := ih (room - c.utf8Size)
      rw [utf8ByteSize_cons]
      omega
    next => exact Nat.zero_le _

/-- No longer front fits. -/
theorem le_fitting {room : Nat} {front text : List Char} (hfront : front <+: text)
    (hfits : (String.ofList front).utf8ByteSize ≤ room) :
    (String.ofList front).utf8ByteSize ≤ (String.ofList (fitting room text)).utf8ByteSize := by
  induction text generalizing room front with
  | nil =>
    rw [List.prefix_nil.1 hfront]
    exact Nat.zero_le _
  | cons c text ih =>
    cases front with
    | nil => exact Nat.zero_le _
    | cons d front =>
      obtain ⟨rfl, hrest⟩ := List.cons_prefix_cons.1 hfront
      rw [utf8ByteSize_cons] at hfits ⊢
      have hle := ih hrest (Nat.le_sub_of_add_le' hfits)
      rw [fitting, if_pos (by omega), utf8ByteSize_cons]
      omega

/-! ## Bytes -/

theorem boundary_le (fragment : String) (place : Nat) : boundary fragment place ≤ place := by
  induction place with
  | zero => exact Nat.le_refl 0
  | succ place ih =>
    rw [boundary]
    split
    · exact Nat.le_refl _
    · exact Nat.le_succ_of_le ih

theorem isValid_boundary (fragment : String) (place : Nat) :
    (⟨boundary fragment place⟩ : String.Pos.Raw).IsValid fragment := by
  induction place with
  | zero => exact String.Pos.Raw.isValid_zero
  | succ place ih =>
    rw [boundary]
    split
    next hvalid => exact String.Pos.Raw.isValid_eq_true_iff.1 hvalid
    next => exact ih

/-- It is the last one. -/
theorem le_boundary {fragment : String} {p place : Nat}
    (hvalid : (⟨p⟩ : String.Pos.Raw).IsValid fragment) (hle : p ≤ place) :
    p ≤ boundary fragment place := by
  induction place with
  | zero => exact hle
  | succ place ih =>
    rw [boundary]
    split
    next => exact hle
    next hinvalid =>
      refine ih (Nat.le_of_lt_succ (Nat.lt_of_le_of_ne hle ?_))
      rintro rfl
      exact hinvalid (String.Pos.Raw.isValid_eq_true_iff.2 hvalid)

/-- A fragment is what fits of it, and a rest. -/
theorem exists_rest (fragment : String) (room : Nat) :
    ∃ rest, fragment = String.ofList (fitting room fragment.toList) ++ rest := by
  obtain ⟨rest, hrest⟩ := fitting_prefix room fragment.toList
  exact ⟨String.ofList rest, by rw [← String.ofList_append, hrest, String.ofList_toList]⟩

/-- The cut is after the characters that fit. -/
theorem boundary_eq (fragment : String) (room : Nat) :
    boundary fragment (min fragment.utf8ByteSize room)
      = (String.ofList (fitting room fragment.toList)).utf8ByteSize := by
  refine Nat.le_antisymm ?_ (le_boundary ?_ (Nat.le_min.2 ⟨?_, fitting_le _ _⟩))
  · have hle := boundary_le fragment (min fragment.utf8ByteSize room)
    have hvalid := isValid_boundary fragment (min fragment.utf8ByteSize room)
    obtain ⟨count, hcount⟩ := String.Pos.Raw.isValid_iff_exists_take_toList.1 hvalid
    generalize boundary fragment (min fragment.utf8ByteSize room) = cut at *
    change cut = _ at hcount
    subst hcount
    exact le_fitting (List.take_prefix _ _) (Nat.le_trans hle (Nat.min_le_right _ _))
  · obtain ⟨rest, hfragment⟩ := exists_rest fragment room
    exact String.Pos.Raw.isValid_iff_exists_append.2 ⟨_, _, hfragment, rfl⟩
  · obtain ⟨rest, hfragment⟩ := exists_rest fragment room
    have hsize := congrArg String.utf8ByteSize hfragment
    rw [String.utf8ByteSize_append] at hsize
    omega

/-- What is cut off a fragment at a boundary is what fits of it. -/
theorem extract_boundary (fragment : String) (room : Nat) :
    fragment.toUTF8.extract 0 (boundary fragment (min fragment.utf8ByteSize room))
      = (String.ofList (fitting room fragment.toList)).toUTF8 := by
  obtain ⟨rest, hfragment⟩ := exists_rest fragment room
  have hbytes := congrArg String.toByteArray hfragment
  rw [String.toByteArray_append] at hbytes
  rw [boundary_eq, String.toUTF8_eq_toByteArray, String.toUTF8_eq_toByteArray, hbytes]
  exact ByteArray.extract_append_eq_left String.size_toByteArray.symm

/-- An entry keeps of a fragment what its bytes have room for. -/
theorem append_bytes (e : Entry) (fragment : String) :
    (e.append fragment).bytes = writeBytes e.bytes fragment := by
  show _ = e.bytes ++ fragment.toUTF8.extract 0 (boundary fragment _)
  rw [extract_boundary]
  rfl

/-! ## Sound entries -/

/-- The bytes of an entry fit into a slot and encode a text. -/
structure Sound (e : Entry) : Prop where
  within : e.bytes.size ≤ room
  valid : e.bytes.IsValidUTF8

theorem sound_blank : blank.Sound := ⟨Nat.zero_le _, ByteArray.isValidUTF8_empty⟩

theorem Sound.append {e : Entry} (h : e.Sound) (fragment : String) : (e.append fragment).Sound where
  within := by
    have := h.within
    have hle := boundary_le fragment (min fragment.utf8ByteSize (room - e.bytes.size))
    rw [append_bytes, writeBytes, ByteArray.size_append, ByteArray.size_extract]
    omega
  valid := by
    rw [append_bytes, writeBytes]
    exact h.valid.append (isValid_boundary fragment _).isValidUTF8_extract_zero

theorem sound_ofFragments (fragments : List String) : (ofFragments fragments).Sound := by
  have hfold : ∀ e : Entry, e.Sound → (fragments.foldl append e).Sound := by
    induction fragments with
    | nil => exact fun e h => h
    | cons fragment fragments ih => exact fun e h => ih _ (h.append fragment)
  exact hfold blank sound_blank

/-- The text of a sound entry is what its bytes encode. -/
theorem Sound.text {e : Entry} (h : e.Sound) : String.fromUTF8? e.bytes = some e.text := by
  rw [Entry.text, String.fromUTF8?, dif_pos h.valid, Option.getD_some]

end Denoise.Entry
