import Denoise.Proofs.Decimal.Shortest
import Denoise.Settings.Document

/-!
# Reading the text of a number

A number ends where a character follows that cannot be part of it (`Ends`).  Up to
there its text is read for the digits and the exponent that it was written from, in any
of its forms: a count (`readNumber_digits`), with a point (`readNumber_point`), or with
an exponent (`readNumber_exponent`).
-/

namespace Denoise

namespace Settings

open Decimal (digits)

/-! ## Digits -/

/-- A text of digits only. -/
def AllDigits (ds : List Char) : Prop := ∀ c ∈ ds, c.isDigit = true

/-- A text that no number goes on in. -/
def Ends (rest : List Char) : Prop :=
  ∀ c, rest.head? = some c → c.isDigit = false ∧ c ≠ '.' ∧ c ≠ 'e' ∧ c ≠ 'E'

/-- The number of some digits after others. -/
def valueOf (start : ℕ) (ds : List Char) : ℕ := ds.foldl (fun k c => k * 10 + digitValue c) start

theorem valueOf_append (start : ℕ) (ds ds' : List Char) :
    valueOf start (ds ++ ds') = valueOf (valueOf start ds) ds' := List.foldl_append

theorem allDigits_append {ds ds' : List Char} :
    AllDigits (ds ++ ds') ↔ AllDigits ds ∧ AllDigits ds' := List.forall_mem_append

theorem allDigits_digits (n : ℕ) : AllDigits (digits n) := fun _ hc =>
  Nat.isDigit_of_mem_toDigits (by decide) (by decide) hc

theorem digits_ne_nil (n : ℕ) : digits n ≠ [] := Nat.toDigits_ne_nil

/-- The digits of a number are read as that number. -/
theorem valueOf_digits (n : ℕ) : valueOf 0 (digits n) = n := by
  have hvalue : valueOf 0 (digits n) = Nat.ofDigitChars 10 (digits n) 0 := by
    rw [valueOf, Nat.ofDigitChars]
    congr 1
    funext k c
    rw [mul_comm]
    rfl
  rw [hvalue]
  exact Nat.ofDigitChars_ten_toDigits

theorem valueOf_zeros (l : ℕ) : valueOf 0 (List.replicate l '0') = 0 := by
  induction l with
  | zero => rfl
  | succ l ih => exact ih

/-- Only zero has a zero in front. -/
theorem head?_digits {n : ℕ} (h : (digits n).head? = some '0') : n = 0 := by
  induction n using Nat.strong_induction_on with
  | _ n ih =>
    rw [digits, Nat.toDigits_eq_if (by decide)] at h
    split at h
    next hlt =>
      have hdigit : ∀ n < 10, [n.digitChar].head? = some '0' → n = 0 := by decide
      exact hdigit n hlt h
    next hge =>
      have hne : Nat.toDigits 10 (n / 10) ≠ [] := Nat.toDigits_ne_nil
      rw [List.head?_append_of_ne_nil _ hne] at h
      have := ih (n / 10) (by omega) h
      omega

theorem le_valueOf (start : ℕ) (ds : List Char) : start ≤ valueOf start ds := by
  induction ds generalizing start with
  | nil => exact le_rfl
  | cons c ds ih => exact le_trans (by omega) (ih (start * 10 + digitValue c))

/-- All digits of a number that fits a word are taken. -/
theorem accumulate_eq {start : ℕ} {ds : List Char} (h : valueOf start ds < 2 ^ 64) :
    accumulate start ds = (valueOf start ds, []) := by
  induction ds generalizing start with
  | nil => rfl
  | cons c ds ih =>
    have hle : start * 10 + digitValue c ≤ valueOf start (c :: ds) := le_valueOf _ ds
    have hfits : start * 10 + digitValue c < 0x10000000000000000 := lt_of_le_of_lt hle h
    rw [accumulate, if_pos hfits]
    exact ih h

theorem spanDigits_append {ds rest : List Char} (hds : AllDigits ds)
    (hrest : ∀ c, rest.head? = some c → c.isDigit = false) :
    spanDigits (ds ++ rest) = (ds, rest) := by
  have htake : rest.takeWhile Char.isDigit = [] := by
    cases rest with
    | nil => rfl
    | cons c rest => rw [List.takeWhile_cons, hrest c rfl]; rfl
  have hdrop : rest.dropWhile Char.isDigit = rest := by
    cases rest with
    | nil => rfl
    | cons c rest => rw [List.dropWhile_cons, hrest c rfl]; rfl
  rw [spanDigits, List.takeWhile_append_of_pos hds, List.dropWhile_append_of_pos hds, htake, hdrop,
    List.append_nil]

/-! ## Forms of a number -/

section Forms

variable {ds fs rest text : List Char} {negative : Bool} {k : ℤ}

/-- A number is read up to where its digits end, and then its tail is. -/
theorem readNumber_eq (hds : AllDigits ds) (hne : ds ≠ [])
    (hhead : ds.head? = some '0' → ds.length = 1) (hlt : valueOf 0 ds < 2 ^ 64)
    (hrest : ∀ c, rest.head? = some c → c.isDigit = false) :
    readNumber negative (ds ++ rest) = readTail negative (valueOf 0 ds) 0 rest := by
  obtain ⟨c, ds, rfl⟩ := List.exists_cons_of_ne_nil hne
  have hzero : ¬((c :: ds).head? = some '0' ∧ 1 < (c :: ds).length) := fun h =>
    h.2.ne' (hhead h.1)
  rw [readNumber, spanDigits_append hds hrest]
  show (if _ then _ else _) = _
  rw [if_neg hzero, accumulate_eq hlt]
  rfl

/-- A tail that is neither a fraction nor an exponent. -/
theorem readTail_of_ends {n : ℕ} (hrest : Ends rest) :
    readTail false n 0 rest = .ok (.natural n, rest) := by
  have hexponent : ¬(rest.head? = some 'e' ∨ rest.head? = some 'E' ∨ 0 < 0) := by
    rintro (h | h | h)
    · exact (hrest _ h).2.2.1 rfl
    · exact (hrest _ h).2.2.2 rfl
    · exact lt_irrefl _ h
  rw [readTail.eq_def]
  split
  next => exact absurd rfl (hrest '.' rfl).2.1
  next =>
    rw [if_neg hexponent]
    rfl

theorem readNumber_digits (hds : AllDigits ds) (hne : ds ≠ [])
    (hhead : ds.head? = some '0' → ds.length = 1) (hlt : valueOf 0 ds < 2 ^ 64) (hrest : Ends rest) :
    readNumber false (ds ++ rest) = .ok (.natural (valueOf 0 ds), rest) := by
  rw [readNumber_eq hds hne hhead hlt fun c hc => (hrest c hc).1, readTail_of_ends hrest]

/-- A number with a point, and perhaps an exponent. -/
theorem readNumber_point (hds : AllDigits ds) (hne : ds ≠ [])
    (hhead : ds.head? = some '0' → ds.length = 1) (hfs : AllDigits fs) (hne' : fs ≠ [])
    (hlt : valueOf 0 (ds ++ fs) < 2 ^ 64) (htext : ∀ c, text.head? = some c → c.isDigit = false)
    (hexponent : readExponentPart text = .ok (k, rest)) :
    readNumber negative (ds ++ '.' :: (fs ++ text))
      = toReal negative (valueOf 0 (ds ++ fs)) (k - fs.length) >>= fun x => .ok (x, rest) := by
  rw [valueOf_append] at hlt ⊢
  have hle : valueOf 0 ds ≤ valueOf (valueOf 0 ds) fs := le_valueOf _ fs
  rw [readNumber_eq hds hne hhead (lt_of_le_of_lt hle hlt) (by rintro c ⟨⟩; rfl)]
  obtain ⟨c, fs, rfl⟩ := List.exists_cons_of_ne_nil hne'
  rw [readTail, spanDigits_append hfs htext]
  show (readExponentPart text >>= fun r => toReal negative (accumulate (valueOf 0 ds) (c :: fs)).1
    (_ - (((c :: fs).length - (accumulate (valueOf 0 ds) (c :: fs)).2.length : ℕ) : ℤ) + r.1)
      >>= fun x => .ok (x, r.2)) = _
  rw [accumulate_eq hlt, hexponent]
  show toReal negative _ (0 - ((c :: fs).length : ℤ) + k) >>= _ = _
  rw [(by omega : 0 - ((c :: fs).length : ℤ) + k = k - (c :: fs).length)]

/-- A number with an exponent and no point. -/
theorem readNumber_exponent (hds : AllDigits ds) (hne : ds ≠ [])
    (hhead : ds.head? = some '0' → ds.length = 1) (hlt : valueOf 0 ds < 2 ^ 64)
    (htext : text.head? = some 'e') (hexponent : readExponentPart text = .ok (k, rest)) :
    readNumber negative (ds ++ text)
      = toReal negative (valueOf 0 ds) k >>= fun x => .ok (x, rest) := by
  obtain ⟨text, rfl⟩ : ∃ text', text = 'e' :: text' := by
    cases text with
    | nil => cases htext
    | cons c text => exact ⟨text, by rw [Option.some.inj htext]⟩
  rw [readNumber_eq hds hne hhead hlt (by rintro c ⟨⟩; rfl), readTail.eq_def]
  show (if _ then _ else _) = _
  rw [if_pos (.inl rfl), hexponent]
  show toReal negative _ _ >>= _ = _
  rw [Int.ofNat_zero, zero_add]

/-! ## Exponents -/

theorem readExponentPart_of_ends (hrest : Ends rest) : readExponentPart rest = .ok (0, rest) := by
  rw [readExponentPart.eq_def]
  split
  next => exact absurd rfl (hrest 'e' rfl).2.2.1
  next => exact absurd rfl (hrest 'E' rfl).2.2.2
  next => rfl

/-- An exponent is read as it was written. -/
theorem readExponentPart_exponentText (k : ℤ) (hrest : Ends rest) :
    readExponentPart (Decimal.exponentText true k ++ rest) = .ok (k, rest) := by
  have hspan : spanDigits (digits k.natAbs ++ rest) = (digits k.natAbs, rest) :=
    spanDigits_append (allDigits_digits _) fun c hc => (hrest c hc).1
  have hvalue : (digits k.natAbs).foldl (fun (k : ℕ) c => k * 10 + digitValue c) 0 = k.natAbs :=
    valueOf_digits _
  obtain ⟨c, ds, hds⟩ := List.exists_cons_of_ne_nil (digits_ne_nil k.natAbs)
  rw [hds] at hspan hvalue
  rw [Decimal.exponentText, hds]
  rcases lt_or_ge k 0 with hneg | hnonneg
  · rw [if_pos hneg]
    show readExponent ('-' :: (c :: ds ++ rest)) = _
    rw [readExponent.eq_def]
    simp only [hspan, hvalue, if_true]
    rw [(by omega : -(k.natAbs : ℤ) = k)]
  · rw [if_neg (not_lt.2 hnonneg)]
    show readExponent ('+' :: (c :: ds ++ rest)) = _
    rw [readExponent.eq_def]
    simp only [hspan, hvalue, Bool.false_eq_true, if_false]
    rw [(by omega : (k.natAbs : ℤ) = k)]

end Forms

/-! ## Texts of decimals -/

/-- A text that is read as `n · 10^k`. -/
def Writes (text : List Char) (n : ℕ) (k : ℤ) : Prop :=
  ∀ negative rest, Ends rest →
    readNumber negative (text ++ rest) = toReal negative n k >>= fun x => .ok (x, rest)

variable {n : ℕ} {k : ℤ}

/-- Only the number zero starts with the digit. -/
theorem length_of_head?_digits (h : (digits n).head? = some '0') : (digits n).length = 1 := by
  rw [head?_digits h]
  rfl

/-- The digits of a number with zeros in front. -/
theorem padded_spec (n l : ℕ) :
    AllDigits (List.replicate l '0' ++ digits n)
      ∧ valueOf 0 (List.replicate l '0' ++ digits n) = n := by
  refine ⟨allDigits_append.2 ⟨fun c hc => ?_, allDigits_digits n⟩, ?_⟩
  · rw [List.eq_of_mem_replicate hc]
    rfl
  · rw [valueOf_append, valueOf_zeros, valueOf_digits]

/-- The two sides of the point in a text with places. -/
structure Sides (whole fraction : List Char) (n : ℕ) : Prop where
  digits : AllDigits (whole ++ fraction)
  value : valueOf 0 (whole ++ fraction) = n
  nonempty : whole ≠ []
  head : whole.head? = some '0' → whole.length = 1

/-- A decimal with places is written with a point, and as many digits behind it. -/
theorem exists_sides (n : ℕ) {places : ℕ} (hplaces : 0 < places) :
    ∃ whole fraction, Decimal.pointed n places = whole ++ '.' :: fraction
      ∧ fraction.length = places ∧ Sides whole fraction n := by
  obtain ⟨hall, hvalue⟩ := padded_spec n (places + 1 - (digits n).length)
  have hlength : (List.replicate (places + 1 - (digits n).length) '0' ++ digits n).length
      = places + 1 - (digits n).length + (digits n).length := by
    rw [List.length_append, List.length_replicate]
  have hhead : places + 1 < (digits n).length →
      (List.replicate (places + 1 - (digits n).length) '0' ++ digits n).head? ≠ some '0' := by
    intro hlong hzero
    rw [Nat.sub_eq_zero_of_le hlong.le, List.replicate_zero, List.nil_append] at hzero
    have := length_of_head?_digits hzero
    omega
  have htext : Decimal.pointed n places = _ := if_neg hplaces.ne'
  generalize List.replicate (places + 1 - (digits n).length) '0' ++ digits n = padded at *
  have hsplit := List.take_append_drop (padded.length - places) padded
  have htake : (padded.take (padded.length - places)).length = padded.length - places :=
    List.length_take_of_le (Nat.sub_le _ _)
  refine ⟨_, _, htext, by rw [List.length_drop]; omega, by rwa [hsplit], by rwa [hsplit], ?_, ?_⟩
  · rw [← List.length_pos_iff]
    omega
  · intro hzero
    by_contra hlong
    refine hhead (by omega) ?_
    rwa [← hsplit, List.head?_append_of_ne_nil _ (List.length_pos_iff.1 (by omega))]

/-- It is read as the number over the power of ten of its places. -/
theorem writes_pointed {places : ℕ} (hn : n < 2 ^ 64) (hplaces : 0 < places) :
    Writes (Decimal.pointed n places) n (-places) := by
  intro negative rest hrest
  obtain ⟨whole, fraction, htext, hlength, hsides⟩ := exists_sides n hplaces
  have hall := allDigits_append.1 hsides.digits
  rw [htext, List.append_assoc, List.cons_append,
    readNumber_point hall.1 hsides.nonempty hsides.head hall.2
      (List.length_pos_iff.1 (hlength.symm ▸ hplaces)) (hsides.value.symm ▸ hn)
      (fun c hc => (hrest c hc).1) (readExponentPart_of_ends hrest),
    hsides.value, hlength, zero_sub]

/-- A whole number is written with a zero after the point. -/
theorem writes_whole (hn : 10 * n < 2 ^ 64) : Writes (digits n ++ ".0".toList) (10 * n) (-1) := by
  intro negative rest hrest
  have hvalue : valueOf 0 (digits n ++ ['0']) = 10 * n := by
    rw [valueOf_append, valueOf_digits]
    exact mul_comm n 10
  rw [List.append_assoc]
  show readNumber negative (digits n ++ '.' :: (['0'] ++ rest)) = _
  rw [readNumber_point (allDigits_digits n) (digits_ne_nil n) length_of_head?_digits
    (by rintro c (_ | _); rfl; contradiction) (List.cons_ne_nil _ _) (hvalue.symm ▸ hn)
    (fun c hc => (hrest c hc).1) (readExponentPart_of_ends hrest), hvalue]
  rfl

/-- A number in normal form is read with its exponent. -/
theorem writes_normalised (hn : n < 2 ^ 64) : Writes (Decimal.normalised n k) n k := by
  intro negative rest hrest
  have hall := allDigits_digits n
  have hhead := @length_of_head?_digits n
  have hvalue := valueOf_digits n
  obtain ⟨c, ds, hds⟩ := List.exists_cons_of_ne_nil (digits_ne_nil n)
  rw [Decimal.normalised, hds]
  rw [hds] at hall hhead hvalue
  cases ds with
  | nil =>
    show readNumber negative ([c] ++ Decimal.exponentText true (k + 1 - 1) ++ rest) = _
    rw [List.append_assoc,
      readNumber_exponent hall (List.cons_ne_nil _ _) hhead (hvalue.symm ▸ hn) rfl
        (readExponentPart_exponentText _ hrest),
      hvalue, add_sub_cancel_right]
  | cons d ds =>
    have hsides : AllDigits ([c] ++ d :: ds) := hall
    obtain ⟨hwhole, hfraction⟩ := allDigits_append.1 hsides
    have hvalue' : valueOf 0 ([c] ++ d :: ds) = n := hvalue
    have hsigned : k + (c :: d :: ds).length - 1 - (d :: ds).length = k := by
      simp only [List.length_cons]
      omega
    show readNumber negative ([c] ++ '.' :: (d :: ds ++ Decimal.exponentText true _ ++ rest)) = _
    rw [List.append_assoc (d :: ds),
      readNumber_point hwhole (List.cons_ne_nil _ _) (fun _ => rfl) hfraction (List.cons_ne_nil _ _)
        (hvalue'.symm ▸ hn) (by rintro c ⟨⟩; rfl) (readExponentPart_exponentText _ hrest),
      hvalue', hsigned]

end Settings

end Denoise
