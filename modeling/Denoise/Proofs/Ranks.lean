import Denoise.Bins.Rank
import Denoise.Proofs.Passages

/-!
# Ranks

The total order by bits refines the order of the numbers (`orderKey_lt_of_place`), so a
sorted list of numbers lists their places in ascending order.  There is one such list of
places, whatever the order of the input was, and a percentile is an entry of it
(`placeOf_percentile`).
-/

namespace Denoise

namespace Ranks

open Float.Model UnpackedFloat Rounding Values Singles

/-! ## The total order -/

/-- Numbers of one sign, by their distance from zero.  The negative zero comes before the
other. -/
def sided : Sign → ℤ → ℤ
  | .positive, d => d
  | .negative, d => -d - 1

/-- Where a number lies in the total order. -/
def key : UnpackedFloat → ℤ
  | .notANumber => 0
  | .infinity s => sided s (255 * 2 ^ 23)
  | .zero s => sided s 0
  | .finite s m e _ => sided s (m + (e + 149) * 2 ^ 23)

/-- The bits without the sign. -/
theorem toNat_size (bits : UInt32) : (bits &&& 0x7fffffff).toNat = bits.toNat % 2 ^ 31 := by
  rw [UInt32.toNat_and]
  exact Nat.and_two_pow_sub_one_eq_mod _ 31

theorem toNat_size_eq (bits : UInt32) : (bits &&& 0x7fffffff).toNat
    = (@unpackExponent .binary32 bits.toBitVec).toNat * 2 ^ 23
      + (@unpackMantissa .binary32 bits.toBitVec).toNat := by
  rw [toNat_size, Bits.toNat_unpackExponent, Bits.toNat_unpackMantissa]
  show bits.toNat % 2 ^ 31 = bits.toNat / 2 ^ 23 % 2 ^ 8 * 2 ^ 23 + bits.toNat % 2 ^ 23
  omega

theorem orderKey_eq_sided (a : Float32) :
    orderKey a = sided (.ofBitVec (@unpackSign .binary32 a.toBits.toBitVec))
      (a.toBits &&& 0x7fffffff).toNat := by
  rw [orderKey, ← Widening.sign_eq]
  by_cases hsign : a.toBits >>> 31 = 0
  · have hlow : a.toBits.toNat / 2 ^ 31 = 0 := by
      have := congrArg UInt32.toNat hsign
      rw [UInt32.toNat_shiftRight, Nat.shiftRight_eq_div_pow] at this
      exact this
    have hsize := toNat_size a.toBits
    simp only [if_pos hsign, sided]
    omega
  · simp only [if_neg hsign, sided]

theorem orderKey_eq {a : Float32} (ha : a.isNaN = false) : orderKey a = key a.toModel.unpack := by
  have hkind := @Bits.unpacks .binary32 a.toModel.toBits.toBitVec
  change @Bits.Unpacks .binary32 a.toBits.toBitVec a.toModel.unpack at hkind
  change a.toModel.unpack.isNaN = false at ha
  rw [orderKey_eq_sided, toNat_size_eq]
  generalize a.toModel.unpack = u at *
  cases hkind with
  | notANumber => cases ha
  | infinity hs hexp hm =>
    rw [key, ← hs, hexp, hm]
    rfl
  | zero hs hexp hm =>
    rw [key, ← hs, hexp, hm]
    rfl
  | subnormal pos hs hexp hm he =>
    have hleast : (1 - (Format.binary32.exponentBias
        + Format.binary32.mantissaBitsWithoutImplicit : ℕ) : ℤ) = -149 := rfl
    rw [key, ← hs, hexp, ← hm, he, hleast]
    simp
  | normal pos hs hall hnone hm he =>
    have hbias : ((Format.binary32.exponentBias
        + Format.binary32.mantissaBitsWithoutImplicit : ℕ) : ℤ) = 150 := rfl
    have hdigits : 2 ^ Format.binary32.mantissaBitsWithoutImplicit = 2 ^ 23 := rfl
    rw [key, ← hs, hm, he, hbias, hdigits]
    congr 1
    push_cast
    ring

/-- How far from zero a stored number lies. -/
theorem finite_key_bounds {s : Sign} {m : ℕ} {e : ℤ} {pos : 0 < m}
    (h : Fits .binary32 (.finite s m e pos)) :
    0 < (m : ℤ) + (e + 149) * 2 ^ 23 ∧ (m : ℤ) + (e + 149) * 2 ^ 23 < 255 * 2 ^ 23 := by
  have hlt : m < 2 ^ 24 := h.1.lt
  have hleast : -149 ≤ e := h.1.least
  have hgreatest : e + 24 ≤ 128 := h.2
  have hfull : 2 ^ 23 ≤ m ∨ e = -149 := h.1.full
  omega

/-- Of two stored numbers of one sign, the one with the greater exponent, or of the same
exponent with the greater significand, is further from zero. -/
theorem finite_key_lt {s t : Sign} {m n : ℕ} {e f : ℤ} {hm : 0 < m} {hn : 0 < n}
    (hu : Fits .binary32 (.finite s m e hm)) (hw : Fits .binary32 (.finite t n f hn))
    (h : e < f ∨ e = f ∧ m < n) :
    (m : ℤ) + (e + 149) * 2 ^ 23 < n + (f + 149) * 2 ^ 23 := by
  have hlt : m < 2 ^ 24 := hu.1.lt
  have hleast : -149 ≤ e := hu.1.least
  have hfull : 2 ^ 23 ≤ n ∨ f = -149 := hw.1.full
  omega

theorem key_lt {u w : UnpackedFloat} (hu : u.isFinite = true → Fits .binary32 u)
    (hw : w.isFinite = true → Fits .binary32 w) (hnu : u.isNaN = false) (hnw : w.isNaN = false)
    (h : place u < place w) : key u < key w := by
  cases u with
  | notANumber => cases hnu
  | infinity s =>
    cases w with
    | notANumber => cases hnw
    | infinity t => cases s <;> cases t <;> simp [place, key, sided, Prod.Lex.toLex_lt_toLex] at h ⊢
    | zero t => cases s <;> cases t <;> simp [place, key, sided, Prod.Lex.toLex_lt_toLex] at h ⊢
    | finite t n f hn =>
      have := finite_key_bounds (hw rfl)
      cases s <;> cases t <;>
        simp only [place, key, sided, Prod.Lex.toLex_lt_toLex] at h ⊢ <;> omega
  | zero s =>
    cases w with
    | notANumber => cases hnw
    | infinity t => cases s <;> cases t <;> simp [place, key, sided, Prod.Lex.toLex_lt_toLex] at h ⊢
    | zero t => exact absurd h (lt_irrefl _)
    | finite t n f hn =>
      have := finite_key_bounds (hw rfl)
      cases s <;> cases t <;>
        simp only [place, key, sided, Prod.Lex.toLex_lt_toLex] at h ⊢ <;> omega
  | finite s m e hm =>
    have hs := finite_key_bounds (hu rfl)
    cases w with
    | notANumber => cases hnw
    | infinity t =>
      cases s <;> cases t <;>
        simp only [place, key, sided, Prod.Lex.toLex_lt_toLex] at h ⊢ <;> omega
    | zero t =>
      cases s <;> cases t <;>
        simp only [place, key, sided, Prod.Lex.toLex_lt_toLex] at h ⊢ <;> omega
    | finite t n f hn =>
      have ht := finite_key_bounds (hw rfl)
      cases s with
      | positive =>
        cases t with
        | positive =>
          simp only [place, Prod.Lex.toLex_lt_toLex, lt_irrefl, true_and, false_or,
            Int.ofNat_lt] at h
          exact finite_key_lt (hu rfl) (hw rfl) h
        | negative => simp [place, Prod.Lex.toLex_lt_toLex] at h
      | negative =>
        cases t with
        | positive =>
          simp only [key, sided]
          omega
        | negative =>
          simp only [place, Prod.Lex.toLex_lt_toLex, lt_irrefl, true_and, false_or,
            neg_lt_neg_iff, Int.neg_inj, Int.ofNat_lt] at h
          have := finite_key_lt (hw rfl) (hu rfl) (h.imp id fun h => ⟨h.1.symm, h.2⟩)
          simp only [key, sided]
          omega

theorem orderKey_lt_of_place {a b : Float32} (ha : a.isNaN = false) (hb : b.isNaN = false)
    (h : placeOf a < placeOf b) : orderKey a < orderKey b := by
  rw [orderKey_eq ha, orderKey_eq hb]
  exact key_lt fits fits ha hb h

theorem beq_iff_place {a b : Float32} (ha : a.isNaN = false) (hb : b.isNaN = false) :
    (a == b) = true ↔ placeOf a = placeOf b := by
  show (a.toModel.unpack.compare b.toModel.unpack == some .eq) = true ↔ _
  rw [compare_eq ha hb, beq_iff_eq, Option.some_inj, compare_eq_iff_eq]
  rfl

/-! ## Sorted numbers -/

variable {xs ys : List Float32}

theorem perm_sorted (xs : List Float32) : (sorted xs).Perm xs := List.mergeSort_perm _ _

theorem pairwise_sorted (xs : List Float32) :
    (sorted xs).Pairwise fun x y => orderKey x ≤ orderKey y := by
  have hsorted : (sorted xs).Pairwise fun x y => decide (orderKey x ≤ orderKey y) = true := by
    refine List.pairwise_mergeSort (fun x y z hxy hyz => ?_) (fun x y => ?_) xs
    · exact decide_eq_true ((of_decide_eq_true hxy).trans (of_decide_eq_true hyz))
    · rw [Bool.or_eq_true, decide_eq_true_eq, decide_eq_true_eq]
      exact le_total _ _
  exact hsorted.imp of_decide_eq_true

/-- Sorted by bits, numbers are sorted by their places. -/
theorem pairwise_places (h : ∀ x ∈ xs, x.isNaN = false) :
    ((sorted xs).map placeOf).Pairwise (· ≤ ·) := by
  rw [List.pairwise_map]
  refine (pairwise_sorted xs).imp_of_mem fun hx hy hkey => not_lt.1 fun hlt => ?_
  exact (orderKey_lt_of_place (h _ ((perm_sorted xs).mem_iff.1 hy))
    (h _ ((perm_sorted xs).mem_iff.1 hx)) hlt).not_ge hkey

/-- The places of some numbers, in ascending order. -/
theorem places_sorted (h : ∀ x ∈ xs, x.isNaN = false) :
    (sorted xs).map placeOf = (xs.map placeOf).insertionSort (· ≤ ·) :=
  (((perm_sorted xs).map placeOf).trans (List.perm_insertionSort _ _).symm).eq_of_pairwise'
    (pairwise_places h) (List.pairwise_insertionSort _ _)

/-! ## Percentiles -/

/-- The rank of a percentile in a list of some length. -/
def rank (length : ℕ) (fraction : Float32) : ℕ :=
  min (nearestWhole (ofCount (length - 1) * clamp 0 1 fraction)) (length - 1)

theorem rank_lt {length : ℕ} (h : 0 < length) (fraction : Float32) :
    rank length fraction < length := by
  rw [rank]
  omega

theorem getElem?_percentile (h : xs ≠ []) (fraction : Float32) :
    (sorted xs)[rank xs.length fraction]? = some (percentile (sorted xs) fraction) := by
  have hlength : (sorted xs).length = xs.length := (perm_sorted xs).length_eq
  have hrank : rank xs.length fraction < (sorted xs).length :=
    (rank_lt (List.length_pos_iff.2 h) fraction).trans_eq hlength.symm
  have hentry : percentile (sorted xs) fraction = (sorted xs).getD (rank xs.length fraction) 0 := by
    rw [percentile, hlength, rank]
  rw [hentry, List.getD_eq_getElem _ _ hrank, List.getElem?_eq_getElem hrank]

/-- A percentile is one of the numbers. -/
theorem percentile_mem (h : xs ≠ []) (fraction : Float32) :
    percentile (sorted xs) fraction ∈ xs :=
  (perm_sorted xs).mem_iff.1 (List.mem_of_getElem? (getElem?_percentile h fraction))

/-- The place of a percentile is an entry of the sorted places. -/
theorem placeOf_percentile (h : ∀ x ∈ xs, x.isNaN = false) (hne : xs ≠ []) (fraction : Float32) :
    ((xs.map placeOf).insertionSort (· ≤ ·))[rank xs.length fraction]?
      = some (placeOf (percentile (sorted xs) fraction)) := by
  rw [← places_sorted h, List.getElem?_map, getElem?_percentile hne]
  rfl

/-! ## One number lowered below all others -/

section Lowered

variable {α : Type} [LinearOrder α]

/-- In an ascending list an entry is taken out and another one put in front.  Entries above
the one taken out stay where they were, and the others move up by one. -/
theorem getElem?_cons_of_orderedInsert {low d entry : α} {others : List α} {k : ℕ}
    (hothers : others.Pairwise (· ≤ ·))
    (hentry : (others.orderedInsert (· ≤ ·) d)[k]? = some entry) :
    (low :: others)[k]? = if d < entry then some entry
      else (low :: others.orderedInsert (· ≤ ·) d)[k]? := by
  induction others generalizing low k with
  | nil =>
    cases k with
    | zero =>
      cases hentry
      rw [if_neg (lt_irrefl _)]
      rfl
    | succ k => cases hentry
  | cons first later ih =>
    obtain ⟨hfirst, hlater⟩ := List.pairwise_cons.1 hothers
    rw [List.orderedInsert_cons] at hentry ⊢
    split at hentry
    next hle =>
      rw [if_pos hle]
      cases k with
      | zero =>
        cases hentry
        rw [if_neg (lt_irrefl _)]
        rfl
      | succ k =>
        have hleast : ∀ y ∈ first :: later, d ≤ y :=
          List.forall_mem_cons.2 ⟨hle, fun y hy => hle.trans (hfirst y hy)⟩
        have hsorted : (d :: first :: later).Pairwise (· ≤ ·) :=
          List.pairwise_cons.2 ⟨hleast, hothers⟩
        rw [List.getElem?_cons_succ] at hentry ⊢
        rw [hentry]
        split
        next => rfl
        next hlow =>
          -- everything from `d` up to the entry is equal to both
          obtain ⟨hk, hvalue⟩ := List.getElem?_eq_some_iff.1 hentry
          rw [List.getElem?_cons_succ, List.getElem?_eq_getElem (Nat.lt_succ_of_lt hk)]
          have hbelow := List.pairwise_iff_getElem.1 hsorted k (k + 1) (Nat.lt_succ_of_lt hk)
            (Nat.succ_lt_succ hk) (Nat.lt_succ_self k)
          rw [List.getElem_cons_succ, hvalue] at hbelow
          have habove := List.forall_mem_cons.2 ⟨le_refl d, hleast⟩ _
            (List.getElem_mem (Nat.lt_succ_of_lt hk))
          exact congrArg some (le_antisymm ((not_lt.1 hlow).trans habove) hbelow)
    next hgt =>
      rw [if_neg hgt]
      cases k with
      | zero =>
        cases hentry
        rw [if_neg fun hlt => hgt hlt.le]
        rfl
      | succ k => exact ih hlater hentry

/-- The ascending lists of some entries of which one is lowered below all others. -/
theorem getElem?_insertionSort_lowered {front back : List α} {d low entry : α} {k : ℕ}
    (hleast : ∀ x ∈ front ++ back, low ≤ x)
    (hentry : ((front ++ d :: back).insertionSort (· ≤ ·))[k]? = some entry) :
    ((front ++ low :: back).insertionSort (· ≤ ·))[k]? = if d < entry then some entry
      else (low :: (front ++ d :: back).insertionSort (· ≤ ·))[k]? := by
  have hsorted : ∀ x, (front ++ x :: back).insertionSort (· ≤ ·)
      = ((front ++ back).insertionSort (· ≤ ·)).orderedInsert (· ≤ ·) x := by
    intro x
    rw [← List.insertionSort_cons]
    exact (((List.perm_insertionSort _ _).trans List.perm_middle).trans
      (List.perm_insertionSort _ _).symm).eq_of_pairwise' (List.pairwise_insertionSort _ _)
      (List.pairwise_insertionSort _ _)
  have hfront : ((front ++ back).insertionSort (· ≤ ·)).orderedInsert (· ≤ ·) low
      = low :: (front ++ back).insertionSort (· ≤ ·) := by
    cases hothers : (front ++ back).insertionSort (· ≤ ·) with
    | nil => rfl
    | cons first later =>
      refine List.orderedInsert_cons_of_le _ _ (hleast first ?_)
      rw [← List.mem_insertionSort (· ≤ ·), hothers]
      exact List.mem_cons_self
  rw [hsorted] at hentry ⊢
  rw [hsorted, hfront]
  exact getElem?_cons_of_orderedInsert (List.pairwise_insertionSort _ _) hentry

/-- Moved up by one, every entry is replaced by one that is no greater. -/
theorem le_of_getElem?_cons {low x y : α} {entries : List α} {k : ℕ}
    (hsorted : entries.Pairwise (· ≤ ·)) (hleast : ∀ entry ∈ entries, low ≤ entry)
    (hx : (low :: entries)[k]? = some x) (hy : entries[k]? = some y) : x ≤ y := by
  cases k with
  | zero =>
    cases hx
    exact hleast y (List.mem_of_getElem? hy)
  | succ k =>
    rw [List.getElem?_cons_succ] at hx
    obtain ⟨hk, rfl⟩ := List.getElem?_eq_some_iff.1 hx
    obtain ⟨hk', rfl⟩ := List.getElem?_eq_some_iff.1 hy
    exact List.pairwise_iff_getElem.1 hsorted k (k + 1) hk hk' (Nat.lt_succ_self k)

end Lowered

section Numbers

variable {front back : List Float32} {d low : Float32}
  (hnumbers : ∀ x ∈ front ++ d :: back, x.isNaN = false) (hlow : low.isNaN = false)
  (hleast : ∀ x ∈ front ++ d :: back, placeOf low ≤ placeOf x) (fraction : Float32)

include hnumbers hlow hleast

theorem getElem?_percentile_lowered :
    some (placeOf (percentile (sorted (front ++ low :: back)) fraction))
      = if placeOf d < placeOf (percentile (sorted (front ++ d :: back)) fraction) then
          some (placeOf (percentile (sorted (front ++ d :: back)) fraction))
        else (low :: sorted (front ++ d :: back))[rank (front ++ d :: back).length fraction]?.map
          placeOf := by
  have hnumbers' : ∀ x ∈ front ++ low :: back, x.isNaN = false := by
    simp only [List.forall_mem_append, List.forall_mem_cons] at hnumbers ⊢
    exact ⟨hnumbers.1, hlow, hnumbers.2.2⟩
  have hlength : (front ++ low :: back).length = (front ++ d :: back).length := by
    rw [List.length_append, List.length_append, List.length_cons, List.length_cons]
  have hbefore := placeOf_percentile hnumbers (by simp) fraction
  have hafter := placeOf_percentile hnumbers' (by simp) fraction
  rw [hlength] at hafter
  rw [List.map_append, List.map_cons] at hbefore hafter
  have hplaces : ∀ x ∈ front.map placeOf ++ back.map placeOf, placeOf low ≤ x := by
    rw [← List.map_append]
    refine List.forall_mem_map.2 fun x hx => hleast x ?_
    rcases List.mem_append.1 hx with hfront | hback
    · exact List.mem_append_left _ hfront
    · exact List.mem_append_right _ (List.mem_cons_of_mem _ hback)
  rw [← hafter, getElem?_insertionSort_lowered hplaces hbefore, ← List.map_cons (f := placeOf),
    ← List.map_append, ← places_sorted hnumbers, ← List.map_cons (f := placeOf), List.getElem?_map]

/-- A percentile of numbers of which one is lowered below all others.  It stays if the one
was below it already, and otherwise it goes to the entry before. -/
theorem placeOf_percentile_lowered :
    placeOf (percentile (sorted (front ++ low :: back)) fraction)
      = placeOf (if d < percentile (sorted (front ++ d :: back)) fraction then
          percentile (sorted (front ++ d :: back)) fraction
        else (low :: sorted (front ++ d :: back)).getD
          (rank (front ++ d :: back).length fraction) 0) := by
  have hentry := hnumbers _ (percentile_mem (by simp) fraction)
  have hafter := getElem?_percentile_lowered hnumbers hlow hleast fraction
  split at hafter
  next hbelow =>
    rw [if_pos ((lt_iff_place (hnumbers d (by simp)) hentry).2 hbelow), Option.some_inj.1 hafter]
  next hbelow =>
    obtain ⟨entry, hentry', hplace⟩ := Option.map_eq_some_iff.1 hafter.symm
    rw [if_neg (mt (lt_iff_place (hnumbers d (by simp)) hentry).1 hbelow),
      List.getD_eq_getElem?_getD, hentry']
    exact hplace.symm

/-- A percentile does not rise when one number is lowered. -/
theorem placeOf_percentile_lowered_le :
    placeOf (percentile (sorted (front ++ low :: back)) fraction)
      ≤ placeOf (percentile (sorted (front ++ d :: back)) fraction) := by
  have hafter := getElem?_percentile_lowered hnumbers hlow hleast fraction
  split at hafter
  next => exact (Option.some.inj hafter).le
  next =>
    have hbefore := placeOf_percentile hnumbers (by simp) fraction
    rw [← places_sorted hnumbers] at hbefore
    rw [← List.getElem?_map, List.map_cons] at hafter
    refine le_of_getElem?_cons (pairwise_places hnumbers) ?_ hafter.symm hbefore
    exact List.forall_mem_map.2 fun x hx => hleast x ((perm_sorted _).mem_iff.1 hx)

end Numbers

end Ranks

end Denoise
