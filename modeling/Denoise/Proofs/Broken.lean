import Denoise.Proofs.Threshold

/-!
# A bin with undefined magnitudes

An entry of a history that is not finite leaves its bin without a mean, so the bin is not
trusted.  But its variance is undefined and counts as zero, and so the bin takes the lowest
rank among the deviations.  The entry of the ranking that the threshold is a margin over moves
to the one below, unless the bin was below it already
(`ProfileRules.trust_beside_broken_bin`).  So the threshold may fall, and healthy bins lose
trust on account of a broken one.
-/

namespace Denoise

namespace ProfileRules

open Singles

/-! ## One bin replaced -/

/-- A history in which the magnitudes of one bin are others. -/
def withBin (b : ℕ) (xs : List Float32) (history : List (List Float32)) : List (List Float32) :=
  List.zipWith (fun row x => row.set b x) history xs

variable {n b : ℕ} {xs : List Float32} {history : List (List Float32)}

theorem length_of_mem_withBin (hrows : ∀ row ∈ history, row.length = n) :
    ∀ row ∈ withBin b xs history, row.length = n := by
  intro row hrow
  rw [withBin, ← List.map_uncurry_zip_eq_zipWith] at hrow
  obtain ⟨⟨before, x⟩, hmem, rfl⟩ := List.mem_map.1 hrow
  exact List.length_set.trans (hrows before (List.of_mem_zip hmem).1)

theorem column_withBin_self (hrows : ∀ row ∈ history, row.length = n) (hb : b < n)
    (hxs : xs.length = history.length) : column (withBin b xs history) b = xs := by
  induction history generalizing xs with
  | nil => exact (List.length_eq_zero_iff.1 hxs).symm
  | cons row history ih =>
    obtain ⟨x, xs, rfl⟩ := List.exists_cons_of_length_eq_add_one hxs
    obtain ⟨hrow, hrows⟩ := List.forall_mem_cons.1 hrows
    have hentry : (row.set b x).getD b 0 = x := by
      rw [List.getD_eq_getElem _ _ (by rwa [List.length_set, hrow]), List.getElem_set_self]
    exact congrArg₂ List.cons hentry (ih hrows (Nat.succ.inj hxs))

/-- Every other bin has the magnitudes it had. -/
theorem column_withBin_of_ne (hxs : xs.length = history.length) {i : ℕ} (hi : i ≠ b) :
    column (withBin b xs history) i = column history i := by
  induction history generalizing xs with
  | nil => rw [List.length_eq_zero_iff.1 hxs]; rfl
  | cons row history ih =>
    obtain ⟨x, xs, rfl⟩ := List.exists_cons_of_length_eq_add_one hxs
    have hentry : (row.set b x).getD i 0 = row.getD i 0 := by
      rw [List.getD_eq_getElem?_getD, List.getElem?_set_ne hi.symm, List.getD_eq_getElem?_getD]
    exact congrArg₂ List.cons hentry (ih (Nat.succ.inj hxs))

theorem binOf_withBin_of_ne (hxs : xs.length = history.length) {i : ℕ} (hi : i ≠ b) :
    binOf (withBin b xs history) i = binOf history i := by
  rw [binOf, column_withBin_of_ne hxs hi, binOf]

/-- A bin with a magnitude that is not finite has no finite mean, and ranks with a
deviation of zero. -/
theorem binOf_withBin_self (hrows : ∀ row ∈ history, row.length = n) (hb : b < n)
    (hxs : xs.length = history.length) (hbroken : ∃ x ∈ xs, x.isFinite = false) :
    (binOf (withBin b xs history) b).mean.isFinite = false
      ∧ (binOf (withBin b xs history) b).deviation = 0 := by
  rw [binOf, column_withBin_self hrows hb hxs]
  exact spreadOf_broken hbroken

/-! ## The deviations around a bin -/

section Lowered

variable {f g : ℕ → Spread}

/-- A bin outside the centre has one place among the deviations, and the others keep
theirs. -/
theorem exists_outside_around (hb : b < n) (hcentre : inCentre n b = false)
    (hsame : ∀ i ≠ b, g i = f i) :
    ∃ front back, outside n f = front ++ (f b).deviation :: back
      ∧ outside n g = front ++ (g b).deviation :: back := by
  obtain ⟨front, back, houter⟩ := List.append_of_mem (mem_outer.2 ⟨hb, hcentre⟩)
  have hdistinct : (front ++ b :: back).Nodup := houter ▸ List.nodup_range.filter _
  rw [List.nodup_middle, List.nodup_cons, List.mem_append, not_or] at hdistinct
  have hother {is : List ℕ} (hb : b ∉ is) :
      (is.map fun i => (g i).deviation) = is.map fun i => (f i).deviation :=
    List.map_congr_left fun i hi => by rw [hsame i (ne_of_mem_of_not_mem hi hb)]
  refine ⟨front.map fun i => (f i).deviation, back.map fun i => (f i).deviation, ?_, ?_⟩
  · rw [outside_eq_map, houter, List.map_append, List.map_cons]
  · rw [outside_eq_map, houter, List.map_append, List.map_cons, hother hdistinct.1.1,
      hother hdistinct.1.2]

/-! ## The threshold with one bin lowered -/

/-- The deviation that the threshold is a margin over, after the deviation of a bin has
become zero.  It stays if that of the bin was below it, and goes to the entry before it
otherwise. -/
def loweredAnchor (n : ℕ) (f : ℕ → Spread) (b : ℕ) : Float32 :=
  if (f b).deviation < anchor n f then anchor n f
  else (0 :: sorted (outside n f)).getD (Ranks.rank (outside n f).length trustedShare) 0

theorem loweredAnchor_nonneg (hn : 0 < n) (hdeviation : ∀ i, 0 ≤ (f i).deviation) :
    0 ≤ loweredAnchor n f b := by
  rw [loweredAnchor]
  split
  next => exact anchor_nonneg hn hdeviation
  next =>
    rw [List.getD_eq_getElem?_getD]
    cases hentry : (0 :: sorted (outside n f))[Ranks.rank (outside n f).length trustedShare]? with
    | none => exact le_refl (by decide)
    | some entry =>
      rcases List.mem_cons.1 (List.mem_of_getElem? hentry) with rfl | hmem
      · exact le_refl (by decide)
      · rw [(Ranks.perm_sorted _).mem_iff, outside_eq_map] at hmem
        obtain ⟨i, -, rfl⟩ := List.mem_map.1 hmem
        exact hdeviation i

/-- The deviation at the rank becomes the lowered one, which is not above it. -/
theorem placeOf_anchor_lowered (hb : b < n) (hcentre : inCentre n b = false)
    (hsame : ∀ i ≠ b, g i = f i) (hdeviation : ∀ i, 0 ≤ (f i).deviation)
    (hzero : (g b).deviation = 0) :
    placeOf (anchor n g) = placeOf (loweredAnchor n f b)
      ∧ placeOf (loweredAnchor n f b) ≤ placeOf (anchor n f) := by
  obtain ⟨front, back, hbefore, hafter⟩ := exists_outside_around hb hcentre hsame
  have hmem : ∀ x ∈ front ++ (f b).deviation :: back, 0 ≤ x := by
    rw [← hbefore, outside_eq_map]
    exact List.forall_mem_map.2 fun i _ => hdeviation i
  have hnumbers : ∀ x ∈ front ++ (f b).deviation :: back, x.isNaN = false :=
    fun x hx => (isNaN_of_le (hmem x hx)).2
  have hleast : ∀ x ∈ front ++ (f b).deviation :: back, placeOf 0 ≤ placeOf x :=
    fun x hx => (le_iff_place (by decide) (hnumbers x hx)).1 (hmem x hx)
  have hlow : (0 : Float32).isNaN = false := by decide
  have heq := Ranks.placeOf_percentile_lowered hnumbers hlow hleast trustedShare
  have hle := Ranks.placeOf_percentile_lowered_le hnumbers hlow hleast trustedShare
  rw [hzero] at hafter
  rw [← hbefore, ← hafter] at heq hle
  exact ⟨heq, heq ▸ hle⟩

end Lowered

/-! ## Trust beside a broken bin -/

/-- When some magnitudes of a bin outside of the centre are not finite, the bin is not
trusted.  The threshold is a margin over the lowered deviation: no bin gains trust, but one
whose deviation is not below the margin over the entry before loses it, unless the broken
bin was below the threshold's deviation already. -/
theorem trust_beside_broken_bin (hrows : ∀ row ∈ history, row.length = n) (hb : b < n)
    (hcentre : inCentre n b = false) (hxs : xs.length = history.length)
    (hbroken : ∃ x ∈ xs, x.isFinite = false) :
    trustedBins (spreads n (withBin b xs history))
        = (List.range n).map (fun i => i != b
          && trusts (trustedMargin * loweredAnchor n (binOf history) b) n (binOf history i) i)
      ∧ (∀ i : ℕ, (trustedBins (spreads n (withBin b xs history)))[i]? = some true →
        (trustedBins (spreads n history))[i]? = some true)
      ∧ ((binOf history b).deviation < anchor n (binOf history) →
        ∀ i : ℕ, i ≠ b → (trustedBins (spreads n (withBin b xs history)))[i]?
          = (trustedBins (spreads n history))[i]?) := by
  have hn : 0 < n := Nat.zero_lt_of_lt hb
  have hdeviation := binOf_nonneg history
  have hsame : ∀ i ≠ b, binOf (withBin b xs history) i = binOf history i :=
    fun i hi => binOf_withBin_of_ne hxs hi
  obtain ⟨hmean, hzero⟩ := binOf_withBin_self hrows hb hxs hbroken
  obtain ⟨hplace, hle⟩ := placeOf_anchor_lowered hb hcentre hsame hdeviation hzero
  have hlowered := loweredAnchor_nonneg (b := b) hn hdeviation
  have hanchor := anchor_nonneg hn hdeviation
  have hafter : trustedBins (spreads n (withBin b xs history))
      = (List.range n).map (fun i => i != b
        && trusts (trustedMargin * loweredAnchor n (binOf history) b) n (binOf history i) i) := by
    rw [spreads_eq (length_of_mem_withBin hrows), trustedBins_map_range]
    refine List.map_congr_left fun i _ => ?_
    by_cases hi : i = b
    · rw [hi, bne_self_eq_false, Bool.false_and, trusted, trusts, hmean, Bool.and_false]
    · rw [bne_iff_ne.2 hi, Bool.true_and, trusted, hsame i hi]
      exact trusts_margin_congr (hdeviation i) (anchor_nonneg hn (binOf_nonneg _)) hlowered hplace
  rw [hafter, spreads_eq hrows, trustedBins_map_range]
  refine ⟨rfl, fun i hi => ?_, fun hbelow i hi => ?_⟩
  · rw [List.getElem?_map] at hi ⊢
    obtain ⟨j, hj, htrust⟩ := Option.map_eq_some_iff.1 hi
    rw [hj, Option.map_some, trusted]
    exact congrArg some (trusts_margin_mono (hdeviation j) hlowered
      ((le_iff_place (isNaN_of_le hlowered).2 (isNaN_of_le hanchor).2).2 hle)
      (Bool.and_eq_true_iff.1 htrust).2)
  · rw [List.getElem?_map, List.getElem?_map]
    rcases Nat.lt_or_ge i n with hin | hin
    · rw [List.getElem?_range hin, Option.map_some, Option.map_some, bne_iff_ne.2 hi, Bool.true_and,
        loweredAnchor, if_pos hbelow, trusted]
    · rw [List.getElem?_eq_none (by rwa [List.length_range])]
      rfl

namespace Specimen

/-- Two frames of eight bins, all of which deviate alike. -/
def evenHistory : List (List Float32) := [List.replicate 8 1, List.replicate 8 3]

end Specimen

/-- Bin 1 is trusted, and is not after one magnitude of bin 0 has become undefined. -/
theorem trust_beside_broken_bin_specimen :
    (∀ row ∈ Specimen.evenHistory, ∀ x ∈ row, x.isFinite = true)
      ∧ inCentre 8 0 = false
      ∧ withBin 0 [1, .nan] Specimen.evenHistory = [List.replicate 8 1, .nan :: List.replicate 7 3]
      ∧ (trustedBins (spreads 8 Specimen.evenHistory))[1]? = some true
      ∧ (trustedBins (spreads 8 (withBin 0 [1, .nan] Specimen.evenHistory)))[1]? = some false := by
  have hrows : ∀ row ∈ Specimen.evenHistory, row.length = 8 := by decide
  have heven : ∀ x ∈ outside 8 (binOf Specimen.evenHistory), x = 1 := by decide +kernel
  have hlength : (outside 8 (binOf Specimen.evenHistory)).length = 5 := by decide +kernel
  have hanchor : anchor 8 (binOf Specimen.evenHistory) = 1 :=
    heven _ (anchor_mem_outside (by decide))
  have hlowered : loweredAnchor 8 (binOf Specimen.evenHistory) 0 = 0 := by
    have hrank : Ranks.rank 5 trustedShare = 0 := by decide +kernel
    rw [loweredAnchor, hanchor, if_neg (by decide +kernel), hlength, hrank]
    rfl
  have hbroken : ∃ x ∈ [(1 : Float32), .nan], x.isFinite = false := ⟨.nan, by simp, rfl⟩
  obtain ⟨hafter, -, -⟩ := trust_beside_broken_bin hrows (b := 0) (by decide) (by decide +kernel)
    rfl hbroken
  refine ⟨by decide +kernel, by decide +kernel, rfl, ?_, ?_⟩
  · rw [spreads_eq hrows, trustedBins_map_range, List.getElem?_map, List.getElem?_range (by decide),
      Option.map_some, trusted, hanchor]
    decide +kernel
  · rw [hafter, hlowered]
    decide +kernel

end ProfileRules

end Denoise
