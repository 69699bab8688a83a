import Denoise.Proofs.Ranks
import Denoise.Proofs.Spreads
import Denoise.Proofs.Tightening

/-!
# The threshold of trust

The threshold is a product with a margin of more than one.  Products keep the order of
numbers that are not below zero, so trust grows with the deviation that the margin is over
(`trusts_margin_mono`).  The product is above the deviation unless rounding takes the margin
away, which happens for the two least numbers above zero only (`lt_margin`).  That deviation
is the one of some bin, since the first bin at least is outside of the centre.
-/

namespace Denoise

namespace Singles

open Float.Model UnpackedFloat Rounding Values

variable {a b c d : Float32}

/-! ## Products with a positive number -/

theorem valueOf_of_unpack {m : ℕ} {e : ℤ} {pos : 0 < m}
    (hu : a.toModel.unpack = .finite .positive m e pos) : valueOf a = m * 2 ^ e := by
  rw [valueOf, hu]
  rfl

theorem unpack_of_pos (ha : a.isFinite = true) (hpos : 0 < valueOf a) :
    ∃ (m : ℕ) (e : ℤ) (pos : 0 < m), a.toModel.unpack = .finite .positive m e pos := by
  have hfits := fits ha
  rw [valueOf] at hpos
  generalize a.toModel.unpack = u at *
  cases u with
  | notANumber => exact hfits.elim
  | infinity => exact hfits.elim
  | zero => exact absurd hpos (lt_irrefl _)
  | finite s m e pos =>
    obtain rfl : s = .positive := Unsigned.sign_eq (.fits hfits hpos.le)
    exact ⟨m, e, pos, rfl⟩

theorem mul_infinity (hc : c.isFinite = true) (hpos : 0 < valueOf c)
    (ha : a.toModel.unpack = .infinity .positive) :
    (c * a).toModel.unpack = .infinity .positive := by
  obtain ⟨m, e, pos, hu⟩ := unpack_of_pos hc hpos
  show stored .binary32 (UnpackedFloat.mul .binary32 c.toModel.unpack a.toModel.unpack) = _
  rw [ha, hu]
  exact stored_infinity _

/-- A product with a positive number keeps the order of numbers that are not below zero. -/
theorem mul_le_mul_left (hc : c.isFinite = true) (hpos : 0 < valueOf c) (ha : 0 ≤ a)
    (hab : a ≤ b) : c * a ≤ c * b := by
  obtain ⟨hna, hnb⟩ := isNaN_of_le hab
  have hb : 0 ≤ b := le_trans (by decide) hna hnb ha hab
  have hproduct {x : Float32} (hx : 0 ≤ x) : (c * x).isNaN = false := by
    rcases unpack_of_nonneg hx with hfinite | hinfinite
    · exact (yields_mul hc hfinite).isNaN
    · show (c * x).toModel.unpack.isNaN = false
      rw [mul_infinity hc hpos hinfinite]
      rfl
  rw [le_iff_place (hproduct ha) (hproduct hb)]
  rcases unpack_of_nonneg hb with hfinite | hinfinite
  · have hfinite' := isFinite_of_between (by decide) hfinite ha hab
    exact place_le_of_yields (yields_mul hc hfinite') (yields_mul hc hfinite)
      (mul_le_mul_of_nonneg_left ((le_iff_value hfinite' hfinite).1 hab) hpos.le)
  · rw [placeOf, placeOf, mul_infinity hc hpos hinfinite]
    exact (place_between (hproduct ha)).2

/-- A number without a value is zero. -/
theorem beq_zero (ha : a.isFinite = true) (h : valueOf a = 0) : (a == 0) = true := by
  have hnumber := isNaN_of_isFinite ha
  have hzero : (0 : Float32).isNaN = false := by decide
  rw [Ranks.beq_iff_place hnumber hzero]
  refine le_antisymm ((le_iff_place hnumber hzero).1 ?_) ((le_iff_place hzero hnumber).1 ?_)
  · exact (le_iff_value ha (by decide)).2 (h.trans valueOf_zero.symm).le
  · exact (le_iff_value (by decide) ha).2 (h.trans valueOf_zero.symm).ge

/-! ## The first bin -/

theorem yields_abs_zero_sub (hd : d.isFinite = true) :
    Yields .binary32 |valueOf d| (0 - d).abs.toModel.unpack := by
  have hfits := fits hd
  show Yields _ |value d.toModel.unpack| (stored .binary32 (UnpackedFloat.abs
    (stored .binary32 (UnpackedFloat.sub .binary32 (.zero .positive) d.toModel.unpack))))
  generalize d.toModel.unpack = u at hfits
  cases u with
  | notANumber => exact hfits.elim
  | infinity => exact hfits.elim
  | zero s =>
    have hzero : UnpackedFloat.abs (stored .binary32
        (UnpackedFloat.sub .binary32 (.zero .positive) (.zero s))) = .zero .positive := by
      cases s <;> rfl
    rw [hzero, value_zero, abs_zero]
    exact yields_zero _
  | finite s m e pos =>
    have hneg : Fits .binary32 (.finite (-s) m e pos) := hfits
    have habs : Fits .binary32 (.finite .positive m e pos) := hfits
    have hsize : |value (.finite s m e pos)| = value (.finite .positive m e pos) := by
      have hnonneg : (0 : ℚ) ≤ m * 2 ^ e := by positivity
      rw [value_finite, value_finite]
      cases s with
      | positive => exact abs_of_nonneg hnonneg
      | negative => exact (abs_neg _).trans (abs_of_nonneg hnonneg)
    show Yields _ _ (stored .binary32 (UnpackedFloat.abs (stored .binary32 (.finite (-s) m e pos))))
    rw [hneg.stored, hsize]
    exact habs.yields

/-- A share of less than a half of a number is not above half its size. -/
theorem share_le_half (hc : c.isFinite = true) :
    placeOf (ProfileRules.centreShare * c) ≤ placeOf (0 - c / 2).abs := by
  have hshare : valueOf ProfileRules.centreShare = (10066330 : ℕ) * 2 ^ (-26 : ℤ) := rfl
  have htwo : valueOf 2 = 2 := by
    show ((2 ^ 23 : ℕ) : ℚ) * 2 ^ (-22 : ℤ) = 2
    norm_num
  have hbound : Exact .binary32 |valueOf c| := by
    rcases abs_choice (valueOf c) with h | h
    · rw [h]
      exact .value (fits hc)
    · rw [h]
      exact (Exact.value (fits hc)).neg
  have hproduct := yields_mul (a := ProfileRules.centreShare) (by decide) hc
  have hquotient := yields_div (b := 2) hc (by decide) (by rw [htwo]; norm_num)
  rw [htwo] at hquotient
  have hhalf : Fits .binary32 (c / 2).toModel.unpack := by
    have hsize : |valueOf c / 2| ≤ |valueOf c| := by
      rw [abs_div, abs_two]
      exact half_le_self (abs_nonneg _)
    exact (hquotient.within hbound.neg hbound (neg_le_of_abs_le hsize) (le_of_abs_le hsize)).fits
  have habs := yields_abs_zero_sub hhalf.isFinite
  rcases le_total 0 (valueOf c) with hpos | hneg
  · have hle : valueOf ProfileRules.centreShare * valueOf c ≤ valueOf c / 2 := by
      rw [hshare]
      norm_num
      linarith
    exact (place_le_of_yields hproduct hquotient hle).trans
      (place_le_of_yields (.finite hhalf (rounds_value hhalf)) habs (le_abs_self _))
  · have hle : valueOf ProfileRules.centreShare * valueOf c ≤ 0 := by
      rw [hshare]
      exact mul_nonpos_of_nonneg_of_nonpos (by positivity) hneg
    exact place_le_of_yields hproduct habs (hle.trans (abs_nonneg _))

/-- Half a spectrum away from the centre is never within its share. -/
theorem not_lt_share (c : Float32) : ¬(0 - c / 2).abs < ProfileRules.centreShare * c := by
  intro hlt
  obtain ⟨hhalf, hshare⟩ := isNaN_of_lt hlt
  have hplace := (lt_iff_place hhalf hshare).1 hlt
  cases hc : c.isFinite with
  | true => exact (share_le_half hc).not_gt hplace
  | false =>
    have hproduct : (ProfileRules.centreShare * c).toModel.unpack
        = stored .binary32 (UnpackedFloat.mul .binary32
          (.finite .positive 10066330 (-26) (by decide)) c.toModel.unpack) := rfl
    have hquotient : (0 - c / 2).abs.toModel.unpack
        = stored .binary32 (UnpackedFloat.abs (stored .binary32 (UnpackedFloat.sub .binary32
          (.zero .positive) (stored .binary32 (UnpackedFloat.div .binary32 c.toModel.unpack
          (.finite .positive (2 ^ 23) (-22) (by decide))))))) := rfl
    rw [placeOf, placeOf, hproduct, hquotient] at hplace
    change c.toModel.unpack.isFinite = false at hc
    generalize c.toModel.unpack = u at hplace hc
    cases u with
    | notANumber => exact absurd hplace (by decide +kernel)
    | infinity s =>
      cases s with
      | positive => exact absurd hplace (by decide +kernel)
      | negative => exact absurd hplace (by decide +kernel)
    | zero => cases hc
    | finite => cases hc

end Singles

namespace ProfileRules

open Float.Model UnpackedFloat Rounding Values Singles

/-! ## The margin -/

section Margin

variable {a b : Float32}

theorem trustedMargin_pos : trustedMargin.isFinite = true ∧ 0 < valueOf trustedMargin :=
  ⟨by decide, Values.value_pos⟩

theorem margin_mono (ha : 0 ≤ a) (h : a ≤ b) : trustedMargin * a ≤ trustedMargin * b :=
  mul_le_mul_left trustedMargin_pos.1 trustedMargin_pos.2 ha h

theorem margin_nonneg (ha : 0 ≤ a) : 0 ≤ trustedMargin * a := by
  have hleast := margin_mono (by decide) ha
  obtain ⟨hzero, hproduct⟩ := isNaN_of_le hleast
  exact le_trans (by decide) hzero hproduct (by decide +kernel) hleast

theorem valueOf_trustedMargin : valueOf trustedMargin = (10066330 : ℕ) * 2 ^ (-23 : ℤ) := rfl

/-- With five units of the last place or more, the margin is a whole unit at least. -/
theorem lt_margin_of_unpack {m : ℕ} {e : ℤ} {pos : 0 < m} (ha : a.isFinite = true)
    (hu : a.toModel.unpack = .finite .positive m e pos) (hm : 5 ≤ m) :
    a < trustedMargin * a := by
  have hvalue := valueOf_of_unpack hu
  have hnonneg : 0 ≤ a := by
    rw [le_iff_value (by decide) ha, hvalue, valueOf_zero]
    positivity
  have hproduct := margin_nonneg hnonneg
  by_contra hnot
  have hle := le_of_not_lt (isNaN_of_isFinite ha) (isNaN_of_le hproduct).2 hnot
  have hfinite := isFinite_of_between (by decide) ha hproduct hle
  obtain ⟨hlt, -, hleast, -⟩ := finite_bounds hu
  have hnext : Rounds .binary32 ((m + 1 : ℕ) * 2 ^ e) ((m + 1 : ℕ) * 2 ^ e) :=
    rounds_multiple hlt hleast
  have hexact : ((m + 1 : ℕ) : ℚ) * 2 ^ e ≤ valueOf trustedMargin * valueOf a := by
    have hm' : (5 : ℚ) ≤ m := by exact_mod_cast hm
    rw [hvalue, valueOf_trustedMargin, ← mul_assoc]
    refine mul_le_mul_of_nonneg_right ?_ (by positivity)
    norm_num
    linarith
  have hrounds := (yields_mul trustedMargin_pos.1 ha).rounds hfinite
  have hgreater : ((m + 1 : ℕ) : ℚ) * 2 ^ e ≤ m * 2 ^ e := by
    rw [← hvalue]
    exact (hnext.mono hrounds hexact).trans ((le_iff_value hfinite ha).1 hle)
  have hunit : (0 : ℚ) < 2 ^ e := by positivity
  exact absurd ((mul_le_mul_iff_of_pos_right hunit).1 hgreater) (by push_cast; linarith)

/-- A number above zero is below its product with the margin, unless it is one of the two
least. -/
theorem lt_margin (ha : a.isFinite = true) (hpos : 0 < valueOf a) :
    a < trustedMargin * a ∨ a = .ofBits 1 ∨ a = .ofBits 2 := by
  obtain ⟨m, e, pos, hu⟩ := unpack_of_pos ha hpos
  rcases Nat.lt_or_ge m 5 with hfew | hmany
  · obtain ⟨-, hfull, -, -⟩ := finite_bounds hu
    obtain rfl : e = -149 := hfull.resolve_left (by omega)
    have heq {b : Float32} (hb : b.toModel.unpack = .finite .positive m (-149) pos) : a = b :=
      Bits.eq_of_unpack_eq (hu.trans hb.symm)
    interval_cases m
    · exact .inr (.inl (heq rfl))
    · exact .inr (.inr (heq rfl))
    · rw [heq (b := .ofBits 3) rfl]
      exact .inl (by decide +kernel)
    · rw [heq (b := .ofBits 4) rfl]
      exact .inl (by decide +kernel)
  · exact .inl (lt_margin_of_unpack ha hu hmany)

/-- The margin over the two least numbers is lost in rounding. -/
theorem margin_eq (h : a = .ofBits 1 ∨ a = .ofBits 2) : trustedMargin * a = a := by
  rcases h with rfl | rfl
  · decide +kernel
  · decide +kernel

/-- Nothing is the margin over nothing. -/
theorem margin_beq_zero (ha : a.isFinite = true) (h : valueOf a = 0) :
    (trustedMargin * a == 0) = true := by
  have hyields := yields_mul trustedMargin_pos.1 ha
  rw [h, mul_zero] at hyields
  obtain ⟨hfits, hvalue⟩ := hyields.exact (.zero _)
  exact beq_zero hfits.isFinite hvalue

end Margin

/-! ## Trust -/

section Trust

variable {n i : ℕ} {s : Spread} {low high : Float32}

/-- Trust grows with the threshold. -/
theorem trusts_mono (hs : 0 ≤ s.deviation) (hlow : 0 ≤ low) (h : low ≤ high)
    (htrust : trusts low n s i = true) : trusts high n s i = true := by
  obtain ⟨hzero, hs⟩ := isNaN_of_le hs
  obtain ⟨hnl, hnh⟩ := isNaN_of_le h
  rw [le_iff_place hnl hnh] at h
  rw [le_iff_place hzero hnl] at hlow
  simp only [trusts, Bool.and_eq_true, Bool.or_eq_true, decide_eq_true_eq] at htrust ⊢
  refine ⟨⟨htrust.1.1, ?_⟩, htrust.2⟩
  rw [lt_iff_place hs hnh, Ranks.beq_iff_place hnh hzero, Ranks.beq_iff_place hs hzero]
  rcases htrust.1.2 with hbelow | ⟨-, hstill⟩
  · exact .inl (((lt_iff_place hs hnl).1 hbelow).trans_le h)
  · rw [Ranks.beq_iff_place hs hzero] at hstill
    rcases (hlow.trans h).eq_or_lt with heq | hlt
    · exact .inr ⟨heq.symm, hstill⟩
    · exact .inl (hstill ▸ hlt)

/-- Trust grows with the deviation that the threshold is a margin over. -/
theorem trusts_margin_mono (hs : 0 ≤ s.deviation) (hlow : 0 ≤ low) (h : low ≤ high)
    (htrust : trusts (trustedMargin * low) n s i = true) :
    trusts (trustedMargin * high) n s i = true :=
  trusts_mono hs (margin_nonneg hlow) (margin_mono hlow h) htrust

/-- Thresholds of deviations at one place trust the same bins. -/
theorem trusts_margin_congr {x y : Float32} (hs : 0 ≤ s.deviation) (hx : 0 ≤ x) (hy : 0 ≤ y)
    (h : placeOf x = placeOf y) :
    trusts (trustedMargin * x) n s i = trusts (trustedMargin * y) n s i := by
  have hnx := (isNaN_of_le hx).2
  have hny := (isNaN_of_le hy).2
  rw [Bool.eq_iff_iff]
  exact ⟨trusts_margin_mono hs hx ((le_iff_place hnx hny).2 h.le),
    trusts_margin_mono hs hy ((le_iff_place hny hnx).2 h.ge)⟩

end Trust

/-! ## The deviation that the margin is over -/

section Anchor

variable {n : ℕ} {f : ℕ → Spread}

/-- The first bin is outside of the centre, whatever the width. -/
theorem inCentre_zero (n : ℕ) : inCentre n 0 = false := decide_eq_false (not_lt_share (ofCount n))

/-- The threshold is a margin over the deviation of some bin. -/
theorem anchor_mem_outside (hn : 0 < n) : anchor n f ∈ outside n f := by
  refine Ranks.percentile_mem ?_ trustedShare
  rw [outside_eq_map]
  exact List.ne_nil_of_mem (List.mem_map_of_mem (mem_outer.2 ⟨hn, inCentre_zero n⟩))

/-- The anchor is the deviation of some bin outside the centre. -/
theorem exists_anchor (hn : 0 < n) : ∃ i ∈ outer n, (f i).deviation = anchor n f := by
  refine List.mem_map.1 ?_
  rw [← outside_eq_map]
  exact anchor_mem_outside hn

theorem anchor_nonneg (hn : 0 < n) (hdeviation : ∀ i, 0 ≤ (f i).deviation) : 0 ≤ anchor n f := by
  obtain ⟨i, -, hi⟩ := exists_anchor (f := f) hn
  rw [← hi]
  exact hdeviation i

end Anchor

end ProfileRules

end Denoise
