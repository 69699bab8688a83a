import Denoise.Proofs.Statistics
import Denoise.Proofs.Threshold

/-!
# When no bin is trusted

The threshold is a margin over one of the deviations outside of the centre, so the bin with
that deviation is below the threshold, and trusted.  It fails to be so if rounding takes the
margin away, which happens for the two least numbers above zero only (`lt_margin`), and it
is made up for where the deviation is zero.  So with finite statistics no bin is trusted
exactly if the deviation is one of those two and no bin has a lower one
(`Measured.not_trusted_iff`), and otherwise a refinement adopts (`wideband_outcome`).
-/

namespace Denoise

namespace ProfileRules

open Singles

/-! ## No trusted bin -/

section Bins

variable {n : ℕ} {f : ℕ → Spread}

/-- The deviation that the threshold is a margin over is one of the two for which the margin
is lost, and no bin deviates less. -/
def MarginLost (n : ℕ) (f : ℕ → Spread) : Prop :=
  (anchor n f = .ofBits 1 ∨ anchor n f = .ofBits 2) ∧ ∀ d ∈ outside n f, anchor n f ≤ d

/-- The bins outside of the centre have finite statistics, as those of magnitudes are. -/
structure Measured (n : ℕ) (f : ℕ → Spread) : Prop where
  mean : ∀ i ∈ outer n, (f i).mean.isFinite = true
  deviation : ∀ i ∈ outer n, (f i).deviation.isFinite = true
  nonneg : ∀ i, 0 ≤ (f i).deviation

namespace Measured

variable (h : Measured n f)

include h

/-- The bin with the deviation that the margin is over is trusted, if there is a margin. -/
theorem exists_trusted (hn : 0 < n) (hkept : ¬(anchor n f = .ofBits 1 ∨ anchor n f = .ofBits 2)) :
    ∃ i < n, trusted n f i = true := by
  obtain ⟨i, hi, hanchor⟩ := exists_anchor (f := f) hn
  obtain ⟨hin, hcentre⟩ := mem_outer.1 hi
  have hfinite := h.deviation i hi
  rw [hanchor] at hfinite
  have hnonneg : 0 ≤ valueOf (anchor n f) := by
    rw [← valueOf_zero, ← le_iff_value (by decide) hfinite]
    exact anchor_nonneg hn h.nonneg
  refine ⟨i, hin, trusted_iff.2 ⟨hcentre, ?_, h.mean i hi⟩⟩
  rw [hanchor]
  rcases hnonneg.eq_or_lt with hzero | hpos
  · exact .inr ⟨margin_beq_zero hfinite hzero.symm, beq_zero hfinite hzero.symm⟩
  · exact .inl ((lt_margin hfinite hpos).resolve_right hkept)

/-- Without a margin, those bins are trusted whose deviation is lower. -/
theorem trusted_iff_lt (hlost : anchor n f = .ofBits 1 ∨ anchor n f = .ofBits 2) {i : ℕ}
    (hi : i ∈ outer n) : trusted n f i = true ↔ (f i).deviation < anchor n f := by
  rw [trusted_iff, margin_eq hlost]
  constructor
  · rintro ⟨-, hlt | ⟨hzero, -⟩, -⟩
    · exact hlt
    · rcases hlost with hleast | hleast
      · rw [hleast] at hzero
        exact absurd hzero (by decide +kernel)
      · rw [hleast] at hzero
        exact absurd hzero (by decide +kernel)
  · intro hlt
    exact ⟨(mem_outer.1 hi).2, .inl hlt, h.mean i hi⟩

/-- No bin is trusted exactly if the margin is lost. -/
theorem not_trusted_iff (hn : 0 < n) : (∀ i < n, trusted n f i = false) ↔ MarginLost n f := by
  have hnumber : (anchor n f).isNaN = false := (isNaN_of_le (anchor_nonneg hn h.nonneg)).2
  have hle {i : ℕ} : ¬(f i).deviation < anchor n f ↔ anchor n f ≤ (f i).deviation := by
    rw [← not_le_iff_lt hnumber (isNaN_of_le (h.nonneg i)).2, not_not]
  rw [MarginLost, outside_eq_map, List.forall_mem_map]
  constructor
  · intro hnone
    have hlost : anchor n f = .ofBits 1 ∨ anchor n f = .ofBits 2 := by
      by_contra hkept
      obtain ⟨i, hi, htrusted⟩ := h.exists_trusted hn hkept
      rw [hnone i hi] at htrusted
      cases htrusted
    refine ⟨hlost, fun i hi => ?_⟩
    rw [← hle, ← h.trusted_iff_lt hlost hi, hnone i (mem_outer.1 hi).1]
    exact Bool.false_ne_true
  · rintro ⟨hlost, hleast⟩ i hin
    rw [← Bool.not_eq_true]
    intro htrusted
    have hi := mem_outer.2 ⟨hin, (trusted_iff.1 htrusted).1⟩
    exact hle.2 (hleast i hi) ((h.trusted_iff_lt hlost hi).1 htrusted)

end Measured

end Bins

/-! ## What a refinement does -/

/-- Bins are filled unless none of them has a value. -/
theorem fillFrom_eq_none_iff {gap : ℕ} {bins : List (Option Float32)} :
    fillFrom gap bins = none ↔ ∀ bin ∈ bins, bin = none := by
  induction bins generalizing gap with
  | nil => exact iff_of_true rfl nofun
  | cons bin bins ih =>
    cases bin with
    | none => rw [fillFrom, ih, List.forall_mem_cons, and_iff_right rfl]
    | some value =>
      refine iff_of_false (Option.some_ne_none _) fun h => ?_
      cases h _ List.mem_cons_self

theorem widebandEstimate_eq_none_iff {r : ProfileRules} {history : List (List Float32)}
    (h : ∀ row ∈ history, row.length = r.geometry.fftSize) :
    r.widebandEstimate history = none
      ↔ ∀ i < r.geometry.fftSize, trusted r.geometry.fftSize (binOf history) i = false := by
  rw [widebandEstimate_eq h, fillFrom_eq_none_iff, List.forall_mem_map]
  refine forall_congr' fun i => ?_
  rw [List.mem_range, offered]
  cases trusted r.geometry.fftSize (binOf history) i <;> simp

theorem refineWideband_outcome (r : ProfileRules) (p : Profile) :
    ((r.refineWideband p).outcome = .degenerate ↔ r.widebandEstimate p.history = none)
      ∧ ((r.refineWideband p).outcome = .adopted ↔ r.widebandEstimate p.history ≠ none) := by
  rw [refineWideband]
  cases r.widebandEstimate p.history with
  | none => simp
  | some => simp

theorem magnitude_of_mem_column {n i : ℕ} {history : List (List Float32)}
    (hrows : ∀ row ∈ history, row.length = n ∧ ∀ x ∈ row, Magnitude x) (hi : i < n) :
    ∀ x ∈ column history i, Magnitude x := by
  refine List.forall_mem_map.2 fun row hrow => ?_
  obtain ⟨hlength, hmagnitudes⟩ := hrows row hrow
  rw [List.getD_eq_getElem _ _ (hlength ▸ hi)]
  exact hmagnitudes _ (List.getElem_mem _)

/-- A wideband refinement that is not held, of a full history of magnitudes, adopts an
estimate if some bin is trusted.  The statistics are finite unless the history is very long,
and where they are, a bin is trusted unless the margin of the threshold is lost. -/
theorem wideband_outcome {r : ProfileRules} (hwide : r.geometry.wideband = true) {p : Profile}
    {magnitudes : List Float32}
    (hrows : ∀ row ∈ (p.record magnitudes).history,
      row.length = r.geometry.fftSize ∧ ∀ x ∈ row, Magnitude x)
    (hfull : r.threshold ≤ (p.record magnitudes).history.length) :
    let n := r.geometry.fftSize
    let history := (p.record magnitudes).history
    let outcome := (r.refine p magnitudes false).outcome
    (outcome = .adopted ∨ outcome = .degenerate)
      ∧ (outcome = .adopted ↔ true ∈ trustedBins (spreads n history))
      ∧ (history.length ≤ 2 ^ 29 →
        ∀ s ∈ spreads n history, s.mean.isFinite = true ∧ s.deviation.isFinite = true)
      ∧ ((∀ s ∈ spreads n history, s.mean.isFinite = true ∧ s.deviation.isFinite = true) →
        (outcome = .degenerate ↔ MarginLost n (binOf history))) := by
  intro n history outcome
  have hn : 0 < n := by
    have hhop := r.geometry.two_le_hop
    show 0 < 2 * (2 * r.geometry.hop)
    omega
  have hlengths : ∀ row ∈ history, row.length = n := fun row hrow => (hrows row hrow).1
  have houtcome : outcome = (r.refineWideband (p.record magnitudes)).outcome := by
    show (r.refine p magnitudes false).outcome = _
    rw [refine, if_neg hfull.not_gt, if_neg Bool.false_ne_true, if_pos hwide]
  obtain ⟨hdegenerate, hadopted⟩ := refineWideband_outcome r (p.record magnitudes)
  rw [← houtcome, widebandEstimate_eq_none_iff hlengths] at hdegenerate
  rw [← houtcome, ne_eq, widebandEstimate_eq_none_iff hlengths, ← hdegenerate] at hadopted
  rw [spreads_eq hlengths, trustedBins_map_range]
  refine ⟨?_, ?_, fun hlength => ?_, fun hfinite => ?_⟩
  · rw [hadopted]
    exact (em _).symm
  · rw [hadopted, hdegenerate, List.mem_map]
    push Not
    simp only [List.mem_range, ne_eq, Bool.not_eq_false]
    rfl
  · refine List.forall_mem_map.2 fun i hi => ?_
    have hne : column history i ≠ [] := by
      have hhistory : history ≠ [] := List.append_ne_nil_of_right_ne_nil _ (List.cons_ne_nil _ _)
      exact mt List.map_eq_nil_iff.1 hhistory
    exact isFinite_spreadOf hne (by rwa [length_column])
      (magnitude_of_mem_column hrows (List.mem_range.1 hi))
  · rw [List.forall_mem_map] at hfinite
    rw [hdegenerate]
    have hmeasured : Measured n (binOf history) :=
      ⟨fun i hi => (hfinite i (List.mem_range.2 (mem_outer.1 hi).1)).1,
        fun i hi => (hfinite i (List.mem_range.2 (mem_outer.1 hi).1)).2, binOf_nonneg history⟩
    exact hmeasured.not_trusted_iff hn

namespace Specimen

/-- At a wideband rate, with a history of 35 frames. -/
def longRules : ProfileRules :=
  .of { Denoise.Specimen.geometry with wideband := true }
    { Denoise.Specimen.settings with widebandHistoryFrames := 35 }

/-- A faint magnitude.  The sum of 35 of its squares is rounded. -/
def faint : Float32 := 9e-38

/-- A profile that a stationary floor has refined, one frame before the history is full. -/
def nearlyFull : Profile :=
  longRules.refineAll longRules.freshProfile (List.replicate 34 (level faint, false))

end Specimen

/-- A stationary floor, and no trusted bin: the rounding of the sum leaves every bin with the
least deviation above zero. -/
theorem wideband_outcome_specimen :
    (Specimen.nearlyFull.record (Specimen.level Specimen.faint)).history
        = List.replicate 35 (Specimen.level Specimen.faint)
      ∧ (Specimen.longRules.refine Specimen.nearlyFull (Specimen.level Specimen.faint)
        false).outcome = .degenerate := by
  have hhistory : (Specimen.nearlyFull.record (Specimen.level Specimen.faint)).history
      = List.replicate 35 (Specimen.level Specimen.faint) := by decide +kernel
  have hrows : ∀ row ∈ (Specimen.nearlyFull.record (Specimen.level Specimen.faint)).history,
      row.length = 8 ∧ ∀ x ∈ row, x.isFinite = true ∧ 0 ≤ x := by
    rw [hhistory]
    intro row hrow
    rw [List.eq_of_mem_replicate hrow]
    decide +kernel
  have hlength := congrArg List.length hhistory
  rw [List.length_replicate] at hlength
  obtain ⟨-, -, hfinite, houtcome⟩ :=
    wideband_outcome (r := Specimen.longRules) rfl hrows hlength.ge
  have hleast : ∀ d ∈ outside 8 (binOf (List.replicate 35 (Specimen.level Specimen.faint))),
      d = .ofBits 1 := by decide +kernel
  have hanchor := hleast _ (anchor_mem_outside (by decide))
  refine ⟨hhistory, (houtcome (hfinite (by rw [hlength]; decide))).2 ⟨.inl ?_, fun d hd => ?_⟩⟩
  · rw [hhistory]
    exact hanchor
  · rw [hhistory] at hd ⊢
    change anchor 8 (binOf (List.replicate 35 (Specimen.level Specimen.faint))) ≤ d
    rw [hleast d hd, hanchor]
    exact Singles.le_refl (by decide)

end ProfileRules

end Denoise
