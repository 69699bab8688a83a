import Denoise.Proofs.Wideband

/-!
# The centre of the spectrum

A wideband estimate takes nothing from the bins of the centre, although their statistics are
computed next to the others and their entries are filled in place.  Two histories that
agree outside the centre have the same deviations to rank, so the same threshold, so the
same trusted bins; and what is filled in comes from trusted bins only
(`AgreeOutside.widebandEstimate`).  Whatever is put into the centre, refinement takes the
same course (`AgreeOutside.refine`, and `AgreeOutside.refineAll` for a run).
-/

namespace Denoise

open ProfileRules

/-- Two vectors of `n` bins with the same entries outside the centre. -/
structure AgreeOutside (n : Nat) (xs ys : List Float32) : Prop where
  left : xs.length = n
  right : ys.length = n
  entry : ∀ i < n, inCentre n i = false → xs[i]? = ys[i]?

/-- Two profiles that differ at most in the centre of their histories. -/
structure Profile.AgreeOutside (n : Nat) (p q : Profile) : Prop where
  rest : q = { p with history := q.history }
  history : List.Forall₂ (Denoise.AgreeOutside n) p.history q.history

namespace AgreeOutside

variable {n : Nat} {history history' : List (List Float32)}

theorem column (h : List.Forall₂ (AgreeOutside n) history history') {i : Nat} (hi : i < n)
    (hcentre : inCentre n i = false) : column history i = column history' i := by
  induction h with
  | nil => rfl
  | cons hrow _ ih =>
    rw [ProfileRules.column, List.map_cons, List.getD_eq_getElem?_getD, hrow.entry i hi hcentre,
      ← List.getD_eq_getElem?_getD]
    exact congrArg _ ih

theorem lengths (h : List.Forall₂ (AgreeOutside n) history history') :
    (∀ row ∈ history, row.length = n) ∧ ∀ row ∈ history', row.length = n := by
  induction h with
  | nil => exact ⟨nofun, nofun⟩
  | cons hrow _ ih =>
    exact ⟨List.forall_mem_cons.2 ⟨hrow.left, ih.1⟩, List.forall_mem_cons.2 ⟨hrow.right, ih.2⟩⟩

/-! ## The estimate -/

section Bins

variable {f g : Nat → Spread}

/-- The deviations that are ranked are those outside of the centre. -/
theorem outside_congr (h : ∀ i < n, inCentre n i = false → f i = g i) :
    outside n f = outside n g := by
  rw [outside_eq_map, outside_eq_map]
  refine List.map_congr_left fun i hi => ?_
  obtain ⟨hin, hcentre⟩ := mem_outer.1 hi
  rw [h i hin hcentre]

/-- What a bin offers depends on it only outside of the centre. -/
theorem offered_congr (h : ∀ i < n, inCentre n i = false → f i = g i) {i : Nat} (hi : i < n) :
    offered n f i = offered n g i := by
  rw [offered, offered, trusted, trusted, anchor, anchor, outside_congr h]
  cases hcentre : inCentre n i with
  | true =>
    simp only [trusts, hcentre, Bool.not_true, Bool.false_and]
    rfl
  | false => rw [h i hi hcentre]

end Bins

theorem widebandEstimate {r : ProfileRules}
    (h : List.Forall₂ (AgreeOutside r.geometry.fftSize) history history') :
    r.widebandEstimate history = r.widebandEstimate history' := by
  obtain ⟨hleft, hright⟩ := lengths h
  rw [widebandEstimate_eq hleft, widebandEstimate_eq hright]
  congr 1
  refine List.map_congr_left fun i hi => ?_
  refine offered_congr (fun j hj hcentre => ?_) (List.mem_range.1 hi)
  rw [binOf, binOf, column h hj hcentre]

/-! ## Refinement -/

theorem record {p q : Profile} (h : p.AgreeOutside n q) {magnitudes magnitudes' : List Float32}
    (hm : AgreeOutside n magnitudes magnitudes') :
    (p.record magnitudes).AgreeOutside n (q.record magnitudes') := by
  obtain ⟨hrest, hhistory⟩ := h
  rw [hrest]
  refine ⟨rfl, ?_⟩
  simp only [Profile.record, ← hhistory.length_eq]
  refine List.rel_append ?_ (.cons hm .nil)
  split
  · exact List.forall₂_drop 1 hhistory
  · exact hhistory

variable {r : ProfileRules} {p q : Profile}

/-- Refinement does the same to both, and leaves them agreeing. -/
theorem refine (hwide : r.geometry.wideband = true) (h : p.AgreeOutside r.geometry.fftSize q)
    {magnitudes magnitudes' : List Float32}
    (hm : AgreeOutside r.geometry.fftSize magnitudes magnitudes') (held : Bool) :
    (r.refine p magnitudes held).outcome = (r.refine q magnitudes' held).outcome
      ∧ (r.refine p magnitudes held).events = (r.refine q magnitudes' held).events
      ∧ (r.refine p magnitudes held).profile.AgreeOutside r.geometry.fftSize
        (r.refine q magnitudes' held).profile := by
  have hrecord := record h hm
  have hestimate := widebandEstimate hrecord.history
  have hlength := hrecord.history.length_eq
  simp only [ProfileRules.refine, hlength, if_pos hwide]
  split
  · exact ⟨rfl, rfl, hrecord⟩
  · cases held with
    | true => exact ⟨rfl, rfl, hrecord⟩
    | false =>
      simp only [refineWideband, hestimate]
      obtain ⟨hrest, hhistory⟩ := hrecord
      rw [hrest]
      cases r.widebandEstimate (q.record magnitudes').history with
      | some estimate => exact ⟨rfl, rfl, rfl, hhistory⟩
      | none => exact ⟨rfl, rfl, rfl, hhistory⟩

/-- So does any run of refinements. -/
theorem refineAll (hwide : r.geometry.wideband = true) (h : p.AgreeOutside r.geometry.fftSize q)
    {frames frames' : List (List Float32 × Bool)}
    (hframes : List.Forall₂ (fun frame frame' =>
      AgreeOutside r.geometry.fftSize frame.1 frame'.1 ∧ frame.2 = frame'.2) frames frames') :
    (r.refineAll p frames).AgreeOutside r.geometry.fftSize (r.refineAll q frames') := by
  induction hframes generalizing p q with
  | nil => exact h
  | @cons frame frame' _ _ hframe _ ih =>
    obtain ⟨magnitudes, held⟩ := frame
    obtain ⟨magnitudes', held'⟩ := frame'
    obtain ⟨hm, rfl⟩ := hframe
    exact ih (refine hwide h hm held).2.2

end AgreeOutside

namespace ProfileRules

/-- Two wideband profiles that differ only in the centre of their histories, refined by
magnitudes that differ only there, are refined alike: the outcome and what is reported are
the same, and all that is left is the same but for the centre of the history. -/
theorem refinement_ignores_centre {r : ProfileRules} (hwide : r.geometry.wideband = true)
    {p q : Profile} (h : p.AgreeOutside r.geometry.fftSize q)
    {magnitudes magnitudes' : List Float32}
    (hm : AgreeOutside r.geometry.fftSize magnitudes magnitudes') (held : Bool) :
    let left := r.refine p magnitudes held
    let right := r.refine q magnitudes' held
    left.outcome = right.outcome ∧ left.events = right.events
      ∧ left.profile.power = right.profile.power
      ∧ left.profile.floorLow = right.profile.floorLow
      ∧ left.profile.floorHigh = right.profile.floorHigh
      ∧ left.profile.generation = right.profile.generation
      ∧ left.profile.stable = right.profile.stable
      ∧ left.profile.degenerate = right.profile.degenerate
      ∧ left.profile.AgreeOutside r.geometry.fftSize right.profile := by
  intro left right
  obtain ⟨houtcome, hevents, hagree⟩ : left.outcome = right.outcome ∧ left.events = right.events
      ∧ left.profile.AgreeOutside r.geometry.fftSize right.profile :=
    AgreeOutside.refine hwide h hm held
  have hrest := hagree.rest
  exact ⟨houtcome, hevents, by rw [hrest], by rw [hrest], by rw [hrest], by rw [hrest],
    by rw [hrest], by rw [hrest], hagree⟩

namespace Specimen

/-- A frame whose bins are equal but for those of the centre. -/
def hollow (x centre : Float32) : List Float32 := [x, x, x, centre, centre, centre, x, x]

/-- A profile refined by two such frames. -/
def refinedTwiceHollow (centre centre' : Float32) : Refined :=
  wideRules.refine (wideRules.refine wideRules.freshProfile (hollow 1 centre) false).profile
    (hollow 2 centre') false

theorem agreeOutside_hollow (x centre centre' : Float32) :
    AgreeOutside 8 (hollow x centre) (hollow x centre') := by
  refine ⟨rfl, rfl, fun i hi hcentre => ?_⟩
  have hbins : ∀ i < 8, inCentre 8 i = false → i ∈ [0, 1, 2, 6, 7] := by decide +kernel
  have hmem := hbins i hi hcentre
  fin_cases hmem <;> rfl

end Specimen

/-- The centre is undefined in the one history and infinite in the other. -/
theorem refinement_ignores_centre_specimen :
    (Specimen.refinedTwiceHollow (0 / 0) 5).outcome
        = (Specimen.refinedTwiceHollow (1 / 0) (0 / 0)).outcome
      ∧ (Specimen.refinedTwiceHollow (0 / 0) 5).profile.power
        = (Specimen.refinedTwiceHollow (1 / 0) (0 / 0)).profile.power := by
  have hwide : Specimen.wideRules.geometry.wideband = true := rfl
  obtain ⟨-, -, hfirst⟩ := AgreeOutside.refine (p := Specimen.wideRules.freshProfile)
    (q := Specimen.wideRules.freshProfile) hwide ⟨rfl, .nil⟩
    (Specimen.agreeOutside_hollow 1 (0 / 0) (1 / 0)) false
  obtain ⟨houtcome, -, hpower, -⟩ := refinement_ignores_centre hwide hfirst
    (Specimen.agreeOutside_hollow 2 5 (0 / 0)) false
  unfold Specimen.refinedTwiceHollow
  exact ⟨houtcome, hpower⟩

end ProfileRules

end Denoise
