import Denoise.Proofs.Bounds
import Denoise.Proofs.History

/-!
# The spread of an audio profile

At audio rate an estimate is adopted if the range of its bins is smaller than the tracked one.
What is tracked afterwards is the range of the powers that are adopted.  Raising a power to the
floor brings no two of them farther apart, and rounded subtraction is monotone, so the tracked
range shrinks, too (`refinement_tightens`).

Bins that are not numbers take no part in the comparison (`range_numbers`), but they are adopted
as the floor.  So this is shown of estimates without such bins only.
-/

namespace Denoise

open Float.Model UnpackedFloat Rounding Values

namespace Singles

variable {a b c : Float32}

/-- What is not a number never takes the place of one. -/
theorem lesser_of_isNaN_right (ha : a.isNaN = false) (hb : b.isNaN = true) : lesser a b = a := by
  have hlt : ¬b < a := fun h => by
    rw [(isNaN_of_lt h).1] at hb
    cases hb
  rw [lesser, beq_self_eq_not_isNaN, ha, if_neg]
  rintro (h | h)
  · exact hlt h
  · cases h

theorem greater_of_isNaN_right (ha : a.isNaN = false) (hb : b.isNaN = true) : greater a b = a := by
  have hlt : ¬a < b := fun h => by
    rw [(isNaN_of_lt h).2] at hb
    cases hb
  rw [greater, beq_self_eq_not_isNaN, ha, if_neg]
  rintro (h | h)
  · exact hlt h
  · cases h

/-- Such a choice is made among the numbers of a list only. -/
theorem foldl_numbers {choose : Float32 → Float32 → Float32}
    (one : ∀ a b, choose a b = a ∨ choose a b = b)
    (skip : ∀ a b, a.isNaN = false → b.isNaN = true → choose a b = a)
    (xs : List Float32) {start : Float32} (hstart : start.isNaN = false) :
    xs.foldl choose start = (xs.filter fun x => x.isNaN == false).foldl choose start := by
  induction xs generalizing start with
  | nil => rfl
  | cons x xs ih =>
    cases hx : x.isNaN with
    | true =>
      rw [List.filter_cons_of_neg (by rw [hx]; decide), List.foldl_cons, skip start x hstart hx]
      exact ih hstart
    | false =>
      rw [List.filter_cons_of_pos (by rw [hx]; decide), List.foldl_cons, List.foldl_cons]
      refine ih ?_
      rcases one start x with h | h <;> rw [h] <;> assumption

/-- What is less than anything is not infinite. -/
theorem unpack_ne_infinity (h : a < b) : a.toModel.unpack ≠ .infinity .positive := by
  intro heq
  obtain ⟨ha, hb⟩ := isNaN_of_lt h
  have hlt := (lt_iff_place ha hb).1 h
  rw [placeOf, heq] at hlt
  exact absurd hlt (place_between hb).2.not_gt

theorem sub_eq_infinity {spec : Format} {u w : UnpackedFloat}
    (hu : u.isFinite = true ∨ u = .infinity .positive)
    (hw : w.isFinite = true ∨ w = .infinity .negative)
    (h : ¬(u.isFinite = true ∧ w.isFinite = true)) :
    UnpackedFloat.sub spec u w = .infinity .positive := by
  rcases hu with hu | rfl
  · obtain rfl := hw.resolve_left fun hw => h ⟨hu, hw⟩
    cases u with
    | notANumber => cases hu
    | infinity => cases hu
    | zero => rfl
    | finite => rfl
  · rcases hw with hw | rfl
    · cases w with
      | notANumber => cases hw
      | infinity => cases hw
      | zero => rfl
      | finite => rfl
    · rfl

theorem unpack_of_nonneg (h : 0 ≤ a) :
    a.toModel.unpack.isFinite = true ∨ a.toModel.unpack = .infinity .positive := by
  have hsign := unsigned_iff.2 (.inr h)
  have hnumber : a.toModel.unpack.isNaN = false := (isNaN_of_le h).2
  generalize a.toModel.unpack = u at *
  cases hsign with
  | notANumber => cases hnumber
  | infinity => exact .inr rfl
  | fits fits => exact .inl fits.isFinite

theorem unpack_of_le_greatestSingle (h : a ≤ greatestSingle) :
    a.toModel.unpack.isFinite = true ∨ a.toModel.unpack = .infinity .negative := by
  obtain ⟨hnumber, hgreatest⟩ := isNaN_of_le h
  have hle := (le_iff_place hnumber hgreatest).1 h
  have hlt : placeOf a < place (.infinity .positive) := by
    refine hle.trans_lt ?_
    rw [placeOf, unpack_greatestSingle]
    exact Prod.Lex.toLex_lt_toLex.2 (.inl (show (1 : ℤ) < 2 by decide))
  change a.toModel.unpack.isNaN = false at hnumber
  rw [placeOf] at hlt
  generalize a.toModel.unpack = u at *
  cases u with
  | notANumber => cases hnumber
  | infinity s =>
    cases s with
    | positive => exact absurd hlt (lt_irrefl _)
    | negative => exact .inr rfl
  | zero => exact .inl rfl
  | finite => exact .inl rfl

/-- A number that is not negative, less a number that is not infinite: if the difference is
less than anything, both are finite. -/
theorem isFinite_of_sub_lt (ha : 0 ≤ a) (hb : b ≤ greatestSingle) (h : a - b < c) :
    a.isFinite = true ∧ b.isFinite = true := by
  by_contra hinfinite
  refine unpack_ne_infinity h ?_
  show stored .binary32 (UnpackedFloat.sub .binary32 a.toModel.unpack b.toModel.unpack)
      = .infinity .positive
  rw [sub_eq_infinity (unpack_of_nonneg ha) (unpack_of_le_greatestSingle hb) hinfinite,
    stored_infinity]

theorem valueOf_greater (ha : a.isFinite = true) (hb : b.isFinite = true) :
    valueOf (greater a b) = max (valueOf a) (valueOf b) := by
  have hle := le_greater (isNaN_of_isFinite ha) (isNaN_of_isFinite hb)
  have hfinite : (greater a b).isFinite = true := by
    rcases greater_eq_or a b with h | h <;> rw [h] <;> assumption
  rw [le_iff_value ha hfinite, le_iff_value hb hfinite] at hle
  refine le_antisymm ?_ (max_le hle.1 hle.2)
  rcases greater_eq_or a b with h | h <;> rw [h]
  · exact le_max_left _ _
  · exact le_max_right _ _

/-- Rounded subtraction is monotone. -/
theorem sub_le_sub_of_value {d : Float32} (ha : a.isFinite = true) (hb : b.isFinite = true)
    (hc : c.isFinite = true) (hd : d.isFinite = true)
    (hle : valueOf a - valueOf b ≤ valueOf c - valueOf d) : a - b ≤ c - d := by
  have hleft := yields_sub ha hb
  have hright := yields_sub hc hd
  exact (le_iff_place hleft.isNaN hright.isNaN).2 (place_le_of_yields hleft hright hle)

end Singles

namespace Profile

open Singles

/-- The range of the bins that are numbers. -/
theorem range_numbers (xs : List Float32) :
    0 ≤ greatestOf xs ∧ leastOf xs ≤ greatestSingle
      ∧ ∀ x ∈ xs, x.isNaN = false → leastOf xs ≤ x ∧ x ≤ greatestOf xs := by
  have hzero : (0 : Float32).isNaN = false := by decide
  have hgreatest : greatestSingle.isNaN = false := by decide
  have hnumbers : ∀ x ∈ xs.filter fun x => x.isNaN == false, x.isNaN = false := by
    intro x hx
    exact beq_iff_eq.1 (List.mem_filter.1 hx).2
  obtain ⟨-, hlow, hbelow⟩ := foldl_choose (R := (· ≤ ·)) lesser_eq_or
    (fun _ _ => lesser_le) (fun _ => le_refl) (fun _ _ _ => le_trans) hnumbers hgreatest
  obtain ⟨-, hhigh, habove⟩ := foldl_choose (R := fun a b => b ≤ a) greater_eq_or
    (fun _ _ => le_greater) (fun _ => le_refl)
    (fun _ _ _ ha hb hc hab hbc => le_trans hc hb ha hbc hab) hnumbers hzero
  rw [greatestOf, leastOf, foldl_numbers greater_eq_or (fun _ _ => greater_of_isNaN_right) xs hzero,
    foldl_numbers lesser_eq_or (fun _ _ => lesser_of_isNaN_right) xs hgreatest]
  refine ⟨hhigh, hlow, fun x hx hnumber => ?_⟩
  have hmem : x ∈ xs.filter fun x => x.isNaN == false :=
    List.mem_filter.2 ⟨hx, by rw [hnumber]; rfl⟩
  exact ⟨hbelow x hmem, habove x hmem⟩

/-- An estimate whose range is less than anything has no infinite bin. -/
theorem isFinite_of_range_lt {estimate : List Float32} {bound : Float32}
    (h : greatestOf estimate - leastOf estimate < bound) :
    (greatestOf estimate).isFinite = true ∧ (leastOf estimate).isFinite = true
      ∧ ∀ x ∈ estimate, x.isNaN = false → x.isFinite = true := by
  obtain ⟨hhigh, hlow, hbetween⟩ := range_numbers estimate
  obtain ⟨hfinite, hfinite'⟩ := isFinite_of_sub_lt hhigh hlow h
  refine ⟨hfinite, hfinite', fun x hx hnumber => ?_⟩
  exact isFinite_of_between hfinite' hfinite (hbetween x hx hnumber).1 (hbetween x hx hnumber).2

theorem usable_of_isNaN {x : Float32} (h : x.isNaN = true) : usable x = powerFloor := by
  rw [usable, if_neg]
  intro hfinite
  rw [isNaN_of_isFinite hfinite] at h
  cases h

theorem usable_of_isFinite {x : Float32} (h : x.isFinite = true) :
    usable x = greater x powerFloor := if_pos h

/-- The powers that are adopted span no wider range than the numbers they are made from. -/
theorem sub_usable_le {low high x y : Float32} (hlow : low.isFinite = true)
    (hhigh : high.isFinite = true) (hx : x.isFinite = true) (hy : y.isFinite = true)
    (hlx : low ≤ x) (hxh : x ≤ high) (hly : low ≤ y) :
    usable x - usable y ≤ high - low := by
  have hfloor : powerFloor.isFinite = true := by decide
  refine sub_le_sub_of_value (usable_usable x).1 (usable_usable y).1 hhigh hlow ?_
  rw [usable_of_isFinite hx, usable_of_isFinite hy, valueOf_greater hx hfloor,
    valueOf_greater hy hfloor]
  rw [le_iff_value hlow hx] at hlx
  rw [le_iff_value hx hhigh] at hxh
  rw [le_iff_value hlow hy] at hly
  have hleft := le_max_left (valueOf y) (valueOf powerFloor)
  have hright := le_max_right (valueOf y) (valueOf powerFloor)
  rcases max_choice (valueOf x) (valueOf powerFloor) with h | h
  · rw [h]
    linarith
  · rw [h]
    linarith

end Profile

namespace ProfileRules

open Profile

variable {r : ProfileRules} {adopted : ℕ} {last : List Float32} {p : Profile}

theorem Refines.tightened {magnitudes : List Float32} {held : Bool} {refined : Refined}
    (h : r.Refines p magnitudes held refined) (haudio : r.geometry.wideband = false)
    (hadopted : refined.outcome = .adopted) :
    refined.profile = (p.record magnitudes).adopt (r.audioEstimate (p.record magnitudes).history)
      ∧ greatestOf (r.audioEstimate (p.record magnitudes).history)
          - leastOf (r.audioEstimate (p.record magnitudes).history) < p.floorHigh - p.floorLow := by
  cases h with
  | accumulating => cases hadopted
  | held => cases hadopted
  | tighter _ _ _ hestimate htighter =>
    subst hestimate
    exact ⟨rfl, htighter⟩
  | kept => cases hadopted
  | trusted _ _ hwide =>
    rw [haudio] at hwide
    cases hwide
  | degenerate => cases hadopted

/-- What an adopted estimate at audio rate means for the profile.  None of its bins is infinite,
and a bin that is not a number becomes the floor.  If all bins are numbers, the tracked range
becomes smaller. -/
theorem refinement_tightens (run : r.Run adopted last p) (haudio : r.geometry.wideband = false)
    {magnitudes : List Float32} (hmagnitudes : magnitudes.length = r.geometry.fftSize) (held : Bool)
    (hadopted : (r.refine p magnitudes held).outcome = .adopted) :
    let estimate := r.audioEstimate (p.record magnitudes).history
    let q := (r.refine p magnitudes held).profile
    (∀ x ∈ estimate, x.isNaN = true ∨ x.isFinite = true)
      ∧ q.power = estimate.map (fun x => if x.isNaN then powerFloor else greater x powerFloor)
      ∧ ((∀ x ∈ estimate, x.isNaN = false) →
        q.floorHigh - q.floorLow < p.floorHigh - p.floorLow) := by
  intro estimate q
  have hsettled := (run.settled.refine hmagnitudes held).1 hadopted
  obtain ⟨hq, htighter⟩ : q = (p.record magnitudes).adopt estimate
      ∧ greatestOf estimate - leastOf estimate < p.floorHigh - p.floorLow :=
    (r.refines p magnitudes held).tightened haudio hadopted
  obtain ⟨hhigh, hlow, hfinite⟩ := isFinite_of_range_lt htighter
  obtain ⟨-, -, hbetween⟩ := range_numbers estimate
  have hpower : q.power = estimate.map usable := by
    rw [hq]
    rfl
  refine ⟨fun x hx => ?_, ?_, fun hnumbers => ?_⟩
  · cases hnumber : x.isNaN with
    | true => exact .inl rfl
    | false => exact .inr (hfinite x hx hnumber)
  · rw [hpower]
    refine List.map_congr_left fun x hx => ?_
    split
    next hnumber => exact usable_of_isNaN hnumber
    next hnumber => exact usable_of_isFinite (hfinite x hx (Bool.not_eq_true _ ▸ hnumber))
  · -- the new bounds are two of the adopted powers
    have hleast : q.floorLow ∈ q.power := hsettled.low.1
    have hgreatest : q.floorHigh ∈ q.power := hsettled.high.1
    rw [hpower] at hleast hgreatest
    obtain ⟨y, hy, hlow'⟩ := List.mem_map.1 hleast
    obtain ⟨x, hx, hhigh'⟩ := List.mem_map.1 hgreatest
    rw [← hlow', ← hhigh']
    refine Singles.lt_of_le_of_lt (sub_usable_le hlow hhigh (hfinite x hx (hnumbers x hx))
      (hfinite y hy (hnumbers y hy)) ?_ ?_ ?_) htighter
    · exact (hbetween x hx (hnumbers x hx)).1
    · exact (hbetween x hx (hnumbers x hx)).2
    · exact (hbetween y hy (hnumbers y hy)).1

namespace Specimen

/-- A profile of one bin above the others. -/
def uneven : Profile :=
  rules.sample (fun _ => 2 :: List.replicate 7 1) [0, 0, 0, 0] rules.freshProfile

/-- That profile after a frame whose bins are equal, of the two that refinement waits for. -/
def waiting : Profile := (rules.refine uneven (level 1) false).profile

theorem run_waiting : rules.Run 1 uneven.power waiting :=
  .refine (level 1) false rfl (by decide +kernel)
    (.sample (fun _ => 2 :: List.replicate 7 1) [0, 0, 0, 0] (fun _ _ => rfl) .fresh)

end Specimen

/-- After a second such frame their level is adopted. -/
theorem refinement_tightens_specimen :
    let q := (Specimen.rules.refine Specimen.waiting (Specimen.level 1) false).profile
    Specimen.rules.geometry.wideband = false
      ∧ (Specimen.rules.refine Specimen.waiting (Specimen.level 1) false).outcome = .adopted
      ∧ (∀ x ∈ Specimen.rules.audioEstimate
          (Specimen.waiting.record (Specimen.level 1)).history, x.isNaN = false)
      ∧ q.floorHigh - q.floorLow < Specimen.waiting.floorHigh - Specimen.waiting.floorLow := by
  have hadopted : (Specimen.rules.refine Specimen.waiting (Specimen.level 1) false).outcome
      = .adopted := by decide +kernel
  have hnumbers : ∀ x ∈ Specimen.rules.audioEstimate
      (Specimen.waiting.record (Specimen.level 1)).history, x.isNaN = false := by decide +kernel
  have hsize : (Specimen.level 1).length = Specimen.rules.geometry.fftSize := rfl
  obtain ⟨-, -, htighter⟩ := refinement_tightens Specimen.run_waiting rfl hsize false hadopted
  exact ⟨rfl, hadopted, hnumbers, htighter hnumbers⟩

end ProfileRules

end Denoise
