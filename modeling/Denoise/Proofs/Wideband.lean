import Denoise.Proofs.History

/-!
# The wideband estimate, bin by bin

The sums of all bins are carried along the history together.  Those of one bin depend on
its own magnitudes only (`spreads_eq`), so mean and deviation are a function of the bin,
and so is everything that the estimate makes of them (`widebandEstimate_eq`).
-/

namespace Denoise

namespace ProfileRules

/-! ## The magnitudes of a bin -/

/-- The magnitudes of a bin over the history, oldest first. -/
def column (history : List (List Float32)) (i : Nat) : List Float32 :=
  history.map fun row => row.getD i 0

/-- Mean and deviation of some magnitudes. -/
def spreadOf (xs : List Float32) : Spread :=
  (xs.foldl Moments.add ⟨0, 0⟩).spread xs.length

/-- Mean and deviation of a bin. -/
def binOf (history : List (List Float32)) (i : Nat) : Spread := spreadOf (column history i)

theorem length_column (history : List (List Float32)) (i : Nat) :
    (column history i).length = history.length := List.length_map _

/-- A sum by bin has in each bin the sum of that bin. -/
theorem getElem_foldl_zipWith {A : Type} (f : A → Float32 → A) {n i : Nat}
    (rows : List (List Float32)) (start : List A) (hstart : start.length = n)
    (hrows : ∀ row ∈ rows, row.length = n) (hi : i < n) :
    (rows.foldl (List.zipWith f) start)[i]? = start[i]?.map ((column rows i).foldl f) := by
  induction rows generalizing start with
  | nil => exact Option.map_id'.symm
  | cons row rows ih =>
    have hrow := hrows row List.mem_cons_self
    have hnext : (List.zipWith f start row).length = n := by
      rw [List.length_zipWith, hstart, hrow, Nat.min_self]
    have hentry : (List.zipWith f start row)[i]? = start[i]?.map (f · (row.getD i 0)) := by
      rw [List.getElem?_zipWith, List.getElem?_eq_getElem (hstart ▸ hi),
        List.getElem?_eq_getElem (hrow ▸ hi), List.getD_eq_getElem _ _ (hrow ▸ hi)]
      rfl
    rw [List.foldl_cons, ih _ hnext fun r hr => hrows r (List.mem_cons_of_mem _ hr), hentry,
      Option.map_map]
    rfl

/-- Carried along together, the sums give each bin the spread of its own magnitudes. -/
theorem spreads_eq {bins : Nat} {history : List (List Float32)}
    (h : ∀ row ∈ history, row.length = bins) :
    spreads bins history = (List.range bins).map (binOf history) := by
  refine List.ext_getElem? fun i => ?_
  rcases Nat.lt_or_ge i bins with hi | hi
  · rw [spreads, List.getElem?_map, getElem_foldl_zipWith _ _ _ List.length_replicate h hi,
      List.getElem?_replicate_of_lt hi, List.getElem?_map, List.getElem?_range hi]
    simp only [Option.map_some, binOf, spreadOf, length_column]
  · rw [List.getElem?_eq_none (by rwa [length_spreads h]),
      List.getElem?_eq_none (by rwa [List.length_map, List.length_range])]

/-! ## What is made of them -/

section Bins

variable (n : Nat) (f : Nat → Spread)

/-- The bins outside the centre. -/
def outer : List Nat := (List.range n).filter fun i => !inCentre n i

/-- The deviations of the bins outside the centre. -/
def outside : List Float32 :=
  (List.range n).filterMap fun i => if inCentre n i then none else some (f i).deviation

/-- The deviation that the threshold is a margin over. -/
def anchor : Float32 := percentile (sorted (outside n f)) trustedShare

/-- Whether a bin is trusted, when all bins are known. -/
def trusted (i : Nat) : Bool := trusts (trustedMargin * anchor n f) n (f i) i

/-- What a bin offers to the estimate. -/
def offered (i : Nat) : Option Float32 :=
  if trusted n f i then some (square (f i).mean) else none

variable {n} {f}

theorem mem_outer {i : Nat} : i ∈ outer n ↔ i < n ∧ inCentre n i = false := by
  rw [outer, List.mem_filter, List.mem_range, Bool.not_eq_true']

/-- The deviations that are ranked are those of the bins outside the centre, in order. -/
theorem outside_eq_map : outside n f = (outer n).map fun i => (f i).deviation := by
  rw [outer, ← List.filterMap_eq_map, ← List.filterMap_eq_filter, List.filterMap_filterMap, outside]
  refine List.filterMap_congr fun i _ => ?_
  cases hcentre : inCentre n i with
  | true => simp [Option.guard, hcentre]
  | false => simp [Option.guard, hcentre]

theorem zipIdx_map_range :
    ((List.range n).map f).zipIdx = (List.range n).map fun i => (f i, i) := by
  refine List.ext_getElem? fun i => ?_
  rw [List.getElem?_zipIdx, List.getElem?_map, List.getElem?_map]
  rcases Nat.lt_or_ge i n with hi | hi
  · rw [List.getElem?_range hi]
    simp
  · rw [List.getElem?_eq_none (by rwa [List.length_range])]
    rfl

theorem trustThreshold_map_range :
    trustThreshold ((List.range n).map f) = trustedMargin * anchor n f := by
  simp only [trustThreshold, anchor, outside, zipIdx_map_range, List.filterMap_map, List.length_map,
    List.length_range, Function.comp_def]

/-- A bin is trusted by its own spread and the threshold alone. -/
theorem trustedBins_map_range :
    trustedBins ((List.range n).map f) = (List.range n).map (trusted n f) := by
  simp only [trustedBins, zipIdx_map_range, trustThreshold_map_range, List.map_map,
    List.length_map, List.length_range]
  rfl

end Bins

/-- The estimate is filled in from what each bin offers, and no bin reads the frames of
another. -/
theorem widebandEstimate_eq {r : ProfileRules} {history : List (List Float32)}
    (h : ∀ row ∈ history, row.length = r.geometry.fftSize) :
    r.widebandEstimate history
      = fillFrom 0 ((List.range r.geometry.fftSize).map
          (offered r.geometry.fftSize (binOf history))) := by
  rw [widebandEstimate, fillUntrusted, spreads_eq h, trustedBins_map_range, List.map_map,
    List.zipWith_map, List.zipWith_self]
  rfl

/-- A bin is trusted if it is outside the centre, its mean is finite, and its deviation is
below the threshold.  Where the threshold is zero, a deviation of zero is trusted as
well. -/
theorem trusted_iff {n : Nat} {f : Nat → Spread} {i : Nat} :
    trusted n f i = true ↔ inCentre n i = false
      ∧ ((f i).deviation < trustedMargin * anchor n f
        ∨ (trustedMargin * anchor n f == 0) = true ∧ ((f i).deviation == 0) = true)
      ∧ (f i).mean.isFinite = true := by
  simp [trusted, trusts, and_assoc]

namespace Specimen

/-- At a wideband rate, with a history of two frames. -/
def wideRules : ProfileRules :=
  .of { Denoise.Specimen.geometry with wideband := true }
    { Denoise.Specimen.settings with widebandHistoryFrames := 2 }

end Specimen

end ProfileRules

end Denoise
