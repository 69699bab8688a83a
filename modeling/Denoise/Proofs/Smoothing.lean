import Denoise.Bins.Smoothing
import Denoise.Proofs.Exact
import Denoise.Proofs.Sizes

/-!
# What a moving average averages

One sum is carried from bin to bin, and bins enter it and leave it one at a time (`Slides`).  For
every bin it has come to the bins of the window of that bin, whatever the arithmetic is
(`movingAverage_slides`).  What the operations do to the sum is a matter of one step each, and
over exact arithmetic the sum is that of the window (`movingAverage_eq_mean`).
-/

namespace Denoise

/-! ## Windows -/

/-- The first bin under the window of bin `i`. -/
def windowStart (width i : Nat) : Nat := i - width / 2

/-- The first of `count` bins after the window of bin `i`. -/
def windowEnd (width count i : Nat) : Nat := min count (i + width - width / 2)

section Window

variable {width count i : Nat}

theorem windowEnd_le (width count i : Nat) : windowEnd width count i ≤ count := Nat.min_le_left _ _

/-- A window of at least one bin holds the bin that it is about. -/
theorem window_contains (hwidth : 1 ≤ width) (hi : i < count) :
    windowStart width i ≤ i ∧ i < windowEnd width count i := by
  rw [windowStart, windowEnd]
  omega

/-- No sum is carried on the way to a window that has more than twice the bins of it. -/
theorem le_two_windows (hwidth : 1 ≤ width) (hi : i < count) :
    min (width + 1) (windowEnd width count i)
      ≤ 2 * (windowEnd width count i - windowStart width i) := by
  rw [windowStart, windowEnd]
  omega

/-- The bins under the window of bin `i`. -/
def window {K : Type} (width : Nat) (bins : List K) (i : Nat) : List K :=
  (bins.take (windowEnd width bins.length i)).drop (windowStart width i)

theorem length_window {K : Type} (width : Nat) (bins : List K) (i : Nat) :
    (window width bins i).length = windowEnd width bins.length i - windowStart width i := by
  rw [window, List.length_drop, List.length_take, Nat.min_eq_left (windowEnd_le _ _ _)]

theorem take_windowEnd {K : Type} {bins : List K} (hwidth : 1 ≤ width) (hi : i < bins.length) :
    bins.take (windowEnd width bins.length i)
      = bins.take (windowStart width i) ++ window width bins i := by
  obtain ⟨hstart, hend⟩ := window_contains hwidth hi
  have hfront : (bins.take (windowEnd width bins.length i)).take (windowStart width i)
      = bins.take (windowStart width i) := by
    rw [List.take_take, Nat.min_eq_left (by omega)]
  rw [window, ← hfront, List.take_append_drop]

end Window

/-! ## The sum on its way -/

section Sum

variable {K W : Type} [Zero W] [Add W] [Sub W]

/-- A sum that the bins below `high` have entered and those below `low` have left, one at a
time.  There have never been more than `most` bins in it. -/
inductive Slides (p : Passage K W) (bins : List K) (most : Nat) : (low high : Nat) → W → Prop
  /-- The sum of no bins. -/
  | start : Slides p bins most 0 0 0
  /-- The next bin enters. -/
  | enter {low high : Nat} {sum : W} {x : K} : Slides p bins most low high sum →
      bins[high]? = some x → high < low + most → Slides p bins most low (high + 1) (sum + p.widen x)
  /-- The first bin in the sum leaves. -/
  | leave {low high : Nat} {sum : W} {x : K} : Slides p bins most low high sum →
      bins[low]? = some x → low < high → Slides p bins most (low + 1) high (sum - p.widen x)

variable {p : Passage K W} {bins : List K} {most low high : Nat} {sum : W}

namespace Slides

theorem low_le (h : Slides p bins most low high sum) : low ≤ high := by
  induction h with
  | start => exact Nat.le_refl 0
  | enter _ _ _ ih => exact Nat.le_succ_of_le ih
  | leave _ _ hlt _ => exact hlt

theorem high_le (h : Slides p bins most low high sum) : high ≤ bins.length := by
  induction h with
  | start => exact Nat.zero_le _
  | enter _ hx _ _ => exact (List.getElem?_eq_some_iff.1 hx).1
  | leave _ _ _ ih => exact ih

theorem high_le_add (h : Slides p bins most low high sum) : high ≤ low + most := by
  induction h with
  | start => exact Nat.zero_le _
  | enter _ _ hroom _ => exact hroom
  | leave _ _ _ ih => omega

/-- There are never more bins in the sum than have entered it. -/
theorem atMost (h : Slides p bins most low high sum) {fewer : Nat}
    (hfewer : min most high ≤ fewer) : Slides p bins fewer low high sum := by
  induction h with
  | start => exact .start
  | enter _ hx hroom ih => exact .enter (ih (by omega)) hx (by omega)
  | leave _ hx hlt ih => exact .leave (ih hfewer) hx hlt

/-- Bins enter the sum one after another. -/
theorem enterAll (h : Slides p bins most low high sum) (count : Nat)
    (hcount : high + count ≤ bins.length) (hroom : high + count ≤ low + most) :
    Slides p bins most low (high + count)
      (((bins.drop high).take count).foldl (fun sum x => sum + p.widen x) sum) := by
  induction count generalizing high sum with
  | zero => exact h
  | succ count ih =>
    have hhigh : high < bins.length := by omega
    rw [List.drop_eq_getElem_cons hhigh, List.take_succ_cons, List.foldl_cons,
      Nat.add_comm count 1, ← Nat.add_assoc]
    exact ih (h.enter (List.getElem?_eq_getElem hhigh) (by omega)) (by omega) (by omega)

/-- They leave it in the same order. -/
theorem leaveAll (h : Slides p bins most low high sum) (count : Nat) (hcount : low + count ≤ high) :
    Slides p bins most (low + count) high
      (((bins.drop low).take count).foldl (fun sum x => sum - p.widen x) sum) := by
  induction count generalizing low sum with
  | zero => exact h
  | succ count ih =>
    have hlow : low < bins.length := by
      have := h.high_le
      omega
    rw [List.drop_eq_getElem_cons hlow, List.take_succ_cons, List.foldl_cons,
      Nat.add_comm count 1, ← Nat.add_assoc]
    exact ih (h.leave (List.getElem?_eq_getElem hlow) (by omega)) (by omega)

end Slides

/-- A running sum with the bins that enter and leave it next. -/
structure RunningSum.Placed (p : Passage K W) (bins : List K) (most : Nat) (r : RunningSum K W) :
    Prop where
  slides : Slides p bins most r.low r.high r.sum
  leaving : r.leaving = bins.drop r.low
  entering : r.entering = bins.drop r.high

namespace RunningSum.Placed

variable {r : RunningSum K W}

theorem start (p : Passage K W) (bins : List K) (most : Nat) :
    Placed p bins most (.start bins) := ⟨.start, rfl, rfl⟩

/-- The bounds move forward, the upper one first. -/
theorem moveTo (h : r.Placed p bins most) (hlow : r.low ≤ low) (hhigh : r.high ≤ high)
    (hle : low ≤ high) (hlength : high ≤ bins.length) (hroom : high ≤ r.low + most) :
    (r.moveTo p low high).Placed p bins most := by
  have hentered := h.slides.enterAll (high - r.high) (by omega) (by omega)
  rw [Nat.add_sub_cancel' hhigh] at hentered
  have hleft := hentered.leaveAll (low - r.low) (by omega)
  rw [Nat.add_sub_cancel' hlow] at hleft
  constructor
  · simp only [RunningSum.moveTo, h.leaving, h.entering]
    exact hleft
  · simp only [RunningSum.moveTo, h.leaving, List.drop_drop, Nat.add_sub_cancel' hlow]
  · simp only [RunningSum.moveTo, h.entering, List.drop_drop, Nat.add_sub_cancel' hhigh]

end RunningSum.Placed

variable [Div W] [OfScientific W]

/-- The sum has come to the window of each bin in turn. -/
theorem averagesAt_slides (before after first k : Nat) {count : Nat} {r : RunningSum K W}
    (h : r.Placed p bins (before + after + 2)) (hlow : r.low ≤ first - before)
    (hfirst : first ≤ r.low + before + 1) (hhigh : r.high ≤ min (first + after + 1) bins.length)
    (hk : k < count) (hcount : first + count ≤ bins.length) :
    ∃ sum, Slides p bins (before + after + 2) (first + k - before)
        (min (first + k + after + 1) bins.length) sum
      ∧ (averagesAt p before after bins.length r (List.range' first count))[k]?
        = some (p.narrow (sum / ofCount (min (first + k + after + 1) bins.length
          - (first + k - before)))) := by
  obtain ⟨count, rfl⟩ := Nat.exists_eq_add_one_of_ne_zero (Nat.ne_zero_of_lt hk)
  induction k generalizing first count r with
  | zero =>
    have hnext := h.moveTo hlow hhigh (by omega) (Nat.min_le_right _ _) (by omega)
    exact ⟨_, hnext.slides, rfl⟩
  | succ k ih =>
    have hnext := h.moveTo hlow hhigh (by omega) (Nat.min_le_right _ _) (by omega)
    obtain ⟨count, rfl⟩ := Nat.exists_eq_add_one_of_ne_zero (by omega : count ≠ 0)
    have hlater := ih (first + 1) hnext (by show first - before ≤ first + 1 - before; omega)
      (by show first + 1 ≤ first - before + before + 1; omega)
      (by show min (first + after + 1) bins.length ≤ _; omega) count (by omega) (by omega)
    rw [(by omega : first + 1 + k = first + (k + 1))] at hlater
    exact hlater

/-- The average at each bin is over a sum that has come to its window. -/
theorem movingAverage_slides (p : Passage K W) {width i : Nat} (hwidth : 2 ≤ width)
    (hi : i < bins.length) :
    ∃ sum, Slides p bins (width + 1) (windowStart width i) (windowEnd width bins.length i) sum
      ∧ (movingAverage p width bins)[i]?
        = some (p.narrow (sum / ofCount (window width bins i).length)) := by
  have hmost : width / 2 + (width - width / 2 - 1) + 2 = width + 1 := by omega
  have hend : min (0 + i + (width - width / 2 - 1) + 1) bins.length
      = windowEnd width bins.length i := by
    rw [windowEnd]
    omega
  have hslides := averagesAt_slides (width / 2) (width - width / 2 - 1) 0 i
    (.start p bins _) (Nat.zero_le _) (Nat.zero_le _) (Nat.zero_le _) hi
    (Nat.le_of_eq (Nat.zero_add _))
  rw [hmost, hend, Nat.zero_add, ← List.range_eq_range'] at hslides
  rw [movingAverage, if_neg (by omega), length_window]
  exact hslides

end Sum

/-! ## Exact arithmetic -/

section Exact

variable {K : Type}

/-- One number type for both, and nothing is rounded. -/
def Passage.exact : Passage K K := ⟨id, id⟩

/-- What has left the sum and what is in it make up what has entered it. -/
theorem Slides.sum_eq [Field K] {bins : List K} {most low high : Nat} {sum : K}
    (h : Slides .exact bins most low high sum) :
    (bins.take low).sum + sum = (bins.take high).sum := by
  induction h with
  | start => simp
  | @enter low high sum x _ hx _ ih =>
    rw [List.take_add_one, hx, Option.toList_some, List.sum_append, List.sum_singleton, ← ih,
      add_assoc]
    rfl
  | @leave low high sum x _ hx _ ih =>
    rw [List.take_add_one, hx, Option.toList_some, List.sum_append, List.sum_singleton, ← ih,
      add_assoc]
    exact congrArg _ (add_sub_cancel x sum)

variable [Field K] [LinearOrder K] [IsStrictOrderedRing K]

theorem mean_between {xs : List K} {low high : K} (hne : xs ≠ []) (hlow : ∀ x ∈ xs, low ≤ x)
    (hhigh : ∀ x ∈ xs, x ≤ high) : low ≤ xs.sum / xs.length ∧ xs.sum / xs.length ≤ high := by
  have hpos : (0 : K) < xs.length := by exact_mod_cast List.length_pos_iff.2 hne
  have hleast := xs.card_nsmul_le_sum low hlow
  have hgreatest := xs.sum_le_card_nsmul high hhigh
  rw [nsmul_eq_mul, mul_comm] at hleast hgreatest
  exact ⟨(le_div_iff₀ hpos).2 hleast, (div_le_iff₀ hpos).2 hgreatest⟩

/-- Over exact arithmetic each entry of a moving average is the mean of its window, which is not
empty, and lies between the least and the greatest bin of it.  Windows of no bin or of one bin
leave the bins as they are. -/
theorem movingAverage_eq_mean (width : Nat) (bins : List K) :
    (movingAverage .exact width bins).length = bins.length
      ∧ (width ≤ 1 → movingAverage .exact width bins = bins)
      ∧ (2 ≤ width → ∀ i < bins.length,
        window width bins i ≠ []
          ∧ (movingAverage .exact width bins)[i]?
            = some ((window width bins i).sum / (window width bins i).length)
          ∧ ∃ least ∈ window width bins i, ∃ greatest ∈ window width bins i,
            (∀ x ∈ window width bins i, least ≤ x ∧ x ≤ greatest)
              ∧ least ≤ (window width bins i).sum / (window width bins i).length
              ∧ (window width bins i).sum / (window width bins i).length ≤ greatest) := by
  refine ⟨length_movingAverage _ _ _, fun hsmall => if_pos hsmall, fun hwidth i hi => ?_⟩
  obtain ⟨hstart, hend⟩ := window_contains (by omega : 1 ≤ width) hi
  have hne : window width bins i ≠ [] := by
    rw [← List.length_pos_iff, length_window]
    omega
  obtain ⟨sum, hslides, haverage⟩ := movingAverage_slides .exact hwidth hi
  have hsum : sum = (window width bins i).sum := by
    have hparts := hslides.sum_eq
    rw [take_windowEnd (by omega) hi, List.sum_append] at hparts
    exact add_left_cancel hparts
  obtain ⟨least, hleast, hbelow⟩ := (window width bins i).toFinset.exists_min_image id
    (List.toFinset_nonempty_iff _ |>.2 hne)
  obtain ⟨greatest, hgreatest, habove⟩ := (window width bins i).toFinset.exists_max_image id
    (List.toFinset_nonempty_iff _ |>.2 hne)
  simp only [List.mem_toFinset, id] at hleast hbelow hgreatest habove
  refine ⟨hne, ?_, least, hleast, greatest, hgreatest, fun x hx => ⟨hbelow x hx, habove x hx⟩,
    mean_between hne hbelow habove⟩
  rw [haverage, hsum, ofCount_natCast]
  rfl

/-- Three bins, and windows of four. -/
theorem movingAverage_eq_mean_specimen :
    window 4 [3, 0, (9 : ℚ)] 2 = [3, 0, 9]
      ∧ (movingAverage .exact 4 [3, 0, (9 : ℚ)])[2]? = some 4 := by
  have hwindow : window 4 [3, 0, (9 : ℚ)] 2 = [3, 0, 9] := rfl
  obtain ⟨-, -, hmeans⟩ := movingAverage_eq_mean 4 [3, 0, (9 : ℚ)]
  obtain ⟨-, hmean, -⟩ := hmeans (by decide) 2 (by decide)
  rw [hwindow] at hmean
  refine ⟨hwindow, hmean.trans ?_⟩
  norm_num

end Exact

end Denoise
