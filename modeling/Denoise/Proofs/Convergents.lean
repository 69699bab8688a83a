import Denoise.ExponentialIntegral
import Denoise.Proofs.Exact

/-!
# The continued fraction of the exponential integral

The fraction `1 / (x + 1 - 1² / (x + 3 - 2² / (x + 5 - …)))`, cut off after some denominator, has
two evaluations.  Backwards, from the last denominator to the first (`tail`, `convergent`), every
partial result is easy to bound, and so the value is below `1 / x` (`convergent_lt`).  Forwards,
which is how it is evaluated (`Fraction.after`), each step takes one more denominator into account
by a factor on the value.  The ratio of the last two denominators grows with the steps, and that
of the last two numerators stays above it (`Fraction.Growing`), so nothing is divided by zero, and
each factor is above one.

The forward evaluation starts from the number `firstInverse`, where the fraction has zero.  Its
value is the convergent but for that (`Fraction.h_after`), and below `1 / x`, too.
-/

namespace Denoise.ExponentialIntegral

/-! ## All steps of the evaluation -/

section Steps

variable {K : Type} [OfScientific K] [Add K] [Mul K] [Div K] [Neg K]

/-- The state after some steps, whether or not they have settled. -/
def Fraction.after (x : K) : Nat → Fraction K
  | 0 => .start x
  | i + 1 => (after x i).step (i + 1)

theorem Fraction.step_c (f : Fraction K) (i : Nat) :
    (f.step i).c = (f.step i).b + numerator i / f.c := rfl

theorem Fraction.step_ratio (f : Fraction K) (i : Nat) :
    (f.step i).ratio = (f.step i).c * (f.step i).d := rfl

theorem Fraction.step_h (f : Fraction K) (i : Nat) : (f.step i).h = f.h * (f.step i).ratio := rfl

/-- A run that may take a step takes one at least, and ends with the state after its last one. -/
theorem Fraction.run_after (settled : K → Bool) (x : K) (i : Nat) {turns : Nat}
    (hturns : turns ≠ 0) :
    ∃ last, i < last ∧ last ≤ i + turns
      ∧ run settled turns (i + 1) (after x i) = after x last := by
  induction turns generalizing i with
  | zero => exact absurd rfl hturns
  | succ turns ih =>
    rw [run]
    split
    next => exact ⟨i + 1, by omega, by omega, rfl⟩
    next =>
      cases turns with
      | zero => exact ⟨i + 1, by omega, by omega, rfl⟩
      | succ turns =>
        obtain ⟨last, hlow, hhigh, hrun⟩ := ih (i + 1) (Nat.succ_ne_zero turns)
        exact ⟨last, by omega, by omega, hrun⟩

end Steps

variable {K : Type} [Field K] [LinearOrder K] [IsStrictOrderedRing K]

/-! ## The numbers of the fraction -/

/-- The partial denominator of step `i`. -/
def denominator (x : K) (i : ℕ) : K := x + (2 * i + 1 : ℕ)

/-- The inverse of the first ratio of numerators, which is zero in the fraction itself. -/
def firstInverse : K := 1e-300

theorem numerator_eq (i : ℕ) : (numerator i : K) = -(i : K) ^ 2 := by
  rw [numerator, ofCount_natCast, Nat.cast_mul, sq]

theorem firstInverse_eq : (firstInverse : K) = (10 ^ 300)⁻¹ := by
  rw [firstInverse, NNRatCast.ofScientific_eq_ite, if_pos rfl]
  norm_num

theorem firstInverse_pos : 0 < (firstInverse : K) := by
  rw [firstInverse_eq]
  positivity

/-- The first inverse is too small to matter for any argument below a thousand. -/
theorem firstInverse_mul_lt {y : K} (h : y < 1000) : firstInverse * y < 1 := by
  rw [firstInverse_eq, inv_mul_lt_iff₀ (by positivity), mul_one]
  calc y < 1000 := h
    _ = 10 ^ 3 := by norm_num
    _ ≤ 10 ^ 300 := pow_le_pow_right₀ (by norm_num) (by norm_num)

namespace Fraction

variable {x : K} {i : ℕ} {f : Fraction K}

/-! ## One step in exact arithmetic -/

theorem start_eq (x : K) :
    start x = ⟨x + 1, 1 / firstInverse, 1 / (x + 1), 1 / (x + 1), 1⟩ := by
  simp only [start, firstInverse]
  norm_num

theorem step_b (f : Fraction K) (i : ℕ) : (f.step i).b = f.b + 2 := by
  rw [step]
  norm_num

theorem step_d (f : Fraction K) (i : ℕ) :
    (f.step i).d = 1 / (numerator i * f.d + (f.step i).b) := by
  simp only [step]
  norm_num

/-! ## Growing ratios -/

/-- A state after step `i`: the ratio `1 / d` of the last two denominators is `x + 1 + i` at least,
the ratio `c` of the last two numerators is above it, and the value is not below the first one. -/
structure Growing (x : K) (i : ℕ) (f : Fraction K) : Prop where
  b_eq : f.b = denominator x i
  d_pos : 0 < f.d
  d_le : (x + 1 + i) * f.d ≤ 1
  one_lt : 1 < f.c * f.d
  h_ge : 1 / (x + 1) ≤ f.h

namespace Growing

theorem c_pos (h : f.Growing x i) : 0 < f.c :=
  pos_of_mul_pos_left (one_pos.trans h.one_lt) h.d_pos.le

/-- The denominators of a run are those of the fraction. -/
theorem step_b_eq (h : f.Growing x i) : (f.step (i + 1)).b = denominator x (i + 1) := by
  rw [step_b, h.b_eq, denominator, denominator]
  push_cast
  ring

/-- The divisor of a step is the next ratio of denominators. -/
theorem divisor_ge (h : f.Growing x i) (hx : 0 < x) :
    x + 1 + (i + 1 : ℕ) ≤ numerator (i + 1) * f.d + (f.step (i + 1)).b := by
  -- The denominator has `2 * (i + 1)` beyond `x + 1`, and no more than half of it is taken off.
  have hscaled : ((i + 1 : ℕ) : K) * ((x + 1 + i) * f.d) ≤ (i + 1 : ℕ) :=
    mul_le_of_le_one_right (Nat.cast_nonneg _) h.d_le
  have hextra : 0 ≤ ((i + 1 : ℕ) : K) * x * f.d := by
    have := h.d_pos
    positivity
  rw [h.step_b_eq, numerator_eq, denominator]
  push_cast at hscaled hextra ⊢
  linarith

/-- No step divides by zero, nor by anything below it. -/
theorem divisor_pos (h : f.Growing x i) (hx : 0 < x) :
    0 < numerator (i + 1) * f.d + (f.step (i + 1)).b :=
  lt_of_lt_of_le (by positivity) (h.divisor_ge hx)

/-- The next ratio of numerators is above that of denominators: what is taken off is less. -/
theorem divisor_lt (h : f.Growing x i) :
    numerator (i + 1) * f.d + (f.step (i + 1)).b < (f.step (i + 1)).c := by
  have hinverse : 1 / f.c < f.d := (div_lt_iff₀' h.c_pos).2 h.one_lt
  have hsquare : (0 : K) < ((i + 1 : ℕ) : K) ^ 2 := by positivity
  have hless := mul_lt_mul_of_pos_left hinverse hsquare
  rw [step_c, numerator_eq, neg_div, ← mul_one_div]
  linarith

/-- Each factor on the value is above one. -/
theorem one_lt_ratio (h : f.Growing x i) (hx : 0 < x) : 1 < (f.step (i + 1)).ratio := by
  rw [step_ratio, step_d, mul_one_div]
  exact (one_lt_div (h.divisor_pos hx)).2 h.divisor_lt

/-- The value grows in every step. -/
theorem h_lt_step (h : f.Growing x i) (hx : 0 < x) : f.h < (f.step (i + 1)).h :=
  lt_mul_of_one_lt_right (lt_of_lt_of_le (by positivity) h.h_ge) (h.one_lt_ratio hx)

/-- The run begins within the invariant, if the first inverse is small enough. -/
theorem start (hx : 0 < x) (hfirst : firstInverse * (x + 1) < 1) :
    (Fraction.start x).Growing x 0 := by
  rw [start_eq]
  refine ⟨?_, by positivity, ?_, ?_, le_refl _⟩
  · simp [denominator]
  · rw [Nat.cast_zero, add_zero, mul_one_div_cancel (by positivity)]
  · rw [one_div_mul_one_div, one_lt_div (mul_pos firstInverse_pos (by positivity))]
    exact hfirst

/-- Every step keeps it. -/
theorem step (h : f.Growing x i) (hx : 0 < x) : (f.step (i + 1)).Growing x (i + 1) where
  b_eq := h.step_b_eq
  d_pos := by
    rw [step_d]
    exact one_div_pos.2 (h.divisor_pos hx)
  d_le := by
    rw [step_d, mul_one_div]
    exact (div_le_one (h.divisor_pos hx)).2 (h.divisor_ge hx)
  one_lt := h.one_lt_ratio hx
  h_ge := h.h_ge.trans (h.h_lt_step hx).le

end Growing

/-- So it holds after any number of steps. -/
theorem growing_after (hx : 0 < x) (hfirst : firstInverse * (x + 1) < 1) (i : ℕ) :
    (after x i).Growing x i := by
  induction i with
  | zero => exact .start hx hfirst
  | succ i ih => exact ih.step hx

end Fraction

/-! ## The evaluation from the end -/

/-- What the fraction has from denominator `i` on, cut off `n` denominators later. -/
def tail (x : K) : (i n : ℕ) → K
  | i, 0 => denominator x i
  | i, n + 1 => denominator x i + numerator (i + 1) / tail x (i + 1) n

/-- The fraction cut off after denominator `n`. -/
def convergent (x : K) (n : ℕ) : K := 1 / tail x 0 n

variable {x : K}

/-- A tail of the fraction is above its argument by more than its depth. -/
theorem add_lt_tail (hx : 0 < x) (i n : ℕ) : x + i < tail x i n := by
  induction n generalizing i with
  | zero =>
    rw [tail, denominator]
    exact add_lt_add_right (Nat.cast_lt.2 (by omega)) x
  | succ n ih =>
    have hnext := ih (i + 1)
    have hpos : 0 < tail x (i + 1) n := lt_trans (by positivity) hnext
    -- The next tail is above `i + 1`, so of the `2 * i + 1` less than `i + 1` is taken off.
    have htaken : ((i + 1 : ℕ) : K) ^ 2 / tail x (i + 1) n < (i + 1 : ℕ) := by
      rw [div_lt_iff₀ hpos, sq]
      exact mul_lt_mul_of_pos_left (lt_trans (lt_add_of_pos_left _ hx) hnext) (by positivity)
    rw [tail, denominator, numerator_eq, neg_div]
    push_cast at htaken ⊢
    linarith

theorem tail_pos (hx : 0 < x) (i n : ℕ) : 0 < tail x i n :=
  lt_trans (by positivity) (add_lt_tail hx i n)

/-- Every convergent is below `1 / x`. -/
theorem convergent_lt (hx : 0 < x) (n : ℕ) : convergent x n < 1 / x := by
  have htail := add_lt_tail hx 0 n
  rw [Nat.cast_zero, add_zero] at htail
  exact one_div_lt_one_div_of_lt hx htail

/-! ## The two evaluations agree -/

section Quotients

variable {K : Type} [Field K] {a b c e t : K}

/-- A quotient added to both sides of a ratio, as a factor on the ratio. -/
theorem ratio_add_quotient (ht : t ≠ 0) (hc : c ≠ 0) (hb : b ≠ 0) :
    (c + a / t) / (b + a / t) = c * (1 / b) * ((t + a / c) / (a * (1 / b) + t)) := by
  have hnumerator : c + a / t = c / t * (t + a / c) := by field_simp
  have hdenominator : b + a / t = b / t * (a * (1 / b) + t) := by
    field_simp
    ring
  rw [hnumerator, hdenominator, mul_div_mul_comm, div_div_div_cancel_right₀ ht, mul_one_div c]

/-- What the first ratio `1 / e`, in place of an infinite one, makes of a fraction. -/
theorem inverse_add_quotient (ht : t ≠ 0) (he : e ≠ 0) (hb : b ≠ 0) (hsum : b + a / t ≠ 0) :
    e + (1 - e * b) * (1 / (b + a / t))
      = 1 / b * ((t + a / (1 / e)) / (a * (1 / b) + t)) := by
  calc e + (1 - e * b) * (1 / (b + a / t)) = e * ((1 / e + a / t) / (b + a / t)) := by
        generalize a / t = quotient at *
        field_simp
        ring
    _ = 1 / b * ((t + a / (1 / e)) / (a * (1 / b) + t)) := by
        rw [ratio_add_quotient ht (one_div_ne_zero he) hb, mul_assoc, ← mul_assoc e,
          mul_one_div_cancel he, one_mul]

end Quotients

namespace Fraction

/-- The convergent, from the state after `k` steps and what the fraction has after these. -/
theorem convergent_of_after (hx : 0 < x) (hfirst : firstInverse * (x + 1) < 1) (k n : ℕ) :
    firstInverse + (1 - firstInverse * (x + 1)) * convergent x (k + (n + 1))
      = (after x k).h * ((tail x (k + 1) n + numerator (k + 1) / (after x k).c)
        / (numerator (k + 1) * (after x k).d + tail x (k + 1) n)) := by
  -- With each step, one denominator moves from what is left into the state.
  induction k generalizing n with
  | zero =>
    have hwhole := (tail_pos hx 0 (n + 1)).ne'
    have hfront : denominator x 0 = x + 1 := by simp [denominator]
    rw [tail, hfront, zero_add] at hwhole
    rw [zero_add, convergent, tail, hfront, zero_add, after, start_eq]
    exact inverse_add_quotient (tail_pos hx 1 n).ne' firstInverse_pos.ne' (by positivity) hwhole
  | succ k ih =>
    have hgrowing := growing_after hx hfirst k
    have hratios := ratio_add_quotient (a := numerator (k + 1 + 1)) (tail_pos hx (k + 1 + 1) n).ne'
      (hgrowing.step hx).c_pos.ne' (hgrowing.divisor_pos hx).ne'
    rw [(by omega : k + 1 + (n + 1) = k + (n + 1 + 1)), ih (n + 1), tail, ← hgrowing.step_b_eq,
      after, step_h, step_ratio, mul_assoc, step_d, ← hratios, step_c, add_right_comm,
      add_assoc (numerator (k + 1) * (after x k).d)]

/-- The value after `i` steps is the convergent, but for the start from `firstInverse`. -/
theorem h_after (hx : 0 < x) (hfirst : firstInverse * (x + 1) < 1) (i : ℕ) :
    (after x i).h = firstInverse + (1 - firstInverse * (x + 1)) * convergent x i := by
  cases i with
  | zero =>
    have hpos : x + 1 ≠ 0 := by positivity
    rw [after, start_eq, convergent, tail, denominator]
    field_simp
    push_cast
    ring
  | succ i =>
    have hgrowing := growing_after hx hfirst i
    have hvalue := convergent_of_after hx hfirst i 0
    rw [tail, ← hgrowing.step_b_eq, ← step_c, ← mul_one_div, ← step_d, ← step_ratio] at hvalue
    exact hvalue.symm

/-- So is the value after any number of steps. -/
theorem h_after_lt (hx : 0 < x) (hfirst : firstInverse * (x + 1) < 1) (i : ℕ) :
    (after x i).h < 1 / x := by
  have hfactor : 0 < 1 - firstInverse * (x + 1) := sub_pos.2 hfirst
  calc (after x i).h = firstInverse + (1 - firstInverse * (x + 1)) * convergent x i :=
        h_after hx hfirst i
    _ < firstInverse + (1 - firstInverse * (x + 1)) * (1 / x) :=
        add_lt_add_right (mul_lt_mul_of_pos_left (convergent_lt hx i) hfactor) _
    _ = 1 / x - firstInverse / x := by
        field_simp
        ring
    _ < 1 / x := sub_lt_self _ (div_pos firstInverse_pos hx)

theorem h_after_strictMono (hx : 0 < x) (hfirst : firstInverse * (x + 1) < 1) :
    StrictMono fun i => (after x i).h :=
  strictMono_nat_of_lt_succ fun i => (growing_after hx hfirst i).h_lt_step hx

end Fraction

/-! ## The integral -/

/-- Over exact arithmetic, between the arguments one and 700, no step of the evaluation divides by
zero, every factor on the value is above one, and the value grows strictly from `1 / (x + 1)` and
stays below `1 / x`.  So wherever the evaluation stops, the integral is bracketed. -/
theorem fraction_bracketed {x : ℝ} (hone : 1 < x) (hlimit : x < 700) :
    (∀ i, 0 < (Fraction.after x i).c
        ∧ 0 < numerator (i + 1) * (Fraction.after x i).d + (Fraction.after x (i + 1)).b
        ∧ 1 < (Fraction.after x (i + 1)).ratio
        ∧ 1 / (x + 1) ≤ (Fraction.after x i).h ∧ (Fraction.after x i).h < 1 / x)
      ∧ StrictMono (fun i => (Fraction.after x i).h)
      ∧ ∀ settled : ℝ → Bool,
        (∃ last, 1 ≤ last ∧ last ≤ maxSteps
          ∧ Fraction.run settled maxSteps 1 (.start x) = Fraction.after x last)
        ∧ Real.exp (-x) / (x + 1) ≤ byFraction Real.exp settled x
        ∧ byFraction Real.exp settled x < Real.exp (-x) / x := by
  have hx : 0 < x := one_pos.trans hone
  have hfirst : firstInverse * (x + 1) < 1 := firstInverse_mul_lt (by linarith)
  have hbetween := fun i => And.intro (Fraction.growing_after hx hfirst i).h_ge
    (Fraction.h_after_lt hx hfirst i)
  refine ⟨fun i => ?_, Fraction.h_after_strictMono hx hfirst, fun settled => ?_⟩
  · have hgrowing := Fraction.growing_after hx hfirst i
    exact ⟨hgrowing.c_pos, hgrowing.divisor_pos hx, hgrowing.one_lt_ratio hx, hbetween i⟩
  · obtain ⟨last, hlow, hhigh, hrun⟩ := Fraction.run_after settled x 0 (by decide : maxSteps ≠ 0)
    rw [Nat.zero_add] at hhigh
    obtain ⟨hlower, hupper⟩ := hbetween last
    have hexp := Real.exp_pos (-x)
    have hvalue : byFraction Real.exp settled x = (Fraction.after x last).h * Real.exp (-x) :=
      congrArg (fun f => f.h * Real.exp (-x)) hrun
    refine ⟨⟨last, hlow, hhigh, hrun⟩, ?_⟩
    rw [hvalue, ← one_div_mul_eq_div (x + 1), ← one_div_mul_eq_div x]
    exact ⟨mul_le_mul_of_nonneg_right hlower hexp.le, mul_lt_mul_of_pos_right hupper hexp⟩

/-- The argument two, where the evaluation stops once a factor is within `1e-12` of one. -/
theorem fraction_bracketed_specimen :
    (1 : ℝ) < 2 ∧ (2 : ℝ) < 700
      ∧ 1 / 3 ≤ (Fraction.after (2 : ℝ) 5).h ∧ (Fraction.after (2 : ℝ) 5).h < 1 / 2
      ∧ Real.exp (-2) / 3 ≤ byFraction Real.exp (fun ratio => decide (|ratio - 1| < 1e-12)) 2
      ∧ byFraction Real.exp (fun ratio => decide (|ratio - 1| < 1e-12)) 2 < Real.exp (-2) / 2 := by
  have hone : (1 : ℝ) < 2 := by norm_num
  have hlimit : (2 : ℝ) < 700 := by norm_num
  have hsum : (2 + 1 : ℝ) = 3 := by norm_num
  obtain ⟨hsteps, -, hruns⟩ := fraction_bracketed hone hlimit
  obtain ⟨-, -, -, hlower, hupper⟩ := hsteps 5
  obtain ⟨-, hleast, hmost⟩ := hruns fun ratio => decide (|ratio - 1| < 1e-12)
  rw [hsum] at hlower hleast
  exact ⟨hone, hlimit, hlower, hupper, hleast, hmost⟩

end Denoise.ExponentialIntegral
