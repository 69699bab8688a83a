import Denoise.Settings.Document.Number
import Mathlib.Data.Nat.GCD.Basic
import Mathlib.Tactic.Linarith
import Mathlib.Tactic.LinearCombination
import Mathlib.Tactic.Ring

/-!
# Decimals near a halfway point

A decimal is read in two roundings, and narrowed to a single in a third.  The result can
differ from the nearest single only where the decimal `n · 10^k` is as near to the
halfway point `a · 2^b` of two singles as the error of the first two roundings.  Then
the fraction `n / a` is that near to the ratio of the powers, with at most eight decimal
digits above and 25 binary ones below.

Two neighbours in the tree of fractions have no fraction between them with terms smaller
than those of their mediant (`Linked.not_between`).  So a path of neighbours from one
side of the ratio to the other names every fraction that has to be looked at.  The path
is computed (`path`) and what it is good for is checked (`spans`).

There are 339 pairs of exponents to check.  Apart from exact equality, three decimals are
left that a shortest text can have, and they are read.
-/

namespace Denoise

namespace Separation

/-! ## Neighbouring fractions -/

/-- A fraction, or the end of the tree above all fractions. -/
structure Fraction where
  /-- The numerator. -/
  num : ℕ
  /-- The denominator. -/
  den : ℕ

namespace Fraction

/-- The first fraction between two neighbours. -/
def mediant (f g : Fraction) : Fraction := ⟨f.num + g.num, f.den + g.den⟩

/-- The fraction `t` mediants from `f` towards `g`. -/
def towards (f g : Fraction) (t : ℕ) : Fraction := ⟨f.num + t * g.num, f.den + t * g.den⟩

/-- Terms beyond eight decimal and 25 binary digits. -/
def Long (f : Fraction) : Prop := 10 ^ 8 ≤ f.num ∨ 2 ^ 25 ≤ f.den

instance (f : Fraction) : Decidable f.Long := inferInstanceAs (Decidable (_ ∨ _))

end Fraction

/-- Neighbours with a mediant that is too long. -/
def Linked (f g : Fraction) : Prop := g.num * f.den = f.num * g.den + 1 ∧ (f.mediant g).Long

instance (f g : Fraction) : Decidable (Linked f g) := inferInstanceAs (Decidable (_ ∧ _))

namespace Linked

variable {f g : Fraction} {n a : ℕ}

/-- A fraction between two neighbours is a sum of them, each at least once. -/
theorem not_between (h : Linked f g) (hn : n < 10 ^ 8) (ha : a < 2 ^ 25)
    (hleft : f.num * a < n * f.den) : g.num * a ≤ n * g.den := by
  by_contra! hright
  obtain ⟨hdet, hlong⟩ := h
  obtain ⟨x, hx⟩ := Nat.exists_eq_add_of_lt hleft
  obtain ⟨y, hy⟩ := Nat.exists_eq_add_of_lt hright
  have hn' : n = (y + 1) * f.num + (x + 1) * g.num := by
    zify at *
    linear_combination (-n) * hdet + g.num * hx + f.num * hy
  have ha' : a = (y + 1) * f.den + (x + 1) * g.den := by
    zify at *
    linear_combination (-a) * hdet + g.den * hx + f.den * hy
  have hnum : f.num + g.num ≤ n := by
    rw [hn']
    nlinarith
  have hden : f.den + g.den ≤ a := by
    rw [ha']
    nlinarith
  rcases hlong with hlong | hlong
  · exact absurd (hlong.trans hnum) (by omega)
  · exact absurd (hlong.trans hden) (by omega)

/-- A neighbour is in lowest terms. -/
theorem exists_multiple (h : Linked f g) (heq : g.num * a = n * g.den) :
    ∃ c, n = c * g.num ∧ a = c * g.den := by
  have hcoprime : Nat.Coprime g.num g.den := by
    have hdvd : g.num.gcd g.den ∣ 1 := by
      rw [← Nat.dvd_add_right ((Nat.gcd_dvd_right g.num g.den).mul_left f.num), ← h.1]
      exact (Nat.gcd_dvd_left g.num g.den).mul_right f.den
    exact Nat.dvd_one.1 hdvd
  have hpos : 0 < g.num := by
    rcases Nat.eq_zero_or_pos g.num with hzero | hpos
    · have := h.1
      rw [hzero, zero_mul] at this
      omega
    · exact hpos
  obtain ⟨c, rfl⟩ : g.num ∣ n := hcoprime.dvd_of_dvd_mul_right ⟨a, heq.symm⟩
  refine ⟨c, mul_comm _ _, ?_⟩
  rw [mul_assoc] at heq
  exact Nat.eq_of_mul_eq_mul_left hpos heq

end Linked

/-! ## Paths across a ratio -/

/-- A power of ten and a power of two, in whole numbers of the same ratio. -/
structure Scale where
  /-- The power of ten. -/
  ten : ℕ
  /-- The power of two. -/
  two : ℕ

/-- The scale of `10^(k - 53)` and `2^(b - 150)`.  Exponents are counted from the least
ones that a single needs. -/
def Scale.of (k b : ℕ) : Scale where
  ten := 10 ^ k * 2 ^ 150
  two := 2 ^ b * 10 ^ 53

namespace Scale

variable {s : Scale} {f g m : Fraction}

/-- The side of the ratio that a fraction lies on. -/
def side (s : Scale) (f : Fraction) : Ordering := compare (f.num * s.ten) (f.den * s.two)

/-- A fraction and a multiple of it lie on the same side. -/
theorem side_mul {c : ℕ} (hc : 0 < c) : s.side ⟨c * f.num, c * f.den⟩ = s.side f := by
  rw [side, side, mul_assoc, mul_assoc]
  rcases lt_trichotomy (f.num * s.ten) (f.den * s.two) with h | h | h
  · rw [Nat.compare_eq_lt.2 h, Nat.compare_eq_lt.2 (Nat.mul_lt_mul_of_pos_left h hc)]
  · rw [h, Nat.compare_eq_eq.2 rfl, Nat.compare_eq_eq.2 rfl]
  · rw [Nat.compare_eq_gt.2 h, Nat.compare_eq_gt.2 (Nat.mul_lt_mul_of_pos_left h hc)]

/-- Further below the ratio than the error of a reading. -/
def Below (s : Scale) (f : Fraction) : Prop :=
  f.num * s.ten * (2 ^ 62 + 1025) < f.den * s.two * 2 ^ 62

/-- Further above the ratio than the error of a reading. -/
def Above (s : Scale) (f : Fraction) : Prop :=
  f.den * s.two * 2 ^ 62 < f.num * s.ten * (2 ^ 62 - 1025)

instance (s : Scale) (f : Fraction) : Decidable (s.Below f) := inferInstanceAs (Decidable (_ < _))

instance (s : Scale) (f : Fraction) : Decidable (s.Above f) := inferInstanceAs (Decidable (_ < _))

theorem lt_of_below (hf : s.Below f) (hm : ¬s.Below m) (hden : 0 < m.den) :
    f.num * m.den < m.num * f.den := by
  rw [Below, not_lt] at hm
  refine Nat.lt_of_mul_lt_mul_right (a := s.ten * (2 ^ 62 + 1025)) ?_
  calc f.num * m.den * (s.ten * (2 ^ 62 + 1025))
      = m.den * (f.num * s.ten * (2 ^ 62 + 1025)) := by ring
    _ < m.den * (f.den * s.two * 2 ^ 62) := Nat.mul_lt_mul_of_pos_left hf hden
    _ = f.den * (m.den * s.two * 2 ^ 62) := by ring
    _ ≤ f.den * (m.num * s.ten * (2 ^ 62 + 1025)) := Nat.mul_le_mul_left _ hm
    _ = m.num * f.den * (s.ten * (2 ^ 62 + 1025)) := by ring

theorem lt_of_above (hg : s.Above g) (hm : ¬s.Above m) (hden : 0 < m.den) :
    m.num * g.den < g.num * m.den := by
  rw [Above, not_lt] at hm
  refine Nat.lt_of_mul_lt_mul_right (a := s.ten * (2 ^ 62 - 1025)) ?_
  calc m.num * g.den * (s.ten * (2 ^ 62 - 1025))
      = g.den * (m.num * s.ten * (2 ^ 62 - 1025)) := by ring
    _ ≤ g.den * (m.den * s.two * 2 ^ 62) := Nat.mul_le_mul_left _ hm
    _ = m.den * (g.den * s.two * 2 ^ 62) := by ring
    _ < m.den * (g.num * s.ten * (2 ^ 62 - 1025)) := Nat.mul_lt_mul_of_pos_left hg hden
    _ = g.num * m.den * (s.ten * (2 ^ 62 - 1025)) := by ring

end Scale

/-- Neighbours from `f` to `g`, found by mediants as far as they are not too long.  On
either side of the ratio only the last one is kept, and the steps to it are taken at
once. -/
def path (s : Scale) : ℕ → Fraction → Fraction → List Fraction
  | 0, f, g => [f, g]
  | fuel + 1, f, g =>
    let m := f.mediant g
    if m.Long then [f, g]
    else if s.Below m then
      let gap := f.den * s.two * 2 ^ 62 - f.num * s.ten * (2 ^ 62 + 1025)
      let step := g.num * s.ten * (2 ^ 62 + 1025) - g.den * s.two * 2 ^ 62
      path s fuel (f.towards g ((gap - 1) / step)) g
    else if s.Above m then
      let gap := g.num * s.ten * (2 ^ 62 - 1025) - g.den * s.two * 2 ^ 62
      let step := f.den * s.two * 2 ^ 62 - f.num * s.ten * (2 ^ 62 - 1025)
      path s fuel f (g.towards f ((gap - 1) / step))
    else path s fuel f m ++ (path s fuel m g).tail

/-- A path on from `f` that ends above the ratio, with fractions of a kind on the way. -/
def spans (s : Scale) (kind : Fraction → Bool) (f : Fraction) : List Fraction → Bool
  | [] => false
  | [g] => Linked f g && s.Above g
  | g :: h :: l => Linked f g && kind g && spans s kind g (h :: l)

/-- A path leaves no other fraction near the ratio than those on it. -/
theorem exists_multiple_of_spans {s : Scale} {kind : Fraction → Bool} {n a : ℕ} {l : List Fraction}
    {f : Fraction} (h : spans s kind f l = true) (hleft : f.num * a < n * f.den)
    (hright : ¬s.Above ⟨n, a⟩) (hn : n < 10 ^ 8) (ha : a < 2 ^ 25) (hpos : 0 < a) :
    ∃ g c, kind g = true ∧ n = c * g.num ∧ a = c * g.den := by
  induction l generalizing f with
  | nil => cases h
  | cons g l ih =>
    cases l with
    | nil =>
      simp only [spans, Bool.and_eq_true, decide_eq_true_eq] at h
      have hlt := Scale.lt_of_above h.2 hright hpos
      exact absurd (h.1.not_between hn ha hleft) (not_le.2 hlt)
    | cons g' l =>
      simp only [spans, Bool.and_eq_true, decide_eq_true_eq] at h
      obtain ⟨⟨hlinked, hkind⟩, hspans⟩ := h
      rcases (hlinked.not_between hn ha hleft).lt_or_eq with hlt | heq
      · exact ih hspans hlt
      · obtain ⟨c, hc, hc'⟩ := hlinked.exists_multiple heq
        exact ⟨g, c, hkind, hc, hc'⟩

/-! ## What is left near the ratio -/

/-- How a double compares with `a · 2^b`, if it is a positive number. -/
def side? (x : Float) (a : ℕ) (b : ℤ) : Option Ordering :=
  match x.toModel.unpack with
  | .finite .positive p g _ => some (compare (p * 2 ^ (g - b).toNat) (a * 2 ^ (b - g).toNat))
  | _ => none

/-- Whether `n · 10^k` is read on its own side of the halfway point `a · 2^b`, or on the
point if the even neighbour is on that side. -/
def keepsSide (order : Ordering) (n : ℕ) (k : ℤ) (a : ℕ) (b : ℤ) : Bool :=
  match Settings.scaleByTen 3 n.toUInt64.toFloat k with
  | none => false
  | some x =>
    match order, side? x a b with
    | .lt, some .lt => true
    | .lt, some .eq => a % 4 = 1
    | .gt, some .gt => true
    | .gt, some .eq => a % 4 = 3
    | _, _ => false

/-- A decimal of eight digits and a halfway point.  Only among the subnormal singles has
the point a short significand. -/
structure Meets (n a b : ℕ) : Prop where
  digits : 10 ^ 7 ≤ n ∧ n < 10 ^ 8
  bits : a < 2 ^ 25 ∧ (2 ^ 24 ≤ a ∨ b = 0)
  odd : a % 2 = 1

instance (n a b : ℕ) : Decidable (Meets n a b) :=
  decidable_of_iff ((10 ^ 7 ≤ n ∧ n < 10 ^ 8) ∧ (a < 2 ^ 25 ∧ (2 ^ 24 ≤ a ∨ b = 0)) ∧ a % 2 = 1)
    ⟨fun h => ⟨h.1, h.2.1, h.2.2⟩, fun h => ⟨h.digits, h.bits, h.odd⟩⟩

/-- A grid of decimals on which a number can be as far from the decimal that stands for it
as from the halfway point. -/
def Coarse (k b : ℕ) : Prop := 9 * (Scale.of k b).two ≤ 10 * (Scale.of k b).ten

instance (k b : ℕ) : Decidable (Coarse k b) := inferInstanceAs (Decidable (_ ≤ _))

/-- Whether a decimal is read on its own side, with or without the zeros at its end. -/
def kept (order : Ordering) (k b n a : ℕ) : Bool :=
  !decide (Meets n a b) || (List.range 8).all fun i =>
    n % 10 ^ i != 0 || !decide (Coarse (k + i) b)
      || keepsSide order (n / 10 ^ i) ((k + i : ℕ) - 53) a (b - 150)

/-- The multiples of a fraction with eight digits. -/
def multiples (f : Fraction) : List ℕ := List.range (10 ^ 8 / f.num + 1)

/-- A fraction that does no harm on its side of the ratio.  On neither side, the powers
have to be exact.  On one of them, its multiples have to be read on that side. -/
def harmless (k b : ℕ) (f : Fraction) : Ordering → Bool
  | .eq => 31 ≤ k && k ≤ 68
  | .lt => (multiples f).all fun c => kept .lt k b (c * f.num) (c * f.den)
  | .gt => (multiples f).all fun c => kept .gt k b (c * f.num) (c * f.den)

/-- Two exponents of numbers that are nowhere near each other, or a path that does no
harm. -/
def settles (k b : ℕ) : Bool :=
  (Scale.of k b).Above ⟨10 ^ 7, 2 ^ 25⟩ || (b != 0 && (Scale.of k b).Below ⟨10 ^ 8, 2 ^ 24⟩) ||
    match path (Scale.of k b) 80 ⟨0, 1⟩ ⟨1, 0⟩ with
    | [] => false
    | f :: l =>
      (Scale.of k b).Below f
        && spans (Scale.of k b) (fun g => harmless k b g ((Scale.of k b).side g)) f l

/-- The leading binary digit of the least decimal. -/
def leading (k : ℕ) : ℕ := Nat.log2 (10 ^ 7 * 10 ^ k * 2 ^ 150 / 10 ^ 53)

/-- The exponents of the halfway points that the decimals can be near to. -/
def window (k : ℕ) : List ℕ := 0 :: (List.range 8).map (leading k - 26 + ·)

/-- The table.  Every exponent of ten is checked against the few halfway points that it
can be near to. -/
theorem settles_all : ((List.range 85).all fun k => (window k).all (settles k)) = true := by
  decide +kernel

/-! ## All decimals of eight digits -/

section Near

variable {n a k b : ℕ}

theorem Meets.pos (h : Meets n a b) : 0 < a := by
  have := h.odd
  omega

/-- What is near has exponents that fit each other. -/
theorem exponents_of_near (h : Meets n a b) (hbelow : ¬(Scale.of k b).Below ⟨n, a⟩)
    (habove : ¬(Scale.of k b).Above ⟨n, a⟩) :
    ¬(Scale.of k b).Above ⟨10 ^ 7, 2 ^ 25⟩ ∧ (b ≠ 0 → ¬(Scale.of k b).Below ⟨10 ^ 8, 2 ^ 24⟩) := by
  obtain ⟨⟨hlow, hhigh⟩, ⟨hbits, hfull⟩, -⟩ := h
  rw [Scale.Below, not_lt] at hbelow
  rw [Scale.Above, not_lt] at habove
  constructor
  · rw [Scale.Above, not_lt]
    calc 10 ^ 7 * (Scale.of k b).ten * (2 ^ 62 - 1025)
        ≤ n * (Scale.of k b).ten * (2 ^ 62 - 1025) :=
          Nat.mul_le_mul_right _ (Nat.mul_le_mul_right _ hlow)
      _ ≤ a * (Scale.of k b).two * 2 ^ 62 := habove
      _ ≤ 2 ^ 25 * (Scale.of k b).two * 2 ^ 62 :=
          Nat.mul_le_mul_right _ (Nat.mul_le_mul_right _ hbits.le)
  · intro hb
    rw [Scale.Below, not_lt]
    calc 2 ^ 24 * (Scale.of k b).two * 2 ^ 62 ≤ a * (Scale.of k b).two * 2 ^ 62 :=
          Nat.mul_le_mul_right _ (Nat.mul_le_mul_right _ (hfull.resolve_right hb))
      _ ≤ n * (Scale.of k b).ten * (2 ^ 62 + 1025) := hbelow
      _ ≤ 10 ^ 8 * (Scale.of k b).ten * (2 ^ 62 + 1025) :=
          Nat.mul_le_mul_right _ (Nat.mul_le_mul_right _ hhigh.le)

/-- A halfway point with exponents that fit is in the window of its power of ten. -/
theorem mem_window (habove : ¬(Scale.of k b).Above ⟨10 ^ 7, 2 ^ 25⟩)
    (hbelow : b ≠ 0 → ¬(Scale.of k b).Below ⟨10 ^ 8, 2 ^ 24⟩) : b ∈ window k := by
  rcases eq_or_ne b 0 with rfl | hb
  · exact List.mem_cons_self
  have hbelow := hbelow hb
  rw [Scale.Above, Scale.of, not_lt] at habove
  rw [Scale.Below, Scale.of, not_lt] at hbelow
  simp only at habove hbelow
  -- both bounds by the leading digit of the same quotient
  have hunit := Nat.two_pow_pos b
  have hlow : 10 ^ 7 * 10 ^ k * 2 ^ 150 / 10 ^ 53 < 2 ^ (b + 27) := by
    rw [Nat.div_lt_iff_lt_mul (by positivity), pow_add]
    generalize 10 ^ k = t at *
    generalize 2 ^ b = w at *
    omega
  have hhigh : 2 ^ (b + 19) ≤ 10 ^ 7 * 10 ^ k * 2 ^ 150 / 10 ^ 53 := by
    rw [Nat.le_div_iff_mul_le (by positivity), pow_add]
    nlinarith
  have hpos : 10 ^ 7 * 10 ^ k * 2 ^ 150 / 10 ^ 53 ≠ 0 := by
    have := Nat.two_pow_pos (b + 19)
    omega
  have hlow' : leading k < b + 27 := (Nat.log2_lt hpos).2 hlow
  have hhigh' : b + 19 ≤ leading k := (Nat.le_log2 hpos).2 hhigh
  refine List.mem_cons_of_mem _ (List.mem_map.2 ⟨b - (leading k - 26), List.mem_range.2 ?_, ?_⟩)
  · omega
  · omega

theorem Meets.mem_multiples {g : Fraction} {c : ℕ} (h : Meets (c * g.num) a b) : c ∈ multiples g := by
  have hnum : 0 < g.num := Nat.pos_of_mul_pos_left (by have := h.digits.1; omega : 0 < c * g.num)
  rw [multiples, List.mem_range, Nat.lt_succ_iff, Nat.le_div_iff_mul_le hnum]
  exact h.digits.2.le

/-- What was checked of a decimal holds of it with the zeros at its end cut off. -/
theorem Meets.keepsSide {order : Ordering} (h : Meets n a b) (hkept : kept order k b n a = true) :
    ∀ i < 8, 10 ^ i ∣ n → Coarse (k + i) b →
      Separation.keepsSide order (n / 10 ^ i) ((k + i : ℕ) - 53) a (b - 150) = true := by
  intro i hi hdvd hcoarse
  rw [kept, decide_eq_true h, Bool.not_true, Bool.false_or] at hkept
  have hdigits := List.all_eq_true.1 hkept i (List.mem_range.2 hi)
  rwa [Nat.mod_eq_zero_of_dvd hdvd, decide_eq_true hcoarse] at hdigits

/-- A decimal of eight digits that is near a halfway point is equal to it, with powers
that are exact, or is read on its own side of it. -/
theorem eq_or_keepsSide (hk : k < 85) (h : Meets n a b) (hbelow : ¬(Scale.of k b).Below ⟨n, a⟩)
    (habove : ¬(Scale.of k b).Above ⟨n, a⟩) :
    ((Scale.of k b).side ⟨n, a⟩ = .eq ∧ 31 ≤ k ∧ k ≤ 68) ∨
      ∀ i < 8, 10 ^ i ∣ n → Coarse (k + i) b →
        keepsSide ((Scale.of k b).side ⟨n, a⟩) (n / 10 ^ i) ((k + i : ℕ) - 53) a (b - 150) = true := by
  obtain ⟨hexponents, hexponents'⟩ := exponents_of_near h hbelow habove
  have hsettles : settles k b = true :=
    List.all_eq_true.1 (List.all_eq_true.1 settles_all k (List.mem_range.2 hk)) b
      (mem_window hexponents hexponents')
  rw [settles, Bool.or_eq_true, Bool.or_eq_true, Bool.and_eq_true, decide_eq_true_iff,
    decide_eq_true_iff, bne_iff_ne] at hsettles
  have hpath := hsettles.resolve_left fun hor =>
    hor.elim hexponents fun hand => hexponents' hand.1 hand.2
  obtain ⟨f, l, hl⟩ : ∃ f l, path (Scale.of k b) 80 ⟨0, 1⟩ ⟨1, 0⟩ = f :: l := by
    cases hl : path (Scale.of k b) 80 ⟨0, 1⟩ ⟨1, 0⟩ with
    | nil => rw [hl] at hpath; cases hpath
    | cons f l => exact ⟨f, l, rfl⟩
  rw [hl] at hpath
  obtain ⟨hf, hspans⟩ := Bool.and_eq_true_iff.1 hpath
  obtain ⟨g, c, hharmless, rfl, rfl⟩ := exists_multiple_of_spans hspans
    (Scale.lt_of_below (of_decide_eq_true hf) hbelow h.pos) habove h.digits.2 h.bits.1 h.pos
  rw [Scale.side_mul (Nat.pos_of_mul_pos_right h.pos)]
  cases hside : (Scale.of k b).side g with
  | lt =>
    rw [hside, harmless] at hharmless
    exact .inr (h.keepsSide (List.all_eq_true.1 hharmless c h.mem_multiples))
  | gt =>
    rw [hside, harmless] at hharmless
    exact .inr (h.keepsSide (List.all_eq_true.1 hharmless c h.mem_multiples))
  | eq =>
    rw [hside, harmless, Bool.and_eq_true, decide_eq_true_iff, decide_eq_true_iff] at hharmless
    exact .inl ⟨rfl, hharmless⟩

end Near

end Separation

end Denoise
