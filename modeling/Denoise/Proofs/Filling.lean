import Denoise.Proofs.Checked.Bins
import Denoise.Proofs.Exact

/-!
# What untrusted bins are filled with

`FilledAs` says of one bin what it is filled with, by the known bins around it: its own value, the
value at the nearer edge, or a point on the line between its two known neighbours.  The pass over
lists gives each bin such a value (`getElem?_fillAfter`, `getElem?_fillFrom`).  There is only one
(`FilledAs.unique`), so the relation is the pass read as a table (`getElem?_filled_iff`).

The pass in place writes the same values, though it reads the bins it writes into
(`Checked.fillUntrusted_eq`).  `Interpolates` is what it does for the caller, in the terms of
the caller.  It holds whatever the arithmetic is (`interpolates`).  Over exact arithmetic a point on
the line lies between the two values at its ends (`onLine_between`).
-/

namespace Denoise

/-! ## The value of one bin -/

section Reference

variable {K : Type}

/-- Bin `i` is not known, and bin `p` of value `a` is the last known one before it. -/
structure LastKnown (bins : List (Option K)) (i p : ℕ) (a : K) : Prop where
  lt : p < i
  known : bins[p]? = some (some a)
  gap : ∀ j, p < j → j ≤ i → bins[j]? = some none

/-- Bin `i` is not known, and bin `q` of value `b` is the first known one after it. -/
structure NextKnown (bins : List (Option K)) (i q : ℕ) (b : K) : Prop where
  lt : i < q
  known : bins[q]? = some (some b)
  gap : ∀ j, i ≤ j → j < q → bins[j]? = some none

variable {bins : List (Option K)} {i : ℕ}

theorem LastKnown.unique {p p' : ℕ} {a a' : K} (h : LastKnown bins i p a)
    (h' : LastKnown bins i p' a') : p = p' ∧ a = a' := by
  rcases Nat.lt_trichotomy p p' with hlt | rfl | hlt
  · cases h'.known.symm.trans (h.gap p' hlt h'.lt.le)
  · exact ⟨rfl, Option.some.inj (Option.some.inj (h.known.symm.trans h'.known))⟩
  · cases h.known.symm.trans (h'.gap p hlt h.lt.le)

theorem NextKnown.unique {q q' : ℕ} {b b' : K} (h : NextKnown bins i q b)
    (h' : NextKnown bins i q' b') : q = q' ∧ b = b' := by
  rcases Nat.lt_trichotomy q q' with hlt | rfl | hlt
  · cases h.known.symm.trans (h'.gap q h.lt.le hlt)
  · exact ⟨rfl, Option.some.inj (Option.some.inj (h.known.symm.trans h'.known))⟩
  · cases h'.known.symm.trans (h.gap q' h'.lt.le hlt)

/-- The first bin of a rest. -/
theorem getElem?_of_drop {next : ℕ} {bin : Option K} {later : List (Option K)}
    (h : bins.drop next = bin :: later) :
    bins[next]? = some bin ∧ bins.drop (next + 1) = later := by
  constructor
  · rw [← Nat.add_zero next, ← List.getElem?_drop, h, List.getElem?_cons_zero]
  · rw [← List.drop_drop, h, List.drop_one, List.tail_cons]

variable [OfScientific K] [Add K] [Sub K] [Mul K] [Div K]

/-- The value at bin `i` on the line from `a` at bin `p` to `b` at bin `q`. -/
def onLine (a b : K) (p q i : ℕ) : K := a + (b - a) * (ofCount (i - p) / ofCount (q - p))

/-- What bin `i` is filled with. -/
inductive FilledAs (bins : List (Option K)) (i : ℕ) : K → Prop
  /-- A known bin keeps its value. -/
  | kept {a : K} : bins[i]? = some (some a) → FilledAs bins i a
  /-- Before the first known bin. -/
  | front {q : ℕ} {b : K} : (∀ j ≤ i, bins[j]? = some none) → NextKnown bins i q b →
      FilledAs bins i b
  /-- After the last known bin. -/
  | back {p : ℕ} {a : K} : LastKnown bins i p a →
      (∀ j, i ≤ j → j < bins.length → bins[j]? = some none) → FilledAs bins i a
  /-- Between two known bins. -/
  | line {p q : ℕ} {a b : K} : LastKnown bins i p a → NextKnown bins i q b →
      FilledAs bins i (onLine a b p q i)

namespace FilledAs

variable {v w : K}

theorem lt_length (h : FilledAs bins i v) : i < bins.length := by
  cases h with
  | kept hknown => exact (List.getElem?_eq_some_iff.1 hknown).1
  | front hfront hnext => exact (List.getElem?_eq_some_iff.1 (hfront i le_rfl)).1
  | back hlast hback => exact (List.getElem?_eq_some_iff.1 (hlast.gap i hlast.lt le_rfl)).1
  | line hlast hnext => exact (List.getElem?_eq_some_iff.1 (hlast.gap i hlast.lt le_rfl)).1

/-- The edges and the lines are for bins that are not known. -/
theorem eq_of_known {a : K} (h : FilledAs bins i v) (hknown : bins[i]? = some (some a)) :
    v = a := by
  cases h with
  | kept hkept => exact Option.some.inj (Option.some.inj (hkept.symm.trans hknown))
  | front hfront hnext => cases hknown.symm.trans (hfront i le_rfl)
  | back hlast hback => cases hknown.symm.trans (hlast.gap i hlast.lt le_rfl)
  | line hlast hnext => cases hknown.symm.trans (hlast.gap i hlast.lt le_rfl)

/-- A bin is filled with one value. -/
theorem unique (h : FilledAs bins i v) (h' : FilledAs bins i w) : v = w := by
  -- no bin has a known one on a side where there is none
  have hnoLast : ∀ {p : ℕ} {a : K}, LastKnown bins i p a →
      ¬ ∀ j ≤ i, bins[j]? = some none := by
    intro p a hlast hfront
    cases hlast.known.symm.trans (hfront p hlast.lt.le)
  have hnoNext : ∀ {q : ℕ} {b : K}, NextKnown bins i q b →
      ¬ ∀ j, i ≤ j → j < bins.length → bins[j]? = some none := by
    intro q b hnext hback
    have hlt := (List.getElem?_eq_some_iff.1 hnext.known).1
    cases hnext.known.symm.trans (hback q hnext.lt.le hlt)
  cases h with
  | kept hknown => exact (h'.eq_of_known hknown).symm
  | front hfront hnext =>
    cases h' with
    | kept hknown => exact (FilledAs.front hfront hnext).eq_of_known hknown
    | front hfront' hnext' => exact (hnext.unique hnext').2
    | back hlast' hback' => exact absurd hfront (hnoLast hlast')
    | line hlast' hnext' => exact absurd hfront (hnoLast hlast')
  | back hlast hback =>
    cases h' with
    | kept hknown => exact (FilledAs.back hlast hback).eq_of_known hknown
    | front hfront' hnext' => exact absurd hfront' (hnoLast hlast)
    | back hlast' hback' => exact (hlast.unique hlast').2
    | line hlast' hnext' => exact absurd hback (hnoNext hnext')
  | line hlast hnext =>
    cases h' with
    | kept hknown => exact (FilledAs.line hlast hnext).eq_of_known hknown
    | front hfront' hnext' => exact absurd hfront' (hnoLast hlast)
    | back hlast' hback' => exact absurd hback' (hnoNext hnext)
    | line hlast' hnext' =>
      obtain ⟨rfl, rfl⟩ := hlast.unique hlast'
      obtain ⟨rfl, rfl⟩ := hnext.unique hnext'
      rfl

end FilledAs

/-! ## The pass over lists -/

theorem getElem?_bridge (a b : K) {p q i : ℕ} (hp : p < i) (hq : i < q) :
    (bridge (q - (p + 1)) a b)[i - (p + 1)]? = some (onLine a b p q i) := by
  rw [bridge, List.getElem?_map, List.getElem?_range (by omega), Option.map_some, onLine,
    (by omega : i - (p + 1) + 1 = i - p), (by omega : q - (p + 1) + 1 = q - p)]

/-- The bins after the known bin `p`, if those before `next` are not known. -/
theorem getElem?_fillAfter {p next : ℕ} {a v : K} (hp : bins[p]? = some (some a))
    (hlt : p < next) (hnext : next ≤ bins.length)
    (hgap : ∀ j, p < j → j < next → bins[j]? = some none) (hi : p < i)
    (hv : (fillAfter a (next - (p + 1)) (bins.drop next))[i - (p + 1)]? = some v) :
    FilledAs bins i v := by
  induction hrest : bins.drop next generalizing p next a with
  | nil =>
    have hend : bins.length ≤ next := List.drop_eq_nil_iff.1 hrest
    rw [hrest, fillAfter] at hv
    obtain ⟨hlt, hvalue⟩ := List.getElem?_eq_some_iff.1 hv
    rw [List.length_replicate] at hlt
    rw [List.getElem_replicate] at hvalue
    subst hvalue
    exact .back ⟨hi, hp, fun j hj hji => hgap j hj (by omega)⟩
      fun j hj hjlt => hgap j (by omega) (by omega)
  | cons bin later ih =>
    obtain ⟨hbin, hlater⟩ := getElem?_of_drop hrest
    have hnextLt := (List.getElem?_eq_some_iff.1 hbin).1
    rw [hrest] at hv
    cases bin with
    | none =>
      rw [fillAfter, (by omega : next - (p + 1) + 1 = next + 1 - (p + 1)), ← hlater] at hv
      refine ih hp (by omega) (by omega) (fun j hj hjlt => ?_) hi hv hlater
      rcases Nat.lt_succ_iff_lt_or_eq.1 hjlt with hjlt | rfl
      · exact hgap j hj hjlt
      · exact hbin
    | some b =>
      have hbridge := length_bridge (next - (p + 1)) a b
      rw [fillAfter] at hv
      rcases Nat.lt_trichotomy i next with hinext | rfl | hinext
      · rw [List.getElem?_append_left (by omega), getElem?_bridge a b hi hinext] at hv
        rw [← Option.some.inj hv]
        exact .line ⟨hi, hp, fun j hj hji => hgap j hj (by omega)⟩
          ⟨hinext, hbin, fun j hj hjlt => hgap j (by omega) hjlt⟩
      · rw [List.getElem?_append_right (by omega), hbridge, Nat.sub_self,
          List.getElem?_cons_zero] at hv
        rw [← Option.some.inj hv]
        exact .kept hbin
      · rw [List.getElem?_append_right (by omega), hbridge,
          (by omega : i - (p + 1) - (next - (p + 1)) = i - (next + 1) + 1),
          List.getElem?_cons_succ, ← hlater, ← Nat.sub_self (next + 1)] at hv
        exact ih hbin (by omega) (by omega) (fun j hj hjlt => by omega) hinext hv hlater

/-- The bins from the front, if those before `next` are not known. -/
theorem getElem?_fillFrom {next : ℕ} {filled : List K} {v : K} (hnext : next ≤ bins.length)
    (hgap : ∀ j < next, bins[j]? = some none)
    (hfilled : fillFrom next (bins.drop next) = some filled)
    (hv : filled[i]? = some v) : FilledAs bins i v := by
  induction hrest : bins.drop next generalizing next with
  | nil =>
    rw [hrest] at hfilled
    cases hfilled
  | cons bin later ih =>
    obtain ⟨hbin, hlater⟩ := getElem?_of_drop hrest
    have hnextLt := (List.getElem?_eq_some_iff.1 hbin).1
    rw [hrest] at hfilled
    cases bin with
    | none =>
      rw [fillFrom, ← hlater] at hfilled
      refine ih hnextLt (fun j hj => ?_) hfilled hlater
      rcases Nat.lt_succ_iff_lt_or_eq.1 hj with hj | rfl
      · exact hgap j hj
      · exact hbin
    | some b =>
      rw [fillFrom, ← hlater] at hfilled
      rw [← Option.some.inj hfilled] at hv
      rcases Nat.lt_trichotomy i next with hinext | rfl | hinext
      · rw [List.getElem?_append_left (by rwa [List.length_replicate]), List.getElem?_replicate,
          if_pos hinext] at hv
        rw [← Option.some.inj hv]
        exact .front (fun j hj => hgap j (by omega)) ⟨hinext, hbin, fun j _ hj => hgap j hj⟩
      · rw [List.getElem?_append_right (by rw [List.length_replicate]), List.length_replicate,
          Nat.sub_self, List.getElem?_cons_zero] at hv
        rw [← Option.some.inj hv]
        exact .kept hbin
      · rw [List.getElem?_append_right (by rw [List.length_replicate]; omega),
          List.length_replicate, (by omega : i - next = i - (next + 1) + 1),
          List.getElem?_cons_succ, ← Nat.sub_self (next + 1)] at hv
        exact getElem?_fillAfter hbin (by omega) hnextLt (fun j hj hjlt => by omega) hinext hv

/-- What was filled in has the value that the known bins around it say. -/
theorem getElem?_filled_iff {filled : List K} {v : K} (h : fillFrom 0 bins = some filled) :
    filled[i]? = some v ↔ FilledAs bins i v := by
  have hentry : ∀ {w : K}, filled[i]? = some w → FilledAs bins i w :=
    getElem?_fillFrom (Nat.zero_le _) nofun h
  refine ⟨hentry, fun hv => ?_⟩
  have hi : i < filled.length := by
    rw [length_fillFrom h, Nat.zero_add]
    exact hv.lt_length
  have hw := List.getElem?_eq_getElem hi
  rw [hw, (hentry hw).unique hv]

end Reference

/-! ## The pass in place -/

namespace Checked

/-- The bins as they are left in place, and whether any of them is trusted. -/
def fillInPlace {K : Type} [OfScientific K] [Add K] [Sub K] [Mul K] [Div K] (values : List K)
    (trusted : List Bool) : Checked (Bool × List K) := do
  match ← fillUntrusted values trusted with
  | some filled => return (true, filled)
  | none => return (false, values)

/-- Bins `p` and `q` are trusted, and none between them is. -/
structure Neighbours (trusted : List Bool) (p q : ℕ) : Prop where
  lt : p < q
  left : trusted[p]? = some true
  right : trusted[q]? = some true
  gap : ∀ j, p < j → j < q → trusted[j]? = some false

section InPlace

variable {K : Type} {values other : List K} {trusted : List Bool} {i : ℕ}

theorem getElem?_known_of_trusted {a : K} (hi : trusted[i]? = some true)
    (ha : values[i]? = some a) : (known values trusted)[i]? = some (some a) := by
  rw [known, List.getElem?_zipWith, hi, ha]
  rfl

theorem getElem?_known_of_untrusted (h : values.length = trusted.length)
    (hi : trusted[i]? = some false) : (known values trusted)[i]? = some none := by
  have hlt := (List.getElem?_eq_some_iff.1 hi).1
  rw [known, List.getElem?_zipWith, hi, List.getElem?_eq_getElem (by omega)]
  rfl

/-- What is known of the bins does not depend on the values of the others. -/
theorem known_congr (h : values.length = trusted.length) (hother : other.length = trusted.length)
    (hagree : ∀ i : ℕ, trusted[i]? = some true → other[i]? = values[i]?) :
    known other trusted = known values trusted := by
  apply List.ext_getElem?
  intro i
  cases hi : trusted[i]? with
  | none =>
    have hge := List.getElem?_eq_none_iff.1 hi
    rw [List.getElem?_eq_none (by rwa [length_known hother]),
      List.getElem?_eq_none (by rwa [length_known h])]
  | some t =>
    cases t with
    | false => rw [getElem?_known_of_untrusted hother hi, getElem?_known_of_untrusted h hi]
    | true =>
      have hlt := (List.getElem?_eq_some_iff.1 hi).1
      have hvalue := List.getElem?_eq_getElem (l := values) (i := i) (by omega)
      rw [getElem?_known_of_trusted hi hvalue,
        getElem?_known_of_trusted hi ((hagree i hi).trans hvalue)]

variable [OfScientific K] [Add K] [Sub K] [Mul K] [Div K]

/-- Nothing can be filled in exactly if no bin is trusted. -/
theorem fillUntrusted_eq_none_iff (h : values.length = trusted.length) :
    Denoise.fillUntrusted values trusted = none ↔ true ∉ trusted := by
  cases hfirst : trusted.findIdx? id with
  | none =>
    refine iff_of_true (fillFrom_of_none 0 hfirst) fun hmem => ?_
    cases List.findIdx?_eq_none_iff.1 hfirst true hmem
  | some first =>
    obtain ⟨hlt, htrue, -⟩ := List.findIdx?_eq_some_iff_getElem.1 hfirst
    have hmem : true ∈ trusted := by
      rw [← (htrue : trusted[first] = true)]
      exact List.getElem_mem hlt
    refine iff_of_false ?_ (not_not_intro hmem)
    rw [Denoise.fillUntrusted, ← known, fillFrom_of_first hfirst (by omega)]
    exact Option.some_ne_none _

/-- The values of untrusted bins do not matter. -/
theorem fillUntrusted_congr (h : values.length = trusted.length)
    (hother : other.length = trusted.length)
    (hagree : ∀ i : ℕ, trusted[i]? = some true → other[i]? = values[i]?) :
    Denoise.fillUntrusted other trusted = Denoise.fillUntrusted values trusted :=
  congrArg (fillFrom 0) (known_congr h hother hagree)

/-- The pass in place leaves what the passes over lists give, and says whether there was a
trusted bin. -/
theorem fillInPlace_eq (h : values.length = trusted.length) :
    fillInPlace values trusted = .ok ((Denoise.fillUntrusted values trusted).isSome,
      (Denoise.fillUntrusted values trusted).getD values) := by
  rw [fillInPlace, fillUntrusted_eq h, ok_bind]
  cases Denoise.fillUntrusted values trusted <;> rfl

/-- Each bin by the trusted bins around it.  Only the values of trusted bins occur. -/
structure FilledBy (values : List K) (trusted : List Bool) (filled : List K) : Prop where
  length : filled.length = values.length
  /-- A trusted bin keeps its value. -/
  kept : ∀ i : ℕ, trusted[i]? = some true → filled[i]? = values[i]?
  /-- The bins before the first trusted one take its value. -/
  front : ∀ q : ℕ, trusted[q]? = some true → (∀ j < q, trusted[j]? = some false) →
    ∀ i < q, filled[i]? = values[q]?
  /-- The bins after the last trusted one take its value. -/
  back : ∀ p : ℕ, trusted[p]? = some true →
    (∀ j, p < j → j < trusted.length → trusted[j]? = some false) →
    ∀ i, p < i → i < trusted.length → filled[i]? = values[p]?
  /-- The bins between two trusted ones are on the line between them. -/
  line : ∀ (p q : ℕ) (a b : K), Neighbours trusted p q → values[p]? = some a →
    values[q]? = some b → ∀ i, p < i → i < q → filled[i]? = some (onLine a b p q i)

theorem filledBy (h : values.length = trusted.length) {filled : List K}
    (hfilled : Denoise.fillUntrusted values trusted = some filled) :
    FilledBy values trusted filled := by
  have hvalue : ∀ {i : ℕ}, trusted[i]? = some true → ∃ a, values[i]? = some a := by
    intro i hi
    have hlt := (List.getElem?_eq_some_iff.1 hi).1
    exact ⟨_, List.getElem?_eq_getElem (by omega)⟩
  have hunknown : ∀ {j : ℕ}, trusted[j]? = some false → (known values trusted)[j]? = some none :=
    getElem?_known_of_untrusted h
  constructor
  case length => rw [length_fillUntrusted hfilled, h, Nat.min_self]
  case kept =>
    intro i hi
    obtain ⟨a, ha⟩ := hvalue hi
    rw [ha, getElem?_filled_iff hfilled]
    exact .kept (getElem?_known_of_trusted hi ha)
  case front =>
    intro q hq hbefore i hi
    obtain ⟨b, hb⟩ := hvalue hq
    rw [hb, getElem?_filled_iff hfilled]
    exact .front (fun j hj => hunknown (hbefore j (by omega)))
      ⟨hi, getElem?_known_of_trusted hq hb, fun j _ hj => hunknown (hbefore j hj)⟩
  case back =>
    intro p hp hafter i hi hlt
    obtain ⟨a, ha⟩ := hvalue hp
    rw [ha, getElem?_filled_iff hfilled]
    refine .back ⟨hi, getElem?_known_of_trusted hp ha,
      fun j hj hji => hunknown (hafter j hj (by omega))⟩ fun j hj hjlt => ?_
    exact hunknown (hafter j (by omega) ((length_known h).symm ▸ hjlt))
  case line =>
    intro p q a b hpq ha hb i hp hq
    rw [getElem?_filled_iff hfilled]
    exact .line
      ⟨hp, getElem?_known_of_trusted hpq.left ha,
        fun j hj hji => hunknown (hpq.gap j hj (by omega))⟩
      ⟨hq, getElem?_known_of_trusted hpq.right hb,
        fun j hj hjq => hunknown (hpq.gap j (by omega) hjq)⟩

/-- What filling bins in place does, whatever the arithmetic is. -/
structure Interpolates (values : List K) (trusted : List Bool) : Prop where
  /-- The answer is no, and the bins are as they were, exactly if none of them is trusted. -/
  untouched_iff : fillInPlace values trusted = .ok (false, values) ↔ true ∉ trusted
  /-- Otherwise the answer is yes, and every bin is filled. -/
  filled : true ∈ trusted →
    ∃ filled, fillInPlace values trusted = .ok (true, filled) ∧ FilledBy values trusted filled
  /-- Other values in the bins that are not trusted make no difference. -/
  independent : ∀ other : List K, other.length = trusted.length →
    (∀ i : ℕ, trusted[i]? = some true → other[i]? = values[i]?) →
    fillUntrusted other trusted = fillUntrusted values trusted
  /-- A second pass changes nothing. -/
  idempotent : ∀ any left, fillInPlace values trusted = .ok (any, left) →
    fillInPlace left trusted = .ok (any, left)

theorem interpolates (h : values.length = trusted.length) : Interpolates values trusted := by
  constructor
  case untouched_iff =>
    rw [fillInPlace_eq h, ← fillUntrusted_eq_none_iff h]
    cases Denoise.fillUntrusted values trusted <;> simp
  case filled =>
    intro hany
    cases hfilled : Denoise.fillUntrusted values trusted with
    | none => exact absurd hany ((fillUntrusted_eq_none_iff h).1 hfilled)
    | some filled =>
      refine ⟨filled, ?_, filledBy h hfilled⟩
      rw [fillInPlace_eq h, hfilled]
      rfl
  case independent =>
    intro other hother hagree
    rw [fillUntrusted_eq hother, fillUntrusted_eq h, fillUntrusted_congr h hother hagree]
  case idempotent =>
    intro any left hleft
    rw [fillInPlace_eq h] at hleft
    cases hleft
    cases hfilled : Denoise.fillUntrusted values trusted with
    | none => rw [Option.getD_none, fillInPlace_eq h, hfilled]; rfl
    | some filled =>
      have hby := filledBy h hfilled
      have hlength := hby.length.trans h
      rw [Option.getD_some, fillInPlace_eq hlength, fillUntrusted_congr h hlength hby.kept, hfilled]
      rfl

end InPlace

/-! ## Exact arithmetic -/

section Exact

variable {K : Type} [Field K] [LinearOrder K] [IsStrictOrderedRing K]

/-- In exact arithmetic the steps of the line add up to its point. -/
theorem onLine_eq (a b : K) {p q i : ℕ} (hp : p < i) (hq : i < q) :
    onLine a b p q i = a + (b - a) * (i - p) / (q - p) := by
  rw [onLine, ofCount_natCast, ofCount_natCast, Nat.cast_sub hp.le, Nat.cast_sub (by omega),
    mul_div_assoc]

/-- A point on the line lies between the values at its ends. -/
theorem onLine_between (a b : K) {p q i : ℕ} (hp : p < i) (hq : i < q) :
    min a b ≤ onLine a b p q i ∧ onLine a b p q i ≤ max a b := by
  have hpi : (0 : K) < i - p := sub_pos.2 (Nat.cast_lt.2 hp)
  have hiq : (0 : K) < q - i := sub_pos.2 (Nat.cast_lt.2 hq)
  have hspan : (0 : K) < q - p := by linarith
  have hne := hspan.ne'
  have hcombo : onLine a b p q i = ((q - i) / (q - p) : K) • a + ((i - p) / (q - p) : K) • b := by
    rw [onLine_eq a b hp hq, smul_eq_mul, smul_eq_mul]
    field_simp
    ring
  have hsum : ((q : K) - i) / (q - p) + (i - p) / (q - p) = 1 := by
    rw [← add_div, sub_add_sub_cancel, div_self hne]
  have hleft := (div_pos hiq hspan).le
  have hright := (div_pos hpi hspan).le
  rw [hcombo]
  exact ⟨Convex.min_le_combo a b hleft hright hsum, Convex.combo_le_max a b hleft hright hsum⟩

/-- Filling bins in place gives each bin what the trusted bins around it say, in machine arithmetic
and in exact arithmetic.  In exact arithmetic the bins between two trusted ones lie on the line
between them, and so between their values. -/
theorem fillInPlace_interpolates (trusted : List Bool) :
    (∀ values : List Float32, values.length = trusted.length → Interpolates values trusted)
      ∧ ∀ (K : Type) [Field K] [LinearOrder K] [IsStrictOrderedRing K] (values : List K),
        values.length = trusted.length → Interpolates values trusted
          ∧ ∀ filled, fillInPlace values trusted = .ok (true, filled) →
            ∀ (p q : ℕ) (a b : K), Neighbours trusted p q → values[p]? = some a →
              values[q]? = some b → ∀ i, p < i → i < q → ∃ v, filled[i]? = some v
                ∧ v = a + (b - a) * (i - p) / (q - p) ∧ min a b ≤ v ∧ v ≤ max a b := by
  refine ⟨fun values h => interpolates h, fun K _ _ _ values h => ⟨interpolates h, ?_⟩⟩
  intro filled hfilled p q a b hpq ha hb i hp hq
  have hany : true ∈ trusted := List.mem_of_getElem? hpq.left
  obtain ⟨filled', hrun, hby⟩ := (interpolates h).filled hany
  obtain rfl : filled' = filled := by
    rw [hrun] at hfilled
    cases hfilled
    rfl
  exact ⟨_, hby.line p q a b hpq ha hb i hp hq, onLine_eq a b hp hq, onLine_between a b hp hq⟩

/-- Seven bins, of which the third and the sixth are trusted. -/
theorem fillInPlace_interpolates_specimen :
    (∃ filled, fillInPlace [9, 9, 1, 9, 9, 4, (9 : Float32)]
        [false, false, true, false, false, true, false] = .ok (true, filled)
      ∧ filled[0]? = some 1 ∧ filled[2]? = some 1 ∧ filled[3]? = some 2 ∧ filled[6]? = some 4)
      ∧ ∃ filled, fillInPlace [9, 9, 1, 9, 9, 4, (9 : ℚ)]
          [false, false, true, false, false, true, false] = .ok (true, filled)
        ∧ filled[4]? = some 3 := by
  have hneighbours : Neighbours [false, false, true, false, false, true, false] 2 5 := by
    refine ⟨by decide, rfl, rfl, fun j hj hjlt => ?_⟩
    interval_cases j <;> rfl
  obtain ⟨hcode, hexact⟩ :=
    fillInPlace_interpolates [false, false, true, false, false, true, false]
  constructor
  · obtain ⟨filled, hrun, hby⟩ := (hcode [9, 9, 1, 9, 9, 4, 9] rfl).filled (by decide)
    refine ⟨filled, hrun, hby.front 2 rfl (by decide) 0 (by decide), hby.kept 2 rfl, ?_, ?_⟩
    · rw [hby.line 2 5 1 4 hneighbours rfl rfl 3 (by decide) (by decide)]
      exact congrArg some (by decide +kernel)
    · refine hby.back 5 rfl (fun j hj hjlt => ?_) 6 (by decide) (by decide)
      obtain rfl : j = 6 := by
        simp only [List.length_cons, List.length_nil] at hjlt
        omega
      rfl
  · obtain ⟨hreference, hlines⟩ := hexact ℚ [9, 9, 1, 9, 9, 4, 9] rfl
    obtain ⟨filled, hrun, -⟩ := hreference.filled (by decide)
    obtain ⟨v, hentry, hv, -⟩ :=
      hlines filled hrun 2 5 1 4 hneighbours rfl rfl 4 (by decide) (by decide)
    refine ⟨filled, hrun, hentry.trans (congrArg some (hv.trans ?_))⟩
    norm_num

end Exact

end Checked

end Denoise
