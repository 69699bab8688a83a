import Denoise.Checked.Bins
import Denoise.Proofs.Checked
import Denoise.Proofs.Sizes

/-!
# Passes over bins pass every check

The passes of this module give, check by check, what the passes over lists give.  The
window of a moving average never ends before it starts, and always holds the bin that it
is about, so there is a count to divide by.  Bins are filled only between two trusted
ones, which lie apart.
-/

namespace Denoise

namespace Checked

variable {α β : Type}

/-- A pass that reads the next `count` entries. -/
theorem forEach_get (f : β → α → β) (v : List α) {count first : Nat} (s : β)
    (h : first + count ≤ v.length) :
    forEach (fun j s => do return f s (← get v j)) count first s
      = .ok (((v.drop first).take count).foldl f s) := by
  induction count generalizing first s with
  | zero => rfl
  | succ count ih =>
    rw [forEach, get_eq (by omega), ok_bind, pure_eq_ok, ok_bind, ih _ (by omega),
      List.drop_eq_getElem_cons (by omega : first < v.length), List.take_succ_cons, List.foldl_cons]

/-! ## Moving averages -/

/-- A moving average under way has the sum of a pass over lists. -/
structure Tracks (bins : List Float32) (s : Sliding) (r : RunningSum Float32 Float) : Prop where
  sum : s.sum = r.sum
  low : s.low = r.low
  high : s.high = r.high
  leaving : r.leaving = bins.drop r.low
  entering : r.entering = bins.drop r.high

section MovingAverage

variable {bins : List Float32} {before after i : Nat} {s : Sliding} {r : RunningSum Float32 Float}

/-- The window moves on by one bin. -/
theorem averageAt_eq (h : Tracks bins s r) (hi : i < bins.length)
    (hout : i < s.averages.length) (hlow : r.low ≤ i - before)
    (hhigh : r.high ≤ min (i + after + 1) bins.length) :
    let next := r.moveTo .float (i - before) (min (i + after + 1) bins.length)
    ∃ t, averageAt bins before after i s = .ok t ∧ Tracks bins t next
      ∧ t.averages = s.averages.set i (next.mean .float) := by
  intro next
  have henter : enter bins (min (i + after + 1) bins.length - s.high) s.high s.sum = .ok _ :=
    forEach_get (fun sum x => sum + widen x) bins s.sum (by rw [h.high]; omega)
  have hleave : ∀ sum, leave bins (i - before - s.low) s.low sum = .ok _ := fun sum =>
    forEach_get (fun sum x => sum - widen x) bins sum (by rw [h.low]; omega)
  have hmaxHigh : max s.high (min (i + after + 1) bins.length) = min (i + after + 1) bins.length := by
    rw [h.high]
    omega
  have hmaxLow : max s.low (i - before) = i - before := by
    rw [h.low]
    omega
  -- the bin itself is under the window
  have hcount : min (i + after + 1) bins.length - (i - before) ≠ 0 := by omega
  simp only [averageAt, henter, hleave, ok_bind, hmaxHigh, hmaxLow]
  rw [minus_eq (by omega), ok_bind, divisor_eq hcount, ok_bind, put_eq hout, ok_bind]
  refine ⟨_, rfl, ⟨?_, rfl, rfl, ?_, ?_⟩, ?_⟩
  · simp only [next, RunningSum.moveTo, h.sum, h.low, h.high, h.leaving, h.entering, Passage.float]
  · simp only [next, RunningSum.moveTo, h.leaving, List.drop_drop]
    congr 1
    omega
  · simp only [next, RunningSum.moveTo, h.entering, List.drop_drop]
    congr 1
    omega
  · simp only [next, RunningSum.mean, RunningSum.moveTo, h.sum, h.low, h.high, h.leaving,
      h.entering, Passage.float]

/-- The averages from bin `i` on are those of the pass over the list. -/
theorem forEach_averageAt (before after count : Nat) (h : Tracks bins s r) (hcount : i + count = bins.length)
    (hout : s.averages.length = bins.length) (hlow : r.low ≤ i - before)
    (hhigh : r.high ≤ min (i + after + 1) bins.length) :
    ∃ t, forEach (averageAt bins before after) count i s = .ok t
      ∧ t.averages = s.averages.take i
        ++ averagesAt .float before after bins.length r (List.range' i count) := by
  induction count generalizing i s r with
  | zero =>
    refine ⟨s, rfl, ?_⟩
    rw [List.range'_zero, averagesAt, List.append_nil, List.take_of_length_le (by omega)]
  | succ count ih =>
    obtain ⟨next, hnext, htracks, haverages⟩ := averageAt_eq h (by omega) (by omega) hlow hhigh
    have hlowNext : next.low = i - before := htracks.low
    obtain ⟨t, ht, htAverages⟩ := @ih (i + 1) next _ htracks (by omega)
      (by rw [haverages, List.length_set, hout]) (by show i - before ≤ _; omega)
      (by show min (i + after + 1) bins.length ≤ _; omega)
    refine ⟨t, by rw [forEach, hnext, ok_bind, ht], ?_⟩
    rw [htAverages, haverages, List.range'_succ, averagesAt,
      List.take_succ_eq_append_getElem (by rw [List.length_set]; omega), List.getElem_set_self,
      List.take_set_of_le (Nat.le_refl i), List.append_assoc, List.singleton_append]

end MovingAverage

theorem movingAverage_eq {width : Nat} {bins out : List Float32} (h : bins.length = out.length) :
    movingAverage width bins out = .ok (Denoise.movingAverage .float width bins) := by
  rw [movingAverage, require_eq h, ok_bind, Denoise.movingAverage]
  by_cases hsmall : width ≤ 1
  · rw [if_pos (.inr hsmall), if_pos hsmall, copyFrom_eq h.symm]
  · rw [if_neg hsmall]
    by_cases hnone : bins.length = 0
    · obtain rfl := List.length_eq_zero_iff.1 hnone
      rw [if_pos (.inl rfl), copyFrom_eq h.symm]
      rfl
    · have hleft : width / 2 ≤ width := Nat.div_le_self _ _
      have htracks : Tracks bins ⟨out, 0, 0, 0⟩ (.start bins) := ⟨rfl, rfl, rfl, rfl, rfl⟩
      obtain ⟨t, ht, haverages⟩ := forEach_averageAt (width / 2) (width - width / 2 - 1)
        bins.length htracks (Nat.zero_add _) h.symm (Nat.zero_le _) (Nat.zero_le _)
      rw [if_neg (by omega)]
      simp only [minus_eq hleft, ok_bind]
      rw [minus_eq (by omega), ok_bind, ← h, ht, ok_bind, haverages, List.take_zero,
        List.nil_append, pure_eq_ok, List.range_eq_range']

/-! ## Order statistics -/

theorem percentile_eq (ascending : List Float32) (fraction : Float32) :
    percentile ascending fraction = .ok (Denoise.percentile ascending fraction) := by
  rw [percentile, Denoise.percentile]
  cases ascending with
  | nil => rfl
  | cons x later =>
    have hunit : (0 : Float32) ≤ 1 := by decide
    rw [if_neg (by simp), minus_eq (by simp), ok_bind, clamp_eq hunit, ok_bind]
    simp only [ok_bind]
    rw [get_eq (by simp), List.getD_eq_getElem?_getD, List.getElem?_eq_getElem (by simp),
      Option.getD_some]

/-! ## Filling -/

section Filling

variable {K : Type}

/-- The values of the trusted bins. -/
def known (values : List K) (trusted : List Bool) : List (Option K) :=
  List.zipWith (fun v t => if t then some v else none) values trusted

variable {values : List K} {trusted : List Bool}

theorem length_known (h : values.length = trusted.length) :
    (known values trusted).length = trusted.length := by
  rw [known, List.length_zipWith, h, Nat.min_self]

theorem drop_known {i : Nat} (hvalues : i < values.length) (htrusted : i < trusted.length) :
    (known values trusted).drop i
      = (if trusted[i] then some values[i] else none) :: (known values trusted).drop (i + 1) := by
  have hi : i < (known values trusted).length := by
    rw [known, List.length_zipWith]
    omega
  rw [List.drop_eq_getElem_cons hi]
  simp only [known, List.getElem_zipWith]

/-- Before the first trusted bin there is no other. -/
theorem before_first {first j : Nat} (h : trusted.findIdx? id = some first) (hj : j < first) :
    trusted[j]? ≠ some true := by
  obtain ⟨hfirst, -, hbefore⟩ := List.findIdx?_eq_some_iff_getElem.1 h
  rw [List.getElem?_eq_getElem (by omega)]
  exact fun htrue => hbefore j hj (Option.some.inj htrue)

/-- After the last trusted bin there is no other. -/
theorem lastTrusted?_eq {first : Nat} (h : trusted.findIdx? id = some first) :
    ∃ last, lastTrusted? trusted = some last ∧ first ≤ last ∧ trusted[last]? = some true
      ∧ ∀ j, last < j → j < trusted.length → trusted[j]? = some false := by
  obtain ⟨hfirst, htrue, -⟩ := List.findIdx?_eq_some_iff_getElem.1 h
  cases hback : trusted.reverse.findIdx? id with
  | none =>
    have hall := List.findIdx?_eq_none_iff.1 hback trusted[first]
      (List.mem_reverse.2 (List.getElem_mem hfirst))
    rw [htrue] at hall
    cases hall
  | some back =>
    obtain ⟨hlt, hbackTrue, hbefore⟩ := List.findIdx?_eq_some_iff_getElem.1 hback
    rw [List.length_reverse] at hlt
    have hlater : ∀ j, trusted.length - 1 - back < j → j < trusted.length →
        trusted[j]? = some false := by
      intro j hj hjlt
      have hmirror := hbefore (trusted.length - 1 - j) (by omega)
      rw [List.getElem_reverse] at hmirror
      have hindex : trusted.length - 1 - (trusted.length - 1 - j) = j := by omega
      simp only [hindex, id, Bool.not_eq_true] at hmirror
      rw [List.getElem?_eq_getElem hjlt, hmirror]
    have hlast : trusted[trusted.length - 1 - back]? = some true := by
      rw [List.getElem_reverse] at hbackTrue
      rw [List.getElem?_eq_getElem (by omega)]
      exact congrArg some hbackTrue
    refine ⟨trusted.length - 1 - back, by rw [lastTrusted?, hback, Option.map_some], ?_, hlast,
      hlater⟩
    by_contra hlt
    have hfalse := hlater first (by omega) hfirst
    rw [List.getElem?_eq_getElem hfirst] at hfalse
    rw [Option.some.inj hfalse] at htrue
    cases htrue

/-- The bins outside of the trusted ones take the values at the edges. -/
theorem edges_eq {first last : Nat} (hle : first ≤ last) (hlast : last < values.length) :
    ∃ front edged, fill values 0 first values[first] = .ok front
      ∧ get front last = .ok values[last]
      ∧ fill front (last + 1) front.length values[last] = .ok edged
      ∧ edged.length = values.length
      ∧ edged.take first = List.replicate first values[first]
      ∧ (∀ j, first ≤ j → j ≤ last → edged[j]? = values[j]?)
      ∧ edged.drop (last + 1) = List.replicate (values.length - (last + 1)) values[last] := by
  let front := List.replicate first values[first] ++ values.drop first
  let edged := front.take (last + 1) ++ List.replicate (values.length - (last + 1)) values[last]
  have hfront : front.length = values.length := by
    simp only [front, List.length_append, List.length_replicate, List.length_drop]
    omega
  have hrest : ∀ j, first ≤ j → front[j]? = values[j]? := by
    intro j hj
    simp only [front]
    rw [List.getElem?_append_right (by rwa [List.length_replicate]), List.length_replicate,
      List.getElem?_drop, show first + (j - first) = j by omega]
  have htake : (front.take (last + 1)).length = last + 1 := by
    rw [List.length_take]
    omega
  refine ⟨front, edged, fill_eq (Nat.zero_le first) (by omega) _, ?_, ?_, ?_, ?_, ?_, ?_⟩
  · rw [get, hrest last hle, List.getElem?_eq_getElem hlast]
  · rw [fill_eq (by omega) (Nat.le_refl _), List.drop_length, List.append_nil, hfront]
  · simp only [edged, List.length_append, List.length_replicate, htake]
    omega
  · simp only [edged]
    rw [List.take_append_of_le_length (by omega), List.take_take, Nat.min_eq_left (by omega)]
    exact List.take_left' List.length_replicate
  · intro j hfirst hj
    simp only [edged]
    rw [List.getElem?_append_left (by omega), List.getElem?_take_of_lt (by omega), hrest j hfirst]
  · simp only [edged]
    rw [List.drop_left' htake]

variable [OfScientific K] [Add K] [Sub K] [Mul K] [Div K]

/-- A bin that is not known gets the value of the last known one. -/
theorem fillAfter_of_unknown (a : K) (gap : Nat) {bins : List (Option K)}
    (h : ∀ bin ∈ bins, bin = none) :
    fillAfter a gap bins = List.replicate (gap + bins.length) a := by
  induction bins generalizing gap with
  | nil => rfl
  | cons bin later ih =>
    obtain rfl := h bin List.mem_cons_self
    rw [fillAfter, ih _ fun bin hbin => h bin (List.mem_cons_of_mem _ hbin), List.length_cons]
    congr 1
    omega

theorem fillFrom_of_none (gap : Nat) (h : trusted.findIdx? id = none) :
    fillFrom gap (known values trusted) = none := by
  induction trusted generalizing values gap with
  | nil => rw [known, List.zipWith_nil_right, fillFrom]
  | cons t later ih =>
    cases values with
    | nil => rfl
    | cons v values =>
      rw [List.findIdx?_cons] at h
      cases t with
      | true => simp at h
      | false =>
        rw [known, List.zipWith_cons_cons]
        exact ih (gap + 1) (by simpa using h)

theorem fillFrom_of_first {gap first : Nat} (h : trusted.findIdx? id = some first)
    (hfirst : first < values.length) :
    fillFrom gap (known values trusted)
      = some (List.replicate (gap + first) values[first]
        ++ values[first] :: fillAfter values[first] 0 ((known values trusted).drop (first + 1))) := by
  induction trusted generalizing values gap first with
  | nil => cases h
  | cons t later ih =>
    cases values with
    | nil => exact absurd hfirst (Nat.not_lt_zero _)
    | cons v values =>
      rw [List.findIdx?_cons] at h
      cases t with
      | true =>
        obtain rfl : 0 = first := by simpa using h
        rfl
      | false =>
        obtain ⟨first', hlater, rfl⟩ : ∃ n, later.findIdx? id = some n ∧ n + 1 = first := by
          simpa using h
        have hstep := @ih values (gap + 1) first' hlater (Nat.lt_of_succ_lt_succ hfirst)
        rw [known, List.zipWith_cons_cons]
        show fillFrom (gap + 1) (known values later) = _
        rw [hstep]
        simp only [List.getElem_cons_succ, List.drop_succ_cons, known]
        rw [show gap + 1 + first' = gap + (first' + 1) by omega]

/-- The bins between two trusted ones, on the line between them. -/
theorem bridge_eq {last i : Nat} (hlast : last < i) (hi : i < values.length) :
    bridge values last i = .ok (values.take (last + 1)
      ++ Denoise.bridge (i - (last + 1)) values[last] values[i] ++ values.drop i) := by
  let ramp := Denoise.bridge (i - (last + 1)) values[last] values[i]
  let new := values.take (last + 1) ++ ramp ++ values.drop i
  have hramp : ramp.length = i - (last + 1) := length_bridge _ _ _
  have hfront : (values.take (last + 1)).length = last + 1 := by
    rw [List.length_take]
    omega
  have hnew : new.length = values.length := by
    simp only [new, List.length_append, hramp, hfront, List.length_drop]
    omega
  have htake : new.take (last + 1) = values.take (last + 1) := by
    simp only [new, List.append_assoc]
    rw [List.take_append_of_le_length (Nat.le_of_eq hfront.symm), List.take_take, Nat.min_self]
  have hdone : written new values i = new := by
    have hdrop : new.drop i = values.drop i := by
      have hlength : (values.take (last + 1) ++ ramp).length = i := by
        rw [List.length_append, hfront, hramp]
        omega
      simp only [new]
      rw [List.drop_left' hlength]
    rw [written, ← hdrop, List.take_append_drop]
  have hentry : ∀ j, last + 1 ≤ j → j < i → ∀ hj : j < new.length,
      new[j] = values[last] + (values[i] - values[last]) *
        (ofCount (j - last) / ofCount (i - last)) := by
    intro j hfirst hj hjnew
    have hbridged : new[j]? = ramp[j - (last + 1)]? := by
      simp only [new]
      rw [List.append_assoc, List.getElem?_append_right (by omega), hfront,
        List.getElem?_append_left (by omega)]
    have hindex : j - (last + 1) < ramp.length := by omega
    rw [List.getElem?_eq_getElem hjnew, List.getElem?_eq_getElem hindex] at hbridged
    rw [Option.some.inj hbridged]
    simp only [ramp, Denoise.bridge, List.getElem_map, List.getElem_range]
    rw [show j - (last + 1) + 1 = j - last by omega, show i - (last + 1) + 1 = i - last by omega]
  rw [bridge, get_eq (by omega), ok_bind, get_eq hi, ok_bind, minus_eq (by omega), ok_bind,
    divisor_eq (by omega), ok_bind, forEach_put_from htake (by omega) (by omega),
    show last + 1 + (i - (last + 1)) = i by omega, hdone]
  intro j hfirst hj hjnew
  rw [minus_eq (by omega), ok_bind, hentry j hfirst (by omega)]

/-- Bins being filled, bin `i` next.  `edged` is what they were when the loop began, and
`filled` is what they become. -/
structure Fills (values : List K) (trusted : List Bool) (edged filled : List K) (i : Nat)
    (f : Filling K) : Prop where
  passed : f.last < i
  lastTrusted : trusted[f.last]? = some true
  untrusted : ∀ j, f.last < j → j < i → trusted[j]? = some false
  length : f.values.length = edged.length
  rest : f.values.drop f.last = edged.drop f.last
  result : ∀ a, edged[f.last]? = some a →
    f.values.take (f.last + 1) ++ fillAfter a (i - (f.last + 1)) ((known values trusted).drop i)
      = filled

section Loop

variable {edged filled : List K} {i : Nat} {f : Filling K}

/-- From the last trusted bin on, nothing has been written. -/
theorem Fills.getElem?_values (h : Fills values trusted edged filled i f) {j : Nat}
    (hj : f.last ≤ j) : f.values[j]? = edged[j]? := by
  have hrest := congrArg (fun v : List K => v[j - f.last]?) h.rest
  simp only [List.getElem?_drop, show f.last + (j - f.last) = j by omega] at hrest
  exact hrest

theorem passBin_eq (h : Fills values trusted edged filled i f)
    (hlength : values.length = trusted.length) (hedged : edged.length = values.length)
    (hagree : ∀ j : Nat, trusted[j]? = some true → edged[j]? = values[j]?) (hi : i < trusted.length) :
    ∃ g, passBin trusted i f = .ok g ∧ Fills values trusted edged filled (i + 1) g := by
  have hpassed := h.passed
  have hfilled := h.result
  rw [drop_known (by omega) hi] at hfilled
  rw [passBin, get_eq hi, ok_bind]
  cases htrusted : trusted[i] with
  | false =>
    refine ⟨f, rfl, by omega, h.lastTrusted, ?_, h.length, h.rest, ?_⟩
    · intro j hj hjlt
      rcases Nat.lt_or_ge j i with hlt | hge
      · exact h.untrusted j hj hlt
      · obtain rfl : j = i := by omega
        rw [List.getElem?_eq_getElem hi, htrusted]
    · intro a ha
      have hstep := hfilled a ha
      rw [htrusted, if_neg (by decide), fillAfter] at hstep
      rwa [show i + 1 - (f.last + 1) = i - (f.last + 1) + 1 by omega]
  | true =>
    have hlast : f.last < f.values.length := by
      rw [h.length, hedged]
      omega
    have hivalues : i < f.values.length := by
      rw [h.length, hedged, hlength]
      exact hi
    have hofLast : edged[f.last]? = some f.values[f.last] := by
      rw [← h.getElem?_values (Nat.le_refl _), List.getElem?_eq_getElem hlast]
    have hofI : f.values[i] = values[i] := by
      apply Option.some.inj
      rw [← List.getElem?_eq_getElem hivalues, ← List.getElem?_eq_getElem,
        h.getElem?_values (Nat.le_of_lt hpassed)]
      exact hagree i (by rw [List.getElem?_eq_getElem hi, htrusted])
    have hstep := hfilled _ hofLast
    rw [htrusted, if_pos rfl, fillAfter, ← hofI] at hstep
    -- with the bins up to this one written, the rest is as it was
    have hnext : ∀ new : List K,
        new = f.values.take (f.last + 1)
          ++ Denoise.bridge (i - (f.last + 1)) f.values[f.last] f.values[i] ++ f.values.drop i →
        Fills values trusted edged filled (i + 1) ⟨new, i⟩ := by
      intro new hnew
      have hfront : (f.values.take (f.last + 1)
          ++ Denoise.bridge (i - (f.last + 1)) f.values[f.last] f.values[i]).length = i := by
        rw [List.length_append, List.length_take, length_bridge]
        omega
      have hdrop : new.drop i = edged.drop i := by
        rw [hnew, List.drop_left' hfront]
        apply List.ext_getElem?
        intro j
        rw [List.getElem?_drop, List.getElem?_drop, h.getElem?_values (by omega)]
      have htake : new.take (i + 1) = f.values.take (f.last + 1)
          ++ Denoise.bridge (i - (f.last + 1)) f.values[f.last] f.values[i] ++ [f.values[i]] := by
        rw [hnew, List.take_append, hfront, List.take_of_length_le (by omega),
          List.drop_eq_getElem_cons hivalues, show i + 1 - i = 1 by omega, List.take_succ_cons,
          List.take_zero]
      refine ⟨Nat.lt_succ_self i, by rw [List.getElem?_eq_getElem hi, htrusted], ?_, ?_, hdrop, ?_⟩
      · intro j hj hjlt
        have hj : i < j := hj
        omega
      · rw [hnew, List.length_append, hfront, List.length_drop, ← h.length]
        omega
      · intro a ha
        have ha : edged[i]? = some a := ha
        rw [← h.getElem?_values (Nat.le_of_lt hpassed), List.getElem?_eq_getElem hivalues] at ha
        obtain rfl := Option.some.inj ha
        show new.take (i + 1) ++ _ = filled
        rw [htake, Nat.sub_self, List.append_assoc, List.singleton_append]
        rw [List.append_assoc]
        exact hstep
    by_cases hgap : f.last + 1 < i
    · refine ⟨_, ?_, hnext _ rfl⟩
      rw [if_pos rfl, if_pos hgap, bridge_eq hpassed hivalues, ok_bind, pure_eq_ok]
    · refine ⟨_, ?_, hnext f.values ?_⟩
      · rw [if_pos rfl, if_neg hgap, pure_eq_ok]
      · have hnone : i - (f.last + 1) = 0 := by omega
        rw [hnone, Denoise.bridge, List.range_zero, List.map_nil, List.append_nil,
          show f.last + 1 = i by omega, List.take_append_drop]

end Loop

/-- The bins filled in place are those that a pass over lists fills. -/
theorem fillUntrusted_eq (h : values.length = trusted.length) :
    fillUntrusted values trusted = .ok (Denoise.fillUntrusted values trusted) := by
  have hknown : Denoise.fillUntrusted values trusted = fillFrom 0 (known values trusted) := rfl
  rw [fillUntrusted, require_eq h, ok_bind, hknown]
  cases hfirst : trusted.findIdx? id with
  | none =>
    rw [fillFrom_of_none 0 hfirst]
    rfl
  | some first =>
    obtain ⟨hlt, htrue, -⟩ := List.findIdx?_eq_some_iff_getElem.1 hfirst
    obtain ⟨last, hlast, hle, hlastTrue, hlater⟩ := lastTrusted?_eq hfirst
    have hlastLt : last < trusted.length := (List.getElem?_eq_some_iff.1 hlastTrue).1
    have hfirstValues : first < values.length := by omega
    obtain ⟨front, edged, hfront, hfrontLast, hedged, hlength, hbefore, hbetween, hafter⟩ :=
      @edges_eq K values first last hle (by omega)
    have hagree : ∀ j : Nat, trusted[j]? = some true → edged[j]? = values[j]? := by
      intro j hj
      have hjlt := (List.getElem?_eq_some_iff.1 hj).1
      refine hbetween j ?_ ?_
      · by_contra hbefore
        exact before_first hfirst (by omega) hj
      · by_contra hafter
        rw [hlater j (by omega) hjlt] at hj
        cases hj
    have hstart : Fills values trusted edged
        (List.replicate (0 + first) values[first] ++ values[first]
          :: fillAfter values[first] 0 ((known values trusted).drop (first + 1)))
        (first + 1) ⟨edged, first⟩ := by
      refine ⟨Nat.lt_succ_self first, by rw [List.getElem?_eq_getElem hlt]; exact congrArg some htrue,
        fun j hj hjlt => absurd hjlt (Nat.not_lt.2 hj), rfl, rfl, ?_⟩
      intro a ha
      have ha : edged[first]? = some a := ha
      have hofFirst := hbetween first (Nat.le_refl first) hle
      rw [ha, List.getElem?_eq_getElem hfirstValues] at hofFirst
      obtain rfl := Option.some.inj hofFirst
      show edged.take (first + 1) ++ fillAfter _ (first + 1 - (first + 1)) _ = _
      rw [List.take_add_one, hbefore, ha, Nat.sub_self, Nat.zero_add, List.append_assoc]
      rfl
    obtain ⟨g, hg, hend⟩ := @forEach_keeps _ (passBin trusted)
      (Fills values trusted edged _) (last - first) (first + 1) _ hstart fun i f hi hlt hf =>
      passBin_eq hf h hlength hagree (by omega)
    rw [show first + 1 + (last - first) = last + 1 by omega] at hend
    -- the last trusted bin has been passed, and all after it have its value
    have hpassed : g.last = last := by
      by_contra hne
      have hpassed := hend.passed
      rw [hend.untrusted last (by omega) (Nat.lt_succ_self last)] at hlastTrue
      cases hlastTrue
    have hlastValues : last < values.length := by omega
    have hresult := hend.result values[last]
      (by rw [hpassed, hbetween last hle (Nat.le_refl last), List.getElem?_eq_getElem hlastValues])
    have hunknown : ∀ bin ∈ (known values trusted).drop (last + 1), bin = none := by
      intro bin hbin
      obtain ⟨j, hj, rfl⟩ := List.mem_iff_getElem.1 hbin
      rw [List.length_drop, length_known h] at hj
      have hfalse := hlater (last + 1 + j) (by omega) (by omega)
      rw [List.getElem?_eq_getElem (by omega)] at hfalse
      simp only [List.getElem_drop, known, List.getElem_zipWith, Option.some.inj hfalse]
      rfl
    have hrest : g.values.drop (last + 1) = edged.drop (last + 1) := by
      have hdrop := congrArg (List.drop 1) hend.rest
      rwa [List.drop_drop, List.drop_drop, hpassed] at hdrop
    rw [hpassed, Nat.sub_self, fillAfter_of_unknown _ _ hunknown, List.length_drop, length_known h,
      Nat.zero_add, ← h, ← hafter, ← hrest, List.take_append_drop] at hresult
    rw [fillFrom_of_first hfirst hfirstValues]
    simp only [hlast, Option.getD_some]
    rw [get_eq hfirstValues, ok_bind, hfront, ok_bind, hfrontLast, ok_bind, hedged, ok_bind, hg,
      ok_bind, pure_eq_ok, hresult]

end Filling

end Checked

end Denoise
