import Denoise.Checked

/-!
# Checks that pass

Each operation gives its result where its condition holds, and a loop gives the last of
any states that its steps lead through (`forEach_eq`).  Most loops write a vector entry by
entry.  Their states are `written`: the front of the new vector, and the rest of the old.
-/

namespace Denoise

namespace Checked

variable {α β : Type}

/-! ## Single operations -/

@[simp]
theorem ok_bind (x : α) (f : α → Checked β) : (Except.ok x >>= f) = f x := rfl

@[simp]
theorem pure_eq_ok (x : α) : (pure x : Checked α) = .ok x := rfl

theorem require_eq {claim : Prop} [Decidable claim] (h : claim) : require claim = .ok () :=
  if_pos h

theorem get_eq {v : List α} {i : Nat} (h : i < v.length) : get v i = .ok v[i] := by
  rw [get, List.getElem?_eq_getElem h]

theorem put_eq {v : List α} {i : Nat} (h : i < v.length) (x : α) : put v i x = .ok (v.set i x) :=
  if_pos h

theorem slice_eq {v : List α} {start stop : Nat} (h : start ≤ stop) (hstop : stop ≤ v.length) :
    slice v start stop = .ok ((v.take stop).drop start) :=
  if_pos ⟨h, hstop⟩

/-- A range within a vector is filled, and the rest of it stays. -/
theorem fill_eq {v : List α} {start stop : Nat} (h : start ≤ stop) (hstop : stop ≤ v.length)
    (x : α) : fill v start stop x
      = .ok (v.take start ++ List.replicate (stop - start) x ++ v.drop stop) :=
  if_pos ⟨h, hstop⟩

theorem copyFrom_eq {old new : List α} (h : old.length = new.length) :
    copyFrom old new = .ok new :=
  if_pos h

theorem minus_eq {count taken : Nat} (h : taken ≤ count) : minus count taken = .ok (count - taken) :=
  if_pos h

theorem quotient_eq {count divisor : Nat} (h : divisor ≠ 0) :
    quotient count divisor = .ok (count / divisor) :=
  if_neg h

theorem rest_eq {count divisor : Nat} (h : divisor ≠ 0) :
    rest count divisor = .ok (count % divisor) :=
  if_neg h

theorem divisor_eq {K : Type} [OfScientific K] {count : Nat} (h : count ≠ 0) :
    (divisor count : Checked K) = .ok (ofCount count) :=
  if_neg h

/-- Bounds that are in order clamp as they do unchecked. -/
theorem clamp_eq {low high : Float32} (h : low ≤ high) (x : Float32) :
    clamp low high x = .ok (Denoise.clamp low high x) :=
  if_pos h

/-! ## Loops -/

/-- A loop whose steps lead from state to state gives the last of them. -/
theorem forEach_eq (body : Nat → α → Checked α) (state : Nat → α) {count first : Nat}
    (h : ∀ i, first ≤ i → i < first + count → body i (state i) = .ok (state (i + 1))) :
    forEach body count first (state first) = .ok (state (first + count)) := by
  induction count generalizing first with
  | zero => rfl
  | succ count ih =>
    rw [forEach, h first (Nat.le_refl _) (by omega), ok_bind, ih fun i hi hlt => h i (by omega) (by omega)]
    congr 2
    omega

/-- What every step keeps holds at the end. -/
theorem forEach_keeps {body : Nat → α → Checked α} (holds : Nat → α → Prop) {count first : Nat}
    {s : α} (hs : holds first s)
    (h : ∀ i s, first ≤ i → i < first + count → holds i s →
      ∃ t, body i s = .ok t ∧ holds (i + 1) t) :
    ∃ t, forEach body count first s = .ok t ∧ holds (first + count) t := by
  induction count generalizing first s with
  | zero => exact ⟨s, rfl, hs⟩
  | succ count ih =>
    obtain ⟨t, ht, hkept⟩ := h first s (Nat.le_refl _) (by omega) hs
    obtain ⟨u, hu, hend⟩ := ih hkept fun i s hi hlt => h i s (by omega) (by omega)
    refine ⟨u, by rw [forEach, ht, ok_bind, hu], ?_⟩
    rwa [show first + (count + 1) = first + 1 + count by omega]

/-- A vector of which the first `i` entries are new. -/
def written (new old : List α) (i : Nat) : List α := new.take i ++ old.drop i

section Written

variable {new old : List α} {i : Nat}

theorem written_zero (new old : List α) : written new old 0 = old := rfl

/-- When every entry is new, nothing is left of the old vector. -/
theorem written_all {n : Nat} (hnew : new.length = n) (hold : old.length = n) :
    written new old n = new := by
  rw [written, List.take_of_length_le (Nat.le_of_eq hnew), List.drop_of_length_le (Nat.le_of_eq hold),
    List.append_nil]

/-- A vector keeps its length while it is written. -/
theorem length_written (hnew : i ≤ new.length) (hold : i ≤ old.length) :
    (written new old i).length = old.length := by
  rw [written, List.length_append, List.length_take, List.length_drop, Nat.min_eq_left hnew]
  omega

/-- Writing the next entry is one entry more that is new. -/
theorem put_written (hnew : i < new.length) (hold : i < old.length) :
    put (written new old i) i new[i] = .ok (written new old (i + 1)) := by
  have htake : (new.take i).length = i := by
    rw [List.length_take]
    omega
  rw [put_eq (by rw [length_written (Nat.le_of_lt hnew) (Nat.le_of_lt hold)]; exact hold), written,
    written, List.set_append_right _ _ (Nat.le_of_eq htake), htake, Nat.sub_self,
    List.drop_eq_getElem_cons hold, List.set_cons_zero, List.take_succ_eq_append_getElem hnew,
    List.append_assoc, List.singleton_append]

/-- What was written can be read back. -/
theorem get_written_new {j : Nat} (hj : j < i) (hjnew : j < new.length) (hnew : i ≤ new.length)
    (hold : i ≤ old.length) : get (written new old i) j = .ok new[j] := by
  rw [get_eq (by rw [length_written hnew hold]; omega)]
  simp only [written, List.getElem_append, List.length_take, List.getElem_take]
  rw [dif_pos (by omega)]

/-- What is next in turn is still the old entry. -/
theorem get_written_old (hnew : i ≤ new.length) (hold : i < old.length) :
    get (written new old i) i = .ok old[i] := by
  rw [get_eq (by rw [length_written hnew (Nat.le_of_lt hold)]; exact hold)]
  simp only [written, List.getElem_append, List.length_take, Nat.min_eq_left hnew,
    List.getElem_drop]
  rw [dif_neg (Nat.lt_irrefl i)]
  congr 2
  omega

/-- A loop that writes one entry a step from `first` on, each as the vector is by then. -/
theorem forEach_put_from {body : Nat → List α → Checked (List α)} {first count : Nat}
    (hfront : new.take first = old.take first) (hnew : first + count ≤ new.length)
    (hold : first + count ≤ old.length)
    (h : ∀ i, first ≤ i → i < first + count → ∀ hi : i < new.length,
      body i (written new old i) = put (written new old i) i new[i]) :
    forEach body count first old = .ok (written new old (first + count)) := by
  have hstart : written new old first = old := by rw [written, hfront, List.take_append_drop]
  have hstep : ∀ i, first ≤ i → i < first + count →
      body i (written new old i) = .ok (written new old (i + 1)) := by
    intro i hfirst hi
    rw [h i hfirst hi (Nat.lt_of_lt_of_le hi hnew),
      put_written (Nat.lt_of_lt_of_le hi hnew) (Nat.lt_of_lt_of_le hi hold)]
  have hloop := forEach_eq body (written new old) hstep
  rwa [hstart] at hloop

/-- A loop that writes one entry a step, each as the vector is by then, has copied the
front. -/
theorem forEach_put {body : Nat → List α → Checked (List α)} {count : Nat}
    (hnew : count ≤ new.length) (hold : count ≤ old.length)
    (h : ∀ i, i < count → ∀ hi : i < new.length,
      body i (written new old i) = put (written new old i) i new[i]) :
    forEach body count 0 old = .ok (written new old count) := by
  have hloop : forEach body count 0 old = .ok (written new old (0 + count)) :=
    forEach_put_from rfl (by omega) (by omega) fun i _ hi => h i (by omega)
  rwa [Nat.zero_add] at hloop

end Written

end Checked

end Denoise
