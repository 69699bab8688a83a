import Denoise.Proofs.Ranks
import Denoise.Proofs.Session
import Denoise.Proofs.Spreads

/-!
# Overlap-add of many frames

`overlapAddAll` adds frames one after another, each to the tail of the one before.  From a
tail of zeros that is the sum of the frames, each shifted by a hop more than the last
(`overlapAdd_run`).

A position of the output gathers two samples at most, from the places `carried` and `fresh`.
`gathered` is what they come to.  It is exact in any arithmetic (`Overlap.overlapAddAll_eq`), by
adding a frame at the end: `overlapAdd_eq` is one frame.

In the sum of all shifted frames every other frame gives a zero.  Only the sign of a zero
tells a sum with such zeros from one without, so the two are compared up to a relation for
which a zero is neutral (`ZeroNeutral`).  It is equality where the arithmetic is exact, and
on singles it is equality but for the sign of a zero (`Singles.Alike`).
-/

namespace Denoise

/-! ## Frames one after another -/

section Run

variable {K : Type} [Zero K] [Add K] [Mul K]

/-- Frames added one after another, the first one to the tail given. -/
def overlapAddAll (hop : Nat) (scale : K) :
    (tail : List (Phasor K)) → (frames : List (List (Phasor K))) → Overlapped K
  | tail, [] => ⟨[], tail⟩
  | tail, frame :: frames =>
    let first := overlapAdd hop scale tail frame
    let later := overlapAddAll hop scale first.tail frames
    ⟨first.out ++ later.out, later.tail⟩

/-- The frames that a chain adds up on its way along some frames: back in time, with its
gains applied. -/
def Chain.synthesized (p : Plan) (held : Bool) : List (List Sample) → Chain → List (List Sample)
  | [], _ => []
  | frame :: later, c =>
    let done := c.step p held (p.spectrum frame)
    invert p.numerics.transform (applyGains (p.spectrum frame) done.chain.gains)
      :: Chain.synthesized p held later done.chain

/-- What a chain puts out along some frames, and the tail it keeps, is such a run. -/
theorem Chain.overlapAddAll_synthesized (p : Plan) (held : Bool) (frames : List (List Sample))
    (c : Chain) :
    overlapAddAll p.geometry.hop p.outputScale c.memory.tail (c.synthesized p held frames)
      = ⟨(c.hops p held frames).flatten, (c.along p held frames).memory.tail⟩ := by
  induction frames generalizing c with
  | nil => rfl
  | cons frame later ih =>
    have hlater := ih (c.step p held (p.spectrum frame)).chain
    rw [Overlapped.mk.injEq, Chain.along_cons, Chain.hops, List.flatten_cons]
    exact ⟨congrArg₂ (· ++ ·) rfl (congrArg Overlapped.out hlater),
      congrArg Overlapped.tail hlater⟩

/-- One frame more is added to the tail that the frames before it left. -/
theorem overlapAddAll_concat (hop : Nat) (scale : K) (tail frame : List (Phasor K))
    (frames : List (List (Phasor K))) :
    overlapAddAll hop scale tail (frames ++ [frame])
      = ⟨(overlapAddAll hop scale tail frames).out
            ++ (overlapAdd hop scale (overlapAddAll hop scale tail frames).tail frame).out,
          (overlapAdd hop scale (overlapAddAll hop scale tail frames).tail frame).tail⟩ := by
  induction frames generalizing tail with
  | nil => simp [overlapAddAll]
  | cons first frames ih => simp [overlapAddAll, ih]

/-- One frame: its front half meets the tail, and its back half is the next tail. -/
theorem overlapAdd_eq (hop : Nat) (scale : K) {tail frame : List (Phasor K)}
    (htail : tail.length = hop) (hframe : 2 * hop ≤ frame.length) :
    overlapAdd hop scale tail frame
      = ⟨(List.range hop).map fun i => (tail.getD i 0 + frame.getD i 0).scale scale,
          (List.range hop).map fun i => frame.getD (hop + i) 0⟩ := by
  rw [overlapAdd, Overlapped.mk.injEq]
  constructor
  · refine List.ext_getElem (by simp [htail]; omega) fun i hi _ => ?_
    simp only [List.length_zipWith, List.length_append, List.length_replicate,
      List.length_take] at hi
    have hitail : i < tail.length := by omega
    have hiframe : i < frame.length := by omega
    simp [hitail, hiframe, List.getElem_append_left hitail]
  · refine List.ext_getElem (by simp; omega) fun i hi _ => ?_
    simp only [List.length_take, List.length_drop] at hi
    have hiframe : hop + i < frame.length := by omega
    simp [hiframe]

end Run

namespace Overlap

/-! ## Places -/

/-- The place in the back half of a frame that a position is carried from.  For the first
hop there is none. -/
def carried (g : Geometry) (t : Nat) : Option (Nat × Nat) :=
  if t < g.hop then none else some (t / g.hop - 1, g.hop + t % g.hop)

/-- The place in the front half of a frame that a position has. -/
def fresh (g : Geometry) (t : Nat) : Nat × Nat := (t / g.hop, t % g.hop)

/-- The places that meet at a position. -/
def meeting (g : Geometry) (t : Nat) : List (Nat × Nat) := (carried g t).toList ++ [fresh g t]

/-- The places that are left in the tail after so many frames. -/
def leftover (g : Geometry) : (count : Nat) → List (Nat × Nat)
  | 0 => []
  | last + 1 => (List.range g.hop).map fun i => (last, g.hop + i)

/-- Position `i` of the hop that a frame gives. -/
theorem fresh_hop {g : Geometry} {i : Nat} (hi : i < g.hop) (index : Nat) :
    fresh g (index * g.hop + i) = (index, i) := by
  rw [fresh, Nat.mul_comm, Nat.mul_add_div g.hop_pos, Nat.div_eq_of_lt hi, Nat.add_zero,
    Nat.mul_add_mod, Nat.mod_eq_of_lt hi]

/-- Nothing is carried into the first hop. -/
theorem carried_first {g : Geometry} {i : Nat} (hi : i < g.hop) :
    carried g (0 * g.hop + i) = none := by
  rw [Nat.zero_mul, Nat.zero_add, carried, if_pos hi]

/-- Into every later hop the back half of the frame before is carried. -/
theorem carried_hop {g : Geometry} {i : Nat} (hi : i < g.hop) (index : Nat) :
    carried g ((index + 1) * g.hop + i) = some (index, g.hop + i) := by
  have hle : ¬(index + 1) * g.hop + i < g.hop := by
    rw [Nat.add_mul, Nat.one_mul]
    omega
  obtain ⟨hdiv, hmod⟩ := Prod.mk.inj (fresh_hop hi (index + 1))
  rw [carried, if_neg hle, hdiv, hmod, Nat.add_sub_cancel]

theorem range_hops (g : Geometry) (count : Nat) :
    List.range ((count + 1) * g.hop)
      = List.range (count * g.hop) ++ (List.range g.hop).map (count * g.hop + ·) := by
  rw [Nat.add_mul, Nat.one_mul, List.range_add]

open scoped List in
/-- What meets in the last hop is what was left before its frame, and the front half of the
frame. -/
theorem meeting_perm (g : Geometry) (count : Nat) :
    ((List.range g.hop).flatMap fun i => meeting g (count * g.hop + i))
      ~ leftover g count ++ (List.range g.hop).map fun i => (count, i) := by
  cases count with
  | zero =>
    refine List.Perm.of_eq ?_
    rw [leftover, List.nil_append, List.map_eq_flatMap]
    refine List.flatMap_congr fun i hi => ?_
    rw [meeting, carried_first (List.mem_range.1 hi), fresh_hop (List.mem_range.1 hi)]
    rfl
  | succ last =>
    have hmeeting : ((List.range g.hop).flatMap fun i => meeting g ((last + 1) * g.hop + i))
        = (List.range g.hop).flatMap fun i => [(last, g.hop + i)] ++ [(last + 1, i)] := by
      refine List.flatMap_congr fun i hi => ?_
      rw [meeting, carried_hop (List.mem_range.1 hi), fresh_hop (List.mem_range.1 hi)]
      rfl
    rw [hmeeting, leftover, List.map_eq_flatMap, List.map_eq_flatMap]
    exact (List.flatMap_append_perm _ _ _).symm

open scoped List in
/-- Every place in the first samples of a frame meets at one position, or is left, and does
so once. -/
theorem places_perm (g : Geometry) (count : Nat) :
    (List.range (count * g.hop)).flatMap (meeting g) ++ leftover g count
      ~ List.range count ×ˢ List.range g.frameLen := by
  induction count with
  | zero => simp [leftover]
  | succ last ih =>
    have hframe : (List.range g.frameLen).map (fun i => (last, i))
        = (List.range g.hop).map (fun i => (last, i)) ++ leftover g (last + 1) := by
      rw [Geometry.frameLen, Nat.two_mul, List.range_add, List.map_append, List.map_map]
      rfl
    have hproduct : List.range (last + 1) ×ˢ List.range g.frameLen
        = List.range last ×ˢ List.range g.frameLen
          ++ (List.range g.frameLen).map fun i => (last, i) := by
      rw [List.range_succ]
      simp [SProd.sprod, List.product]
    rw [range_hops, List.flatMap_append, List.flatMap_map, hproduct, hframe]
    calc ((List.range (last * g.hop)).flatMap (meeting g)
          ++ (List.range g.hop).flatMap fun i => meeting g (last * g.hop + i))
            ++ leftover g (last + 1)
        _ ~ ((List.range (last * g.hop)).flatMap (meeting g)
          ++ (leftover g last ++ (List.range g.hop).map fun i => (last, i)))
            ++ leftover g (last + 1) := ((meeting_perm g last).append_left _).append_right _
        _ = ((List.range (last * g.hop)).flatMap (meeting g) ++ leftover g last)
          ++ ((List.range g.hop).map (fun i => (last, i)) ++ leftover g (last + 1)) := by
            simp only [List.append_assoc]
        _ ~ _ := ih.append_right _

/-! ## Samples -/

section Samples

variable {K : Type} [Zero K]

/-- The sample at a place: a frame, and an index in it. -/
def sampleAt (frames : List (List (Phasor K))) (place : Nat × Nat) : Phasor K :=
  (frames.getD place.1 []).getD place.2 0

/-- The first samples of a frame, shifted to where it starts, at a position. -/
def shifted (g : Geometry) (frames : List (List (Phasor K))) (t index : Nat) : Phasor K :=
  if index * g.hop ≤ t ∧ t < index * g.hop + g.frameLen then
    sampleAt frames (index, t - index * g.hop)
  else 0

/-- The tail that frames leave. -/
def tailOf (g : Geometry) (frames : List (List (Phasor K))) : List (Phasor K) :=
  if frames = [] then List.replicate g.tailLen 0
  else (leftover g frames.length).map (sampleAt frames)

theorem sampleAt_append {frames : List (List (Phasor K))} {place : Nat × Nat}
    (h : place.1 < frames.length) (more : List (List (Phasor K))) :
    sampleAt (frames ++ more) place = sampleAt frames place := by
  rw [sampleAt, sampleAt, List.getD_append _ _ _ _ h]

theorem sampleAt_last (frames : List (List (Phasor K))) (frame : List (Phasor K)) (i : Nat) :
    sampleAt (frames ++ [frame]) (frames.length, i) = frame.getD i 0 := by
  simp [sampleAt]

theorem length_tailOf (g : Geometry) (frames : List (List (Phasor K))) :
    (tailOf g frames).length = g.tailLen := by
  rw [tailOf]
  split
  next => exact List.length_replicate
  next hne =>
    obtain ⟨first, later, rfl⟩ := List.exists_cons_of_ne_nil hne
    rw [List.length_map, List.length_cons, leftover, List.length_map, List.length_range]
    rfl

/-- The tail is the back half of the last frame. -/
theorem tailOf_concat (g : Geometry) (frames : List (List (Phasor K))) (frame : List (Phasor K)) :
    tailOf g (frames ++ [frame]) = (List.range g.hop).map fun i => frame.getD (g.hop + i) 0 := by
  rw [tailOf, if_neg (by simp), List.length_append, List.length_singleton, leftover, List.map_map]
  exact List.map_congr_left fun i _ => sampleAt_last frames frame (g.hop + i)

variable [Add K]

/-- What meets at a position. -/
def gathered (g : Geometry) (frames : List (List (Phasor K))) (t : Nat) : Phasor K :=
  (carried g t).elim 0 (sampleAt frames) + sampleAt frames (fresh g t)

/-- The sum of all frames, shifted to where they start, at a position. -/
def shiftedSum (g : Geometry) (frames : List (List (Phasor K))) (t : Nat) : Phasor K :=
  total ((List.range frames.length).map (shifted g frames t))

/-- A position has what it has whatever frames come later. -/
theorem gathered_append {g : Geometry} {frames : List (List (Phasor K))} {t : Nat}
    (h : t < frames.length * g.hop) (more : List (List (Phasor K))) :
    gathered g (frames ++ more) t = gathered g frames t := by
  have hfresh : t / g.hop < frames.length := (Nat.div_lt_iff_lt_mul g.hop_pos).2 h
  rw [gathered, gathered, fresh, sampleAt_append hfresh, carried]
  split
  next => rfl
  next =>
    rw [Option.elim_some, Option.elim_some]
    rw [sampleAt_append (Nat.lt_of_le_of_lt (Nat.sub_le _ _) hfresh)]

/-- In the hop of a frame the tail before it meets its front half. -/
theorem gathered_last {g : Geometry} {i : Nat} (hi : i < g.hop)
    (frames : List (List (Phasor K))) (frame : List (Phasor K)) :
    gathered g (frames ++ [frame]) (frames.length * g.hop + i)
      = (tailOf g frames).getD i 0 + frame.getD i 0 := by
  rw [gathered, fresh_hop hi, sampleAt_last]
  congr 1
  rcases List.eq_nil_or_concat' frames with rfl | ⟨earlier, last, rfl⟩
  · rw [List.length_nil, carried_first hi]
    simp [tailOf]
  · rw [List.length_append, List.length_singleton, carried_hop hi, Option.elim_some,
      sampleAt_append (by simp), sampleAt_last, tailOf_concat]
    simp [hi]

variable [Mul K]

/-- Frames that are long enough, from a tail of zeros. -/
theorem overlapAddAll_eq (g : Geometry) (scale : K) {frames : List (List (Phasor K))}
    (whole : ∀ frame ∈ frames, g.frameLen ≤ frame.length) :
    overlapAddAll g.hop scale (List.replicate g.tailLen 0) frames
      = ⟨(List.range (frames.length * g.hop)).map fun t => (gathered g frames t).scale scale,
          tailOf g frames⟩ := by
  induction frames using List.reverseRecOn with
  | nil => simp [overlapAddAll, tailOf]
  | append_singleton frames frame ih =>
    have hlast := overlapAdd_eq g.hop scale (length_tailOf g frames)
      (whole frame (List.mem_append_right _ (List.mem_singleton_self _)))
    rw [overlapAddAll_concat, ih fun f hf => whole f (List.mem_append_left _ hf), hlast,
      tailOf_concat, List.length_append, List.length_singleton, range_hops, List.map_append,
      List.map_map, Overlapped.mk.injEq]
    refine ⟨congrArg₂ _ ?_ ?_, rfl⟩
    · refine List.map_congr_left fun t ht => ?_
      rw [gathered_append (List.mem_range.1 ht)]
    · refine List.map_congr_left fun i hi => ?_
      rw [Function.comp_apply, gathered_last (List.mem_range.1 hi)]

end Samples

end Overlap

/-! ## Sums with zeros in them -/

/-- A relation that sums keep, and for which a zero is neutral. -/
structure SumNeutral {A : Type} [Zero A] [Add A] (same : A → A → Prop) : Prop where
  /-- It is an equivalence. -/
  equivalence : Equivalence same
  /-- Sums keep it. -/
  add : ∀ {a b c d}, same a b → same c d → same (a + c) (b + d)
  /-- A zero in front is neutral. -/
  zero_add : ∀ a, same (0 + a) a
  /-- A zero behind is neutral. -/
  add_zero : ∀ a, same (a + 0) a

/-- One that products keep as well. -/
structure ZeroNeutral {K : Type} [Zero K] [Add K] [Mul K] (same : K → K → Prop) : Prop
    extends SumNeutral same where
  /-- Products keep it. -/
  mul : ∀ {a b}, same a b → ∀ c, same (a * c) (b * c)

/-- Both parts of two phasors in a relation. -/
def Phasor.Same {K : Type} (same : K → K → Prop) (z w : Phasor K) : Prop :=
  same z.re w.re ∧ same z.im w.im

/-- Where the arithmetic is exact, equality is one. -/
theorem ZeroNeutral.exact {K : Type} [AddZeroClass K] [Mul K] : ZeroNeutral (K := K) Eq where
  equivalence := eq_equivalence
  add := fun hab hcd => congrArg₂ (· + ·) hab hcd
  zero_add := AddZeroClass.zero_add
  add_zero := AddZeroClass.add_zero
  mul := fun hab c => congrArg (· * c) hab

namespace SumNeutral

theorem phasor {K : Type} [Zero K] [Add K] {same : K → K → Prop} (h : SumNeutral same) :
    SumNeutral (Phasor.Same same) where
  equivalence :=
    { refl := fun z => ⟨h.equivalence.refl z.re, h.equivalence.refl z.im⟩
      symm := fun hab => ⟨h.equivalence.symm hab.1, h.equivalence.symm hab.2⟩
      trans := fun hab hbc => ⟨h.equivalence.trans hab.1 hbc.1, h.equivalence.trans hab.2 hbc.2⟩ }
  add := fun hab hcd => ⟨h.add hab.1 hcd.1, h.add hab.2 hcd.2⟩
  zero_add := fun z => ⟨h.zero_add z.re, h.zero_add z.im⟩
  add_zero := fun z => ⟨h.add_zero z.re, h.add_zero z.im⟩

variable {A : Type} [Zero A] [Add A] {same : A → A → Prop} {f : Nat → A}

theorem total_succ (f : Nat → A) (n : Nat) :
    total ((List.range (n + 1)).map f) = total ((List.range n).map f) + f n := by
  simp [total, List.range_succ]

/-- Zeros at the end of a sum do not count. -/
theorem total_of_zeros (h : SumNeutral same) {m n : Nat} (hle : m ≤ n)
    (zeros : ∀ k, m ≤ k → k < n → f k = 0) :
    same (total ((List.range n).map f)) (total ((List.range m).map f)) := by
  induction n, hle using Nat.le_induction with
  | base => exact h.equivalence.refl _
  | succ n hle ih =>
    rw [total_succ, zeros n hle (Nat.lt_succ_self n)]
    exact h.equivalence.trans (h.add_zero _)
      (ih fun k hk hlt => zeros k hk (Nat.lt_succ_of_lt hlt))

/-- A number with only zeros before it. -/
theorem total_of_one (h : SumNeutral same) {m : Nat} (zeros : ∀ k, k < m → f k = 0) :
    same (total ((List.range (m + 1)).map f)) (f m) := by
  rw [total_succ]
  exact h.equivalence.trans
    (h.add (h.total_of_zeros (Nat.zero_le m) fun k _ => zeros k) (h.equivalence.refl _))
    (h.zero_add _)

end SumNeutral

namespace Overlap

/-! ### The sum of the shifted frames -/

section Shifted

variable {K : Type} [Zero K] {g : Geometry} {i : Nat}

/-- In a hop the frame of the same index has its front half. -/
theorem shifted_own (hi : i < g.hop) (frames : List (List (Phasor K))) (index : Nat) :
    shifted g frames (index * g.hop + i) index = sampleAt frames (index, i) := by
  rw [shifted, if_pos (by simp only [Geometry.frameLen]; omega), Nat.add_sub_cancel_left]

/-- The frame before has its back half there. -/
theorem shifted_before (hi : i < g.hop) (frames : List (List (Phasor K))) (index : Nat) :
    shifted g frames ((index + 1) * g.hop + i) index = sampleAt frames (index, g.hop + i) := by
  rw [shifted, Nat.add_mul, Nat.one_mul, if_pos (by simp only [Geometry.frameLen]; omega),
    Nat.add_assoc, Nat.add_sub_cancel_left]

theorem shifted_earlier (frames : List (List (Phasor K))) {earlier index : Nat}
    (h : earlier + 1 < index) : shifted g frames (index * g.hop + i) earlier = 0 := by
  have hle : (earlier + 2) * g.hop ≤ index * g.hop := Nat.mul_le_mul_right _ h
  rw [Nat.add_mul] at hle
  rw [shifted, if_neg (by simp only [Geometry.frameLen]; omega)]

theorem shifted_later (hi : i < g.hop) (frames : List (List (Phasor K))) {later index : Nat}
    (h : index < later) : shifted g frames (index * g.hop + i) later = 0 := by
  have hle : (index + 1) * g.hop ≤ later * g.hop := Nat.mul_le_mul_right _ h
  rw [Nat.add_mul] at hle
  rw [shifted, if_neg (by omega)]

/-- In the sum of all shifted frames only what meets at a position counts. -/
theorem gathered_same [Add K] {same : K → K → Prop} (neutral : SumNeutral same)
    {frames : List (List (Phasor K))} {t : Nat} (ht : t < frames.length * g.hop) :
    Phasor.Same same (gathered g frames t) (shiftedSum g frames t) := by
  obtain ⟨index, i, hindex, hi, rfl⟩ : ∃ index i, index < frames.length ∧ i < g.hop
      ∧ t = index * g.hop + i :=
    ⟨t / g.hop, t % g.hop, (Nat.div_lt_iff_lt_mul g.hop_pos).2 ht, Nat.mod_lt _ g.hop_pos,
      (Nat.div_add_mod' t g.hop).symm⟩
  have hsum := neutral.phasor
  refine hsum.equivalence.symm (hsum.equivalence.trans
    (hsum.total_of_zeros hindex fun k hk _ => shifted_later hi frames hk) ?_)
  rw [SumNeutral.total_succ, shifted_own hi, gathered, fresh_hop hi]
  refine hsum.add ?_ (hsum.equivalence.refl _)
  cases index with
  | zero =>
    rw [carried_first hi]
    exact hsum.equivalence.refl _
  | succ last =>
    rw [carried_hop hi, Option.elim_some, ← shifted_before hi]
    exact hsum.total_of_one fun k hk => shifted_earlier frames (Nat.succ_lt_succ hk)

end Shifted

end Overlap

/-! ### Zeros of singles -/

namespace Values

open Float.Model UnpackedFloat

variable {spec : Format} {u : UnpackedFloat}

/-- Adding a zero to a number other than zero changes nothing. -/
theorem add_zero_right (s : Sign) (h : ∀ t, u ≠ .zero t) :
    UnpackedFloat.add spec u (.zero s) = u := by
  cases u with
  | zero t => exact absurd rfl (h t)
  | _ => rfl

theorem add_zero_left (s : Sign) (h : ∀ t, u ≠ .zero t) :
    UnpackedFloat.add spec (.zero s) u = u := by
  cases u with
  | zero t => exact absurd rfl (h t)
  | _ => rfl

end Values

namespace Singles

open Float.Model UnpackedFloat Values

variable {a b c d : Float32}

/-- The same single, but for the sign of a zero. -/
def Alike (a b : Float32) : Prop := a = b ∨ (a == 0) = true ∧ (b == 0) = true

theorem beq_zero_iff : (a == 0) = true ↔ ∃ s, a.toModel.unpack = .zero s := by
  show (a.toModel.unpack.compare (.zero .positive) == some .eq) = true ↔ _
  cases a.toModel.unpack with
  | notANumber => simp [UnpackedFloat.compare]
  | infinity s => cases s <;> simp [UnpackedFloat.compare]
  | zero s => simp [UnpackedFloat.compare]
  | finite s => cases s <;> simp [UnpackedFloat.compare]

theorem stored_unpack (a : Float32) : stored .binary32 a.toModel.unpack = a.toModel.unpack := by
  cases h : a.toModel.unpack.isFinite with
  | true => exact (fits h).stored
  | false => exact stored_of_not_finite h

theorem unpack_ne_zero (ha : (a == 0) ≠ true) (s : Sign) : a.toModel.unpack ≠ .zero s :=
  fun h => ha (beq_zero_iff.2 ⟨s, h⟩)

/-- Alike is the same, or both are zero. -/
theorem alike_equivalence : Equivalence Alike where
  refl := fun _ => .inl rfl
  symm := fun h => h.imp Eq.symm And.symm
  trans := by
    rintro a b c (rfl | ⟨ha, hb⟩) (rfl | ⟨hb', hc⟩)
    · exact .inl rfl
    · exact .inr ⟨hb', hc⟩
    · exact .inr ⟨ha, hb⟩
    · exact .inr ⟨ha, hc⟩

theorem add_zeros (ha : (a == 0) = true) (hb : (b == 0) = true) : (a + b == 0) = true := by
  obtain ⟨s, ha⟩ := beq_zero_iff.1 ha
  obtain ⟨t, hb⟩ := beq_zero_iff.1 hb
  refine beq_zero_iff.2 ?_
  show ∃ r, stored .binary32 (UnpackedFloat.add .binary32 a.toModel.unpack b.toModel.unpack)
    = .zero r
  rw [ha, hb]
  cases s <;> cases t <;> exact ⟨_, stored_zero _⟩

theorem alike_add_zero (a : Float32) (hb : (b == 0) = true) : Alike (a + b) a := by
  by_cases ha : (a == 0) = true
  · exact .inr ⟨add_zeros ha hb, ha⟩
  · obtain ⟨s, hb⟩ := beq_zero_iff.1 hb
    refine .inl (Bits.eq_of_unpack_eq ?_)
    show stored .binary32 (UnpackedFloat.add .binary32 a.toModel.unpack b.toModel.unpack) = _
    rw [hb, Values.add_zero_right s (unpack_ne_zero ha), stored_unpack]

theorem alike_zero_add (a : Float32) (hb : (b == 0) = true) : Alike (b + a) a := by
  by_cases ha : (a == 0) = true
  · exact .inr ⟨add_zeros hb ha, ha⟩
  · obtain ⟨s, hb⟩ := beq_zero_iff.1 hb
    refine .inl (Bits.eq_of_unpack_eq ?_)
    show stored .binary32 (UnpackedFloat.add .binary32 b.toModel.unpack a.toModel.unpack) = _
    rw [hb, Values.add_zero_left s (unpack_ne_zero ha), stored_unpack]

/-- Sums of alike operands are alike. -/
theorem alike_add (hab : Alike a b) (hcd : Alike c d) : Alike (a + c) (b + d) := by
  obtain ⟨-, symm, trans⟩ := alike_equivalence
  rcases hab with rfl | ⟨ha, hb⟩
  · rcases hcd with rfl | ⟨hc, hd⟩
    · exact .inl rfl
    · exact trans (alike_add_zero a hc) (symm (alike_add_zero a hd))
  · exact trans (alike_zero_add c ha) (trans hcd (symm (alike_zero_add d hb)))

/-- A product with a zero is a zero, or not a number where the other factor is not finite. -/
theorem mul_zero_cases (c : Float32) (ha : (a == 0) = true) :
    (a * c).toModel.unpack = .notANumber ∧ c.isFinite = false
      ∨ (a * c == 0) = true ∧ c.isFinite = true := by
  obtain ⟨s, ha⟩ := beq_zero_iff.1 ha
  rw [beq_zero_iff]
  have hproduct : (a * c).toModel.unpack
      = stored .binary32 (UnpackedFloat.mul .binary32 a.toModel.unpack c.toModel.unpack) := rfl
  have hfinite : c.isFinite = c.toModel.unpack.isFinite := rfl
  rw [hproduct, hfinite, ha]
  cases c.toModel.unpack with
  | notANumber => exact .inl ⟨stored_notANumber, rfl⟩
  | infinity => exact .inl ⟨stored_notANumber, rfl⟩
  | zero => exact .inr ⟨⟨_, stored_zero _⟩, rfl⟩
  | finite => exact .inr ⟨⟨_, stored_zero _⟩, rfl⟩

theorem alike_mul (hab : Alike a b) (c : Float32) : Alike (a * c) (b * c) := by
  rcases hab with rfl | ⟨ha, hb⟩
  · exact .inl rfl
  · rcases mul_zero_cases c ha with ⟨ha, hc⟩ | ⟨ha, hc⟩ <;>
      rcases mul_zero_cases c hb with ⟨hb, hc'⟩ | ⟨hb, hc'⟩
    · exact .inl (Bits.eq_of_unpack_eq (ha.trans hb.symm))
    · cases hc.symm.trans hc'
    · cases hc.symm.trans hc'
    · exact .inr ⟨ha, hb⟩

/-- On singles, equality but for the sign of a zero is one. -/
theorem zeroNeutral : ZeroNeutral Alike where
  equivalence := alike_equivalence
  add := alike_add
  zero_add := fun a => alike_zero_add a rfl
  add_zero := fun a => alike_add_zero a rfl
  mul := alike_mul

end Singles

/-! ## The run -/

section Run

open Overlap

variable {K : Type} [Zero K] [Add K] [Mul K] {same : K → K → Prop}

/-- Any frames of any geometry, each at least as long as a frame, one after another from a
tail of zeros.

What comes out is the scale times the sum of the frames, their first samples shifted by a
hop more each, as far as the hops go.  It holds up to `same`, and what meets at a position
is exact.  The tail is the back half of the last frame.  The places that meet and those that
are left are all the places in the first samples of a frame, each of them once. -/
theorem overlapAdd_run (neutral : ZeroNeutral same) (g : Geometry) (scale : K)
    {frames : List (List (Phasor K))} (whole : ∀ frame ∈ frames, g.frameLen ≤ frame.length) :
    let run := overlapAddAll g.hop scale (List.replicate g.tailLen 0) frames
    let positions := List.range (frames.length * g.hop)
    List.Forall₂ (Phasor.Same same) run.out
        (positions.map fun t => (shiftedSum g frames t).scale scale)
      ∧ run.out = positions.map (fun t => (gathered g frames t).scale scale)
      ∧ run.tail = tailOf g frames
      ∧ (positions.flatMap (meeting g) ++ leftover g frames.length).Perm
          (List.range frames.length ×ˢ List.range g.frameLen) := by
  intro run positions
  have hrun : run = _ := overlapAddAll_eq g scale whole
  refine ⟨?_, by rw [hrun], by rw [hrun], places_perm g frames.length⟩
  rw [hrun, List.forall₂_map_left_iff, List.forall₂_map_right_iff, List.forall₂_same]
  intro t ht
  obtain ⟨hre, him⟩ := gathered_same neutral.toSumNeutral (List.mem_range.1 ht)
  exact ⟨neutral.mul hre scale, neutral.mul him scale⟩

end Run

/-- Two frames of five samples, of which four count, by the machine and exactly. -/
theorem overlapAdd_run_specimen :
    let frames : List (List Sample) :=
      [[⟨1, 0⟩, ⟨2, 0⟩, ⟨3, 0⟩, ⟨4, 0⟩, ⟨9, 9⟩], [⟨-3, 0⟩, ⟨0.5, 1⟩, ⟨7, 0⟩, ⟨8, 0⟩, ⟨9, 9⟩]]
    let exact : List (List (Phasor ℤ)) :=
      [[⟨1, 0⟩, ⟨2, 0⟩, ⟨3, 0⟩, ⟨4, 0⟩, ⟨9, 9⟩], [⟨5, 0⟩, ⟨6, 1⟩, ⟨7, 0⟩, ⟨8, 0⟩, ⟨9, 9⟩]]
    List.Forall₂ (Phasor.Same Singles.Alike) (overlapAddAll 2 0.5 [0, 0] frames).out
        ((List.range 4).map fun t => (Overlap.shiftedSum Specimen.geometry frames t).scale 0.5)
      ∧ (overlapAddAll 2 3 [0, 0] exact).out = [⟨3, 0⟩, ⟨6, 0⟩, ⟨24, 0⟩, ⟨30, 3⟩]
      ∧ (overlapAddAll 2 3 [0, 0] exact).tail = [⟨7, 0⟩, ⟨8, 0⟩] := by
  intro frames exact
  have hframes : ∀ frame ∈ frames, Specimen.geometry.frameLen ≤ frame.length := by decide
  have hexact : ∀ frame ∈ exact, Specimen.geometry.frameLen ≤ frame.length := by decide
  obtain ⟨hmachine, -⟩ := overlapAdd_run Singles.zeroNeutral Specimen.geometry 0.5 hframes
  obtain ⟨-, hout, htail, -⟩ := overlapAdd_run .exact Specimen.geometry 3 hexact
  exact ⟨hmachine, hout.trans (by decide), htail.trans (by decide)⟩

end Denoise
