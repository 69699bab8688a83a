import Denoise.Queue
import Denoise.Proofs.Trailing
import Mathlib.Data.List.Induction

/-!
# What a queue of the newest samples holds

Blocks join, the queue is cleared and the newest samples are copied from it, in any order.  Then
the queue holds the last samples that were fed since the last clear, as many as it has room for
(`newest_samples`).

`Trailing.after_eq` says so of the list of samples, from the one block of `Trailing.push_samples`.
A bounded queue goes along with the list (`Queue.Mirrors`): a block finds exactly the room that it
needs, so none of it is refused and nothing is discarded that could have stayed.
-/

namespace Denoise

variable {R α : Type}

/-! ## Histories -/

namespace Trailing

/-- What is done to the newest samples. -/
inductive Act (α : Type) where
  /-- A block joins. -/
  | push (block : List α)
  /-- All samples leave. -/
  | clear
  /-- The newest `count` are copied. -/
  | copy (count : Nat)

/-- The samples that an act feeds. -/
def Act.fed : Act α → List α
  | push block => block
  | clear => []
  | copy _ => []

/-- Whether an act leaves what was fed before. -/
def Act.isKept : Act α → Bool
  | push _ => true
  | clear => false
  | copy _ => true

/-- The samples that were fed since the last clear, oldest first. -/
def fedSince (acts : List (Act α)) : List α :=
  (acts.reverse.takeWhile Act.isKept).reverse.flatMap Act.fed

/-- The newest samples after an act. -/
def perform (t : Trailing α) : Act α → Trailing α
  | .push block => t.push block
  | .clear => t.clear
  | .copy _ => t

/-- The newest samples after some acts. -/
def after (capacity : Nat) (acts : List (Act α)) : Trailing α :=
  acts.foldl perform (empty capacity)

theorem after_concat (capacity : Nat) (acts : List (Act α)) (act : Act α) :
    after capacity (acts ++ [act]) = (after capacity acts).perform act := by
  rw [after, List.foldl_append, List.foldl_cons, List.foldl_nil, after]

theorem fedSince_clear (acts : List (Act α)) : fedSince (acts ++ [.clear]) = [] := by
  rw [fedSince, List.reverse_concat, List.takeWhile_cons_of_neg Bool.false_ne_true,
    List.reverse_nil, List.flatMap_nil]

theorem fedSince_kept (acts : List (Act α)) {act : Act α} (h : act.isKept = true) :
    fedSince (acts ++ [act]) = fedSince acts ++ act.fed := by
  rw [fedSince, List.reverse_concat, List.takeWhile_cons_of_pos h, List.reverse_cons,
    List.flatMap_append, List.flatMap_singleton, fedSince]

/-! ## The list -/

/-- The last samples since the last clear are kept. -/
theorem after_eq (capacity : Nat) (acts : List (Act α)) :
    after capacity acts
      = ⟨max capacity 1, (fedSince acts).drop ((fedSince acts).length - max capacity 1)⟩ := by
  induction acts using List.reverseRecOn with
  | nil => exact congrArg (Trailing.mk _) List.drop_nil.symm
  | append_singleton acts act ih =>
    rw [after_concat, ih]
    cases act with
    | copy => rw [perform, fedSince_kept _ rfl, Act.fed, List.append_nil]
    | clear => rw [perform, clear, fedSince_clear, List.drop_nil]
    | push block =>
      rw [perform, fedSince_kept _ rfl, Act.fed, ← drop_drop_append]
      refine congrArg (Trailing.mk _) (push_samples ?_ block)
      show (List.drop _ (fedSince acts)).length ≤ max capacity 1
      rw [List.length_drop]
      omega

end Trailing

/-! ## The bounded queue -/

namespace Queue

open Trailing (Act)

/-- A bounded queue, and the list that was last copied to. -/
structure Copied (R α : Type) where
  /-- The queue. -/
  queue : R
  /-- The list. -/
  list : List α

/-- The queue and the list after an act. -/
def perform (q : Queue R α) (c : Copied R α) : Act α → Copied R α
  | .push block => { c with queue := q.keep c.queue block }
  | .clear => { c with queue := q.clear c.queue }
  | .copy count => { c with list := q.copyRecent c.queue count c.list }

/-- A new queue and a list after some acts. -/
def after (q : Queue R α) (capacity : Nat) (list : List α) (acts : List (Act α)) : Copied R α :=
  acts.foldl q.perform ⟨q.make (max capacity 1), list⟩

theorem after_concat (q : Queue R α) (capacity : Nat) (list : List α) (acts : List (Act α))
    (act : Act α) : q.after capacity list (acts ++ [act])
      = q.perform (q.after capacity list acts) act := by
  rw [after, List.foldl_append, List.foldl_cons, List.foldl_nil, after]

/-- The queue holds what is kept. -/
structure Mirrors (q : Queue R α) (r : R) (t : Trailing α) : Prop where
  capacity : q.capacity r = t.capacity
  contents : q.contents r = t.samples
  within : t.samples.length ≤ t.capacity

namespace Mirrors

variable {q : Queue R α} {r : R} {t : Trailing α}

/-- What is discarded is what is in the way. -/
theorem discard (h : q.Mirrors r t) (bounded : q.Bounded) (count : Nat) :
    q.Mirrors (q.discard r count) { t with samples := t.samples.drop count } where
  capacity := (bounded.capacity_discard r count).trans h.capacity
  contents := by rw [bounded.contents_discard, h.contents]
  within := by
    show (t.samples.drop count).length ≤ t.capacity
    rw [List.length_drop]
    exact Nat.le_trans (Nat.sub_le _ _) h.within

/-- What finds room joins as a whole. -/
theorem join (h : q.Mirrors r t) (bounded : q.Bounded) {samples : List α}
    (hroom : t.samples.length + samples.length ≤ t.capacity) :
    q.Mirrors (q.join r samples) { t with samples := t.samples ++ samples } where
  capacity := (bounded.capacity_join r samples).trans h.capacity
  contents := by
    rw [bounded.contents_join, bounded.vacant_eq, h.capacity, h.contents,
      List.take_of_length_le (by omega)]
  within := by
    show (t.samples ++ samples).length ≤ t.capacity
    rwa [List.length_append]

/-- A block finds the room that it needs. -/
theorem keep (h : q.Mirrors r t) (bounded : q.Bounded) (block : List α) :
    q.Mirrors (q.keep r block) (t.push block) := by
  have hnewest : (if t.capacity < block.length then block.drop (block.length - t.capacity)
      else block) = block.drop (block.length - t.capacity) := by
    split
    next => rfl
    next hshort => rw [Nat.sub_eq_zero_of_le (Nat.le_of_not_lt hshort), List.drop_zero]
  have hwithin := h.within
  simp only [Queue.keep, Trailing.push, bounded.vacant_eq, h.capacity, h.contents, hnewest]
  generalize hcut : block.drop (block.length - t.capacity) = newest
  have hlength : newest.length ≤ t.capacity := by
    rw [← hcut, List.length_drop]
    omega
  split
  next hfull =>
    refine (h.discard bounded _).join bounded ?_
    show (t.samples.drop _).length + newest.length ≤ t.capacity
    rw [List.length_drop]
    omega
  next hroomy =>
    rw [Nat.sub_eq_zero_of_le (Nat.le_of_not_lt hroomy), List.drop_zero]
    exact h.join bounded (by omega)

/-- An act keeps it. -/
theorem perform {c : Copied R α} (h : q.Mirrors c.queue t) (bounded : q.Bounded) (act : Act α) :
    q.Mirrors (q.perform c act).queue (t.perform act) := by
  cases act with
  | push block => exact h.keep bounded block
  | copy count => exact h
  | clear =>
    have hclear := h.discard bounded (q.length c.queue)
    rw [bounded.length_eq, h.contents, List.drop_length] at hclear
    rw [Queue.perform, Queue.clear, bounded.length_eq, h.contents]
    exact hclear

end Mirrors

/-- It holds after any acts. -/
theorem after_mirrors {q : Queue R α} (bounded : q.Bounded) (capacity : Nat) (list : List α)
    (acts : List (Act α)) :
    q.Mirrors (q.after capacity list acts).queue (Trailing.after capacity acts) := by
  induction acts using List.reverseRecOn with
  | nil => exact ⟨bounded.capacity_make _ (by omega), bounded.contents_make _, Nat.zero_le _⟩
  | append_singleton acts act ih =>
    rw [after_concat, Trailing.after_concat]
    exact ih.perform bounded act

/-- After any blocks, clears and copies, in a queue and in the list of samples alike: the last
samples that were fed since the last clear are there, as many as there is room for, and the newest
of them are what is copied next, to whatever list. -/
theorem newest_samples {q : Queue R α} (bounded : q.Bounded) (capacity : Nat) (list : List α)
    (acts : List (Act α)) :
    let r := (q.after capacity list acts).queue
    let fed := Trailing.fedSince acts
    let kept := fed.drop (fed.length - min (max capacity 1) fed.length)
    q.contents r = kept
      ∧ q.length r = min (max capacity 1) fed.length
      ∧ (∀ count old, q.perform ⟨r, old⟩ (.copy count)
          = ⟨r, kept.drop (kept.length - min count kept.length)⟩)
      ∧ Trailing.after capacity acts = ⟨max capacity 1, kept⟩
      ∧ ∀ count, (Trailing.after capacity acts).recent count
          = kept.drop (kept.length - min count kept.length) := by
  intro r fed kept
  have hlist : Trailing.after capacity acts = ⟨max capacity 1, kept⟩ := by
    have hskip : fed.length - max capacity 1 = fed.length - min (max capacity 1) fed.length := by
      omega
    rw [Trailing.after_eq]
    exact congrArg (fun skip => Trailing.mk (max capacity 1) (fed.drop skip)) hskip
  have mirrors : q.Mirrors r ⟨max capacity 1, kept⟩ :=
    hlist ▸ after_mirrors bounded capacity list acts
  have hlength : kept.length = min (max capacity 1) fed.length := by
    rw [List.length_drop]
    omega
  have hskip : ∀ count, kept.length - count = kept.length - min count kept.length := by
    intro count
    omega
  refine ⟨mirrors.contents, ?_, fun count old => ?_, hlist, fun count => ?_⟩
  · rw [bounded.length_eq, mirrors.contents, hlength]
  · rw [perform, copyRecent, bounded.length_eq, mirrors.contents, List.take_zero, List.nil_append,
      hskip]
  · rw [hlist, Trailing.recent, Trailing.length, hskip]

/-- A queue of four samples is fed one after another, is cleared and fed a long block, and copied
from over a list. -/
theorem newest_samples_specimen :
    let acts : List (Act Nat) :=
      [.push [0, 1, 2], .clear, .push [3], .copy 9, .push [4, 5, 6, 7, 8]]
    (listed : Queue (Trailing Nat) Nat).Bounded
      ∧ listed.contents (listed.after 4 [9, 9] acts).queue = [5, 6, 7, 8]
      ∧ (listed.perform (listed.after 4 [9, 9] acts) (.copy 3)).list = [6, 7, 8] := by
  intro acts
  obtain ⟨hcontents, -, hcopy, -⟩ := newest_samples listed_bounded 4 [9, 9] acts
  exact ⟨listed_bounded, hcontents, congrArg Copied.list (hcopy 3 _)⟩

end Queue

end Denoise
