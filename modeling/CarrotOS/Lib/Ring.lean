import Mathlib.Data.List.Nodup
import Mathlib.Data.List.Range
import Mathlib.Logic.Function.Basic
import Mathlib.Tactic.Common

/-!
# RingBuf queues

A ring of `n` cells with a read index `tail` and a write index `head` holds the cells from
`tail` up to, but not including, `head`, going round at `n`. One cell is always left empty, so
that equal indices mean the empty queue. A ring is compared with the bounded queue of capacity
`n - 1`, whose items carry the proof that they fit.
-/

namespace RingQueue

open List

variable {k : ℕ}

variable {α : Type*}

/-- The cells of a ring with its read index and its write index. -/
structure RingBuf (α : Type*) where
  buf : ℕ → α
  tail : ℕ
  head : ℕ

namespace RingBuf

variable {n : ℕ} {q : RingBuf α}

/-- Both indices lie in a ring of `n` cells. -/
def Valid (n : ℕ) (q : RingBuf α) : Prop :=
  q.tail < n ∧ q.head < n

instance (n : ℕ) (q : RingBuf α) : Decidable (q.Valid n) :=
  inferInstanceAs (Decidable (_ ∧ _))

/-- The number of queued items: the distance from `tail` to `head` round the ring. -/
def count (n : ℕ) (q : RingBuf α) : ℕ :=
  (q.head + n - q.tail) % n

/-- The queued items, oldest first. -/
def contents (n : ℕ) (q : RingBuf α) : List α :=
  (range (q.count n)).map fun k => q.buf ((q.tail + k) % n)

/-- The cells of the queued items, oldest first. -/
def indices (n : ℕ) (q : RingBuf α) : List ℕ :=
  (range (q.count n)).map fun k => (q.tail + k) % n

def push (n : ℕ) (q : RingBuf α) (a : α) : RingBuf α :=
  { q with buf := Function.update q.buf q.head a, head := (q.head + 1) % n }

def pop (n : ℕ) (q : RingBuf α) : RingBuf α :=
  { q with tail := (q.tail + 1) % n }

@[simp] theorem length_contents : (q.contents n).length = q.count n := by
  simp [contents]

theorem count_eq (hv : q.Valid n) :
    q.count n = if q.tail ≤ q.head then q.head - q.tail else q.head + n - q.tail := by
  obtain ⟨ht, hh⟩ := hv
  unfold count
  split_ifs with hle
  · rw [show q.head + n - q.tail = q.head - q.tail + n by omega, Nat.add_mod_right,
      Nat.mod_eq_of_lt (by omega)]
  · exact Nat.mod_eq_of_lt (by omega)

theorem succ_mod {i : ℕ} (hi : i < n) : (i + 1) % n = if i + 1 = n then 0 else i + 1 := by
  split_ifs with h
  · rw [h, Nat.mod_self]
  · exact Nat.mod_eq_of_lt (by omega)

section

variable (hv : q.Valid n)
include hv

theorem count_lt : q.count n < n :=
  Nat.mod_lt _ (by have := hv.1; omega)

theorem eq_iff_count_eq_zero : q.tail = q.head ↔ q.count n = 0 := by
  have ⟨ht, hh⟩ := hv
  rw [count_eq hv]
  split_ifs <;> omega

theorem full_iff : q.tail = (q.head + 1) % n ↔ q.count n = n - 1 := by
  have ⟨ht, hh⟩ := hv
  rw [count_eq hv, succ_mod hh]
  split_ifs <;> omega

theorem push_valid (a : α) : (q.push n a).Valid n :=
  ⟨hv.1, Nat.mod_lt _ (by have := hv.1; omega)⟩

theorem pop_valid : (q.pop n).Valid n :=
  ⟨Nat.mod_lt _ (by have := hv.1; omega), hv.2⟩

theorem count_push (hfree : q.count n < n - 1) (a : α) :
    (q.push n a).count n = q.count n + 1 := by
  have ⟨ht, hh⟩ := hv
  rw [count_eq hv] at hfree
  rw [count_eq (push_valid hv a), count_eq hv]
  simp only [push, succ_mod hh]
  split_ifs at hfree ⊢ <;> omega

theorem count_pop (hne : q.count n ≠ 0) :
    (q.pop n).count n + 1 = q.count n := by
  have ⟨ht, hh⟩ := hv
  rw [count_eq hv] at hne
  rw [count_eq (pop_valid hv), count_eq hv]
  simp only [pop, succ_mod ht]
  split_ifs at hne ⊢ <;> omega

theorem cell_ne_head (hk : k < q.count n) :
    (q.tail + k) % n ≠ q.head := by
  have ⟨ht, hh⟩ := hv
  have hn := count_lt hv
  rw [count_eq hv] at hk hn
  rcases Nat.lt_or_ge (q.tail + k) n with h | h
  · rw [Nat.mod_eq_of_lt h]
    split_ifs at hk <;> omega
  · rw [Nat.mod_eq_sub_mod h, Nat.mod_eq_of_lt (by split_ifs at hk <;> omega)]
    split_ifs at hk <;> omega

theorem cell_count : (q.tail + q.count n) % n = q.head := by
  have ⟨ht, hh⟩ := hv
  rw [count_eq hv]
  split_ifs with h
  · rw [Nat.add_sub_cancel' h, Nat.mod_eq_of_lt hh]
  · rw [show q.tail + (q.head + n - q.tail) = q.head + n by omega, Nat.add_mod_right,
      Nat.mod_eq_of_lt hh]

/-! ### The cells in use -/

omit hv in
theorem contents_eq_map (n : ℕ) (q : RingBuf α) : q.contents n = (q.indices n).map q.buf := by
  simp [contents, indices, Function.comp_def]

theorem indices_eq_nil : q.indices n = [] ↔ q.tail = q.head := by
  rw [eq_iff_count_eq_zero hv, indices, map_eq_nil_iff, range_eq_nil]

/-- No cell is used twice. -/
theorem indices_nodup : (q.indices n).Nodup := by
  have ht := hv.1
  refine (nodup_map_iff_inj_on nodup_range).mpr fun k hk k' hk' heq => ?_
  have hk := (mem_range.mp hk).trans (count_lt hv)
  have hk' := (mem_range.mp hk').trans (count_lt hv)
  have hcell : ∀ {j}, j < n → (q.tail + j) % n = if q.tail + j < n then q.tail + j
      else q.tail + j - n := by
    intro j hj
    split_ifs with h
    · exact Nat.mod_eq_of_lt h
    · rw [Nat.mod_eq_sub_mod (by omega), Nat.mod_eq_of_lt (by omega)]
  rw [hcell hk, hcell hk'] at heq
  split_ifs at heq <;> omega

theorem indices_push (hfree : q.count n < n - 1) (a : α) :
    (q.push n a).indices n = q.indices n ++ [q.head] := by
  unfold indices
  rw [count_push hv hfree, range_succ, map_append, map_singleton]
  congr 2
  exact cell_count hv

theorem indices_pop (hne : q.count n ≠ 0) :
    q.indices n = q.tail :: (q.pop n).indices n := by
  unfold indices
  rw [← count_pop hv hne, range_succ_eq_map, map_cons, map_map]
  congr 1
  · rw [Nat.add_zero, Nat.mod_eq_of_lt hv.1]
  · refine map_congr_left fun k _ => ?_
    simp only [pop, Function.comp_apply, Nat.succ_eq_add_one, Nat.mod_add_mod]
    congr 1
    omega

/-- Writing one item into a ring that is not full appends it. -/
theorem contents_push (hfree : q.count n < n - 1) (a : α) :
    (q.push n a).contents n = q.contents n ++ [a] := by
  rw [contents_eq_map, indices_push hv hfree, map_append, contents_eq_map]
  congr 1
  · refine map_congr_left fun i hi => Function.update_of_ne ?_ _ _
    obtain ⟨k, hk, rfl⟩ := mem_map.mp hi
    exact cell_ne_head hv (mem_range.mp hk)
  · simp [push]

/-- Reading one item from a ring that is not empty removes its first item. -/
theorem contents_pop (hne : q.count n ≠ 0) :
    q.contents n = q.buf q.tail :: (q.pop n).contents n := by
  rw [contents_eq_map, indices_pop hv hne, map_cons, contents_eq_map]
  rfl

end

theorem getElem?_contents (hk : k < q.count n) :
    (q.contents n)[k]? = some (q.buf ((q.tail + k) % n)) := by
  simp [contents, hk]

/-- Skipping `k` queued items moves the read index by `k` and drops them. -/
theorem contents_skip (hv : q.Valid n) (hk : k ≤ q.count n) :
    ({ q with tail := (q.tail + k) % n } : RingBuf α).Valid n ∧
      ({ q with tail := (q.tail + k) % n } : RingBuf α).contents n = (q.contents n).drop k := by
  induction k with
  | zero =>
    rw [Nat.add_zero, Nat.mod_eq_of_lt hv.1]
    exact ⟨hv, rfl⟩
  | succ k ih =>
    obtain ⟨hv', hcontents⟩ := ih (Nat.le_of_succ_le hk)
    -- one more item is popped from the ring that has skipped `k` of them
    have hpop : ({ q with tail := (q.tail + (k + 1)) % n } : RingBuf α) =
        ({ q with tail := (q.tail + k) % n } : RingBuf α).pop n := by
      rw [pop, Nat.mod_add_mod, Nat.add_assoc]
    have hlen := congrArg length hcontents
    rw [length_contents, length_drop, length_contents] at hlen
    have hdrop := contents_pop hv' (by omega)
    rw [hcontents] at hdrop
    rw [hpop]
    refine ⟨pop_valid hv', ?_⟩
    rw [← drop_drop, hdrop, drop_one, tail_cons]

end RingBuf

/-! ## The bounded queue -/

/-- A queue that never holds more than `cap` items. -/
@[ext] structure Bounded (cap : ℕ) (α : Type*) where
  items : List α
  length_le : items.length ≤ cap

namespace Bounded

variable {cap : ℕ}

def room (q : Bounded cap α) : ℕ :=
  cap - q.items.length

/-- Append as many items of `xs` as fit. -/
def put (q : Bounded cap α) (xs : List α) : Bounded cap α where
  items := q.items ++ xs.take q.room
  length_le := by
    have := q.length_le
    simp only [length_append, length_take, room]
    omega

/-- Remove the first `len` items, or all of them when there are fewer. -/
def drop (q : Bounded cap α) (len : ℕ) : Bounded cap α where
  items := q.items.drop len
  length_le := by
    have := q.length_le
    simp only [length_drop]
    omega

end Bounded

/-- A valid ring of `n` cells, as a queue of capacity `n - 1`. -/
def RingBuf.toBounded {n : ℕ} (q : RingBuf α) (hv : q.Valid n) : Bounded (n - 1) α where
  items := q.contents n
  length_le := by
    have := RingBuf.count_lt hv
    simp only [RingBuf.length_contents]
    omega

@[simp] theorem RingBuf.room_toBounded {n : ℕ} (q : RingBuf α) (hv : q.Valid n) :
    (q.toBounded hv).room = n - 1 - q.count n := by
  simp [toBounded, Bounded.room]

end RingQueue
