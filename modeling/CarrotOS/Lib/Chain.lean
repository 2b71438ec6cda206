import Mathlib.Data.Finset.Card
import Mathlib.Data.List.Nodup
import Mathlib.Logic.Function.Basic
import Mathlib.Logic.Relation
import Mathlib.Tactic.Common

/-!
# Lists linked through a table

A table gives each node its successor, or none at the end of a list. A list of nodes is linked when
it starts at a node and follows the table to an end, so that it is finite and has no repetition.
Several owners share the table; each has an optional first node, and the lists of different owners
have no node in common.
-/

namespace LinkTable

open Function List

variable {α ι : Type*} {next next' : α → Option α} {a b x y z : α} {l l' : List α}

/-- The list starts at the node, follows the table and stops where the table does. -/
inductive Linked (next : α → Option α) : α → List α → Prop
  | last {a : α} (h : next a = none) : Linked next a [a]
  | cons {a b : α} {l : List α} (h : next a = some b) (ht : Linked next b l) :
    Linked next a (a :: l)

/-- The list of an optional first node. -/
inductive ListOf (next : α → Option α) : Option α → List α → Prop
  | nil : ListOf next none []
  | linked {a : α} {l : List α} (h : Linked next a l) : ListOf next (some a) l

def Reaches (next : α → Option α) : α → α → Prop :=
  Relation.ReflTransGen fun u w => next u = some w

section

variable (h : Linked next a l)
include h

theorem Linked.mem_self : a ∈ l := by
  cases h <;> exact mem_cons_self

theorem Linked.unique (h' : Linked next a l') : l = l' := by
  induction h generalizing l' with
  | last h =>
    cases h' with
    | last _ => rfl
    | cons hb _ =>
      rw [h] at hb
      cases hb
  | cons h _ ih =>
    cases h' with
    | last hn =>
      rw [h] at hn
      cases hn
    | cons hb ht' =>
      cases h.symm.trans hb
      rw [ih ht']

theorem Linked.suffix (hx : x ∈ l) : ∃ l', Linked next x l' ∧ l' <:+ l := by
  induction h with
  | @last a h =>
    obtain rfl := mem_singleton.mp hx
    exact ⟨[x], .last h, suffix_refl _⟩
  | @cons a b l h ht ih =>
    rcases mem_cons.mp hx with rfl | hx
    · exact ⟨x :: l, .cons h ht, suffix_refl _⟩
    · obtain ⟨l', hl', hsuffix⟩ := ih hx
      exact ⟨l', hl', hsuffix.trans (suffix_cons a l)⟩

/-- A node that comes twice would be followed by the whole list again. -/
theorem Linked.nodup : l.Nodup := by
  induction h with
  | last h => exact nodup_singleton _
  | @cons a b l h ht ih =>
    refine nodup_cons.mpr ⟨?_, ih⟩
    intro ha
    obtain ⟨l', hl', hsuffix⟩ := ht.suffix ha
    have heq := hl'.unique (.cons h ht)
    have hlength := hsuffix.length_le
    rw [heq, length_cons] at hlength
    omega

theorem Linked.congr (hnext : ∀ x ∈ l, next' x = next x) :
    Linked next' a l := by
  induction h with
  | @last a h => exact .last ((hnext a mem_cons_self).trans h)
  | @cons a b l h ht ih =>
    refine .cons ((hnext a mem_cons_self).trans h) (ih ?_)
    intro x hx
    exact hnext x (mem_cons_of_mem a hx)

theorem Linked.next_mem (hx : x ∈ l) (hy : next x = some y) : y ∈ l := by
  induction h with
  | last h =>
    obtain rfl := mem_singleton.mp hx
    rw [h] at hy
    cases hy
  | cons h ht ih =>
    rcases mem_cons.mp hx with rfl | hx
    · cases h.symm.trans hy
      exact mem_cons_of_mem x ht.mem_self
    · exact mem_cons_of_mem _ (ih hx)

theorem Linked.mem_iff_reaches : x ∈ l ↔ Reaches next a x := by
  constructor
  · intro hx
    induction h with
    | last _ =>
      obtain rfl := mem_singleton.mp hx
      exact .refl
    | cons h _ ih =>
      rcases mem_cons.mp hx with rfl | hx
      · exact .refl
      · exact .head h (ih hx)
  · intro hx
    induction hx with
    | refl => exact h.mem_self
    | tail _ hy ih => exact h.next_mem ih hy

theorem Linked.getLast_of_end (hz : z ∈ l) (hend : next z = none) :
    l.getLast? = some z := by
  induction h with
  | last _ =>
    obtain rfl := mem_singleton.mp hz
    rfl
  | @cons a b l h ht ih =>
    rcases mem_cons.mp hz with rfl | hz
    · cases h.symm.trans hend
    · have hlast := ih hz
      cases l with
      | nil => cases hlast
      | cons y l => simpa using hlast

theorem Linked.getLast_next (hz : l.getLast? = some z) : next z = none := by
  induction h with
  | last h =>
    cases hz
    exact h
  | @cons a b l h ht ih =>
    apply ih
    cases ht <;> simpa using hz

/-- A new node `b` is linked behind the last node `z`. -/
theorem Linked.extend (hz : l.getLast? = some z) (hagree : ∀ x ∈ l, x ≠ z → next' x = next x)
    (hlink : next' z = some b) (hend : next' b = none) :
    Linked next' a (l ++ [b]) := by
  have hnodup := h.nodup
  induction h with
  | last _ =>
    cases hz
    exact .cons hlink (.last hend)
  | @cons a b' l h ht ih =>
    obtain ⟨ha, hnodup⟩ := nodup_cons.mp hnodup
    have hz' : l.getLast? = some z := by
      cases ht <;> simpa using hz
    have hne : a ≠ z := by
      rintro rfl
      exact ha (mem_of_getLast? hz')
    refine .cons ((hagree a mem_cons_self hne).trans h) (ih hz' ?_ hnodup)
    intro x hx
    exact hagree x (mem_cons_of_mem a hx)

end

theorem ListOf.congr {h : Option α} (hl : ListOf next h l) (hnext : ∀ x ∈ l, next' x = next x) :
    ListOf next' h l := by
  cases hl with
  | nil => exact .nil
  | linked hl => exact .linked (hl.congr hnext)

/-! ## Cutting links -/

section Cut

variable [DecidableEq α]

def cut (next : α → Option α) (a : α) : α → Option α :=
  update next a none

@[simp] theorem cut_self (next : α → Option α) (a : α) : cut next a a = none := by
  rw [cut, update_self]

theorem cut_of_ne (next : α → Option α) (h : x ≠ a) : cut next a x = next x := by
  rw [cut, update_of_ne h]

/-- A node is reached over the first link and then without it, also in a table with cycles. -/
theorem reaches_iff_cut :
    Reaches next a x ↔ x = a ∨ ∃ b, next a = some b ∧ Reaches (cut next a) b x := by
  constructor
  · intro hx
    induction hx with
    | refl => exact .inl rfl
    | @tail y x _ hlink ih =>
      right
      by_cases hy : y = a
      · -- back at the start, so `x` is the node behind it
        exact ⟨x, hy ▸ hlink, .refl⟩
      · obtain ⟨b, hb, hreach⟩ := ih.resolve_left hy
        exact ⟨b, hb, hreach.tail ((cut_of_ne next hy).trans hlink)⟩
  · rintro (rfl | ⟨b, hb, hreach⟩)
    · exact .refl
    · refine .head hb (Relation.ReflTransGen.mono ?_ _ _ hreach)
      intro u w huw
      by_cases hu : u = a
      · subst hu
        rw [cut_self] at huw
        cases huw
      · rwa [cut_of_ne next hu] at huw

/-- Among any finite set of nodes with `a`, fewer have a link. -/
theorem card_cut_lt {s : Finset α} (ha : a ∈ s) (hlink : (next a).isSome) :
    (s.filter fun y => (cut next a y).isSome).card < (s.filter fun y => (next y).isSome).card := by
  refine Finset.card_lt_card (Finset.ssubset_iff_of_subset ?_ |>.mpr ⟨a, ?_, ?_⟩)
  · intro y hy
    obtain ⟨hys, hsome⟩ := Finset.mem_filter.mp hy
    by_cases hya : y = a
    · subst hya
      exact Finset.mem_filter.mpr ⟨hys, hlink⟩
    · rw [cut_of_ne next hya] at hsome
      exact Finset.mem_filter.mpr ⟨hys, hsome⟩
  · exact Finset.mem_filter.mpr ⟨ha, hlink⟩
  · simp

end Cut

/-! ## Owners -/

/-- The owners in `owned` have the lists `L`, which have no node in common. -/
structure Family (next : α → Option α) (head : ι → Option α) (owned : ι → Prop) (L : ι → List α) :
    Prop where
  lists : ∀ o, owned o → ListOf next (head o) (L o)
  disjoint : ∀ o o', owned o → owned o' → o ≠ o' → ∀ x ∈ L o, x ∉ L o'

section Family

variable {head head' : ι → Option α} {owned owned' : ι → Prop} {L : ι → List α} {s : ι}

theorem Family.mono (h : Family next head owned L)
    (howned : ∀ o, owned' o → owned o ∧ head' o = head o)
    (hnext : ∀ o, owned' o → ∀ x ∈ L o, next' x = next x) : Family next' head' owned' L where
  lists := by
    intro o ho
    rw [(howned o ho).2]
    exact (h.lists o (howned o ho).1).congr (hnext o ho)
  disjoint := by
    intro o o' ho ho'
    exact h.disjoint o o' (howned o ho).1 (howned o' ho').1

/-- The owner `s` gets the list `ls`, whose nodes belong to no other owner. -/
theorem Family.update [DecidableEq ι] (h : Family next head owned L) {ls : List α}
    (howned : ∀ o, owned' o → o ≠ s → owned o ∧ head' o = head o)
    (hnext : ∀ o, owned' o → o ≠ s → ∀ x ∈ L o, next' x = next x)
    (hs : owned' s → ListOf next' (head' s) ls)
    (hfresh : owned' s → ∀ o, owned' o → o ≠ s → ∀ x ∈ ls, x ∉ L o) :
    Family next' head' owned' (update L s ls) where
  lists := by
    intro o ho
    by_cases hos : o = s
    · subst hos
      rw [update_self]
      exact hs ho
    · rw [update_of_ne hos, (howned o ho hos).2]
      exact (h.lists o (howned o ho hos).1).congr (hnext o ho hos)
  disjoint := by
    intro o o' ho ho' hne x hx hx'
    by_cases hos : o = s
    · subst hos
      rw [update_self] at hx
      rw [update_of_ne hne.symm] at hx'
      exact hfresh ho o' ho' hne.symm x hx hx'
    · rw [update_of_ne hos] at hx
      by_cases hos' : o' = s
      · subst hos'
        rw [update_self] at hx'
        exact hfresh ho' o ho hos x hx' hx
      · rw [update_of_ne hos'] at hx'
        exact h.disjoint o o' (howned o ho hos).1 (howned o' ho' hos').1 hne x hx hx'

end Family

end LinkTable
