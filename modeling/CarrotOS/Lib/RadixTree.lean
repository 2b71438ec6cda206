import Mathlib.Data.List.Infix
import Mathlib.Data.Set.Basic
import Mathlib.Logic.Function.Basic

/-!
# Radix trees in a store of tables

A table is a node of type `ν` with an entry for every index; the entry is `0` when nothing hangs
below it, and leads to the node `child e` otherwise. The nodes are shared by no structure but the
store itself, so a write to one entry could change the tree in many places. If the paths that
lead to tables lead to different tables, it changes the tree in exactly one place: the paths
through that entry.
-/

namespace RadixTree

open Function List Option

variable {ν ι ε : Type*} [Zero ε] [DecidableEq ε] (child : ε → ν)

def next (store : ν → ι → ε) (n : ν) (i : ι) : Option ν :=
  if store n i = 0 then none else some (child (store n i))

def locate (store : ν → ι → ε) (root : ν) (path : List ι) : Option ν :=
  path.foldlM (next child store) root

/-- The entry at the end of a path, `0` when the path breaks off before it. -/
def entry (store : ν → ι → ε) (root : ν) (path : List ι) (i : ι) : ε :=
  (locate child store root path).elim 0 fun n => store n i

section Locate

variable {child} {store store' : ν → ι → ε} {root n : ν} {p q : List ι} {i : ι}

@[simp] theorem locate_nil : locate child store root [] = some root := rfl

theorem locate_append :
    locate child store root (p ++ q) =
      (locate child store root p).bind fun n => locate child store n q :=
  foldlM_append

theorem locate_cons :
    locate child store root (i :: p) =
      (next child store root i).bind fun n => locate child store n p := rfl

theorem locate_snoc :
    locate child store root (p ++ [i]) =
      (locate child store root p).bind fun n => next child store n i := by
  rw [locate_append]
  congr 1
  funext n
  rw [locate_cons]
  cases next child store n i <;> rfl

theorem next_eq_none : next child store n i = none ↔ store n i = 0 := by
  unfold next
  split_ifs with h <;> simp [h]

theorem next_of_ne (h : store n i ≠ 0) : next child store n i = some (child (store n i)) :=
  if_neg h

theorem next_congr (h : store' n i = store n i) :
    next child store' n i = next child store n i := by
  rw [next, next, h]

theorem locate_append_of_empty (hempty : ∀ n, locate child store root p = some n →
    ∀ j, store n j = 0) (hq : q ≠ []) : locate child store root (p ++ q) = none := by
  obtain ⟨j, r, rfl⟩ := exists_cons_of_ne_nil hq
  rw [locate_append]
  cases hp : locate child store root p with
  | none => rfl
  | some n =>
    rw [bind_some, locate_cons, next_eq_none.mpr (hempty n hp j)]
    rfl

end Locate

variable [DecidableEq ν] [DecidableEq ι]

def setEntry (store : ν → ι → ε) (n : ν) (i : ι) (e : ε) : ν → ι → ε :=
  update store n (update (store n) i e)

section SetEntry

variable {child} {store : ν → ι → ε} {n m : ν} {i j : ι} {e : ε}

omit [Zero ε] [DecidableEq ε] in
@[simp] theorem setEntry_self : setEntry store n i e n i = e := by
  simp [setEntry]

omit [Zero ε] [DecidableEq ε] in
theorem setEntry_of_ne (h : m ≠ n ∨ j ≠ i) : setEntry store n i e m j = store m j := by
  unfold setEntry
  by_cases hm : m = n
  · subst hm
    rw [update_self, update_of_ne (h.resolve_left fun h => h rfl)]
  · rw [update_of_ne hm]

end SetEntry

/-- The paths of the set lead to different nodes. -/
def Unshared (store : ν → ι → ε) (root : ν) (paths : Set (List ι)) : Prop :=
  ∀ p ∈ paths, ∀ q ∈ paths, ∀ n, locate child store root p = some n →
    locate child store root q = some n → p = q

/-- A set of paths that contains, with a path, the paths on the way to its end. -/
def Closed (paths : Set (List ι)) : Prop :=
  ∀ p i, p ++ [i] ∈ paths → p ∈ paths

omit [DecidableEq ι] in
theorem Closed.of_append {paths : Set (List ι)} (hc : Closed paths) {p q : List ι}
    (h : p ++ q ∈ paths) : p ∈ paths := by
  induction q using reverseRecOn with
  | nil => simpa using h
  | append_singleton q i ih => exact ih (hc _ i (by simpa using h))

variable {child} {store store' : ν → ι → ε} {root t : ν} {paths : Set (List ι)} {p q : List ι}
  {i j : ι} {e : ε}

omit [DecidableEq ν] [DecidableEq ι] in
/-- Stores that agree on the tables at the end of the paths have the same tree. -/
theorem locate_congr (hc : Closed paths)
    (h : ∀ q ∈ paths, ∀ n, locate child store root q = some n → ∀ j, store' n j = store n j)
    (hq : q ∈ paths) (j : ι) :
    locate child store' root (q ++ [j]) = locate child store root (q ++ [j]) := by
  induction q using reverseRecOn generalizing j with
  | nil =>
    rw [locate_snoc, locate_snoc]
    exact next_congr (h [] hq root rfl j)
  | append_singleton q i ih =>
    rw [locate_snoc, ih (hc q i hq) i, locate_snoc (p := q ++ [i])]
    cases hn : locate child store root (q ++ [i]) with
    | none => rfl
    | some n => exact next_congr (h _ hq n hn j)

namespace Unshared

variable (h : Unshared child store root paths) (hc : Closed paths) (hp : p ∈ paths)
  (ht : locate child store root p = some t)
include h hc hp ht

/-- A write to an entry changes no path that does not pass through it. -/
theorem locate_setEntry_of_not_through (hq : q ∈ paths) (hpre : ¬ p ++ [i] <+: q ++ [j]) :
    locate child (setEntry store t i e) root (q ++ [j]) = locate child store root (q ++ [j]) := by
  -- the write is seen at `q ++ [j]` only if `q` leads to the table, and then `q` is `p`
  have hstep : ∀ q ∈ paths, ∀ j, ¬ p ++ [i] <+: q ++ [j] →
      locate child (setEntry store t i e) root q = locate child store root q →
      locate child (setEntry store t i e) root (q ++ [j]) =
        locate child store root (q ++ [j]) := by
    intro q hq j hpre heq
    rw [locate_snoc, heq, locate_snoc]
    cases hn : locate child store root q with
    | none => rfl
    | some n =>
      refine next_congr (setEntry_of_ne ?_)
      by_contra hboth
      obtain ⟨rfl, rfl⟩ := not_or.mp hboth |>.imp not_not.mp not_not.mp
      obtain rfl := h p hp q hq n ht hn
      exact hpre (prefix_refl _)
  refine hstep q hq j hpre ?_
  induction q using reverseRecOn generalizing j with
  | nil => rfl
  | append_singleton q k ih =>
    have hpre' : ¬ p ++ [i] <+: q ++ [k] := fun h => hpre (h.trans (prefix_append _ _))
    exact hstep q (hc q k hq) k hpre' (ih (hc q k hq) hpre')

variable (hold : p ++ [i] ∈ paths → ∀ n, locate child store root (p ++ [i]) = some n →
    ∀ j, store n j = 0)
  (hnew : p ++ [i] ∈ paths → e ≠ 0 → ∀ j, setEntry store t i e (child e) j = 0)
include hold hnew

/-- A write to an entry below which the tree is empty, before and after, moves the end of the path
through that entry and of no other. -/
theorem locate_setEntry (hq : q ∈ paths) (j : ι) :
    locate child (setEntry store t i e) root (q ++ [j]) =
      if q ++ [j] = p ++ [i] then if e = 0 then none else some (child e)
      else locate child store root (q ++ [j]) := by
  have hself : locate child (setEntry store t i e) root (p ++ [i]) =
      if e = 0 then none else some (child e) := by
    have hp' : locate child (setEntry store t i e) root p = some t := by
      rcases eq_nil_or_concat p with rfl | ⟨r, k, rfl⟩
      · exact ht
      · rw [concat_eq_append] at *
        rw [h.locate_setEntry_of_not_through hc hp ht (hc r k hp), ht]
        intro hpre
        have := hpre.length_le
        simp at this
    rw [locate_snoc, hp', bind_some, next, setEntry_self]
  split_ifs with heq he
  · rw [heq, hself, if_pos he]
  · rw [heq, hself, if_neg he]
  · -- the path either avoids the entry or goes on behind it, where there is nothing
    by_cases hpre : p ++ [i] <+: q ++ [j]
    · obtain ⟨r, hr⟩ := hpre
      have hrne : r ≠ [] := by
        rintro rfl
        exact heq (by simpa using hr.symm)
      have hmem : p ++ [i] ∈ paths := by
        obtain ⟨s, k, rfl⟩ := (eq_nil_or_concat r).resolve_left hrne
        rw [concat_eq_append, ← append_assoc] at hr
        exact hc.of_append ((append_inj' hr rfl).1 ▸ hq)
      rw [← hr, locate_append_of_empty (hold hmem) hrne]
      refine locate_append_of_empty ?_ hrne
      intro n hn
      rw [hself] at hn
      split_ifs at hn with he
      cases hn
      exact hnew hmem he
    · exact h.locate_setEntry_of_not_through hc hp ht hq hpre

theorem locate_setEntry_mem (hq : q ∈ paths) :
    locate child (setEntry store t i e) root q =
      if q = p ++ [i] then if e = 0 then none else some (child e)
      else locate child store root q := by
  rcases eq_nil_or_concat q with rfl | ⟨r, k, rfl⟩
  · rw [if_neg (by simp)]
    rfl
  · rw [concat_eq_append] at *
    exact h.locate_setEntry hc hp ht hold hnew (hc r k hq) k

/-- The entries change at the end of that path only. -/
theorem entry_setEntry (hq : q ∈ paths) (hne : q ++ [j] ≠ p ++ [i]) :
    entry child (setEntry store t i e) root q j = entry child store root q j := by
  rw [entry, entry, h.locate_setEntry_mem hc hp ht hold hnew hq]
  split_ifs with hqp he
  · -- the tables at the end of the path, the old one and the new one, are empty
    subst hqp
    cases hn : locate child store root (p ++ [i]) with
    | none => rfl
    | some n => exact (hold hq n hn j).symm
  · subst hqp
    rw [elim_some, hnew hq he j]
    cases hn : locate child store root (p ++ [i]) with
    | none => rfl
    | some n => exact (hold hq n hn j).symm
  · cases hn : locate child store root q with
    | none => rfl
    | some n =>
      refine setEntry_of_ne ?_
      by_contra hboth
      obtain ⟨rfl, rfl⟩ := not_or.mp hboth |>.imp not_not.mp not_not.mp
      exact hne (by rw [h p hp q hq n ht hn])

/-- Linking a node that no path reaches, or nothing, keeps the paths apart. -/
theorem setEntry (hfresh : p ++ [i] ∈ paths → e ≠ 0 →
      ∀ q ∈ paths, locate child store root q ≠ some (child e)) :
    Unshared child (RadixTree.setEntry store t i e) root paths := by
  have hloc : ∀ q ∈ paths, _ := fun q hq => h.locate_setEntry_mem hc hp ht hold hnew hq
  intro q hq r hr n hqn hrn
  rw [hloc q hq] at hqn
  rw [hloc r hr] at hrn
  split_ifs at hqn hrn with h1 h2 h3 h4 h5
  · rw [h1, h3]
  · cases hqn
    exact absurd hrn (hfresh (h1 ▸ hq) h2 r hr)
  · cases hrn
    exact absurd hqn (hfresh (h4 ▸ hr) h5 q hq)
  · exact h q hq r hr n hqn hrn

end Unshared

end RadixTree
