import Mathlib.Logic.Function.Basic
import Mathlib.Tactic.Common

/-!
# Tables of records

A table is a function from indices to optional records, a null pointer being `none`. A loop over
the table that changes each record by itself is a sweep; a write through one pointer changes one
entry. Whatever such an operation does, a property of the record at one index is kept if each
change that can reach that record keeps it.
-/

namespace Table

open Function

variable {α : Type*} {t : ℕ → Option α} {a i n : ℕ} {x y : α} {P : α → Prop} {g : α → α}
  {p : ℕ → α → Bool}

def modify (t : ℕ → Option α) (i : ℕ) (g : α → α) : ℕ → Option α :=
  update t i ((t i).map g)

/-- A change of the records below `n` that pass a test. -/
def sweep (n : ℕ) (p : ℕ → α → Bool) (g : α → α) (t : ℕ → Option α) : ℕ → Option α := fun i =>
  (t i).map fun x => if i < n ∧ p i x then g x else x

/-- There is a record at `a` with the property. -/
def Holds (t : ℕ → Option α) (a : ℕ) (P : α → Prop) : Prop :=
  ∃ x, t a = some x ∧ P x

instance [DecidablePred P] : Decidable (Holds t a P) :=
  decidable_of_iff ((t a).any fun x => decide (P x)) (by simp [Holds, Option.any_eq_true])

theorem modify_self : modify t i g i = (t i).map g :=
  update_self ..

theorem modify_of_ne (h : a ≠ i) : modify t i g a = t a :=
  update_of_ne h ..

theorem modify_eq_some : modify t i g a = some y ↔
    ∃ x, t a = some x ∧ y = if a = i then g x else x := by
  by_cases h : a = i
  · subst h
    simp [modify_self, eq_comm]
  · simp [modify_of_ne h, h]

theorem modify_cases (t : ℕ → Option α) (i : ℕ) (g : α → α) (a : ℕ) :
    modify t i g a = none ∧ t a = none ∨
      ∃ x, t a = some x ∧ modify t i g a = some (if a = i then g x else x) := by
  cases ha : t a with
  | none =>
    refine .inl ⟨Option.eq_none_iff_forall_ne_some.mpr fun y hy => ?_, rfl⟩
    obtain ⟨x, hx, -⟩ := modify_eq_some.mp hy
    cases ha.symm.trans hx
  | some x => exact .inr ⟨x, rfl, modify_eq_some.mpr ⟨x, ha, rfl⟩⟩

section Congr

variable {β γ : Type*} {u : ℕ → Option β} {f : α → γ} {f' : β → γ} {g' : β → β}
  (hg : ∀ x y, f x = f' y → f (g x) = f' (g' y))
include hg

theorem map_congr {o : Option α} {o' : Option β} (h : o.map f = o'.map f') :
    (o.map g).map f = (o'.map g').map f' := by
  cases o <;> cases o' <;> simp at h ⊢
  exact hg _ _ h

/-- Records of two tables look the same after changes that look the same. -/
theorem modify_congr (h : ∀ a < n, (t a).map f = (u a).map f') (i : ℕ) :
    ∀ a < n, (modify t i g a).map f = (modify u i g' a).map f' := by
  intro a ha
  by_cases hai : a = i
  · subst hai
    rw [modify_self, modify_self]
    exact map_congr hg (h a ha)
  · rw [modify_of_ne hai, modify_of_ne hai]
    exact h a ha

end Congr

theorem sweep_eq_some : sweep n p g t a = some y ↔
    ∃ x, t a = some x ∧ y = if a < n ∧ p a x then g x else x := by
  rw [sweep, Option.map_eq_some_iff]
  exact exists_congr fun x => and_congr_right fun _ => eq_comm

theorem Holds.modify (h : Holds t a P) (hg : a = i → ∀ x, t a = some x → P x → P (g x)) :
    Holds (modify t i g) a P := by
  obtain ⟨x, hx, hP⟩ := h
  refine ⟨_, modify_eq_some.mpr ⟨x, hx, rfl⟩, ?_⟩
  split_ifs with heq
  · exact hg heq x hx hP
  · exact hP

theorem Holds.sweep (h : Holds t a P) (hg : ∀ x, P x → p a x → P (g x)) :
    Holds (sweep n p g t) a P := by
  obtain ⟨x, hx, hP⟩ := h
  refine ⟨_, sweep_eq_some.mpr ⟨x, hx, rfl⟩, ?_⟩
  split_ifs with hp
  · exact hg x hP hp.2
  · exact hP

/-- A record that is put into a free entry. -/
theorem Holds.insert (h : Holds t a P) (hfree : t i = none) :
    Holds (update t i (some y)) a P := by
  obtain ⟨x, hx, hP⟩ := h
  have hne : a ≠ i := by
    rintro rfl
    cases hfree.symm.trans hx
  exact ⟨x, (update_of_ne hne _ _).trans hx, hP⟩

/-! ## Pairs of records -/

/-- Any two records below `n` are related. -/
def Pairwise (n : ℕ) (R : α → α → Prop) (t : ℕ → Option α) : Prop :=
  ∀ i < n, ∀ j < n, i ≠ j → ∀ x y, t i = some x → t j = some y → R x y

/-- A record that is written has to be related to the other ones. -/
theorem pairwise_update {R : α → α → Prop} (hR : ∀ x y, R x y → R y x) (h : Pairwise n R t) :
    Pairwise n R (update t i (some x)) ↔
      (i < n → ∀ j < n, j ≠ i → ∀ y, t j = some y → R x y) := by
  constructor
  · intro h' hi j hj hne y hy
    refine h' i hi j hj (Ne.symm hne) x y (update_self ..) ?_
    rw [update_of_ne hne, hy]
  · intro hnew a ha b hb hab u v hu hv
    by_cases hai : a = i
    · subst hai
      rw [update_self] at hu
      rw [update_of_ne (Ne.symm hab)] at hv
      cases hu
      exact hnew ha b hb (Ne.symm hab) v hv
    · rw [update_of_ne hai] at hu
      by_cases hbi : b = i
      · subst hbi
        rw [update_self] at hv
        cases hv
        exact hR _ _ (hnew hb a ha hab u hu)
      · rw [update_of_ne hbi] at hv
        exact h a ha b hb hab u v hu hv

/-! ## Pointers -/

section Pointers

variable {ptrs : ℕ → ℕ} {records : ℕ → Option α} {addr : ℕ}

def deref (ptrs : ℕ → ℕ) (records : ℕ → Option α) (i : ℕ) : Option α :=
  if ptrs i = 0 then none else records (ptrs i)

/-- No two pointers of the table point at one record. -/
def Separate (n : ℕ) (ptrs : ℕ → ℕ) : Prop :=
  ∀ i < n, ∀ j < n, ptrs i ≠ 0 → ptrs i = ptrs j → i = j

/-- A change of the records that pass a test and that pointers of the table point at. -/
def sweepAt (n : ℕ) (ptrs : ℕ → ℕ) (p : α → Bool) (g : α → α) (records : ℕ → Option α) :
    ℕ → Option α := fun addr =>
  (records addr).map fun x =>
    if ((List.range n).any fun i => ptrs i == addr) ∧ addr ≠ 0 ∧ p x then g x else x

theorem deref_eq_some : deref ptrs records i = some x ↔
    ptrs i ≠ 0 ∧ records (ptrs i) = some x := by
  simp [deref]

theorem deref_modify_self :
    deref ptrs (modify records (ptrs i) g) i = (deref ptrs records i).map g := by
  by_cases hnull : ptrs i = 0
  · simp [deref, hnull]
  · simp [deref, hnull, modify_self]

/-- A write through one pointer. -/
theorem deref_modify (hsep : Separate n ptrs) (hi : i < n) (ha : a < n) :
    deref ptrs (modify records (ptrs i) g) a = modify (deref ptrs records) i g a := by
  by_cases hnull : ptrs a = 0
  · by_cases hai : a = i
    · subst hai
      rw [deref_modify_self, modify_self]
    · simp [modify_of_ne hai, deref, hnull]
  · by_cases hai : a = i
    · subst hai
      rw [deref_modify_self, modify_self]
    · have hne : ptrs a ≠ ptrs i := fun heq => hai (hsep a ha i hi hnull heq)
      simp [modify_of_ne hai, deref, hnull, modify_of_ne hne]

/-- A loop over the pointers of the table. -/
theorem deref_sweepAt {p : α → Bool} (ha : a < n) :
    deref ptrs (sweepAt n ptrs p g records) a = sweep n (fun _ => p) g (deref ptrs records) a := by
  by_cases hnull : ptrs a = 0
  · simp [sweep, deref, hnull]
  · have hmem : ((List.range n).any fun i => ptrs i == ptrs a) = true :=
      List.any_eq_true.mpr ⟨a, List.mem_range.mpr ha, beq_self_eq_true _⟩
    simp [sweep, deref, sweepAt, hnull, hmem, ha]

/-- A new record, in memory that no pointer of the table points at. -/
theorem deref_insert (hfresh : ∀ j < n, ptrs j ≠ addr) (haddr : addr ≠ 0) (ha : a < n) :
    deref (update ptrs i addr) (update records addr (some x)) a =
      update (deref ptrs records) i (some x) a := by
  by_cases hai : a = i
  · subst hai
    simp [deref, haddr]
  · simp [deref, update_of_ne hai, update_of_ne (hfresh a ha)]

theorem Separate.insert (hsep : Separate n ptrs) (hfresh : ∀ j < n, ptrs j ≠ addr) :
    Separate n (update ptrs i addr) := by
  intro j hj k hk hnull heq
  by_cases hji : j = i
  · subst hji
    by_contra hkj
    rw [update_self, update_of_ne (Ne.symm hkj)] at heq
    exact hfresh k hk heq.symm
  · rw [update_of_ne hji] at hnull heq
    by_cases hki : k = i
    · subst hki
      rw [update_self] at heq
      exact absurd heq (hfresh j hj)
    · rw [update_of_ne hki] at heq
      exact hsep j hj k hk hnull heq

end Pointers

end Table
