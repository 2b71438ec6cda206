import CarrotOS.Fs.Fork

/-!
# The descriptors of a pipe (`core/syscall/syscall2.h`)

`sys_pipe` looks for its second descriptor from the byte behind the number of the first one on, in
steps of the size of a descriptor. It compares windows that begin a few bytes too late, and takes
the number of a window for the number of a descriptor: the first descriptor is found again if the
next one begins with zeros, and a descriptor in use may be taken.
-/

namespace CarrotOS

open Bytes List Option

variable {σ : Type} {st st' : FdState σ} {pipeId fd n r w : ℕ}

/-- The 80 bytes that the search from `start` on tries at its round `k` are zero. -/
def FdState.Blank (st : FdState σ) (start k : ℕ) : Prop :=
  ∀ j < sizeofFileInner, st.table (start + sizeofFileInner * k + j) = 0

def FdState.resId (st : FdState σ) (fd : ℕ) : ℕ := st.field fd 72 8

structure FdState.End (st : FdState σ) (fd pipeId flags : ℕ) : Prop where
  type : st.type fd = filePipe
  resId : st.resId fd = pipeId
  openFlags : st.openFlags fd = flags

/-- The numbers that `sys_pipe` stores for the caller. -/
def FdState.pipeFds (st : FdState σ) : Option (ℕ × ℕ) := do
  let fdR ← st.getAFreeSlotWithSize 0
  let fdW ← st.getAFreeSlotWithSize (fdR + 1)
  some (fdR, fdW)

/-- `sys_pipe` returns two descriptors that were free, they are the ends of the pipe, and the other
descriptors are as they were. -/
def FdState.OpensPipe (st : FdState σ) (pipeId : ℕ) : Prop :=
  ∃ r w st', st.pipeFds = some (r, w) ∧ st.sysPipe pipeId = some st' ∧ r ≠ w ∧
    st.Free r ∧ st.Free w ∧ st'.End r pipeId oRdonly ∧ st'.End w pipeId oWronly ∧
    ∀ n, n ≠ r → n ≠ w → st.Copy st' n n

/-! ## The searches -/

theorem getAFreeSlotWithSize_eq_some {start k : ℕ} (hstart : start ≤ 10) :
    st.getAFreeSlotWithSize start = some k ↔
      k < 10 ∧ st.Blank start k ∧ ∀ j < k, ¬st.Blank start j := by
  have hrounds : (maxFdInner - start) / sizeofFileInner = 10 := by
    unfold maxFdInner sizeofFileInner
    omega
  have hnumber : ∀ k, (start + k * sizeofFileInner) / sizeofFileInner = k := by
    intro k
    unfold sizeofFileInner
    omega
  have hblank : ∀ k, freeBytes st.table sizeofFileInner (start + k * sizeofFileInner) = true ↔
      st.Blank start k := by
    simp [FdState.Blank, freeBytes, Nat.mul_comm]
  simp only [FdState.getAFreeSlotWithSize, firstSlot, hrounds, hnumber, map_eq_some_iff,
    exists_eq_right, find?_range_eq_some, hblank, mem_range, Bool.not_eq_true', ← Bool.not_eq_true]
  tauto

theorem free_iff_blank : st.Free n ↔ st.Blank 0 n := by
  simp [FdState.Free, FdState.Blank]

/-! ## The stores -/

theorem copy_eraseDescriptor (hne : n ≠ fd) : st.Copy (st.eraseDescriptor fd) n n := by
  intro i hi
  unfold FdState.eraseDescriptor
  dsimp only
  refine blit_of_not_mem _ _ ?_
  unfold sizeofFileInner at *
  omega

theorem end_setPipe (st : FdState σ) (fd : ℕ) {pipeId flags : ℕ} (hpipe : pipeId < 2 ^ 64)
    (hflags : flags < 2 ^ 32) : (st.setPipe fd pipeId flags).End fd pipeId flags where
  type := type_setPipe_self st fd pipeId flags
  resId := by
    rw [FdState.resId, FdState.setPipe, field_setField_of_disjoint (.inr (by decide)),
      field_setField_self]
    exact Nat.mod_eq_of_lt hpipe
  openFlags := by
    rw [FdState.openFlags, FdState.setPipe, field_setField_self]
    exact Nat.mod_eq_of_lt hflags

theorem FdState.End.copy {flags : ℕ} (h : st.End n pipeId flags) (hcopy : st.Copy st' n n) :
    st'.End n pipeId flags :=
  ⟨hcopy.type.trans h.type, (field_congr (by decide) hcopy).trans h.resId,
    (field_congr (by decide) hcopy).trans h.openFlags⟩

/-- **What `sys_pipe` does** when it finds two different descriptors. -/
theorem sysPipe_spec (hpipe : pipeId < 2 ^ 64) (hr : st.getAFreeSlotWithSize 0 = some r)
    (hw : st.getAFreeSlotWithSize (r + 1) = some w) (hne : r ≠ w) :
    ∃ st', st.sysPipe pipeId = some st' ∧ st'.End r pipeId oRdonly ∧ st'.End w pipeId oWronly ∧
      ∀ n, n ≠ r → n ≠ w → st.Copy st' n n := by
  refine ⟨_, bind_eq_some_iff.mpr ⟨r, hr, bind_eq_some_iff.mpr ⟨w, hw, rfl⟩⟩,
    (end_setPipe _ r hpipe (by decide)).copy (copy_setPipe hne _ _),
    end_setPipe _ w hpipe (by decide), fun n hnr hnw => ?_⟩
  exact ((copy_eraseDescriptor hnr).trans (copy_eraseDescriptor hnw)).trans
    ((copy_setPipe hnr _ _).trans (copy_setPipe hnw _ _))

/-- **When `sys_pipe` opens a pipe**: the second search ends at another free descriptor. -/
theorem opensPipe_iff (st : FdState σ) (pipeGlobal : ℕ → ℕ) :
    (∃ pipeId, getAFreeSlot pipeGlobal 0 maxPipesCount = some pipeId ∧ st.OpensPipe pipeId) ↔
      (∃ i ≤ maxPipesCount, pipeGlobal i = 0) ∧
      ∃ r < 10, ∃ w < 10, r ≠ w ∧ st.Free r ∧ st.Free w ∧ (∀ k < r, ¬st.Free k) ∧
        st.Blank (r + 1) w ∧ ∀ k < w, ¬st.Blank (r + 1) k := by
  simp only [free_iff_blank]
  constructor
  · rintro ⟨pipeId, hslot, r, w, st', hfds, -, hne, hr, hw, -⟩
    obtain ⟨hzero, -, hle, -⟩ := getAFreeSlot_spec hslot
    obtain ⟨r', hr', hfds⟩ := bind_eq_some_iff.mp hfds
    obtain ⟨w', hw', hfds⟩ := bind_eq_some_iff.mp hfds
    cases hfds
    obtain ⟨hr10, -, hfirst⟩ := (getAFreeSlotWithSize_eq_some (by omega)).mp hr'
    obtain ⟨hw10, hblank, hearlier⟩ := (getAFreeSlotWithSize_eq_some (by omega)).mp hw'
    exact ⟨⟨pipeId, hle, hzero⟩, r, hr10, w, hw10, hne, free_iff_blank.mp hr,
      free_iff_blank.mp hw, hfirst, hblank, hearlier⟩
  · rintro ⟨⟨i, hi, hzero⟩, r, hr10, w, hw10, hne, hr, hw, hfirst, hblank, hearlier⟩
    have hr' := (getAFreeSlotWithSize_eq_some (by omega)).mpr ⟨hr10, hr, hfirst⟩
    have hw' := (getAFreeSlotWithSize_eq_some (by omega)).mpr ⟨hw10, hblank, hearlier⟩
    obtain ⟨pipeId, hslot⟩ : ∃ pipeId, getAFreeSlot pipeGlobal 0 maxPipesCount = some pipeId := by
      refine isSome_iff_exists.mp (find?_isSome.mpr ⟨i, ?_, by simp [hzero]⟩)
      exact mem_range'_1.mpr ⟨Nat.zero_le i, by omega⟩
    obtain ⟨-, -, hle, -⟩ := getAFreeSlot_spec hslot
    obtain ⟨st', hst', hspec⟩ :=
      sysPipe_spec (lt_of_le_of_lt hle (by decide : maxPipesCount < 2 ^ 64)) hr' hw' hne
    have hfds : st.pipeFds = some (r, w) :=
      bind_eq_some_iff.mpr ⟨r, hr', bind_eq_some_iff.mpr ⟨w, hw', rfl⟩⟩
    exact ⟨pipeId, hslot, r, w, st', hfds, hst', hne, free_iff_blank.mpr hr,
      free_iff_blank.mpr hw, hspec⟩

/-- **One descriptor for both ends**: in a table without open descriptors the second search finds
the first one again. -/
theorem pipe_in_empty_table : (∀ n, (oneOpen.view 8192).Free n) ∧
    (oneOpen.view 8192).pipeFds = some (0, 0) ∧ ¬(oneOpen.view 8192).OpensPipe 0 := by
  have hfds : (oneOpen.view 8192).pipeFds = some (0, 0) := by decide
  refine ⟨fun n i _ => ?_, hfds, ?_⟩
  · exact (if_neg (by omega)).trans (if_neg (by omega))
  · rintro ⟨r, w, st', hrw, -, hne, -⟩
    cases hfds.symm.trans hrw
    exact hne rfl

end CarrotOS
