import Mathlib.Algebra.Group.Nat.Defs
import Mathlib.Tactic.Common

/-!
# States of threads and processes, kinds of descriptors, sizes of the tables and error codes

What the scheduler, the system calls and the network stack share (`core/scheduler.h`,
`core/errorno.h`), and the search for a free slot of a table.
-/

namespace CarrotOS

/-! ## Threads and processes -/

inductive ThreadState where
  | notExist | ready | running | blockedKey | blockedMouse | blockedIo | blockedNetwork
  | blockedUds | blockedPid | blockedFutex | blockedOther | idle | dead | endedButNotCleaned
  | waitingSignal
  deriving DecidableEq, Repr, Inhabited

def ThreadState.blocked : ThreadState → Bool
  | .blockedKey | .blockedMouse | .blockedIo | .blockedNetwork | .blockedUds | .blockedPid
  | .blockedFutex | .blockedOther => true
  | _ => false

inductive ProcessState where
  | notExist | running | idle | stopped | endedButNotCleaned | handlingSignal
  deriving DecidableEq, Repr, Inhabited

def maxThreadsCount : ℕ := 2560

def maxProcessesCount : ℕ := 1280

/-! ## Descriptors -/

inductive FileType where
  | none | regular | charDev | pipe | dir | socket | socketUds | tty | frameBuffer | specialDir
  | special
  deriving DecidableEq, Repr, Inhabited

def oRdonly : ℕ := 0

def oWronly : ℕ := 1

def oRdwr : ℕ := 2

/-- `MAX_FD`, the number of pointers of `fd_global`. -/
def maxFd : ℕ := 10480

/-- `MAX_FD_INNER`, the number of descriptors of a process. -/
def maxFdInner : ℕ := 853

/-! ## Free slots -/

section FreeSlot

variable {map : ℕ → ℕ} {start stop i : ℕ}

/-- `get_a_free_slot`: the first word of a table that is 0, from `start` up to `stop` itself. It
panics if there is none. -/
def getAFreeSlot (map : ℕ → ℕ) (start stop : ℕ) : Option ℕ :=
  (List.range' start (stop + 1 - start)).find? fun i => map i == 0

theorem getAFreeSlot_spec (h : getAFreeSlot map start stop = some i) :
    map i = 0 ∧ start ≤ i ∧ i ≤ stop ∧ ∀ j, start ≤ j → j < i → map j ≠ 0 := by
  obtain ⟨hfree, hmem, hfirst⟩ := List.find?_range'_eq_some.mp h
  obtain ⟨hstart, hstop⟩ := List.mem_range'_1.mp hmem
  refine ⟨eq_of_beq hfree, hstart, by omega, fun j hj hji heq => ?_⟩
  simpa [heq] using hfirst j hj hji

theorem getAFreeSlot_lt (h : getAFreeSlot map start stop = some i)
    (hfree : ∃ j, start ≤ j ∧ j < stop ∧ map j = 0) : i < stop := by
  obtain ⟨j, hstart, hstop, hj⟩ := hfree
  obtain ⟨-, -, -, hfirst⟩ := getAFreeSlot_spec h
  have hle : i ≤ j := Nat.le_of_not_lt fun hji => hfirst j hstart hji hj
  omega

/-- The search of a table of `stop` words for its first free one. -/
def SearchesTable (map : ℕ → ℕ) (start stop : ℕ) : Prop :=
  (∀ i, getAFreeSlot map start stop = some i →
    map i = 0 ∧ start ≤ i ∧ i < stop ∧ ∀ j, start ≤ j → j < i → map j ≠ 0) ∧
  ((∀ j, start ≤ j → j < stop → map j ≠ 0) → getAFreeSlot map start stop = none)

/-- **The word behind a full table decides**: it must not be 0. -/
theorem searchesTable_iff (hstart : start < stop) : SearchesTable map start stop ↔
    ¬(map stop = 0 ∧ ∀ j, start ≤ j → j < stop → map j ≠ 0) := by
  have hbehind : getAFreeSlot map start stop = some stop ↔
      map stop = 0 ∧ ∀ j, start ≤ j → j < stop → map j ≠ 0 := by
    simp [getAFreeSlot, List.find?_range'_eq_some]
    omega
  rw [← hbehind]
  constructor
  · intro h hstop
    exact Nat.lt_irrefl _ (h.1 stop hstop).2.2.1
  · intro hne
    have hlaw : ∀ i, getAFreeSlot map start stop = some i →
        map i = 0 ∧ start ≤ i ∧ i < stop ∧ ∀ j, start ≤ j → j < i → map j ≠ 0 := by
      intro i hi
      obtain ⟨hzero, hle, hstop, hfirst⟩ := getAFreeSlot_spec hi
      refine ⟨hzero, hle, Nat.lt_of_le_of_ne hstop ?_, hfirst⟩
      rintro rfl
      exact hne hi
    refine ⟨hlaw, fun hall => Option.eq_none_iff_forall_ne_some.mpr fun i hi => ?_⟩
    obtain ⟨hzero, hle, hlt, -⟩ := hlaw i hi
    exact hall i hle hlt hzero

theorem searchesTable_iff_used : SearchesTable (fun _ => 1) 0 2 :=
  (searchesTable_iff (by decide)).mpr (by simp)

/-- Both words of a table are in use, and the word behind it is taken. -/
theorem slot_behind_table : ¬SearchesTable (fun i => if i < 2 then 1 else 0) 0 2 := by
  intro h
  obtain ⟨-, -, hlt, -⟩ := h.1 2 (by decide)
  omega

/-- The inner loop of `get_a_free_slot_with_size`: no byte from `i` on is in use. -/
def freeBytes (table : ℕ → UInt8) (u i : ℕ) : Bool :=
  (List.range u).all fun j => table (i + j) == 0

/-- `get_a_free_slot_with_size` from the position `i` on, for `fuel` turns. A position wraps as a
word of 64 bits, and the result `none` is the panic behind the loop. -/
def getAFreeSlotWithSize (table : ℕ → UInt8) (stop u : ℕ) : ℕ → ℕ → Option (Option ℕ)
  | 0, _ => none
  | fuel + 1, i =>
    if (i + u) % 2 ^ 64 ≤ stop then
      if freeBytes table u i then some (some (i / u))
      else getAFreeSlotWithSize table stop u fuel ((i + u) % 2 ^ 64)
    else some none

/-- The first free slot among those that begin at `start`, `start + u` and so on. -/
def firstSlot (start stop u : ℕ) (free : ℕ → Bool) : Option ℕ :=
  ((List.range ((stop - start) / u)).find? fun k => free (start + k * u)).map fun k =>
    (start + k * u) / u

variable {table : ℕ → UInt8} {u k fuel : ℕ} {free : ℕ → Bool}

theorem getAFreeSlotWithSize_eq (hu : 1 ≤ u) (hwrap : stop + u < 2 ^ 64) (hle : start ≤ stop)
    (hfuel : (stop - start) / u < fuel) :
    getAFreeSlotWithSize table stop u fuel start =
      some (firstSlot start stop u (freeBytes table u)) := by
  induction hn : (stop - start) / u generalizing start fuel with
  | zero =>
    obtain ⟨fuel, rfl⟩ := Nat.exists_eq_add_one.mpr (Nat.zero_lt_of_lt hfuel)
    have hlt := (Nat.div_eq_zero_iff_lt hu).mp hn
    rw [getAFreeSlotWithSize, Nat.mod_eq_of_lt (by omega), if_neg (by omega), firstSlot, hn]
    rfl
  | succ n ih =>
    obtain ⟨fuel, rfl⟩ := Nat.exists_eq_add_one.mpr (Nat.zero_lt_of_lt hfuel)
    have hnext : u ≤ stop - start := Nat.div_pos_iff.mp (hn ▸ Nat.succ_pos n) |>.2
    have hrest : (stop - (start + u)) / u = n := by
      rw [Nat.sub_add_eq, Nat.div_eq_sub_div hu hnext] at *
      omega
    have hih := @ih (start + u) fuel (by omega) (by omega) hrest
    rw [getAFreeSlotWithSize, Nat.mod_eq_of_lt (by omega), if_pos (by omega), hih]
    simp only [firstSlot, hn, hrest, List.range_succ_eq_map, List.find?_cons, Nat.zero_mul,
      Nat.add_zero, List.find?_map, Function.comp_def, Nat.succ_mul, Nat.add_right_comm _ u,
      ← Nat.add_assoc]
    cases freeBytes table u start
    · simp only [Bool.false_eq_true, if_false, Option.map_map, Function.comp_def, Nat.succ_mul,
        ← Nat.add_assoc]
    · simp

theorem firstSlot_mul (hu : 1 ≤ u) (m : ℕ) :
    firstSlot (m * u) stop u free =
      (List.range' m (stop / u - m)).find? fun k => free (k * u) := by
  have hcount : (stop - m * u) / u = stop / u - m := by
    rw [Nat.mul_comm, Nat.sub_mul_div]
  simp only [firstSlot, ← Nat.add_mul, Nat.mul_div_cancel _ hu, List.range'_eq_map_range,
    List.find?_map, hcount]
  rfl

theorem firstSlot_zero (hu : 1 ≤ u) :
    firstSlot 0 stop u free = (List.range (stop / u)).find? fun k => free (k * u) := by
  have h : firstSlot (0 * u) stop u free =
      (List.range' 0 (stop / u - 0)).find? fun k => free (k * u) := firstSlot_mul hu 0
  rwa [Nat.zero_mul, Nat.sub_zero, ← List.range_eq_range'] at h

/-- `get_a_free_slot_with_size` on a table of records of `u` bytes, the bound being a number of
bytes too. A record of zeros is `zero`. -/
def freeRecord {α : Type} [DecidableEq α] (stop u : ℕ) (zero : α) (table : ℕ → α) : Option ℕ :=
  firstSlot 0 stop u fun i => table (i / u) = zero

theorem freeRecord_eq {α : Type} [DecidableEq α] (hu : 1 ≤ u) (zero : α) (table : ℕ → α) :
    freeRecord stop u zero table = (List.range (stop / u)).find? fun k => table k = zero := by
  simp only [freeRecord, firstSlot_zero hu, Nat.mul_div_cancel _ hu]

/-- **The first slot of zeros**: with enough turns the search returns it, and panics exactly if
there is none. -/
theorem getAFreeSlotWithSize_first (hu : 1 ≤ u) (hstart : u ∣ start) (hle : start ≤ stop)
    (hwrap : stop + u < 2 ^ 64) : ∃ r, (∃ n, ∀ fuel, n < fuel →
      getAFreeSlotWithSize table stop u fuel start = some r) ∧
    (∀ k, r = some k → start ≤ k * u ∧ (k + 1) * u ≤ stop ∧ freeBytes table u (k * u) ∧
      ∀ i < k, start ≤ i * u → ¬freeBytes table u (i * u)) ∧
    (r = none ↔ ¬∃ k, start ≤ k * u ∧ (k + 1) * u ≤ stop ∧ freeBytes table u (k * u)) := by
  obtain ⟨m, rfl⟩ := hstart
  rw [Nat.mul_comm] at hle ⊢
  have hm : m ≤ stop / u := (Nat.le_div_iff_mul_le hu).mpr hle
  have hend : m + (stop / u - m) = stop / u := Nat.add_sub_cancel' hm
  have hslot : ∀ k, m * u ≤ k * u ∧ (k + 1) * u ≤ stop ↔ m ≤ k ∧ k < stop / u :=
    fun k => and_congr (Nat.mul_le_mul_right_iff hu) (Nat.le_div_iff_mul_le hu).symm
  refine ⟨_, ⟨_, fun fuel => getAFreeSlotWithSize_eq hu hwrap hle⟩, ?_⟩
  rw [firstSlot_mul hu]
  refine ⟨fun k hk => ?_, ?_⟩
  · obtain ⟨hfree, hmem, hfirst⟩ := List.find?_range'_eq_some.mp hk
    obtain ⟨hmk, hk⟩ := List.mem_range'_1.mp hmem
    obtain ⟨hin, hout⟩ := (hslot k).mpr ⟨hmk, by omega⟩
    refine ⟨hin, hout, hfree, fun i hi hle => ?_⟩
    simpa using hfirst i (Nat.le_of_mul_le_mul_right hle hu) hi
  · simp only [List.find?_range'_eq_none, hend, ← and_assoc, hslot, not_exists, not_and, and_imp,
      Bool.not_eq_true, Bool.not_eq_true']

theorem getAFreeSlotWithSize_first_third : ∃ r n, ∀ fuel, n < fuel →
    getAFreeSlotWithSize (fun i => if i < 3 then 1 else 0) 8 2 fuel 0 = some r :=
  (getAFreeSlotWithSize_first (by decide) (by decide) (by decide) (by decide)).imp fun _ h => h.1

end FreeSlot

/-! ## Error codes -/

def errno (e : ℕ) : ℕ := 2 ^ 64 - e

def eSrch : ℕ := 3

def eBadf : ℕ := 9

def eAgain : ℕ := 11

def eInval : ℕ := 22

def eNotSock : ℕ := 88

def eOpNotSupp : ℕ := 95

end CarrotOS
