import CarrotOS.Fs.Name
import CarrotOS.Lib.Run
import CarrotOS.Lib.Table
import CarrotOS.Lib.Word
import CarrotOS.Sched.Basic
import Mathlib.Data.List.GetD
import Mathlib.Data.Nat.Find

/-!
# Mount points (`core/filesytem/vfs.h`, `libs/string/string.h`)

A mount point records the name of a partition, a path and a pointer to the partition. A path is
looked up by trying the path itself and then the path without its last component, and so on, in the
table of mount points from the last one down.

`strcmp` of the kernel returns 1 for equal strings. The lookup of paths is written for that, the
lookup of partitions is not: it takes the first partition with another name, and the word in front
of the table if there is none. The loop over the components counts an unsigned number down and reads
in front of the string, so a path under no mount point is never answered.

Strings are the lists of their bytes before the NUL; one that does not fit into a buffer is not
stored, and a wild pointer is not followed: such a call has no successor.
-/

namespace CarrotOS

open Word Function List Option

variable {i id : ℕ}

open Fat32 (slash PathType)

/-! ## The tables -/

/-- `strcmp`: 1 if the strings are equal, and 0 if they are not. -/
def strcmp : List UInt8 → List UInt8 → ℕ
  | [], [] => 1
  | a :: s₁, b :: s₂ => if a = b then strcmp s₁ s₂ else 0
  | _, _ => 0

/-- The functions of `struct vfs_partition_driver` that the system calls use, for a device with
states `σ`. Reading gives the bytes that are stored in the buffer. -/
structure Driver (σ : Type) where
  read : σ → List UInt8 → ℕ → ℕ → List UInt8
  write : σ → List UInt8 → List UInt8 → ℕ → σ
  create : σ → List UInt8 → Bool → ℕ × σ
  stat : σ → List UInt8 → PathType
  truncate : σ → List UInt8 → σ

structure Partition (σ : Type) where
  path : List UInt8
  driver : Driver σ

structure MountPoint where
  src : List UInt8
  dest : List UInt8
  flags : ℤ
  part : ℕ
  deriving DecidableEq, Repr

def maxMountPoint : ℕ := 512

def maxDevice : ℕ := 1024

def maxPath : ℕ := 1024

/-- `mount_global`, the pointers of `partition_global` and what is at an address, the word in front
of `partition_global` and the word behind `mount_global`. -/
structure Vfs (σ : Type) where
  mountGlobal : ℕ → Option MountPoint
  partitionGlobal : ℕ → ℕ
  partitions : ℕ → Option (Partition σ)
  smGlobalLast : ℕ
  driverGlobal : ℕ

variable {σ : Type}

/-- A loop over a table that ends at the first entry that passes a test; the test follows a
pointer. -/
def findEntry (test : ℕ → Option Bool) : List ℕ → Option (Option ℕ)
  | [] => some none
  | i :: rest => do if ← test i then some (some i) else findEntry test rest

namespace Vfs

/-! ## New mount points -/

/-- The words of `mount_global` as `get_a_free_slot` reads them. -/
def mountWords (v : Vfs σ) (i : ℕ) : ℕ :=
  if i < maxMountPoint then if (v.mountGlobal i).isSome then 1 else 0 else v.driverGlobal

def findPartByName (v : Vfs σ) (name : List UInt8) : Option (Option ℕ) :=
  findEntry (fun i =>
    if v.partitionGlobal i = 0 then some false
    else (v.partitions (v.partitionGlobal i)).map fun p => strcmp p.path name == 0)
    (range maxDevice)

/-- `partition_global[find_part_by_name(name)]`. The index -1 is the word in front of the table. -/
def partOf (v : Vfs σ) (name : List UInt8) : Option ℕ := do
  match ← v.findPartByName name with
  | some i => some (v.partitionGlobal i)
  | none => some v.smGlobalLast

/-- `mount`. The first loop follows null pointers too; the index it finds is not used. -/
def mount (v : Vfs σ) (src dest : List UInt8) (flags : ℤ) : Option (ℕ × Vfs σ) := do
  let id ← getAFreeSlot v.mountWords 0 maxMountPoint
  if id = maxMountPoint then some (2 ^ 64 - 1, v)
  else do
    let _ ← findEntry (fun i =>
      (v.partitions (v.partitionGlobal i)).map fun p => strcmp p.path src == 0)
      (range maxDevice)
    if src.length < maxPath ∧ dest.length < maxPath then do
      let part ← v.partOf src
      some (id, { v with
        mountGlobal := update v.mountGlobal id
          (some { src := src, dest := dest, flags := flags, part := part }) })
    else none

end Vfs

/-! ## The lookup of a path -/

/-- The loop of `get_parent_path_at_level` that counts separators from the end of the path on. It
would read in front of the string when the index is 0. -/
def walkBack (path : List UInt8) (need : ℕ) : ℕ → ℕ → Option ℕ
  | 0, count =>
    if need ≤ count + (if path.getD 0 0 = slash then 1 else 0) then some 0 else none
  | i + 1, count =>
    if need ≤ count + (if path.getD (i + 1) 0 = slash then 1 else 0) then some (i + 1)
    else walkBack path need i (count + (if path.getD (i + 1) 0 = slash then 1 else 0))

/-- `get_parent_path_at_level`, into an empty buffer of `MAX_PATH` bytes. -/
def getParentPathAtLevel (level : ℕ) (path : List UInt8) : Option (List UInt8) := do
  let i ← walkBack path (u64 (path.count slash + 2 ^ 64 - level)) path.length 0
  if i + 1 < maxPath then some (if 0 < i then path.take i else [slash]) else none

namespace Vfs

/-- The loop over the mount points, from the last one down. -/
def findMountAt (v : Vfs σ) (tmpPath : List UInt8) : Option ℕ :=
  (range maxMountPoint).reverse.find? fun j =>
    (v.mountGlobal j).any fun m => strcmp m.dest tmpPath != 0

/-- The loop over the levels. After level 0 the number wraps, and more separators are looked for
than the path has. -/
def findLevels (v : Vfs σ) (path : List UInt8) : ℕ → Option ℕ
  | 0 => do
    let tmpPath ← getParentPathAtLevel 0 path
    v.findMountAt tmpPath
  | level + 1 => do
    let tmpPath ← getParentPathAtLevel (level + 1) path
    match v.findMountAt tmpPath with
    | some j => some j
    | none => v.findLevels path level

def findMountByPath (v : Vfs σ) (path : List UInt8) : Option ℕ :=
  v.findLevels path (path.count slash)

end Vfs

/-! ## Strings and loops -/

section Loops

variable {path d : List UInt8} {i need level : ℕ}

theorem strcmp_eq (s1 s2 : List UInt8) : strcmp s1 s2 = if s1 = s2 then 1 else 0 := by
  induction s1 generalizing s2 with
  | nil => cases s2 <;> simp [strcmp]
  | cons a s1 ih =>
    cases s2 with
    | nil => simp [strcmp]
    | cons b s2 =>
      rw [strcmp, ih]
      by_cases hab : a = b <;> simp [hab]

theorem findEntry_eq_some {test : ℕ → Option Bool} {l : List ℕ} {r : Option ℕ}
    (h : findEntry test l = some r) :
    (∃ i ∈ l, r = some i ∧ test i = some true) ∨ r = none ∧ ∀ i ∈ l, test i = some false := by
  induction l with
  | nil =>
    cases h
    exact .inr ⟨rfl, by simp⟩
  | cons i l ih =>
    obtain ⟨b, hb, h⟩ := bind_eq_some_iff.mp h
    cases b with
    | true =>
      cases h
      exact .inl ⟨i, by simp, rfl, hb⟩
    | false =>
      rcases ih h with ⟨j, hj, hr, htest⟩ | ⟨hr, hall⟩
      · exact .inl ⟨j, mem_cons_of_mem i hj, hr, htest⟩
      · exact .inr ⟨hr, forall_mem_cons.mpr ⟨hb, hall⟩⟩

theorem count_drop (path : List UInt8) (i : ℕ) : (path.drop i).count slash =
    (path.drop (i + 1)).count slash + if path.getD i 0 = slash then 1 else 0 := by
  by_cases hi : i < path.length
  · rw [drop_eq_getElem_cons hi, count_cons, getD_eq_getElem _ _ hi]
    simp
  · have hzero : (0 : UInt8) ≠ slash := by decide
    rw [drop_eq_nil_of_le (by omega), drop_eq_nil_of_le (by omega),
      getD_eq_default _ _ (by omega), if_neg hzero, Nat.add_zero]

/-- The loop finds the last place behind which there are enough separators. -/
theorem walkBack_spec (need start : ℕ) :
    walkBack path need start ((path.drop (start + 1)).count slash) = some i ↔
      i ≤ start ∧ need ≤ (path.drop i).count slash ∧
        ∀ j, i < j → j ≤ start → (path.drop j).count slash < need := by
  induction start with
  | zero =>
    rw [walkBack, ← count_drop]
    constructor
    · intro h
      obtain ⟨hneed, h⟩ := ite_none_right_eq_some.mp h
      cases h
      exact ⟨le_rfl, hneed, by omega⟩
    · rintro ⟨hi, hneed, -⟩
      obtain rfl : i = 0 := by omega
      rw [if_pos hneed]
  | succ start ih =>
    rw [walkBack, ← count_drop]
    by_cases hneed : need ≤ (path.drop (start + 1)).count slash
    · rw [if_pos hneed]
      constructor
      · intro h
        cases h
        exact ⟨le_rfl, hneed, by omega⟩
      · rintro ⟨hi, -, hlast⟩
        by_contra hne
        have hlt : i < start + 1 := lt_of_le_of_ne hi fun heq => hne (by rw [heq])
        have := hlast (start + 1) hlt le_rfl
        omega
    · rw [if_neg hneed, ih]
      constructor
      · rintro ⟨hi, hneed', hlast⟩
        refine ⟨by omega, hneed', fun j hj hj' => ?_⟩
        by_cases heq : j = start + 1
        · subst heq
          omega
        · exact hlast j hj (by omega)
      · rintro ⟨hi, hneed', hlast⟩
        have hne : i ≠ start + 1 := by
          rintro rfl
          exact hneed hneed'
        exact ⟨by omega, hneed', fun j hj hj' => hlast j hj (by omega)⟩

theorem walkBack_eq_some (path : List UInt8) (need : ℕ) :
    walkBack path need path.length 0 = some i ↔
      i ≤ path.length ∧ need ≤ (path.drop i).count slash ∧
        ∀ j, i < j → j ≤ path.length → (path.drop j).count slash < need := by
  rw [← walkBack_spec, drop_eq_nil_of_le (Nat.le_succ _), count_nil]

theorem exists_walkBack (h : need ≤ path.count slash) :
    ∃ i, walkBack path need path.length 0 = some i := by
  classical
  have hzero : need ≤ (path.drop 0).count slash := h
  let i := Nat.findGreatest (fun i => need ≤ (path.drop i).count slash) path.length
  refine ⟨i, (walkBack_eq_some path need).mpr ⟨Nat.findGreatest_le _, ?_, ?_⟩⟩
  · exact Nat.findGreatest_spec (P := fun i => need ≤ (path.drop i).count slash)
      (Nat.zero_le _) hzero
  · intro j hj hj'
    exact not_le.mp
      (Nat.findGreatest_is_greatest (P := fun i => need ≤ (path.drop i).count slash) hj hj')

end Loops

/-! ## Prefixes -/

section Prefixes

variable {path d d' : List UInt8} {i level : ℕ}

/-- The prefixes of a path that end where one of its components ends. The root is a prefix of every
path that starts with a separator. -/
def WholePrefix (d path : List UInt8) : Prop :=
  path ≠ [] ∧ (d = path ∨ d = [slash] ∧ path.head? = some slash ∨
    d ≠ [] ∧ ∃ rest, path = d ++ slash :: rest)

theorem WholePrefix.eq_take (h : WholePrefix d path) : d = path.take d.length := by
  obtain ⟨-, rfl | ⟨rfl, hhead⟩ | ⟨-, rest, rfl⟩⟩ := h
  · exact take_length.symm
  · obtain ⟨rest, rfl⟩ := head?_eq_some_iff.mp hhead
    rfl
  · exact take_left.symm

/-- The place at which `get_parent_path_at_level` cuts the path. -/
def CutAt (path : List UInt8) (level i : ℕ) : Prop :=
  i ≤ path.length ∧ path.count slash - level ≤ (path.drop i).count slash ∧
    ∀ j, i < j → j ≤ path.length → (path.drop j).count slash < path.count slash - level

/-- What it leaves. -/
def PrefixAt (path : List UInt8) (level : ℕ) (d : List UInt8) : Prop :=
  ∃ i, CutAt path level i ∧ d = if 0 < i then path.take i else [slash]

theorem exists_prefixAt (path : List UInt8) (level : ℕ) : ∃ d, PrefixAt path level d := by
  obtain ⟨i, hi⟩ := exists_walkBack (Nat.sub_le (path.count slash) level)
  exact ⟨_, i, (walkBack_eq_some _ _).mp hi, rfl⟩

theorem getParentPathAtLevel_eq_some (hlen : path.length + 1 < maxPath)
    (hlevel : level ≤ path.count slash) :
    getParentPathAtLevel level path = some d ↔ PrefixAt path level d := by
  have hneed : u64 (path.count slash + 2 ^ 64 - level) = path.count slash - level := by
    have hcount : path.count slash ≤ path.length := count_le_length
    rw [show path.count slash + 2 ^ 64 - level = path.count slash - level + 2 ^ 64 by omega]
    unfold u64
    unfold maxPath at hlen
    rw [Nat.add_mod_right, Nat.mod_eq_of_lt (by omega)]
  rw [getParentPathAtLevel, hneed]
  constructor
  · intro h
    obtain ⟨i, hi, h⟩ := bind_eq_some_iff.mp h
    obtain ⟨-, h⟩ := ite_none_right_eq_some.mp h
    exact ⟨i, (walkBack_eq_some _ _).mp hi, (some.inj h).symm⟩
  · rintro ⟨i, hi, rfl⟩
    have hi' := hi.1
    rw [(walkBack_eq_some _ _).mpr hi]
    exact if_pos (by omega)

theorem PrefixAt.wholePrefix (h : PrefixAt path level d) (hpath : path ≠ []) :
    WholePrefix d path := by
  obtain ⟨i, ⟨hle, hneed, hlast⟩, rfl⟩ := h
  refine ⟨hpath, ?_⟩
  by_cases hend : i = path.length
  · subst hend
    rw [if_pos (length_pos_of_ne_nil hpath), take_length]
    exact .inl rfl
  · have hlt : i < path.length := by omega
    -- the count changes at the cut, so a separator stands there
    have hslash : path.getD i 0 = slash := by
      by_contra hne
      have hnext := hlast (i + 1) (Nat.lt_succ_self i) hlt
      rw [count_drop, if_neg hne] at hneed
      omega
    rw [getD_eq_getElem _ _ hlt] at hslash
    have hcut : path = path.take i ++ slash :: path.drop (i + 1) := by
      rw [← hslash, ← drop_eq_getElem_cons hlt, take_append_drop]
    refine .inr ?_
    rcases Nat.eq_zero_or_pos i with rfl | hpos
    · refine .inl ⟨by simp, ?_⟩
      rw [hcut]
      rfl
    · rw [if_pos hpos]
      refine .inr ⟨?_, _, hcut⟩
      intro hnil
      have := congrArg length hnil
      rw [length_take, length_nil] at this
      omega

theorem WholePrefix.exists_level (h : WholePrefix d path) :
    ∃ level ≤ path.count slash, PrefixAt path level d := by
  obtain ⟨hpath, rfl | ⟨rfl, hhead⟩ | ⟨hd, rest, rfl⟩⟩ := h
  · refine ⟨d.count slash, le_rfl, d.length, ⟨le_rfl, by simp, by omega⟩, ?_⟩
    rw [if_pos (length_pos_of_ne_nil hpath), take_length]
  · obtain ⟨rest, rfl⟩ := head?_eq_some_iff.mp hhead
    refine ⟨0, Nat.zero_le _, 0, ⟨Nat.zero_le _, by simp, ?_⟩, by simp⟩
    intro j hj _
    obtain ⟨j, rfl⟩ := Nat.exists_eq_succ_of_ne_zero (Nat.ne_of_gt hj)
    have hle := (drop_sublist j rest).count_le slash
    simp only [Nat.succ_eq_add_one, drop_succ_cons, count_cons_self]
    omega
  · refine ⟨d.count slash, by simp, d.length, ⟨by simp, by simp, ?_⟩, ?_⟩
    · intro j hj _
      obtain ⟨k, rfl⟩ := Nat.exists_eq_add_of_lt hj
      have hle := (drop_sublist k rest).count_le slash
      have hdrop : (d ++ slash :: rest).drop (d.length + k + 1) = rest.drop k := by
        rw [Nat.add_assoc, ← drop_drop, drop_left, drop_succ_cons]
      rw [hdrop]
      simp only [count_append, count_cons_self]
      omega
    · rw [if_pos (length_pos_of_ne_nil hd), take_left]

theorem PrefixAt.length_le {level' : ℕ} (h : PrefixAt path level d) (h' : PrefixAt path level' d')
    (hle : level' ≤ level) : d'.length ≤ d.length := by
  obtain ⟨i, ⟨hi, hneed, hlast⟩, rfl⟩ := h
  obtain ⟨i', ⟨hi', hneed', hlast'⟩, rfl⟩ := h'
  have hii : i' ≤ i := by
    by_contra hlt
    have := hlast i' (by omega) hi'
    omega
  split_ifs with h1 h2
  · rw [length_take, length_take]
    omega
  · omega
  · rw [length_take, length_singleton]
    omega
  · exact le_rfl

theorem PrefixAt.eq (h : PrefixAt path level d) (h' : PrefixAt path level d') : d = d' := by
  obtain ⟨i, hi, rfl⟩ := h
  obtain ⟨i', hi', rfl⟩ := h'
  have heq := ((walkBack_eq_some path _).mpr hi).symm.trans ((walkBack_eq_some path _).mpr hi')
  cases heq
  rfl

end Prefixes

/-! ## The lookup finds the most recent mount at the longest prefix -/

section Lookup

variable {v : Vfs σ} {path d : List UInt8} {level r : ℕ} {at1 at2 : ℕ → Option (List UInt8)}

/-- The mount point of the largest index among those at the longest prefix of the path. -/
def Routed (dests : ℕ → Option (List UInt8)) (path : List UInt8) (id : ℕ) : Prop :=
  id < maxMountPoint ∧ ∃ d, dests id = some d ∧ WholePrefix d path ∧
    ∀ j < maxMountPoint, ∀ d', dests j = some d' → WholePrefix d' path →
      d'.length ≤ d.length ∧ (d' = d → j ≤ id)

def Vfs.dests (v : Vfs σ) (j : ℕ) : Option (List UInt8) := (v.mountGlobal j).map MountPoint.dest

theorem Routed.unique {id' : ℕ} (h : Routed at1 path id) (h' : Routed at1 path id') :
    id = id' := by
  obtain ⟨hid, d, hd, hwhole, hbest⟩ := h
  obtain ⟨hid', d', hd', hwhole', hbest'⟩ := h'
  obtain ⟨hle, hlast⟩ := hbest id' hid' d' hd' hwhole'
  obtain ⟨hle', hlast'⟩ := hbest' id hid d hd hwhole
  have heq : d = d' := by
    rw [hwhole.eq_take, hwhole'.eq_take, Nat.le_antisymm hle hle']
  exact Nat.le_antisymm (hlast' heq) (hlast heq.symm)

theorem Routed.congr (hdests : ∀ j < maxMountPoint, at1 j = at2 j) (h : Routed at1 path id) :
    Routed at2 path id := by
  obtain ⟨hid, d, hd, hwhole, hbest⟩ := h
  refine ⟨hid, d, (hdests id hid).symm.trans hd, hwhole, fun j hj d' hd' => ?_⟩
  exact hbest j hj d' ((hdests j hj).trans hd')

theorem find?_range_reverse {p : ℕ → Bool} {n : ℕ} :
    (range n).reverse.find? p = some r ↔
      r < n ∧ p r = true ∧ ∀ j, r < j → j < n → p j = false := by
  induction n with
  | zero => simp
  | succ n ih =>
    rw [range_succ, reverse_concat, find?_cons]
    cases hn : p n with
    | true =>
      constructor
      · intro h
        obtain rfl := some.inj h
        exact ⟨Nat.lt_succ_self n, hn, by omega⟩
      · rintro ⟨hr, -, hlast⟩
        by_contra hne
        have hlt : r < n := by
          refine lt_of_le_of_ne (Nat.le_of_lt_succ hr) fun heq => hne (by rw [heq])
        have := hlast n hlt (Nat.lt_succ_self n)
        simp [hn] at this
    | false =>
      rw [ih]
      constructor
      · rintro ⟨hr, hp, hlast⟩
        refine ⟨by omega, hp, fun j hj hjn => ?_⟩
        rcases Nat.lt_succ_iff_lt_or_eq.mp hjn with hlt | rfl
        · exact hlast j hj hlt
        · exact hn
      · rintro ⟨hr, hp, hlast⟩
        have hne : r ≠ n := by
          rintro rfl
          simp [hn] at hp
        exact ⟨by omega, hp, fun j hj hjn => hlast j hj (by omega)⟩

theorem mountAt_iff (v : Vfs σ) (d : List UInt8) (j : ℕ) :
    ((v.mountGlobal j).any fun m => strcmp m.dest d != 0) = true ↔ v.dests j = some d := by
  cases hm : v.mountGlobal j with
  | none => simp [Vfs.dests, hm]
  | some m => simp [Vfs.dests, hm, strcmp_eq]

theorem findMountAt_eq_some : v.findMountAt d = some r ↔
    r < maxMountPoint ∧ v.dests r = some d ∧
      ∀ j, r < j → j < maxMountPoint → v.dests j ≠ some d := by
  rw [Vfs.findMountAt, find?_range_reverse, mountAt_iff]
  simp only [← Bool.not_eq_true, mountAt_iff]

theorem findMountAt_eq_none (h : v.findMountAt d = none) {j : ℕ} (hj : j < maxMountPoint) :
    v.dests j ≠ some d := by
  intro hd
  refine find?_eq_none.mp h j ?_ ((mountAt_iff v d j).mpr hd)
  exact mem_reverse.mpr (mem_range.mpr hj)

theorem findLevels_spec (hlen : path.length + 1 < maxPath) (hlevel : level ≤ path.count slash)
    (h : v.findLevels path level = some r) :
    ∃ l d, PrefixAt path l d ∧ v.findMountAt d = some r ∧
      ∀ l' d', l < l' → l' ≤ level → PrefixAt path l' d' → v.findMountAt d' = none := by
  induction level with
  | zero =>
    obtain ⟨d, hd, h⟩ := bind_eq_some_iff.mp h
    exact ⟨0, d, (getParentPathAtLevel_eq_some hlen hlevel).mp hd, h, by omega⟩
  | succ level ih =>
    obtain ⟨d, hd, h⟩ := bind_eq_some_iff.mp h
    have hpre := (getParentPathAtLevel_eq_some hlen hlevel).mp hd
    cases hat : v.findMountAt d with
    | some j =>
      rw [hat] at h
      cases h
      exact ⟨level + 1, d, hpre, hat, by omega⟩
    | none =>
      rw [hat] at h
      obtain ⟨l, dl, hl, hr, habove⟩ := ih (by omega) h
      refine ⟨l, dl, hl, hr, fun l' d' hlt hle hd' => ?_⟩
      rcases Nat.lt_or_eq_of_le hle with hlt' | rfl
      · exact habove l' d' hlt (by omega) hd'
      · rw [hd'.eq hpre]
        exact hat

theorem exists_findLevels (hlen : path.length + 1 < maxPath) (hlevel : level ≤ path.count slash)
    {l : ℕ} (hl : l ≤ level) (hpre : PrefixAt path l d) (hat : v.findMountAt d ≠ none) :
    ∃ r, v.findLevels path level = some r := by
  induction level with
  | zero =>
    obtain rfl : l = 0 := by omega
    have hget := (getParentPathAtLevel_eq_some hlen hlevel).mpr hpre
    obtain ⟨r, hr⟩ := ne_none_iff_exists'.mp hat
    exact ⟨r, bind_eq_some_iff.mpr ⟨d, hget, hr⟩⟩
  | succ level ih =>
    obtain ⟨d', hd'⟩ := exists_prefixAt path (level + 1)
    have hget := (getParentPathAtLevel_eq_some hlen hlevel).mpr hd'
    cases hat' : v.findMountAt d' with
    | some j => exact ⟨j, bind_eq_some_iff.mpr ⟨d', hget, by rw [hat']⟩⟩
    | none =>
      have hlt : l ≤ level := by
        refine Nat.le_of_lt_succ (lt_of_le_of_ne hl ?_)
        rintro rfl
        rw [hd'.eq hpre] at hat'
        exact hat hat'
      obtain ⟨r, hr⟩ := ih (by omega) hlt
      refine ⟨r, bind_eq_some_iff.mpr ⟨d', hget, ?_⟩⟩
      rw [hat']
      exact hr

theorem length_lt_of_findMountByPath (h : v.findMountByPath path = some r) :
    path.length + 1 < maxPath := by
  have hwhole : walkBack path (u64 (path.count slash + 2 ^ 64 - path.count slash)) path.length 0 =
      some path.length := by
    exact (walkBack_eq_some _ _).mpr ⟨le_rfl, by simp [u64], by omega⟩
  obtain ⟨d, hd⟩ : ∃ d, getParentPathAtLevel (path.count slash) path = some d := by
    rw [Vfs.findMountByPath] at h
    cases hcount : path.count slash with
    | zero =>
      rw [hcount] at h
      obtain ⟨d, hd, -⟩ := bind_eq_some_iff.mp h
      exact ⟨d, hd⟩
    | succ level =>
      rw [hcount] at h
      obtain ⟨d, hd, -⟩ := bind_eq_some_iff.mp h
      exact ⟨d, hd⟩
  rw [getParentPathAtLevel, hwhole] at hd
  exact (ite_none_right_eq_some.mp hd).1

/-- The lookup finds the most recent mount at the longest prefix, and does not end without one. -/
theorem findMountByPath_eq_some_iff (hpath : path ≠ []) :
    v.findMountByPath path = some r ↔ path.length + 1 < maxPath ∧ Routed v.dests path r := by
  have hrouted : ∀ {r}, v.findMountByPath path = some r → Routed v.dests path r := by
    intro r h
    have hlen := length_lt_of_findMountByPath h
    obtain ⟨l, d, hpre, hat, habove⟩ := findLevels_spec hlen le_rfl h
    obtain ⟨hr, hd, hlast⟩ := findMountAt_eq_some.mp hat
    refine ⟨hr, d, hd, hpre.wholePrefix hpath, fun j hj d' hd' hwhole => ⟨?_, ?_⟩⟩
    · -- a longer prefix belongs to a level above, at which nothing is mounted
      obtain ⟨l', hl', hpre'⟩ := hwhole.exists_level
      refine hpre.length_le hpre' (Nat.le_of_not_lt fun hlt => ?_)
      exact findMountAt_eq_none (habove l' d' hlt hl' hpre') hj hd'
    · rintro rfl
      exact Nat.le_of_not_lt fun hlt => hlast j hlt hj hd'
  constructor
  · intro h
    exact ⟨length_lt_of_findMountByPath h, hrouted h⟩
  · rintro ⟨hlen, h⟩
    obtain ⟨hr, d, hd, hwhole, -⟩ := id h
    obtain ⟨l, hl, hpre⟩ := hwhole.exists_level
    obtain ⟨r', hr'⟩ := exists_findLevels (v := v) hlen le_rfl hl hpre
      fun hnone => findMountAt_eq_none hnone hr hd
    rw [h.unique (hrouted hr')]
    exact hr'

end Lookup

/-! ## The path below a mount point -/

def Vfs.getMountDeepLevel (v : Vfs σ) (mountId : ℕ) : ℕ :=
  match v.mountGlobal mountId with
  | none => 2 ^ 64 - 1
  | some mp => u64 (mp.dest.count slash + 2 ^ 64 - 1)

/-- The loop of `get_child_path_at_level`: the number of bytes in front of the one at which it
ends. -/
def walkForward (level : ℕ) : List UInt8 → ℕ → ℕ
  | [], _ => 0
  | b :: rest, count =>
    let count := count + if b = slash then 1 else 0
    if count = u64 (level + 1) then 0 else walkForward level rest count + 1

/-- `get_child_path_at_level`, from the bytes at `out_path` to those after it. The NUL is stored one
byte behind the end of the string. -/
def getChildPathAtLevel (level : ℕ) (path : List UInt8) (out : ℕ → UInt8) : ℕ → UInt8 :=
  let i := walkForward level path 0
  update (fun k => if k < path.length - i then path.getD (i + k) 0 else out k)
    (path.length - i + 1) 0

/-- The string that the buffer then holds, with the byte that it held where the string should
end. -/
def childString (level : ℕ) (path : List UInt8) (junk : UInt8) : List UInt8 :=
  path.drop (walkForward level path 0) ++ if junk = 0 then [] else [junk]

theorem childString_spec (level : ℕ) (path : List UInt8) (out : ℕ → UInt8) :
    let child := childString level path (out (path.length - walkForward level path 0))
    (∀ k < child.length, getChildPathAtLevel level path out k = child.getD k 0) ∧
      getChildPathAtLevel level path out child.length = 0 := by
  simp only [childString, getChildPathAtLevel]
  generalize hi : walkForward level path 0 = i
  have hlen : (path.drop i).length = path.length - i := length_drop
  have hbyte : ∀ k < path.length - i, (path.drop i).getD k 0 = path.getD (i + k) 0 := by
    intro k hk
    simp only [getD_eq_getElem?_getD, getElem?_drop]
  split_ifs with hjunk
  · simp only [append_nil, hlen]
    refine ⟨fun k hk => ?_, ?_⟩
    · rw [update_of_ne (by omega), if_pos hk, hbyte k hk]
    · rw [update_of_ne (by omega), if_neg (lt_irrefl _), hjunk]
  · simp only [length_append, hlen, length_singleton]
    refine ⟨fun k hk => ?_, update_self _ _ _⟩
    rw [update_of_ne (by omega)]
    rcases Nat.lt_succ_iff_lt_or_eq.mp hk with hk | rfl
    · rw [if_pos hk, getD_append _ _ _ _ (by omega), hbyte k hk]
    · rw [if_neg (lt_irrefl _), getD_append_right _ _ _ _ hlen.le, hlen, Nat.sub_self]
      rfl

/-- The bytes are a string, and it is what follows the mount point in the path. -/
def IsChildPath (d path : List UInt8) (out : ℕ → UInt8) : Prop :=
  ∃ child, (∀ k < child.length, out k = child.getD k 0) ∧ out child.length = 0 ∧
    if d = [slash] then child = path else d ++ child = path

section Child

variable {v : Vfs σ} {path d : List UInt8} {level count id : ℕ} {mp : MountPoint}

theorem walkForward_lt (hlevel : level + 1 < 2 ^ 64) (hcount : count ≤ level)
    (h : level < count + d.count slash) (rest : List UInt8) :
    walkForward level (d ++ rest) count < d.length := by
  induction d generalizing count with
  | nil =>
    rw [count_nil] at h
    omega
  | cons b d ih =>
    have hone : (if b = slash then 1 else 0) ≤ 1 := by split <;> omega
    simp only [count_cons, beq_iff_eq] at h
    simp only [cons_append, walkForward, u64_of_lt hlevel, length_cons]
    by_cases hstop : count + (if b = slash then 1 else 0) = level + 1
    · rw [if_pos hstop]
      exact Nat.succ_pos _
    · rw [if_neg hstop]
      exact Nat.succ_lt_succ (ih (by omega) (by omega))

theorem Vfs.getMountDeepLevel_add_one (hmp : v.mountGlobal id = some mp)
    (hpos : 0 < mp.dest.count slash) (hlt : mp.dest.count slash < 2 ^ 64) :
    v.getMountDeepLevel id + 1 = mp.dest.count slash := by
  simp only [getMountDeepLevel, hmp, u64]
  omega

/-- **The path below a mount point** is right only below the root, and if the byte behind it was
zero: elsewhere the copy starts at the last separator of the mount point. -/
theorem isChildPath_iff (hnul : 0 ∉ path) (hhead : path.head? = some slash)
    (hfind : v.findMountByPath path = some id) (hmp : v.mountGlobal id = some mp)
    (out : ℕ → UInt8) :
    IsChildPath mp.dest path (getChildPathAtLevel (v.getMountDeepLevel id) path out) ↔
      mp.dest = [slash] ∧ out path.length = 0 := by
  obtain ⟨rest, rfl⟩ := head?_eq_some_iff.mp hhead
  obtain ⟨hlen, -, d, hd, hwhole, -⟩ := (findMountByPath_eq_some_iff (by simp)).mp hfind
  obtain rfl : mp.dest = d := by simpa [Vfs.dests, hmp] using hd
  unfold maxPath at hlen
  by_cases hroot : mp.dest = [slash]
  · -- the first byte is the separator at which the loop ends
    have hlevel := v.getMountDeepLevel_add_one hmp (by simp [hroot]) (by simp [hroot])
    have hstart : walkForward (v.getMountDeepLevel id) (slash :: rest) 0 = 0 := by
      simp [walkForward, hlevel, hroot, u64]
    constructor
    · rintro ⟨child, -, hend, hchild⟩
      rw [if_pos hroot] at hchild
      subst hchild
      refine ⟨hroot, ?_⟩
      simpa [getChildPathAtLevel, hstart] using hend
    · rintro ⟨-, hout⟩
      refine ⟨slash :: rest, fun k hk => ?_, ?_, by rw [if_pos hroot]⟩
      · simp only [getChildPathAtLevel, hstart]
        rw [update_of_ne (by omega), if_pos (by simpa using hk), Nat.zero_add]
      · simpa [getChildPathAtLevel, hstart] using hout
  · simp only [hroot, false_and, iff_false]
    rintro ⟨child, -, hend, hchild⟩
    rw [if_neg hroot] at hchild
    have hpos : 0 < mp.dest.count slash := by
      cases hdest : mp.dest with
      | nil => simp [WholePrefix, hdest] at hwhole
      | cons b d =>
        rw [hdest] at hchild
        simp [(cons.inj hchild).1]
    have hle : mp.dest.length + child.length = rest.length + 1 := by
      simpa using congrArg length hchild
    have hbound : mp.dest.count slash ≤ mp.dest.length := count_le_length
    simp only [length_cons] at hlen
    have hlevel := v.getMountDeepLevel_add_one hmp hpos (by omega)
    have hlt : walkForward (v.getMountDeepLevel id) (mp.dest ++ child) 0 < mp.dest.length :=
      walkForward_lt (by omega) (by omega) (by omega) child
    rw [hchild] at hlt
    -- the byte at the end of the string is one of the path
    have hindex : walkForward (v.getMountDeepLevel id) (slash :: rest) 0 + child.length <
        (slash :: rest).length := by
      rw [length_cons]
      omega
    simp only [getChildPathAtLevel] at hend
    rw [update_of_ne (by simp; omega), if_pos (by omega),
      getD_eq_getElem _ _ hindex] at hend
    exact hnul (hend ▸ getElem_mem hindex)

def mountedAt (dest : List UInt8) : Vfs Unit where
  mountGlobal j := if j = 0 then some ⟨[], dest, 0, 0⟩ else none
  partitionGlobal _ := 0
  partitions _ := none
  smGlobalLast := 0
  driverGlobal := 0

theorem isChildPath_iff_root :
    IsChildPath [slash] [slash, 0x41]
      (getChildPathAtLevel ((mountedAt [slash]).getMountDeepLevel 0) [slash, 0x41] fun _ => 0) := by
  have hfind : (mountedAt [slash]).findMountByPath [slash, 0x41] = some 0 := by decide +kernel
  exact (isChildPath_iff (by decide) rfl hfind rfl _).mpr ⟨rfl, rfl⟩

theorem not_isChildPath_below :
      (mountedAt [slash, 0x6d]).findMountByPath [slash, 0x6d, slash, 0x41] =
      some 0 ∧ ¬ IsChildPath [slash, 0x6d] [slash, 0x6d, slash, 0x41]
        (getChildPathAtLevel ((mountedAt [slash, 0x6d]).getMountDeepLevel 0)
          [slash, 0x6d, slash, 0x41] fun _ => 0) := by
  refine ⟨by decide +kernel, ?_⟩
  rintro ⟨child, -, hend, hchild⟩
  obtain rfl : child = [slash, 0x41] := by simpa [slash] using hchild
  cases hend

end Child

end CarrotOS
