import CarrotOS.Fs.Mount

/-!
# Sequences of mounts

The mounts of a run stand in the table in the order in which they were made, until the table is
full, so the lookup of a path finds the most recent mount at the longest prefix of the path. The
partition it leads to is another matter: `mount` looks for a partition by a comparison that is
inverted, and takes the first one with another name. Only if every registered partition bears the
name that is asked for does the search fail, and then it is the word in front of the table that is
recorded.
-/

namespace CarrotOS

open Function Transition List Option

variable {j r : ℕ} {path : List UInt8}

open Fat32 (slash)

structure MountCall where
  src : List UInt8
  dest : List UInt8
  flags : ℤ
  deriving DecidableEq, Repr

variable {σ : Type}

/-- A call of `mount`, in a sequence of them. -/
def Vfs.mountStep (v : Vfs σ) (c : MountCall) : Option (Vfs σ) :=
  (v.mount c.src c.dest c.flags).map Prod.snd

section Mounts

variable {v v' v₀ : Vfs σ} {calls : List MountCall} {c : MountCall} {m : MountPoint}

/-! ## What a mount does -/

theorem mountWords_eq_zero (hj : j < maxMountPoint) :
    v.mountWords j = 0 ↔ v.mountGlobal j = none := by
  rw [Vfs.mountWords, if_pos hj]
  cases v.mountGlobal j <;> simp

theorem mountStep_spec (h : v.mountStep c = some v') :
    (v' = v ∧ ∀ j < maxMountPoint, v.mountGlobal j ≠ none) ∨
      ∃ id < maxMountPoint, ∃ part, v.mountGlobal id = none ∧
        (∀ j < id, v.mountGlobal j ≠ none) ∧ v.partOf c.src = some part ∧
        v' = { v with
          mountGlobal := update v.mountGlobal id
            (some { src := c.src, dest := c.dest, flags := c.flags, part := part }) } := by
  obtain ⟨⟨r, v'⟩, hmount, rfl⟩ := map_eq_some_iff.mp h
  obtain ⟨id, hid, h⟩ := bind_eq_some_iff.mp hmount
  obtain ⟨hfree, -, hle, hfirst⟩ := getAFreeSlot_spec hid
  have hused : ∀ j < id, v.mountGlobal j ≠ none := fun j hj hnone =>
    hfirst j (Nat.zero_le j) hj ((mountWords_eq_zero (by omega)).mpr hnone)
  rcases Nat.lt_or_eq_of_le hle with hlt | rfl
  · rw [if_neg (Nat.ne_of_lt hlt)] at h
    obtain ⟨-, -, h⟩ := bind_eq_some_iff.mp h
    obtain ⟨-, h⟩ := ite_none_right_eq_some.mp h
    obtain ⟨part, hpart, h⟩ := bind_eq_some_iff.mp h
    obtain ⟨rfl, rfl⟩ := Prod.mk.inj (some.inj h)
    exact .inr ⟨id, hlt, part, (mountWords_eq_zero hlt).mp hfree, hused, hpart, rfl⟩
  · cases h
    exact .inl ⟨rfl, hused⟩

/-! ## The table of a run -/

/-- A mount point records a call, and a partition that was found for its name. -/
structure Records (v : Vfs σ) (c : MountCall) (m : MountPoint) : Prop where
  src : m.src = c.src
  dest : m.dest = c.dest
  flags : m.flags = c.flags
  part : v.partOf c.src = some m.part

/-- The table holds the calls in their order, as far as it goes; the partitions are the same. -/
structure Follows (v₀ : Vfs σ) (calls : List MountCall) (v : Vfs σ) : Prop where
  partitionGlobal : v.partitionGlobal = v₀.partitionGlobal
  partitions : v.partitions = v₀.partitions
  smGlobalLast : v.smGlobalLast = v₀.smGlobalLast
  recorded : ∀ j < maxMountPoint, calls[j]? = none ∧ v.mountGlobal j = none ∨
    ∃ c m, calls[j]? = some c ∧ v.mountGlobal j = some m ∧ Records v₀ c m

theorem Follows.partOf (h : Follows v₀ calls v) (src : List UInt8) :
    v.partOf src = v₀.partOf src := by
  simp only [Vfs.partOf, Vfs.findPartByName, h.partitionGlobal, h.partitions, h.smGlobalLast]

theorem Follows.eq_none_iff (h : Follows v₀ calls v) (hj : j < maxMountPoint) :
    v.mountGlobal j = none ↔ calls.length ≤ j := by
  rw [← getElem?_eq_none_iff]
  rcases h.recorded j hj with ⟨hc, hm⟩ | ⟨c, m, hc, hm, -⟩ <;> simp [hc, hm]

/-- One more mount. -/
theorem Follows.mountStep (h : Follows v₀ calls v) (hstep : v.mountStep c = some v') :
    Follows v₀ (calls ++ [c]) v' := by
  obtain ⟨rfl, hfull⟩ | ⟨id, hid, part, hfree, hused, hpart, rfl⟩ := mountStep_spec hstep
  · refine ⟨h.partitionGlobal, h.partitions, h.smGlobalLast, fun j hj => ?_⟩
    have hlt : j < calls.length := by
      have := mt (h.eq_none_iff hj).mpr (hfull j hj)
      omega
    rw [getElem?_append_left hlt]
    exact h.recorded j hj
  · refine ⟨h.partitionGlobal, h.partitions, h.smGlobalLast, fun j hj => ?_⟩
    -- the first free slot is the one behind the mounts made so far
    have hlength : calls.length = id := by
      refine le_antisymm ((h.eq_none_iff hid).mp hfree) (Nat.le_of_not_lt fun hlt => ?_)
      exact hused _ hlt ((h.eq_none_iff (by omega)).mpr le_rfl)
    subst hlength
    by_cases hj' : j = calls.length
    · subst hj'
      exact .inr ⟨c, _, getElem?_concat_length, update_self .., rfl, rfl, rfl,
        (h.partOf c.src).symm.trans hpart⟩
    · have hsame : (calls ++ [c])[j]? = calls[j]? := by
        rcases Nat.lt_or_gt_of_ne hj' with hlt | hgt
        · exact getElem?_append_left hlt
        · rw [getElem?_append_right (Nat.le_of_lt hgt), getElem?_eq_none_iff.mpr,
            getElem?_eq_none_iff.mpr (Nat.le_of_lt hgt)]
          rw [length_singleton]
          omega
      simp only [hsame, update_of_ne hj']
      exact h.recorded j hj

theorem Follows.of_run (hempty : ∀ j < maxMountPoint, v₀.mountGlobal j = none)
    (hrun : Run Vfs.mountStep (fun _ _ => True) v₀ calls v) : Follows v₀ calls v := by
  induction hrun with
  | nil =>
    exact ⟨rfl, rfl, rfl, fun j hj => .inl ⟨getElem?_nil, hempty j hj⟩⟩
  | snoc _ _ hstep ih => exact ih.mountStep hstep

/-! ## The partition of a mount -/

/-- The mount leads to a registered partition with the name that it records. -/
def Vfs.RightPartition (v : Vfs σ) (m : MountPoint) : Prop :=
  m.part ≠ 0 ∧ (∃ i < maxDevice, v.partitionGlobal i = m.part) ∧
    ∃ p, v.partitions m.part = some p ∧ p.path = m.src

/-- All registered partitions have one name, and the word in front of the table points to one of
them. -/
def Vfs.SolePartition (v : Vfs σ) (src : List UInt8) : Prop :=
  (∀ i < maxDevice, v.partitionGlobal i ≠ 0 →
    ∃ p, v.partitions (v.partitionGlobal i) = some p ∧ p.path = src) ∧
  v.smGlobalLast ≠ 0 ∧ ∃ i < maxDevice, v.partitionGlobal i = v.smGlobalLast

/-- The search takes a partition with another name, or the word in front of the table. -/
theorem partOf_spec {src : List UInt8} {part : ℕ} (h : v.partOf src = some part) :
    (∃ i < maxDevice, v.partitionGlobal i = part ∧ part ≠ 0 ∧
      ∃ p, v.partitions part = some p ∧ p.path ≠ src) ∨
    part = v.smGlobalLast ∧ ∀ i < maxDevice, v.partitionGlobal i ≠ 0 →
      ∃ p, v.partitions (v.partitionGlobal i) = some p ∧ p.path = src := by
  rw [Vfs.partOf, bind_eq_bind, bind_eq_some_iff] at h
  obtain ⟨found, hfound, h⟩ := h
  obtain ⟨i, hi, rfl, htest⟩ | ⟨rfl, htests⟩ := findEntry_eq_some hfound
  · cases h
    have hne : v.partitionGlobal i ≠ 0 := by
      intro hzero
      simp [hzero] at htest
    rw [if_neg hne] at htest
    obtain ⟨p, hp, hpath⟩ := map_eq_some_iff.mp htest
    refine .inl ⟨i, mem_range.mp hi, rfl, hne, p, hp, ?_⟩
    simpa [strcmp_eq] using hpath
  · cases h
    refine .inr ⟨rfl, fun i hi hne => ?_⟩
    have htest := htests i (mem_range.mpr hi)
    rw [if_neg hne] at htest
    obtain ⟨p, hp, hpath⟩ := map_eq_some_iff.mp htest
    exact ⟨p, hp, by simpa [strcmp_eq] using hpath⟩

theorem rightPartition_iff (h : v.partOf m.src = some m.part) :
    v.RightPartition m ↔ v.SolePartition m.src := by
  obtain ⟨i, hi, hpart, hne, p, hp, hpath⟩ | ⟨hpart, hall⟩ := partOf_spec h
  · -- both sides ask for the name that the search avoids
    constructor
    · rintro ⟨-, -, p', hp', hpath'⟩
      cases hp.symm.trans hp'
      exact absurd hpath' hpath
    · rintro ⟨hall, -⟩
      obtain ⟨p', hp', hpath'⟩ := hall i hi (hpart.trans_ne hne)
      rw [hpart, hp] at hp'
      cases hp'
      exact absurd hpath' hpath
  · constructor
    · rintro ⟨hne, ⟨i, hi, hi'⟩, -⟩
      exact ⟨hall, hpart.symm.trans_ne hne, i, hi, hi'.trans hpart⟩
    · rintro ⟨-, hne, i, hi, hi'⟩
      refine ⟨hpart.trans_ne hne, ⟨i, hi, hi'.trans hpart.symm⟩, ?_⟩
      obtain ⟨p, hp, hpath⟩ := hall i hi (hi'.trans_ne hne)
      rw [hi', ← hpart] at hp
      exact ⟨p, hp, hpath⟩

/-! ## Routing -/

def destsOf (calls : List MountCall) (j : ℕ) : Option (List UInt8) :=
  calls[j]?.map MountCall.dest

/-- The lookup of a path ends. It returns the most recent mount at the longest prefix, which leads
to the partition it was given, or -1 if nothing is mounted at a prefix. -/
def Vfs.Routes (v : Vfs σ) (calls : List MountCall) (path : List UInt8) : Prop :=
  ∃ r, v.findMountByPath path = some r ∧
    ((Routed (destsOf calls) path r ∧ ∃ m, v.mountGlobal r = some m ∧ v.RightPartition m) ∨
      r = 2 ^ 64 - 1 ∧
        ∀ j < maxMountPoint, ∀ d, destsOf calls j = some d → ¬WholePrefix d path)

theorem Follows.dests (h : Follows v₀ calls v) (hj : j < maxMountPoint) :
    v.dests j = destsOf calls j := by
  rw [Vfs.dests, destsOf]
  rcases h.recorded j hj with ⟨hc, hm⟩ | ⟨c, m, hc, hm, hrec⟩
  · rw [hc, hm]
    rfl
  · rw [hc, hm, map_some, map_some, hrec.dest]

theorem Follows.routed_iff (h : Follows v₀ calls v) :
    Routed v.dests path r ↔ Routed (destsOf calls) path r :=
  ⟨.congr fun _ hj => h.dests hj, .congr fun _ hj => (h.dests hj).symm⟩

theorem Follows.rightPartition_iff (h : Follows v₀ calls v) (hj : j < maxMountPoint) :
    (∃ m, v.mountGlobal j = some m ∧ v.RightPartition m) ↔
      ∃ c, calls[j]? = some c ∧ v₀.SolePartition c.src := by
  have hsole : ∀ src, v.SolePartition src ↔ v₀.SolePartition src := by
    intro src
    rw [Vfs.SolePartition, h.partitionGlobal, h.partitions, h.smGlobalLast, Vfs.SolePartition]
  have hright : ∀ {c m}, Records v₀ c m → (v.RightPartition m ↔ v₀.SolePartition c.src) := by
    intro c m hrec
    have hpart : v.partOf m.src = some m.part := by
      rw [h.partOf, hrec.src]
      exact hrec.part
    rw [CarrotOS.rightPartition_iff hpart, hsole, hrec.src]
  rcases h.recorded j hj with ⟨hc, hm⟩ | ⟨c, m, hc, hm, hrec⟩
  · simp [hc, hm]
  · simp [hc, hm, hright hrec]

theorem findMountByPath_lt (h : v.findMountByPath path = some r) :
    r < maxMountPoint := by
  obtain ⟨l, d, -, hat, -⟩ := findLevels_spec (length_lt_of_findMountByPath h) le_rfl h
  exact (findMountAt_eq_some.mp hat).1

/-- **Exactly the paths with a mounted prefix** that fit into a buffer are answered, and rightly
only if no partition with another name is registered and the word in front of the table points to
one that is. -/
theorem routes_iff (hempty : ∀ j < maxMountPoint, v₀.mountGlobal j = none)
    (hrun : Run Vfs.mountStep (fun _ _ => True) v₀ calls v) (path : List UInt8) :
    v.Routes calls path ↔ path.length + 1 < maxPath ∧
      ∃ id c, Routed (destsOf calls) path id ∧ calls[id]? = some c ∧ v₀.SolePartition c.src := by
  have hfollows := Follows.of_run hempty hrun
  constructor
  · rintro ⟨r, hr, ⟨hrouted, hright⟩ | ⟨rfl, -⟩⟩
    · obtain ⟨c, hc, hsole⟩ := (hfollows.rightPartition_iff hrouted.1).mp hright
      exact ⟨length_lt_of_findMountByPath hr, r, c, hrouted, hc, hsole⟩
    · exact absurd (findMountByPath_lt hr) (by decide)
  · rintro ⟨hlen, id, c, hrouted, hc, hsole⟩
    have hpath : path ≠ [] := by
      obtain ⟨-, -, -, ⟨hpath, -⟩, -⟩ := hrouted
      exact hpath
    refine ⟨id, (findMountByPath_eq_some_iff hpath).mpr ⟨hlen, hfollows.routed_iff.mpr hrouted⟩,
      .inl ⟨hrouted, ?_⟩⟩
    exact (hfollows.rightPartition_iff hrouted.1).mpr ⟨c, hc, hsole⟩

end Mounts

def nullDriver : Driver Unit where
  read _ _ _ _ := []
  write s _ _ _ := s
  create s _ _ := (0, s)
  stat _ _ := .notFound
  truncate s _ := s

/-- The partition `a` is registered, and the word in front of the table points to it. The first
bytes of the memory are 0. -/
def onePartition : Vfs Unit where
  mountGlobal _ := none
  partitionGlobal i := if i = 0 then 4096 else 0
  partitions ptr :=
    if ptr = 4096 then some ⟨[0x61], nullDriver⟩ else if ptr =
      0 then some ⟨[], nullDriver⟩ else none
  smGlobalLast := 4096
  driverGlobal := 0

/-- The partition is mounted at `/` and at `/m`, and `/m/x` leads to the second mount. -/
theorem routes_iff_twoMounts : (∀ j < maxMountPoint, onePartition.mountGlobal j = none) ∧
    ∃ v, Run Vfs.mountStep (fun _ _ => True) onePartition
        [⟨[0x61], [slash], 0⟩, ⟨[0x61], [slash, 0x6D], 0⟩] v ∧
      v.findMountByPath [slash, 0x6D, slash, 0x78] = some 1 ∧
      v.Routes [⟨[0x61], [slash], 0⟩, ⟨[0x61], [slash, 0x6D], 0⟩] [slash, 0x6D, slash, 0x78] := by
  refine ⟨fun _ _ => rfl, Run.exists_of_eval (Q := fun v =>
    v.findMountByPath [slash, 0x6D, slash, 0x78] = some 1) (by decide +kernel) ?_⟩
  refine fun v hrun hfound => ⟨hfound, (routes_iff (fun _ _ => rfl) hrun _).mpr ?_⟩
  refine ⟨by decide, 1, ⟨[0x61], [slash, 0x6D], 0⟩, ?_, rfl, ?_⟩
  · refine ⟨by decide, [slash, 0x6D], rfl, ⟨by decide, .inr (.inr ⟨by decide, [0x78], rfl⟩)⟩, ?_⟩
    intro j _ d' hd' _
    match j with
    | 0 =>
      cases hd'
      exact ⟨by decide, nofun⟩
    | 1 =>
      cases hd'
      exact ⟨le_rfl, fun _ => le_rfl⟩
    | j + 2 => cases hd'
  · refine ⟨fun i _ hi => ?_, by decide, 0, by decide, rfl⟩
    obtain rfl : i = 0 := by
      by_contra hne
      exact hi (if_neg hne)
    exact ⟨_, rfl, rfl⟩

def twoPartitions : Vfs Unit where
  mountGlobal _ := none
  partitionGlobal i := if i = 0 then 4096 else if i = 1 then 8192 else 0
  partitions ptr :=
    if ptr = 4096 then some ⟨[0x61], nullDriver⟩
    else if ptr = 8192 then some ⟨[0x62], nullDriver⟩ else none
  smGlobalLast := 0
  driverGlobal := 0

/-- The partition `a` is mounted at the root. The path `/x` then leads to the partition `b`, and the
path `x` is not answered. -/
theorem mount_takes_other_partition :
    ((twoPartitions.partitions (twoPartitions.partitionGlobal 0)).map Partition.path =
    some [0x61]) ∧
    ∃ v, Run Vfs.mountStep (fun _ _ => True) twoPartitions [⟨[0x61], [slash], 0⟩] v ∧
      v.findMountByPath [slash, 0x78] = some 0 ∧
      (v.mountGlobal 0).map MountPoint.part = some (twoPartitions.partitionGlobal 1) ∧
      ¬v.Routes [⟨[0x61], [slash], 0⟩] [slash, 0x78] ∧
      v.findMountByPath [0x78] = none ∧ ¬v.Routes [⟨[0x61], [slash], 0⟩] [0x78] := by
  refine ⟨rfl, Run.exists_of_eval (Q := fun v => v.findMountByPath [slash, 0x78] = some 0 ∧
    v.mountGlobal 0 = some ⟨[0x61], [slash], 0, 8192⟩ ∧
    (v.partitions 8192).map Partition.path = some [0x62] ∧ v.findMountByPath [0x78] = none)
    (by decide +kernel) ?_⟩
  rintro v - ⟨hroot, hmount, hpath, hother⟩
  refine ⟨hroot, by rw [hmount]; rfl, ?_, hother, ?_⟩
  · rintro ⟨r, hr, ⟨-, m, hm, -, -, p, hp, hname⟩ | ⟨rfl, -⟩⟩
    · cases hroot.symm.trans hr
      cases hmount.symm.trans hm
      rw [hp, map_some] at hpath
      cases (some.inj hpath).symm.trans hname
    · cases hroot.symm.trans hr
  · rintro ⟨r, hr, -⟩
    rw [hother] at hr
    cases hr

end CarrotOS
