import CarrotOS.Fs.Volume
import CarrotOS.Lib.Chain

/-!
# Slots and paths of a volume

The lookups read a cluster into a buffer and scan its slots. What they find depends only on the
contents of the cluster, so that each of them has a counterpart on volumes, without buffers.
-/

namespace CarrotOS.Fat32

open Bytes Function List

variable {t : List UInt8} {c j z : ℕ} {ts : List (List UInt8)}

/-! ## Scans -/

section Scan

variable {stop hit stop' hit' : ℕ → Bool} {i : ℕ}

theorem scanFrom_eq_hit_iff (a n : ℕ) : scanFrom stop hit (range' a n) = .hit i ↔
    (a ≤ i ∧ i < a + n) ∧ (stop i = false ∧ hit i = true) ∧
      ∀ j, a ≤ j → j < i → stop j = false ∧ hit j = false := by
  induction n generalizing a with
  | zero =>
    constructor
    · intro h
      cases h
    · rintro ⟨hi, -, -⟩
      omega
  | succ n ih =>
    rw [range'_succ, scanFrom]
    constructor
    · intro h
      split at h
      · cases h
      · split at h
        · obtain rfl := Scan.hit.inj h
          rename_i hstop hhit
          exact ⟨by omega, ⟨by simpa using hstop, hhit⟩, fun j _ _ => by omega⟩
        · rename_i hstop hhit
          obtain ⟨hi, hbits, hbefore⟩ := (ih (a + 1)).mp h
          refine ⟨by omega, hbits, ?_⟩
          intro j ha hj
          rcases Nat.eq_or_lt_of_le ha with rfl | hlt
          · exact ⟨by simpa using hstop, by simpa using hhit⟩
          · exact hbefore j hlt hj
    · rintro ⟨hi, hbits, hbefore⟩
      rcases Nat.eq_or_lt_of_le hi.1 with rfl | hlt
      · rw [if_neg (by simp [hbits.1]), if_pos hbits.2]
      · obtain ⟨hstop, hhit⟩ := hbefore a le_rfl hlt
        rw [if_neg (by simp [hstop]), if_neg (by simp [hhit])]
        exact (ih (a + 1)).mpr ⟨by omega, hbits, fun j ha hj => hbefore j (by omega) hj⟩

theorem scanFrom_eq_exhausted_iff (is : List ℕ) : scanFrom stop hit is = .exhausted ↔
    ∀ j ∈ is, stop j = false ∧ hit j = false := by
  induction is with
  | nil => simp [scanFrom]
  | cons i is ih =>
    rw [scanFrom, forall_mem_cons, ← ih]
    cases stop i <;> cases hit i <;> simp

theorem scanFrom_congr {is : List ℕ} (h : ∀ i ∈ is, stop i = stop' i ∧ hit i = hit' i) :
    scanFrom stop hit is = scanFrom stop' hit' is := by
  induction is with
  | nil => rfl
  | cons i is ih =>
    obtain ⟨hi, his⟩ := forall_mem_cons.mp h
    rw [scanFrom, scanFrom, hi.1, hi.2, ih his]

theorem slotsPerCluster_eq : slotsPerCluster = 128 := rfl

theorem scan_eq_hit_iff : scan stop hit = .hit i ↔
    i < slotsPerCluster ∧ (stop i = false ∧ hit i = true) ∧
      ∀ j < i, stop j = false ∧ hit j = false := by
  rw [scan, range_eq_range', scanFrom_eq_hit_iff]
  simp

theorem scan_eq_exhausted_iff : scan stop hit = .exhausted ↔
    ∀ j < slotsPerCluster, stop j = false ∧ hit j = false := by
  rw [scan, scanFrom_eq_exhausted_iff]
  simp

theorem exists_scan_eq_hit (stop hit : ℕ → Bool) (hi : i < slotsPerCluster) (hhit : hit i = true)
    (hstop : ∀ j ≤ i, stop j = false) : ∃ j ≤ i, scan stop hit = .hit j := by
  have hex : ∃ j, hit j = true := ⟨i, hhit⟩
  have hle : Nat.find hex ≤ i := Nat.find_min' hex hhit
  refine ⟨Nat.find hex, hle, scan_eq_hit_iff.mpr ⟨by omega, ⟨hstop _ hle, Nat.find_spec hex⟩, ?_⟩⟩
  intro j hj
  exact ⟨hstop j (by omega), Bool.eq_false_iff.mpr (Nat.find_min hex hj)⟩

theorem scan_congr (h : ∀ i < slotsPerCluster, stop i = stop' i ∧ hit i = hit' i) :
    scan stop hit = scan stop' hit' :=
  scanFrom_congr fun i hi => h i (mem_range.mp hi)

end Scan

/-! ## Entries -/

def SameCluster (b b' : Buf) : Prop := ∀ i < clusterSize, b i = b' i

def SameEntry (e e' : Buf) : Prop := ∀ j < 32, e j = e' j

/-- An entry that is in use: neither unused nor deleted nor part of a long name, and not one of the
two with which a directory begins. -/
def Live (e : Buf) : Prop := e 0 ≠ 0 ∧ e 0 ≠ 0xE5 ∧ e 0 ≠ dot ∧ e 11 ≠ 0x0F

/-- An entry with the attribute of directories. -/
def IsDir (e : Buf) : Prop := e 11 &&& 0x10 ≠ 0

/-- A test of entries looks at their bytes only. -/
def Local (f : Buf → Bool) : Prop := ∀ e e', SameEntry e e' → f e = f e'

def scanBy (stop hit : Buf → Bool) (b : Buf) : Scan :=
  scan (fun i => stop (slot b i)) (fun i => hit (slot b i))

instance (e : Buf) : Decidable (Live e) := inferInstanceAs (Decidable (_ ∧ _))

instance (e : Buf) : Decidable (IsDir e) := inferInstanceAs (Decidable (_ ≠ _))

section Entries

variable {b b' e e' : Buf} {i : ℕ} {stop hit : Buf → Bool}

theorem SameEntry.live (h : SameEntry e e') : Live e ↔ Live e' := by
  rw [Live, Live, h 0 (by decide), h 11 (by decide)]

theorem SameEntry.isDir (h : SameEntry e e') : IsDir e ↔ IsDir e' := by
  rw [IsDir, IsDir, h 11 (by decide)]

theorem cluster_congr (h : ∀ j < 28, e j = e' j) : getEntryCluster e = getEntryCluster e' := by
  have hword : ∀ a, a + 2 ≤ 28 → word 2 e a = word 2 e' a :=
    fun a ha => leNat_congr fun i hi => h (a + i) (by omega)
  rw [getEntryCluster, getEntryCluster, hword 20 (by decide), hword 26 (by decide)]

theorem SameEntry.cluster (h : SameEntry e e') : getEntryCluster e = getEntryCluster e' :=
  cluster_congr fun j hj => h j (by omega)

theorem SameEntry.size (h : SameEntry e e') : fileSize e = fileSize e' :=
  leNat_congr fun i hi => h _ (by omega)

theorem cells_congr {n : ℕ} (h : ∀ j < n, e j = e' j) : cells n e = cells n e' :=
  map_congr_left fun j hj => h j (mem_range.mp hj)

theorem SameEntry.name (h : SameEntry e e') : cells 11 e = cells 11 e' :=
  cells_congr fun j hj => h j (by omega)

theorem SameCluster.slot (h : SameCluster b b') (hi : i < slotsPerCluster) :
    SameEntry (slot b i) (slot b' i) := by
  intro j hj
  rw [slotsPerCluster_eq] at hi
  exact h _ (by unfold clusterSize; omega)

theorem SameCluster.scanBy (h : SameCluster b b') (hstop : Local stop) (hhit : Local hit) :
    scanBy stop hit b = scanBy stop hit b' :=
  scan_congr fun _ hi => ⟨hstop _ _ (h.slot hi), hhit _ _ (h.slot hi)⟩

/-! ### The scans of the code -/

/-- A slot that was never used ends most scans. -/
def isUnused (e : Buf) : Bool := e 0 == 0

def hasToken (t : List UInt8) (e : Buf) : Bool :=
  e 0 != 0xE5 && e 11 != 0x0F && matchName t (cells 11 e)

def hasEntry (attr : UInt8) (name : List UInt8) (e : Buf) : Bool :=
  e 11 == attr && cells 11 e == name

theorem local_isUnused : Local isUnused := fun e e' h => by rw [isUnused, isUnused, h 0 (by decide)]

theorem local_hasToken (t : List UInt8) : Local (hasToken t) := fun e e' h => by
  rw [hasToken, hasToken, h 0 (by decide), h 11 (by decide), h.name]

theorem SameEntry.tests {e e' : Buf} {p q : Bool} (h : SameEntry e e') (t : List UInt8) :
    isUnused e = p ∧ hasToken t e = q ↔ isUnused e' = p ∧ hasToken t e' = q := by
  rw [local_isUnused e e' h, local_hasToken t e e' h]

theorem local_hasEntry (attr : UInt8) (name : List UInt8) : Local (hasEntry attr name) :=
  fun e e' h => by rw [hasEntry, hasEntry, h 11 (by decide), h.name]

theorem SameCluster.scanToken (h : SameCluster b b') (t : List UInt8) :
    scanToken b t = scanToken b' t :=
  h.scanBy local_isUnused (local_hasToken t)

theorem SameCluster.scanEntry (h : SameCluster b b') (attr : UInt8) (name : List UInt8) :
    scanEntry attr name b = scanEntry attr name b' :=
  h.scanBy local_isUnused (local_hasEntry attr name)

theorem SameCluster.scanFree (h : SameCluster b b') : scanFree b = scanFree b' := by
  refine scan_congr fun i hi => ?_
  rw [show slotFirst b i = slotFirst b' i from h.slot hi 0 (by decide)]
  exact ⟨rfl, rfl⟩

theorem toupper_ne_dot {c : UInt8} (h : c ≠ dot) : toupper c ≠ dot :=
  toupper_ne (by decide) h

theorem pad83_head_ne_dot {base ext : List UInt8} (h : dot ∉ base) :
    (pad83 base ext).head? ≠ some dot := by
  cases base with
  | nil => simp [pad83, space, dot, replicate_succ]
  | cons c base =>
    have hc : c ≠ dot := fun heq => h (heq ▸ mem_cons_self)
    simpa [pad83] using toupper_ne_dot hc

theorem matchFormat_head_ne_dot (t : List UInt8) : (matchFormat t).head? ≠ some dot := by
  refine pad83_head_ne_dot ?_
  intro hmem
  simpa using mem_takeWhile_imp hmem

theorem formatName83_head_ne_dot (t : List UInt8) : (formatName83 t).head? ≠ some dot := by
  refine pad83_head_ne_dot ?_
  intro hmem
  simpa using mem_takeWhile_imp (mem_of_mem_take hmem)

theorem live_of_scanToken (h : scanToken b t = .hit i) :
    i < slotsPerCluster ∧ Live (slot b i) ∧ slotName b i = matchFormat t := by
  obtain ⟨hi, ⟨hstop, hhit⟩, -⟩ := scan_eq_hit_iff.mp h
  simp only [Bool.and_eq_true, bne_iff_ne, matchName, beq_iff_eq, beq_eq_false_iff_ne] at hstop hhit
  obtain ⟨⟨hdeleted, hattr⟩, hname⟩ := hhit
  refine ⟨hi, ⟨hstop, hdeleted, ?_, hattr⟩, hname⟩
  intro hdot
  apply matchFormat_head_ne_dot t
  rw [← hname]
  exact congrArg some hdot

theorem used_of_scanToken (h : scanToken b t = .hit i) (hj : j < i) : slot b j 0 ≠ 0 :=
  beq_eq_false_iff_ne.mp ((scan_eq_hit_iff.mp h).2.2 j hj).1

end Entries

/-! ## Volumes -/

namespace Vol

variable (v : Vol) {k i k' i' : ℕ} {e e' : Buf}

def slot (k i : ℕ) : Buf := Fat32.slot (v.data k) i

def next (c : ℕ) : Option ℕ :=
  if fat32Eoc ≤ v.fat c then none else some (v.fat c)

def setSlot (k i : ℕ) (e : Buf) : Vol :=
  v.setData k (Fat32.setSlot (v.data k) i e)

@[simp] theorem setSlot_fat (k i : ℕ) (e : Buf) : (v.setSlot k i e).fat = v.fat := rfl

theorem follow_lt (c : ℕ) : v.follow c < fat32Eoc := by
  unfold follow
  split
  · decide
  · omega

theorem follow_of_next_none (h : v.next c = none) : v.follow c = 0 := by
  unfold next at h
  unfold follow
  split at h
  · rw [if_pos ‹_›]
  · cases h

theorem follow_of_next_some {c' : ℕ} (h : v.next c = some c') : v.follow c = c' := by
  unfold next at h
  unfold follow
  split at h
  · cases h
  · rw [if_neg ‹_›]
    exact Option.some.inj h

theorem setData_slot_self (k : ℕ) (b : Buf) (hi : i < slotsPerCluster) :
    SameEntry ((v.setData k b).slot k i) (Fat32.slot b i) := by
  intro j hj
  rw [slotsPerCluster_eq] at hi
  rw [slot, Fat32.slot, setData_data_self _ _ _ (by unfold clusterSize; omega), Fat32.slot]

theorem setData_slot_of_ne (h : k' ≠ k) (b : Buf) : (v.setData k b).slot k' = v.slot k' := by
  funext i
  rw [slot, slot, setData_data_of_ne v h]

theorem setSlot_slot_self (k : ℕ) (hi : i < slotsPerCluster) (e : Buf) :
    SameEntry ((v.setSlot k i e).slot k i) e := by
  intro j hj
  rw [setSlot, v.setData_slot_self k _ hi j hj, Fat32.slot, Fat32.setSlot,
    blit_of_mem _ _ (by omega) (by omega), Nat.add_sub_cancel_left]

theorem setSlot_data_of_ne (h : k' ≠ k) : (v.setSlot k i e).data k' = v.data k' :=
  setData_data_of_ne v h _

theorem setSlot_slot_of_ne (hi' : i' < slotsPerCluster) (h : (k', i') ≠ (k, i)) :
    SameEntry ((v.setSlot k i e).slot k' i') (v.slot k' i') := by
  intro j hj
  by_cases hk : k' = k
  · subst hk
    have hne : i' ≠ i := fun heq => h (heq ▸ rfl)
    rw [setSlot, v.setData_slot_self k' _ hi' j hj, slot, Fat32.slot, Fat32.slot, Fat32.setSlot,
      blit_of_not_mem _ _ (by omega)]
  · rw [setSlot, v.setData_slot_of_ne hk]

theorem setData_congr {b b' : Buf} (h : SameCluster b b') : v.setData k b = v.setData k b' := by
  unfold setData
  congr 2
  funext i
  split
  · exact h i ‹_›
  · rfl

theorem setSlot_congr (h : SameEntry e e') : v.setSlot k i e = v.setSlot k i e' := by
  refine setData_congr v fun j _ => ?_
  unfold Fat32.setSlot
  by_cases hj : 32 * i ≤ j ∧ j < 32 * i + 32
  · rw [blit_of_mem _ _ hj.1 hj.2, blit_of_mem _ _ hj.1 hj.2]
    exact h _ (by omega)
  · rw [blit_of_not_mem _ _ (by omega), blit_of_not_mem _ _ (by omega)]

theorem setSlot_setData_comm (h : k ≠ c) (b : Buf) :
    (v.setSlot k i e).setData c b = (v.setData c b).setSlot k i e := by
  refine Vol.ext rfl ?_
  unfold setSlot
  rw [setData_data_of_ne v h]
  exact update_comm h _ _ _

theorem setSlot_data_apply (k i : ℕ) (e : Buf) (hj : j < clusterSize) :
    (v.setSlot k i e).data k j =
      if 32 * i ≤ j ∧ j < 32 * i + 32 then e (j - 32 * i) else v.data k j :=
  setData_data_self v k _ hj

theorem setSlot_comm (h : (k, i) ≠ (k', i')) :
    (v.setSlot k i e).setSlot k' i' e' = (v.setSlot k' i' e').setSlot k i e := by
  by_cases hk : k = k'
  · subst hk
    have hi : i ≠ i' := fun heq => h (heq ▸ rfl)
    refine Vol.ext rfl ?_
    funext c j
    by_cases hc : c = k
    · subst hc
      by_cases hj : j < clusterSize
      · rw [setSlot_data_apply _ _ _ _ hj, setSlot_data_apply _ _ _ _ hj,
          setSlot_data_apply _ _ _ _ hj, setSlot_data_apply _ _ _ _ hj]
        by_cases h1 : 32 * i ≤ j ∧ j < 32 * i + 32
        · rw [if_neg (by omega), if_pos h1, if_pos h1]
        · rw [if_neg h1, if_neg h1]
      · have hj' : clusterSize ≤ j := by omega
        exact (setData_data_of_le _ c _ hj').trans (setData_data_of_le _ c _ hj').symm
    · rw [setSlot_data_of_ne _ hc, setSlot_data_of_ne _ hc, setSlot_data_of_ne _ hc,
        setSlot_data_of_ne _ hc]
  · rw [setSlot, setSlot_data_of_ne v (Ne.symm hk)]
    exact setSlot_setData_comm v hk _

theorem extended_comm (h : z ≠ c) :
    v.extended z c = ((v.setFat c 0x0FFFFFFF).setData c fun _ => 0).setFat z c := by
  refine Vol.ext ?_ rfl
  exact update_comm h _ _ _

theorem extended_same (z c : ℕ) : SameCluster (fun _ => 0) ((v.extended z c).data c) := by
  intro j hj
  rw [extended, setData_data_self _ _ _ hj]

theorem extended_slot (z c : ℕ) (hi : i < slotsPerCluster) (hj : j < 32) :
    (v.extended z c).slot c i j = 0 :=
  setData_slot_self _ c _ hi j hj

theorem extended_next_self (z c : ℕ) : (v.extended z c).next c = none := by
  rw [next, extended, setData_fat, setFat_fat, update_self, if_pos (by decide)]

theorem extended_fat_of_ne {x : ℕ} (hz : x ≠ z) (hc : x ≠ c) :
    (v.extended z c).fat x = v.fat x := by
  rw [extended, setData_fat, setFat_fat, update_of_ne hc, setFat_fat, update_of_ne hz]

theorem extended_fat_last (h : z ≠ c) : (v.extended z c).fat z = c := by
  rw [extended, setData_fat, setFat_fat, update_of_ne h, setFat_fat, update_self]

/-! ### Paths -/

/-- The loop of `find_cluster_from_path`. -/
def find (v : Vol) : List (List UInt8) → ℕ → Option ℕ
  | [], c => some c
  | t :: ts, c =>
    match scanToken (v.data c) t with
    | .hit i => find v ts (getEntryCluster (v.slot c i))
    | _ => none

theorem find_of_hit {i : ℕ} (h : scanToken (v.data c) t = .hit i) (ts : List (List UInt8)) :
    v.find (t :: ts) c = v.find ts (getEntryCluster (v.slot c i)) := by
  rw [find, h]

variable {v} in
theorem find_of_miss (h : ∀ j, scanToken (v.data c) t ≠ .hit j) : v.find (t :: ts) c = none := by
  rw [find]
  cases hscan : scanToken (v.data c) t with
  | hit j => exact absurd hscan (h j)
  | stopped => rfl
  | exhausted => rfl

theorem find_cons_eq_some {q : ℕ} (h : v.find (t :: ts) c = some q) :
    ∃ i, scanToken (v.data c) t = .hit i ∧ v.find ts (getEntryCluster (v.slot c i)) = some q := by
  rw [find] at h
  cases hscan : scanToken (v.data c) t with
  | hit i => exact ⟨i, rfl, by rwa [hscan] at h⟩
  | stopped =>
    rw [hscan] at h
    cases h
  | exhausted =>
    rw [hscan] at h
    cases h

/-- `find_cluster_from_path`. -/
def resolve (root : ℕ) (v : Vol) (path : List UInt8) : ℕ :=
  if path.head? = some slash then (v.find (tokens path) root).getD 0 else 0

/-- Every component that is found and is not the last one is a directory with a cluster, and the
last one, if it is found, has the property `P`. -/
def Leads (v : Vol) (P : Buf → Prop) : List (List UInt8) → ℕ → Prop
  | [], _ => True
  | t :: ts, c =>
    ∀ i, scanToken (v.data c) t = .hit i →
      if ts = [] then P (v.slot c i)
      else IsDir (v.slot c i) ∧ getEntryCluster (v.slot c i) ≠ 0 ∧
        Leads v P ts (getEntryCluster (v.slot c i))

/-- The clusters in which the components are looked for exist. -/
def Readable (n : ℕ) (v : Vol) : List (List UInt8) → ℕ → Prop
  | [], _ => True
  | t :: ts, c =>
    (2 ≤ c ∧ c < n) ∧
      ∀ i, scanToken (v.data c) t = .hit i → Readable n v ts (getEntryCluster (v.slot c i))

end Vol

/-! ## Disks -/

namespace Rep

variable {g : Geometry} {m : Prop} {d : Disk} {v : Vol} {c k i : ℕ}

theorem readCluster_same (h : Rep g m d v) (hc2 : 2 ≤ c) (hc : c < g.clusters) (buf : Buf) :
    SameCluster (readCluster g.part d c buf).1 (v.data c) :=
  (h.readCluster_eq hc2 hc buf).2

theorem getRootDirCluster_eq (h : Rep g m d v) : getRootDirCluster g.part d = g.root := by
  have hlba := g.lba_pos
  rw [getRootDirCluster, h.onDisk.lba, if_neg (by omega), h.onDisk.rootCluster]

theorem findClusterLoop_eq (h : Rep g m d v) (hread : v.Readable g.clusters ts c) (junk : ℕ → Buf) :
    findClusterLoop g.part d ts c junk = v.find ts c := by
  induction ts generalizing c junk with
  | nil => rfl
  | cons t ts ih =>
    obtain ⟨hc, hrest⟩ := hread
    have hsame := h.readCluster_same hc.1 hc.2 (junk 0)
    rw [findClusterLoop, Vol.find, hsame.scanToken t]
    rcases hscan : Fat32.scanToken (v.data c) t with - | i | -
    · rfl
    · dsimp only
      rw [(hsame.slot (live_of_scanToken hscan).1).cluster]
      exact ih (hrest i hscan) _
    · rfl

/-- **The lookup on a disk is that on its volume**, if it reads existing clusters only. -/
theorem findClusterFromPath_eq (h : Rep g m d v) {path : List UInt8}
    (hread : path.head? = some slash → v.Readable g.clusters (tokens path) g.root)
    (junk : ℕ → Buf) :
    findClusterFromPath g.part junk d path = v.resolve g.root path := by
  rw [findClusterFromPath, Vol.resolve, h.getRootDirCluster_eq]
  by_cases hhead : path.head? = some slash
  · rw [if_neg (not_not.mpr hhead), if_pos hhead, h.findClusterLoop_eq (hread hhead)]
    split
    · rename_i hroot
      subst hroot
      rfl
    · rfl
  · rw [if_pos hhead, if_neg hhead]

theorem writeSlot_rep (h : Rep g m d v) (hk2 : 2 ≤ k) (hk : k < g.clusters) {buf : Buf}
    (hbuf : SameCluster buf (v.data k)) (i : ℕ) (e : Buf) :
    Rep g m (writeCluster g.part d k (setSlot buf i e)).1 (v.setSlot k i e) := by
  have hsame : SameCluster (setSlot buf i e) (setSlot (v.data k) i e) := by
    intro j hj
    unfold setSlot
    by_cases hin : 32 * i ≤ j ∧ j < 32 * i + 32
    · rw [blit_of_mem _ _ hin.1 hin.2, blit_of_mem _ _ hin.1 hin.2]
    · rw [blit_of_not_mem _ _ (by omega), blit_of_not_mem _ _ (by omega)]
      exact hbuf j hj
  rw [Vol.setSlot, ← Vol.setData_congr v hsame]
  exact (h.writeCluster_rep hk2 hk (setSlot buf i e)).2

end Rep

end CarrotOS.Fat32
