import CarrotOS.Fs.Tree

/-!
# What creating, writing, truncating and removing do to the chains

Each routine is a sequence of changes of the volume. The order in which a routine makes them is not
the order in which they keep the chains apart: a new entry is written before its cluster is taken,
and a chain is freed before the entry that owns it is cleared. The volume at the end is the same, so
the changes are put into an order in which each of them keeps the volume tidy.
-/

namespace CarrotOS.Fat32

open Bytes LinkTable Function List Vol

variable {b i : ℕ} {l : List ℕ} {isDir : Bool}

/-! ## Entries that the code writes -/

section NewEntries

variable {name : List UInt8} {attr : UInt8} {x : ℕ} {e e' : Buf} {j : ℕ}

theorem newEntry_of_lt (hname : name.length = 11) (hj : j < 11) :
    newEntry name attr x j = name.getD j 0 := by
  rw [newEntry, take_of_length_le hname.le, getD_eq_getElem?_getD,
    getElem?_append_left (by omega), ← getD_eq_getElem?_getD]

theorem newEntry_name (hname : name.length = 11) : cells 11 (newEntry name attr x) = name := by
  rw [cells_congr fun j hj => newEntry_of_lt hname hj, cells_getD hname.ge,
    take_of_length_le hname.le]

theorem newEntry_add (hname : name.length = 11) (j : ℕ) :
    newEntry name attr x (11 + j) =
      [attr, 0, 0x44, 0x1a, 0x9c, 0x13, 0x5b, 0x13, 0x5b, leByte (x / 2 ^ 16) 0,
        leByte (x / 2 ^ 16) 1, 0x33, 0x9c, 0x13, 0x5b, leByte x 0, leByte x 1,
        0, 0, 0, 0].getD j 0 := by
  rw [newEntry, take_of_length_le hname.le, getD_eq_getElem?_getD,
    getElem?_append_right (by omega), hname, Nat.add_sub_cancel_left,
    ← getD_eq_getElem?_getD]

theorem newEntry_attr (hname : name.length = 11) : newEntry name attr x 11 = attr :=
  newEntry_add hname 0

theorem getEntryCluster_of_halves (hx : x < 2 ^ 32)
    (hhigh : ∀ i < 2, e (20 + i) = leByte (x / 2 ^ 16) i)
    (hlow : ∀ i < 2, e (26 + i) = leByte x i) :
    getEntryCluster e = x := by
  have hword : word 2 e 20 = x / 2 ^ 16 % 2 ^ 16 := (leNat_congr hhigh).trans (leNat_leByte 2 _)
  have hword' : word 2 e 26 = x % 2 ^ 16 := (leNat_congr hlow).trans (leNat_leByte 2 _)
  rw [getEntryCluster, hword, hword']
  omega

theorem newEntry_cluster (hname : name.length = 11) (hx : x < 2 ^ 32) :
    getEntryCluster (newEntry name attr x) = x := by
  refine getEntryCluster_of_halves hx ?_ ?_
  · intro i hi
    rw [show 20 + i = 11 + (9 + i) by omega, newEntry_add hname]
    match i with
    | 0 => rfl
    | 1 => rfl
  · intro i hi
    rw [show 26 + i = 11 + (15 + i) by omega, newEntry_add hname]
    match i with
    | 0 => rfl
    | 1 => rfl

theorem withCluster_cluster (hx : x < 2 ^ 32) (e : Buf) :
    getEntryCluster (withCluster x e) = x := by
  refine getEntryCluster_of_halves hx ?_ ?_
  · intro i hi
    rw [withCluster, blit_of_mem _ _ (by omega) (by omega), Nat.add_sub_cancel_left]
  · intro i hi
    rw [withCluster, blit_of_not_mem _ _ (by omega), blit_of_mem _ _ (by omega) (by omega),
      Nat.add_sub_cancel_left]

theorem withCluster_of_lt (x : ℕ) (e : Buf) (hj : j < 20) : withCluster x e j = e j := by
  rw [withCluster, blit_of_not_mem _ _ (by omega), blit_of_not_mem _ _ (by omega)]

theorem withSize_of_lt (x : ℕ) (e : Buf) (hj : j < 28) : withSize x e j = e j := by
  rw [withSize, blit_of_not_mem _ _ (by omega)]

theorem withSize_cluster (x : ℕ) (e : Buf) : getEntryCluster (withSize x e) = getEntryCluster e :=
  cluster_congr fun _ hj => withSize_of_lt x e hj

theorem SameEntry.blit (h : SameEntry e e') (a n : ℕ) (src : Buf) :
    SameEntry (Bytes.blit e a n src) (Bytes.blit e' a n src) := by
  intro j hj
  unfold Bytes.blit
  split
  · rfl
  · exact h j hj

theorem SameEntry.withCluster (h : SameEntry e e') (x : ℕ) :
    SameEntry (withCluster x e) (withCluster x e') :=
  (h.blit _ _ _).blit _ _ _

theorem SameEntry.withSize (h : SameEntry e e') (x : ℕ) :
    SameEntry (withSize x e) (withSize x e') :=
  h.blit _ _ _

theorem live_withSize (x : ℕ) (e : Buf) : Live (withSize x e) ↔ Live e := by
  rw [Live, Live, withSize_of_lt x e (by decide), withSize_of_lt x e (by decide)]

theorem isDir_withCluster (x : ℕ) (e : Buf) : IsDir (withCluster x e) ↔ IsDir e := by
  rw [IsDir, IsDir, withCluster_of_lt x e (by decide)]

theorem isDir_withSize (x : ℕ) (e : Buf) : IsDir (withSize x e) ↔ IsDir e := by
  rw [IsDir, IsDir, withSize_of_lt x e (by decide)]

theorem not_live_erased : ¬ Live erased := fun h => h.1 rfl

theorem dotEntries_slot (b p : ℕ) (hi : i < slotsPerCluster) :
    ¬ Live (slot (dotEntries b p) i) ∧ slot (dotEntries b p) 1 0 = dot := by
  have hsecond : slot (dotEntries b p) 1 0 = dot := by
    rfl
  refine ⟨?_, hsecond⟩
  intro hlive
  rcases i with - | - | i
  · apply hlive.2.2.1
    rfl
  · exact hlive.2.2.1 hsecond
  · apply hlive.1
    rw [slot, dotEntries, setSlot, blit_of_not_mem _ _ (by omega), setSlot,
      blit_of_not_mem _ _ (by omega)]

end NewEntries

/-! ## Clusters that nothing refers to -/

/-- A slot that `fat32_create` takes. -/
def IsFree (e : Buf) : Prop := e 0 = 0 ∨ e 0 = 0xE5

theorem isFree_of_scanFree {b : Buf} (h : scanFree b = .hit i) :
    i < slotsPerCluster ∧ IsFree (slot b i) := by
  obtain ⟨hi, ⟨-, hhit⟩, -⟩ := scan_eq_hit_iff.mp h
  rw [Bool.or_eq_true, beq_iff_eq, beq_iff_eq] at hhit
  exact ⟨hi, hhit.symm⟩

theorem IsFree.ne_dot {e : Buf} (h : IsFree e) : e 0 ≠ dot := by
  rcases h with h | h <;> rw [h] <;> decide

namespace Tidy

variable {g : Geometry} {v v' : Vol} {S : Set ℕ} {L : Owner → List ℕ} {o : Owner} {b c k i x z : ℕ}
  {e : Buf} {ls : List ℕ}

section

variable (h : Tidy g v S L)
include h

theorem not_mem_of_free (hb : v.fat b = 0) :
    b ∉ S ∧ ∀ o, o.In S v → b ∉ L o :=
  ⟨fun hS => h.fat_ne_zero_of_mem hS hb, fun _ ho hL => h.fat_ne_zero ho hL hb⟩

theorem setFat_of_not_mem (hb0 : b ≠ 0) (hbS : b ∉ S) (hbL : ∀ o, o.In S v → b ∉ L o) (x : ℕ) :
    Tidy g (v.setFat b x) S L := by
  have hother : ∀ y, y ≠ b → (v.setFat b x).next y = v.next y := by
    intro y hy
    rw [Vol.next, Vol.next, setFat_fat, update_of_ne hy]
  refine h.congr (fun k _ i _ j _ => rfl) ?_ ?_ ?_
  · intro o ho y hy
    exact hother y fun heq => hbL o ho (heq ▸ hy)
  · intro y hy
    exact hother y fun heq => hbS (heq ▸ hy)
  · rw [follow, follow, setFat_fat, update_of_ne hb0.symm]

theorem write (hfat : v'.fat = v.fat) (hdata : ∀ k ∈ S, v'.data k = v.data k) :
    Tidy g v' S L := by
  have hnext : v'.next = v.next := by
    funext c
    rw [Vol.next, Vol.next, hfat]
  refine h.congr ?_ (fun o _ x _ => by rw [hnext]) (fun x _ => by rw [hnext]) ?_
  · intro k hk i _ j _
    rw [Vol.slot, Vol.slot, hdata k hk]
  · rw [follow, follow, hfat]

theorem setData_of_not_mem (hb : b ∉ S) (buf : Buf) :
    Tidy g (v.setData b buf) S L :=
  h.write rfl fun _ hk => v.setData_data_of_ne (ne_of_mem_of_not_mem hk hb) buf

theorem kill (hk : k ∈ S) (hi : i < slotsPerCluster) (he : ¬ Live e)
    (hkeep : v.slot k i 0 = dot → e 0 = dot) :
    Tidy g (v.setSlot k i e) S (update L (.slot k i) []) :=
  h.setSlot hk hi (fun hl => absurd hl he) (fun hl => absurd hl he) (fun hl => absurd hl he)
    (fun hl => absurd hl he) (fun hl => absurd hl he) (fun hl => absurd hl he) hkeep

/-- A free cluster becomes one of a directory, as the end of a chain and without entries in use. -/
theorem newCluster (hb : 2 ≤ b ∧ b < g.clusters) (hfree : v.fat b = 0) (hx : fat32Eoc ≤ x)
    (buf : Buf) (hempty : ∀ i < slotsPerCluster, ¬ Live (slot buf i)) :
    Tidy g ((v.setFat b x).setData b buf) (Insert.insert b S) L ∧
      ∀ o : Owner, (o.In (Insert.insert b S) ((v.setFat b x).setData b buf) ↔ o.In S v) ∧
        (o.In S v → (o.Dir ((v.setFat b x).setData b buf) ↔ o.Dir v)) := by
  obtain ⟨hbS, hbL⟩ := h.not_mem_of_free hfree
  have hempty' : ∀ i < slotsPerCluster, ¬ Live (((v.setFat b x).setData b buf).slot b i) :=
    fun i hi hlive => hempty i hi ((setData_slot_self _ b buf hi).live.mp hlive)
  have hslot : ∀ k ∈ S, ((v.setFat b x).setData b buf).slot k = v.slot k :=
    fun k hk => setData_slot_of_ne _ (ne_of_mem_of_not_mem hk hbS) buf
  have hin : ∀ o : Owner, o.In S ((v.setFat b x).setData b buf) ↔ o.In S v :=
    fun o => Owner.in_setData hbS buf
  have hclear := (h.setFat_of_not_mem (by omega) hbS hbL x).setData_of_not_mem hbS buf
  refine ⟨hclear.insert hb (fun o ho => hbL o ((hin o).mp ho)) ?_ hempty', ?_⟩
  · rw [Vol.next, setData_fat, setFat_fat, update_self, if_pos hx]
  · intro o
    cases o with
    | root => exact ⟨Iff.rfl, fun _ => Iff.rfl⟩
    | lost => exact ⟨Iff.rfl, fun _ => Iff.rfl⟩
    | slot k i =>
      refine ⟨⟨?_, fun ho => ⟨.inr ho.1, ((hin (.slot k i)).mpr ho).2⟩⟩, ?_⟩
      · rintro ⟨hk | hk, hi, hlive⟩
        · subst hk
          exact absurd hlive (hempty' i hi)
        · exact (hin (.slot k i)).mp ⟨hk, hi, hlive⟩
      · intro ho
        rw [Owner.Dir, Owner.Dir, hslot k ho.1]

/-- **A further cluster of a directory**: linked behind its last one, marked as the end of the
chain, and cleared. -/
theorem extendDir (ho : o.In S v) (hdir : o.Dir v) (hz : (L o).getLast? = some z)
    (hb : 2 ≤ b ∧ b < g.clusters) (hfree : v.fat b = 0) :
    Tidy g (v.extended z b) (Insert.insert b S) (update L o (L o ++ [b])) := by
  obtain ⟨hbS, hbL⟩ := h.not_mem_of_free hfree
  have hzb : z ≠ b := ne_of_mem_of_not_mem (mem_of_getLast? hz) (hbL o ho)
  -- the new cluster comes first, then the link to it
  obtain ⟨hnew, howners⟩ := h.newCluster hb hfree (x := 0x0FFFFFFF) (by decide)
    (fun _ => 0) fun i _ hlive => hlive.1 rfl
  have hlink := hnew.extend ((howners o).1.mpr ho) (((howners o).2 ho).mpr hdir) hz (.inl rfl)
    (fun o' ho' => hbL o' ((howners o').1.mp ho')) (by
      rw [Vol.next, setData_fat, setFat_fat, update_self, if_pos (by decide)])
  rw [v.extended_comm hzb]
  exact hlink

/-- An entry gets a chain of one cluster, to which nothing else refers. -/
theorem setSlot_single (hk : k ∈ S) (hi : i < slotsPerCluster) (he : getEntryCluster e = b)
    (hb : 2 ≤ b ∧ b < g.clusters) (hbL : ∀ o, o.In S v → b ∉ L o) (hend : v.next b = none)
    (hdir : IsDir e → b ∈ S ∧ v.slot b 1 0 = dot) (hfile : ¬ IsDir e → b ∉ S)
    (hkeep : v.slot k i 0 = dot → e 0 = dot) :
    Tidy g (v.setSlot k i e) S (update L (.slot k i) [b]) := by
  refine h.setSlot hk hi ?_ ?_ ?_ ?_ ?_ ?_ hkeep
  · intro _
    rw [he, start_of_ne (by omega)]
    exact .linked (.last hend)
  · intro _ o ho _ x hx
    obtain rfl := mem_singleton.mp hx
    exact hbL o ho
  · intro _ x hx
    obtain rfl := mem_singleton.mp hx
    exact hb
  · intro _ hd x hx
    obtain rfl := mem_singleton.mp hx
    exact (hdir hd).1
  · intro _ hd x hx
    obtain rfl := mem_singleton.mp hx
    exact hfile hd
  · intro _ hd _
    rw [he]
    exact (hdir hd).2

theorem setSlot_none (hk : k ∈ S) (hi : i < slotsPerCluster) (he : getEntryCluster e = 0)
    (hkeep : v.slot k i 0 = dot → e 0 = dot) :
    Tidy g (v.setSlot k i e) S (update L (.slot k i) []) := by
  refine h.setSlot hk hi ?_ (fun _ o _ _ x hx => by cases hx) (fun _ x hx => by cases hx)
    (fun _ _ x hx => by cases hx) (fun _ _ x hx => by cases hx) (fun _ _ hne => absurd he hne) hkeep
  intro _
  rw [he]
  exact .nil

/-- An entry changes, but not in what concerns its chain. -/
theorem resize (hk : k ∈ S) (hi : i < slotsPerCluster) (hlive : Live e ↔ Live (v.slot k i))
    (hdir : IsDir e ↔ IsDir (v.slot k i))
    (hcluster : getEntryCluster e = getEntryCluster (v.slot k i)) (hfirst : e 0 = v.slot k i 0) :
    Tidy g (v.setSlot k i e) S L := by
  have hin : Live e → (Owner.slot k i).In S v := fun he => ⟨hk, hi, hlive.mp he⟩
  have hset : Tidy g (v.setSlot k i e) S (update L (.slot k i) (L (.slot k i))) := by
    refine h.setSlot hk hi ?_ ?_ ?_ ?_ ?_ ?_ fun hdot => hfirst.trans hdot
    · intro he
      rw [hcluster]
      exact h.family.lists _ (hin he)
    · intro he o ho hne x hx hx'
      exact h.family.disjoint o _ ho (hin he) hne x hx' hx
    · intro he
      exact h.range _ (hin he)
    · intro he hd
      exact h.dirs _ (hin he) (hdir.mp hd)
    · intro he hd
      exact h.files _ (hin he) fun hd' => hd (hdir.mpr hd')
    · intro he hd hne
      rw [hcluster] at hne ⊢
      exact h.dots k i (hin he) (hdir.mp hd) hne
  rwa [update_eq_self] at hset

theorem clearLost (hx : fat32Eoc ≤ x) :
    Tidy g (v.setFat 0 x) S (update L .lost []) := by
  refine h.setLost ?_ (fun o _ _ y hy => by cases hy) fun y hy => by cases hy
  rw [follow, setFat_fat, update_self, if_pos hx]
  exact .nil

end

end Tidy

/-! ## Creating -/

namespace Vol

variable (v : Vol)

/-- The end of `fat32_create`, for the first cluster `b` of the new entry. -/
def finish (isDir : Bool) (b parent : ℕ) : Vol :=
  (if isDir ∧ 2 ≤ b then v.setData b (dotEntries b parent) else v).setFat b fat32Eoc

def clear (l : List ℕ) : Vol :=
  { v with fat := fun c => if c ∈ l then 0 else v.fat c }

theorem clear_fat_of_not_mem {c : ℕ} (h : c ∉ l) : (v.clear l).fat c = v.fat c :=
  if_neg h

end Vol

/-- The clusters of directories, with that of a new entry if it is a directory. -/
def withDir (isDir : Bool) (b : ℕ) (S : Set ℕ) : Set ℕ :=
  if isDir ∧ 2 ≤ b then insert b S else S

theorem withDir_of (h : isDir ∧ 2 ≤ b) (S : Set ℕ) :
    withDir isDir b S = insert b S :=
  if_pos h

theorem withDir_of_not (h : ¬(isDir ∧ 2 ≤ b)) (S : Set ℕ) :
    withDir isDir b S = S :=
  if_neg h

namespace Tidy

variable {g : Geometry} {v v' : Vol} {S : Set ℕ} {L : Owner → List ℕ} {o : Owner} {b c k i x : ℕ}
  {e : Buf} {name : List UInt8}

/-- **A new entry in a free slot.** Its cluster is the first free one, or 0 if there is none. -/
theorem create (h : Tidy g v S L) (hk : k ∈ S) (hi : i < slotsPerCluster)
    (hfree : IsFree (v.slot k i)) (hname : name.length = 11) (isDir : Bool) (parent : ℕ) :
    ∃ L', Tidy g ((v.setSlot k i (newEntry name (if isDir then 0x10 else 0x20)
      (v.blank g.clusters))).finish isDir (v.blank g.clusters) parent)
        (withDir isDir (v.blank g.clusters) S) L' := by
  have hkeep : v.slot k i 0 = dot → newEntry name (if isDir then 0x10 else 0x20)
      (v.blank g.clusters) 0 = dot := fun hdot => absurd hdot hfree.ne_dot
  have hle := g.clusters_le
  unfold finish
  rcases v.blank_cases g.clusters with ⟨hzero, -⟩ | ⟨hb2, hbn, hbfree⟩
  · -- no cluster is left: the entry has none, and the first entry of the FAT is overwritten
    have he :
    getEntryCluster (newEntry name (if isDir then 0x10 else 0x20) (v.blank g.clusters)) = 0 := by
      rw [newEntry_cluster hname (by omega), hzero]
    have hnew := h.setSlot_none hk hi he hkeep
    rw [hzero] at hnew
    rw [hzero, if_neg (by omega), withDir_of_not (by omega)]
    exact ⟨_, hnew.clearLost le_rfl⟩
  · obtain ⟨hbS, hbL⟩ := h.not_mem_of_free hbfree
    set b := v.blank g.clusters with hb
    have he : getEntryCluster (newEntry name (if isDir then 0x10 else 0x20) b) = b :=
      newEntry_cluster hname (by omega)
    have hattr : newEntry name (if isDir then 0x10 else 0x20) b 11 = if isDir then 0x10 else 0x20 :=
      newEntry_attr hname
    cases isDir with
    | false =>
      -- the cluster is marked first
      have hmark := h.setFat_of_not_mem (by omega) hbS hbL fat32Eoc
      have hfile : ¬ IsDir (newEntry name (if false then 0x10 else 0x20) b) := by
        rw [IsDir, hattr]
        decide
      have hend : (v.setFat b fat32Eoc).next b = none := by
        rw [Vol.next, setFat_fat, update_self, if_pos le_rfl]
      exact ⟨_, hmark.setSlot_single hk hi he ⟨hb2, hbn⟩ hbL hend (fun hd => absurd hd hfile)
        (fun _ => hbS) hkeep⟩
    | true =>
      rw [if_pos ⟨rfl, hb2⟩, withDir_of ⟨rfl, hb2⟩]
      -- the new directory exists before the entry refers to it
      obtain ⟨hnew, howners⟩ := h.newCluster ⟨hb2, hbn⟩ hbfree (x := fat32Eoc) le_rfl
        (dotEntries b parent) fun i hi => (dotEntries_slot b parent hi).1
      have hkb : k ≠ b := ne_of_mem_of_not_mem hk hbS
      have hdir : IsDir (newEntry name (if true then 0x10 else 0x20) b) := by
        rw [IsDir, hattr]
        decide
      have hend : ((v.setFat b fat32Eoc).setData b (dotEntries b parent)).next b = none := by
        rw [Vol.next, setData_fat, setFat_fat, update_self, if_pos le_rfl]
      have hdots : ((v.setFat b fat32Eoc).setData b (dotEntries b parent)).slot b 1 0 = dot := by
        rw [setData_slot_self _ b _ (by decide) 0 (by decide)]
        exact (dotEntries_slot b parent hi).2
      refine ⟨update L (.slot k i) [b], ?_⟩
      rw [setSlot_setData_comm v hkb]
      refine hnew.setSlot_single (.inr hk) hi he ⟨hb2, hbn⟩
        (fun o ho => hbL o ((howners o).1.mp ho)) hend (fun _ => ⟨.inl rfl, hdots⟩)
        (fun hd => absurd hdir hd) ?_
      rw [setData_slot_of_ne _ hkb]
      exact hkeep

theorem leak (h : Tidy g v S L) (isDir : Bool) (parent : ℕ) :
    ∃ L', Tidy g (v.finish isDir (v.blank g.clusters) parent) S L' := by
  unfold finish
  rcases v.blank_cases g.clusters with ⟨hzero, -⟩ | ⟨hb2, hbn, hbfree⟩
  · rw [hzero, if_neg (by omega)]
    exact ⟨_, h.clearLost le_rfl⟩
  · obtain ⟨hbS, hbL⟩ := h.not_mem_of_free hbfree
    have hmark := h.setFat_of_not_mem (by omega) hbS hbL fat32Eoc
    split
    · exact ⟨L, hmark.setData_of_not_mem hbS _⟩
    · exact ⟨L, hmark⟩

theorem extendLost (h : Tidy g v S L) (hb : 2 ≤ b ∧ b < g.clusters) (hfree : v.fat b = 0) :
    Tidy g (v.extended 0 b) S (update L .lost [b]) := by
  obtain ⟨hbS, hbL⟩ := h.not_mem_of_free hfree
  have hle := g.clusters_le
  have hnew := (h.setFat_of_not_mem (by omega) hbS hbL 0x0FFFFFFF).setData_of_not_mem hbS fun _ => 0
  rw [v.extended_comm (by omega)]
  refine hnew.setLost ?_ ?_ ?_
  · rw [follow, setFat_fat, update_self, if_neg (by unfold fat32Eoc; omega),
      start_of_ne (by omega)]
    refine .linked (.last ?_)
    rw [Vol.next, setData_fat, setFat_fat, update_self, if_pos (by decide)]
  · intro o ho _ y hy
    obtain rfl := mem_singleton.mp hy
    exact hbL o ((Owner.in_setData hbS _).mp ho)
  · intro y hy
    obtain rfl := mem_singleton.mp hy
    exact ⟨hb, hbS⟩

/-! ## Truncating -/

/-- **A chain is freed** and its entry is left without a chain. -/
theorem release (h : Tidy g v S L) (ho : (Owner.slot k i).In S v) (hfile : ¬ IsDir (v.slot k i))
    (he : getEntryCluster e = 0) (hkeep : v.slot k i 0 = dot → e 0 = dot) :
    Tidy g ((v.clear (L (.slot k i))).setSlot k i e) S (update L (.slot k i) []) := by
  -- the entry goes first, then nothing refers to the chain
  have hset := h.setSlot_none ho.1 ho.2.1 he hkeep
  have hother : ∀ x, x ∉ L (.slot k i) →
      ((v.clear (L (.slot k i))).setSlot k i e).next x = (v.setSlot k i e).next x := by
    intro x hx
    rw [Vol.next, Vol.next, setSlot_fat, setSlot_fat, v.clear_fat_of_not_mem hx]
  have hzero : 0 ∉ L (.slot k i) := by
    intro hmem
    have := (h.range _ ho 0 hmem).1
    omega
  refine hset.congr (fun k _ i _ j _ => rfl) ?_ ?_ ?_
  · intro o ho' x hx
    by_cases hne : o = .slot k i
    · subst hne
      rw [update_self] at hx
      cases hx
    · rw [update_of_ne hne] at hx
      exact hother x (h.family.disjoint o _ ((Owner.in_setSlot hne).mp ho') ho hne x hx)
  · intro x hx
    exact hother x fun hmem => h.files _ ho hfile x hmem hx
  · rw [follow, follow, setSlot_fat, setSlot_fat, v.clear_fat_of_not_mem hzero]

end Tidy

/-! ## The loops that write and free clusters -/

namespace Rep

variable {g : Geometry} {m : Prop} {d d' : Disk} {v : Vol} {W : Set ℕ} {c : ℕ}

theorem skipClusters_mem (h : Rep g m d v) (hW : ∀ x ∈ W, x < g.clusters ∧ v.follow x ∈ W)
    {n c' : ℕ} (hc : c ∈ W) (hrun : skipClusters g.part d n c = some c') : c' ∈ W := by
  induction n generalizing c with
  | zero =>
    cases hrun
    exact hc
  | succ n ih =>
    rw [skipClusters, h.getNextCluster_eq (hW c hc).1] at hrun
    split at hrun
    · cases hrun
    · exact ih (hW c hc).2 hrun

/-- **The loop of `fat32_write_file_bytes`** changes contents of clusters of such a set only. It
never extends the chain. -/
theorem writeLoop_rep (h : Rep g m d v) (hW : ∀ x ∈ W, x < g.clusters ∧ v.follow x ∈ W)
    (buf : Buf) (fuel size off total : ℕ) (hc : c ∈ W) :
    ∃ v', Rep g m (writeLoop g.part buf fuel d size c off total).1 v' ∧ v'.fat = v.fat ∧
      ∀ k, k ∉ W → v'.data k = v.data k := by
  induction fuel generalizing d v c size off total with
  | zero => exact ⟨v, h, rfl, fun _ _ => rfl⟩
  | succ fuel ih =>
    obtain ⟨hcn, hnext⟩ := hW c hc
    rw [writeLoop]
    split
    swap
    · exact ⟨v, h, rfl, fun _ _ => rfl⟩
    dsimp only
    rcases Nat.lt_or_ge c 2 with hc2 | hc2
    · -- a number below 2 cannot be read
      rw [readCluster_of_lt _ _ hc2, if_pos (by decide)]
      exact ⟨v, h, rfl, fun _ _ => rfl⟩
    · have hread := (h.readCluster_eq hc2 hcn fun _ => 0).1
      rw [if_neg (not_not.mpr hread)]
      generalize blit (readCluster g.part d c fun _ => 0).1 off (min (clusterSize - off) size)
        (fun k => buf (total + k)) = tmp
      obtain ⟨hok, hw⟩ := h.writeCluster_rep hc2 hcn tmp
      rw [if_neg (not_not.mpr hok)]
      have hrest : ∀ size' c' off' total', c' ∈ W → ∃ v',
          Rep g m (writeLoop g.part buf fuel (writeCluster g.part d c tmp).1 size' c' off' total').1
            v' ∧ v'.fat = v.fat ∧ ∀ k, k ∉ W → v'.data k = v.data k := by
        intro size' c' off' total' hc'
        obtain ⟨v', hv', hfat, hdata⟩ := ih hw hW size' off' total' hc'
        refine ⟨v', hv', hfat, ?_⟩
        intro k hk
        rw [hdata k hk, v.setData_data_of_ne (ne_of_mem_of_not_mem hc hk).symm]
      split
      · rw [hw.getNextCluster_eq hcn, if_neg (Nat.not_le.mpr (follow_lt _ c))]
        exact hrest _ _ _ _ hnext
      · exact hrest _ _ _ _ hc

/-- **The loop of `fat32_truncate_file`** frees the chain, in as many turns as it has clusters and
one that ends it. -/
theorem freeChain_eq (h : Rep g m d v) (hl : Linked v.next c l)
    (hrange : ∀ x ∈ l, 2 ≤ x ∧ x < g.clusters) :
    ∃ d', Rep g m d' (v.clear l) ∧
      ∀ fuel, freeChain g.part fuel d c = if l.length < fuel then some d' else none := by
  have hle := g.clusters_le
  induction l generalizing d v c with
  | nil => cases hl
  | cons a l ih =>
    obtain ⟨ha2, han⟩ := hrange a mem_cons_self
    have hset := h.fat32SetFatEntry_rep han 0
    have hnodup := (nodup_cons.mp hl.nodup).1
    have hturn : ∀ fuel, freeChain g.part (fuel + 1) d a =
        freeChain g.part fuel (fat32SetFatEntry g.part d a 0) (v.fat a) := by
      intro fuel
      rw [freeChain, if_pos ⟨ha2, by unfold fat32Eoc; omega⟩]
      rw [h.getFatEntry_eq han]
    cases hl with
    | last hn =>
      have hend : ¬ (2 ≤ v.fat a ∧ v.fat a < fat32Eoc) := by
        unfold Vol.next at hn
        split at hn
        · omega
        · cases hn
      refine ⟨fat32SetFatEntry g.part d a 0, ?_, fun fuel => ?_⟩
      · convert hset using 1
        refine Vol.ext ?_ rfl
        funext x
        rw [Vol.clear, Vol.setFat_fat, update_apply]
        simp [mask28]
      · rcases fuel with - | - | fuel
        · rfl
        · rw [hturn]
          rfl
        · rw [hturn, freeChain, if_neg hend, if_pos (by simp)]
    | @cons _ b _ hn ht =>
      have hb : v.fat a = b := by
        unfold Vol.next at hn
        split at hn
        · cases hn
        · exact Option.some.inj hn
      have ht' : Linked (v.setFat a (mask28 0)).next b l := by
        refine ht.congr fun x hx => ?_
        rw [Vol.next, Vol.next, Vol.setFat_fat, update_of_ne (ne_of_mem_of_not_mem hx hnodup)]
      obtain ⟨d', hrep, hrest⟩ := ih hset ht' fun x hx => hrange x (mem_cons_of_mem a hx)
      refine ⟨d', ?_, fun fuel => ?_⟩
      · convert hrep using 1
        refine Vol.ext ?_ rfl
        funext x
        rw [Vol.clear, Vol.clear, Vol.setFat_fat]
        by_cases hxa : x = a
        · simp [hxa, mask28]
        · simp [hxa]
      · cases fuel with
        | zero => rfl
        | succ fuel =>
          rw [hturn, hb, hrest]
          simp

theorem freeChain_rep (h : Rep g m d v) (hl : Linked v.next c l)
    (hrange : ∀ x ∈ l, 2 ≤ x ∧ x < g.clusters) {fuel : ℕ}
    (hrun : freeChain g.part fuel d c = some d') : Rep g m d' (v.clear l) := by
  obtain ⟨d1, hrep, heq⟩ := h.freeChain_eq hl hrange
  rw [heq] at hrun
  split at hrun
  · cases hrun
    exact hrep
  · cases hrun

end Rep

end CarrotOS.Fat32
