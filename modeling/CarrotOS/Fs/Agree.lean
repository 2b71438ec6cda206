import CarrotOS.Fs.Step

/-!
# The lookups of a path

`find_cluster_from_path` takes the first entry in use with the name of a component. `find_dir_entry`
converts the name in another way, goes on behind unused slots and passes over entries that have one
of the four lower attributes. `fat32_stat` compares as many bytes as the name has and is ended by an
entry without attributes. Each of them has a counterpart on volumes.
-/

namespace CarrotOS.Fat32

open Word List Vol

/-! ## `find_cluster_from_path` -/

/-- From the cluster `c` on the components lead to the directory that starts at `k`. -/
inductive Vol.Dirs (v : Vol) : ℕ → List (List UInt8) → ℕ → Prop
  | nil {c : ℕ} : Dirs v c [] c
  | cons {c i k : ℕ} {t : List UInt8} {ts : List (List UInt8)}
    (hscan : scanToken (v.data c) (t.take (direntNameMaxLength - 1)) = .hit i)
    (hdir : IsDir (v.slot c i)) (hne : getEntryCluster (v.slot c i) ≠ 0)
    (hrest : Dirs v (getEntryCluster (v.slot c i)) ts k) : Dirs v c (t :: ts) k

/-- The component `t` behind the directories `ts` is found in the slot `i` of the directory that
starts at `k`. -/
structure Vol.PathTo (root : ℕ) (v : Vol) (ts : List (List UInt8)) (t : List UInt8) (k i : ℕ) :
    Prop where
  comps : Components (ts ++ [t])
  dirs : v.Dirs root ts k
  found : scanToken (v.data k) (t.take (direntNameMaxLength - 1)) = .hit i

namespace Vol.Dirs

variable {g : Geometry} {m : Prop} {d : Disk} {v v' : Vol} {S : Set ℕ} {L : Owner → List ℕ}
  {c i k : ℕ} {t : List UInt8} {ts : List (List UInt8)}

theorem next_mem (h : Tidy g v S L) (hc : c ∈ S)
    (hscan : scanToken (v.data c) t = .hit i) (hdir : IsDir (v.slot c i))
    (hne : getEntryCluster (v.slot c i) ≠ 0) : getEntryCluster (v.slot c i) ∈ S :=
  h.cluster_mem (Tidy.in_of_scanToken hc hscan) hdir hne

theorem mem (hd : v.Dirs c ts k) (h : Tidy g v S L) (hc : c ∈ S) : k ∈ S := by
  induction hd with
  | nil => exact hc
  | cons hscan hdir hne _ ih => exact ih (next_mem h hc hscan hdir hne)

theorem congr (hd : v.Dirs c ts k) (h : Tidy g v S L) (hc : c ∈ S) (hsame : Vol.SameDirs S v v') :
    v'.Dirs c ts k := by
  induction hd with
  | nil => exact .nil
  | @cons c i k t ts hscan hdir hne _ ih =>
    obtain ⟨hbyte, hcluster⟩ := hsame c hc i (live_of_scanToken hscan).1
    have hrest := ih (next_mem h hc hscan hdir hne)
    rw [← hcluster hdir] at hrest hne
    refine .cons ((hsame.scanToken hc _).trans hscan) ?_ hne hrest
    rw [IsDir, hbyte 11 (by decide)]
    exact hdir

theorem find_append (hd : v.Dirs c ts k) (rest : List (List UInt8)) :
    v.find (cut ts ++ rest) c = v.find rest k := by
  induction hd with
  | nil => rfl
  | cons hscan _ _ _ ih =>
    rw [cut, map_cons, cons_append, v.find_of_hit hscan]
    exact ih

theorem readable_append (hd : v.Dirs c ts k) (h : Tidy g v S L) (hc : c ∈ S)
    (rest : List (List UInt8)) (hrest : v.Readable g.clusters rest k) :
    v.Readable g.clusters (cut ts ++ rest) c := by
  induction hd with
  | nil => exact hrest
  | cons hscan hdir hne _ ih =>
    refine ⟨(h.closed _ hc).1, ?_⟩
    intro j hj
    cases hscan.symm.trans hj
    exact ih (next_mem h hc hscan hdir hne) hrest

/-- **`find_cluster_from_path`** of the path of a directory. -/
theorem find_parent_of_readable (hd : v.Dirs g.root ts k) (hr : Rep g m d v)
    (hread : v.Readable g.clusters (cut ts) g.root) (hcomps : Components (ts ++ [t]))
    (junk : ℕ → Buf) :
    findClusterFromPath g.part junk d (parentPath (pathOf (ts ++ [t]))) = k := by
  have hfind := hd.find_append []
  rw [append_nil] at hfind
  rw [parentPath_pathOf hcomps.last.2]
  cases ts with
  | nil =>
    cases hd
    have hslash : v.Readable g.clusters (tokens [slash]) g.root := trivial
    exact hr.findClusterFromPath_eq (fun _ => hslash) junk
  | cons t' ts =>
    rw [if_neg (cons_ne_nil _ _)]
    have htokens := tokens_pathOf hcomps.init
    rw [hr.findClusterFromPath_eq (fun _ => by rw [htokens]; exact hread), resolve,
      if_pos (by rw [pathOf_cons]; rfl), htokens, hfind]
    rfl

section

variable (hd : v.Dirs g.root ts k) (hr : Rep g m d v) (h : Tidy g v S L)
include hd hr h

theorem find_parent (hcomps : Components (ts ++ [t])) (junk : ℕ → Buf) :
    findClusterFromPath g.part junk d (parentPath (pathOf (ts ++ [t]))) = k := by
  have hread := hd.readable_append h h.root_mem [] trivial
  rw [append_nil] at hread
  exact hd.find_parent_of_readable hr hread hcomps junk

/-- **`find_cluster_from_path`** of a path behind the directory. -/
theorem find_snoc (hcomps : Components (ts ++ [t])) (junk : ℕ → Buf) :
    findClusterFromPath g.part junk d (pathOf (ts ++ [t])) =
      (v.find [t.take (direntNameMaxLength - 1)] k).getD 0 := by
  have hk := hd.mem h h.root_mem
  have htokens := tokens_pathOf_snoc hcomps
  have hread := hd.readable_append h h.root_mem
    [t.take (direntNameMaxLength - 1)] ⟨(h.closed k hk).1, fun _ _ => trivial⟩
  have hhead := pathOf_snoc_head ts t
  rw [hr.findClusterFromPath_eq (fun _ => by rw [htokens]; exact hread), resolve,
    if_pos hhead, htokens, hd.find_append]

end

end Vol.Dirs

/-- An entry with the other conversion of the name begins with the same byte. -/
theorem Vol.PathTo.first {root k i : ℕ} {v : Vol} {t : List UInt8} {ts : List (List UInt8)}
    (hp : v.PathTo root ts t k i) {e : Buf} (he : cells 11 e = formatName83 t) :
    e 0 = v.slot k i 0 := by
  have hname := (live_of_scanToken hp.found).2.2
  rw [matchFormat_take (by decide)] at hname
  have hhead : some (e 0) = some (v.slot k i 0) :=
    (congrArg head? he).trans ((matchFormat_head t).symm.trans (congrArg head? hname).symm)
  exact Option.some.inj hhead

theorem Vol.PathTo.find {g : Geometry} {m : Prop} {d : Disk} {v : Vol} {S : Set ℕ}
    {L : Owner → List ℕ} {k i : ℕ} {t : List UInt8} {ts : List (List UInt8)}
    (hp : v.PathTo g.root ts t k i) (hr : Rep g m d v) (h : Tidy g v S L) (junk : ℕ → Buf) :
    findClusterFromPath g.part junk d (pathOf (ts ++ [t])) = getEntryCluster (v.slot k i) := by
  rw [hp.dirs.find_snoc hr h hp.comps, v.find_of_hit hp.found]
  rfl

/-! ## `find_dir_entry` -/

/-- The slots that `find_dir_entry` takes, in the order in which it meets them: in each of the eight
sectors of a cluster it goes on as long as `go`. -/
def hitsOf (go hit : ℕ → Bool) : List ℕ :=
  (range 8).flatMap fun s =>
    (((range 16).takeWhile fun e => go (16 * s + e)).filter fun e => hit (16 * s + e)).map
      (16 * s + ·)

def Vol.dirHits (v : Vol) (c : ℕ) (name : List UInt8) : List ℕ :=
  hitsOf (fun i => v.slot c i 0 != 0) fun i =>
    v.slot c i 11 &&& 0x0F == 0 && cells 11 (v.slot c i) == name

/-- How `find_dir_entry` ends: it copies the entry in a slot, returns false since a directory was
not found, or returns true without having found the last component. -/
inductive EntrySearch where
  | found (k i : ℕ)
  | noDirectory
  | noEntry

/-- `find_dir_entry` of the component `t` behind the directories. -/
def Vol.entryOf (v : Vol) (t : List UInt8) : List (List UInt8) → ℕ → EntrySearch
  | [], c =>
    match (v.dirHits c (formatName83 t)).head? with
    | some i => .found c i
    | none => .noEntry
  | t' :: ts, c =>
    match (v.dirHits c (formatName83 t')).getLast? with
    | some i => entryOf v t ts (getEntryCluster (v.slot c i))
    | none => .noDirectory

/-- The components that `find_dir_entry` goes through are directories in use with a cluster. -/
def Vol.DirsOnly (v : Vol) : List (List UInt8) → ℕ → Prop
  | [], _ => True
  | t :: ts, c => ∀ i, (v.dirHits c (formatName83 t)).getLast? = some i →
      Live (v.slot c i) ∧ IsSubdir (v.slot c i) ∧ DirsOnly v ts (getEntryCluster (v.slot c i))

/-- What `get_file_size` returns: the size in the entry that was copied or in uninitialised memory,
or -1. -/
def EntrySearch.size (v : Vol) (junk : Buf) : EntrySearch → ℕ
  | .found k i => fileSize (v.slot k i)
  | .noDirectory => 2 ^ 64 - 1
  | .noEntry => fileSize junk

section Hits

variable {go hit go' hit' : ℕ → Bool} {i : ℕ}

theorem filter_takeWhile_congr {l : List ℕ} (h : ∀ e ∈ l, go e = go' e ∧ hit e = hit' e) :
    (l.takeWhile go).filter hit = (l.takeWhile go').filter hit' := by
  induction l with
  | nil => rfl
  | cons e l ih =>
    obtain ⟨hgo, hhit⟩ := h e mem_cons_self
    have hrest := ih fun e' he' => h e' (mem_cons_of_mem e he')
    rw [takeWhile_cons, takeWhile_cons, hgo]
    split
    · rw [filter_cons, filter_cons, hhit, hrest]
    · rfl

theorem hitsOf_congr (h : ∀ i < slotsPerCluster, go i = go' i ∧ hit i = hit' i) :
    hitsOf go hit = hitsOf go' hit' := by
  refine flatMap_congr fun s hs => congrArg (map _) (filter_takeWhile_congr fun e he => h _ ?_)
  rw [mem_range] at hs he
  rw [slotsPerCluster_eq]
  omega

theorem mem_hitsOf (h : i ∈ hitsOf go hit) :
    i < slotsPerCluster ∧ go i = true ∧ hit i = true := by
  obtain ⟨s, hs, hi⟩ := mem_flatMap.mp h
  obtain ⟨e, he, rfl⟩ := mem_map.mp hi
  obtain ⟨he, hhit⟩ := mem_filter.mp he
  have hlt := mem_range.mp ((List.takeWhile_prefix _).subset he)
  rw [mem_range] at hs
  refine ⟨?_, ?_, hhit⟩
  · rw [slotsPerCluster_eq]
    omega
  · have hgo := mem_takeWhile_imp he
    exact hgo

end Hits

namespace Rep

variable {g : Geometry} {m : Prop} {d : Disk} {v v' : Vol} {S : Set ℕ} {L : Owner → List ℕ}
  {c i k : ℕ} {t name : List UInt8} {ts : List (List UInt8)}

theorem clusterToLba_eq (h : Rep g m d v) (hc2 : 2 ≤ c) (hc : c < g.clusters) :
    clusterToLba g.part d c = g.reserved + g.numFats * g.fatSize + 8 * (c - 2) := by
  have hfits := g.fits
  have hle := g.clusters_le
  unfold Geometry.clusters at hc hle
  have hfirst : firstDataSector g.part d = g.reserved + g.numFats * g.fatSize := by
    rw [firstDataSector, h.onDisk.reservedSectorCount, h.onDisk.numFats, h.onDisk.fatSize32]
    exact u32_of_lt (by omega)
  have hsub : u32 (c + 2 ^ 32 - 2) = c - 2 := by
    rw [u32, show c + 2 ^ 32 - 2 = c - 2 + 2 ^ 32 by omega, Nat.add_mod_right]
    exact Nat.mod_eq_of_lt (by omega)
  rw [clusterToLba, hfirst, hsub, h.onDisk.sectorsPerCluster, u32_of_lt (by omega)]
  omega

theorem sector_slot (h : Rep g m d v) (hc2 : 2 ≤ c) (hc : c < g.clusters) {s e : ℕ} (hs : s < 8)
    (he : e < 16) : SameEntry (slot (sector d (g.dataStart + 8 * (c - 2) + s)) e)
      (v.slot c (16 * s + e)) := by
  intro j hj
  rw [Vol.slot, slot, slot, sector, ← h.vol, vol_data d hc2 hc (by unfold clusterSize; omega)]
  congr 1
  unfold Geometry.dataPos sectorSize
  omega

/-- The slots of a cluster that `find_dir_entry` takes. -/
theorem dirMatches_eq (h : Rep g m d v) (hc2 : 2 ≤ c) (hc : c < g.clusters) (name : List UInt8) :
    dirMatches g.part d c name =
      (v.dirHits c name).map fun i => (g.dataStart + 8 * (c - 2) + i / 16, i % 16) := by
  have hfits := g.dataStart_fits
  rw [dirMatches, dirHits, hitsOf, h.onDisk.sectorsPerCluster, map_flatMap]
  refine flatMap_congr fun s hs => ?_
  have hs := mem_range.mp hs
  have hsectorId : u32 (getPartitionLba g.part d + clusterToLba g.part d c + s) =
      g.dataStart + 8 * (c - 2) + s := by
    rw [h.onDisk.lba, h.clusterToLba_eq hc2 hc]
    unfold Geometry.dataStart Geometry.fatStart at hfits ⊢
    rw [u32_of_lt (by omega)]
    omega
  dsimp only
  rw [hsectorId, map_map]
  refine (congrArg (map _) (filter_takeWhile_congr fun e he => ?_)).trans
    (map_congr_left fun e he => ?_)
  · have hsame := h.sector_slot hc2 hc hs (mem_range.mp he)
    rw [show slotFirst _ e = v.slot c (16 * s + e) 0 from hsame 0 (by decide),
      show slotAttr _ e = v.slot c (16 * s + e) 11 from hsame 11 (by decide),
      show slotName _ e = cells 11 (v.slot c (16 * s + e)) from hsame.name]
    exact ⟨rfl, rfl⟩
  · have he := mem_range.mp ((List.takeWhile_prefix _).subset (mem_filter.mp he).1)
    exact Prod.ext (by dsimp only [Function.comp]; omega) (by dsimp only [Function.comp]; omega)

theorem dirHits_slot (h : Rep g m d v) (hc2 : 2 ≤ c) (hc : c < g.clusters)
    (hi : i < slotsPerCluster) :
    SameEntry (slot (sector d (g.dataStart + 8 * (c - 2) + i / 16)) (i % 16)) (v.slot c i) := by
  rw [slotsPerCluster_eq] at hi
  have hsame := h.sector_slot hc2 hc (s := i / 16) (e := i % 16) (by omega) (by omega)
  rwa [show 16 * (i / 16) + i % 16 = i by omega] at hsame

/-- **`get_file_size`** of a path on which `find_dir_entry` goes through directories. -/
theorem getFileSize_eq (hr : Rep g m d v) (h : Tidy g v S L) (hcomps : Components (ts ++ [t]))
    (honly : v.DirsOnly ts g.root) (junk : Buf) :
    getFileSize g.part junk d (pathOf (ts ++ [t])) = (v.entryOf t ts g.root).size v junk := by
  have hhead := pathOf_snoc_head ts t
  have hloop : ∀ c ∈ S, v.DirsOnly ts c →
      (let r := findDirEntryLoop g.part d (ts.map (·, true) ++ [(t, false)]) c junk
      if r.1 then fileSize r.2 else 2 ^ 64 - 1) = (v.entryOf t ts c).size v junk := by
    clear honly hcomps hhead
    intro c hc honly
    induction ts generalizing c with
    | nil =>
      obtain ⟨hc2, hcn⟩ := (h.closed c hc).1
      rw [map_nil, nil_append, findDirEntryLoop, hr.dirMatches_eq hc2 hcn, entryOf, head?_map]
      cases hhit : (v.dirHits c (formatName83 t)).head? with
      | none => rfl
      | some i =>
        have hi := (mem_hitsOf (mem_of_mem_head? hhit)).1
        exact (hr.dirHits_slot hc2 hcn hi).size
    | cons t' ts ih =>
      obtain ⟨hc2, hcn⟩ := (h.closed c hc).1
      rw [map_cons, cons_append, findDirEntryLoop, hr.dirMatches_eq hc2 hcn, entryOf, getLast?_map]
      cases hhit : (v.dirHits c (formatName83 t')).getLast? with
      | none => rfl
      | some i =>
        have hi := (mem_hitsOf (mem_of_getLast? hhit)).1
        obtain ⟨hlive, hsub, hrest⟩ := honly i hhit
        rw [Option.map_some]
        dsimp only
        rw [(hr.dirHits_slot hc2 hcn hi).cluster]
        exact ih _ (h.cluster_mem ⟨hc, hi, hlive⟩ hsub.1 hsub.2) hrest
  rw [getFileSize, findDirEntry, if_pos hhead, segments_pathOf hcomps.init hcomps.last,
    hr.onDisk.rootCluster]
  exact hloop g.root h.root_mem honly

end Rep

/-- `find_dir_entry` finds the same slot after changes of the clusters and sizes of files. -/
theorem Tidy.entryOf_congr {g : Geometry} {v v' : Vol} {S : Set ℕ} {L : Owner → List ℕ} {c : ℕ}
    {t : List UInt8} {ts : List (List UInt8)} (h : Tidy g v S L) (hsame : Vol.SameDirs S v v')
    (hc : c ∈ S) (honly : v.DirsOnly ts c) :
    v'.entryOf t ts c = v.entryOf t ts c ∧ v'.DirsOnly ts c := by
  have hhits : ∀ x ∈ S, ∀ name, v'.dirHits x name = v.dirHits x name := by
    intro x hx name
    refine hitsOf_congr fun i hi => ?_
    have hbyte := (hsame x hx i hi).1
    rw [hbyte 0 (by decide), hbyte 11 (by decide), cells_congr fun j hj => hbyte j (by omega)]
    exact ⟨rfl, rfl⟩
  induction ts generalizing c with
  | nil => exact ⟨by rw [entryOf, entryOf, hhits c hc], trivial⟩
  | cons t' ts ih =>
    rw [entryOf, entryOf, DirsOnly, hhits c hc]
    cases hhit : (v.dirHits c (formatName83 t')).getLast? with
    | none => exact ⟨rfl, nofun⟩
    | some i =>
      have hi := (mem_hitsOf (mem_of_getLast? hhit)).1
      obtain ⟨hlive, hsub, hrest⟩ := honly i hhit
      obtain ⟨hbyte, hcluster⟩ := hsame c hc i hi
      obtain ⟨hslot, honly'⟩ := ih (h.cluster_mem ⟨hc, hi, hlive⟩ hsub.1 hsub.2) hrest
      dsimp only
      rw [hcluster hsub.1]
      refine ⟨hslot, fun i' hi' => ?_⟩
      obtain rfl := Option.some.inj hi'
      rw [Live, IsSubdir, IsDir, hbyte 0 (by decide), hbyte 11 (by decide), hcluster hsub.1]
      exact ⟨hlive, hsub, honly'⟩

theorem Tidy.mem_of_entryOf {g : Geometry} {v : Vol} {S : Set ℕ} {L : Owner → List ℕ} {c k i : ℕ}
    {t : List UInt8} {ts : List (List UInt8)} (h : Tidy g v S L) (hc : c ∈ S)
    (honly : v.DirsOnly ts c) (hfound : v.entryOf t ts c = .found k i) :
    k ∈ S ∧ i < slotsPerCluster := by
  induction ts generalizing c with
  | nil =>
    rw [entryOf] at hfound
    split at hfound
    · rename_i i' hhit
      cases hfound
      exact ⟨hc, (mem_hitsOf (mem_of_mem_head? hhit)).1⟩
    · cases hfound
  | cons t' ts ih =>
    rw [entryOf] at hfound
    split at hfound
    · rename_i i' hhit
      obtain ⟨hlive, hsub, hdirs⟩ := honly i' hhit
      have hlt := (mem_hitsOf (mem_of_getLast? hhit)).1
      exact ih (h.cluster_mem ⟨hc, hlt, hlive⟩ hsub.1 hsub.2) hdirs hfound
    · cases hfound

/-! ## `fat32_stat` -/

section Stat

variable {g : Geometry} {m : Prop} {d d' : Disk} {v : Vol} {S : Set ℕ} {L : Owner → List ℕ}
  {j k i fuel newSize : ℕ} {t : List UInt8} {ts : List (List UInt8)} {st : DirentStat}

theorem hasStatName_of_name {e : Buf} (hlen : t.length ≤ 11) (hname : cells 11 e = formatName83 t)
    (hdeleted : e 11 ≠ 0xE5) (hlong : e 11 ≠ 0x0F) : hasStatName t e = true := by
  have hcells : cells t.length e = (cells 11 e).take t.length := by
    rw [cells, cells, ← map_take, take_range, Nat.min_eq_left hlen]
  rw [hasStatName, Bool.and_eq_true, Bool.and_eq_true, bne_iff_ne, bne_iff_ne, beq_iff_eq, hcells,
    hname]
  exact ⟨⟨hdeleted, hlong⟩, rfl⟩

section

variable (hr : Rep g m d v) (hk : 2 ≤ k ∧ k < g.clusters) (hcomps : Components (ts ++ [t]))
  (hfind : ∀ junk, findClusterFromPath g.part junk d (parentPath (pathOf (ts ++ [t]))) = k)
include hcomps hfind

theorem fat32Stat_eq (junk : ℕ → Buf) :
    fat32Stat g.part fuel junk d (pathOf (ts ++ [t])) =
      statLoop g.part (junk 0) d t k fuel k (junk 1) := by
  have hhead := pathOf_snoc_head ts t
  rw [fat32Stat, if_neg (not_not.mpr hhead), if_neg hcomps.pathOf_ne]
  dsimp only
  rw [hfind, lastName_pathOf hcomps.last.2]

include hr hk

theorem fat32Stat_hit (hlen : t.length ≤ 11) (hscan : scanStat t (v.data k) = .hit j)
    (hfuel : 0 < fuel) (junk : ℕ → Buf) :
    fat32Stat g.part fuel junk d (pathOf (ts ++ [t])) =
      some ⟨t, if v.slot k j 11 = 0x10 then .directory else .file, k⟩ := by
  obtain ⟨fuel, rfl⟩ := Nat.exists_eq_succ_of_ne_zero hfuel.ne'
  have hsame := hr.readCluster_same hk.1 hk.2 (junk 1)
  rw [fat32Stat_eq hcomps hfind, statLoop, statScan_eq hlen, hsame.scanStat hlen, hscan]
  dsimp only
  rw [show slotAttr (readCluster g.part d k (junk 1)).1 j = v.slot k j 11 from
    hsame.slot (scanStat_hit hscan).1 11 (by decide), take_of_length_le hlen]

/-- What `fat32_stat` finds whatever is in uninitialised memory: the name has at most 11 bytes. -/
theorem fat32Stat_longNames
    (hst : fat32Stat g.part fuel (fun _ => longNames) d (pathOf (ts ++ [t])) = some st) :
    st = ⟨[], .notFound, 0⟩ ∨ t.length ≤ 11 ∧ st.name = t ∧ st.parentClusterId = k ∧
      (scanStat t (v.data k) = .exhausted ∨ ∃ j, scanStat t (v.data k) = .hit j ∧
        st.type = if v.slot k j 11 = 0x10 then .directory else .file) := by
  rw [fat32Stat_eq hcomps hfind] at hst
  refine (statLoop_cases hst).imp_right fun ⟨htype, hname, hparent⟩ => ?_
  have hlen : t.length ≤ 11 := by
    by_contra hlong
    exact htype (statLoop_longNames (by omega) hst)
  rw [take_of_length_le hlen] at hname
  refine ⟨hlen, hname, hparent, ?_⟩
  have hsame := hr.readCluster_same hk.1 hk.2 longNames
  cases fuel with
  | zero => cases hst
  | succ fuel =>
    rw [statLoop, statScan_eq hlen, hsame.scanStat hlen] at hst
    cases hscan : scanStat t (v.data k) with
    | stopped =>
      rw [hscan] at hst
      cases hst
      exact absurd rfl htype
    | exhausted => exact .inl rfl
    | hit j =>
      rw [hscan] at hst
      cases hst
      refine .inr ⟨j, rfl, ?_⟩
      dsimp only
      rw [show slotAttr (readCluster g.part d k longNames).1 j = v.slot k j 11 from
        hsame.slot (scanStat_hit hscan).1 11 (by decide)]

/-- **`set_file_size`** changes the entry of a file that `fat32_stat` finds. -/
theorem setFileSize_hit (env : FatEnv) (hlen : t.length ≤ 11)
    (hstat : scanStat t (v.data k) = .hit j)
    (hentry : scanEntry 0x20 (formatName83 t) (v.data k) = .hit i) (hfuel : 0 < env.fuel)
    (newSize : ℕ) :
    ∃ d', setFileSize g.part env d (pathOf (ts ++ [t])) newSize = some d' ∧
      Rep g m d' (v.setSlot k i (withSize newSize (v.slot k i))) := by
  have hsame := hr.readCluster_same hk.1 hk.2 (env.junk 1 0)
  have hi := (scanEntry_hit hentry).1
  have hrep := hr.writeSlot_rep hk.1 hk.2 hsame i
    (withSize newSize (slot (readCluster g.part d k (env.junk 1 0)).1 i))
  rw [v.setSlot_congr ((hsame.slot hi).withSize newSize)] at hrep
  refine ⟨_, ?_, hrep⟩
  rw [setFileSize, fat32Stat_hit hr hk hcomps hfind hlen hstat hfuel, Option.bind_some]
  obtain ⟨n, hn⟩ := Nat.exists_eq_succ_of_ne_zero hfuel.ne'
  rw [hn, editEntry, if_neg (show ¬ k < 2 by omega)]
  dsimp only
  rw [hsame.scanEntry, hentry]
  rfl

omit hk in
/-- Whatever is in uninitialised memory, `set_file_size` changes no other entry than one with the
name that `fat32_stat` finds. -/
theorem setFileSize_longNames (h : Tidy g v S L) (hkS : k ∈ S)
    (hrun : setFileSize g.part ⟨fuel, fun _ _ => longNames⟩ d (pathOf (ts ++ [t]))
    newSize = some d') :
    d' = d ∨ ∃ p : ℕ × ℕ, t.length ≤ 11 ∧
      (scanStat t (v.data k) = .exhausted ∨ ∃ j, scanStat t (v.data k) = .hit j) ∧
      v.Search (scanEntry 0x20 (formatName83 t)) k (.at p.1 p.2) ∧
      Rep g m d' (v.setSlot p.1 p.2 (withSize newSize (v.slot p.1 p.2))) := by
  obtain ⟨st, hst, hedit⟩ := Option.bind_eq_some_iff.mp hrun
  obtain ⟨⟨d1, w⟩, hwalk, rfl⟩ := Option.map_eq_some_iff.mp hedit
  rcases fat32Stat_longNames hr (h.closed k hkS).1 hcomps hfind hst with
    rfl | ⟨hlen, hname, hparent, hscan⟩
  · -- the walk starts at cluster 0
    cases fuel with
    | zero => cases hwalk
    | succ fuel => exact .inl (Prod.mk.inj (Option.some.inj hwalk)).1.symm
  · rw [hname, hparent] at hwalk
    rcases editEntry_spec hr h.closed (fun e e' he => he.withSize newSize) hkS hwalk with
      ⟨k', i', hsearch, -, hrep⟩ | ⟨-, -, -, rfl⟩ | ⟨-, -, -, rfl⟩
    · exact .inr ⟨(k', i'), hlen, hscan.imp_right fun ⟨j, hj, _⟩ => ⟨j, hj⟩, hsearch, hrep⟩
    · exact .inl rfl
    · exact .inl rfl

end

end Stat

end CarrotOS.Fat32
