import CarrotOS.Fs.Content
import CarrotOS.Fs.Dirent

/-!
# Deleting by path

`delete_dirent` asks `stat_dirent` for the type of a path and calls `fat32_rmdir_entry` for files
and for directories. That function refuses files, does not look whether a directory is empty, and
frees no cluster. What can be as it should is only the refusal of a directory that has entries.

A path leads to an entry if its components are the names of entries in use, in any cluster of the
directories on the way. The lookups of the code read fewer entries, but what they find is on that
way if names are unique.
-/

namespace CarrotOS.Fat32

open Word List Option

variable {path : List UInt8} {c part : ℕ} {s : ℕ × ℕ}

/-! ## Paths to entries -/

/-- A component of at most eight bytes, or of eight and three around a dot. -/
def Name83 (t : List UInt8) : Prop :=
  (t.takeWhile (· ≠ dot)).length ≤ 8 ∧ ((t.dropWhile (· ≠ dot)).drop 1).length ≤ 3

/-- The absolute path with the given components, of which there may be none. -/
def pathTo (comps : List (List UInt8)) : List UInt8 :=
  if comps = [] then [slash] else pathOf comps

/-- The components lead from the directory with the cluster `c` to the entry in the slot `s`. -/
inductive Vol.EntryAt (v : Vol) : ℕ → List (List UInt8) → ℕ × ℕ → Prop
  | last {c : ℕ} {t : List UInt8} {s : ℕ × ℕ} (h : v.Holds c s)
    (hname : v.nameAt s = formatName83 t) : EntryAt v c [t] s
  | step {c : ℕ} {t : List UInt8} {ts : List (List UInt8)} {s s' : ℕ × ℕ} (h : v.Holds c s)
    (hname : v.nameAt s = formatName83 t) (hdir : IsSubdir (v.slot s.1 s.2))
    (hrest : EntryAt v (getEntryCluster (v.slot s.1 s.2)) ts s') : EntryAt v c (t :: ts) s'

/-- The chain of the path with the given components. A directory has a cluster. The root directory
has no entry that could be removed, so that it counts only if there is something in it. -/
inductive Vol.Denotes (root : ℕ) (v : Vol) : List (List UInt8) → Owner → Prop
  | root (h : ∃ s, v.Holds root s) : Denotes root v [] .root
  | entry {comps : List (List UInt8)} {k i : ℕ} (h : v.EntryAt root comps (k, i))
    (hdir : IsDir (v.slot k i) → getEntryCluster (v.slot k i) ≠ 0) :
    Denotes root v comps (.slot k i)

def Owner.Reaches (root : ℕ) (v : Vol) (o : Owner) (c : ℕ) : Prop :=
  ∃ a, o.head root v = some a ∧ LinkTable.Reaches v.next a c

def Owner.HasEntries (root : ℕ) (v : Vol) (o : Owner) : Prop :=
  o.Dir v ∧ ∃ a s, o.head root v = some a ∧ v.Holds a s

section Paths

variable {g : Geometry} {m : Prop} {d : Disk} {v : Vol} {S : Set ℕ}
  {L : Owner → List ℕ} {c root : ℕ} {t : List UInt8} {ts comps : List (List UInt8)} {s : ℕ × ℕ}

theorem Name83.shortBase (h : Name83 t) : ShortBase t := fun _ => h.1

theorem Vol.EntryAt.ne_nil (h : v.EntryAt c comps s) : comps ≠ [] := by
  cases h <;> exact cons_ne_nil _ _

theorem Vol.EntryAt.parent (h : v.EntryAt c comps s) :
    comps.dropLast = [] ∨ ∃ s', v.EntryAt c comps.dropLast s' := by
  induction h with
  | last _ _ => exact .inl rfl
  | @step c t ts s _ h hname hdir hrest ih =>
    rw [dropLast_cons_of_ne_nil hrest.ne_nil]
    rcases ih with hnil | ⟨s', hs'⟩
    · rw [hnil]
      exact .inr ⟨s, .last h hname⟩
    · exact .inr ⟨s', .step h hname hdir hs'⟩

theorem Vol.UniqueNames.eq_of_scanToken (hu : v.UniqueNames root) (hc : v.InTree root c)
    (hs : v.Holds c s) (hname : v.nameAt s = formatName83 t) (ht : Name83 t) {i : ℕ}
    (hscan : scanToken (v.data c) (t.take (direntNameMaxLength - 1)) = .hit i) : s = (c, i) := by
  obtain ⟨hi, hlive, hmatch⟩ := live_of_scanToken hscan
  rw [matchFormat_take (by decide), matchFormat_eq ht.shortBase] at hmatch
  exact hu c hc s (c, i) hs ⟨.refl, hi, hlive⟩ (hname.trans hmatch.symm)

/-- **What the code finds on the way to an entry** is on that way, if names are unique. -/
theorem Vol.EntryAt.leads (h : v.EntryAt c comps s) (hu : v.UniqueNames root) (hc : v.InTree root c)
    (hshort : ∀ t ∈ comps, Name83 t) :
    v.Leads (fun _ => True) (cut comps) c := by
  induction h with
  | last h hname =>
    intro i _
    trivial
  | @step c t ts s s' h hname hdir hrest ih =>
    intro i hscan
    obtain rfl := hu.eq_of_scanToken hc h hname (hshort t mem_cons_self) hscan
    rw [if_neg (by simpa using hrest.ne_nil)]
    refine ⟨hdir.1, hdir.2, ih (.sub hc h.2.1 h.2.2 hdir.1 hdir.2) ?_⟩
    exact fun t' ht' => hshort t' (mem_cons_of_mem t ht')

theorem tokens_pathTo (h : Components comps) :
    tokens (pathTo comps) = cut comps := by
  unfold pathTo
  split
  · rename_i hnil
    subst hnil
    rfl
  · exact tokens_pathOf h

theorem pathTo_head (comps : List (List UInt8)) : (pathTo comps).head? = some slash := by
  cases comps <;> rfl

theorem Tidy.find_walkable (h : Tidy g v S L) (hr : Rep g m d v)
    (hlead : v.Leads (fun _ => True) (tokens path) g.root) (junk : ℕ → Buf) :
    ∃ W, v.Closed g.clusters W ∧
      (findClusterFromPath g.part junk d path = 0 ∨
      findClusterFromPath g.part junk d path ∈ W) := by
  obtain ⟨hread, hcases⟩ := h.find_cases h.root_mem hlead
  have hclosed : ∀ o : Owner, o.In S v → v.Closed g.clusters {x | x ∈ L o} :=
    fun o ho x hx => ⟨h.range o ho x hx, fun y hy => h.next_mem ho hx hy⟩
  rw [hr.findClusterFromPath_eq (fun _ => hread), Vol.resolve]
  split
  · rcases hcases with hnone | ⟨-, hroot⟩ | ⟨k, i, ho, -, hsome⟩
    · rw [hnone]
      exact ⟨_, h.closed, .inl rfl⟩
    · rw [hroot]
      exact ⟨_, h.closed, .inr h.root_mem⟩
    · rw [hsome, getD_some]
      refine ⟨_, hclosed _ ho, ?_⟩
      by_cases hzero : getEntryCluster (v.slot k i) = 0
      · exact .inl hzero
      · exact .inr (h.linked_slot ho hzero).mem_self
  · exact ⟨_, h.closed, .inl rfl⟩

end Paths

/-! ## The path on the partition -/

def withByte (path : List UInt8) (byte : UInt8) : List UInt8 :=
  path ++ if byte = 0 then [] else [byte]

/-- The partition is mounted at `/`, and no mount point is closer to the path. -/
def Vfs.AtRoot {σ : Type} (vfs : Vfs σ) (device : ℕ) (path : List UInt8) : Prop :=
  ∃ id mp, Routed vfs.dests path id ∧ vfs.mountGlobal id = some mp ∧ mp.dest = [slash] ∧
    mp.part = device

section Child

variable {σ : Type} {vfs : Vfs σ} {device : ℕ} {path : List UInt8} {byte : UInt8}

theorem withByte_head (hhead : path.head? = some slash) :
    (withByte path byte).head? = some slash := by
  cases path with
  | nil => cases hhead
  | cons c rest => exact hhead

theorem childPath_eq (h : Vfs.AtRoot vfs device path) (hhead : path.head? = some slash)
    (byte : UInt8) :
    childPath vfs device path byte =
      if path.length + 1 < maxPath then some (withByte path byte) else none := by
  obtain ⟨id, mp, hrouted, hmp, hdest, hpart⟩ := h
  have hne : path ≠ [] := by
    rintro rfl
    cases hhead
  have hchild : childString (vfs.getMountDeepLevel id) path byte = withByte path byte := by
    cases path with
    | nil => cases hhead
    | cons c rest =>
      cases hhead
      rw [Vfs.getMountDeepLevel, hmp]
      simp [childString, walkForward, hdest, withByte, u64]
  rw [childPath]
  split
  · rename_i hlen
    rw [(findMountByPath_eq_some_iff hne).mpr ⟨hlen, hrouted⟩]
    simp [hmp, hpart, hchild]
  · rename_i hlen
    cases hfind : vfs.findMountByPath path with
    | none => rfl
    | some r => exact absurd ((findMountByPath_eq_some_iff hne).mp hfind).1 hlen

/-- The parent of a path with a byte behind it: that of the path, or the path itself if the byte is
a slash. -/
theorem parentPath_withByte {comps : List (List UInt8)} (h : Components comps) (byte : UInt8) :
    parentPath (withByte (pathTo comps) byte) = pathTo comps ∨
      parentPath (withByte (pathTo comps) byte) = pathTo comps.dropLast := by
  by_cases hslash : byte = slash
  · left
    subst hslash
    have hne : pathTo comps ≠ [] := by
      intro hnil
      have hhead := pathTo_head comps
      rw [hnil] at hhead
      cases hhead
    rw [withByte, if_neg (by decide), parentPath, lastSlash_append (by simp), take_left,
      if_neg hne]
  · right
    -- the byte, if there is one, belongs to the last component
    rcases eq_nil_or_concat comps with rfl | ⟨ts, t, rfl⟩
    · by_cases hzero : byte = 0
      · subst hzero
        rfl
      · have hchild : withByte (pathTo []) byte = pathOf ([] ++ [[byte]]) := by
          rw [withByte, if_neg hzero]
          rfl
        rw [hchild, parentPath_pathOf (by simpa using Ne.symm hslash)]
        rfl
    · rw [concat_eq_append] at h ⊢
      have ht : slash ∉ t := (h t (by simp)).2
      have hchild : withByte (pathTo (ts ++ [t])) byte =
          pathOf (ts ++ [t ++ if byte = 0 then [] else [byte]]) := by
        rw [withByte, pathTo, if_neg (by simp), pathOf_snoc, pathOf_snoc, append_assoc,
          cons_append]
      have hlast : slash ∉ t ++ if byte = 0 then [] else [byte] := by
        rw [mem_append, not_or]
        refine ⟨ht, ?_⟩
        split
        · exact not_mem_nil
        · simpa using Ne.symm hslash
      rw [hchild, parentPath_pathOf hlast, dropLast_concat]
      rfl

end Child

/-! ## `fat32_rmdir_entry` -/

/-- `fat32_stat` returns, on the path in its own call. -/
def Stats (part : ℕ) (junk : ℕ → Buf) (d : Disk) (path : List UInt8) (st : DirentStat) : Prop :=
  ∃ fuel, fat32Stat part fuel junk d path = some st

/-- `fat32_rmdir_entry` returns an error: the path is `/`, or `fat32_stat` reports no directory, or
the walk meets an unused slot before the entry of a directory with the name. -/
def Declines (g : Geometry) (junk : ℕ → Buf) (d : Disk) (path : List UInt8) : Prop :=
  path = [slash] ∨ ∃ st, Stats g.part junk d path st ∧
    (st.type ≠ .directory ∨ 2 ≤ st.parentClusterId ∧
    ∃ z, (vol g d).Search (scanEntry 0x10 (formatName83 st.name)) st.parentClusterId (.stopped z))

section Rmdir

variable {g : Geometry} {m : Prop} {d d' : Disk} {v : Vol} {W : Set ℕ} {path name : List UInt8}
  {env : FatEnv} {junk : ℕ → Buf} {c z fuel fuel' : ℕ} {st : DirentStat} {r : ℤ}

theorem statLoop_mono {parent cluster : ℕ} {junk buf : Buf}
    (h : statLoop part junk d name parent fuel cluster buf = some st) (hle : fuel ≤ fuel') :
    statLoop part junk d name parent fuel' cluster buf = some st := by
  induction fuel generalizing fuel' cluster buf with
  | zero => cases h
  | succ fuel ih =>
    obtain ⟨n, rfl⟩ := Nat.exists_eq_add_of_le' (Nat.le_trans (Nat.succ_pos fuel) hle)
    rw [statLoop] at h ⊢
    generalize (readCluster part d cluster buf).1 = b at h ⊢
    cases hscan : statScan junk b name with
    | stopped =>
      rw [hscan] at h
      exact h
    | hit i =>
      rw [hscan] at h
      exact h
    | exhausted =>
      rw [hscan] at h
      exact ih h (by omega)

theorem fat32Stat_mono (h : fat32Stat part fuel junk d path = some st) (hle : fuel ≤ fuel') :
    fat32Stat part fuel' junk d path = some st := by
  rw [fat32Stat] at h ⊢
  split
  · rename_i hhead
    rwa [if_pos hhead] at h
  · rename_i hhead
    rw [if_neg hhead] at h
    split
    · rename_i hroot
      rwa [if_pos hroot] at h
    · rename_i hroot
      rw [if_neg hroot] at h
      exact statLoop_mono h hle

theorem editEntry_of_stopped (hr : Rep g m d v) (hW : v.Closed g.clusters W) {attr : UInt8}
    (edit : Buf → Buf) (hsearch : v.Search (scanEntry attr name) c (.stopped z)) (hc : c ∈ W) :
    ∃ n, ∀ fuel, n ≤ fuel → ∀ buf,
      editEntry g.part attr name edit d fuel c buf = some (d, .stopped) := by
  generalize hend : SearchEnd.stopped z = e at hsearch
  induction hsearch with
  | here _ => cases hend
  | last _ _ => cases hend
  | @stop c hscan =>
    refine ⟨1, fun fuel hfuel buf => ?_⟩
    obtain ⟨fuel, rfl⟩ := Nat.exists_eq_add_of_le' hfuel
    obtain ⟨⟨hc2, hcn⟩, -⟩ := hW c hc
    rw [editEntry, if_neg (by omega)]
    dsimp only
    rw [(hr.readCluster_same hc2 hcn buf).scanEntry, hscan]
  | @next c c' _ hscan hn _ ih =>
    obtain ⟨⟨hc2, hcn⟩, hnext⟩ := hW c hc
    obtain ⟨n, hn'⟩ := ih (hnext c' hn) hend
    refine ⟨n + 1, fun fuel hfuel buf => ?_⟩
    obtain ⟨fuel, rfl⟩ := Nat.exists_eq_add_of_le' (Nat.le_trans (Nat.succ_pos n) hfuel)
    rw [editEntry, if_neg (by omega)]
    dsimp only
    rw [(hr.readCluster_same hc2 hcn buf).scanEntry, hscan]
    rw [hr.getNextCluster_eq hcn, v.follow_of_next_some hn]
    exact hn' fuel (by omega) _

section

variable (hr : Rep g m d v) (hW : v.Closed g.clusters W)
  (hparent : findClusterFromPath g.part (fun n => junk (n + 2)) d (parentPath path) = 0 ∨
  findClusterFromPath g.part (fun n => junk (n + 2)) d (parentPath path) ∈ W)
  (hhead : path.head? = some slash)
include hr hW hparent hhead

/-- **What `fat32_rmdir_entry` does**, if the lookup of the parent ends in a chain. -/
theorem rmdirEntry_cases (hrun : fat32RmdirEntry g.part env d path = some (d', r))
    (hjunk : env.junk 0 = junk) :
    (d' = d ∧ (r ≠ 0 → Declines g junk d path)) ∨
      r = 0 ∧ ∃ k i, v.slot k i 11 = 0x10 ∧ Rep g m d' (v.setSlot k i erased) := by
  obtain rfl := hr.vol
  subst hjunk
  rw [fat32RmdirEntry, removeEntry, if_neg (not_not.mpr hhead)] at hrun
  split at hrun
  · rename_i hroot
    cases hrun
    exact .inl ⟨rfl, fun _ => .inl hroot⟩
  rename_i hroot
  obtain ⟨st, hstat, hrun⟩ := bind_eq_some_iff.mp hrun
  split at hrun
  · rename_i htype
    cases hrun
    exact .inl ⟨rfl, fun _ => .inr ⟨st, ⟨_, hstat⟩, .inl (by simp [htype])⟩⟩
  rename_i hfound
  split at hrun
  · rename_i htype
    cases hrun
    exact .inl ⟨rfl, fun _ => .inr ⟨st, ⟨_, hstat⟩, .inl (by simp [htype])⟩⟩
  obtain ⟨⟨d1, w⟩, hwalk, hresult⟩ := map_eq_some_iff.mp hrun
  cases hresult
  obtain ⟨-, -, -, -, hp⟩ :=
    ((fat32Stat_cases hstat).resolve_left fun h => hfound (by rw [h])).resolve_left
    fun h => hroot h.1
  rw [← hp] at hparent
  rcases hparent with hzero | hmem
  · -- there is no parent to walk over
    rw [hzero] at hwalk
    generalize env.fuel = fuel at hwalk
    cases fuel with
    | zero => cases hwalk
    | succ fuel =>
      cases hwalk
      exact .inl ⟨rfl, fun hr => absurd rfl hr⟩
  · rcases editEntry_spec hr hW (fun _ _ _ _ _ => rfl) hmem hwalk with
      ⟨k, i, hsearch, rfl, hrep⟩ | ⟨z, hsearch, rfl, rfl⟩ | ⟨z, hsearch, rfl, rfl⟩
    · exact .inr ⟨rfl, k, i, (scanEntry_hit hsearch.at_spec.2).2.1, hrep⟩
    · exact .inl ⟨rfl, fun _ => .inr ⟨st, ⟨_, hstat⟩, .inr ⟨(hW _ hmem).1.1, z, hsearch⟩⟩⟩
    · exact .inl ⟨rfl, fun hr => absurd rfl hr⟩

/-- `fat32_rmdir_entry` returns an error when it declines. -/
theorem rmdirEntry_of_declines (h : Declines g junk d path) :
    ∃ n, ∀ env : FatEnv, n ≤ env.fuel → env.junk 0 = junk →
      ∃ r, r ≠ 0 ∧ fat32RmdirEntry g.part env d path = some (d, r) := by
  obtain rfl := hr.vol
  by_cases hroot : path = [slash]
  · refine ⟨0, fun env _ _ => ⟨eInvalArg, by decide, ?_⟩⟩
    rw [fat32RmdirEntry, removeEntry, if_neg (not_not.mpr hhead), if_pos hroot]
  obtain ⟨st, ⟨n, hstat⟩, hcase⟩ := h.resolve_left hroot
  -- what the function does with the report
  have hrun : ∀ env : FatEnv, n ≤ env.fuel → env.junk 0 = junk → fat32RmdirEntry g.part env d path =
      if st.type = .notFound then some (d, eNoent) else if st.type = .file then some (d, eInvalArg)
      else (editEntry g.part 0x10 (formatName83 st.name) (fun _ => erased) d env.fuel
        st.parentClusterId (env.junk 1 0)).map fun r =>
        (r.1, if r.2 = .stopped then -1 else 0) := by
    intro env hfuel hjunk
    rw [fat32RmdirEntry, removeEntry, if_neg (not_not.mpr hhead), if_neg hroot, hjunk,
      fat32Stat_mono hstat hfuel, bind_some]
  rcases htype : st.type with - | - | -
  · refine ⟨n, fun env hfuel hjunk => ⟨eNoent, by decide, ?_⟩⟩
    rw [hrun env hfuel hjunk, if_pos htype]
  · refine ⟨n, fun env hfuel hjunk => ⟨eInvalArg, by decide, ?_⟩⟩
    rw [hrun env hfuel hjunk, if_neg (by simp [htype]), if_pos htype]
  · obtain ⟨hp2, z, hsearch⟩ := hcase.resolve_left (not_not.mpr htype)
    have hp : st.parentClusterId ∈ W := by
      rcases fat32Stat_cases hstat with rfl | ⟨hpath, -⟩ | ⟨-, -, -, -, hfind⟩
      · cases htype
      · exact absurd hpath hroot
      · rw [← hfind] at hparent
        exact hparent.resolve_left (by omega)
    obtain ⟨n', hwalk⟩ := editEntry_of_stopped hr hW (fun _ => erased) hsearch hp
    refine ⟨max n n', fun env hfuel hjunk => ⟨-1, by decide, ?_⟩⟩
    rw [hrun env (by omega) hjunk, if_neg (by simp [htype]), if_neg (by simp [htype]),
      hwalk env.fuel (by omega)]
    rfl

end

end Rmdir

/-! ## Deleting -/

/-- The path has been deleted: its entry is gone, the clusters of its chain are free and no others,
and what other paths lead to is as it was. -/
structure Removed (g : Geometry) (d d' : Disk) (comps : List (List UInt8)) (o : Owner) : Prop where
  gone : ∀ k i, o = .slot k i → ¬ Live ((vol g d').slot k i)
  unresolved : ∀ s, ¬ (vol g d').EntryAt g.root comps s
  freed : ∀ c, o.Reaches g.root (vol g d) c → (vol g d').fat c = 0
  kept : ∀ c, 2 ≤ c → c < g.clusters → ¬ o.Reaches g.root (vol g d) c →
    (vol g d').fat c = (vol g d).fat c
  others : ∀ comps' s, o ≠ .slot s.1 s.2 →
    ((vol g d').EntryAt g.root comps' s ↔ (vol g d).EntryAt g.root comps' s) ∧
      ((vol g d).EntryAt g.root comps' s →
        SameEntry ((vol g d').slot s.1 s.2) ((vol g d).slot s.1 s.2))

def DirentEnv.within (env : DirentEnv) (fuel : ℕ) : DirentEnv :=
  { env with fat := { env.fat with fuel := fuel }, stat := { env.stat with fuel := fuel } }

section Delete

variable {σ : Type} (vfs : Vfs σ) (device : ℕ) (g : Geometry) (env : DirentEnv) (d : Disk)
  (comps : List (List UInt8)) (o : Owner)

/-- **What deleting is to do**: a directory with entries is refused, and everything else is
removed. -/
def Deletes : Prop :=
  ∃ fuel d' r, deleteDirent vfs device g.part (env.within fuel) d (pathTo comps) = some (d', r) ∧
    (o.HasEntries g.root (vol g d) → d' = d ∧ r = true) ∧
      (¬ o.HasEntries g.root (vol g d) → Removed g d d' comps o)

/-- The code refuses the path: it fits into the buffers, `stat_dirent` finds something, and
`fat32_rmdir_entry` declines. The two functions get the path with different bytes behind it. -/
def Refuses : Prop :=
  (pathTo comps).length + 1 < maxPath ∧
    (∃ st, Stats g.part (env.stat.junk 0) d (withByte (pathTo comps) (env.byte 2)) st ∧
      st.type ≠ .notFound) ∧
    Declines g (env.fat.junk 0) d (withByte (pathTo comps) (env.byte 0))

variable {vfs device g env d comps o} {d' : Disk} {r : Bool} {v : Vol} {S : Set ℕ}
  {L : Owner → List ℕ} {m : Prop}

theorem deleteDirent_cases (hmount : Vfs.AtRoot vfs device (pathTo comps))
    (hrun : deleteDirent vfs device g.part env d (pathTo comps) = some (d', r)) :
    (pathTo comps).length + 1 < maxPath ∧ ∃ st, fat32Stat g.part env.stat.fuel (env.stat.junk 0) d
        (withByte (pathTo comps) (env.byte 2)) = some st ∧
      (d' = d ∧ r = false ∨ st.type ≠ .notFound ∧ ∃ e,
        fat32RmdirEntry g.part env.fat d (withByte (pathTo comps) (env.byte 0)) = some (d', e) ∧
          r = (e != 0)) := by
  obtain ⟨child, hchild, hrun⟩ := bind_eq_some_iff.mp hrun
  obtain ⟨st, hstat, hrun⟩ := bind_eq_some_iff.mp hrun
  obtain ⟨child', hchild', hstat⟩ := bind_eq_some_iff.mp hstat
  rw [childPath_eq hmount (pathTo_head comps)] at hchild hchild'
  obtain ⟨hlen, hchild⟩ := ite_none_right_eq_some.mp hchild
  obtain ⟨-, hchild'⟩ := ite_none_right_eq_some.mp hchild'
  cases hchild
  cases hchild'
  refine ⟨hlen, st, hstat, ?_⟩
  cases htype : st.type with
  | notFound =>
    rw [htype] at hrun
    cases hrun
    exact .inl ⟨rfl, rfl⟩
  | file | directory =>
    rw [htype] at hrun
    obtain ⟨⟨d1, e⟩, hrmdir, hresult⟩ := map_eq_some_iff.mp hrun
    cases hresult
    exact .inr ⟨nofun, e, hrmdir, rfl⟩

theorem deleteDirent_eq (hmount : Vfs.AtRoot vfs device (pathTo comps))
    (hlen : (pathTo comps).length + 1 < maxPath) {st : DirentStat}
    (hstat : fat32Stat g.part env.stat.fuel (env.stat.junk 0) d
      (withByte (pathTo comps) (env.byte 2)) = some st) (htype : st.type ≠ .notFound) :
    deleteDirent vfs device g.part env d (pathTo comps) =
      (fat32RmdirEntry g.part env.fat d (withByte (pathTo comps) (env.byte 0))).map
        fun e => (e.1, e.2 != 0) := by
  have hchild := childPath_eq hmount (pathTo_head comps)
  simp only [if_pos hlen] at hchild
  rw [deleteDirent, statDirent, hchild, hchild]
  simp only [bind_eq_bind, bind_some, hstat]
  cases h : st.type with
  | notFound => exact absurd h htype
  | file => rfl
  | directory => rfl

/-- The lookup of the parent on the way to an entry ends in a chain, whatever byte is behind the
path. -/
theorem Vol.Denotes.walkable (ho : v.Denotes g.root comps o) (hr : Rep g m d v) (h : Tidy g v S L)
    (hu : v.UniqueNames g.root) (hcomps : Components comps) (hshort : ∀ t ∈ comps, Name83 t)
    (byte : UInt8) (junk : ℕ → Buf) :
    ∃ W, v.Closed g.clusters W ∧
      (findClusterFromPath g.part junk d (parentPath (withByte (pathTo comps) byte)) = 0 ∨
        findClusterFromPath g.part junk d (parentPath (withByte (pathTo comps) byte)) ∈ W) := by
  have hsub : ∀ {t}, t ∈ comps.dropLast → t ∈ comps :=
    @fun _ ht => (dropLast_sublist comps).subset ht
  -- the components of the path and those of its parent are entries
  have hleads : v.Leads (fun _ => True) (tokens (pathTo comps)) g.root ∧
      v.Leads (fun _ => True) (tokens (pathTo comps.dropLast)) g.root := by
    rw [tokens_pathTo hcomps, tokens_pathTo fun t ht => hcomps t (hsub ht)]
    cases ho with
    | root _ => exact ⟨trivial, trivial⟩
    | entry hat _ =>
      refine ⟨hat.leads hu .root hshort, ?_⟩
      rcases hat.parent with hnil | ⟨s, hs⟩
      · rw [hnil]
        trivial
      · exact hs.leads hu .root fun t ht => hshort t (hsub ht)
  rcases parentPath_withByte hcomps byte with heq | heq
  · rw [heq]
    exact h.find_walkable hr hleads.1 junk
  · rw [heq]
    exact h.find_walkable hr hleads.2 junk

theorem Vol.EntryAt.entry (hat : v.EntryAt c comps s) {root : ℕ} (hc : v.InTree root c) :
    v.Entry root s.1 s.2 := by
  induction hat with
  | last h _ => exact ⟨hc.reaches h.1, h.2⟩
  | step h _ hdir _ ih => exact ih (.sub (hc.reaches h.1) h.2.1 h.2.2 hdir.1 hdir.2)

/-- **Nothing is removed**: a file keeps its entry, and a directory its clusters. -/
theorem not_removed (hr : Rep g m d v) (h : Tidy g v {c | v.InTree g.root c} L)
    (ho : v.Denotes g.root comps o) (hempty : ¬ o.HasEntries g.root v)
    (hd' : d' = d ∨ ∃ k i, v.slot k i 11 = 0x10 ∧ Rep g m d' (v.setSlot k i erased)) :
    ¬ Removed g d d' comps o := by
  intro hremoved
  obtain rfl := hr.vol
  have hfat : (vol g d').fat = (vol g d).fat := by
    rcases hd' with rfl | ⟨k, i, -, hrep⟩
    · rfl
    · rw [hrep.vol]
      rfl
  cases ho with
  | root hsome =>
    obtain ⟨s, hs⟩ := hsome
    exact hempty ⟨trivial, g.root, s, rfl, hs⟩
  | @entry _ k i hat hdir =>
    have hin : (Owner.slot k i).In {c | (vol g d).InTree g.root c} (vol g d) := hat.entry .root
    by_cases hd : IsDir ((vol g d).slot k i)
    · -- the first cluster of a directory is in use
      have hne := hdir hd
      have hlink := h.linked_slot hin hne
      refine h.fat_ne_zero hin hlink.mem_self ?_
      rw [← hfat]
      exact hremoved.freed _ ⟨_, start_of_ne hne, .refl⟩
    · refine hremoved.gone k i rfl ?_
      rcases hd' with rfl | ⟨k', i', hattr, hrep⟩
      · exact hin.2.2
      · rw [hrep.vol]
        -- what is erased is the entry of a directory
        refine (Vol.setSlot_slot_of_ne _ hin.2.1 ?_).live.mpr hin.2.2
        intro heq
        cases heq
        rw [IsDir, hattr] at hd
        exact hd (by decide)

section Main

variable (hdisk : OnDisk g d) (hwf : WellFormed g (vol g d)) (hu : (vol g d).UniqueNames g.root)
  (hcomps : Components comps) (hshort : ∀ t ∈ comps, Name83 t)
  (hmount : Vfs.AtRoot vfs device (pathTo comps)) (ho : (vol g d).Denotes g.root comps o)
include hdisk hwf hu hcomps hshort hmount ho

theorem delete_cases {fuel : ℕ}
    (hrun : deleteDirent vfs device g.part (env.within fuel) d (pathTo comps) = some (d', r)) :
    (d' = d ∧ (r = true → Refuses g env d comps)) ∨
      r = false ∧ ∃ k i, (vol g d).slot k i 11 = 0x10 ∧
        Rep g False d' ((vol g d).setSlot k i erased) := by
  have hr := hdisk.rep
  obtain ⟨L, h⟩ := hwf
  obtain ⟨hlen, st, hstat, ⟨rfl, rfl⟩ | ⟨htype, e, hrmdir, rfl⟩⟩ := deleteDirent_cases hmount hrun
  · exact .inl ⟨rfl, nofun⟩
  · obtain ⟨W, hW, hparent⟩ := ho.walkable hr h hu hcomps hshort (env.byte 0)
      fun n => env.fat.junk 0 (n + 2)
    rcases rmdirEntry_cases hr hW hparent (withByte_head (pathTo_head comps)) hrmdir rfl with
      ⟨rfl, hdeclines⟩ | ⟨rfl, herased⟩
    · refine .inl ⟨rfl, fun hfail => ?_⟩
      exact ⟨hlen, ⟨st, ⟨fuel, hstat⟩, htype⟩, hdeclines (by simpa using hfail)⟩
    · exact .inr ⟨rfl, herased⟩

theorem delete_of_refuses (hrefuses : Refuses g env d comps) :
    ∃ fuel, deleteDirent vfs device g.part (env.within fuel) d (pathTo comps) = some (d, true) := by
  have hr := hdisk.rep
  obtain ⟨L, h⟩ := hwf
  obtain ⟨hlen, ⟨st, ⟨n, hstat⟩, htype⟩, hdeclines⟩ := hrefuses
  obtain ⟨W, hW, hparent⟩ := ho.walkable hr h hu hcomps hshort (env.byte 0)
    fun n => env.fat.junk 0 (n + 2)
  obtain ⟨n', hrmdir⟩ :=
    rmdirEntry_of_declines hr hW hparent (withByte_head (pathTo_head comps)) hdeclines
  -- enough turns for both functions
  obtain ⟨e, hne, he⟩ := hrmdir (env.within (max n n')).fat (le_max_right n n') rfl
  have hstat' : fat32Stat g.part (env.within (max n n')).stat.fuel (env.stat.junk 0) d
      (withByte (pathTo comps) (env.byte 2)) = some st := fat32Stat_mono hstat (le_max_left n n')
  have hrun : deleteDirent vfs device g.part (env.within (max n n')) d (pathTo comps) =
      (fat32RmdirEntry g.part (env.within (max n n')).fat d
        (withByte (pathTo comps) (env.byte 0))).map fun e => (e.1, e.2 != 0) :=
    deleteDirent_eq hmount hlen hstat' htype
  refine ⟨max n n', ?_⟩
  rw [hrun, he]
  simp [hne]

/-- **A deletion does what it is to do exactly if** it is that of a directory with entries, and is
refused. -/
theorem deletes_iff_refuses : Deletes vfs device g env d comps o ↔
    o.HasEntries g.root (vol g d) ∧ Refuses g env d comps := by
  constructor
  · rintro ⟨fuel, d', r, hrun, hfull, hempty⟩
    have hcases := delete_cases hdisk hwf hu hcomps hshort hmount ho hrun
    by_cases hentries : o.HasEntries g.root (vol g d)
    · obtain ⟨rfl, rfl⟩ := hfull hentries
      rcases hcases with ⟨-, hrefuses⟩ | ⟨hfalse, -⟩
      · exact ⟨hentries, hrefuses rfl⟩
      · cases hfalse
    · have hr := hdisk.rep
      obtain ⟨L, h⟩ := hwf
      exact absurd (hempty hentries)
        (not_removed hr h ho hentries (hcases.imp And.left And.right))
  · rintro ⟨hentries, hrefuses⟩
    obtain ⟨fuel, hrun⟩ := delete_of_refuses hdisk hwf hu hcomps hshort hmount ho hrefuses
    exact ⟨fuel, d, true, hrun, fun _ => ⟨rfl, rfl⟩, fun hempty => absurd hentries hempty⟩

end Main

end Delete

/-! ## A volume with one file -/

theorem fullDisk_holds (hc : (vol smallGeometry fullDisk).InTree smallGeometry.root c)
    (hs : (vol smallGeometry fullDisk).Holds c s) : s = (2, 0) := by
  obtain ⟨-, hslots, -⟩ := oneFileDisk_eval 4096 mem_fullSizes
  obtain ⟨k, i⟩ := s
  obtain ⟨hreach, hi, hlive⟩ := hs
  obtain rfl : k = 2 := (oneFileDisk_flat mem_fullSizes).inTree (hc.reaches hreach)
  rw [hslots i hi hlive]

theorem fullDisk_uniqueNames : (vol smallGeometry fullDisk).UniqueNames smallGeometry.root := by
  intro c hc s s' hs hs' _
  rw [fullDisk_holds hc hs, fullDisk_holds hc hs']

theorem fullDisk_file : (vol smallGeometry fullDisk).Holds smallGeometry.root (2, 0) := by
  obtain ⟨hlt, hlive, -⟩ := live_of_scanToken (oneFileDisk_fileAt mem_fullSizes).found
  exact ⟨.refl, hlt, hlive⟩

theorem rootVfs_atRoot (hne : path ≠ []) (h : rootVfs.findMountByPath path = some 0) :
    Vfs.AtRoot rootVfs 4096 path :=
  ⟨0, _, ((findMountByPath_eq_some_iff hne).mp h).2, rfl, rfl, rfl⟩

/-- The root directory is refused. -/
theorem deletes_iff_refuses_root :
    Deletes rootVfs 4096 smallGeometry zeroEnv fullDisk [] .root := by
  have hmount : Vfs.AtRoot rootVfs 4096 (pathTo []) :=
    rootVfs_atRoot (by decide) (by decide +kernel)
  refine (deletes_iff_refuses (smallDisk_onDisk _ _) (oneFileDisk_flat mem_fullSizes).wellFormed
    fullDisk_uniqueNames (fun _ ht => absurd ht not_mem_nil)
    (fun _ ht => absurd ht not_mem_nil) hmount
    (.root ⟨_, fullDisk_file⟩)).mpr ⟨?_, by decide, ?_, .inl rfl⟩
  · exact ⟨trivial, _, _, rfl, fullDisk_file⟩
  · exact ⟨⟨[slash], .directory, 0⟩, ⟨0, rfl⟩, nofun⟩

/-- **A file is not deleted**: the call fails, and the file and its cluster are still in use. -/
theorem delete_keeps_file : OnDisk smallGeometry fullDisk ∧
    WellFormed smallGeometry (vol smallGeometry fullDisk) ∧
    (vol smallGeometry fullDisk).UniqueNames smallGeometry.root ∧
    Vfs.AtRoot rootVfs 4096 (pathTo [[0x41]]) ∧
    (vol smallGeometry fullDisk).Denotes smallGeometry.root [[0x41]] (.slot 2 0) ∧
    ¬ IsDir ((vol smallGeometry fullDisk).slot 2 0) ∧
    (deleteDirent rootVfs 4096 smallGeometry.part zeroEnv fullDisk (pathTo [[0x41]])).map (fun r =>
      (r.2, decide (Live ((vol smallGeometry r.1).slot 2 0)), (vol smallGeometry r.1).fat 3)) =
        some (true, true, 0x0FFFFFF8) ∧
    ¬ Deletes rootVfs 4096 smallGeometry zeroEnv fullDisk [[0x41]] (.slot 2 0) := by
  have hmount : Vfs.AtRoot rootVfs 4096 (pathTo [[0x41]]) :=
    rootVfs_atRoot (by decide) (by decide +kernel)
  have ho : (vol smallGeometry fullDisk).Denotes smallGeometry.root [[0x41]] (.slot 2 0) :=
    .entry (.last fullDisk_file (oneFileDisk_entry mem_fullSizes).2) fun hdir =>
      absurd hdir (oneFileDisk_not_isDir mem_fullSizes)
  have hcomps : Components [[0x41]] := by
    intro t ht
    obtain rfl := mem_singleton.mp ht
    decide
  have hshort : ∀ t ∈ ([[0x41]] : List (List UInt8)), Name83 t := by
    intro t ht
    obtain rfl := mem_singleton.mp ht
    exact ⟨by decide, by decide⟩
  have hempty : ¬ (Owner.slot 2 0).HasEntries smallGeometry.root (vol smallGeometry fullDisk) :=
    fun hentries => (oneFileDisk_not_isDir mem_fullSizes) hentries.1
  refine ⟨smallDisk_onDisk _ _, (oneFileDisk_flat mem_fullSizes).wellFormed, fullDisk_uniqueNames,
    hmount, ho, (oneFileDisk_not_isDir mem_fullSizes), by decide +kernel, ?_⟩
  rintro ⟨fuel, d', r, hrun, -, hremoved⟩
  have hcases := delete_cases (smallDisk_onDisk _ _) (oneFileDisk_flat mem_fullSizes).wellFormed
    fullDisk_uniqueNames hcomps hshort hmount ho hrun
  have hr : Rep smallGeometry False fullDisk (vol smallGeometry fullDisk) :=
    ⟨smallDisk_onDisk _ _, rfl, False.elim⟩
  obtain ⟨L, h⟩ := (oneFileDisk_flat mem_fullSizes).wellFormed
  exact not_removed hr h ho hempty (hcases.imp And.left And.right) (hremoved hempty)

end CarrotOS.Fat32
