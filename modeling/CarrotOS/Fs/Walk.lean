import CarrotOS.Fs.Directory

/-!
# Walking the clusters of a directory

The loops over the clusters of a directory differ in the scan that they make in each cluster. On a
volume such a search ends at a slot, at a slot that ends the scan, or behind the last cluster. The
clusters visited belong to every set of clusters that contains the first one and is closed under
successors.
-/

namespace CarrotOS.Fat32

open LinkTable List

variable {fuel parent : ℕ} {b b' buf junk : Buf}

/-- How a search ends: at a slot, in a cluster whose scan was ended, or behind the last cluster. -/
inductive SearchEnd where
  | at (k i : ℕ)
  | stopped (k : ℕ)
  | absent (last : ℕ)

namespace Vol

/-- A search with the given scan from a cluster on, and how it ends. -/
inductive Search (v : Vol) (scan : Buf → Scan) : ℕ → SearchEnd → Prop
  | here {c i : ℕ} (h : scan (v.data c) = .hit i) : Search v scan c (.at c i)
  | stop {c : ℕ} (h : scan (v.data c) = .stopped) : Search v scan c (.stopped c)
  | last {c : ℕ} (h : scan (v.data c) = .exhausted) (hn : v.next c = none) :
    Search v scan c (.absent c)
  | next {c c' : ℕ} {r : SearchEnd} (h : scan (v.data c) = .exhausted) (hn : v.next c = some c')
    (ht : Search v scan c' r) : Search v scan c r

/-- The clusters of the set exist, and their successors are in the set. -/
def Closed (n : ℕ) (v : Vol) (S : Set ℕ) : Prop :=
  ∀ c ∈ S, (2 ≤ c ∧ c < n) ∧ ∀ c', v.next c = some c' → c' ∈ S

section Search

variable {v v' : Vol} {scan : Buf → Scan} {c k i z n : ℕ} {r r' : SearchEnd} {S : Set ℕ}

theorem Search.unique (h : v.Search scan c r) (h' : v.Search scan c r') : r = r' := by
  induction h with
  | here h =>
    cases h' with
    | here h2 => cases h.symm.trans h2; rfl
    | stop h2 => cases h.symm.trans h2
    | last h2 _ => cases h.symm.trans h2
    | next h2 _ _ => cases h.symm.trans h2
  | stop h =>
    cases h' with
    | here h2 => cases h.symm.trans h2
    | stop _ => rfl
    | last h2 _ => cases h.symm.trans h2
    | next h2 _ _ => cases h.symm.trans h2
  | last h hn =>
    cases h' with
    | here h2 => cases h.symm.trans h2
    | stop h2 => cases h.symm.trans h2
    | last _ _ => rfl
    | next _ hn2 _ => cases hn.symm.trans hn2
  | next h hn _ ih =>
    cases h' with
    | here h2 => cases h.symm.trans h2
    | stop h2 => cases h.symm.trans h2
    | last _ hn2 => cases hn.symm.trans hn2
    | next _ hn2 ht2 =>
      cases hn.symm.trans hn2
      exact ih ht2

theorem Search.at_spec (h : v.Search scan c (.at k i)) :
    Reaches v.next c k ∧ scan (v.data k) = .hit i := by
  generalize hr : SearchEnd.at k i = r at h
  induction h with
  | here h =>
    cases hr
    exact ⟨.refl, h⟩
  | stop _ => cases hr
  | last _ _ => cases hr
  | next _ hn _ ih =>
    obtain ⟨hreach, hhit⟩ := ih hr
    exact ⟨.head hn hreach, hhit⟩

/-- A search that finds nothing scans the whole chain, of which it returns the last cluster. -/
theorem Search.absent_spec (h : v.Search scan c (.absent z)) :
    Reaches v.next c z ∧ v.next z = none ∧
      ∀ k, Reaches v.next c k → scan (v.data k) = .exhausted := by
  generalize hr : SearchEnd.absent z = r at h
  induction h with
  | here _ => cases hr
  | stop _ => cases hr
  | @last c h hn =>
    cases hr
    refine ⟨.refl, hn, ?_⟩
    intro k hk
    rcases hk.cases_head with rfl | ⟨c', hc', -⟩
    · exact h
    · cases hn.symm.trans hc'
  | @next c c' r h hn ht ih =>
    obtain ⟨hreach, hlast, hall⟩ := ih hr
    refine ⟨.head hn hreach, hlast, ?_⟩
    intro k hk
    rcases hk.cases_head with rfl | ⟨c'', hc'', hk⟩
    · exact h
    · cases hn.symm.trans hc''
      exact hall k hk

theorem Closed.reaches (hS : Closed n v S) (hc : c ∈ S) (h : Reaches v.next c k) : k ∈ S := by
  induction h with
  | refl => exact hc
  | tail _ hn ih => exact (hS _ ih).2 _ hn

theorem Closed.follow (hS : Closed n v S) (hc : c ∈ S) :
    (v.next c = none ∧ v.follow c = 0) ∨ ∃ c' ∈ S, v.next c = some c' ∧ v.follow c = c' := by
  rcases hn : v.next c with - | c'
  · exact .inl ⟨rfl, v.follow_of_next_none hn⟩
  · exact .inr ⟨c', (hS c hc).2 c' hn, rfl, v.follow_of_next_some hn⟩

theorem Search.congr (h : v.Search scan c r)
    (hsame : ∀ k, Reaches v.next c k → scan (v'.data k) = scan (v.data k) ∧ v'.next k = v.next k) :
    v'.Search scan c r := by
  induction h with
  | here h => exact .here ((hsame _ .refl).1.trans h)
  | stop h => exact .stop ((hsame _ .refl).1.trans h)
  | last h hn => exact .last ((hsame _ .refl).1.trans h) ((hsame _ .refl).2.trans hn)
  | next h hn _ ih =>
    refine .next ((hsame _ .refl).1.trans h) ((hsame _ .refl).2.trans hn) (ih ?_)
    intro k hk
    exact hsame k (.head hn hk)

end Search

end Vol

/-! ## The loops of the code -/

section Loops

variable {g : Geometry} {m : Prop} {d d' : Disk} {v : Vol} {c : ℕ} {S : Set ℕ} {attr : UInt8}
  {name : List UInt8} {edit : Buf → Buf}

/-- **The loop that changes an entry** searches for it; if it finds it, the volume has the changed
entry in its place. -/
theorem editEntry_spec (h : Rep g m d v) (hS : v.Closed g.clusters S)
    (hedit : ∀ e e', SameEntry e e' → SameEntry (edit e) (edit e')) {w : Walk} (hc : c ∈ S)
    (hrun : editEntry g.part attr name edit d fuel c buf = some (d', w)) :
    (∃ k i, v.Search (scanEntry attr name) c (.at k i) ∧ w = .edited ∧
        Rep g m d' (v.setSlot k i (edit (v.slot k i)))) ∨
      (∃ k, v.Search (scanEntry attr name) c (.stopped k) ∧ w = .stopped ∧ d' = d) ∨
        ∃ k, v.Search (scanEntry attr name) c (.absent k) ∧ w = .fellOff ∧ d' = d := by
  induction fuel generalizing c buf with
  | zero => cases hrun
  | succ fuel ih =>
    obtain ⟨⟨hc2, hcn⟩, -⟩ := hS c hc
    have hsame := h.readCluster_same hc2 hcn buf
    rw [editEntry, if_neg (by omega)] at hrun
    dsimp only at hrun
    rw [hsame.scanEntry] at hrun
    rcases hscan : scanEntry attr name (v.data c) with - | i | -
    · rw [hscan] at hrun
      cases hrun
      exact .inr (.inl ⟨c, .stop hscan, rfl, rfl⟩)
    · rw [hscan] at hrun
      cases hrun
      have hi := (scan_eq_hit_iff.mp hscan).1
      refine .inl ⟨c, i, .here hscan, rfl, ?_⟩
      have hnew : SameEntry (edit (slot (readCluster g.part d c buf).1 i)) (edit (v.slot c i)) :=
        hedit _ _ (hsame.slot hi)
      rw [← Vol.setSlot_congr v hnew]
      exact h.writeSlot_rep hc2 hcn hsame i _
    · rw [hscan] at hrun
      rw [h.getNextCluster_eq hcn] at hrun
      rcases hS.follow hc with ⟨hn, hzero⟩ | ⟨c', hc', hn, hfollow⟩
      · rw [hzero] at hrun
        cases fuel with
        | zero => cases hrun
        | succ fuel =>
          cases hrun
          exact .inr (.inr ⟨c, .last hscan hn, rfl, rfl⟩)
      · rw [hfollow] at hrun
        rcases ih hc' hrun with ⟨k, i, hs, hw⟩ | ⟨k, hs, hw⟩ | ⟨k, hs, hw⟩
        · exact .inl ⟨k, i, .next hscan hn hs, hw⟩
        · exact .inr (.inl ⟨k, .next hscan hn hs, hw⟩)
        · exact .inr (.inr ⟨k, .next hscan hn hs, hw⟩)

theorem scanFree_ne_stopped (b : Buf) : scanFree b ≠ .stopped := by
  have hnever : ∀ (hit : ℕ → Bool) (is : List ℕ), scanFrom (fun _ => false) hit is ≠ .stopped := by
    intro hit is
    induction is with
    | nil => simp [scanFrom]
    | cons i is ih =>
      rw [scanFrom, if_neg (by decide)]
      split
      · simp
      · exact ih
  exact hnever _ _

/-- **The loop that looks for a free slot** returns it with its cluster, or the last cluster. -/
theorem findFreeSlot_spec (h : Rep g m d v) (hS : v.Closed g.clusters S) {last : ℕ} {r : FreeSlot}
    (hc : c ∈ S) (hrun : findFreeSlot g.part d fuel last c buf = some r) :
    (∃ k i b, v.Search scanFree c (.at k i) ∧ SameCluster b (v.data k) ∧ r = .found k i b) ∨
      ∃ z, v.Search scanFree c (.absent z) ∧ r = .absent z := by
  induction fuel generalizing c last buf with
  | zero => cases hrun
  | succ fuel ih =>
    obtain ⟨⟨hc2, hcn⟩, -⟩ := hS c hc
    have hsame := h.readCluster_same hc2 hcn buf
    rw [findFreeSlot, if_neg (by omega)] at hrun
    dsimp only at hrun
    rw [hsame.scanFree] at hrun
    rcases hscan : scanFree (v.data c) with - | i | -
    · exact absurd hscan (scanFree_ne_stopped _)
    · rw [hscan] at hrun
      cases hrun
      exact .inl ⟨c, i, _, .here hscan, hsame, rfl⟩
    · rw [hscan] at hrun
      rw [h.getNextCluster_eq hcn] at hrun
      rcases hS.follow hc with ⟨hn, hzero⟩ | ⟨c', hc', hn, hfollow⟩
      · rw [hzero] at hrun
        cases fuel with
        | zero => cases hrun
        | succ fuel =>
          cases hrun
          exact .inr ⟨c, .last hscan hn, rfl⟩
      · rw [hfollow] at hrun
        rcases ih hc' hrun with ⟨k, i, b, hs, hb, hr⟩ | ⟨z, hs, hr⟩
        · exact .inl ⟨k, i, b, .next hscan hn hs, hb, hr⟩
        · exact .inr ⟨z, .next hscan hn hs, hr⟩

theorem findFreeSlot_here (h : Rep g m d v) (hc2 : 2 ≤ c) (hcn : c < g.clusters) {i : ℕ}
    (hscan : scanFree (v.data c) = .hit i) (hfuel : 0 < fuel) (last : ℕ) (buf : Buf) :
    ∃ b, findFreeSlot g.part d fuel last c buf = some (.found c i b) ∧
      SameCluster b (v.data c) := by
  obtain ⟨fuel, rfl⟩ := Nat.exists_eq_succ_of_ne_zero hfuel.ne'
  have hsame := h.readCluster_same hc2 hcn buf
  refine ⟨_, ?_, hsame⟩
  rw [findFreeSlot, if_neg (by omega)]
  dsimp only
  rw [hsame.scanFree, hscan]

/-- The scan of `fat32_rename` for its source: the last slot of the cluster with the name. -/
def scanName (name : List UInt8) (b : Buf) : Scan :=
  match ((range slotsPerCluster).filter fun i => slotName b i == name).getLast? with
  | some i => .hit i
  | none => .exhausted

theorem SameCluster.scanName (h : SameCluster b b') (name : List UInt8) :
    Fat32.scanName name b = Fat32.scanName name b' := by
  rw [Fat32.scanName, Fat32.scanName, filter_congr]
  intro i hi
  rw [show slotName b i = slotName b' i from (h.slot (mem_range.mp hi)).name]

theorem scanName_hit {i : ℕ} (h : scanName name b = .hit i) :
    i < slotsPerCluster ∧ slotName b i = name := by
  unfold scanName at h
  split at h
  · rename_i i' hlast
    cases h
    have hmem := mem_of_getLast? hlast
    rw [mem_filter, mem_range, beq_iff_eq] at hmem
    exact hmem
  · cases h

/-- **The loop that looks for the source** returns the entry of the slot, if there is one. -/
theorem findSource_spec (h : Rep g m d v) (hS : v.Closed g.clusters S) {r : Option Buf} (hc : c ∈ S)
    (hrun : findSource g.part d name fuel c buf = some r) :
    (∃ k i e, v.Search (scanName name) c (.at k i) ∧ SameEntry e (v.slot k i) ∧ r = some e) ∨
      ∃ z, v.Search (scanName name) c (.absent z) ∧ r = none := by
  induction fuel generalizing c buf with
  | zero => cases hrun
  | succ fuel ih =>
    obtain ⟨⟨hc2, hcn⟩, -⟩ := hS c hc
    have hsame := h.readCluster_same hc2 hcn buf
    rw [findSource, if_neg (by omega)] at hrun
    dsimp only at hrun
    have hscan := hsame.scanName name
    rw [scanName] at hscan
    rcases hlast : ((range slotsPerCluster).filter fun i =>
        slotName (readCluster g.part d c buf).1 i == name).getLast? with - | i
    · rw [hlast] at hrun hscan
      rw [h.getNextCluster_eq hcn] at hrun
      rcases hS.follow hc with ⟨hn, hzero⟩ | ⟨c', hc', hn, hfollow⟩
      · rw [hzero] at hrun
        cases fuel with
        | zero => cases hrun
        | succ fuel =>
          cases hrun
          exact .inr ⟨c, .last hscan.symm hn, rfl⟩
      · rw [hfollow] at hrun
        rcases ih hc' hrun with ⟨k, i, e, hs, he, hr⟩ | ⟨z, hs, hr⟩
        · exact .inl ⟨k, i, e, .next hscan.symm hn hs, he, hr⟩
        · exact .inr ⟨z, .next hscan.symm hn hs, hr⟩
    · rw [hlast] at hrun hscan
      cases hrun
      refine .inl ⟨c, i, _, .here hscan.symm, ?_, rfl⟩
      exact hsame.slot (scanName_hit hscan.symm).1

end Loops

/-! ## `fat32_stat` -/

section Stat

variable {part fuel : ℕ} {d : Disk} {path : List UInt8} {st : DirentStat}

theorem statLoop_cases {name : List UInt8} {cluster : ℕ}
    (h : statLoop part junk d name parent fuel cluster buf = some st) :
    st = ⟨[], .notFound, 0⟩ ∨
      st.type ≠ .notFound ∧ st.name = name.take 11 ∧ st.parentClusterId = parent := by
  induction fuel generalizing cluster buf with
  | zero => cases h
  | succ fuel ih =>
    rw [statLoop] at h
    split at h
    · cases h
      exact .inl rfl
    · cases h
      right
      refine ⟨?_, rfl, rfl⟩
      split <;> exact nofun
    · exact ih h

/-- Uninitialised memory in which nothing matches: no byte is a missing attribute, and entries with
the attribute 0x0F are passed over. -/
def longNames : Buf := fun _ => 0x0F

/-- Of a name with more than 11 bytes, the byte behind the 8.3 name is compared with the
attribute. -/
theorem attr_of_statMatches {b : Buf} {i : ℕ} {name : List UInt8} (hlen : 11 < name.length)
    (h : statMatches longNames b i name = true) : slotAttr b i = 0x0F := by
  have hbyte := congrArg (·[11]?) (eq_of_beq h)
  have hend := length_formatName83 name
  simp [cells, hlen, longNames, getElem?_eq_none hend.le] at hbyte
  exact hbyte

theorem statLoop_longNames {d : Disk} {name : List UInt8} {cluster : ℕ} (hlen : 11 < name.length)
    (h : statLoop part longNames d name parent fuel cluster buf = some st) :
    st.type = .notFound := by
  induction fuel generalizing cluster buf with
  | zero => cases h
  | succ fuel ih =>
    rw [statLoop] at h
    split at h
    · cases h
      rfl
    · rename_i i hscan
      obtain ⟨-, ⟨-, hhit⟩, -⟩ := scan_eq_hit_iff.mp hscan
      simp only [Bool.and_eq_true, bne_iff_ne] at hhit
      exact absurd (attr_of_statMatches hlen hhit.2) hhit.1.2
    · exact ih h

theorem fat32Stat_cases {junk : ℕ → Buf} (h : fat32Stat part fuel junk d path = some st) :
    st = ⟨[], .notFound, 0⟩ ∨ (path = [slash] ∧ st = ⟨[slash], .directory, 0⟩) ∨
      (path.head? = some slash ∧ path ≠ [slash] ∧ st.type ≠ .notFound ∧
        st.name = (lastName path).take 11 ∧
          st.parentClusterId =
            findClusterFromPath part (fun n => junk (n + 2)) d (parentPath path)) := by
  rw [fat32Stat] at h
  split at h
  · cases h
    exact .inl rfl
  · rename_i hhead
    split at h
    · rename_i hroot
      cases h
      exact .inr (.inl ⟨hroot, rfl⟩)
    · rename_i hroot
      rcases statLoop_cases h with hnone | ⟨htype, hname, hparent⟩
      · exact .inl hnone
      · exact .inr (.inr ⟨not_not.mp hhead, hroot, htype, hname, hparent⟩)

/-! ### The search -/

section StatSearch

variable {g : Geometry} {m : Prop} {v : Vol} {S : Set ℕ} {c k i : ℕ} {name : List UInt8}

/-- An entry without attributes ends the scan of `fat32_stat`. -/
def hasNoAttr (e : Buf) : Bool := e 11 == 0

/-- The comparison of `fat32_stat` for a name of at most 11 bytes, as far as the name goes. -/
def hasStatName (name : List UInt8) (e : Buf) : Bool :=
  e 11 != 0xE5 && e 11 != 0x0F && cells name.length e == (formatName83 name).take name.length

def scanStat (name : List UInt8) : Buf → Scan := scanBy hasNoAttr (hasStatName name)

theorem local_hasNoAttr : Local hasNoAttr := fun e e' h => by
  rw [hasNoAttr, hasNoAttr, h 11 (by decide)]

theorem local_hasStatName (hname : name.length ≤ 11) : Local (hasStatName name) := fun e e' h => by
  rw [hasStatName, hasStatName, h 11 (by decide), cells_congr fun j hj => h j (by omega)]

theorem cells_getD {l : List UInt8} {n : ℕ} (h : n ≤ l.length) (junk : Buf) :
    cells n (fun k => l.getD k (junk k)) = l.take n := by
  apply ext_getElem
  · rw [length_cells, length_take, Nat.min_eq_left h]
  · intro j hj hj'
    rw [length_cells] at hj
    simp only [cells, getElem_map, getElem_range, getElem_take]
    rw [getD_eq_getElem?_getD, getElem?_eq_getElem (by omega), Option.getD_some]

theorem statScan_eq (hname : name.length ≤ 11) (junk b : Buf) :
    statScan junk b name = scanStat name b := by
  unfold statScan scanStat scanBy
  refine scan_congr fun i _ => ⟨rfl, ?_⟩
  unfold statMatches
  dsimp only
  rw [cells_getD (by rw [length_formatName83]; exact hname)]
  rfl

theorem SameCluster.scanStat (h : SameCluster b b') (hname : name.length ≤ 11) :
    scanStat name b = scanStat name b' :=
  h.scanBy local_hasNoAttr (local_hasStatName hname)

theorem scanStat_hit (h : scanStat name b = .hit i) :
    i < slotsPerCluster ∧ cells name.length (slot b i) = (formatName83 name).take name.length := by
  unfold scanStat scanBy at h
  obtain ⟨hi, ⟨-, hhit⟩, -⟩ := scan_eq_hit_iff.mp h
  rw [hasStatName, Bool.and_eq_true, beq_iff_eq] at hhit
  exact ⟨hi, hhit.2⟩

/-- **The loop of `fat32_stat`** is a search, as long as it does not leave the chain. -/
theorem statLoop_spec (h : Rep g m d v) (hS : v.Closed g.clusters S) (hname : name.length ≤ 11)
    (hsearch : v.Search (scanStat name) c (.at k i)) (hc : c ∈ S) {st : DirentStat}
    (hrun : statLoop g.part junk d name parent fuel c buf = some st) :
    st = ⟨name.take 11, if v.slot k i 11 = 0x10 then .directory else .file, parent⟩ := by
  generalize hr : SearchEnd.at k i = r at hsearch
  induction hsearch generalizing fuel buf with
  | here hscan =>
    cases hr
    cases fuel with
    | zero => cases hrun
    | succ fuel =>
      obtain ⟨⟨hc2, hcn⟩, -⟩ := hS k hc
      have hsame := h.readCluster_same hc2 hcn buf
      have hi := (scanStat_hit hscan).1
      rw [statLoop, statScan_eq hname, hsame.scanStat hname, hscan] at hrun
      dsimp only at hrun
      rw [show slotAttr (readCluster g.part d k buf).1 i = v.slot k i 11 from
        hsame.slot hi 11 (by decide)] at hrun
      exact (Option.some.inj hrun).symm
  | stop _ => cases hr
  | last _ _ => cases hr
  | @next c c' r hscan hn _ ih =>
    cases fuel with
    | zero => cases hrun
    | succ fuel =>
      obtain ⟨⟨hc2, hcn⟩, hnext⟩ := hS c hc
      have hsame := h.readCluster_same hc2 hcn buf
      rw [statLoop, statScan_eq hname, hsame.scanStat hname, hscan] at hrun
      rw [h.getNextCluster_eq hcn, v.follow_of_next_some hn] at hrun
      exact ih (hnext c' hn) hrun hr

end StatSearch

end Stat

end CarrotOS.Fat32
