import CarrotOS.Fs.Step

/-!
# Renaming

`fat32_rename` puts a copy of the source's entry into the destination's directory, removes the
source's entry by a second lookup, and for a directory corrects the entry `..` of the cluster to
which the destination leads. Between the first two steps two entries have the same chain. Under
conditions on the volume before the call the second lookup finds the source, and the volume is tidy
at the end.
-/

namespace CarrotOS.Fat32

open Bytes LinkTable Function List Option Vol

variable {i' j k' z : ℕ} {b e : Buf} {name path t : List UInt8}

/-! ## An entry is put into a slot -/

theorem Live.not_free (h : Live e) : ¬ IsFree e := not_or.mpr ⟨h.1, h.2.1⟩

namespace Placed

variable {g : Geometry} {S : Set ℕ} {L : Owner → List ℕ} {p : ℕ × ℕ} {e : Buf} {v v₁ : Vol}
  {n x c i k q : ℕ} {t name : List UInt8} {ts : List (List UInt8)} {stop hit : Buf → Bool}

theorem ne_of_not_free (h : Placed S p e v v₁) (hx : x ∈ S) (hfree : ¬ IsFree (v.slot x i)) :
    (x, i) ≠ p := by
  rintro rfl
  exact hfree (h.here hx).1

theorem test_eq (h : Placed S p e v v₁) (hstop : Local stop) (hhit : Local hit) (hx : x ∈ S)
    (he : stop e = false) (hj : j < slotsPerCluster)
    (hold : stop (v.slot x j) = false ∧ hit (v.slot x j) = false) :
    stop (v₁.slot x j) = false ∧ (hit (v₁.slot x j) = false ∨ (x, j) = p ∧ hit e = true) := by
  by_cases hp : (x, j) = p
  · subst hp
    have hsame := (h.here hx).2
    rw [hstop _ _ hsame, hhit _ _ hsame]
    refine ⟨he, ?_⟩
    cases hhe : hit e with
    | false => exact .inl rfl
    | true => exact .inr ⟨rfl, rfl⟩
  · have hsame := h.slots x hx j hj hp
    rw [hstop _ _ hsame, hhit _ _ hsame]
    exact ⟨hold.1, .inl hold.2⟩

theorem first_hit {stop hit : Buf → Bool} {p bound : ℕ} (hp : p < bound)
    (hbound : bound ≤ slotsPerCluster)
    (hbefore : ∀ j < bound, stop (slot b j) = false ∧ (hit (slot b j) = false ∨ j = p))
    (hhit : hit (slot b p) = true) : scanBy stop hit b = .hit p := by
  refine scan_eq_hit_iff.mpr ⟨by omega, ⟨(hbefore p hp).1, hhit⟩, ?_⟩
  intro j hj
  exact ⟨(hbefore j (by omega)).1, (hbefore j (by omega)).2.resolve_right (by omega)⟩

section

variable (h : Placed S p e v v₁) (hstop : Local stop) (hhit : Local hit)
include h hstop hhit

/-- The tests in front of `bound` fail as before, or the new entry is the first one that is hit. -/
theorem tests_before {bound : ℕ} (hbound : bound ≤ slotsPerCluster) (hx : x ∈ S)
    (he : stop e = false)
    (hold : ∀ j < bound, stop (v.slot x j) = false ∧ hit (v.slot x j) = false) :
    (∀ j < bound, stop (v₁.slot x j) = false ∧ hit (v₁.slot x j) = false) ∨
      (p.1 = x ∧ hit e = true ∧ scanBy stop hit (v₁.data x) = .hit p.2) := by
  have htest := fun j (hj : j < bound) =>
    h.test_eq hstop hhit hx he (hj.trans_le hbound) (hold j hj)
  by_cases hfilled : p.1 = x ∧ p.2 < bound ∧ hit e = true
  · obtain ⟨hpx, hpi, hpe⟩ := hfilled
    refine .inr ⟨hpx, hpe, first_hit hpi hbound (fun j hj => ?_) ?_⟩
    · exact ⟨(htest j hj).1, (htest j hj).2.imp_right fun hp => congrArg Prod.snd hp.1⟩
    · subst hpx
      exact (hhit _ _ (h.here hx).2).trans hpe
  · refine .inl fun j hj => ⟨(htest j hj).1, (htest j hj).2.resolve_right ?_⟩
    rintro ⟨rfl, hpe⟩
    exact hfilled ⟨rfl, hj, hpe⟩

theorem scan_hit (hx : x ∈ S) (he : stop e = false) (hscan : scanBy stop hit (v.data x) = .hit i)
    (hne : (x, i) ≠ p) :
    scanBy stop hit (v₁.data x) = .hit i ∨
      (p.1 = x ∧ hit e = true ∧ scanBy stop hit (v₁.data x) = .hit p.2) := by
  obtain ⟨hi, hat, hbefore⟩ := scan_eq_hit_iff.mp hscan
  refine (h.tests_before hstop hhit hi.le hx he hbefore).imp_left fun htests => ?_
  have hsame := h.slots x hx i hi hne
  exact scan_eq_hit_iff.mpr
    ⟨hi, ⟨(hstop _ _ hsame).trans hat.1, (hhit _ _ hsame).trans hat.2⟩, htests⟩

theorem search (hS : v.Closed n S) (he : stop e = false)
    (hsearch : v.Search (scanBy stop hit) c (.at k i)) (hne : (k, i) ≠ p) (hc : c ∈ S) :
    v₁.Search (scanBy stop hit) c (.at k i) ∨
      (hit e = true ∧ p.1 ∈ S ∧ Reaches v.next c p.1 ∧
        v₁.Search (scanBy stop hit) c (.at p.1 p.2)) := by
  generalize hr : SearchEnd.at k i = r at hsearch ⊢
  induction hsearch with
  | here hscan =>
    cases hr
    rcases h.scan_hit hstop hhit hc he hscan hne with hsame | ⟨rfl, hpe, hnew⟩
    · exact .inl (.here hsame)
    · exact .inr ⟨hpe, hc, .refl, .here hnew⟩
  | stop _ => cases hr
  | last _ _ => cases hr
  | next hscan hn _ ih =>
    rcases h.tests_before hstop hhit le_rfl hc he (scan_eq_exhausted_iff.mp hscan) with
      htests | ⟨rfl, hpe, hnew⟩
    · have hsame := scan_eq_exhausted_iff.mpr htests
      have hn1 := h.next _ hc _ hn
      rcases ih ((hS _ hc).2 _ hn) hr with hrest | ⟨hpe, hp, hreach, hrest⟩
      · exact .inl (.next hsame hn1 hrest)
      · exact .inr ⟨hpe, hp, .head hn hreach, .next hsame hn1 hrest⟩
    · exact .inr ⟨hpe, hc, .refl, .here hnew⟩

end

/-- The name of the new entry does not occur in the cluster of its slot. -/
def Fresh (S : Set ℕ) (p : ℕ × ℕ) (e : Buf) (v : Vol) : Prop :=
  p.1 ∈ S → ∀ j < slotsPerCluster, cells 11 (v.slot p.1 j) ≠ cells 11 e

/-- The name of the new entry is that of no entry in use in the cluster of its slot. -/
def NewIn (S : Set ℕ) (p : ℕ × ℕ) (e : Buf) (v : Vol) : Prop :=
  p.1 ∈ S → ∀ j < slotsPerCluster, Live (v.slot p.1 j) → cells 11 (v.slot p.1 j) ≠ cells 11 e

theorem Fresh.newIn (h : Fresh S p e v) : NewIn S p e v :=
  fun hp j hj _ => h hp j hj

theorem scanToken_hit (h : Placed S p e v v₁) (hnew : NewIn S p e v) (he : e 0 ≠ 0) (hx : x ∈ S)
    (hscan : scanToken (v.data x) t = .hit i) :
    scanToken (v₁.data x) t = .hit i ∧ SameEntry (v₁.slot x i) (v.slot x i) := by
  obtain ⟨hi, hlive, hname⟩ := live_of_scanToken hscan
  have hne : (x, i) ≠ p := h.ne_of_not_free hx hlive.not_free
  have hstop : isUnused e = false := beq_eq_false_iff_ne.mpr he
  refine ⟨?_, h.slots x hx i hi hne⟩
  rcases h.scan_hit local_isUnused (local_hasToken t) hx hstop hscan hne with hsame | ⟨rfl, hpe, -⟩
  · exact hsame
  · -- the new entry would have the name of the one that was found
    rw [hasToken, Bool.and_eq_true, matchName, beq_iff_eq] at hpe
    exact absurd (hname.trans hpe.2.symm) (hnew hx i hi hlive)

/-- **A path that leads through directories** still leads to the same cluster. -/
theorem find_eq (h : Placed S p e v v₁) (htidy : Tidy g v S L) (hnew : NewIn S p e v) (he : e 0 ≠ 0)
    {P : Buf → Prop} (hlead : v.Leads P ts c) (hfind : v.find ts c = some q) (hc : c ∈ S) :
    v₁.find ts c = some q ∧ v₁.Readable g.clusters ts c := by
  induction ts generalizing c with
  | nil => exact ⟨hfind, trivial⟩
  | cons t ts ih =>
    obtain ⟨i, hscan, hfind⟩ := v.find_cons_eq_some hfind
    obtain ⟨hscan1, hsame⟩ := h.scanToken_hit hnew he hc hscan
    have hslot := hlead i hscan
    have hunique : ∀ i', scanToken (v₁.data c) t = .hit i' → i' = i :=
      fun i' hi' => (Scan.hit.inj (hscan1.symm.trans hi')).symm
    rw [v₁.find_of_hit hscan1, hsame.cluster]
    split at hslot
    · rename_i hnil
      subst hnil
      refine ⟨hfind, (htidy.closed c hc).1, fun i' hi' => trivial⟩
    · have hmem := htidy.cluster_mem (Tidy.in_of_scanToken hc hscan) hslot.1 hslot.2.1
      obtain ⟨hrest, hread⟩ := ih hslot.2.2 hfind hmem
      refine ⟨hrest, (htidy.closed c hc).1, fun i' hi' => ?_⟩
      rw [hunique i' hi', hsame.cluster]
      exact hread

end Placed

/-! ## An entry is removed -/

section Removed

variable {g : Geometry} {m : Prop} {d d' : Disk} {v v₁ : Vol} {S : Set ℕ} {L : Owner → List ℕ}
  {p : ℕ × ℕ} {e : Buf} {x c i j k k' i' : ℕ} {t : List UInt8} {ts : List (List UInt8)}

theorem scanToken_erased (hi : i < slotsPerCluster)
    (hscan : scanToken ((v.setSlot k i erased).data x) t = .hit j) :
    scanToken (v.data x) t = .hit j ∧ SameEntry ((v.setSlot k i erased).slot x j) (v.slot x j) := by
  obtain ⟨hj, hat, hbefore⟩ := scan_eq_hit_iff.mp hscan
  have hsame : ∀ j' ≤ j, isUnused ((v.setSlot k i erased).slot x j') = false →
      SameEntry ((v.setSlot k i erased).slot x j') (v.slot x j') := by
    intro j' hj' hused
    refine v.setSlot_slot_of_ne (by omega) ?_
    rintro heq
    cases heq
    rw [local_isUnused _ _ (v.setSlot_slot_self x hi erased)] at hused
    cases hused
  refine ⟨scan_eq_hit_iff.mpr ⟨hj, ?_, ?_⟩, hsame j le_rfl hat.1⟩
  · have h := hsame j le_rfl hat.1
    exact (h.tests t).mp hat
  · intro j' hj'
    have h := hsame j' hj'.le (hbefore j' hj').1
    exact (h.tests t).mp (hbefore j' hj')

/-- **An entry takes over the chain of another**, which is removed. -/
theorem Tidy.move (h : Tidy g v S L) (ho : (Owner.slot k i).In S v) (hk' : k' ∈ S)
    (hi' : i' < slotsPerCluster) (hfree : IsFree (v.slot k' i'))
    (hdir : IsDir e ↔ IsDir (v.slot k i))
    (hcluster : getEntryCluster e = getEntryCluster (v.slot k i)) :
    ∃ L', Tidy g ((v.setSlot k' i' e).setSlot k i erased) S L' := by
  have hlive := ho.2.2
  have hne : (k', i') ≠ (k, i) := by
    intro heq
    cases heq
    exact hfree.elim hlive.1 hlive.2.1
  -- the source is removed first
  have hkill := h.kill ho.1 ho.2.1 not_live_erased fun hdot => absurd hdot hlive.2.2.1
  have hslot := v.setSlot_slot_of_ne (e := erased) hi' hne
  rw [v.setSlot_comm hne]
  refine ⟨update (update L (.slot k i) []) (.slot k' i') (L (.slot k i)),
    hkill.setSlot hk' hi' ?_ ?_ ?_ ?_ ?_ ?_ ?_⟩
  · intro _
    rw [hcluster]
    exact h.family.lists _ ho
  · intro _ o ho' _ y hy hy'
    by_cases hos : o = .slot k i
    · subst hos
      rw [update_self] at hy'
      cases hy'
    · rw [update_of_ne hos] at hy'
      exact h.family.disjoint o _ ((Owner.in_setSlot hos).mp ho') ho hos y hy' hy
  · intro _
    exact h.range _ ho
  · intro _ hd
    exact h.dirs _ ho (hdir.mp hd)
  · intro _ hd
    exact h.files _ ho fun hd' => hd (hdir.mpr hd')
  · intro _ hd hcne
    rw [hcluster] at hcne ⊢
    have hdot := h.dots k i ho (hdir.mp hd) hcne
    have hother : (getEntryCluster (v.slot k i), 1) ≠ (k, i) := by
      intro heq
      obtain ⟨hck, rfl⟩ := Prod.mk.inj heq
      rw [hck] at hdot
      exact hlive.2.2.1 hdot
    rw [v.setSlot_slot_of_ne (by decide) hother 0 (by decide)]
    exact hdot
  · intro hdot
    rw [hslot 0 (by decide)] at hdot
    exact absurd hdot hfree.ne_dot

/-- A path whose directories were found leads through the same directories, as far as it is
found. -/
theorem Placed.leads_removed (h : Placed S p e v v₁) (htidy : Tidy g v S L)
    (hfresh : Placed.Fresh S p e v) (he : e 0 ≠ 0) (hi : i < slotsPerCluster)
    (hlead : v.Leads IsSubdir ts c) (hcase : (∃ q, v.find ts c = some q) ∨ p.1 ∉ S) (hc : c ∈ S)
    (t : List UInt8) : (v₁.setSlot k i erased).Leads (fun _ => True) (ts ++ [t]) c := by
  induction ts generalizing c with
  | nil =>
    intro j _
    trivial
  | cons t' ts ih =>
    intro j hscan
    rw [if_neg (by simp)]
    obtain ⟨hscan1, hsame1⟩ := scanToken_erased hi hscan
    -- the component was found in the same slot before
    have hold : scanToken (v.data c) t' = .hit j ∧ SameEntry (v₁.slot c j) (v.slot c j) ∧
        ((∃ q, v.find ts (getEntryCluster (v.slot c j)) = some q) ∨ p.1 ∉ S) := by
      rcases hcase with ⟨q, hq⟩ | hp
      · obtain ⟨j0, hscan0, hq⟩ := v.find_cons_eq_some hq
        obtain ⟨hhit, hsame⟩ := h.scanToken_hit hfresh.newIn he hc hscan0
        obtain rfl : j0 = j := Scan.hit.inj (hhit.symm.trans hscan1)
        exact ⟨hscan0, hsame, .inl ⟨q, hq⟩⟩
      · have hslots : ∀ j < slotsPerCluster, SameEntry (v₁.slot c j) (v.slot c j) := by
          intro j hj
          refine h.slots c hc j hj ?_
          rintro rfl
          exact hp hc
        have heq : scanToken (v₁.data c) t' = scanToken (v.data c) t' :=
          scan_congr fun j hj =>
            ⟨local_isUnused _ _ (hslots j hj), local_hasToken t' _ _ (hslots j hj)⟩
        exact ⟨heq.symm.trans hscan1, hslots j (live_of_scanToken hscan1).1, .inr hp⟩
    obtain ⟨hscan0, hsame, hcase'⟩ := hold
    have hslot := hlead j hscan0
    have hsub : IsSubdir (v.slot c j) := by
      split at hslot
      · exact hslot
      · exact ⟨hslot.1, hslot.2.1⟩
    rw [hsame1.isDir, hsame.isDir, hsame1.cluster, hsame.cluster]
    refine ⟨hsub.1, hsub.2,
      ih ?_ hcase' (htidy.cluster_mem (Tidy.in_of_scanToken hc hscan0) hsub.1 hsub.2)⟩
    split at hslot
    · rename_i hnil
      subst hnil
      trivial
    · exact hslot.2.2

/-- The end of `fat32_rename` for a directory changes an entry that is not in use, or the contents
of a file. -/
theorem setParentEntry_tidy (hr : Rep g m d v) (h : Tidy g v S L) {des : List UInt8}
    (hlead : v.Leads (fun _ => True) (tokens des) g.root) (hne : tokens des ≠ []) (junk : ℕ → Buf)
    (parent : ℕ) :
    ∃ v' L', Rep g m (setParentEntry g.part junk d des parent) v' ∧ Tidy g v' S L' ∧
      Vol.Fewer S v v' := by
  obtain ⟨hread, hcases⟩ := h.find_cases h.root_mem hlead
  have hfind : findClusterFromPath g.part (fun n => junk (n + 1)) d des = v.resolve g.root des :=
    hr.findClusterFromPath_eq (fun _ => hread) _
  rw [setParentEntry, hfind]
  by_cases hzero : v.resolve g.root des = 0
  · rw [hzero, Rep.writeCluster_of_lt _ _ (by decide)]
    exact ⟨v, L, hr, h, .refl S v⟩
  have hslot : ∃ k i, (Owner.slot k i).In S v ∧
      v.resolve g.root des = getEntryCluster (v.slot k i) := by
    rw [resolve] at hzero ⊢
    split at hzero
    · rename_i hhead
      rw [if_pos hhead]
      rcases hcases with hnone | ⟨hnil, -⟩ | ⟨k, i, ho, -, hsome⟩
      · rw [hnone] at hzero
        exact absurd rfl hzero
      · exact absurd hnil hne
      · rw [hsome]
        exact ⟨k, i, ho, rfl⟩
    · exact absurd rfl hzero
  obtain ⟨k, i, ho, hf⟩ := hslot
  rw [hf] at hzero ⊢
  set f := getEntryCluster (v.slot k i) with hfdef
  have hmem := (h.linked_slot ho hzero).mem_self
  obtain ⟨hf2, hfn⟩ := h.range _ ho f hmem
  have hsame := hr.readCluster_same hf2 hfn (junk 0)
  have hnew : SameEntry (withCluster parent (slot (readCluster g.part d f (junk 0)).1 1))
      (withCluster parent (v.slot f 1)) :=
    SameEntry.withCluster (hsame.slot (by decide)) parent
  have hrep := hr.writeSlot_rep hf2 hfn hsame 1
    (withCluster parent (slot (readCluster g.part d f (junk 0)).1 1))
  rw [v.setSlot_congr hnew] at hrep
  by_cases hdir : IsDir (v.slot k i)
  · have hdot := h.dots k i ho hdir hzero
    have hfirst : withCluster parent (v.slot f 1) 0 = dot :=
      (withCluster_of_lt _ _ (by decide)).trans hdot
    have hdead : ¬ Live (withCluster parent (v.slot f 1)) := fun hlive => hlive.2.2.1 hfirst
    exact ⟨_, _, hrep, h.kill (h.dirs _ ho hdir f hmem) (by decide) hdead fun _ => hfirst,
      fewer_setSlot S v f (by decide) hdead⟩
  · have hfS := h.files _ ho hdir f hmem
    exact ⟨_, L, hrep, h.setData_of_not_mem hfS _, v.fewer_setData hfS _⟩

end Removed

/-! ## `fat32_rename` -/

/-- The attribute that the second lookup of `fat32_rename` requires. -/
def moveAttr (isDir : Bool) : UInt8 := if isDir then 0x10 else 0x20

/-- What `fat32_rename` needs of the volume: the source is the entry in the slot `i` of the cluster
`k`, both lookups find it, and the destination does not exist and has room. -/
structure Vol.Movable (n root : ℕ) (v : Vol) (src des : List UInt8) (isDir : Bool) (k i : ℕ) :
    Prop where
  srcDir : v.DirPath root (parentPath src)
  desDir : v.DirPath root (parentPath des)
  parent : v.resolve root (parentPath src) ≠ 0
  live : Live (v.slot k i)
  source :
    v.Search (scanName (formatName83 (lastName src))) (v.resolve root (parentPath src)) (.at k i)
  removed : v.Search (scanEntry (moveAttr isDir) (formatName83 (lastName src)))
    (v.resolve root (parentPath src)) (.at k i)
  name : lastName src ≠ [] ∧ (lastName src).length ≤ 11
  stat : ∃ k' i', v.Search (scanStat (lastName src)) (v.resolve root (parentPath src)) (.at k' i') ∧
    (v.slot k' i' 11 = 0x10 ↔ isDir)
  room : v.resolve root (parentPath des) ≠ 0 → v.HasRoom n (v.resolve root (parentPath des))
  fresh : v.resolve root (parentPath des) ≠ 0 →
    ∀ k, Reaches v.next (v.resolve root (parentPath des)) k →
    ∀ i < slotsPerCluster, cells 11 (v.slot k i) ≠ formatName83 (lastName des)
  text : 0 ∉ des
  tokens : isDir → ∃ t, tokens des = Fat32.tokens (parentPath des) ++ [t]

section Rename

variable {g : Geometry} {m : Prop} {d d₁ d' : Disk} {v v₁ : Vol} {S S₁ : Set ℕ} {L : Owner → List ℕ}
  {src des : List UInt8} {isDir : Bool} {k i : ℕ} {p : ℕ × ℕ} {e : Buf} {env : FatEnv}

def renamed (name : List UInt8) (e : Buf) : Buf :=
  blit e 0 11 fun k => name.getD k 0

theorem renamed_name (h : name.length = 11) (e : Buf) :
    cells 11 (renamed name e) = name := by
  have hcells : cells 11 (renamed name e) = cells 11 fun k => name.getD k 0 := by
    refine cells_congr fun j hj => ?_
    rw [renamed, blit_of_mem _ _ (Nat.zero_le j) (by omega), Nat.sub_zero]
  rw [hcells, cells_getD h.ge, take_of_length_le h.le]

theorem renamed_of_le (name : List UInt8) (e : Buf) (hj : 11 ≤ j) : renamed name e j = e j :=
  blit_of_not_mem _ _ (.inr (by omega))

theorem renamed_isDir (name : List UInt8) (e : Buf) : IsDir (renamed name e) ↔ IsDir e := by
  rw [IsDir, IsDir, renamed_of_le name e le_rfl]

theorem renamed_cluster (name : List UInt8) (e : Buf) :
    getEntryCluster (renamed name e) = getEntryCluster e := by
  have hword : ∀ a, 11 ≤ a → word 2 (renamed name e) a = word 2 e a :=
    fun a ha => leNat_congr fun i hi => renamed_of_le name e (by omega)
  rw [getEntryCluster, getEntryCluster, hword 20 (by decide), hword 26 (by decide)]

theorem formatName83_first_ne_zero (h : 0 ∉ t) : (formatName83 t).getD 0 0 ≠ 0 := by
  rw [formatName83]
  rcases hbase : (t.takeWhile (· ≠ dot)).take 8 with - | ⟨c, base⟩
  · simp [pad83, space, replicate_succ]
  · have hmem : c ∈ t := by
      refine (List.takeWhile_prefix (p := (· ≠ dot))).subset (mem_of_mem_take (i := 8) ?_)
      rw [hbase]
      exact mem_cons_self
    have hc : toupper c ≠ 0 := toupper_ne (by decide) fun hzero => h (hzero ▸ hmem)
    simpa [pad83] using hc

/-- **The second lookup of `fat32_rename`** removes the source. -/
theorem removeEntry_source (hr : Rep g m d₁ v₁) (hS : v₁.Closed g.clusters S₁) {q : ℕ} (hq : q ∈ S₁)
    (hfind : ∀ junk, findClusterFromPath g.part junk d₁ (parentPath src) = q)
    (hhead : src.head? = some slash) (hname : lastName src ≠ [] ∧ (lastName src).length ≤ 11)
    (hstat : v₁.Search (scanStat (lastName src)) q (.at k' i')) {rootError refusedError : ℤ}
    {refused : PathType}
    (htype : (if v₁.slot k' i' 11 = 0x10 then PathType.directory else .file) ≠ refused)
    {attr : UInt8} (hsearch : v₁.Search (scanEntry attr (formatName83 (lastName src))) q (.at k i))
    {r : Disk × ℤ}
    (hrun : removeEntry g.part rootError refused refusedError attr env d₁ src = some r) :
    Rep g m r.1 (v₁.setSlot k i erased) := by
  have hroot : src ≠ [slash] := by
    rintro rfl
    exact hname.1 rfl
  rw [removeEntry, if_neg (not_not.mpr hhead), if_neg hroot] at hrun
  obtain ⟨st, hst, hrest⟩ := bind_eq_some_iff.mp hrun
  rw [fat32Stat, if_neg (not_not.mpr hhead), if_neg hroot] at hst
  rw [hfind] at hst
  obtain rfl := statLoop_spec hr hS hname.2 hstat hq hst
  rw [if_neg (by split <;> simp), if_neg htype, take_of_length_le hname.2] at hrest
  obtain ⟨⟨d2, w⟩, hwalk, rfl⟩ := map_eq_some_iff.mp hrest
  rcases editEntry_spec hr hS (fun _ _ _ _ _ => rfl) hq hwalk with
    ⟨k2, i2, hs, -, hrep⟩ | ⟨k2, hs, -⟩ | ⟨k2, hs, -⟩
  · cases hs.unique hsearch
    exact hrep
  · cases hs.unique hsearch
  · cases hs.unique hsearch

/-- The volume after the first step of `fat32_rename`: the new entry is in its slot, and without the
source the volume is tidy. -/
structure Copied (g : Geometry) (m : Prop) (S : Set ℕ) (v : Vol) (k i : ℕ) (e : Buf)
    (des : List UInt8) (d₁ : Disk) (p : ℕ × ℕ) (v₁ : Vol) (S₁ : Set ℕ) : Prop where
  rep : Rep g m d₁ v₁
  placed : Placed S p e v v₁
  subset : S ⊆ S₁
  closed : v₁.Closed g.clusters S₁
  tidy : ∃ L', Tidy g (v₁.setSlot k i erased) S₁ L'
  slot : p.1 ∈ S → v.resolve g.root (parentPath des) ≠ 0 ∧
    Reaches v.next (v.resolve g.root (parentPath des)) p.1

theorem copied_found (hr : Rep g m d v) (h : Tidy g v S L) (ho : (Owner.slot k i).In S v)
    (hp : v.resolve g.root (parentPath des) ∈ S)
    (hsearch : v.Search scanFree (v.resolve g.root (parentPath des)) (.at k' i'))
    (hb : SameCluster b (v.data k')) (hdir : IsDir e ↔ IsDir (v.slot k i))
    (hcluster : getEntryCluster e = getEntryCluster (v.slot k i)) :
    Copied g m S v k i e des (placeEntry g.part d e (.found k' i' b)) (k', i')
      (v.setSlot k' i' e) S := by
  obtain ⟨hreach, hscan⟩ := hsearch.at_spec
  obtain ⟨hi', hfree⟩ := isFree_of_scanFree hscan
  have hk' := h.closed.reaches hp hreach
  obtain ⟨⟨hk2, hkn⟩, -⟩ := h.closed k' hk'
  constructor
  · exact hr.writeSlot_rep hk2 hkn hb i' e
  · exact .of_setSlot S hi' hfree e
  · exact subset_rfl
  · exact h.closed
  · exact h.move ho hk' hi' hfree hdir hcluster
  · intro _
    refine ⟨?_, hreach⟩
    have := (h.closed _ hp).1.1
    omega

/-- The copy goes into a further cluster of the directory. -/
theorem copied_extended (des : List UInt8) (hr : Rep g m d v) (h : Tidy g v S L)
    (hl : (Owner.slot k i).In S v) {o : Owner} (ho : o.In S v) (hod : o.Dir v)
    (hz : (L o).getLast? = some z) (hb : 2 ≤ v.blank g.clusters ∧ v.blank g.clusters < g.clusters)
    (hfree : v.fat (v.blank g.clusters) = 0) (hdir : IsDir e ↔ IsDir (v.slot k i))
    (hcluster : getEntryCluster e = getEntryCluster (v.slot k i)) :
    Copied g False S v k i e des (placeEntry g.part d e (.absent z)) (v.blank g.clusters, 0)
      ((v.extended z (v.blank g.clusters)).setSlot (v.blank g.clusters) 0 e)
      (Insert.insert (v.blank g.clusters) S) := by
  obtain ⟨hbS, hbL⟩ := h.not_mem_of_free hfree
  set b := v.blank g.clusters with hbdef
  have hzmem := mem_of_getLast? hz
  obtain ⟨a, -, hlink⟩ := h.linked_of_mem ho hzmem
  have hext := h.extendDir ho hod hz hb hfree
  have hslot : ∀ x ∈ S, (v.extended z b).slot x = v.slot x :=
    fun x hx => setData_slot_of_ne _ (ne_of_mem_of_not_mem hx hbS) _
  have hl' : (Owner.slot k i).In (Insert.insert b S) (v.extended z b) := by
    refine ⟨.inr hl.1, hl.2.1, ?_⟩
    rw [hslot k hl.1]
    exact hl.2.2
  have hempty : IsFree ((v.extended z b).slot b 0) :=
    .inl (v.extended_slot z b (by decide) (by decide))
  constructor
  · rw [placeEntry, hr.findBlankCluster_eq]
    have hrext := hr.extendDirentCluster_rep (h.range o ho z hzmem).2 hb.1 hb.2
    exact hrext.writeSlot_rep hb.1 hb.2 (v.extended_same z b) 0 e
  · -- the last cluster of the directory has no successor yet
    exact .of_extended (hlink.getLast_next hz) hbS e
  · exact Set.subset_insert b S
  · exact hext.closed
  · refine hext.move hl' (.inl rfl) (by decide) hempty ?_ ?_
    · rw [hslot k hl.1]
      exact hdir
    · rw [hslot k hl.1]
      exact hcluster
  · intro hmem
    exact absurd hmem hbS

/-- The directory of the destination does not exist. -/
theorem copied_lost (des : List UInt8) (hr : Rep g m d v) (h : Tidy g v S L)
    (hl : (Owner.slot k i).In S v) :
    ∃ p v₁, Copied g False S v k i e des (placeEntry g.part d e (.absent 0)) p v₁ S ∧
      Vol.AgreeOn S v v₁ ∧ p.1 ∉ S := by
  obtain ⟨v₁, L', htidy, hrep, hagree, -⟩ := place_lost hr h e
  have hzero := h.zero_not_mem
  refine ⟨(0, 0), v₁, ⟨hrep, .of_agreeOn e hzero hagree, subset_rfl, htidy.closed, ?_,
    fun hmem => absurd hmem hzero⟩, hagree, hzero⟩
  refine ⟨_, htidy.kill hl.1 hl.2.1 not_live_erased fun hdot => ?_⟩
  rw [hagree.slot hl.1] at hdot
  exact absurd hdot hl.2.2.2.2.1

theorem parentPath_head (h : path.head? = some slash) :
    (parentPath path).head? = some slash := by
  rw [parentPath]
  split
  · rfl
  · rename_i hne
    cases path with
    | nil => cases h
    | cons c rest =>
      cases hlast : lastSlash (c :: rest) with
      | zero => simp [hlast] at hne
      | succ n => exact h

theorem Vol.find_of_resolve {root : ℕ} (h : v.resolve root path ≠ 0) :
    path.head? = some slash ∧ v.find (tokens path) root = some (v.resolve root path) := by
  rw [resolve] at h ⊢
  split at h
  · rename_i hhead
    rw [if_pos hhead]
    refine ⟨hhead, ?_⟩
    cases hfind : v.find (tokens path) root with
    | none =>
      rw [hfind] at h
      exact absurd rfl h
    | some q => rfl
  · exact absurd rfl h

theorem Tidy.parent_unique (h : Tidy g v S L) (hr : Rep g m d v) {path' : List UInt8}
    (hdir : v.DirPath g.root path) (hdir' : v.DirPath g.root path')
    (hne : v.resolve g.root path ≠ 0) (hne' : v.resolve g.root path' ≠ 0) {x : ℕ}
    (hx : Reaches v.next (v.resolve g.root path) x)
    (hx' : Reaches v.next (v.resolve g.root path') x) :
    v.resolve g.root path = v.resolve g.root path' := by
  obtain ⟨o, ho, hod, hhead⟩ := ((h.parent hr hdir fun _ _ => 0).2).resolve_left hne
  obtain ⟨o', ho', hod', hhead'⟩ := ((h.parent hr hdir' fun _ _ => 0).2).resolve_left hne'
  have hmem := (h.head_mem ho hod hhead).2.mem_iff_reaches.mpr hx
  have hmem' := (h.head_mem ho' hod' hhead').2.mem_iff_reaches.mpr hx'
  by_cases hoo : o = o'
  · subst hoo
    exact some.inj (hhead.symm.trans hhead')
  · exact absurd hmem' (h.family.disjoint o o' ho ho' hoo x hmem)

theorem first_of_cells {n : ℕ} (hn : n ≠ 0) (h : cells n e = name.take n) :
    e 0 = name.getD 0 0 := by
  obtain ⟨n, rfl⟩ := Nat.exists_eq_succ_of_ne_zero hn
  have hhead := congrArg head? h
  rw [cells, range_succ_eq_map] at hhead
  cases name with
  | nil => cases hhead
  | cons c rest => exact some.inj hhead

theorem first_ne_zero_of_name (hname : cells 11 e = formatName83 t) (h : 0 ∉ t) : e 0 ≠ 0 := by
  rw [first_of_cells (by decide) (hname.trans (take_of_length_le (length_formatName83 _).le).symm)]
  exact formatName83_first_ne_zero h

section Rest

variable (hc : Copied g m S v k i e des d₁ p v₁ S₁) (h : Tidy g v S L)
  (hmov : v.Movable g.clusters g.root src des isDir k i)
  (hename : cells 11 e = formatName83 (lastName des)) (heattr : e 11 = moveAttr isDir)
include hc hmov hename

theorem Copied.fresh : Placed.Fresh S p e v := by
  intro hp j hj
  obtain ⟨hne, hreach⟩ := hc.slot hp
  rw [hename]
  exact hmov.fresh hne p.1 hreach j hj

omit hc in
theorem Vol.Movable.first_ne_zero : e 0 ≠ 0 :=
  first_ne_zero_of_name hename fun hmem => hmov.text (mem_of_mem_drop hmem)

include h

theorem Copied.find_source (junk : ℕ → Buf) :
    findClusterFromPath g.part junk d₁ (parentPath src) = v.resolve g.root (parentPath src) := by
  obtain ⟨hhead, hfind⟩ := find_of_resolve hmov.parent
  obtain ⟨hfind1, hread⟩ :=
    hc.placed.find_eq h (hc.fresh hmov hename).newIn (hmov.first_ne_zero hename)
    (hmov.srcDir hhead) hfind h.root_mem
  rw [hc.rep.findClusterFromPath_eq (fun _ => hread), resolve, if_pos hhead, hfind1,
    getD_some]

omit hename in
include heattr in
/-- `fat32_stat` reports the type of the source. -/
theorem Copied.stat_source (hpS : v.resolve g.root (parentPath src) ∈ S) :
    ∃ k' i', v₁.Search (scanStat (lastName src)) (v.resolve g.root (parentPath src)) (.at k' i') ∧
      (v₁.slot k' i' 11 = 0x10 ↔ isDir) := by
  obtain ⟨k', i', hstat, htype⟩ := hmov.stat
  obtain ⟨hreach, hscan⟩ := hstat.at_spec
  obtain ⟨hi', hname⟩ := scanStat_hit hscan
  have hk' := h.closed.reaches hpS hreach
  -- the entry that is found starts like the source, so that its slot is not free
  have hsource := (scanName_hit hmov.source.at_spec.2).2
  have hfirst : v.slot k' i' 0 = v.slot k i 0 :=
    (first_of_cells (by simpa using hmov.name.1) hname).trans
      (first_of_cells (n := 11) (by decide)
        (hsource.trans (take_of_length_le (length_formatName83 _).le).symm)).symm
  have hne : (k', i') ≠ p := by
    refine hc.placed.ne_of_not_free hk' ?_
    rw [IsFree, hfirst]
    exact hmov.live.not_free
  have hattr : hasNoAttr e = false := by
    rw [hasNoAttr, heattr]
    cases isDir <;> rfl
  rcases hc.placed.search local_hasNoAttr (local_hasStatName hmov.name.2) h.closed hattr
    hstat hne hpS with hsame | ⟨-, hp, -, hnew⟩
  · refine ⟨k', i', hsame, ?_⟩
    rw [hc.placed.slots k' hk' i' hi' hne 11 (by decide)]
    exact htype
  · refine ⟨p.1, p.2, hnew, ?_⟩
    rw [(hc.placed.here hp).2 11 (by decide), heattr]
    cases isDir <;> decide

theorem Copied.search_source (hr : Rep g m d v) (hpS : v.resolve g.root (parentPath src) ∈ S) :
    v₁.Search (scanEntry (moveAttr isDir) (formatName83 (lastName src)))
      (v.resolve g.root (parentPath src)) (.at k i) := by
  obtain ⟨hreach, hscan⟩ := hmov.removed.at_spec
  obtain ⟨hi, -, hname⟩ := scanEntry_hit hscan
  have hk := h.closed.reaches hpS hreach
  have hne : (k, i) ≠ p := hc.placed.ne_of_not_free hk hmov.live.not_free
  have hunused : isUnused e = false := beq_eq_false_iff_ne.mpr (hmov.first_ne_zero hename)
  rcases hc.placed.search local_isUnused (local_hasEntry _ _) h.closed hunused hmov.removed
    hne hpS with
    hsame | ⟨hhit, hp, hreachp, -⟩
  · exact hsame
  · -- then both directories are the same, and the destination existed
    rw [hasEntry, Bool.and_eq_true, beq_iff_eq, beq_iff_eq, hename] at hhit
    obtain ⟨hne', hreachd⟩ := hc.slot hp
    have hsame := h.parent_unique hr hmov.srcDir hmov.desDir hmov.parent hne' hreachp hreachd
    rw [hsame] at hreach
    exact absurd (hname.trans hhit.2.symm) (hmov.fresh hne' k hreach i hi)

include heattr in
/-- **After the copy**, the source is removed and the volume is tidy. -/
theorem Copied.rest (hr : Rep g m d v) (hsrc : src.head? = some slash)
    (hdes : des.head? = some slash) {parent : ℕ} {env' : FatEnv} {junk : ℕ → Buf}
    (hrun : (if isDir then (fat32RmdirEntry g.part env' d₁ src).map fun r =>
        setParentEntry g.part junk r.1 des parent
      else (fat32UnlinkFileEntry g.part env' d₁ src).map Prod.fst) = some d') :
    ∃ v' L', Rep g m d' v' ∧ Tidy g v' S₁ L' ∧ Vol.Fewer S₁ v₁ v' := by
  have hpS := ((h.parent_mem hr hmov.srcDir fun _ _ => 0).2).resolve_left hmov.parent
  have hfind := hc.find_source h hmov hename
  obtain ⟨k', i', hstat, htype⟩ := hc.stat_source h hmov heattr hpS
  have hsearch := hc.search_source h hmov hename hr hpS
  obtain ⟨L1, htidy⟩ := hc.tidy
  have hfewer := fewer_setSlot S₁ v₁ k (scanEntry_hit hmov.removed.at_spec.2).1 not_live_erased
  cases isDir with
  | false =>
    obtain ⟨r, hremove, rfl⟩ := map_eq_some_iff.mp hrun
    refine ⟨_, L1, ?_, htidy, hfewer⟩
    refine removeEntry_source hc.rep hc.closed (hc.subset hpS) hfind hsrc hmov.name hstat ?_ hsearch
      hremove
    rw [if_neg (by simpa using htype)]
    exact nofun
  | true =>
    obtain ⟨r, hremove, rfl⟩ := map_eq_some_iff.mp hrun
    have hrep := removeEntry_source hc.rep hc.closed (hc.subset hpS) hfind hsrc hmov.name hstat
      (by rw [if_pos (by simpa using htype)]; exact nofun) hsearch hremove
    obtain ⟨t, ht⟩ := hmov.tokens rfl
    have hi := (scanEntry_hit hmov.removed.at_spec.2).1
    have hlead := hc.placed.leads_removed h (hc.fresh hmov hename) (hmov.first_ne_zero hename) hi
      (hmov.desDir (parentPath_head hdes)) (k := k) (by
        by_cases hp : p.1 ∈ S
        · exact .inl ⟨_, (find_of_resolve (hc.slot hp).1).2⟩
        · exact .inr hp) h.root_mem t
    rw [← ht] at hlead
    obtain ⟨v', L', hrep', htidy', hfewer'⟩ :=
      setParentEntry_tidy hrep htidy hlead (by rw [ht]; simp) junk parent
    exact ⟨v', L', hrep', htidy', hfewer.trans hfewer'⟩

end Rest

/-- The destination's directory has a free slot. -/
def Vol.FreeSlotIn (v : Vol) (p : ℕ) : Prop :=
  p ≠ 0 ∧ ∃ k i, Reaches v.next p k ∧ i < slotsPerCluster ∧ IsFree (v.slot k i)

/-- **Renaming puts one entry into the directory of the destination** and removes another, under its
conditions. -/
theorem rename_grown (hr : Rep g m d v) (h : Tidy g v S L) (hdes : des.head? = some slash)
    (hsrc : src.head? = some slash) (hmov : v.Movable g.clusters g.root src des isDir k i)
    (hrun : fat32Rename g.part env d src des isDir = some d') :
    ∃ v' S' L' p, Tidy g v' S' L' ∧
      Rep g (m ∧ v.FreeSlotIn (v.resolve g.root (parentPath des))) d' v' ∧
      Grown S (v.resolve g.root (parentPath des)) (formatName83 (lastName des)) v p S' v' ∧
        (p.1 ∈ S' → v.resolve g.root (parentPath des) ≠ 0) := by
  rw [fat32Rename, if_neg (not_not.mpr hdes), if_neg (not_not.mpr hsrc)] at hrun
  obtain ⟨hfindS, hcaseS⟩ := h.parent_mem hr hmov.srcDir (env.junk 0)
  obtain ⟨hfindD, hcaseD⟩ := h.parent hr hmov.desDir (env.junk 2)
  have hpS := hcaseS.resolve_left hmov.parent
  rw [hfindS, hfindD] at hrun
  obtain ⟨source, hsource, hrun⟩ := bind_eq_some_iff.mp hrun
  -- the source is found
  have hentry : ∃ s, source = some s ∧ SameEntry s (v.slot k i) := by
    rcases findSource_spec hr h.closed hpS hsource with ⟨k2, i2, s, hs, hsame, rfl⟩ | ⟨z, hs, -⟩
    · cases hs.unique hmov.source
      exact ⟨s, rfl, hsame⟩
    · cases hs.unique hmov.source
  obtain ⟨s, rfl, hsame⟩ := hentry
  obtain ⟨place, hplace, hrun⟩ := bind_eq_some_iff.mp hrun
  have hlen := length_formatName83 (lastName des)
  have hename := renamed_name hlen s
  obtain ⟨hreach, hscan⟩ := hmov.removed.at_spec
  obtain ⟨hi, hattr, -⟩ := scanEntry_hit hscan
  have hl : (Owner.slot k i).In S v := ⟨h.closed.reaches hpS hreach, hi, hmov.live⟩
  have heattr : renamed (formatName83 (lastName des)) s 11 = moveAttr isDir := by
    rw [renamed_of_le _ _ le_rfl, hsame 11 (by decide)]
    exact hattr
  have hedir := (renamed_isDir (formatName83 (lastName des)) s).trans hsame.isDir
  have hecluster := (renamed_cluster (formatName83 (lastName des)) s).trans hsame.cluster
  have hfalse : Rep g False d v := hr.mono False.elim
  rcases hcaseD with hpD | ⟨o, ho, hod, hhead⟩
  · rw [hpD] at hplace
    generalize env.fuel = fuel at hplace
    cases fuel with
    | zero => cases hplace
    | succ fuel =>
      cases hplace
      obtain ⟨p, v₁, hcopied, hagree, hp⟩ := copied_lost des
        (e := renamed (formatName83 (lastName des)) s) hr h hl
      obtain ⟨v', L', hr', h', hfewer⟩ := hcopied.rest h hmov hename heattr hfalse hsrc hdes hrun
      exact ⟨v', S, L', p, h', hr'.mono fun hm => hm.2.1 hpD,
        (Grown.of_agreeOn h.closed hp hagree).fewer hfewer, fun hmem => absurd hmem hp⟩
  · obtain ⟨hpDS, hlink⟩ := h.head_mem ho hod hhead
    have hpne : v.resolve g.root (parentPath des) ≠ 0 := ne_of_mem_of_not_mem hpDS h.zero_not_mem
    rcases findFreeSlot_spec hr h.closed hpDS hplace with
      ⟨k', i', b, hsearch, hb, rfl⟩ | ⟨z, hsearch, rfl⟩
    · have hcopied := copied_found hr h hl hpDS hsearch hb hedir hecluster
      obtain ⟨v', L', hr', h', hfewer⟩ := hcopied.rest h hmov hename heattr hr hsrc hdes hrun
      obtain ⟨hreach', hscan'⟩ := hsearch.at_spec
      have hgrown := Grown.of_setSlot (h.closed.reaches hpDS hreach') (isFree_of_scanFree hscan').1
        hreach' hename
      exact ⟨v', S, L', (k', i'), h', hr'.mono And.left, hgrown.fewer hfewer, fun _ => hpne⟩
    · obtain ⟨hb2, hbn, hbfree⟩ := (hmov.room hpne).blank hsearch
      obtain ⟨-, hlast⟩ := h.last_of_absent ho hlink hsearch
      have hcopied := copied_extended des hr h hl ho hod hlast ⟨hb2, hbn⟩ hbfree hedir hecluster
      obtain ⟨v', L', hr', h', hfewer⟩ := hcopied.rest h hmov hename heattr hfalse hsrc hdes hrun
      have hreach' := hsearch.absent_spec.1
      have hgrown := Grown.of_setSlot (v := v.extended z (v.blank g.clusters)) (i := 0)
        (Set.mem_insert (v.blank g.clusters) S) (by decide) .refl hename
      refine ⟨v', _, L', _, h', hr'.mono ?_, .after_extend h.closed (h.closed.reaches hpDS hreach')
        (h.not_mem_of_free hbfree).1 hreach' (hgrown.fewer hfewer), fun _ => hpne⟩
      rintro ⟨-, -, k', i', hk', hi', hfree'⟩
      exact hsearch.full hk' hi' hfree'

/-- **Renaming keeps the volume tidy** under its conditions, and the copies of the FAT equal if no
directory is extended. -/
theorem rename_tidy (hr : Rep g m d v) (h : Tidy g v S L)
    (hok : des.head? = some slash → src.head? = some slash →
      ∃ k i, v.Movable g.clusters g.root src des isDir k i)
    (hrun : fat32Rename g.part env d src des isDir = some d') :
    ∃ v' S' L', Tidy g v' S' L' ∧ Rep g (m ∧ (des.head? = some slash → src.head? = some slash →
      v.FreeSlotIn (v.resolve g.root (parentPath des)))) d' v' := by
  by_cases hdes : des.head? = some slash
  · by_cases hsrc : src.head? = some slash
    · obtain ⟨k, i, hmov⟩ := hok hdes hsrc
      obtain ⟨v', S', L', -, htidy, hrep, -⟩ := rename_grown hr h hdes hsrc hmov hrun
      exact ⟨v', S', L', htidy, hrep.mono fun hm => ⟨hm.1, hm.2 hdes hsrc⟩⟩
    · rw [fat32Rename, if_neg (not_not.mpr hdes), if_pos hsrc] at hrun
      cases hrun
      exact ⟨v, S, L, h, hr.mono And.left⟩
  · rw [fat32Rename, if_pos hdes] at hrun
    cases hrun
    exact ⟨v, S, L, h, hr.mono And.left⟩

end Rename

end CarrotOS.Fat32
