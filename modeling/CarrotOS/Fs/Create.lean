import CarrotOS.Fs.Delete

/-!
# Creating by path

`fat32_create` looks for a free slot in all clusters of the parent directory, and adds a cluster if
there is none. The lookups read the first cluster of a directory only, and stop at an unused slot.
So a new entry is found afterwards if and only if its parent is found and the first cluster of the
parent has a free slot; and a name whose first byte marks deleted entries is never found.

The failure values of the lookup of the parent and of the search for a free cluster are not tested:
creating has no error for an absolute path.
-/

namespace CarrotOS.Fat32

open LinkTable List Option Vol

/-! ## Paths to directories -/

namespace Vol

/-- The components lead from the directory `c` to the directory `q`. -/
inductive DirFrom (v : Vol) : ℕ → List (List UInt8) → ℕ → Prop
  | nil {c : ℕ} : DirFrom v c [] c
  | step {c q : ℕ} {t : List UInt8} {ts : List (List UInt8)} {s : ℕ × ℕ} (h : v.Holds c s)
    (hname : v.nameAt s = formatName83 t) (hdir : IsSubdir (v.slot s.1 s.2))
    (hrest : DirFrom v (getEntryCluster (v.slot s.1 s.2)) ts q) : DirFrom v c (t :: ts) q

/-- The components lead from `c` to `q`, and each of them stands in the first cluster of its
directory, before any unused slot. -/
inductive Shown (v : Vol) : ℕ → List (List UInt8) → ℕ → Prop
  | nil {c : ℕ} : Shown v c [] c
  | step {c q i : ℕ} {t : List UInt8} {ts : List (List UInt8)} (h : v.Holds c (c, i))
    (hname : v.nameAt (c, i) = formatName83 t) (hdir : IsSubdir (v.slot c i))
    (hbefore : ∀ j < i, v.slot c j 0 ≠ 0) (hrest : Shown v (getEntryCluster (v.slot c i)) ts q) :
    Shown v c (t :: ts) q

variable {v : Vol} {root c q i : ℕ} {t : List UInt8} {comps ts us : List (List UInt8)} {s : ℕ × ℕ}

theorem DirFrom.inTree (h : v.DirFrom c comps q) (hc : v.InTree root c) : v.InTree root q := by
  induction h with
  | nil => exact hc
  | step h _ hdir _ ih => exact ih (.sub (hc.reaches h.1) h.2.1 h.2.2 hdir.1 hdir.2)

theorem DirFrom.entryAt (h : v.DirFrom c comps q) (hs : v.Holds q s)
    (hname : v.nameAt s = formatName83 t) : v.EntryAt c (comps ++ [t]) s := by
  induction h with
  | nil => exact .last hs hname
  | step h hname' hdir _ ih => exact .step h hname' hdir (ih hs)

theorem EntryAt.dirFrom (h : v.EntryAt c (comps ++ [t]) s) :
    ∃ q, v.DirFrom c comps q ∧ v.Holds q s ∧ v.nameAt s = formatName83 t := by
  induction comps generalizing c with
  | nil =>
    cases h with
    | last h hname => exact ⟨c, .nil, h, hname⟩
    | step _ _ _ hrest => exact absurd rfl hrest.ne_nil
  | cons u comps ih =>
    rw [cons_append] at h
    generalize hall : comps ++ [t] = rest at h ih
    cases h with
    | last _ _ => simp at hall
    | step h hname hdir hrest =>
      obtain ⟨q, hq, hs⟩ := ih hrest
      exact ⟨q, .step h hname hdir hq, hs⟩

/-- The slot of a component, and what is before it, decide whether it is found. -/
theorem UniqueNames.scanToken_iff (hu : v.UniqueNames root) (hc : v.InTree root c)
    (hs : v.Holds c (c, i)) (hname : v.nameAt (c, i) = formatName83 t) (ht : Name83 t) :
    scanToken (v.data c) (t.take (direntNameMaxLength - 1)) = .hit i ↔
      ∀ j < i, v.slot c j 0 ≠ 0 := by
  have hformat : matchFormat (t.take (direntNameMaxLength - 1)) = formatName83 t :=
    (matchFormat_take (by decide)).trans (matchFormat_eq ht.shortBase)
  constructor
  · intro hscan j hj
    exact used_of_scanToken hscan hj
  · intro hbefore
    have hstop : ∀ j ≤ i, isUnused (v.slot c j) = false := by
      intro j hj
      refine beq_eq_false_iff_ne.mpr ?_
      rcases Nat.lt_or_eq_of_le hj with hlt | rfl
      · exact hbefore j hlt
      · exact hs.2.2.1
    have hhit : hasToken (t.take (direntNameMaxLength - 1)) (v.slot c i) = true := by
      rw [hasToken, matchName, hformat, Bool.and_eq_true, Bool.and_eq_true, bne_iff_ne, bne_iff_ne,
        beq_iff_eq]
      exact ⟨⟨hs.2.2.2.1, hs.2.2.2.2.2⟩, hname⟩
    obtain ⟨j, -, hscan⟩ := exists_scan_eq_hit (fun j => isUnused (v.slot c j))
      (fun j => hasToken (t.take (direntNameMaxLength - 1)) (v.slot c j)) hs.2.1 hhit hstop
    -- the first hit is an entry with the name, so that it is in the slot
    cases hu.eq_of_scanToken hc hs hname ht hscan
    exact hscan

theorem find_append (v : Vol) (ts us : List (List UInt8)) (c : ℕ) :
    v.find (ts ++ us) c = (v.find ts c).bind (v.find us) := by
  induction ts generalizing c with
  | nil => rfl
  | cons t ts ih =>
    rw [cons_append, find, find]
    rcases scanToken (v.data c) t with - | i | -
    · rfl
    · exact ih _
    · rfl

section Lookup

variable (hu : v.UniqueNames root) (hc : v.InTree root c) (hshort : ∀ t ∈ comps, Name83 t)
include hu hc hshort

/-- **What the code finds on the way to a directory** is on that way. -/
theorem DirFrom.leads (h : v.DirFrom c comps q) :
    v.Leads IsSubdir (cut comps) c := by
  induction h with
  | nil => trivial
  | step h hname hdir _ ih =>
    intro i hscan
    obtain rfl := hu.eq_of_scanToken hc h hname (hshort _ mem_cons_self) hscan
    split
    · exact hdir
    · refine ⟨hdir.1, hdir.2, ih (.sub hc h.2.1 h.2.2 hdir.1 hdir.2) ?_⟩
      exact fun t ht => hshort t (mem_cons_of_mem _ ht)

theorem Shown.find (h : v.Shown c comps q) :
    v.find (cut comps) c = some q := by
  induction h with
  | nil => rfl
  | step h hname hdir hbefore _ ih =>
    have hscan := (hu.scanToken_iff hc h hname (hshort _ mem_cons_self)).mpr hbefore
    rw [cut, map_cons, Vol.find, hscan]
    refine ih (.sub hc h.2.1 h.2.2 hdir.1 hdir.2) ?_
    exact fun t ht => hshort t (mem_cons_of_mem _ ht)

theorem DirFrom.shown_of_find (h : v.DirFrom c comps q) {x : ℕ}
    (hfind : v.find (cut comps) c = some x) :
    x = q ∧ v.Shown c comps q := by
  induction h with
  | nil => exact ⟨(some.inj hfind).symm, .nil⟩
  | @step c q t ts s h hname hdir _ ih =>
    have ht := hshort t mem_cons_self
    obtain ⟨i, hscan, hfind⟩ := v.find_cons_eq_some hfind
    obtain rfl := hu.eq_of_scanToken hc h hname ht hscan
    obtain ⟨hx, hrest⟩ := ih (.sub hc h.2.1 h.2.2 hdir.1 hdir.2)
      (fun t' ht' => hshort t' (mem_cons_of_mem t ht')) hfind
    exact ⟨hx, .step h hname hdir ((hu.scanToken_iff hc h hname ht).mp hscan) hrest⟩

end Lookup

end Vol

/-! ## The new entry -/

namespace Placed

variable {g : Geometry} {S : Set ℕ} {L : Owner → List ℕ} {p s : ℕ × ℕ} {e : Buf} {v v1 : Vol}
  {x c q : ℕ} {t : List UInt8} {ts comps : List (List UInt8)} {P : Buf → Prop}

theorem scanToken_of_ne (h : Placed S p e v v1) (hx : x ∈ S) (hne : x ≠ p.1) (t : List UInt8) :
    scanToken (v1.data x) t = scanToken (v.data x) t := by
  refine scan_congr fun i hi => ?_
  have hsame := h.slots x hx i hi fun heq => hne (congrArg Prod.fst heq)
  exact ⟨local_isUnused _ _ hsame, local_hasToken t _ _ hsame⟩

/-- An entry outside the directories is not found. -/
theorem find_of_not_mem (h : Placed S p e v v1) (htidy : Tidy g v S L) (hp : p.1 ∉ S)
    (hlead : v.Leads P ts c) (hc : c ∈ S) :
    v1.find ts c = v.find ts c ∧ v1.Readable g.clusters ts c := by
  induction ts generalizing c with
  | nil => exact ⟨rfl, trivial⟩
  | cons t ts ih =>
    have hscan1 := h.scanToken_of_ne hc (ne_of_mem_of_not_mem hc hp) t
    rw [find, find, hscan1]
    rcases hscan : scanToken (v.data c) t with - | i | -
    · exact ⟨rfl, (htidy.closed c hc).1, fun i hi => by cases (hscan1.trans hscan).symm.trans hi⟩
    · have ho := Tidy.in_of_scanToken hc hscan
      have hsame := h.slots c hc i ho.2.1 fun heq => hp (heq ▸ hc)
      have hslot := hlead i hscan
      have hrest :
          v1.find ts (getEntryCluster (v.slot c i)) = v.find ts (getEntryCluster (v.slot c i)) ∧
          v1.Readable g.clusters ts (getEntryCluster (v.slot c i)) := by
        split at hslot
        · rename_i hnil
          subst hnil
          exact ⟨rfl, trivial⟩
        · exact ih hslot.2.2 (htidy.cluster_mem ho hslot.1 hslot.2.1)
      dsimp only
      rw [hsame.cluster]
      refine ⟨hrest.1, (htidy.closed c hc).1, fun i' hi' => ?_⟩
      cases (hscan1.trans hscan).symm.trans hi'
      rw [hsame.cluster]
      exact hrest.2
    · exact ⟨rfl, (htidy.closed c hc).1, fun i hi => by cases (hscan1.trans hscan).symm.trans hi⟩

/-- The new entry is found in its slot, if that is the first free one of its cluster. -/
theorem scanToken_new {i : ℕ} (h : Placed S (q, i) e v v1) (hq : q ∈ S)
    (hscan : scanFree (v.data q) = .hit i) (hnew : NewIn S (q, i) e v) (hlive : Live e)
    (hname : cells 11 e = matchFormat t) : scanToken (v1.data q) t = .hit i := by
  obtain ⟨hi, -, hbefore⟩ := scan_eq_hit_iff.mp hscan
  have hhere := (h.here hq).2
  have hsame : ∀ j < i, SameEntry (v1.slot q j) (v.slot q j) := by
    intro j hj
    exact h.slots q hq j (hj.trans hi) fun heq => by
      cases heq
      exact absurd hj (lt_irrefl i)
  have hstop : ∀ j ≤ i, isUnused (v1.slot q j) = false := by
    intro j hj
    refine beq_eq_false_iff_ne.mpr ?_
    rcases Nat.lt_or_eq_of_le hj with hlt | rfl
    · rw [hsame j hlt 0 (by decide)]
      exact beq_eq_false_iff_ne.mp (Bool.or_eq_false_iff.mp (hbefore j hlt).2).2
    · rw [hhere 0 (by decide)]
      exact hlive.1
  have hhit : hasToken t (v1.slot q i) = true := by
    rw [local_hasToken t _ _ hhere, hasToken, matchName, Bool.and_eq_true,
      Bool.and_eq_true, bne_iff_ne, bne_iff_ne, beq_iff_eq]
    exact ⟨⟨hlive.2.1, hlive.2.2.2⟩, hname⟩
  obtain ⟨j, hj, hscan1⟩ := exists_scan_eq_hit (fun j => isUnused (v1.slot q j))
    (fun j => hasToken t (v1.slot q j)) hi hhit hstop
  rcases Nat.lt_or_eq_of_le hj with hlt | rfl
  · -- an entry before it with the name was there before
    obtain ⟨hj', hlive', hname'⟩ := live_of_scanToken hscan1
    refine absurd ?_ (hnew hq j hj' ((hsame j hlt).live.mp hlive'))
    exact (hsame j hlt).name.symm.trans (hname'.trans hname.symm)
  · exact hscan1

theorem reaches (h : Placed S p e v v1) (hS : v.Closed g.clusters S) (hc : c ∈ S)
    (hreach : Reaches v.next c x) : Reaches v1.next c x := by
  induction hreach with
  | refl => exact .refl
  | tail hreach hn ih => exact ih.tail (h.next _ (hS.reaches hc hreach) _ hn)

theorem holds (h : Placed S p e v v1) (hS : v.Closed g.clusters S) (hc : c ∈ S) (hs : v.Holds c s) :
    v1.Holds c s ∧ SameEntry (v1.slot s.1 s.2) (v.slot s.1 s.2) := by
  obtain ⟨hreach, hi, hlive⟩ := hs
  have hmem := hS.reaches hc hreach
  have hsame := h.slots s.1 hmem s.2 hi (h.ne_of_not_free hmem hlive.not_free)
  exact ⟨⟨h.reaches hS hc hreach, hi, hsame.live.mpr hlive⟩, hsame⟩

theorem dirFrom (h : Placed S p e v v1) (htidy : Tidy g v S L) (hc : c ∈ S)
    (hd : v.DirFrom c comps q) : v1.DirFrom c comps q := by
  induction hd with
  | nil => exact .nil
  | step hs hname hdir _ ih =>
    obtain ⟨hs1, hsame⟩ := h.holds htidy.closed hc hs
    have hmem := htidy.closed.reaches hc hs.1
    refine .step hs1 (hsame.name.trans hname) ⟨hsame.isDir.mpr hdir.1, ?_⟩ ?_
    · rw [hsame.cluster]
      exact hdir.2
    · rw [hsame.cluster]
      exact ih (htidy.cluster_mem ⟨hmem, hs.2⟩ hdir.1 hdir.2)

end Placed

section Create

variable {g : Geometry} {m : Prop} {d d' : Disk} {v : Vol} {S : Set ℕ}
  {L : Owner → List ℕ} {q i : ℕ} {path : List UInt8} {isDir : Bool} {env : FatEnv} {r : ℤ}

theorem create_found (hr : Rep g m d v) (h : Tidy g v S L) (hhead : path.head? = some slash)
    (hdir : v.DirPath g.root (parentPath path)) (hq : v.resolve g.root (parentPath path) = q)
    (hqS : q ∈ S) (hscan : scanFree (v.data q) = .hit i) (henv : 1 ≤ env.fuel) (isDir : Bool) :
    ∃ d', fat32Create g.part env d path isDir = some (d', 0) ∧
      Rep g False d' ((v.setSlot q i (newEntry (formatName83 (lastName path))
        (if isDir then 0x10 else 0x20) (v.blank g.clusters))).finish isDir
        (v.blank g.clusters) q) := by
  obtain ⟨⟨hq2, hqn⟩, -⟩ := h.closed q hqS
  obtain ⟨b, hfree, hbuf⟩ := findFreeSlot_here hr hq2 hqn hscan henv q (env.junk 1 0)
  obtain ⟨hcluster, hentry⟩ := hr.createDirentEntry_rep hq2 hqn hbuf i
    (if isDir then 0x10 else 0x20) (formatName83 (lastName path))
  rw [fat32Create, if_neg (not_not.mpr hhead), (h.parent hr hdir (env.junk 0)).1, hq]
  dsimp only
  rw [hfree, map_some]
  refine ⟨_, rfl, ?_⟩
  rw [placeNew, hcluster]
  exact hentry.finishCreate_rep (blank_range _ _) isDir q

end Create

/-! ## Creating and looking up -/

def Vol.FreeCluster (n : ℕ) (v : Vol) (b : ℕ) : Prop :=
  2 ≤ b ∧ b < n ∧ v.fat b = 0

/-- The path leads through directories to the cluster `c`, which is 0 for an entry without a
cluster. -/
def Vol.Resolves (root : ℕ) (v : Vol) (path : List UInt8) (c : ℕ) : Prop :=
  path.head? = some slash ∧ v.Leads (fun _ => True) (tokens path) root ∧
    v.find (tokens path) root = some c

/-- `t` has been created in a directory of `d`: the new path leads to the cluster of a new entry,
which was free and ends a chain now, and old paths lead where they led. -/
structure Created (g : Geometry) (d d' : Disk) (comps : List (List UInt8)) (t : List UInt8) :
    Prop where
  onDisk : OnDisk g d'
  entry : ∃ s, (vol g d').EntryAt g.root (comps ++ [t]) s ∧
    (∀ junk, findClusterFromPath g.part junk d' (pathOf (comps ++ [t])) =
      getEntryCluster ((vol g d').slot s.1 s.2)) ∧
    (vol g d).FreeCluster g.clusters (getEntryCluster ((vol g d').slot s.1 s.2)) ∧
    fat32Eoc ≤ (vol g d').fat (getEntryCluster ((vol g d').slot s.1 s.2))
  old : ∀ path c, (vol g d).Resolves g.root path c →
    ∀ junk, findClusterFromPath g.part junk d' path = c

/-- What creating the entry `t` of a directory is to do: whatever the environment is, it returns 0
and the entry has been created. -/
def Creates (g : Geometry) (d : Disk) (comps : List (List UInt8)) (t : List UInt8) (isDir : Bool) :
    Prop :=
  ∃ n, ∀ env : FatEnv, n ≤ env.fuel → ∃ d',
    fat32Create g.part env d (pathOf (comps ++ [t])) isDir = some (d', 0) ∧ Created g d d' comps t

section Paths

variable {v : Vol} {n root c q b j : ℕ} {ts us comps : List (List UInt8)} {t : List UInt8}

theorem Vol.FreeCluster.blank (h : v.FreeCluster n b) : v.FreeCluster n (v.blank n) := by
  rcases v.blank_cases n with ⟨-, hnone⟩ | hsome
  · exact absurd h.2.2 (hnone b h.1 h.2.1)
  · exact hsome

theorem exists_scanFree (hj : j < slotsPerCluster) (hfree : IsFree (v.slot q j)) :
    ∃ i < slotsPerCluster, scanFree (v.data q) = .hit i := by
  have hhit : (slotFirst (v.data q) j == 0xE5 || slotFirst (v.data q) j == 0) = true := by
    rw [Bool.or_eq_true, beq_iff_eq, beq_iff_eq]
    exact hfree.symm
  obtain ⟨i, hij, hscan⟩ := exists_scan_eq_hit (fun _ => false)
    (fun j => slotFirst (v.data q) j == 0xE5 || slotFirst (v.data q) j == 0) hj hhit fun _ _ => rfl
  exact ⟨i, hij.trans_lt hj, hscan⟩

theorem live_newEntry (htext : 0 ∉ t) (hfirst : (formatName83 t).head? ≠ some 0xE5) (isDir : Bool)
    (b : ℕ) : Live (newEntry (formatName83 t) (if isDir then 0x10 else 0x20) b) := by
  have hname : cells 11 (newEntry (formatName83 t) (if isDir then 0x10 else 0x20) b) =
    formatName83 t :=
    newEntry_name (length_formatName83 t)
  have hdot := formatName83_head_ne_dot t
  refine ⟨first_ne_zero_of_name hname htext, ?_, ?_, ?_⟩
  · intro heq
    rw [← hname] at hfirst
    exact hfirst (congrArg some heq)
  · intro heq
    rw [← hname] at hdot
    exact hdot (congrArg some heq)
  · rw [newEntry_attr (length_formatName83 t)]
    cases isDir <;> decide

theorem Vol.Leads.append_singleton (h : v.Leads IsSubdir ts c) (t : List UInt8) :
    v.Leads (fun _ => True) (ts ++ [t]) c := by
  induction ts generalizing c with
  | nil =>
    intro i _
    rw [if_pos rfl]
    trivial
  | cons u ts ih =>
    intro i hscan
    have hslot := h i hscan
    rw [if_neg (by simp)]
    split at hslot
    · rename_i hnil
      subst hnil
      exact ⟨hslot.1, hslot.2, ih trivial⟩
    · exact ⟨hslot.1, hslot.2.1, ih hslot.2.2⟩

theorem Vol.Readable.append (h : v.Readable n ts c)
    (hrest : ∀ q, v.find ts c = some q → v.Readable n us q) : v.Readable n (ts ++ us) c := by
  induction ts generalizing c with
  | nil => exact hrest c rfl
  | cons t ts ih =>
    refine ⟨h.1, fun i hscan => ih (h.2 i hscan) fun q hq => hrest q ?_⟩
    rw [find, hscan]
    exact hq

theorem parentPath_snoc (ht : slash ∉ t) : parentPath (pathOf (comps ++ [t])) = pathTo comps :=
  parentPath_pathOf ht

end Paths

section Creates

variable {g : Geometry} {d d' : Disk} {comps : List (List UInt8)} {t : List UInt8} {q : ℕ}
  {isDir : Bool}
  (hdisk : OnDisk g d) (hwf : WellFormed g (vol g d)) (hu : (vol g d).UniqueNames g.root)
  (hcomps : Components (comps ++ [t])) (hshort : ∀ u ∈ comps ++ [t], Name83 u)
  (hdir : (vol g d).DirFrom g.root comps q)

include hu hcomps hshort hdir in
theorem dirPath_parent : (vol g d).DirPath g.root (parentPath (pathOf (comps ++ [t]))) ∧
    (vol g d).resolve g.root (parentPath (pathOf (comps ++ [t]))) =
      ((vol g d).find (cut comps) g.root).getD 0 := by
  have hcomps' := hcomps.init
  rw [parentPath_snoc hcomps.last.2]
  constructor
  · intro _
    rw [tokens_pathTo hcomps']
    exact hdir.leads hu .root fun u hu => hshort u (mem_append_left _ hu)
  · rw [resolve, if_pos (pathTo_head comps), tokens_pathTo hcomps']

include hdisk hwf hu hcomps hshort hdir

section

variable (htext : 0 ∉ t) (hnew : (vol g d).NewName q (formatName83 t))
  (hfree : ∃ b, (vol g d).FreeCluster g.clusters b)
include htext hnew hfree

/-- **A created entry is shown**: its parent is, and the parent's first cluster has a free slot. -/
theorem Creates.shown (h : Creates g d comps t isDir) :
    (vol g d).Shown g.root comps q ∧ (∃ i < slotsPerCluster, IsFree ((vol g d).slot q i)) ∧
      (formatName83 t).head? ≠ some 0xE5 := by
  obtain ⟨L, htidy⟩ := hwf
  obtain ⟨n, hn⟩ := h
  obtain ⟨d', hrun, hcreated⟩ := hn ⟨n, fun _ _ _ => 0⟩ le_rfl
  have hr := hdisk.rep
  have hhead := pathOf_snoc_head comps t
  have hshort' : ∀ u ∈ comps, Name83 u := fun u hu => hshort u (mem_append_left _ hu)
  obtain ⟨hpath, hresolve⟩ := dirPath_parent hu hcomps hshort hdir
  have hq : (vol g d).InTree g.root q := hdir.inTree .root
  obtain ⟨v', S', L', p, -, hrep, hgrown, hpne, e, hplaced, hname, hp⟩ :=
    create_grown hr htidy hhead hpath rfl (fun _ => .inr hfree) hrun
  rw [lastName_pathOf hcomps.last.2] at hname
  obtain rfl := hrep.vol
  obtain ⟨s, hat, hlookup, ⟨hx2, -, -⟩, -⟩ := hcreated.entry
  obtain ⟨_, -, hs, hsname⟩ := hat.dirFrom
  -- the lookup of the new path, on the new volume
  have hfound : (vol g d').Readable g.clusters (tokens (pathOf (comps ++ [t]))) g.root →
      (vol g d').find (tokens (pathOf (comps ++ [t]))) g.root ≠ none := by
    intro hread hnone
    have hzero := hlookup fun _ _ => 0
    rw [hrep.findClusterFromPath_eq (fun _ => hread), resolve, if_pos hhead, hnone] at hzero
    rw [← hzero] at hx2
    cases hx2
  have hlead := hdir.leads hu .root hshort'
  rw [tokens_pathOf_snoc hcomps] at hfound
  rcases hfind : (vol g d).find (cut comps) g.root with - | x
  · -- the parent is not found: the entry is in no directory
    rw [hfind, getD_none] at hresolve
    have hpS : p.1 ∉ {c | (vol g d).InTree g.root c} := fun hmem =>
      hpne (hgrown.subset hmem) hresolve
    obtain ⟨hsame, hread⟩ := hplaced.find_of_not_mem htidy hpS
      (hlead.append_singleton (t.take (direntNameMaxLength - 1))) .root
    refine absurd ?_ (hfound hread)
    rw [hsame, find_append, hfind]
    rfl
  · obtain ⟨rfl, hshown⟩ := hdir.shown_of_find hu .root hshort' hfind
    rw [hfind, getD_some] at hresolve
    rw [hresolve] at hp
    refine ⟨hshown, ?_, ?_⟩
    · by_contra hfull
      -- the entry is in another cluster, and no entry of the first one has its name
      have hne : x ≠ p.1 := by
        rintro rfl
        obtain ⟨hi, hfree⟩ := isFree_of_scanFree (hp hq).at_spec.2
        exact hfull ⟨p.2, hi, hfree⟩
      have hnewIn : Placed.NewIn {c | (vol g d).InTree g.root c} p e (vol g d) := by
        intro hmem j hj hlive
        rw [hname]
        exact hnew (p.1, j) ⟨(hp hmem).at_spec.1, hj, hlive⟩
      obtain ⟨hfind', hread⟩ :=
        hplaced.find_eq htidy hnewIn (first_ne_zero_of_name hname htext) hlead hfind .root
      have hmiss : (vol g d').find [t.take (direntNameMaxLength - 1)] x = none := by
        refine find_of_miss fun i hscan => ?_
        rw [hplaced.scanToken_of_ne hq hne] at hscan
        obtain ⟨hi, hlive, hmatch⟩ := live_of_scanToken hscan
        rw [matchFormat_take (by decide), matchFormat_eq (hshort t (by simp)).shortBase] at hmatch
        exact hnew (x, i) ⟨.refl, hi, hlive⟩ hmatch
      refine hfound (hread.append fun y hy => ?_) ?_
      · cases hfind'.symm.trans hy
        exact ⟨(htidy.closed x hq).1, fun _ _ => trivial⟩
      · rw [find_append, hfind']
        exact hmiss
    · intro hdeleted
      rw [← hsname] at hdeleted
      exact hs.2.2.2.1 (some.inj hdeleted)

/-- An entry that is shown has been created. -/
theorem creates_of_shown (hshown : (vol g d).Shown g.root comps q)
    (hslot : ∃ i < slotsPerCluster, IsFree ((vol g d).slot q i))
    (hfirst : (formatName83 t).head? ≠ some 0xE5) : Creates g d comps t isDir := by
  obtain ⟨L, htidy⟩ := hwf
  have hr := hdisk.rep
  have hhead := pathOf_snoc_head comps t
  have hshort' : ∀ u ∈ comps, Name83 u := fun u hu => hshort u (mem_append_left _ hu)
  have hfind := hshown.find hu .root hshort'
  obtain ⟨hpath, hresolve⟩ := dirPath_parent hu hcomps hshort hdir
  rw [hfind, getD_some] at hresolve
  have hq : (vol g d).InTree g.root q := hdir.inTree .root
  obtain ⟨j, hj, hjfree⟩ := hslot
  obtain ⟨i, hi, hscan⟩ := exists_scanFree hj hjfree
  have hblank : (vol g d).FreeCluster g.clusters ((vol g d).blank g.clusters) :=
    hfree.choose_spec.blank
  set b := (vol g d).blank g.clusters with hb
  refine ⟨1, fun env henv => ?_⟩
  obtain ⟨d', hrun, hrep⟩ := create_found hr htidy hhead hpath hresolve hq hscan henv isDir
  refine ⟨d', hrun, ?_⟩
  rw [lastName_pathOf hcomps.last.2, ← hb] at hrep
  set e := newEntry (formatName83 t) (if isDir then 0x10 else 0x20) b with he
  have hname : cells 11 e = formatName83 t := newEntry_name (length_formatName83 t)
  have hcluster : getEntryCluster e = b := newEntry_cluster (length_formatName83 t) (by
    have := g.clusters_le
    have := hblank.2.1
    omega)
  have hfat : (((vol g d).setSlot q i e).finish isDir b q).fat b = fat32Eoc :=
    Function.update_self ..
  have hplaced : Placed {c | (vol g d).InTree g.root c} (q, i) e (vol g d)
      (((vol g d).setSlot q i e).finish isDir b q) :=
    (Placed.of_setSlot _ hi (isFree_of_scanFree hscan).2 e).agree
      (agreeOn_finish _ htidy.blank_not_mem isDir q)
  rw [← hrep.vol] at hfat hplaced
  have hr' : Rep g False d' (vol g d') := ⟨hrep.onDisk, rfl, False.elim⟩
  have hnewIn : Placed.NewIn {c | (vol g d).InTree g.root c} (q, i) e (vol g d) := by
    intro _ j hj hlive
    rw [hname]
    exact hnew (q, j) ⟨.refl, hj, hlive⟩
  have hfirst0 := first_ne_zero_of_name hname htext
  have hlive : Live e := live_newEntry htext hfirst isDir b
  have hhere := (hplaced.here hq).2
  obtain ⟨hfind', hread⟩ :=
    hplaced.find_eq htidy hnewIn hfirst0 (hdir.leads hu .root hshort') hfind .root
  have htoken : matchFormat (t.take (direntNameMaxLength - 1)) = formatName83 t :=
    (matchFormat_take (by decide)).trans (matchFormat_eq (hshort t (by simp)).shortBase)
  have hscan' := hplaced.scanToken_new hq hscan hnewIn hlive (hname.trans htoken.symm)
  refine ⟨hrep.onDisk, ⟨(q, i), ?_, ?_, ?_⟩, ?_⟩
  · exact (hplaced.dirFrom htidy .root hdir).entryAt ⟨.refl, hi, hhere.live.mpr hlive⟩
      (hhere.name.trans hname)
  · intro junk
    have hread' : (vol g d').Readable g.clusters (tokens (pathOf (comps ++ [t]))) g.root := by
      rw [tokens_pathOf_snoc hcomps]
      refine hread.append fun y hy => ?_
      cases hfind'.symm.trans hy
      exact ⟨(htidy.closed q hq).1, fun _ _ => trivial⟩
    rw [hr'.findClusterFromPath_eq (fun _ => hread'), resolve, if_pos hhead,
      tokens_pathOf_snoc hcomps, find_append, hfind', bind_some, find, hscan']
    rfl
  · rw [hhere.cluster, hcluster]
    exact ⟨hblank, hfat.ge⟩
  · rintro path c ⟨hhead', hlead, hold⟩ junk
    obtain ⟨hnow, hread'⟩ := hplaced.find_eq htidy hnewIn hfirst0 hlead hold .root
    rw [hr'.findClusterFromPath_eq (fun _ => hread'), resolve, if_pos hhead', hnow, getD_some]

end

/-- **Creating does what it is to do** exactly if the parent is shown, its first cluster has a free
slot and the name does not begin like a deleted one. -/
theorem creates_iff (htext : 0 ∉ t) (hnew : (vol g d).NewName q (formatName83 t))
    (hfree : ∃ b b', b ≠ b' ∧ (vol g d).FreeCluster g.clusters b ∧
      (vol g d).FreeCluster g.clusters b') :
    Creates g d comps t isDir ↔ (vol g d).Shown g.root comps q ∧
      (∃ i < slotsPerCluster, IsFree ((vol g d).slot q i)) ∧
      (formatName83 t).head? ≠ some 0xE5 := by
  obtain ⟨b, -, -, hb, -⟩ := hfree
  constructor
  · exact Creates.shown hdisk hwf hu hcomps hshort hdir htext hnew ⟨b, hb⟩
  · rintro ⟨hshown, hslot, hfirst⟩
    exact creates_of_shown hdisk hwf hu hcomps hshort hdir htext hnew ⟨b, hb⟩ hshown hslot hfirst

end Creates

/-- A file and a directory are created beside two files. -/
theorem creates_iff_twoFilesDisk : Creates smallGeometry twoFilesDisk [] [0x43] false ∧
    Creates smallGeometry twoFilesDisk [] [0x43] true := by
  have hfree : ∀ b, b = 5 ∨ b = 6 →
      (vol smallGeometry twoFilesDisk).FreeCluster smallGeometry.clusters b := by
    rintro b (rfl | rfl)
    · exact ⟨by decide, by decide, by decide⟩
    · exact ⟨by decide, by decide, by decide⟩
  have hnew : (vol smallGeometry twoFilesDisk).NewName 2 (formatName83 [0x43]) := fun s hs =>
    twoFilesDisk_movable.fresh (by decide) s.1 hs.1 s.2 hs.2.1
  have hcreates : ∀ isDir, Creates smallGeometry twoFilesDisk [] [0x43] isDir := by
    intro isDir
    refine (creates_iff (smallDisk_onDisk _ _) twoFilesDisk_flat.wellFormed twoFilesDisk_uniqueNames
      ?_ ?_ .nil (by decide) hnew ⟨5, 6, by decide, hfree 5 (.inl rfl), hfree 6 (.inr rfl)⟩).mpr
        ⟨.nil, ⟨2, by decide, .inl (by decide)⟩, by decide⟩
    · simp [Components, slash]
    · simp [Name83, dot]
  exact ⟨hcreates false, hcreates true⟩

/-- A root directory of one cluster, all of whose slots are files. -/
def crowdedDisk : Disk :=
  smallDisk [0x0FFFFFF8, 0x0FFFFFFF, 0x0FFFFFF8] ((range 128).map fun i =>
    newEntry (formatName83 [UInt8.ofNat (0x41 + i / 16), UInt8.ofNat (0x41 + i % 16)]) 0x20 0)

theorem crowdedDisk_eval : Flat smallGeometry (vol smallGeometry crowdedDisk) ∧
    ∀ i < slotsPerCluster, ((vol smallGeometry crowdedDisk).slot 2 i 0).toNat = 0x41 + i / 16 ∧
      ((vol smallGeometry crowdedDisk).slot 2 i 1).toNat = 0x41 + i % 16 := by
  decide +kernel

theorem crowdedDisk_uniqueNames :
    (vol smallGeometry crowdedDisk).UniqueNames smallGeometry.root := by
  have hroot : ∀ {c s}, (vol smallGeometry crowdedDisk).InTree smallGeometry.root c →
      (vol smallGeometry crowdedDisk).Holds c s → s.1 = 2 :=
    fun hc hs => crowdedDisk_eval.1.inTree (hc.reaches hs.1)
  intro c hc s s' hs hs' hname
  obtain ⟨⟨k, i⟩, ⟨k', i'⟩⟩ := s, s'
  obtain rfl : k = 2 := hroot hc hs
  obtain rfl : k' = 2 := hroot hc hs'
  -- the first two letters of the name are the number of the slot
  obtain ⟨h0, h1⟩ := crowdedDisk_eval.2 i hs.2.1
  obtain ⟨h0', h1'⟩ := crowdedDisk_eval.2 i' hs'.2.1
  have hbytes : ∀ j < 11, (vol smallGeometry crowdedDisk).slot 2 i j =
      (vol smallGeometry crowdedDisk).slot 2 i' j := by
    intro j hj
    exact map_inj_left.mp hname j (mem_range.mpr hj)
  rw [hbytes 0 (by decide), h0'] at h0
  rw [hbytes 1 (by decide), h1'] at h1
  obtain rfl : i = i' := by omega
  rfl

/-- **The 129th file of the root directory** is created, and is not found afterwards. -/
theorem create_hides_entry : OnDisk smallGeometry crowdedDisk ∧
    WellFormed smallGeometry (vol smallGeometry crowdedDisk) ∧
    (vol smallGeometry crowdedDisk).UniqueNames smallGeometry.root ∧
    (vol smallGeometry crowdedDisk).DirFrom smallGeometry.root [] 2 ∧
    (vol smallGeometry crowdedDisk).NewName 2 (formatName83 [0x5A]) ∧
    (∀ b, 3 ≤ b → b < smallGeometry.clusters →
      (vol smallGeometry crowdedDisk).FreeCluster smallGeometry.clusters b) ∧
    (fat32Create smallGeometry.part ⟨5, fun _ _ _ => 0⟩ crowdedDisk (pathOf [[0x5A]]) false).map
      (fun r =>
      (r.2, findClusterFromPath smallGeometry.part (fun _ _ => 0) r.1 (pathOf [[0x5A]]))) =
        some (0, 0) ∧
    ¬ Creates smallGeometry crowdedDisk [] [0x5A] false := by
  have hdisk : OnDisk smallGeometry crowdedDisk := smallDisk_onDisk _ _
  have hnew : (vol smallGeometry crowdedDisk).NewName 2 (formatName83 [0x5A]) := by
    rintro ⟨k, i⟩ ⟨hreach, hi, -⟩ hname
    obtain rfl : k = 2 := crowdedDisk_eval.1.inTree (Vol.InTree.root.reaches hreach)
    have hfirst : (vol smallGeometry crowdedDisk).slot 2 i 0 = 0x5A :=
      some.inj (congrArg head? hname)
    have heval := (crowdedDisk_eval.2 i hi).1
    have hval : (0x5A : UInt8).toNat = 90 := rfl
    rw [hfirst, hval] at heval
    rw [slotsPerCluster_eq] at hi
    omega
  have hfree : ∀ b < smallGeometry.clusters, 3 ≤ b → (vol smallGeometry crowdedDisk).fat b = 0 := by
    decide
  refine (fun hfree' => ⟨hdisk, crowdedDisk_eval.1.wellFormed, crowdedDisk_uniqueNames, .nil, hnew,
    hfree', ?_, ?_⟩) fun b hb hbn => ⟨by omega, hbn, hfree b hbn hb⟩
  · decide +kernel
  · intro hcreates
    obtain ⟨-, ⟨i, hi, hslot⟩, -⟩ := hcreates.shown hdisk crowdedDisk_eval.1.wellFormed
      crowdedDisk_uniqueNames (by simp [Components, slash]) (by simp [Name83, dot]) .nil
      (by decide) hnew
      ⟨3, hfree' 3 le_rfl (by decide)⟩
    have heval := (crowdedDisk_eval.2 i hi).1
    rw [slotsPerCluster_eq] at hi
    have hval : (0 : UInt8).toNat = 0 ∧ (0xE5 : UInt8).toNat = 229 := ⟨rfl, rfl⟩
    rcases hslot with hzero | hdeleted
    · rw [show (vol smallGeometry crowdedDisk).slot 2 i 0 = 0 from hzero] at heval
      omega
    · rw [show (vol smallGeometry crowdedDisk).slot 2 i 0 = 0xE5 from hdeleted] at heval
      omega

/-! ## Creating without success -/

def components (path : List UInt8) : List (List UInt8) :=
  (path.splitOn slash).filter (· ≠ [])

/-- A cluster for something new: its sectors are inside `total_sectors_32`, and its FAT entry is
free. -/
def Available (g : Geometry) (d : Disk) (b : ℕ) : Prop :=
  b < g.clusters ∧ g.layout.Blank d b

/-- There is what a new entry needs: its directory, a cluster, and a slot in the directory or
another cluster for that. -/
def CanCreate (g : Geometry) (d : Disk) (path : List UInt8) : Prop :=
  ∃ q b, (vol g d).DirFrom g.root (components path).dropLast q ∧ Available g d b ∧
    ((∃ k i, Reaches (vol g d).next q k ∧ i < slotsPerCluster ∧ IsFree ((vol g d).slot k i)) ∨
      ∃ b', b' ≠ b ∧ Available g d b')

def FailsClean (part : ℕ) (env : FatEnv) (d : Disk) (path : List UInt8) (isDir : Bool) : Prop :=
  ∃ r, fat32Create part env d path isDir = some (d, r) ∧ r ≠ 0

theorem fat32Create_eq_zero {part : ℕ} {env : FatEnv} {d d' : Disk} {path : List UInt8}
    {isDir : Bool} {r : ℤ} (hhead : path.head? = some slash)
    (hrun : fat32Create part env d path isDir = some (d', r)) : r = 0 := by
  rw [fat32Create, if_neg (not_not.mpr hhead)] at hrun
  obtain ⟨place, -, hresult⟩ := map_eq_some_iff.mp hrun
  exact (Prod.mk.inj hresult).2.symm

/-- **Creating that has to fail fails without a trace** if and only if the path is relative. -/
theorem failsClean_iff (g : Geometry) (d : Disk) (env : FatEnv) (path : List UInt8) (isDir : Bool) :
    (¬ CanCreate g d path → FailsClean g.part env d path isDir) ↔
      CanCreate g d path ∨ path.head? ≠ some slash := by
  constructor
  · intro h
    by_contra hcond
    obtain ⟨hcannot, hhead⟩ := not_or.mp hcond
    obtain ⟨r, hrun, hr⟩ := h hcannot
    exact hr (fat32Create_eq_zero (not_not.mp hhead) hrun)
  · rintro (hcan | hhead) hcannot
    · exact absurd hcan hcannot
    · exact ⟨-1, if_pos hhead, by decide⟩

/-- **A file in a directory that does not exist**: there is no error, and a cluster is lost. -/
theorem create_without_parent : OnDisk smallGeometry emptyDisk ∧
    WellFormed smallGeometry (vol smallGeometry emptyDisk) ∧
    (∀ q, ¬ (vol smallGeometry emptyDisk).DirFrom smallGeometry.root [[0x42]] q) ∧
    (fat32Create smallGeometry.part ⟨5, fun _ _ _ => 0⟩ emptyDisk
      (pathOf [[0x42], [0x41]]) false).map
      (fun r => (r.2, (vol smallGeometry emptyDisk).fat 3, (vol smallGeometry r.1).fat 3)) =
        some (0, 0, 0x0FFFFFFF) ∧
    ¬ (¬ CanCreate smallGeometry emptyDisk (pathOf [[0x42], [0x41]]) →
      FailsClean smallGeometry.part ⟨5, fun _ _ _ => 0⟩ emptyDisk
      (pathOf [[0x42], [0x41]]) false) := by
  have hnone : ∀ q, ¬ (vol smallGeometry emptyDisk).DirFrom smallGeometry.root [[0x42]] q := by
    intro q hq
    cases hq with
    | step hs _ _ _ => exact emptyDisk_not_holds .root hs
  have hparent : (components (pathOf [[0x42], [0x41]])).dropLast = [[0x42]] := by decide
  refine ⟨smallDisk_onDisk _ _, emptyDisk_flat.wellFormed, hnone, by decide +kernel, ?_⟩
  intro h
  have hcannot : ¬ CanCreate smallGeometry emptyDisk (pathOf [[0x42], [0x41]]) := by
    rintro ⟨q, b, hq, -⟩
    rw [hparent] at hq
    exact hnone q hq
  obtain ⟨r, hrun, hr⟩ := h hcannot
  exact hr (fat32Create_eq_zero rfl hrun)

end CarrotOS.Fat32
