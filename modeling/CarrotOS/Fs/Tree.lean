import CarrotOS.Fs.Walk

/-!
# The chains of a volume

Every chain of a volume has an owner: the root directory, an entry that is in use, or the first
entry of the FAT, to which `get_next_cluster` leads at the end of a chain and where a new entry in a
directory that does not exist is linked. A volume is tidy when the chains of different owners have
no cluster in common and the clusters of directories are apart from all others. The entries that
count are those of a set `S` of clusters, which contains all directories, removed ones too.

The results say how the chains change when the FAT, an entry or the contents of a cluster change.
Every routine is composed of these changes.
-/

namespace CarrotOS.Fat32

open LinkTable Function List Vol

variable {S : Set ℕ} {v : Vol}

inductive Owner where
  | root
  | lost
  | slot (k i : ℕ)
  deriving DecidableEq

/-- The chain that a cluster number starts; there is none for 0. -/
def start (x : ℕ) : Option ℕ := if x = 0 then none else some x

namespace Owner

def head (root : ℕ) (v : Vol) : Owner → Option ℕ
  | .root => some root
  | .lost => start (v.follow 0)
  | .slot k i => start (getEntryCluster (v.slot k i))

def Dir (v : Vol) : Owner → Prop
  | .root => True
  | .lost => False
  | .slot k i => IsDir (v.slot k i)

/-- The owner counts: an entry does if it is in use and its cluster is in `S`. -/
def In (S : Set ℕ) (v : Vol) : Owner → Prop
  | .root => True
  | .lost => True
  | .slot k i => k ∈ S ∧ i < slotsPerCluster ∧ Live (v.slot k i)

theorem in_setSlot {k i : ℕ} {e : Buf} {o : Owner} (hne : o ≠ .slot k i) :
    o.In S (v.setSlot k i e) ↔ o.In S v := by
  cases o with
  | root => exact Iff.rfl
  | lost => exact Iff.rfl
  | slot k' i' =>
    refine and_congr_right fun _ => and_congr_right fun hi => ?_
    refine (v.setSlot_slot_of_ne hi fun heq => hne ?_).live
    rw [(Prod.mk.inj heq).1, (Prod.mk.inj heq).2]

theorem in_setData {b : ℕ} (hb : b ∉ S) (buf : Buf) {o : Owner} :
    o.In S (v.setData b buf) ↔ o.In S v := by
  cases o with
  | root => exact Iff.rfl
  | lost => exact Iff.rfl
  | slot k i =>
    refine and_congr_right fun hk => ?_
    rw [v.setData_slot_of_ne (ne_of_mem_of_not_mem hk hb)]

end Owner

/-- The chains of the owners are `L`. -/
structure Tidy (g : Geometry) (v : Vol) (S : Set ℕ) (L : Owner → List ℕ) : Prop where
  family : Family v.next (Owner.head g.root v) (Owner.In S v) L
  range : ∀ o, o.In S v → ∀ c ∈ L o, 2 ≤ c ∧ c < g.clusters
  dirs : ∀ o, o.In S v → o.Dir v → ∀ c ∈ L o, c ∈ S
  files : ∀ o, o.In S v → ¬ o.Dir v → ∀ c ∈ L o, c ∉ S
  closed : v.Closed g.clusters S
  /-- The second entry of a directory starts with a dot. -/
  dots : ∀ k i, (Owner.slot k i).In S v → IsDir (v.slot k i) →
    getEntryCluster (v.slot k i) ≠ 0 → v.slot (getEntryCluster (v.slot k i)) 1 0 = dot

theorem start_of_ne {x : ℕ} (h : x ≠ 0) : start x = some x := if_neg h

theorem Vol.next_of_zero {c : ℕ} (h : v.fat c = 0) : v.next c = some 0 := by
  rw [Vol.next, h, if_neg (by decide)]

namespace Tidy

variable {g : Geometry} {v v' : Vol} {S : Set ℕ} {L : Owner → List ℕ} {o : Owner} {b c k i x z : ℕ}
  {e : Buf} {ls : List ℕ}

section

variable (h : Tidy g v S L)
include h

theorem root_mem : g.root ∈ S := by
  have hlist := h.family.lists .root trivial
  cases hlist with
  | linked hl => exact h.dirs .root trivial trivial _ hl.mem_self

theorem linked_slot (ho : (Owner.slot k i).In S v) (hne : getEntryCluster (v.slot k i) ≠ 0) :
    Linked v.next (getEntryCluster (v.slot k i)) (L (.slot k i)) := by
  have hlist := h.family.lists _ ho
  rw [Owner.head, start_of_ne hne] at hlist
  cases hlist with
  | linked hl => exact hl

theorem linked_of_mem (ho : o.In S v) (hx : x ∈ L o) :
    ∃ a, o.head g.root v = some a ∧ Linked v.next a (L o) := by
  have hlist := h.family.lists o ho
  generalize hhead : o.head g.root v = head at hlist
  generalize L o = l at hlist hx
  cases hlist with
  | nil => cases hx
  | linked hl => exact ⟨_, rfl, hl⟩

theorem next_mem (ho : o.In S v) (hx : x ∈ L o) (hn : v.next x = some c) :
    c ∈ L o := by
  obtain ⟨a, -, hl⟩ := h.linked_of_mem ho hx
  exact hl.next_mem hx hn

theorem fat_ne_zero (ho : o.In S v) (hx : x ∈ L o) : v.fat x ≠ 0 := by
  intro hzero
  have hmem := h.next_mem ho hx (next_of_zero hzero)
  have := (h.range o ho 0 hmem).1
  omega

theorem fat_ne_zero_of_mem (hx : x ∈ S) : v.fat x ≠ 0 := by
  intro hzero
  have hmem := (h.closed x hx).2 0 (next_of_zero hzero)
  have := (h.closed 0 hmem).1.1
  omega

/-- Changes outside the chains, the directories and the first entry of the FAT. -/
theorem congr (hslots : ∀ k ∈ S, ∀ i < slotsPerCluster, SameEntry (v'.slot k i) (v.slot k i))
    (hnext : ∀ o, o.In S v → ∀ x ∈ L o, v'.next x = v.next x) (hS : ∀ x ∈ S, v'.next x = v.next x)
    (hlost : v'.follow 0 = v.follow 0) : Tidy g v' S L := by
  have hin : ∀ o : Owner, o.In S v' → o.In S v ∧
      o.head g.root v' = o.head g.root v ∧ (o.Dir v' ↔ o.Dir v) := by
    intro o ho
    cases o with
    | root => exact ⟨trivial, rfl, Iff.rfl⟩
    | lost => exact ⟨trivial, congrArg start hlost, Iff.rfl⟩
    | slot k i =>
      have hsame := hslots k ho.1 i ho.2.1
      refine ⟨⟨ho.1, ho.2.1, hsame.live.mp ho.2.2⟩, congrArg start hsame.cluster, hsame.isDir⟩
  constructor
  · refine h.family.mono (fun o ho => ⟨(hin o ho).1, (hin o ho).2.1⟩) ?_
    intro o ho
    exact hnext o (hin o ho).1
  · intro o ho
    exact h.range o (hin o ho).1
  · intro o ho hdir
    exact h.dirs o (hin o ho).1 ((hin o ho).2.2.mp hdir)
  · intro o ho hdir
    exact h.files o (hin o ho).1 fun hdir' => hdir ((hin o ho).2.2.mpr hdir')
  · intro c hc
    rw [hS c hc]
    exact h.closed c hc
  · intro k i ho hdir hne
    have hsame := hslots k ho.1 i ho.2.1
    have hin' := (hin _ ho).1
    rw [hsame.cluster] at hne ⊢
    -- the second entry of a directory is in `S` too
    have hmem := h.dirs _ hin' (hsame.isDir.mp hdir) _ (h.linked_slot hin' hne).mem_self
    rw [hslots _ hmem 1 (by decide) 0 (by decide)]
    exact h.dots k i hin' (hsame.isDir.mp hdir) hne

/-- **One entry is replaced.** If the new entry is in use, it gets the chain `ls`. -/
theorem setSlot (hk : k ∈ S) (hi : i < slotsPerCluster)
    (hlist : Live e → ListOf v.next (start (getEntryCluster e)) ls)
    (hfresh : Live e → ∀ o, o.In S v → o ≠ .slot k i → ∀ x ∈ ls, x ∉ L o)
    (hrange : Live e → ∀ x ∈ ls, 2 ≤ x ∧ x < g.clusters) (hdir : Live e → IsDir e → ∀ x ∈ ls, x ∈ S)
    (hfile : Live e → ¬ IsDir e → ∀ x ∈ ls, x ∉ S)
    (hdots : Live e → IsDir e → getEntryCluster e ≠ 0 → v.slot (getEntryCluster e) 1 0 = dot)
    (hkeep : v.slot k i 0 = dot → e 0 = dot) :
    Tidy g (v.setSlot k i e) S (update L (.slot k i) ls) := by
  have hself := v.setSlot_slot_self k hi e
  have hother : ∀ k' i', (Owner.slot k' i').In S (v.setSlot k i e) → Owner.slot k' i' ≠ .slot k i →
      SameEntry ((v.setSlot k i e).slot k' i') (v.slot k' i') := by
    intro k' i' ho hne
    refine v.setSlot_slot_of_ne ho.2.1 fun heq => hne ?_
    rw [(Prod.mk.inj heq).1, (Prod.mk.inj heq).2]
  have hin : ∀ o : Owner, o.In S (v.setSlot k i e) → o ≠ .slot k i →
      o.In S v ∧ o.head g.root (v.setSlot k i e) = o.head g.root v ∧
        (o.Dir (v.setSlot k i e) ↔ o.Dir v) := by
    intro o ho hne
    cases o with
    | root => exact ⟨trivial, rfl, Iff.rfl⟩
    | lost => exact ⟨trivial, rfl, Iff.rfl⟩
    | slot k' i' =>
      have hsame := hother k' i' ho hne
      exact ⟨⟨ho.1, ho.2.1, hsame.live.mp ho.2.2⟩, congrArg start hsame.cluster, hsame.isDir⟩
  have hlive : (Owner.slot k i).In S (v.setSlot k i e) → Live e := fun ho => hself.live.mp ho.2.2
  constructor
  · refine h.family.update (fun o ho hne => ⟨(hin o ho hne).1, (hin o ho hne).2.1⟩)
      (fun o _ _ x _ => rfl) ?_ ?_
    · intro ho
      rw [Owner.head, hself.cluster]
      exact hlist (hlive ho)
    · intro ho o ho' hne
      exact hfresh (hlive ho) o (hin o ho' hne).1 hne
  · intro o ho x hx
    by_cases hne : o = .slot k i
    · subst hne
      rw [update_self] at hx
      exact hrange (hlive ho) x hx
    · rw [update_of_ne hne] at hx
      exact h.range o (hin o ho hne).1 x hx
  · intro o ho hod x hx
    by_cases hne : o = .slot k i
    · subst hne
      rw [update_self] at hx
      exact hdir (hlive ho) (hself.isDir.mp hod) x hx
    · rw [update_of_ne hne] at hx
      exact h.dirs o (hin o ho hne).1 ((hin o ho hne).2.2.mp hod) x hx
  · intro o ho hod x hx
    by_cases hne : o = .slot k i
    · subst hne
      rw [update_self] at hx
      exact hfile (hlive ho) (fun he => hod (hself.isDir.mpr he)) x hx
    · rw [update_of_ne hne] at hx
      exact h.files o (hin o ho hne).1 (fun he => hod ((hin o ho hne).2.2.mpr he)) x hx
  · exact h.closed
  · -- the second entry of a directory is replaced by one that starts with a dot, if at all
    have hsecond : ∀ f, v.slot f 1 0 = dot → (v.setSlot k i e).slot f 1 0 = dot := by
      intro f hf
      by_cases hfk : (f, 1) = (k, i)
      · cases hfk
        rw [hself 0 (by decide)]
        exact hkeep hf
      · rw [v.setSlot_slot_of_ne (by decide) hfk 0 (by decide)]
        exact hf
    intro k' i' ho hod hne
    by_cases hslot : Owner.slot k' i' = .slot k i
    · obtain ⟨rfl, rfl⟩ := Owner.slot.inj hslot
      rw [hself.cluster] at hne ⊢
      exact hsecond _ (hdots (hlive ho) (hself.isDir.mp hod) hne)
    · have hsame := hother k' i' ho hslot
      rw [hsame.cluster] at hne ⊢
      exact hsecond _ (h.dots k' i' (hin _ ho hslot).1 (hsame.isDir.mp hod) hne)

/-- A further cluster without entries joins the directories. -/
theorem insert (hb : 2 ≤ b ∧ b < g.clusters) (hfresh : ∀ o, o.In S v → b ∉ L o)
    (hnext : v.next b = none) (hempty : ∀ i < slotsPerCluster, ¬ Live (v.slot b i)) :
    Tidy g v (insert b S) L := by
  have hin : ∀ o : Owner, o.In (Insert.insert b S) v → o.In S v := by
    intro o ho
    cases o with
    | root => trivial
    | lost => trivial
    | slot k i =>
      rcases ho.1 with rfl | hk
      · exact absurd ho.2.2 (hempty i ho.2.1)
      · exact ⟨hk, ho.2⟩
  constructor
  · exact h.family.mono (fun o ho => ⟨hin o ho, rfl⟩) fun o _ x _ => rfl
  · intro o ho
    exact h.range o (hin o ho)
  · intro o ho hdir c hc
    exact .inr (h.dirs o (hin o ho) hdir c hc)
  · rintro o ho hdir c hc (rfl | hmem)
    · exact hfresh o (hin o ho) hc
    · exact h.files o (hin o ho) hdir c hc hmem
  · rintro c (rfl | hc)
    · refine ⟨hb, ?_⟩
      intro c' hc'
      cases hnext.symm.trans hc'
    · exact ⟨(h.closed c hc).1, fun c' hc' => .inr ((h.closed c hc).2 c' hc')⟩
  · intro k i ho
    exact h.dots k i (hin _ ho)

/-- **A directory gets a further cluster**, behind its last one. -/
theorem extend (ho : o.In S v) (hdir : o.Dir v) (hz : (L o).getLast? = some z) (hb : b ∈ S)
    (hfresh : ∀ o, o.In S v → b ∉ L o) (hnext : v.next b = none) :
    Tidy g (v.setFat z b) S (update L o (L o ++ [b])) := by
  have hzmem := mem_of_getLast? hz
  have hzb : b ≠ z := fun heq => hfresh o ho (heq ▸ hzmem)
  have hz2 := (h.range o ho z hzmem).1
  have hbn := (h.closed b hb).1
  have hle := g.clusters_le
  have hother : ∀ x, x ≠ z → (v.setFat z b).next x = v.next x := by
    intro x hx
    rw [Vol.next, Vol.next, setFat_fat, update_of_ne hx]
  have hlink : (v.setFat z b).next z = some b := by
    rw [Vol.next, setFat_fat, update_self, if_neg (by unfold fat32Eoc; omega)]
  have hlost : (v.setFat z b).follow 0 = v.follow 0 := by
    rw [follow, follow, setFat_fat, update_of_ne (by omega)]
  have hin : ∀ o' : Owner, o'.In S (v.setFat z b) →
      o'.In S v ∧ o'.head g.root (v.setFat z b) = o'.head g.root v ∧
        (o'.Dir (v.setFat z b) ↔ o'.Dir v) := by
    intro o' ho'
    cases o' with
    | root => exact ⟨trivial, rfl, Iff.rfl⟩
    | lost => exact ⟨trivial, congrArg start hlost, Iff.rfl⟩
    | slot k i => exact ⟨ho', rfl, Iff.rfl⟩
  obtain ⟨a, ha, hl⟩ := h.linked_of_mem ho hzmem
  have hmem : ∀ o', o'.In S v → ∀ x ∈ update L o (L o ++ [b]) o',
      x ∈ L o' ∨ (o' = o ∧ x = b) := by
    intro o' _ x hx
    by_cases hoo : o' = o
    · subst hoo
      rw [update_self, mem_append, mem_singleton] at hx
      exact hx.imp_right fun hxb => ⟨rfl, hxb⟩
    · rw [update_of_ne hoo] at hx
      exact .inl hx
  constructor
  · refine h.family.update (fun o' ho' _ => ⟨(hin o' ho').1, (hin o' ho').2.1⟩) ?_ ?_ ?_
    · intro o' ho' hne x hx
      refine hother x fun hxz => ?_
      exact h.family.disjoint o' o (hin o' ho').1 ho hne x hx (hxz ▸ hzmem)
    · intro ho'
      rw [(hin o ho').2.1, ha]
      refine .linked (hl.extend hz (fun x _ hx => hother x hx) hlink ?_)
      rw [hother b hzb]
      exact hnext
    · intro _ o' ho' hne x hx hx'
      rcases mem_append.mp hx with hxo | hxb
      · exact h.family.disjoint o o' ho (hin o' ho').1 hne.symm x hxo hx'
      · obtain rfl := mem_singleton.mp hxb
        exact hfresh o' (hin o' ho').1 hx'
  · intro o' ho' x hx
    rcases hmem o' (hin o' ho').1 x hx with hx | ⟨-, rfl⟩
    · exact h.range o' (hin o' ho').1 x hx
    · exact hbn
  · intro o' ho' hod x hx
    rcases hmem o' (hin o' ho').1 x hx with hx | ⟨-, rfl⟩
    · exact h.dirs o' (hin o' ho').1 ((hin o' ho').2.2.mp hod) x hx
    · exact hb
  · intro o' ho' hod x hx
    have hod' : ¬ o'.Dir v := fun hd => hod ((hin o' ho').2.2.mpr hd)
    rcases hmem o' (hin o' ho').1 x hx with hx | ⟨rfl, -⟩
    · exact h.files o' (hin o' ho').1 hod' x hx
    · exact absurd hdir hod'
  · intro c hc
    refine ⟨(h.closed c hc).1, ?_⟩
    intro c' hc'
    by_cases hcz : c = z
    · subst hcz
      cases hlink.symm.trans hc'
      exact hb
    · rw [hother c hcz] at hc'
      exact (h.closed c hc).2 c' hc'
  · intro k i ho'
    exact h.dots k i (hin _ ho').1

/-- **The first entry of the FAT changes**; its chain is `ls` then. -/
theorem setLost (hlist : ListOf v.next (start ((v.setFat 0 x).follow 0)) ls)
    (hfresh : ∀ o, o.In S v → o ≠ .lost → ∀ y ∈ ls, y ∉ L o)
    (hrange : ∀ y ∈ ls, (2 ≤ y ∧ y < g.clusters) ∧ y ∉ S) :
    Tidy g (v.setFat 0 x) S (update L .lost ls) := by
  have hother : ∀ y, 2 ≤ y → (v.setFat 0 x).next y = v.next y := by
    intro y hy
    rw [Vol.next, Vol.next, setFat_fat, update_of_ne (by omega)]
  have hin : ∀ o : Owner, o.In S (v.setFat 0 x) → o ≠ .lost →
      o.In S v ∧ o.head g.root (v.setFat 0 x) = o.head g.root v ∧
        (o.Dir (v.setFat 0 x) ↔ o.Dir v) := by
    intro o ho hne
    cases o with
    | root => exact ⟨trivial, rfl, Iff.rfl⟩
    | lost => exact absurd rfl hne
    | slot k i => exact ⟨ho, rfl, Iff.rfl⟩
  constructor
  · refine h.family.update (fun o ho hne => ⟨(hin o ho hne).1, (hin o ho hne).2.1⟩) ?_ ?_ ?_
    · intro o ho hne y hy
      exact hother y (h.range o (hin o ho hne).1 y hy).1
    · intro _
      exact hlist.congr fun y hy => hother y (hrange y hy).1.1
    · intro _ o ho hne
      exact hfresh o (hin o ho hne).1 hne
  · intro o ho y hy
    by_cases hne : o = .lost
    · subst hne
      exact (hrange y hy).1
    · rw [update_of_ne hne] at hy
      exact h.range o (hin o ho hne).1 y hy
  · intro o ho hod y hy
    have hne : o ≠ .lost := fun heq => by
      subst heq
      exact hod
    rw [update_of_ne hne] at hy
    exact h.dirs o (hin o ho hne).1 ((hin o ho hne).2.2.mp hod) y hy
  · intro o ho hod y hy
    by_cases hne : o = .lost
    · subst hne
      exact (hrange y hy).2
    · rw [update_of_ne hne] at hy
      exact h.files o (hin o ho hne).1 (fun hd => hod ((hin o ho hne).2.2.mpr hd)) y hy
  · intro c hc
    rw [hother c (h.closed c hc).1.1]
    exact h.closed c hc
  · intro k i ho
    exact h.dots k i (hin _ ho (fun heq => by cases heq)).1

end

/-! ## Paths -/

variable {P : Buf → Prop} {ts : List (List UInt8)}

theorem in_of_scanToken (hc : c ∈ S) {t : List UInt8} (hscan : scanToken (v.data c) t = .hit i) :
    (Owner.slot c i).In S v :=
  ⟨hc, (live_of_scanToken hscan).1, (live_of_scanToken hscan).2.1⟩

theorem cluster_mem (h : Tidy g v S L) (ho : (Owner.slot k i).In S v) (hdir : IsDir (v.slot k i))
    (hne : getEntryCluster (v.slot k i) ≠ 0) : getEntryCluster (v.slot k i) ∈ S :=
  h.dirs _ ho hdir _ (h.linked_slot ho hne).mem_self

/-- **A path that leads through directories** is looked up in directories only. -/
theorem find_cases (h : Tidy g v S L) (hc : c ∈ S) (hlead : v.Leads P ts c) :
    v.Readable g.clusters ts c ∧
      (v.find ts c = none ∨ (ts = [] ∧ v.find ts c = some c) ∨
        ∃ k i, (Owner.slot k i).In S v ∧ P (v.slot k i) ∧
          v.find ts c = some (getEntryCluster (v.slot k i))) := by
  induction ts generalizing c with
  | nil => exact ⟨trivial, .inr (.inl ⟨rfl, rfl⟩)⟩
  | cons t ts ih =>
    rw [find]
    rcases hscan : scanToken (v.data c) t with - | i | -
    · exact ⟨⟨(h.closed c hc).1, fun i hi => by cases hscan.symm.trans hi⟩, .inl rfl⟩
    · have hslot := hlead i hscan
      have ho := in_of_scanToken hc hscan
      have hunique : ∀ i', scanToken (v.data c) t = .hit i' → i' = i :=
        fun i' hi' => (Scan.hit.inj (hscan.symm.trans hi')).symm
      split at hslot
      · rename_i hnil
        subst hnil
        refine ⟨⟨(h.closed c hc).1, fun _ _ => trivial⟩, .inr (.inr ⟨c, i, ho, hslot, rfl⟩)⟩
      · rename_i hnil
        obtain ⟨hdir, hne, hrest⟩ := hslot
        obtain ⟨hread, hcases⟩ := ih (h.cluster_mem ho hdir hne) hrest
        refine ⟨⟨(h.closed c hc).1, fun i' hi' => hunique i' hi' ▸ hread⟩, ?_⟩
        rcases hcases with hnone | ⟨hnil', -⟩ | hsome
        · exact .inl hnone
        · exact absurd hnil' hnil
        · exact .inr (.inr hsome)
    · exact ⟨⟨(h.closed c hc).1, fun i hi => by cases hscan.symm.trans hi⟩, .inl rfl⟩

end Tidy

end CarrotOS.Fat32
