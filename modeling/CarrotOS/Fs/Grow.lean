import CarrotOS.Fs.Effect

/-!
# New entries and the names of a directory

Creating and renaming put one entry into a directory, into a free slot or into a further cluster,
and leave all other entries as they are or remove them. If the name of the new entry is new in its
directory, no two entries of a directory get the same name.

What is said of a directory is said of the clusters from one of its clusters on. The clusters of the
directories are a set that grows with the volume, as in `Tidy`.
-/

namespace CarrotOS.Fat32

open LinkTable Vol

/-- The slot `s` holds an entry in use of the directory, in the cluster `c` or behind it. -/
def Vol.Holds (v : Vol) (c : ℕ) (s : ℕ × ℕ) : Prop :=
  Reaches v.next c s.1 ∧ s.2 < slotsPerCluster ∧ Live (v.slot s.1 s.2)

def Vol.nameAt (v : Vol) (s : ℕ × ℕ) : List UInt8 :=
  cells 11 (v.slot s.1 s.2)

/-- No directory with clusters in `S` holds two entries in use with the same name. -/
def UniqueIn (S : Set ℕ) (v : Vol) : Prop :=
  ∀ c ∈ S, ∀ s s', v.Holds c s → v.Holds c s' → v.nameAt s = v.nameAt s' → s = s'

/-- No entry in use of the directory that starts at `q` has the name. -/
def Vol.NewName (v : Vol) (q : ℕ) (name : List UInt8) : Prop :=
  ∀ s, v.Holds q s → v.nameAt s ≠ name

/-- An entry with the name has been put into the slot `p` of the directory that starts at `q`; `S'`
are the clusters of directories now. Other entries in use were there before, and a new cluster is
the last one of its directory. -/
structure Grown (S : Set ℕ) (q : ℕ) (name : List UInt8) (v : Vol) (p : ℕ × ℕ) (S' : Set ℕ)
    (v' : Vol) : Prop where
  subset : S ⊆ S'
  slots : ∀ s : ℕ × ℕ, s.1 ∈ S → s.2 < slotsPerCluster → s ≠ p → Live (v'.slot s.1 s.2) →
    Live (v.slot s.1 s.2) ∧ v'.nameAt s = v.nameAt s
  new : ∀ k ∈ S', k ∉ S → v'.next k = none ∧
    ∀ i < slotsPerCluster, Live (v'.slot k i) → (k, i) = p
  name : p.1 ∈ S' → p.2 < slotsPerCluster → Live (v'.slot p.1 p.2) → v'.nameAt p = name
  next : ∀ x ∈ S, ∀ y, v'.next x = some y → v.next x = some y ∨ y = p.1 ∧ p.1 ∉ S
  place : p.1 ∈ S → Reaches v.next q p.1
  link : p.1 ∉ S → ∀ x ∈ S, v'.next x = some p.1 → Reaches v.next q x

/-! ## Changes elsewhere -/

def Vol.AgreeOn (S : Set ℕ) (v v' : Vol) : Prop :=
  ∀ k ∈ S, v'.data k = v.data k ∧ v'.fat k = v.fat k

/-- What is in use in the clusters of `S` was there before. -/
def Vol.Fewer (S : Set ℕ) (v v' : Vol) : Prop :=
  v'.fat = v.fat ∧ ∀ k ∈ S, ∀ i < slotsPerCluster, Live (v'.slot k i) →
    SameEntry (v'.slot k i) (v.slot k i)

section Elsewhere

variable {S : Set ℕ} {v v1 v2 : Vol} {b z k i : ℕ} {e : Buf}

theorem Vol.AgreeOn.trans (h : Vol.AgreeOn S v v1) (h1 : Vol.AgreeOn S v1 v2) :
    Vol.AgreeOn S v v2 := by
  intro k hk
  exact ⟨(h1 k hk).1.trans (h k hk).1, (h1 k hk).2.trans (h k hk).2⟩

theorem Vol.AgreeOn.next (h : Vol.AgreeOn S v v1) (hk : k ∈ S) : v1.next k = v.next k := by
  rw [Vol.next, Vol.next, (h k hk).2]

theorem Vol.AgreeOn.slot (h : Vol.AgreeOn S v v1) (hk : k ∈ S) : v1.slot k = v.slot k := by
  funext i
  rw [Vol.slot, Vol.slot, (h k hk).1]

theorem Vol.agreeOn_setFat (v : Vol) (hb : b ∉ S) (x : ℕ) : Vol.AgreeOn S v (v.setFat b x) := by
  intro k hk
  refine ⟨rfl, ?_⟩
  rw [setFat_fat, Function.update_of_ne (ne_of_mem_of_not_mem hk hb)]

theorem Vol.agreeOn_setData (v : Vol) (hb : b ∉ S) (buf : Buf) :
    Vol.AgreeOn S v (v.setData b buf) := by
  intro k hk
  exact ⟨v.setData_data_of_ne (ne_of_mem_of_not_mem hk hb) buf, rfl⟩

theorem Vol.agreeOn_extended (v : Vol) (hz : z ∉ S) (hb : b ∉ S) :
    Vol.AgreeOn S v (v.extended z b) :=
  ((v.agreeOn_setFat hz b).trans (agreeOn_setFat _ hb _)).trans (agreeOn_setData _ hb _)

theorem Vol.agreeOn_finish (v : Vol) (hb : b ∉ S) (isDir : Bool) (parent : ℕ) :
    Vol.AgreeOn S v (v.finish isDir b parent) := by
  unfold finish
  split
  · exact (v.agreeOn_setData hb _).trans (agreeOn_setFat _ hb _)
  · exact v.agreeOn_setFat hb _

theorem Vol.Fewer.refl (S : Set ℕ) (v : Vol) : Vol.Fewer S v v :=
  ⟨rfl, fun _ _ _ _ _ _ _ => rfl⟩

theorem Vol.Fewer.trans (h : Vol.Fewer S v v1) (h1 : Vol.Fewer S v1 v2) : Vol.Fewer S v v2 := by
  refine ⟨h1.1.trans h.1, fun k hk i hi hlive => ?_⟩
  have hsame := h1.2 k hk i hi hlive
  have hsame' := h.2 k hk i hi (hsame.live.mp hlive)
  exact fun j hj => (hsame j hj).trans (hsame' j hj)

theorem Vol.fewer_setSlot (S : Set ℕ) (v : Vol) (k : ℕ) (hi : i < slotsPerCluster) (he : ¬ Live e) :
    Vol.Fewer S v (v.setSlot k i e) := by
  refine ⟨rfl, fun k' _ i' hi' hlive => v.setSlot_slot_of_ne hi' ?_⟩
  intro heq
  obtain ⟨rfl, rfl⟩ := Prod.mk.inj heq
  exact he ((v.setSlot_slot_self k' hi e).live.mp hlive)

theorem Vol.fewer_setData (v : Vol) (hb : b ∉ S) (buf : Buf) : Vol.Fewer S v (v.setData b buf) := by
  refine ⟨rfl, fun k hk i _ _ => ?_⟩
  rw [(v.agreeOn_setData hb buf).slot hk]
  exact fun _ _ => rfl

end Elsewhere

namespace Grown

variable {S S' : Set ℕ} {q n b z k i : ℕ} {name : List UInt8} {v v1 v' : Vol} {p : ℕ × ℕ} {e : Buf}

/-! ## The changes -/

theorem of_agreeOn (hS : v.Closed n S) (hp : p.1 ∉ S) (h : Vol.AgreeOn S v v') :
    Grown S q name v p S v' := by
  constructor
  · exact subset_rfl
  · intro s hs _ _ hlive
    rw [h.slot hs] at hlive
    rw [nameAt, nameAt, h.slot hs]
    exact ⟨hlive, rfl⟩
  · intro k hk hk'
    exact absurd hk hk'
  · intro hp'
    exact absurd hp' hp
  · intro x hx y hy
    exact .inl ((h.next hx).symm.trans hy)
  · intro hp'
    exact absurd hp' hp
  · intro _ x hx hy
    rw [h.next hx] at hy
    exact absurd ((hS x hx).2 _ hy) hp

theorem of_setSlot (hk : k ∈ S) (hi : i < slotsPerCluster) (hq : Reaches v.next q k)
    (hname : cells 11 e = name) : Grown S q name v (k, i) S (v.setSlot k i e) := by
  constructor
  · exact subset_rfl
  · intro s _ hs hne hlive
    have hsame := v.setSlot_slot_of_ne (e := e) hs hne
    exact ⟨hsame.live.mp hlive, hsame.name⟩
  · intro k' hk' hk''
    exact absurd hk' hk''
  · intro _ _ _
    exact (v.setSlot_slot_self k hi e).name.trans hname
  · intro x _ y hy
    exact .inl hy
  · intro _
    exact hq
  · intro hk'
    exact absurd hk hk'

/-- The end of `fat32_create`: the cluster of the new entry belongs to no directory yet. -/
theorem finish (h : Grown S q name v p S' v1) (hb : b ∉ S') (hp : p.1 ≠ b) (isDir : Bool)
    (parent : ℕ) : Grown S q name v p (withDir isDir b S') (v1.finish isDir b parent) := by
  have hagree := v1.agreeOn_finish (S := {k | k ≠ b}) (fun hk => hk rfl) isDir parent
  have hne : ∀ k ∈ S, k ≠ b := fun k hk => ne_of_mem_of_not_mem (h.subset hk) hb
  have hmem : ∀ k ∈ withDir isDir b S', k ∈ S' ∨ k = b ∧ isDir ∧ 2 ≤ b := by
    intro k hk
    by_cases hdir : isDir ∧ 2 ≤ b
    · rw [withDir_of hdir] at hk
      exact hk.symm.imp_right fun hkb => ⟨hkb, hdir⟩
    · rw [withDir_of_not hdir] at hk
      exact .inl hk
  constructor
  · intro k hk
    unfold withDir
    split
    · exact .inr (h.subset hk)
    · exact h.subset hk
  · intro s hs hi hsp hlive
    rw [hagree.slot (hne s.1 hs)] at hlive
    rw [nameAt, hagree.slot (hne s.1 hs)]
    exact h.slots s hs hi hsp hlive
  · intro k hk hkS
    rcases hmem k hk with hk' | ⟨rfl, hdir⟩
    · have hkb := ne_of_mem_of_not_mem hk' hb
      rw [hagree.next hkb, hagree.slot hkb]
      exact h.new k hk' hkS
    · -- a new directory has no entry in use
      refine ⟨?_, fun i hi hlive => ?_⟩
      · rw [Vol.next, Vol.finish, Vol.setFat_fat, Function.update_self, if_pos le_rfl]
      · rw [finish, if_pos hdir] at hlive
        exact absurd ((setData_slot_self _ k _ hi).live.mp hlive) (dotEntries_slot k parent hi).1
  · intro hpS hi hlive
    rw [hagree.slot hp] at hlive
    rw [nameAt, hagree.slot hp]
    exact h.name ((hmem _ hpS).resolve_right fun hpb => hp hpb.1) hi hlive
  · intro x hx y hy
    rw [hagree.next (hne x hx)] at hy
    exact h.next x hx y hy
  · exact h.place
  · intro hpS x hx hy
    rw [hagree.next (hne x hx)] at hy
    exact h.link hpS x hx hy

theorem fewer (h : Grown S q name v p S' v1) (hfew : Vol.Fewer S' v1 v') :
    Grown S q name v p S' v' := by
  have hnext : v'.next = v1.next := by
    funext x
    rw [Vol.next, Vol.next, hfew.1]
  constructor
  · exact h.subset
  · intro s hs hi hsp hlive
    have hsame := hfew.2 s.1 (h.subset hs) s.2 hi hlive
    obtain ⟨hold, hname⟩ := h.slots s hs hi hsp (hsame.live.mp hlive)
    exact ⟨hold, hsame.name.trans hname⟩
  · intro k hk hkS
    rw [hnext]
    refine ⟨(h.new k hk hkS).1, fun i hi hlive => ?_⟩
    exact (h.new k hk hkS).2 i hi ((hfew.2 k hk i hi hlive).live.mp hlive)
  · intro hpS hi hlive
    have hsame := hfew.2 p.1 hpS p.2 hi hlive
    exact hsame.name.trans (h.name hpS hi (hsame.live.mp hlive))
  · rw [hnext]
    exact h.next
  · exact h.place
  · rw [hnext]
    exact h.link

/-- The directory gets a further cluster `b` behind its last one, and the entry is the first in
it. -/
theorem after_extend (hS : v.Closed n S) (hz : z ∈ S) (hb : b ∉ S) (hq : Reaches v.next q z)
    (h : Grown (insert b S) b name (v.extended z b) (b, 0) S' v') :
    Grown S q name v (b, 0) S' v' := by
  have hzb : z ≠ b := ne_of_mem_of_not_mem hz hb
  have hnext : ∀ x ∈ S, ∀ y, v'.next x = some y → v.next x = some y ∨ y = b ∧ x = z := by
    intro x hx y hy
    rcases h.next x (.inr hx) y hy with hext | ⟨-, hnot⟩
    · by_cases hxz : x = z
      · subst hxz
        rw [Vol.next, v.extended_fat_last hzb] at hext
        split at hext
        · cases hext
        · exact .inr ⟨(Option.some.inj hext).symm, rfl⟩
      · rw [Vol.next, v.extended_fat_of_ne hxz (ne_of_mem_of_not_mem hx hb)] at hext
        exact .inl hext
    · exact absurd (.inl rfl) hnot
  constructor
  · exact (Set.subset_insert b S).trans h.subset
  · intro s hs hi hsp hlive
    obtain ⟨hold, hname⟩ := h.slots s (.inr hs) hi hsp hlive
    have hslot : (v.extended z b).slot s.1 = v.slot s.1 :=
      setData_slot_of_ne _ (ne_of_mem_of_not_mem hs hb) _
    rw [nameAt, nameAt, hslot] at hname
    rw [hslot] at hold
    exact ⟨hold, hname⟩
  · intro k hk hkS
    by_cases hkb : k = b
    · subst hkb
      refine ⟨?_, fun i hi hlive => ?_⟩
      · rcases hn : v'.next k with - | y
        · rfl
        · rcases h.next k (.inl rfl) y hn with hext | ⟨-, hnot⟩
          · rw [v.extended_next_self] at hext
            cases hext
          · exact absurd (.inl rfl) hnot
      · by_contra hne
        exact (h.slots (k, i) (.inl rfl) hi hne hlive).1.1 (v.extended_slot z k hi (by decide))
    · exact h.new k hk fun hmem => hmem.elim hkb hkS
  · exact h.name
  · intro x hx y hy
    exact (hnext x hx y hy).imp_right fun hyb => ⟨hyb.1, hb⟩
  · intro hbS
    exact absurd hbS hb
  · intro _ x hx hy
    rcases hnext x hx b hy with hold | ⟨-, rfl⟩
    · exact absurd ((hS x hx).2 b hold) hb
    · exact hq

/-! ## Names -/

section

variable (h : Grown S q name v p S' v') (hS : v.Closed n S) (hS' : v'.Closed n S')
include h hS hS'

theorem reaches {c k : ℕ} (hc : c ∈ S) (hk : Reaches v'.next c k) :
    k ∈ S ∧ Reaches v.next c k ∨ k = p.1 ∧ p.1 ∈ S' ∧ p.1 ∉ S ∧
      ∃ x, Reaches v.next c x ∧ Reaches v.next q x := by
  induction hk with
  | refl => exact .inl ⟨hc, .refl⟩
  | @tail x y _ hy ih =>
    rcases ih with ⟨hx, hcx⟩ | ⟨rfl, hpS', hpS, -⟩
    · rcases h.next x hx y hy with hold | ⟨rfl, hpS⟩
      · exact .inl ⟨(hS x hx).2 y hold, hcx.tail hold⟩
      · exact .inr ⟨rfl, (hS' x (h.subset hx)).2 _ hy, hpS, x, hcx, h.link hpS x hx hy⟩
    · rw [(h.new _ hpS' hpS).1] at hy
      cases hy

theorem holds {c : ℕ} (hc : c ∈ S) {s : ℕ × ℕ} (hs : v'.Holds c s) :
    s = p ∨ v.Holds c s ∧ v'.nameAt s = v.nameAt s := by
  obtain ⟨hreach, hi, hlive⟩ := hs
  by_cases hsp : s = p
  · exact .inl hsp
  · rcases h.reaches hS hS' hc hreach with ⟨hsS, hold⟩ | ⟨hk, hpS', hpS, -⟩
    · obtain ⟨hlive', hname⟩ := h.slots s hsS hi hsp hlive
      exact .inr ⟨⟨hold, hi, hlive'⟩, hname⟩
    · rw [← hk] at hpS' hpS
      exact .inl ((h.new _ hpS' hpS).2 _ hi hlive)

/-- **Names stay unique** if no entry of the directory had the name of the new one. -/
theorem unique
    (hhead : p.1 ∈ S' → ∀ c ∈ S, ∀ x, Reaches v.next c x → Reaches v.next q x → Reaches v.next q c)
    (hnew : p.1 ∈ S' → v.NewName q name) (hu : UniqueIn S v) : UniqueIn S' v' := by
  intro c hc s s' hs hs' heq
  by_cases hcS : c ∈ S
  swap
  · -- a cluster that was not there before has the new entry only
    obtain ⟨hend, honly⟩ := h.new c hc hcS
    have hfirst : ∀ s, v'.Holds c s → s = p := by
      rintro ⟨k, i⟩ ⟨hreach, hi, hlive⟩
      rcases Relation.ReflTransGen.cases_head hreach with rfl | ⟨y, hy, -⟩
      · exact honly i hi hlive
      · rw [hend] at hy
        cases hy
    rw [hfirst s hs, hfirst s' hs']
  -- the new entry has a name that no other entry of its directory has
  have hother : ∀ s, v'.Holds c p → v.Holds c s → v.nameAt s ≠ v'.nameAt p := by
    intro s hp hold
    have hpS' : p.1 ∈ S' := hS'.reaches (h.subset hcS) hp.1
    obtain ⟨x, hcx, hqx⟩ : ∃ x, Reaches v.next c x ∧ Reaches v.next q x := by
      rcases h.reaches hS hS' hcS hp.1 with ⟨hpS, hcp⟩ | ⟨-, -, -, hmeet⟩
      · exact ⟨p.1, hcp, h.place hpS⟩
      · exact hmeet
    have hqc := hhead hpS' c hcS x hcx hqx
    rw [h.name hpS' hp.2.1 hp.2.2]
    exact hnew hpS' s ⟨hqc.trans hold.1, hold.2⟩
  rcases h.holds hS hS' hcS hs with rfl | ⟨hold, hname⟩
  · rcases h.holds hS hS' hcS hs' with rfl | ⟨hold', hname'⟩
    · rfl
    · exact absurd (hname'.symm.trans heq.symm) (hother s' hs hold')
  · rcases h.holds hS hS' hcS hs' with rfl | ⟨hold', hname'⟩
    · exact absurd (hname.symm.trans heq) (hother s hs' hold)
    · exact hu c hcS s s' hold hold' (hname.symm.trans (heq.trans hname'))

end

end Grown

/-! ## An entry is put into a slot -/

/-- The entry `e` has been put into the slot `p`, which was free if it belongs to a directory of
`S`. -/
structure Placed (S : Set ℕ) (p : ℕ × ℕ) (e : Buf) (v v₁ : Vol) : Prop where
  next : ∀ x ∈ S, ∀ y, v.next x = some y → v₁.next x = some y
  slots : ∀ x ∈ S, ∀ j < slotsPerCluster, (x, j) ≠ p → SameEntry (v₁.slot x j) (v.slot x j)
  here : p.1 ∈ S → IsFree (v.slot p.1 p.2) ∧ SameEntry (v₁.slot p.1 p.2) e

namespace Placed

variable {S : Set ℕ} {p : ℕ × ℕ} {e : Buf} {v v₁ : Vol} {i k z : ℕ}

theorem of_setSlot (S : Set ℕ) (hi : i < slotsPerCluster) (hfree : IsFree (v.slot k i)) (e : Buf) :
    Placed S (k, i) e v (v.setSlot k i e) := by
  constructor
  · intro x _ y hy
    exact hy
  · intro x _ j hj hne
    exact v.setSlot_slot_of_ne hj hne
  · intro _
    exact ⟨hfree, v.setSlot_slot_self k hi e⟩

theorem of_agreeOn (e : Buf) (hp : p.1 ∉ S) (h : Vol.AgreeOn S v v₁) : Placed S p e v v₁ := by
  refine ⟨fun x hx y hy => (h.next hx).trans hy, fun x hx j _ _ => ?_, fun hmem => absurd hmem hp⟩
  rw [h.slot hx]
  exact fun _ _ => rfl

theorem of_extended {b : ℕ} (hz : v.next z = none) (hb : b ∉ S) (e : Buf) :
    Placed S (b, 0) e v ((v.extended z b).setSlot b 0 e) := by
  have hslot : ∀ x ∈ S, (v.extended z b).slot x = v.slot x :=
    fun x hx => setData_slot_of_ne _ (ne_of_mem_of_not_mem hx hb) _
  constructor
  · intro x hx y hy
    have hxz : x ≠ z := by
      rintro rfl
      cases hz.symm.trans hy
    rw [← hy, Vol.next, Vol.next, Vol.setSlot_fat,
      v.extended_fat_of_ne hxz (ne_of_mem_of_not_mem hx hb)]
  · intro x hx j hj hne
    have hsame := (v.extended z b).setSlot_slot_of_ne (e := e) hj hne
    rwa [hslot x hx] at hsame
  · intro hmem
    exact absurd hmem hb

theorem agree {v2 : Vol} (h : Placed S p e v v₁) (ha : Vol.AgreeOn S v₁ v2) :
    Placed S p e v v2 := by
  constructor
  · intro x hx y hy
    exact (ha.next hx).trans (h.next x hx y hy)
  · intro x hx j hj hne
    rw [ha.slot hx]
    exact h.slots x hx j hj hne
  · intro hp
    rw [ha.slot hp]
    exact h.here hp

end Placed

end CarrotOS.Fat32
