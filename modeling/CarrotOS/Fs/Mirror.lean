import CarrotOS.Fs.Sharing

/-!
# The copies of the FAT

Three routines change entries of the FAT. `fat32_set_fat_entry` writes the changed sector to every
copy; `fat_set_entry` writes the boot sector to the other copies; `extend_dirent_cluster` writes the
first copy only. Writing, truncating and removing use the first one, so that they keep the copies
equal. Creating ends with the second one, and a renamed entry needs the third one when its directory
is full.
-/

namespace CarrotOS.Fat32

open Bytes Transition

/-- **The copies of the FAT stay equal** as long as nothing is created or renamed into a full
directory. -/
theorem mirrors_of_run {g : Geometry} {d d' : Disk} {calls : List (FatEnv × FatCall)}
    (hdisk : OnDisk g d) (hmirrors : Mirrors g d) (hwf : WellFormed g (vol g d))
    (hrun : Run (FatCall.step g.part)
      (fun d c => c.2.Ok g (vol g d) ∧ c.2.KeepsMirrors g (vol g d)) d calls d') :
    Mirrors g d' := by
  have hinv : Rep g True d' (vol g d') ∧ WellFormed g (vol g d') := by
    refine hrun.invariant (fun d => Rep g True d (vol g d) ∧ WellFormed g (vol g d)) ?_
      ⟨⟨hdisk, rfl, fun _ => hmirrors⟩, hwf⟩
    rintro d₁ ⟨env, call⟩ d₂ ⟨hr, hwf₁⟩ ⟨hok, hkeep⟩ hstep
    obtain ⟨hr', hwf'⟩ := FatCall.step_wellFormed hr hwf₁ hok hstep
    exact ⟨hr'.mono fun _ => ⟨trivial, hkeep⟩, hwf'⟩
  exact hinv.1.mirrors trivial

theorem smallDisk_mirrors (fat : List ℕ) (root : List Buf) :
    Mirrors smallGeometry (smallDisk fat root) := by
  intro k hk p hp
  have hk' : k < 2 := hk
  have hp' : p < 512 := hp
  have hpos : ∀ k, smallGeometry.fatPos k p = 1024 + 512 * k + p := by
    intro k
    change 512 * (1 + 1 + k * 1) + p = _
    omega
  have hread :
    ∀ k < 2, smallDisk fat root (1024 + 512 * k + p) = leByte (fat.getD (p / 4) 0) (p % 4) := by
    intro k hk
    rw [smallDisk, if_neg (by omega), if_neg (by omega), if_pos (by omega),
      show (1024 + 512 * k + p) % 512 = p by omega, show (1024 + 512 * k + p) % 4 = p % 4 by omega]
  rw [hpos, hpos, hread k hk', hread 0 (by decide)]

def fileDisk : Disk :=
  smallDisk [0x0FFFFFF8, 0x0FFFFFFF, 0x0FFFFFF8, 0x0FFFFFF8] [newEntry (formatName83 [0x41]) 0x20 3]

theorem fileDisk_flat : Flat smallGeometry (vol smallGeometry fileDisk) := by
  decide +kernel

/-- The file is truncated. -/
theorem mirrors_of_run_truncate :
    ∃ d', FatCall.step smallGeometry.part fileDisk
        (⟨5, fun _ _ _ => 0⟩, .truncate [slash, 0x41]) = some d' ∧ Mirrors smallGeometry d' := by
  have hparent :
    (vol smallGeometry fileDisk).resolve smallGeometry.root (parentPath [slash, 0x41]) = 2 := by
    decide
  have hok : (FatCall.truncate [slash, 0x41]).Ok smallGeometry (vol smallGeometry fileDisk) := by
    intro _ _
    refine ⟨fun _ => trivial, fun _ _ => trivial, fun _ => ⟨?_, ?_⟩⟩
    · rw [hparent]
      decide
    · rw [hparent]
      exact ⟨2, 0, .here (by decide), by decide, by decide⟩
  have hkeep : (FatCall.truncate [slash, 0x41]).KeepsMirrors smallGeometry
      (vol smallGeometry fileDisk) := trivial
  have hdisk : OnDisk smallGeometry fileDisk := smallDisk_onDisk _ _
  exact exists_of_eval (Q := fun _ => True) (by decide) fun _ hstep _ =>
    mirrors_of_run hdisk (smallDisk_mirrors _ _) fileDisk_flat.wellFormed
      (.snoc (.nil _) ⟨hok, hkeep⟩ hstep)

/-- **Creating a file makes the copies differ.** The second copy of the changed sector becomes the
boot sector. -/
theorem create_splits_mirrors :
    ∃ d', OnDisk smallGeometry emptyDisk ∧ Mirrors smallGeometry emptyDisk ∧
      WellFormed smallGeometry (vol smallGeometry emptyDisk) ∧
      Run (FatCall.step smallGeometry.part) (fun _ _ => True) emptyDisk
        [(⟨5, fun _ _ _ => 0⟩, .create [slash, 0x41] false)] d' ∧
      ¬ Mirrors smallGeometry d' := by
  simp only [exists_and_left]
  refine ⟨smallDisk_onDisk _ _, smallDisk_mirrors _ _, emptyDisk_flat.wellFormed,
    Run.exists_of_eval (Q := fun d' =>
      d' (smallGeometry.fatPos 1 0) ≠ d' (smallGeometry.fatPos 0 0)) (by decide) ?_⟩
  intro d' _ hdiffer hmirrors
  exact hdiffer (hmirrors 1 (by decide) 0 (by decide))

end CarrotOS.Fat32
