import HaoSys.Fs.Change

/-!
# Deleting directories

`fat_delete_file` keeps a directory in which `fat_read_dir` lists a name that
does not start with a dot. The list is short when a sector of the directory
cannot be read: the rest of its cluster is left out, and `fat_read_dir` does
not say so. What is listed decides, whatever the directory holds.
-/

namespace HaoSys.Fs

open HaoSys.Lib Prog DirSlot

namespace FatFs

variable {fs : FatFs} {d : Disk} {path : List UInt8} {r : Resolved} {lba offset c : UInt32}
  {fuel : Nat}

/-- The chain of clusters from `c` on holds no live entries but `.` and `..`, whether its sectors
can be read or not. -/
def OnlyDots (fs : FatFs) (d : Disk) (c : UInt32) : Prop :=
  ∀ cs z, DirWalk fs d c cs z → ∀ t ∈ live (fs.dirSlots d cs),
    t.entry.upperName = dotName ∨ t.entry.upperName = dotdotName

/-- A listing of the directory at `c` that ends shows a name that does not start with a dot. -/
def ShowsOther (fs : FatFs) (d : Disk) (c : UInt32) : Prop :=
  ∀ k, First (fs.ReadStops d 128 0 c) k →
    ∃ t ∈ (live (fs.seenTo d c k)).take 128, t.entry 0 ≠ 0x2E

/-- A chain that starts at number 0 or 1 is empty. -/
theorem onlyDots_of_lt_two (h : c.toNat < 2) : fs.OnlyDots d c := by
  intro cs z hw t ht
  cases cs with
  | nil => cases ht
  | cons x cs =>
    obtain ⟨rfl, -⟩ := hw.tail
    have hx := (hw.valid c List.mem_cons_self).1
    omega

/-- What is listed of a directory. -/
theorem reads_dirContents (h : fs.bytesPerSector = 512) (hi : fs.initialized = true) {e : Dirent}
    (hdir : e.isDir = true) (hc : 2 ≤ e.firstCluster) {es : List Dirent} :
    Reads (dirContents fuel fs e) d es ↔
      ∃ k < fuel, First (fs.ReadStops d 128 0 e.firstCluster) k ∧
        es = ((live (fs.seenTo d e.firstCluster k)).take 128).map DirSlot.entry := by
  have hstart : dirStart fs e.firstCluster = e.firstCluster := if_neg fun h0 => by
    rw [h0.1] at hc
    exact absurd hc (by decide)
  unfold dirContents fatReadDir
  rw [if_pos ⟨hdir, hc⟩, if_neg (by simp [hi]), hstart, readDirClusters_iff h 128 (Nat.zero_le _)]
  simp only [scan, List.nil_append, List.map_take]
  rfl

/-- **Only empty directories are deleted**, for every pattern of sectors that cannot be read, exactly
when the directory is empty or its listing shows a name without a leading dot. -/
theorem fat_delete_file_only_empty_iff (h : fs.Sized) (hi : fs.initialized = true)
    (hw : ∀ n a, d.writable n a = true) (hf : fs.Finds d fuel path r lba offset)
    (hdir : (fs.entryAt d lba offset).isDir = true) :
    (∀ fuel b u, fatDeleteFile fuel fs (some path) ⟨b, d⟩ = .ok (true, u) →
        fs.OnlyDots d (fs.entryAt d lba offset).firstCluster) ↔
      fs.OnlyDots d (fs.entryAt d lba offset).firstCluster ∨
        fs.ShowsOther d (fs.entryAt d lba offset).firstCluster := by
  by_cases h2 : (fs.entryAt d lba offset).firstCluster.toNat < 2
  · exact iff_of_true (fun _ _ _ _ => onlyDots_of_lt_two h2) (.inl (onlyDots_of_lt_two h2))
  · have hc : 2 ≤ (fs.entryAt d lba offset).firstCluster := UInt32.le_iff_toNat_le.2 (by
      rw [show (2 : UInt32).toNat = 2 from rfl]
      omega)
    constructor
    · intro hdel
      by_cases hshows : fs.ShowsOther d (fs.entryAt d lba offset).firstCluster
      · exact .inr hshows
      · -- the listing ends and shows dots only, so the directory is deleted
        refine .inl ?_
        unfold ShowsOther at hshows
        push Not at hshows
        obtain ⟨k, hk, hdots⟩ := hshows
        obtain ⟨s, u, hrun, -⟩ := (hf.mono h.sector (le_max_left fuel (k + 1))).fatDeleteFile_run
          h.sector hi ((reads_dirContents h.sector hi hdir hc).2
            ⟨k, lt_of_lt_of_le (Nat.lt_succ_self k) (le_max_right _ _), hk, rfl⟩)
          (fun f hmem => by
            obtain ⟨t, ht, rfl⟩ := List.mem_map.1 hmem
            exact hdots t ht) (hw _ _) Sector.zero
        exact hdel _ _ _ hrun
    · rintro (hempty | hshows) fuel' b u hrun
      · exact hempty
      · exfalso
        obtain ⟨r', lba', offset', hf', es, hes, hdots⟩ := finds_of_delete hrun
        obtain ⟨-, rfl, rfl⟩ := hf.unique hf' h.sector
        obtain ⟨k, -, hk, rfl⟩ := (reads_dirContents h.sector hi hdir hc).1 hes
        obtain ⟨t, ht, hne⟩ := hshows k hk
        exact hne (hdots _ (List.mem_map_of_mem ht))

/-- The directory D of a root region. -/
theorem fat_delete_file_only_empty_iff_root :
    (∀ fuel b u, fatDeleteFile fuel sampleFs (some [0x44]) ⟨b, rootWithDir⟩ = .ok (true, u) →
        sampleFs.OnlyDots rootWithDir (sampleFs.entryAt rootWithDir 3 0).firstCluster) ↔
      sampleFs.OnlyDots rootWithDir (sampleFs.entryAt rootWithDir 3 0).firstCluster ∨
        sampleFs.ShowsOther rootWithDir (sampleFs.entryAt rootWithDir 3 0).firstCluster :=
  fat_delete_file_only_empty_iff sampleFs_sound.sized rfl (fun _ _ => rfl)
    ⟨reads_of_evalOn (a := ⟨0, makeName83 [0x44], some (newDirent (makeName83 [0x44]) 0x10 2 0)⟩)
        (readOnly_fatResolveParent 1 _ _) (by decide +kernel), by decide, by decide,
      reads_of_evalOn (readOnly_dirFindSlot _ _ _ _) (by decide +kernel)⟩
    (by decide +kernel)

/-- The root region holds the directory D, whose one sector cannot be read; it holds the file F. -/
def unreadableDir : Disk :=
  ⟨fun a =>
    if a = 1 ∨ a = 2 then Sector.zero.set16 4 0xFFF8
    else if a = 3 then Sector.ofDirents [newDirent (makeName83 [0x44]) 0x10 2 0]
    else if a = 4 then Sector.ofDirents [newDirent dotName 0x10 2 0, newDirent dotdotName 0x10 0 0,
      newDirent (makeName83 [0x46]) 0x20 0 0]
    else Sector.zero, fun a => a ≠ 4, fun _ _ => true, 0⟩

/-- D is deleted. -/
theorem unreadable_dir_deleted : ¬ ∀ (fs : FatFs) (d : Disk) (path : List UInt8) (r : Resolved)
    (lba offset : UInt32) (fuel : Nat), fs.Sound → (∀ n a, d.writable n a = true) →
      fs.Finds d fuel path r lba offset → (fs.entryAt d lba offset).isDir = true →
      ∀ fuel b u, fatDeleteFile fuel fs (some path) ⟨b, d⟩ = .ok (true, u) →
        fs.OnlyDots d (fs.entryAt d lba offset).firstCluster := by
  intro h
  have hf : sampleFs.Finds unreadableDir 1 [0x44]
      ⟨0, makeName83 [0x44], some (newDirent (makeName83 [0x44]) 0x10 2 0)⟩ 3 0 :=
    ⟨reads_of_evalOn (readOnly_fatResolveParent _ _ _) (by decide +kernel), by decide, by decide,
      reads_of_evalOn (readOnly_dirFindSlot _ _ _ _) (by decide +kernel)⟩
  have hcontents : Reads (dirContents 2 sampleFs (sampleFs.entryAt unreadableDir 3 0))
      unreadableDir [] :=
    reads_of_evalOn (readOnly_dirContents _ _ _) (by decide +kernel)
  obtain ⟨s, u, hrun, -⟩ := (hf.mono rfl (Nat.le_succ 1)).fatDeleteFile_run rfl rfl hcontents nofun
    rfl Sector.zero
  have hdots := h sampleFs unreadableDir [0x44] _ 3 0 1 sampleFs_sound (fun _ _ => rfl) hf
    (by decide +kernel) 2 _ _ hrun
  have hfirst : (sampleFs.entryAt unreadableDir 3 0).firstCluster = 2 := by decide +kernel
  rw [hfirst] at hdots
  have hF : (⟨4, 64, newDirent (makeName83 [0x46]) 0x20 0 0⟩ : DirSlot) ∈
      live (sampleFs.dirSlots unreadableDir [2]) := by decide +kernel
  exact absurd (hdots [2] 0xFFF8 (sample_walk (by decide +kernel)) _ hF) (by decide)

end FatFs

end HaoSys.Fs
