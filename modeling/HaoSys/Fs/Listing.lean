import HaoSys.Fs.Walk

/-!
# Listing a subdirectory

The driver ends the chains of the directories it creates with 0xFFF8, and its
walks end at 0x0FFFFFF8, so they take the mark for the number of one more
cluster. A listing is exact when the walk does not get there, or when it finds
nothing there and comes to an end.
-/

namespace HaoSys.Fs

open HaoSys.Lib Prog DirSlot

namespace FatFs

variable {fs : FatFs} {d : Disk} {dir : UInt32} {cs : List UInt32}

/-! ## What a listing returns -/

/-- The directory `dir` lies in the places `cs`: the fixed root region, or a chain of clusters
whose last entry is `z`. -/
def DirAt (fs : FatFs) (d : Disk) (dir : UInt32) (cs : List UInt32) (z : UInt32) : Prop :=
  dirStart fs dir = 0 ∧ cs = [0] ∨ DirWalk fs d (dirStart fs dir) cs z ∧ cs ≠ []

/-- A walk that takes up to `m` entries does not go on behind the directory. -/
def StaysIn (fs : FatFs) (d : Disk) (m : Nat) (dir : UInt32) (cs : List UInt32) (z : UInt32) :
    Prop :=
  dirStart fs dir = 0 ∨
    (ended (fs.dirSlots d cs) = true ∧ (live (fs.dirSlots d cs)).length < m) ∨ z ≥ endOfChain

/-- A walk through clusters of the FAT does not start in the root. -/
theorem dirStart_of_walk {c z : UInt32} (hw : DirWalk fs d c cs z) (hne : cs ≠ []) :
    c ≠ 0 ∧ dirStart fs c = c := by
  cases cs with
  | nil => exact absurd rfl hne
  | cons x cs =>
    obtain ⟨rfl, -⟩ := hw.tail
    have h0 := (ne_one_of_two_le (hw.valid c List.mem_cons_self).1).2
    exact ⟨h0, if_neg fun h => h0 h.1⟩

section Listings

variable {z m : UInt32} (h : fs.Sized) (hi : fs.initialized = true)
  (hr : ∀ a, d.readable a = true) (hd : fs.DirAt d dir cs z) (hm : m ≠ 0)

include h hi hr hd hm

/-- A listing that stays in the directory. -/
theorem DirAt.readDir_inside (hin : fs.StaysIn d m.toNat dir cs z) {fuel : Nat}
    (hfuel : cs.length ≤ fuel) :
    Reads (fatReadDir fuel fs dir m) d
      (((live (fs.dirSlots d cs)).map DirSlot.entry).take m.toNat) := by
  have hcond : ¬ ((!fs.initialized) = true ∨ m = 0) := by simp [hi, hm]
  rw [fatReadDir, if_neg hcond]
  obtain ⟨hstart, rfl⟩ | ⟨hw, hne⟩ := hd
  · obtain ⟨fuel, rfl⟩ : ∃ f, fuel = f + 1 := ⟨fuel - 1, by simp at hfuel; omega⟩
    have hread := readDirClusters_root (d := d) h hr m fuel [] (by simp)
    rw [dirSlots, List.flatMap_singleton, hstart]
    exact hread
  · refine readDirClusters_reads h hr m hw hfuel (by simp) ?_
    obtain h0 | hend | hz := hin
    · exact absurd h0 (dirStart_of_walk hw hne).1
    · exact .inl (by simpa [scan] using hend)
    · exact .inr ⟨hne, hz⟩

/-- A listing that does not: it goes on at the number behind the last cluster. -/
theorem DirAt.readDir_behind (hout : ¬ fs.StaysIn d m.toNat dir cs z) (fuel : Nat)
    {es : List Dirent} :
    Reads (fatReadDir (cs.length + fuel) fs dir m) d es ↔
      ∃ k < fuel, First (fs.ReadStops d m.toNat
          (min (live (fs.dirSlots d cs)).length m.toNat) z) k ∧
        es = (scan m.toNat (((live (fs.dirSlots d cs)).map DirSlot.entry).take m.toNat)
          (fs.seenTo d z k)).2 := by
  have hcond : ¬ ((!fs.initialized) = true ∨ m = 0) := by simp [hi, hm]
  unfold StaysIn at hout
  rw [not_or, not_or] at hout
  obtain ⟨hstart, -⟩ | ⟨hw, -⟩ := hd
  · exact absurd hstart hout.1
  · have hscan : scan m.toNat [] (fs.dirSlots d cs) =
        (false, ((live (fs.dirSlots d cs)).map DirSlot.entry).take m.toNat) := by
      unfold scan
      rw [List.nil_append, List.length_nil, Nat.zero_add]
      simpa using hout.2.1
    rw [fatReadDir, if_neg hcond, readDirClusters_through h hr m (UInt32.not_le.1 hout.2.2) fuel
      hw (show ([] : List Dirent).length ≤ _ from Nat.zero_le _), hscan, if_neg Bool.false_ne_true,
      readDirClusters_iff h.sector m (by simp)]
    simp only [List.length_take, List.length_map, Nat.min_comm]

/-- A listing ends when it stays in the directory or stops somewhere behind it. -/
theorem DirAt.readDir_ends_iff :
    (∃ f₀, ∀ fuel ≥ f₀, ∃ es, Reads (fatReadDir fuel fs dir m) d es) ↔
      fs.StaysIn d m.toNat dir cs z ∨
        ∃ k, fs.ReadStops d m.toNat (min (live (fs.dirSlots d cs)).length m.toNat) z k := by
  by_cases hin : fs.StaysIn d m.toNat dir cs z
  · exact iff_of_true ⟨cs.length, fun fuel hfuel => ⟨_, hd.readDir_inside h hi hr hm hin hfuel⟩⟩
      (.inl hin)
  · constructor
    · rintro ⟨f₀, hf⟩
      obtain ⟨es, hes⟩ := hf (cs.length + f₀) (Nat.le_add_left _ _)
      obtain ⟨k, -, hk, -⟩ := (hd.readDir_behind h hi hr hm hin f₀).1 hes
      exact .inr ⟨k, hk.1⟩
    · intro hk
      obtain ⟨k, hk⟩ := First.exists (hk.resolve_left hin)
      refine ⟨cs.length + (k + 1), fun fuel hfuel => ?_⟩
      obtain ⟨f, rfl⟩ : ∃ f, fuel = cs.length + f := ⟨fuel - cs.length, by omega⟩
      exact ⟨_, (hd.readDir_behind h hi hr hm hin f).2 ⟨k, by omega, hk, rfl⟩⟩

end Listings

/-- A slot of the directory is found, given fuel for its clusters. -/
theorem DirAt.findSlot {z : UInt32} (hd : fs.DirAt d dir cs z) (h : fs.Sized)
    (hr : ∀ a, d.readable a = true) {name : Name83} {slot : Slot}
    (hslot : DirSlot.findSlot name (fs.dirSlots d cs) = some slot) {fuel : Nat}
    (hfuel : cs.length ≤ fuel) : Reads (dirFindSlot fuel fs dir name) d slot := by
  unfold dirFindSlot
  obtain ⟨hstart, rfl⟩ | ⟨hw, -⟩ := hd
  · obtain ⟨fuel, rfl⟩ : ∃ f, fuel = f + 1 := ⟨fuel - 1, by simp at hfuel; omega⟩
    have hread := findSlotClusters_root (d := d) h hr name fuel
    rw [dirSlots, List.flatMap_singleton] at hslot
    rw [hslot, Option.getD_some] at hread
    rwa [hstart]
  · exact findSlotClusters_reads h hr hw hfuel hslot

/-! ## The driver's end mark -/

/-- What `read_fat_entry` returns for the driver's end mark: 0xFF8 in a FAT12, else 0xFFF8. -/
def markRead (fs : FatFs) : UInt32 := fs.kept chainMark

theorem markRead_lt (fs : FatFs) : fs.markRead < endOfChain := by
  unfold markRead kept
  cases fs.fsType <;> decide

/-- With enough fuel, `fat_read_dir` returns the first `max` live entries in the clusters `cs`. -/
def ListsExactly (fs : FatFs) (d : Disk) (dir : UInt32) (cs : List UInt32) (max : UInt32) : Prop :=
  ∃ f₀, ∀ fuel ≥ f₀, Reads (fatReadDir fuel fs dir max) d
    (((live (fs.dirSlots d cs)).map DirSlot.entry).take max.toNat)

/-- The walk behind the mark, with `n` live entries before it, ends without one more entry. -/
def NothingBehind (fs : FatFs) (d : Disk) (max n : Nat) : Prop :=
  ∃ k, fs.ReadStops d max (min n max) fs.markRead k ∧
    (max ≤ n ∨ live (fs.seenTo d fs.markRead k) = [])

/-- What a walk has seen at one cluster it has seen at every later one. -/
theorem seenTo_start (c : UInt32) {j k : Nat} (h : j ≤ k) :
    fs.seenTo d c j <+: fs.seenTo d c k := by
  induction j generalizing c k with
  | zero =>
    cases k with
    | zero => exact List.prefix_rfl
    | succ k => exact List.prefix_append _ _
  | succ j ih =>
    obtain ⟨k, rfl⟩ : ∃ i, k = i + 1 := ⟨k - 1, by omega⟩
    exact List.prefix_append_right_inj _ |>.2 (ih _ (by omega))

theorem live_eq_nil_of_start {xs ys : List DirSlot} (h : xs <+: ys) (hy : live ys = []) :
    live xs = [] := by
  obtain ⟨zs, rfl⟩ := h
  rw [live_append] at hy
  split at hy
  · exact hy
  · exact (List.append_eq_nil_iff.1 hy).1

/-- The list stays as it is when it is full or nothing is added. -/
theorem scan_eq_self {m : Nat} {acc : List Dirent} (h : acc.length ≤ m) (es : List DirSlot) :
    acc = (scan m acc es).2 ↔ m ≤ acc.length ∨ live es = [] := by
  constructor
  · intro he
    by_contra hno
    rw [not_or, not_le] at hno
    have hlen := congrArg List.length he
    have hpos := List.length_pos_iff.2 hno.2
    rw [scan, List.length_take, List.length_append, List.length_map] at hlen
    omega
  · rintro (hm | hnil)
    · rw [scan_full (by omega)]
    · rw [scan, hnil, List.map_nil, List.append_nil, List.take_of_length_le h]

section Marked

variable (h : fs.Sized) (hi : fs.initialized = true) (hr : ∀ a, d.readable a = true)
  (hw : DirWalk fs d dir cs fs.markRead) (hne : cs ≠ [])

include h hi hr hw hne

/-- A listing that is not through at the end of its clusters. -/
theorem listsExactly_behind {max : UInt32} (hmax : max ≠ 0)
    (hgoes : ¬ (ended (fs.dirSlots d cs) = true ∧ (live (fs.dirSlots d cs)).length < max.toNat)) :
    fs.ListsExactly d dir cs max ↔
      fs.NothingBehind d max.toNat (live (fs.dirSlots d cs)).length := by
  obtain ⟨h0, hstart⟩ := dirStart_of_walk hw hne
  have hd : fs.DirAt d dir cs fs.markRead := .inr ⟨hstart.symm ▸ hw, hne⟩
  have hout : ¬ fs.StaysIn d max.toNat dir cs fs.markRead := by
    rintro (hz | hend | hz)
    · exact h0 (hstart.symm.trans hz)
    · exact hgoes hend
    · exact absurd fs.markRead_lt (UInt32.not_lt.2 hz)
  have hread : ∀ fuel, Reads (fatReadDir (cs.length + fuel) fs dir max) d
      (((live (fs.dirSlots d cs)).map DirSlot.entry).take max.toNat) ↔
      ∃ k < fuel, First (fs.ReadStops d max.toNat
          (min (live (fs.dirSlots d cs)).length max.toNat) fs.markRead) k ∧
        (max.toNat ≤ (live (fs.dirSlots d cs)).length ∨
          live (fs.seenTo d fs.markRead k) = []) := by
    intro fuel
    rw [hd.readDir_behind h hi hr hmax hout fuel]
    refine exists_congr fun k => and_congr_right fun _ => and_congr_right fun _ => ?_
    rw [scan_eq_self (by simp)]
    simp only [List.length_take, List.length_map, Nat.le_min, Nat.le_refl, true_and]
  constructor
  · rintro ⟨f₀, hf⟩
    obtain ⟨k, -, hk, hnil⟩ := (hread f₀).1 (hf _ (by omega))
    exact ⟨k, hk.1, hnil⟩
  · rintro ⟨k, hk, hnil⟩
    obtain ⟨j, hj⟩ := First.exists ⟨k, hk⟩
    refine ⟨cs.length + (j + 1), fun fuel hfuel => ?_⟩
    obtain ⟨f, rfl⟩ : ∃ f, fuel = cs.length + f := ⟨fuel - cs.length, by omega⟩
    refine (hread f).2 ⟨j, by omega, hj, hnil.imp_right fun hnil => ?_⟩
    exact live_eq_nil_of_start (seenTo_start _ (hj.le hk)) hnil

/-- **A subdirectory is listed exactly** when nothing was asked for, when its end marker is met
before the list is full, or when there is nothing behind the driver's end mark. -/
theorem fat_read_dir_exact_iff (max : UInt32) :
    fs.ListsExactly d dir cs max ↔
      max = 0 ∨
      (ended (fs.dirSlots d cs) = true ∧ (live (fs.dirSlots d cs)).length < max.toNat) ∨
      fs.NothingBehind d max.toNat (live (fs.dirSlots d cs)).length := by
  by_cases hmax : max = 0
  · refine iff_of_true ⟨0, fun fuel _ => ?_⟩ (.inl hmax)
    rw [fatReadDir, if_pos (.inr hmax), hmax, UInt32.toNat_zero, List.take_zero]
    exact .pure _
  · by_cases hstop : ended (fs.dirSlots d cs) = true ∧
        (live (fs.dirSlots d cs)).length < max.toNat
    · obtain ⟨-, hstart⟩ := dirStart_of_walk hw hne
      have hd : fs.DirAt d dir cs fs.markRead := .inr ⟨hstart.symm ▸ hw, hne⟩
      exact iff_of_true ⟨cs.length, fun fuel hfuel => hd.readDir_inside h hi hr hmax
        (.inr (.inl hstop)) hfuel⟩ (.inr (.inl hstop))
    · rw [listsExactly_behind h hi hr hw hne hmax hstop]
      exact ⟨fun hn => .inr (.inr hn), fun hn => by tauto⟩

end Marked

theorem sampleFs_sound : sampleFs.Sound := by
  refine ⟨⟨rfl, by decide, by decide⟩, rfl, by decide, rfl, rfl, by decide, by decide,
    by decide, fun c hc => ?_, by decide, by decide⟩
  have hlim : sampleFs.clusterLimit.toNat = 38 := by decide
  rw [hlim] at hc
  change c * 2 + 2 ≤ 1 * 512
  omega

/-- Cluster 2 of the sample volume is a chain of its own. -/
theorem sample_walk {z : UInt32} (hz : sampleFs.table d 2 = z) : DirWalk sampleFs d 2 [2] z := by
  refine ⟨⟨rfl, hz⟩, fun x hx => ?_⟩
  rw [List.mem_singleton.1 hx]
  decide

/-- Cluster 2 is a directory that holds one entry, with the driver's end mark. -/
def markedDir (e : Dirent) : Disk :=
  ⟨fun a => if a = 1 ∨ a = 2 then Sector.zero.set16 4 0xFFF8 else if a = 4 then
    Sector.ofDirents [e] else Sector.zero, fun _ => true, fun _ _ => true, 0⟩

/-- A new directory is listed exactly. -/
theorem fat_read_dir_exact_iff_marked :
    sampleFs.ListsExactly (markedDir (newDirent dotName 0x10 2 0)) 2 [2] 128 ↔
      (128 : UInt32) = 0 ∨
      (ended (sampleFs.dirSlots (markedDir (newDirent dotName 0x10 2 0)) [2]) = true ∧
        (live (sampleFs.dirSlots (markedDir (newDirent dotName 0x10 2 0)) [2])).length <
          (128 : UInt32).toNat) ∨
      sampleFs.NothingBehind (markedDir (newDirent dotName 0x10 2 0)) (128 : UInt32).toNat
        (live (sampleFs.dirSlots (markedDir (newDirent dotName 0x10 2 0)) [2])).length :=
  fat_read_dir_exact_iff ⟨rfl, by decide, by decide⟩ rfl (fun _ => rfl)
    (sample_walk (by decide +kernel)) (by simp) 128

/-- Cluster 2 is a full directory with the driver's end mark, and the sector of cluster 0xFFF8 is
full of entries too. -/
def fullDir : Disk :=
  ⟨fun a => if a = 1 ∨ a = 2 then Sector.zero.set16 4 0xFFF8 else if a = 4 ∨ a = 65530 then
    fun _ => 0x41 else Sector.zero, fun _ => true, fun _ _ => true, 0⟩

/-- The listing of the full directory goes on behind it. -/
theorem full_dir_not_listed : ¬ ∀ (fs : FatFs) (d : Disk) (dir : UInt32) (cs : List UInt32)
    (max : UInt32), fs.Sound → d.Reliable → DirWalk fs d dir cs fs.markRead → cs ≠ [] →
      fs.ListsExactly d dir cs max := by
  intro h
  have hw : DirWalk sampleFs fullDir 2 [2] sampleFs.markRead := sample_walk (by decide +kernel)
  have hlists := h sampleFs fullDir 2 [2] 17 sampleFs_sound ⟨fun _ => rfl, fun _ _ => rfl⟩ hw (by simp)
  have hgoes : ¬ (ended (sampleFs.dirSlots fullDir [2]) = true ∧
      (live (sampleFs.dirSlots fullDir [2])).length < (17 : UInt32).toNat) := by decide +kernel
  obtain ⟨k, -, hmax | hnil⟩ := (listsExactly_behind sampleFs_sound.sized rfl (fun _ => rfl) hw (by simp)
    (show (17 : UInt32) ≠ 0 by decide) hgoes).1 hlists
  · revert hmax
    decide +kernel
  · have hfirst := live_eq_nil_of_start (seenTo_start _ (Nat.zero_le k)) hnil
    revert hfirst
    decide +kernel

end FatFs

end HaoSys.Fs
