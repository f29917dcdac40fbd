import HaoSys.Fs.Dir
import HaoSys.Lib.First

/-!
# Walks through any chain

On any device a directory walk follows the links `fs.next d` from its first
cluster on, wherever they lead. `seenTo` are the slots it has seen when it is
through with the cluster after `k` links, and it stops at the first cluster at
which there is nothing to follow or what it looks for has turned up. A walk
that never gets to such a cluster does not end.
-/

namespace HaoSys.Fs

open HaoSys.Lib Prog DirSlot

namespace FatFs

variable {fs : FatFs} {d : Disk}

/-- The cluster after `k` links from `c`. -/
def link (fs : FatFs) (d : Disk) (c : UInt32) (k : Nat) : UInt32 := (fs.next d)^[k] c

theorem link_succ (c : UInt32) (k : Nat) : fs.link d c (k + 1) = fs.link d (fs.next d c) k := rfl

/-- The slots seen in the clusters up to the one after `k` links. -/
def seenTo (fs : FatFs) (d : Disk) (c : UInt32) : Nat → List DirSlot
  | 0 => fs.seen d c
  | k + 1 => fs.seen d c ++ fs.seenTo d (fs.next d c) k

/-! ## Reading -/

/-- `fat_read_dir`, with `acc` entries found before, stops at the cluster after `k` links: it meets
the end marker before the list is full, or no walk goes on there. -/
def ReadStops (fs : FatFs) (d : Disk) (m acc : Nat) (c : UInt32) (k : Nat) : Prop :=
  (ended (fs.seenTo d c k) = true ∧ acc + (live (fs.seenTo d c k)).length < m) ∨
    fs.IsLast d (fs.link d c k)

instance (fs : FatFs) (d : Disk) (m acc : Nat) (c : UInt32) (k : Nat) :
    Decidable (fs.ReadStops d m acc c k) := inferInstanceAs (Decidable (_ ∨ _))

theorem readStops_iff {m : Nat} {acc : List Dirent} {c : UInt32} {k : Nat} :
    fs.ReadStops d m acc.length c k ↔
      (scan m acc (fs.seenTo d c k)).1 = true ∨ fs.IsLast d (fs.link d c k) := by
  simp [ReadStops, scan]

/-- A walk that goes on behind its first cluster stops where the rest of it does. -/
theorem readStops_succ {m : Nat} {acc : List Dirent} {c : UInt32} {k : Nat}
    (h : ¬ (scan m acc (fs.seen d c)).1 = true) :
    fs.ReadStops d m acc.length c (k + 1) ↔
      fs.ReadStops d m (scan m acc (fs.seen d c)).2.length (fs.next d c) k := by
  rw [readStops_iff, readStops_iff, seenTo, scan_append, if_neg h, link_succ]

/-- What `fat_read_dir` returns are the entries up to the first cluster at which it stops. -/
theorem readDirClusters_iff (h : fs.bytesPerSector = 512) (m : UInt32) {fuel : Nat} {c : UInt32}
    {acc es : List Dirent} (hacc : acc.length ≤ m.toNat) :
    Reads (readDirClusters fs m fuel c acc) d es ↔
      ∃ k < fuel, First (fs.ReadStops d m.toNat acc.length c) k ∧
        es = (scan m.toNat acc (fs.seenTo d c k)).2 := by
  induction fuel generalizing c acc with
  | zero =>
    refine iff_of_false (fun hes => ?_) fun ⟨k, hk, _⟩ => absurd hk (Nat.not_lt_zero k)
    obtain ⟨t, ht, -⟩ := hes ⟨Sector.zero, d⟩ rfl
    cases ht
  | succ fuel ih =>
    rw [readDirClusters_step h m fuel c acc hacc, exists_first_lt_succ]
    have hzero : fs.ReadStops d m.toNat acc.length c 0 ↔
        (scan m.toNat acc (fs.seen d c)).1 = true ∨ fs.IsLast d c := readStops_iff
    by_cases hstop : (scan m.toNat acc (fs.seen d c)).1 = true ∨ fs.IsLast d c
    · rw [if_pos hstop, if_pos (hzero.2 hstop), seenTo]
    · rw [if_neg hstop, if_neg (mt hzero.1 hstop), ih (scan_length _)]
      rw [not_or] at hstop
      simp only [readStops_succ hstop.1, seenTo, scan_append, if_neg hstop.1]

/-! ## Finding a slot -/

/-- `dir_find_slot` stops at the cluster after `k` links: it has seen a slot for the name, a sector
cannot be read, or no walk goes on there. -/
def SlotStops (fs : FatFs) (d : Disk) (name : Name83) (c : UInt32) (k : Nat) : Prop :=
  DirSlot.findSlot name (fs.seenTo d c k) ≠ none ∨
    fs.Broken d (fs.regionSectors (fs.link d c k)) ∨ fs.IsLast d (fs.link d c k)

instance (fs : FatFs) (d : Disk) (name : Name83) (c : UInt32) (k : Nat) :
    Decidable (fs.SlotStops d name c k) := inferInstanceAs (Decidable (_ ∨ _))

theorem slotStops_succ {name : Name83} {c : UInt32} {k : Nat}
    (h : DirSlot.findSlot name (fs.seen d c) = none) :
    fs.SlotStops d name c (k + 1) ↔ fs.SlotStops d name (fs.next d c) k := by
  unfold SlotStops
  rw [seenTo, findSlot_append, h, Option.none_or, link_succ]

/-- What `dir_find_slot` returns is the first slot for the name up to the first cluster at which it
stops. -/
theorem findSlotClusters_iff (h : fs.bytesPerSector = 512) (name : Name83) {fuel : Nat}
    {c : UInt32} {slot : Slot} :
    Reads (findSlotClusters fs name fuel c) d slot ↔
      ∃ k < fuel, First (fs.SlotStops d name c) k ∧
        slot = (DirSlot.findSlot name (fs.seenTo d c k)).getD .full := by
  induction fuel generalizing c with
  | zero =>
    refine iff_of_false (fun hes => ?_) fun ⟨k, hk, _⟩ => absurd hk (Nat.not_lt_zero k)
    obtain ⟨t, ht, -⟩ := hes ⟨Sector.zero, d⟩ rfl
    cases ht
  | succ fuel ih =>
    rw [findSlotClusters_step h name fuel c, exists_first_lt_succ]
    cases hfind : DirSlot.findSlot name (fs.seen d c) with
    | some t =>
      have hstop : fs.SlotStops d name c 0 := .inl (by rw [seenTo, hfind]; nofun)
      rw [if_pos hstop, seenTo, hfind, Option.getD_some]
    | none =>
      have hzero : fs.SlotStops d name c 0 ↔
          fs.Broken d (fs.regionSectors c) ∨ fs.IsLast d c := by
        unfold SlotStops
        rw [seenTo, hfind]
        exact ⟨fun h => h.resolve_left fun hne => hne rfl, .inr⟩
      simp only
      by_cases hstop : fs.Broken d (fs.regionSectors c) ∨ fs.IsLast d c
      · rw [if_pos hstop, if_pos (hzero.2 hstop), seenTo, hfind, Option.getD_none]
      · rw [if_neg hstop, if_neg (mt hzero.1 hstop), ih]
        simp only [slotStops_succ hfind, seenTo, findSlot_append, hfind, Option.none_or]

/-! ## Walks that begin with known clusters -/

section Known

variable {c z : UInt32} {cs : List UInt32}

/-- Behind the known clusters the walk goes on where their chain leads. -/
theorem readDirClusters_through (h : fs.Sized) (hr : ∀ a, d.readable a = true) (m : UInt32)
    (hz : z < endOfChain) (fuel : Nat) {acc es : List Dirent} (hw : DirWalk fs d c cs z)
    (hacc : acc.length ≤ m.toNat) :
    Reads (readDirClusters fs m (cs.length + fuel) c acc) d es ↔
      if (scan m.toNat acc (fs.dirSlots d cs)).1 = true
      then es = (scan m.toNat acc (fs.dirSlots d cs)).2
      else Reads (readDirClusters fs m fuel z (scan m.toNat acc (fs.dirSlots d cs)).2) d es := by
  induction cs generalizing c acc with
  | nil =>
    rw [dirSlots_nil, scan_nil hacc, if_neg Bool.false_ne_true, List.length_nil,
      Nat.zero_add, follows_nil.1 hw.follows]
  | cons x cs ih =>
    obtain ⟨rfl, htail⟩ := hw.tail
    have hnext : ¬ fs.table d c ≥ endOfChain := UInt32.not_le.2 (htail.start_lt hz)
    rw [List.length_cons, Nat.add_right_comm, readDirClusters_turn h hr m _
      (hw.valid c List.mem_cons_self) acc hacc, dirSlots_cons, scan_append]
    by_cases hstop : (scan m.toNat acc (fs.slots d (fs.regionSectors c))).1 = true
    · rw [if_pos (.inl hstop), if_pos hstop, if_pos hstop]
    · rw [if_neg (by tauto), if_neg hstop]
      exact ih htail (scan_length _)

end Known

/-! ## Termination -/

/-- `fat_read_dir` and `dir_find_slot` end exactly when their walks get to a cluster at which they
stop. -/
theorem dir_walks_end_iff (h : fs.bytesPerSector = 512) (d : Disk) (dir max : UInt32)
    (name : Name83) :
    ((∃ fuel es, Reads (fatReadDir fuel fs dir max) d es) ↔ fs.initialized = false ∨ max = 0 ∨
        ∃ k, fs.ReadStops d max.toNat 0 (dirStart fs dir) k) ∧
      ((∃ fuel slot, Reads (dirFindSlot fuel fs dir name) d slot) ↔
        ∃ k, fs.SlotStops d name (dirStart fs dir) k) := by
  constructor
  · unfold fatReadDir
    by_cases hnone : (!fs.initialized) = true ∨ max = 0
    · simp only [if_pos hnone]
      refine iff_of_true ⟨0, [], .pure _⟩ ?_
      obtain hi | hm := hnone
      · exact .inl (by simpa using hi)
      · exact .inr (.inl hm)
    · simp only [if_neg hnone]
      have hrest : fs.initialized = true ∧ max ≠ 0 := by simpa [not_or] using hnone
      constructor
      · rintro ⟨fuel, es, hes⟩
        obtain ⟨k, -, hk, -⟩ := (readDirClusters_iff h max (Nat.zero_le _)).1 hes
        exact .inr (.inr ⟨k, hk.1⟩)
      · rintro (hi | hm | hk)
        · rw [hrest.1] at hi
          cases hi
        · exact absurd hm hrest.2
        · obtain ⟨k, hk⟩ := First.exists hk
          exact ⟨k + 1, _, (readDirClusters_iff h max (by simp)).2
            ⟨k, Nat.lt_succ_self k, hk, rfl⟩⟩
  · unfold dirFindSlot
    constructor
    · rintro ⟨fuel, slot, hslot⟩
      obtain ⟨k, -, hk, -⟩ := (findSlotClusters_iff h name).1 hslot
      exact ⟨k, hk.1⟩
    · intro hk
      obtain ⟨k, hk⟩ := First.exists hk
      exact ⟨k + 1, _, (findSlotClusters_iff h name).2 ⟨k, Nat.lt_succ_self k, hk, rfl⟩⟩

/-- On an empty volume. -/
theorem dir_walks_end_iff_empty :
    ((∃ fuel es, Reads (fatReadDir fuel sampleFs 0 128)
          ⟨fun _ => Sector.zero, fun _ => true, fun _ _ => true, 0⟩ es) ↔
        sampleFs.initialized = false ∨ (128 : UInt32) = 0 ∨ ∃ k, sampleFs.ReadStops
          ⟨fun _ => Sector.zero, fun _ => true, fun _ _ => true, 0⟩ (128 : UInt32).toNat 0
          (dirStart sampleFs 0) k) ∧
      ((∃ fuel slot, Reads (dirFindSlot fuel sampleFs 0 dotName)
          ⟨fun _ => Sector.zero, fun _ => true, fun _ _ => true, 0⟩ slot) ↔
        ∃ k, sampleFs.SlotStops ⟨fun _ => Sector.zero, fun _ => true, fun _ _ => true, 0⟩ dotName
          (dirStart sampleFs 0) k) :=
  dir_walks_end_iff rfl _ 0 128 dotName

/-- A cluster without an end marker that links to itself is read for ever. -/
theorem not_readStops_of_self {c : UInt32} (hself : fs.next d c = c) (hlast : ¬ fs.IsLast d c)
    (hend : ended (fs.seen d c) = false) (m acc k : Nat) : ¬ fs.ReadStops d m acc c k := by
  have hlink : fs.link d c k = c := Function.iterate_fixed hself k
  have hnone : ended (fs.seenTo d c k) = false := by
    induction k with
    | zero => exact hend
    | succ k ih =>
      rw [seenTo, hself, ended_append, hend, ih (Function.iterate_fixed hself k), Bool.or_false]
  rintro (⟨h, -⟩ | h)
  · rw [hnone] at h
    cases h
  · rw [hlink] at h
    exact hlast h

/-- And searched for ever, if it has no slot for the name. -/
theorem not_slotStops_of_self {c : UInt32} (hself : fs.next d c = c) (hlast : ¬ fs.IsLast d c)
    (hbroken : ¬ fs.Broken d (fs.regionSectors c)) {name : Name83}
    (hslot : DirSlot.findSlot name (fs.seen d c) = none) (k : Nat) :
    ¬ fs.SlotStops d name c k := by
  have hlink : fs.link d c k = c := Function.iterate_fixed hself k
  have hnone : DirSlot.findSlot name (fs.seenTo d c k) = none := by
    induction k with
    | zero => exact hslot
    | succ k ih =>
      rw [seenTo, hself, findSlot_append, hslot, ih (Function.iterate_fixed hself k),
        Option.none_or]
  rintro (h | h | h)
  · exact h hnone
  · rw [hlink] at h
    exact hbroken h
  · rw [hlink] at h
    exact hlast h

/-- Cluster 2 is full of entries and links to itself. -/
def selfLinked : Disk :=
  ⟨fun a => if a = 1 ∨ a = 2 then Sector.zero.set16 4 2 else if a = 4 then fun _ => 0x41
    else Sector.zero, fun _ => true, fun _ _ => true, 0⟩

/-- In that cluster neither walk ends. -/
theorem dir_walks_do_not_end :
    (∀ fuel es, ¬ Reads (fatReadDir fuel sampleFs 2 128) selfLinked es) ∧
      ∀ fuel slot, ¬ Reads (dirFindSlot fuel sampleFs 2 dotName) selfLinked slot := by
  have hself : sampleFs.next selfLinked 2 = 2 := by decide +kernel
  have hlast : ¬ sampleFs.IsLast selfLinked 2 := by decide +kernel
  constructor
  · intro fuel es hes
    obtain ⟨k, -, hk, -⟩ := (readDirClusters_iff rfl 128 (Nat.zero_le _)).1 hes
    exact not_readStops_of_self hself hlast (by decide +kernel) _ _ k hk.1
  · intro fuel slot hslot
    obtain ⟨k, -, hk, -⟩ := (findSlotClusters_iff rfl dotName).1 hslot
    exact not_slotStops_of_self hself hlast (by decide +kernel) (by decide +kernel) k hk.1

end FatFs

end HaoSys.Fs
