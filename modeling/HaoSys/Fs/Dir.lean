import HaoSys.Fs.Links
import HaoSys.Fs.Path
import HaoSys.Fs.Volume
import HaoSys.Lib.Follows

/-!
# Directories as lists of slots

A directory is the list of the slots in its sectors, in the order in which
the driver walks them. `fat_read_dir` returns the live ones before the end
marker, at most as many as asked for (`scan`), and `dir_find_slot` the first
one that is free or has the name (`findSlot`). Both are proved of any part of
the walk that is known: what comes behind it only matters when the search gets
there.
-/

namespace HaoSys.Fs

open HaoSys.Lib Prog

/-- A slot of a directory: the sector, the offset in it and the entry that stands there. -/
structure DirSlot where
  lba : UInt32
  offset : UInt32
  entry : Dirent

instance : DecidableEq DirSlot := fun a b =>
  decidable_of_iff (a.lba = b.lba ∧ a.offset = b.offset ∧ a.entry = b.entry) (by
    cases a; cases b; simp)

namespace DirSlot

/-- Before the end marker and not deleted. -/
def live (es : List DirSlot) : List DirSlot :=
  (es.takeWhile fun t => t.entry 0 ≠ 0x00).filter fun t => t.entry 0 ≠ 0xE5

/-- There is an end marker. -/
def ended (es : List DirSlot) : Bool := es.any fun t => t.entry 0 = 0x00

@[simp] theorem live_nil : live [] = [] := rfl

@[simp] theorem ended_nil : ended [] = false := rfl

theorem live_cons (t : DirSlot) (es : List DirSlot) :
    live (t :: es) =
      if t.entry 0 = 0x00 then [] else if t.entry 0 = 0xE5 then live es else t :: live es := by
  unfold live
  by_cases h0 : t.entry 0 = 0x00
  · simp [h0]
  · by_cases h5 : t.entry 0 = 0xE5
    · simp [h5]
    · simp [h0, h5]

theorem ended_cons (t : DirSlot) (es : List DirSlot) :
    ended (t :: es) = (decide (t.entry 0 = 0x00) || ended es) := by
  unfold ended
  rw [List.any_cons]

theorem live_append (xs ys : List DirSlot) :
    live (xs ++ ys) = if ended xs then live xs else live xs ++ live ys := by
  induction xs with
  | nil => simp
  | cons t xs ih =>
    rw [List.cons_append, live_cons, live_cons, ended_cons, ih]
    by_cases h0 : t.entry 0 = 0x00
    · simp [h0]
    · by_cases h5 : t.entry 0 = 0xE5
      · simp [h5]
      · simp only [h0, h5, if_false, decide_false, Bool.false_or]
        split <;> rfl

theorem ended_append (xs ys : List DirSlot) : ended (xs ++ ys) = (ended xs || ended ys) :=
  List.any_append

/-- The entries so far, with those of more slots: whether the walk has ended, and the entries. -/
def scan (m : Nat) (acc : List Dirent) (es : List DirSlot) : Bool × List Dirent :=
  (ended es && decide (acc.length + (live es).length < m),
    (acc ++ (live es).map DirSlot.entry).take m)

theorem scan_nil {m : Nat} {acc : List Dirent} (h : acc.length ≤ m) : scan m acc [] = (false, acc) := by
  simp [scan, List.take_of_length_le h]

theorem scan_length {m : Nat} {acc : List Dirent} (es : List DirSlot) :
    (scan m acc es).2.length ≤ m := by
  unfold scan
  rw [List.length_take]
  omega

/-- A full list stays as it is. -/
theorem scan_full {m : Nat} {acc : List Dirent} (h : acc.length = m) (es : List DirSlot) :
    scan m acc es = (false, acc) := by
  unfold scan
  rw [List.take_left' h]
  simp [h]

theorem scan_append (m : Nat) (acc : List Dirent) (xs ys : List DirSlot) :
    scan m acc (xs ++ ys) =
      if (scan m acc xs).1 then scan m acc xs else scan m (scan m acc xs).2 ys := by
  by_cases hend : ended xs = true
  · have hscan : scan m acc (xs ++ ys) = scan m acc xs := by
      unfold scan
      rw [live_append, ended_append, if_pos hend, hend, Bool.true_or]
    rw [hscan]
    split
    · rfl
    · next hstop =>
      -- the list is full, so nothing is added behind the end marker either
      have hfull : (scan m acc xs).2.length = m := by
        simp only [scan, hend, Bool.true_and, decide_eq_true_eq] at hstop
        simp only [scan, List.length_take, List.length_append, List.length_map]
        omega
      rw [scan_full hfull]
      exact Prod.ext (by simpa using hstop) rfl
  · rw [Bool.not_eq_true] at hend
    have hstop : (scan m acc xs).1 = false := by simp [scan, hend]
    rw [hstop, if_neg (by decide)]
    unfold scan
    rw [live_append, ended_append, hend, if_neg (by decide)]
    simp only [Bool.false_or, List.map_append, List.length_append, List.length_take,
      List.length_map]
    refine Prod.ext ?_ ?_
    · simp only
      congr 1
      apply decide_eq_decide.2
      omega
    · simp only
      rw [← List.append_assoc]
      generalize acc ++ (live xs).map DirSlot.entry = zs
      rw [List.take_append, List.take_append, List.take_take, Nat.min_self, List.length_take]
      congr 2
      omega

/-- The slot `dir_find_slot` takes, if it is this one. -/
def pick (name : Name83) (t : DirSlot) : Option Slot :=
  if t.entry 0 = 0x00 ∨ t.entry 0 = 0xE5 then some (.free t.lba t.offset)
  else if t.entry.upperName = name then some (.sameName t.lba t.offset)
  else none

/-- The first slot that is free or has the name. -/
def findSlot (name : Name83) (es : List DirSlot) : Option Slot := es.findSome? (pick name)

theorem find?_map_entry (es : List DirSlot) (p : Dirent → Bool) :
    (es.map DirSlot.entry).find? p = (es.find? fun t => p t.entry).map DirSlot.entry := by
  rw [List.find?_map]
  rfl

theorem findSlot_append (name : Name83) (xs ys : List DirSlot) :
    findSlot name (xs ++ ys) = (findSlot name xs).or (findSlot name ys) :=
  List.findSome?_append

end DirSlot

open DirSlot

/-! ## The slots of sectors -/

/-- Slots `i` to `i + n - 1` of a sector. -/
def Sector.slotsFrom (s : Sector) (lba : UInt32) (i n : Nat) : List DirSlot :=
  (List.range' i n).map fun j => ⟨lba, UInt32.ofNat (32 * j), s.dirent (32 * j)⟩

theorem Sector.slotsFrom_succ (s : Sector) (lba : UInt32) (i n : Nat) : s.slotsFrom lba i (n + 1) =
    ⟨lba, UInt32.ofNat (32 * i), s.dirent (32 * i)⟩ :: s.slotsFrom lba (i + 1) n := by
  unfold Sector.slotsFrom
  rw [List.range'_succ, List.map_cons]

namespace FatFs

/-- The slots of a sector of the volume. -/
def sectorSlots (fs : FatFs) (d : Disk) (lba : UInt32) : List DirSlot :=
  (d.sector (fs.baseLba + lba)).slotsFrom lba 0 16

/-- The slots of a list of sectors. -/
def slots (fs : FatFs) (d : Disk) (ls : List UInt32) : List DirSlot := ls.flatMap (fs.sectorSlots d)

/-- `n` sectors from `lba` on. -/
def sectorsFrom (lba : UInt32) : Nat → List UInt32
  | 0 => []
  | n + 1 => lba :: sectorsFrom (lba + 1) n

/-- The sectors of a directory cluster; 0 is the fixed root region. -/
def regionSectors (fs : FatFs) (c : UInt32) : List UInt32 :=
  sectorsFrom (dirRegion fs c).1 (dirRegion fs c).2.toNat

theorem slots_cons (fs : FatFs) (d : Disk) (l : UInt32) (ls : List UInt32) :
    fs.slots d (l :: ls) = fs.sectorSlots d l ++ fs.slots d ls := rfl

theorem slots_append (fs : FatFs) (d : Disk) (ls ls' : List UInt32) :
    fs.slots d (ls ++ ls') = fs.slots d ls ++ fs.slots d ls' := List.flatMap_append

end FatFs

/-! ## Entries -/

/-- `fat_entry_set_unix_meta` stores what `fat_entry_unix_meta` reads. -/
theorem Dirent.unixMeta_setUnixMeta (e : Dirent) (m : UnixMeta) :
    (e.setUnixMeta m).unixMeta = m := by
  have hmagic : (e.setUnixMeta m).creationTime >>> 8 = metaMagic := by
    apply UInt16.toNat_inj.1
    have hb := (byte m.mode.toNat 1).toNat_lt
    change (le16 (byte m.mode.toNat 1) 0x58 >>> 8).toNat = _
    rw [UInt16.toNat_shiftRight, le16_toNat, show (8 : UInt16).toNat % 16 = 8 from rfl,
      Nat.shiftRight_eq_div_pow, show (0x58 : UInt8).toNat = 88 from rfl]
    change _ = 88
    omega
  unfold Dirent.unixMeta
  rw [if_pos hmagic]
  change UnixMeta.mk (le16 (byte m.mode.toNat 0) (byte m.mode.toNat 1))
    (le16 (byte m.uid.toNat 0) (byte m.uid.toNat 1))
    (le16 (byte m.gid.toNat 0) (byte m.gid.toNat 1)) = m
  rw [le16_byte, le16_byte, le16_byte]

/-- The first cluster of an entry is the one it was made with. -/
theorem Dirent.firstCluster_newDirent (n : Name83) (a : UInt8) (c s : UInt32) (m : UnixMeta) :
    ((newDirent n a c s).setUnixMeta m).firstCluster = c := le32_byte c

theorem newDirent_upperName {n : Name83} (hn : ∀ k, toUpper (n k) = n k) (a : UInt8) (c s : UInt32) :
    (newDirent n a c s).upperName = n := by
  funext k
  unfold Dirent.upperName newDirent
  have hk : (k.castLE (by decide : 11 ≤ 32)).val < 11 := k.isLt
  rw [dif_pos hk]
  exact hn k

theorem setUnixMeta_upperName (e : Dirent) (m : UnixMeta) :
    (e.setUnixMeta m).upperName = e.upperName := by
  funext k
  unfold Dirent.upperName Dirent.setUnixMeta
  congr 1
  have hk : (k.castLE (by decide : 11 ≤ 32)).val < 11 := k.isLt
  split <;> first | omega | rfl

/-! ## Reading entries -/

theorem readDirEntries_run (m : UInt32) (lba : UInt32) (n i : Nat) (acc : List Dirent)
    (s : FatState) (hn : i + n ≤ 16) (hacc : acc.length ≤ m.toNat) :
    readDirEntries m n i acc s = .ok (scan m.toNat acc (s.buf.slotsFrom lba i n), s) := by
  induction n generalizing i acc with
  | zero => rw [readDirEntries, Sector.slotsFrom, List.range'_zero, List.map_nil, scan_nil hacc]; rfl
  | succ n ih =>
    unfold readDirEntries
    rw [Sector.slotsFrom_succ]
    by_cases hlt : acc.length < m.toNat
    · rw [if_pos hlt, bind_of_ok (bufRead_run (by omega) _ _)]
      unfold scan
      rw [live_cons, ended_cons]
      by_cases h0 : s.buf.dirent (32 * i) 0 = 0x00
      · simp [h0, hlt, List.take_of_length_le hacc]
      · by_cases h5 : s.buf.dirent (32 * i) 0 = 0xE5
        · simp only [h5, if_true]
          rw [if_neg (by decide), ih (i + 1) acc (by omega) hacc]
          rfl
        · simp only [h0, h5, if_false]
          rw [ih (i + 1) _ (by omega) (by simp; omega)]
          simp [scan, Nat.add_assoc, Nat.add_comm 1]
    · rw [if_neg hlt, scan_full (by omega)]
      rfl

/-- The sector loop gets through the sectors before the first one that cannot be read. -/
theorem readDirSectors_intact {fs : FatFs} {d : Disk} (h : fs.bytesPerSector = 512) (m : UInt32)
    (n : Nat) (lba : UInt32) (acc : List Dirent) (hacc : acc.length ≤ m.toNat) :
    Reads (readDirSectors fs m n lba acc) d
      (scan m.toNat acc (fs.slots d (fs.intact d (FatFs.sectorsFrom lba n)))) := by
  induction n generalizing lba acc with
  | zero =>
    unfold readDirSectors
    rw [FatFs.sectorsFrom, FatFs.intact, List.takeWhile_nil, FatFs.slots, List.flatMap_nil,
      scan_nil hacc]
    exact .pure _
  | succ n ih =>
    have hper : (fs.bytesPerSector / 32).toNat = 16 := by rw [h]; rfl
    unfold readDirSectors
    rw [FatFs.sectorsFrom]
    by_cases hr : d.readable (fs.baseLba + lba) = true
    · rw [FatFs.intact_cons_of_readable hr, FatFs.slots_cons, scan_append]
      refine reads_sector hr ?_
      simp only [if_true]
      rw [hper, bind_of_ok (readDirEntries_run m lba 16 0 acc _ (by omega) hacc)]
      rw [show (⟨d.sector (fs.baseLba + lba), d⟩ : FatState).buf.slotsFrom lba 0 16 =
        fs.sectorSlots d lba from rfl]
      split
      · next hstop =>
        refine ⟨⟨d.sector (fs.baseLba + lba), d⟩, ?_, rfl⟩
        rw [pure_apply]
        congr 2
        exact Prod.ext hstop.symm rfl
      · exact ih (lba + 1) _ (scan_length _) _ rfl
    · rw [FatFs.intact_cons_of_not hr, FatFs.slots, List.flatMap_nil, scan_nil hacc]
      rintro s rfl
      rw [bind_of_ok (fatDevRead_of_not hr)]
      exact ⟨s, rfl, rfl⟩

/-! ## Walking clusters -/

/-- From cluster `c` on the walk visits the clusters `cs` and then stands at `z`. -/
structure DirWalk (fs : FatFs) (d : Disk) (c : UInt32) (cs : List UInt32) (z : UInt32) : Prop where
  follows : Follows (fs.table d) c cs z
  valid : ∀ x ∈ cs, 2 ≤ x.toNat ∧ fs.InFat x

/-- The slots of a list of clusters. -/
def FatFs.dirSlots (fs : FatFs) (d : Disk) (cs : List UInt32) : List DirSlot :=
  cs.flatMap fun c => fs.slots d (fs.regionSectors c)

@[simp] theorem FatFs.dirSlots_nil (fs : FatFs) (d : Disk) : fs.dirSlots d [] = [] := rfl

theorem FatFs.dirSlots_cons (fs : FatFs) (d : Disk) (c : UInt32) (cs : List UInt32) :
    fs.dirSlots d (c :: cs) = fs.slots d (fs.regionSectors c) ++ fs.dirSlots d cs := rfl

variable {fs : FatFs} {d : Disk} {c z : UInt32} {cs : List UInt32}

theorem DirWalk.tail {x : UInt32} (h : DirWalk fs d c (x :: cs) z) :
    c = x ∧ DirWalk fs d (fs.table d x) cs z :=
  ⟨h.follows.1, h.follows.2, fun y hy => h.valid y (List.mem_cons_of_mem _ hy)⟩

/-- Where a walk to a number below the end of chains starts. -/
theorem DirWalk.start_lt (h : DirWalk fs d c cs z) (hz : z < endOfChain) : c < endOfChain := by
  cases cs with
  | nil => rwa [follows_nil.1 h.follows]
  | cons x cs =>
    rw [h.tail.1]
    exact (h.valid x List.mem_cons_self).2.1

theorem ne_one_of_two_le {x : UInt32} (h : 2 ≤ x.toNat) : x ≠ 1 ∧ x ≠ 0 := by
  constructor
  · rintro rfl
    exact absurd h (by decide)
  · rintro rfl
    exact absurd h (by decide)

/-- The slots of a directory cluster that a walk gets to see: cluster 1 is not looked at, and a
sector that cannot be read hides the rest of its cluster. -/
def FatFs.seen (fs : FatFs) (d : Disk) (c : UInt32) : List DirSlot :=
  if c = 1 then [] else fs.slots d (fs.intact d (fs.regionSectors c))

theorem FatFs.seen_of_readable (hr : ∀ a, d.readable a = true) (h1 : c ≠ 1) :
    fs.seen d c = fs.slots d (fs.regionSectors c) := by
  rw [seen, if_neg h1, intact_eq_self hr]

/-- No walk goes on behind this cluster. -/
def FatFs.IsLast (fs : FatFs) (d : Disk) (c : UInt32) : Prop :=
  c = 1 ∨ c = 0 ∨ fs.next d c ≥ endOfChain

instance (fs : FatFs) (d : Disk) (c : UInt32) : Decidable (fs.IsLast d c) :=
  inferInstanceAs (Decidable (_ ∨ _))

/-- One turn of the cluster loop on any device. -/
theorem readDirClusters_step (h : fs.bytesPerSector = 512) (m : UInt32) (fuel : Nat) (c : UInt32)
    (acc : List Dirent) (hacc : acc.length ≤ m.toNat) {es : List Dirent} :
    Reads (readDirClusters fs m (fuel + 1) c acc) d es ↔
      if (scan m.toNat acc (fs.seen d c)).1 = true ∨ fs.IsLast d c
      then es = (scan m.toNat acc (fs.seen d c)).2
      else Reads (readDirClusters fs m fuel (fs.next d c) (scan m.toNat acc (fs.seen d c)).2) d
        es := by
  have hiff : fs.IsLast d c ↔ c = 1 ∨ c = 0 ∨ fs.next d c ≥ endOfChain := Iff.rfl
  unfold FatFs.seen
  by_cases h1 : c = 1
  · rw [if_pos h1, scan_nil hacc, if_pos (.inr (.inl h1)), readDirClusters, if_pos h1]
    exact Reads.pure_iff
  · rw [if_neg h1, readDirClusters, if_neg h1]
    have hsectors : Reads (readDirSectors fs m (dirRegion fs c).2.toNat (dirRegion fs c).1 acc) d
        (scan m.toNat acc (fs.slots d (fs.intact d (fs.regionSectors c)))) :=
      readDirSectors_intact h m _ _ acc hacc
    generalize scan m.toNat acc (fs.slots d (fs.intact d (fs.regionSectors c))) = r at hsectors ⊢
    obtain ⟨stop, acc'⟩ := r
    have hrest : ∀ next, ReadOnly (if next ≥ endOfChain then pure acc' else
        readDirClusters fs m fuel next acc') := fun next =>
      .ite (fun _ => .pure _) fun _ => readOnly_readDirClusters fs m fuel next acc'
    rw [Reads.bind_iff hsectors (.ite (fun _ => .pure _) fun _ =>
      .bind (readOnly_readFatEntry fs c) hrest)]
    dsimp only
    by_cases hstop : stop = true ∨ c = 0
    · rw [if_pos hstop, if_pos (by tauto)]
      exact Reads.pure_iff
    · rw [if_neg hstop, Reads.bind_iff (FatFs.next_reads h c) (hrest _)]
      by_cases hlast : fs.next d c ≥ endOfChain
      · rw [if_pos hlast, if_pos (by tauto)]
        exact Reads.pure_iff
      · rw [if_neg hlast, if_neg (by tauto)]

/-- The fixed root region is read and the walk ends. -/
theorem readDirClusters_root (h : fs.Sized) (hr : ∀ a, d.readable a = true) (m : UInt32)
    (fuel : Nat) (acc : List Dirent) (hacc : acc.length ≤ m.toNat) :
    Reads (readDirClusters fs m (fuel + 1) 0 acc) d
      (scan m.toNat acc (fs.slots d (fs.regionSectors 0))).2 := by
  rw [readDirClusters_step h.sector m fuel 0 acc hacc, if_pos (.inr (.inr (.inl rfl))),
    FatFs.seen_of_readable hr (by decide)]

/-- A cluster of the FAT whose entry can be read is followed to that entry. -/
theorem FatFs.next_eq_table (h : fs.Sized) (hr : ∀ a, d.readable a = true) {x : UInt32}
    (hx : fs.InFat x) : fs.next d x = fs.table d x := by
  rw [table_of_inFat hx]
  exact next_of_reads h.sector (readFatEntry_reads h hr hx)

/-- What one turn of the cluster loop does. -/
theorem readDirClusters_turn (h : fs.Sized) (hr : ∀ a, d.readable a = true) (m : UInt32)
    (fuel : Nat) {x : UInt32} (hx : 2 ≤ x.toNat ∧ fs.InFat x) (acc : List Dirent)
    (hacc : acc.length ≤ m.toNat) {es : List Dirent} :
    Reads (readDirClusters fs m (fuel + 1) x acc) d es ↔
      if (scan m.toNat acc (fs.slots d (fs.regionSectors x))).1 = true ∨ fs.table d x ≥ endOfChain
      then es = (scan m.toNat acc (fs.slots d (fs.regionSectors x))).2
      else Reads (readDirClusters fs m fuel (fs.table d x)
        (scan m.toNat acc (fs.slots d (fs.regionSectors x))).2) d es := by
  obtain ⟨h1, h0⟩ := ne_one_of_two_le hx.1
  have hlast : fs.IsLast d x ↔ fs.table d x ≥ endOfChain := by
    rw [FatFs.IsLast, FatFs.next_eq_table h hr hx.2]
    tauto
  rw [readDirClusters_step h.sector m fuel x acc hacc, FatFs.seen_of_readable hr h1,
    FatFs.next_eq_table h hr hx.2]
  simp only [hlast]

/-- With fuel for its clusters, a directory whose walk ends is read to its end. -/
theorem readDirClusters_reads (h : fs.Sized) (hr : ∀ a, d.readable a = true) (m : UInt32)
    {fuel : Nat} {acc : List Dirent} (hw : DirWalk fs d c cs z) (hfuel : cs.length ≤ fuel)
    (hacc : acc.length ≤ m.toNat)
    (hend : (scan m.toNat acc (fs.dirSlots d cs)).1 = true ∨
      cs ≠ [] ∧ z ≥ endOfChain) :
    Reads (readDirClusters fs m fuel c acc) d
      (scan m.toNat acc (fs.dirSlots d cs)).2 := by
  induction cs generalizing c fuel acc with
  | nil => simp [scan_nil hacc] at hend
  | cons x cs ih =>
    obtain ⟨rfl, htail⟩ := hw.tail
    obtain ⟨fuel, rfl⟩ : ∃ f, fuel = f + 1 := ⟨fuel - 1, by simp at hfuel; omega⟩
    rw [readDirClusters_turn h hr m fuel (hw.valid c List.mem_cons_self) acc hacc]
    rw [FatFs.dirSlots_cons, scan_append] at hend ⊢
    by_cases hstop : (scan m.toNat acc (fs.slots d (fs.regionSectors c))).1 = true
    · rw [if_pos (.inl hstop), if_pos hstop]
    · rw [if_neg hstop] at hend ⊢
      cases cs with
      | nil =>
        have hz : fs.table d c ≥ endOfChain := by
          obtain hbad | ⟨-, hz⟩ := hend
          · rw [FatFs.dirSlots_nil, scan_nil (scan_length _)] at hbad
            cases hbad
          · rw [follows_nil.1 htail.follows]
            exact hz
        rw [if_pos (.inr hz), FatFs.dirSlots_nil, scan_nil (scan_length _)]
      | cons y cs =>
        have hy := htail.valid y List.mem_cons_self
        have hlt : ¬ fs.table d c ≥ endOfChain := by
          rw [htail.tail.1, ge_iff_le, UInt32.not_le]
          exact hy.2.1
        rw [if_neg (by tauto)]
        refine ih htail (by simp at hfuel ⊢; omega) (scan_length _) ?_
        obtain hs | ⟨-, hz⟩ := hend
        · exact .inl hs
        · exact .inr ⟨by simp, hz⟩

theorem returns_readDirEntries_start (m : UInt32) (n i : Nat) (acc : List Dirent) :
    Returns (readDirEntries m n i acc) fun r =>
      acc <+: r.2 ∧ (acc.length ≤ m.toNat → r.2.length ≤ m.toNat) := by
  induction n generalizing i acc with
  | zero => exact .pure ⟨List.prefix_rfl, id⟩
  | succ n ih =>
    unfold readDirEntries
    refine .ite (fun hlt => .bind (.any _) fun e _ => ?_) fun _ => .pure ⟨List.prefix_rfl, id⟩
    refine .ite (fun _ => .pure ⟨List.prefix_rfl, id⟩) fun _ => .ite (fun _ => ih _ _) fun _ => ?_
    refine Triple.conseq (ih (i + 1) (acc ++ [e])) (fun _ => id) fun r _ hr => ?_
    exact ⟨(List.prefix_append acc [e]).trans hr.1, fun _ => hr.2 (by simp; omega)⟩

theorem returns_readDirSectors_start (fs : FatFs) (m : UInt32) (n : Nat) (lba : UInt32)
    (acc : List Dirent) :
    Returns (readDirSectors fs m n lba acc) fun r =>
      acc <+: r.2 ∧ (acc.length ≤ m.toNat → r.2.length ≤ m.toNat) := by
  induction n generalizing lba acc with
  | zero => exact .pure ⟨List.prefix_rfl, id⟩
  | succ n ih =>
    unfold readDirSectors
    refine .bind (.any _) fun ok _ => .ite (fun _ => ?_) fun _ => .pure ⟨List.prefix_rfl, id⟩
    refine .bind (returns_readDirEntries_start m _ _ acc) fun r hr => ?_
    refine .ite (fun _ => .pure hr) fun _ => ?_
    refine Triple.conseq (ih (lba + 1) r.2) (fun _ => id) fun r' _ hr' => ?_
    exact ⟨hr.1.trans hr'.1, fun hacc => hr'.2 (hr.2 hacc)⟩

/-- Entries are only added, and never more than were asked for. -/
theorem returns_readDirClusters_start (fs : FatFs) (m : UInt32) (fuel : Nat) (c : UInt32)
    (acc : List Dirent) :
    Returns (readDirClusters fs m fuel c acc) fun r =>
      acc <+: r ∧ (acc.length ≤ m.toNat → r.length ≤ m.toNat) := by
  induction fuel generalizing c acc with
  | zero => exact Triple.fault trivial
  | succ fuel ih =>
    unfold readDirClusters
    refine .ite (fun _ => .pure ⟨List.prefix_rfl, id⟩) fun _ => ?_
    refine .bind (returns_readDirSectors_start fs m _ _ acc) fun r hr => ?_
    refine .ite (fun _ => .pure hr) fun _ => .bind (.any _) fun next _ => ?_
    refine .ite (fun _ => .pure hr) fun _ => ?_
    refine Triple.conseq (ih next r.2) (fun _ => id) fun r' _ hr' => ?_
    exact ⟨hr.1.trans hr'.1, fun hacc => hr'.2 (hr.2 hacc)⟩

theorem Returns.of_reads {α : Type} {x : FatM α} {Q : α → Prop} {a : α} (hx : Returns x Q)
    (h : Reads x d a) : Q a := by
  obtain ⟨t, ht, -⟩ := h ⟨Sector.zero, d⟩ rfl
  exact hx.of_ok trivial ht

/-- Whatever a walk returns, it begins with the entries of the clusters that are known. -/
theorem readDirClusters_start (h : fs.Sized) (hr : ∀ a, d.readable a = true) (m : UInt32)
    {fuel : Nat} {acc es : List Dirent} (hw : DirWalk fs d c cs z) (hacc : acc.length ≤ m.toNat)
    (hes : Reads (readDirClusters fs m fuel c acc) d es) :
    (scan m.toNat acc (fs.dirSlots d cs)).2 <+: es ∧
      ((scan m.toNat acc (fs.dirSlots d cs)).1 = true →
        es = (scan m.toNat acc (fs.dirSlots d cs)).2) := by
  induction cs generalizing c fuel acc with
  | nil =>
    rw [FatFs.dirSlots_nil, scan_nil hacc]
    exact ⟨((returns_readDirClusters_start fs m fuel c acc).of_reads hes).1, fun hf => by cases hf⟩
  | cons x cs ih =>
    obtain ⟨rfl, htail⟩ := hw.tail
    cases fuel with
    | zero =>
      obtain ⟨t, ht, -⟩ := hes ⟨Sector.zero, d⟩ rfl
      cases ht
    | succ fuel =>
      rw [readDirClusters_turn h hr m fuel (hw.valid c List.mem_cons_self) acc hacc] at hes
      rw [FatFs.dirSlots_cons, scan_append]
      by_cases hstop : (scan m.toNat acc (fs.slots d (fs.regionSectors c))).1 = true
      · rw [if_pos (.inl hstop)] at hes
        rw [if_pos hstop, hes]
        exact ⟨List.prefix_rfl, fun _ => rfl⟩
      · rw [if_neg hstop]
        cases cs with
        | nil =>
          rw [FatFs.dirSlots_nil, scan_nil (scan_length _)]
          refine ⟨?_, fun hf => by cases hf⟩
          split at hes
          · rw [hes]
          · exact ((returns_readDirClusters_start fs m fuel _ _).of_reads hes).1
        | cons y cs =>
          have hlt : ¬ fs.table d c ≥ endOfChain := by
            rw [htail.tail.1, ge_iff_le, UInt32.not_le]
            exact (htail.valid y List.mem_cons_self).2.1
          rw [if_neg (by tauto)] at hes
          exact ih htail (scan_length _) hes

/-! ## Finding a slot -/

theorem findSlot_ne_full (name : Name83) (es : List DirSlot) : findSlot name es ≠ some .full := by
  intro h
  obtain ⟨t, -, ht⟩ := List.exists_of_findSome?_eq_some h
  unfold pick at ht
  split at ht
  · cases ht
  · split at ht <;> cases ht

theorem findSlotEntries_run (name : Name83) (lba : UInt32) (n i : Nat) (s : FatState)
    (hn : i + n ≤ 16) :
    findSlotEntries name lba n i s =
      .ok ((findSlot name (s.buf.slotsFrom lba i n)).getD .full, s) := by
  induction n generalizing i with
  | zero => rfl
  | succ n ih =>
    have hslots : findSlot name (s.buf.slotsFrom lba i (n + 1)) =
        (pick name ⟨lba, UInt32.ofNat (32 * i), s.buf.dirent (32 * i)⟩).or
          (findSlot name (s.buf.slotsFrom lba (i + 1) n)) := by
      unfold findSlot
      rw [Sector.slotsFrom_succ, List.findSome?_cons]
      cases pick name ⟨lba, UInt32.ofNat (32 * i), s.buf.dirent (32 * i)⟩ <;> rfl
    unfold findSlotEntries
    rw [hslots, bind_of_ok (bufRead_run (by omega) _ _)]
    unfold pick
    by_cases hfree : s.buf.dirent (32 * i) 0 = 0x00 ∨ s.buf.dirent (32 * i) 0 = 0xE5
    · simp [hfree]
    · by_cases hname : (s.buf.dirent (32 * i)).upperName = name
      · simp [hfree, hname]
      · simp only [hfree, hname, if_false]
        rw [ih (i + 1) (by omega)]
        rfl

/-- A sector that cannot be read ends the search. -/
def FatFs.Broken (fs : FatFs) (d : Disk) (ls : List UInt32) : Prop :=
  ∃ l ∈ ls, d.readable (fs.baseLba + l) = false

instance (fs : FatFs) (d : Disk) (ls : List UInt32) : Decidable (fs.Broken d ls) :=
  inferInstanceAs (Decidable (∃ l ∈ ls, _))

theorem FatFs.not_broken (hr : ∀ a, d.readable a = true) (ls : List UInt32) :
    ¬ fs.Broken d ls := by
  rintro ⟨l, -, hl⟩
  rw [hr] at hl
  cases hl

theorem findSlotSectors_intact (h : fs.bytesPerSector = 512) (name : Name83) (n : Nat)
    (lba : UInt32) :
    Reads (findSlotSectors fs name n lba) d
      ((findSlot name (fs.slots d (fs.intact d (FatFs.sectorsFrom lba n)))).or
        (if fs.Broken d (FatFs.sectorsFrom lba n) then some .full else none)) := by
  induction n generalizing lba with
  | zero => exact .pure _
  | succ n ih =>
    have hper : (fs.bytesPerSector / 32).toNat = 16 := by rw [h]; rfl
    unfold findSlotSectors
    rw [FatFs.sectorsFrom]
    by_cases hr : d.readable (fs.baseLba + lba) = true
    · have hbroken : fs.Broken d (lba :: FatFs.sectorsFrom (lba + 1) n) ↔
          fs.Broken d (FatFs.sectorsFrom (lba + 1) n) := by
        unfold FatFs.Broken
        rw [List.exists_mem_cons_iff, hr]
        simp
      rw [FatFs.intact_cons_of_readable hr, FatFs.slots_cons, findSlot_append, Option.or_assoc]
      simp only [hbroken]
      refine reads_sector hr ?_
      simp only [if_true]
      rw [hper, bind_of_ok (findSlotEntries_run name lba 16 0 _ (by omega)),
        show (⟨d.sector (fs.baseLba + lba), d⟩ : FatState).buf.slotsFrom lba 0 16 =
          fs.sectorSlots d lba from rfl]
      have hne := findSlot_ne_full name (fs.sectorSlots d lba)
      cases hfind : findSlot name (fs.sectorSlots d lba) with
      | none => exact ih (lba + 1) _ rfl
      | some slot =>
        cases slot with
        | full => exact absurd hfind hne
        | sameName l o => exact ⟨_, rfl, rfl⟩
        | free l o => exact ⟨_, rfl, rfl⟩
    · have hbroken : fs.Broken d (lba :: FatFs.sectorsFrom (lba + 1) n) :=
        ⟨lba, List.mem_cons_self, by simpa using hr⟩
      rw [FatFs.intact_cons_of_not hr, if_pos hbroken]
      rintro s rfl
      rw [bind_of_ok (fatDevRead_of_not hr)]
      exact ⟨s, rfl, rfl⟩

/-- One turn of the cluster loop on any device. -/
theorem findSlotClusters_step (h : fs.bytesPerSector = 512) (name : Name83) (fuel : Nat)
    (c : UInt32) {slot : Slot} :
    Reads (findSlotClusters fs name (fuel + 1) c) d slot ↔
      match findSlot name (fs.seen d c) with
      | some t => slot = t
      | none => if fs.Broken d (fs.regionSectors c) ∨ fs.IsLast d c then slot = .full
        else Reads (findSlotClusters fs name fuel (fs.next d c)) d slot := by
  have hiff : fs.IsLast d c ↔ c = 1 ∨ c = 0 ∨ fs.next d c ≥ endOfChain := Iff.rfl
  unfold FatFs.seen
  by_cases h1 : c = 1
  · rw [if_pos h1, findSlotClusters, if_pos h1]
    have hlast : fs.Broken d (fs.regionSectors c) ∨ fs.IsLast d c := .inr (.inl h1)
    simp only [findSlot, List.findSome?_nil, if_pos hlast]
    exact Reads.pure_iff
  · rw [if_neg h1, findSlotClusters, if_neg h1]
    have hsectors : Reads (findSlotSectors fs name (dirRegion fs c).2.toNat (dirRegion fs c).1) d
        ((findSlot name (fs.slots d (fs.intact d (fs.regionSectors c)))).or
          (if fs.Broken d (fs.regionSectors c) then some .full else none)) :=
      findSlotSectors_intact h name _ _
    generalize findSlot name (fs.slots d (fs.intact d (fs.regionSectors c))) = r at hsectors ⊢
    have hrest : ∀ next, ReadOnly (if next ≥ endOfChain then pure .full else
        findSlotClusters fs name fuel next) := fun next =>
      .ite (fun _ => .pure _) fun _ => readOnly_findSlotClusters fs name fuel next
    cases r with
    | some t =>
      rw [Option.some_or] at hsectors
      exact (Reads.bind_iff hsectors (.pure t)).trans Reads.pure_iff
    | none =>
      rw [Option.none_or] at hsectors
      simp only
      by_cases hb : fs.Broken d (fs.regionSectors c)
      · rw [if_pos hb] at hsectors
        have hlast : fs.Broken d (fs.regionSectors c) ∨ fs.IsLast d c := .inl hb
        simp only [if_pos hlast]
        exact (Reads.bind_iff hsectors (.pure Slot.full)).trans Reads.pure_iff
      · rw [if_neg hb] at hsectors
        rw [Reads.bind_iff hsectors (.ite (fun _ => .pure _) fun _ =>
          .bind (readOnly_readFatEntry fs c) hrest)]
        by_cases h0 : c = 0
        · rw [if_pos h0, if_pos (by tauto)]
          exact Reads.pure_iff
        · rw [if_neg h0, Reads.bind_iff (FatFs.next_reads h c) (hrest _)]
          by_cases hlast : fs.next d c ≥ endOfChain
          · rw [if_pos hlast, if_pos (by tauto)]
            exact Reads.pure_iff
          · rw [if_neg hlast, if_neg (by tauto)]

theorem findSlotClusters_root (h : fs.Sized) (hr : ∀ a, d.readable a = true) (name : Name83)
    (fuel : Nat) :
    Reads (findSlotClusters fs name (fuel + 1) 0) d
      ((findSlot name (fs.slots d (fs.regionSectors 0))).getD .full) := by
  rw [findSlotClusters_step h.sector name fuel 0, FatFs.seen_of_readable hr (by decide)]
  cases findSlot name (fs.slots d (fs.regionSectors 0)) with
  | some t => rfl
  | none =>
    simp only
    rw [if_pos (.inr (.inr (.inl rfl)))]
    rfl

/-- What one turn of the cluster loop does. -/
theorem findSlotClusters_turn (h : fs.Sized) (hr : ∀ a, d.readable a = true) (name : Name83)
    (fuel : Nat) {x : UInt32} (hx : 2 ≤ x.toNat ∧ fs.InFat x) {slot : Slot} :
    Reads (findSlotClusters fs name (fuel + 1) x) d slot ↔
      match findSlot name (fs.slots d (fs.regionSectors x)) with
      | some t => slot = t
      | none => if fs.table d x ≥ endOfChain then slot = .full
        else Reads (findSlotClusters fs name fuel (fs.table d x)) d slot := by
  obtain ⟨h1, h0⟩ := ne_one_of_two_le hx.1
  have hlast : fs.Broken d (fs.regionSectors x) ∨ fs.IsLast d x ↔ fs.table d x ≥ endOfChain := by
    rw [FatFs.IsLast, FatFs.next_eq_table h hr hx.2]
    have : ¬ fs.Broken d (fs.regionSectors x) := FatFs.not_broken hr _
    tauto
  rw [findSlotClusters_step h.sector name fuel x, FatFs.seen_of_readable hr h1,
    FatFs.next_eq_table h hr hx.2]
  simp only [hlast]

/-- A slot among the clusters that are known is found, given fuel for them. -/
theorem findSlotClusters_reads (h : fs.Sized) (hr : ∀ a, d.readable a = true) {name : Name83}
    {fuel : Nat} {slot : Slot} (hw : DirWalk fs d c cs z) (hfuel : cs.length ≤ fuel)
    (hslot : findSlot name (fs.dirSlots d cs) = some slot) :
    Reads (findSlotClusters fs name fuel c) d slot := by
  induction cs generalizing c fuel with
  | nil => cases hslot
  | cons x cs ih =>
    obtain ⟨rfl, htail⟩ := hw.tail
    obtain ⟨fuel, rfl⟩ : ∃ f, fuel = f + 1 := ⟨fuel - 1, by simp at hfuel; omega⟩
    rw [findSlotClusters_turn h hr name fuel (hw.valid c List.mem_cons_self)]
    rw [FatFs.dirSlots_cons, findSlot_append] at hslot
    cases hfind : findSlot name (fs.slots d (fs.regionSectors c)) with
    | some t =>
      rw [hfind, Option.some_or] at hslot
      exact (Option.some.inj hslot).symm
    | none =>
      rw [hfind, Option.none_or] at hslot
      cases cs with
      | nil => cases hslot
      | cons y cs =>
        have hlt : ¬ fs.table d c ≥ endOfChain := by
          rw [htail.tail.1, ge_iff_le, UInt32.not_le]
          exact (htail.valid y List.mem_cons_self).2.1
        simp only [hlt, if_false]
        exact ih htail (by simp at hfuel ⊢; omega) hslot

/-- Whatever the search returns, it is the first slot among the clusters that are known, if there
is one. -/
theorem findSlotClusters_of_reads (h : fs.Sized) (hr : ∀ a, d.readable a = true) {name : Name83}
    {fuel : Nat} {slot slot' : Slot} (hw : DirWalk fs d c cs z)
    (hslot : findSlot name (fs.dirSlots d cs) = some slot)
    (hreads : Reads (findSlotClusters fs name fuel c) d slot') : slot' = slot := by
  induction cs generalizing c fuel with
  | nil => cases hslot
  | cons x cs ih =>
    obtain ⟨rfl, htail⟩ := hw.tail
    cases fuel with
    | zero =>
      obtain ⟨t, ht, -⟩ := hreads ⟨Sector.zero, d⟩ rfl
      cases ht
    | succ fuel =>
      rw [findSlotClusters_turn h hr name fuel (hw.valid c List.mem_cons_self)] at hreads
      rw [FatFs.dirSlots_cons, findSlot_append] at hslot
      cases hfind : findSlot name (fs.slots d (fs.regionSectors c)) with
      | some t =>
        rw [hfind, Option.some_or] at hslot
        rw [hfind] at hreads
        exact hreads.trans (Option.some.inj hslot)
      | none =>
        rw [hfind, Option.none_or] at hslot
        rw [hfind] at hreads
        cases cs with
        | nil => cases hslot
        | cons y cs =>
          have hlt : ¬ fs.table d c ≥ endOfChain := by
            rw [htail.tail.1, ge_iff_le, UInt32.not_le]
            exact (htail.valid y List.mem_cons_self).2.1
          simp only [hlt, if_false] at hreads
          exact ih htail hslot hreads

/-! ## Directories -/

/-- `ls` are sectors of the directory `dir`, in the order of the walk: the fixed root region, or
the sectors of the clusters its chain begins with. -/
inductive DirSectors (fs : FatFs) (d : Disk) (dir : UInt32) : List UInt32 → Prop
  | root (h : dirStart fs dir = 0) : DirSectors fs d dir (fs.regionSectors 0)
  | chain {cs : List UInt32} {z : UInt32} (h : DirWalk fs d (dirStart fs dir) cs z) (hne : cs ≠ []) :
      DirSectors fs d dir (cs.flatMap fs.regionSectors)

theorem FatFs.dirSlots_eq (fs : FatFs) (d : Disk) (cs : List UInt32) :
    fs.dirSlots d cs = fs.slots d (cs.flatMap fs.regionSectors) := by
  induction cs with
  | nil => rfl
  | cons x cs ih => rw [FatFs.dirSlots_cons, List.flatMap_cons, FatFs.slots_append, ih]

variable {dir : UInt32} {ls : List UInt32}

/-- What `fat_read_dir` returns begins with the entries in the known sectors, and is these entries
when there is an end marker among them. -/
theorem DirSectors.readDir (h : fs.Sized) (hi : fs.initialized = true)
    (hr : ∀ a, d.readable a = true) (hd : DirSectors fs d dir ls) {m : UInt32} (hm : m ≠ 0)
    {fuel : Nat} {es : List Dirent} (hes : Reads (fatReadDir fuel fs dir m) d es) :
    ((live (fs.slots d ls)).map DirSlot.entry).take m.toNat <+: es ∧ es.length ≤ m.toNat ∧
      (ended (fs.slots d ls) = true → (live (fs.slots d ls)).length < m.toNat →
        es = (live (fs.slots d ls)).map DirSlot.entry) := by
  have hcond : ¬ ((!fs.initialized) = true ∨ m = 0) := by simp [hi, hm]
  rw [fatReadDir, if_neg hcond] at hes
  refine ⟨?_, ((returns_readDirClusters_start fs m fuel _ []).of_reads hes).2 (by simp), ?_⟩
  · cases hd with
    | root h0 =>
      rw [h0] at hes
      cases fuel with
      | zero =>
        obtain ⟨t, ht, -⟩ := hes ⟨Sector.zero, d⟩ rfl
        cases ht
      | succ fuel =>
        rw [hes.unique (readDirClusters_root h hr m fuel [] (by simp))]
        exact List.prefix_rfl
    | chain hw hne =>
      have hp := (readDirClusters_start h hr m hw (by simp) hes).1
      rwa [FatFs.dirSlots_eq] at hp
  · intro hend hlt
    have hscan : scan m.toNat [] (fs.slots d ls) =
        (true, (live (fs.slots d ls)).map DirSlot.entry) := by
      unfold scan
      rw [hend, List.nil_append, List.take_of_length_le (by simp; omega)]
      simp [hlt]
    cases hd with
    | root h0 =>
      rw [h0] at hes
      cases fuel with
      | zero =>
        obtain ⟨t, ht, -⟩ := hes ⟨Sector.zero, d⟩ rfl
        cases ht
      | succ fuel => rw [hes.unique (readDirClusters_root h hr m fuel [] (by simp)), hscan]
    | chain hw hne =>
      have hp := (readDirClusters_start h hr m hw (by simp) hes).2
      rw [FatFs.dirSlots_eq, hscan] at hp
      exact hp rfl

/-- The slot found in the known sectors is the one `dir_find_slot` returns. -/
theorem DirSectors.findSlot (h : fs.Sized) (hr : ∀ a, d.readable a = true)
    (hd : DirSectors fs d dir ls) {name : Name83} {fuel : Nat} {slot slot' : Slot}
    (hslot : DirSlot.findSlot name (fs.slots d ls) = some slot)
    (hreads : Reads (dirFindSlot fuel fs dir name) d slot') : slot' = slot := by
  unfold dirFindSlot at hreads
  cases hd with
  | root h0 =>
    rw [h0] at hreads
    cases fuel with
    | zero =>
      obtain ⟨t, ht, -⟩ := hreads ⟨Sector.zero, d⟩ rfl
      cases ht
    | succ fuel => rw [hreads.unique (findSlotClusters_root h hr name fuel), hslot, Option.getD_some]
  | chain hw hne =>
    rw [← FatFs.dirSlots_eq] at hslot
    exact findSlotClusters_of_reads h hr hw hslot hreads

/-- The first entry of a name among the first 128 live ones is the one `dir_find_name` returns; if
none of 128 has the name, it returns nothing. -/
theorem DirSectors.findName (h : fs.Sized) (hi : fs.initialized = true)
    (hr : ∀ a, d.readable a = true) (hd : DirSectors fs d dir ls) {name : Name83} {fuel : Nat}
    {e : Option Dirent} (he : Reads (dirFindName fuel fs dir name) d e) :
    (∀ f, (((live (fs.slots d ls)).map DirSlot.entry).take 128).find?
        (fun e => e.upperName = name) = some f → e = some f) ∧
      ((((live (fs.slots d ls)).map DirSlot.entry).take 128).find?
        (fun e => e.upperName = name) = none →
          128 ≤ (live (fs.slots d ls)).length ∨ ended (fs.slots d ls) = true → e = none) := by
  obtain ⟨es, hes, he⟩ := he.bind_inv (readOnly_fatReadDir fuel fs dir 128) fun _ => .pure _
  have he := Reads.of_pure he
  obtain ⟨hpre, hlen, hend⟩ := hd.readDir h hi hr (by decide) hes
  rw [show (128 : UInt32).toNat = 128 from rfl] at hpre hlen hend
  obtain ⟨rest, rfl⟩ := hpre
  constructor
  · intro f hf
    rw [he, List.find?_append, hf]
    rfl
  · intro hnone hfull
    rw [he]
    rw [List.length_append, List.length_take, List.length_map] at hlen
    by_cases hcap : 128 ≤ (live (fs.slots d ls)).length
    · have hnil : rest = [] := List.length_eq_zero_iff.1 (by omega)
      rw [hnil, List.append_nil, hnone]
    · have hes := hend (by tauto) (by omega)
      rw [hes]
      rwa [List.take_of_length_le (by simp; omega)] at hnone

/-! ## Directories with an end marker -/

/-- A directory with an end marker and fewer than `m` live entries is read completely. -/
theorem DirWalk.readDir (h : fs.Sized) (hi : fs.initialized = true)
    (hr : ∀ a, d.readable a = true) (hw : DirWalk fs d (dirStart fs dir) cs z)
    (hend : ended (fs.dirSlots d cs) = true) {m : UInt32}
    (hlt : (live (fs.dirSlots d cs)).length < m.toNat) {fuel : Nat} (hfuel : cs.length ≤ fuel) :
    Reads (fatReadDir fuel fs dir m) d ((live (fs.dirSlots d cs)).map DirSlot.entry) := by
  have hm : m ≠ 0 := by
    rintro rfl
    exact absurd hlt (by simp)
  have hcond : ¬ ((!fs.initialized) = true ∨ m = 0) := by simp [hi, hm]
  have hscan : scan m.toNat [] (fs.dirSlots d cs) =
      (true, (live (fs.dirSlots d cs)).map DirSlot.entry) := by
    unfold scan
    rw [hend, List.nil_append, List.take_of_length_le (by simp; omega)]
    simp [hlt]
  rw [fatReadDir, if_neg hcond]
  have hreads : Reads _ d (scan m.toNat [] (fs.dirSlots d cs)).2 :=
    readDirClusters_reads h hr m hw hfuel (by simp) (.inl (by rw [hscan]))
  rwa [hscan] at hreads

theorem DirWalk.findName (h : fs.Sized) (hi : fs.initialized = true)
    (hr : ∀ a, d.readable a = true) (hw : DirWalk fs d (dirStart fs dir) cs z)
    (hend : ended (fs.dirSlots d cs) = true) (hlt : (live (fs.dirSlots d cs)).length < 128)
    {fuel : Nat} (hfuel : cs.length ≤ fuel) (name : Name83) :
    Reads (dirFindName fuel fs dir name) d
      (((live (fs.dirSlots d cs)).map DirSlot.entry).find? fun e => e.upperName = name) :=
  (hw.readDir h hi hr hend (m := 128) hlt hfuel).bind (.pure _)

/-! ## Sectors made of entries -/

/-- A sector that holds the given entries, followed by zeros. -/
def Sector.ofDirents (es : List Dirent) : Sector := fun k =>
  es.getD (k.val / 32) (fun _ => 0) ⟨k.val % 32, Nat.mod_lt _ (by decide)⟩

theorem Sector.dirent_ofDirents {es : List Dirent} {j : Nat} (hj : j < 16) :
    (Sector.ofDirents es).dirent (32 * j) = es.getD j fun _ => 0 := by
  funext k
  have hlt : 32 * j + k.val < 512 := by omega
  unfold Sector.dirent Sector.get Sector.ofDirents
  rw [dif_pos hlt]
  simp only [show (32 * j + k.val) / 32 = j by omega, show (32 * j + k.val) % 32 = k.val by omega]

/-- Fewer than 16 live entries in a sector are its live entries, before an end marker. -/
theorem Sector.slots_ofDirents {es : List Dirent} (hlen : es.length < 16)
    (hlive : ∀ e ∈ es, e.IsLive) (lba : UInt32) :
    (live ((Sector.ofDirents es).slotsFrom lba 0 16)).map DirSlot.entry = es ∧
      ended ((Sector.ofDirents es).slotsFrom lba 0 16) = true := by
  have hentries : ((Sector.ofDirents es).slotsFrom lba 0 16).map DirSlot.entry =
      es ++ List.replicate (16 - es.length) fun _ => 0 := by
    apply List.ext_getElem
    · simp [Sector.slotsFrom]
      omega
    · intro j h1 h2
      have hj : j < 16 := by simpa [Sector.slotsFrom] using h1
      simp only [Sector.slotsFrom, List.map_map, List.getElem_map, List.getElem_range',
        Function.comp_apply]
      rw [show 0 + 1 * j = j by omega, dirent_ofDirents hj, List.getD_eq_getElem?_getD]
      by_cases hlt : j < es.length
      · rw [List.getElem_append_left hlt, List.getElem?_eq_getElem hlt, Option.getD_some]
      · rw [List.getElem_append_right (by omega), List.getElem_replicate,
          List.getElem?_eq_none (by omega), Option.getD_none]
  obtain ⟨xs, ys, hsplit, hxs, hys⟩ := List.map_eq_append_iff.1 hentries
  have hlive' : ∀ t ∈ xs, t.entry.IsLive := fun t ht => hlive _ (hxs ▸ List.mem_map_of_mem ht)
  have hnone : ended xs = false := by
    unfold ended
    rw [List.any_eq_false]
    intro t ht
    simpa using (hlive' t ht).1
  obtain ⟨y, ys', rfl⟩ : ∃ y ys', ys = y :: ys' := by
    cases ys with
    | nil =>
      have := congrArg List.length hys
      simp at this
      omega
    | cons y ys' => exact ⟨y, ys', rfl⟩
  have hy : y.entry 0 = 0x00 := by
    have hmem : y.entry ∈ List.replicate (16 - es.length) (fun _ => 0 : Dirent) := by
      rw [← hys]
      exact List.mem_map_of_mem List.mem_cons_self
    rw [List.eq_of_mem_replicate hmem]
  rw [hsplit, live_append, ended_append, hnone, live_cons, ended_cons, if_neg (by decide),
    if_pos hy, List.append_nil]
  refine ⟨?_, by simp [hy]⟩
  rw [← hxs]
  congr 1
  unfold live
  rw [List.takeWhile_eq_self_iff.2 fun t ht => by simpa using (hlive' t ht).1,
    List.filter_eq_self.2 fun t ht => by simpa using (hlive' t ht).2]

/-- A FAT16 volume with 36 clusters of one sector: the FATs are sectors 1 and 2, the root region
is sector 3, and cluster 2 is sector 4. -/
def sampleFs : FatFs := ⟨0, 1, 2, 1, 1, 4, 40, 1, 512, .fat16, 0, true⟩

end HaoSys.Fs
