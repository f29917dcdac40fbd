import HaoSys.Fs.Name83
import HaoSys.Fs.Dir
import HaoSys.Fs.Safety

/-!
# Names that collide

The last segment of a path is cut to 15 bytes and then to 8.3, so that two
names may end up in one directory entry. Those that fit 8.3 do not.
-/

namespace HaoSys.Fs

open HaoSys.Lib Prog

/-! ## Segments -/

/-- A segment as `fat_resolve_parent` keeps it, behind the bytes `seg` of it. -/
theorem splitLoop_segment {s : List UInt8} (h : (0x2F : UInt8) ∉ s) (seg : List UInt8)
    (hseg : seg.length ≤ 15) :
    splitLoop s (some seg) = ([], some (makeName83 ((seg ++ s).take 15))) := by
  induction s generalizing seg with
  | nil => rw [splitLoop, List.append_nil, List.take_of_length_le hseg]; rfl
  | cons c s ih =>
    rw [List.mem_cons, not_or] at h
    rw [splitLoop, if_neg (Ne.symm h.1), pushSeg, Option.getD_some]
    split
    · next hlt => rw [ih h.2 _ (by simpa using hlt), List.append_assoc, List.singleton_append]
    · next hge =>
      have hfull : seg.length = 15 := by omega
      rw [ih h.2 seg hseg, List.take_left' hfull, List.take_left' hfull]

/-- The name that the last segment of a path is looked up and written under. -/
theorem splitPath_segment (p : List UInt8) {s : List UInt8} (h : (0x2F : UInt8) ∉ s)
    (hne : s ≠ []) : (splitPath (p ++ 0x2F :: s)).2 = some (makeName83 (s.take 15)) := by
  rw [splitPath_append_slash]
  cases s with
  | nil => exact absurd rfl hne
  | cons c s =>
    rw [List.mem_cons, not_or] at h
    unfold splitPath
    rw [splitLoop, if_neg (Ne.symm h.1), pushSeg, if_pos (by simp),
      splitLoop_segment h.2 _ (by simp)]
    rfl

/-! ## The slot that is taken -/

/-- The entry of a slot, in its sector. -/
def slotEntry (fs : FatFs) (d : Disk) (lba offset : UInt32) : Dirent :=
  (d.sector (fs.baseLba + lba)).dirent offset.toNat

/-- The slot is that of an entry with the name, as `fat_write_file` and `fat_mkdir` store it. -/
def Slot.Holds (fs : FatFs) (d : Disk) (name : Name83) : Slot → Prop
  | .full => False
  | .sameName lba offset | .free lba offset => (slotEntry fs d lba offset).upperName = name

/-- What is found at the sector in the buffer: a free entry, or one of the name. -/
def Slot.Fits (b : Sector) (lba : UInt32) (name : Name83) : Slot → Prop
  | .full => True
  | .sameName l offset => l = lba ∧ (b.dirent offset.toNat).upperName = name
  | .free l offset => l = lba ∧ ¬ (b.dirent offset.toNat).IsLive

variable {name : Name83} {lba : UInt32} {fs : FatFs} {slot : Slot}

theorem findSlotEntries_fits {n i : Nat} {u u' : FatState}
    (h : findSlotEntries name lba n i u = .ok (slot, u')) :
    u' = u ∧ slot.Fits u.buf lba name := by
  induction n generalizing i with
  | zero =>
    cases h
    exact ⟨rfl, trivial⟩
  | succ n ih =>
    unfold findSlotEntries at h
    obtain ⟨e, t, he, h⟩ := bind_eq_ok.1 h
    rw [bufRead] at he
    split at he
    · next hoff =>
      cases he
      have hval : (UInt32.ofNat (32 * i)).toNat = 32 * i := by
        rw [UInt32.toNat_ofNat', Nat.mod_eq_of_lt (by omega)]
      split at h
      · next hfree =>
        cases h
        refine ⟨rfl, rfl, ?_⟩
        rw [hval]
        exact fun hlive => hfree.elim hlive.1 hlive.2
      · split at h
        · next hname =>
          cases h
          exact ⟨rfl, rfl, by rw [hval]; exact hname⟩
        · exact ih h
    · cases he

/-- A slot found on the device. -/
def Slot.FitsDisk (fs : FatFs) (d : Disk) (name : Name83) : Slot → Prop
  | .full => True
  | .sameName lba offset => (slotEntry fs d lba offset).upperName = name
  | .free lba offset => ¬ (slotEntry fs d lba offset).IsLive

theorem findSlotSectors_fits {n : Nat} {lba : UInt32} {u u' : FatState} {o : Option Slot}
    (h : findSlotSectors fs name n lba u = .ok (o, u')) :
    u'.disk = u.disk ∧ ∀ slot, o = some slot → slot.FitsDisk fs u.disk name := by
  induction n generalizing lba u with
  | zero =>
    cases h
    exact ⟨rfl, nofun⟩
  | succ n ih =>
    unfold findSlotSectors at h
    by_cases hr : u.disk.readable (fs.baseLba + lba) = true
    · rw [bind_of_ok (fatDevRead_of_readable hr)] at h
      obtain ⟨slot, t, hslot, h⟩ := bind_eq_ok.1 h
      obtain ⟨rfl, hfits⟩ := findSlotEntries_fits hslot
      cases slot with
      | full =>
        have hrest := ih (show findSlotSectors fs name n (lba + 1) _ = _ from h)
        exact hrest
      | sameName l offset =>
        cases h
        refine ⟨rfl, ?_⟩
        rintro _ ⟨⟩
        obtain ⟨rfl, hname⟩ := hfits
        exact hname
      | free l offset =>
        cases h
        refine ⟨rfl, ?_⟩
        rintro _ ⟨⟩
        obtain ⟨rfl, hfree⟩ := hfits
        exact hfree
    · rw [bind_of_ok (fatDevRead_of_not hr)] at h
      cases h
      refine ⟨rfl, ?_⟩
      rintro _ ⟨⟩
      trivial

theorem findSlotClusters_fits {fuel : Nat} {c : UInt32} {u u' : FatState}
    (h : findSlotClusters fs name fuel c u = .ok (slot, u')) : slot.FitsDisk fs u.disk name := by
  induction fuel generalizing c u with
  | zero => cases h
  | succ fuel ih =>
    unfold findSlotClusters at h
    split at h
    · cases h
      trivial
    · obtain ⟨o, t, ho, h⟩ := bind_eq_ok.1 h
      obtain ⟨hdisk, hfits⟩ := findSlotSectors_fits ho
      cases o with
      | some found =>
        cases h
        exact hfits _ rfl
      | none =>
        simp only at h
        split at h
        · cases h
          trivial
        · obtain ⟨next, t', hnext, h⟩ := bind_eq_ok.1 h
          have hdisk' := ((readOnly_readFatEntry fs c).of_ok hnext).2
          split at h
          · cases h
            trivial
          · rw [← hdisk, ← hdisk']
            exact ih h

theorem toUpper_eq_deleted {x : UInt8} : toUpper x = 0xE5 ↔ x = 0xE5 := by
  have : ∀ x : UInt8, toUpper x = 0xE5 ↔ x = 0xE5 := by decide +kernel
  exact this x

/-- An entry is live by the first byte of its name alone. -/
theorem Dirent.isLive_of_upperName {e : Dirent} (h : e.upperName = name) (h0 : name 0 ≠ 0)
    (hdel : name 0 ≠ 0xE5) : e.IsLive := by
  have hfirst : toUpper (e 0) = name 0 := congrFun h 0
  constructor
  · intro hz
    rw [hz] at hfirst
    exact h0 hfirst.symm
  · intro hz
    rw [hz] at hfirst
    exact hdel hfirst.symm

/-- `dir_find_slot` never takes the slot of an entry with another name, unless that name begins
with one of the two bytes that mark free entries. -/
theorem dirFindSlot_not_holds {fuel : Nat} {dir : UInt32} {u u' : FatState} {other : Name83}
    (hne : other ≠ name) (h0 : other 0 ≠ 0) (hdel : other 0 ≠ 0xE5)
    (h : dirFindSlot fuel fs dir name u = .ok (slot, u')) : ¬ slot.Holds fs u.disk other := by
  have hfits := findSlotClusters_fits h
  cases slot with
  | full => exact id
  | sameName lba offset => exact fun hholds => hne (hholds.symm.trans hfits)
  | free lba offset =>
    intro hholds
    exact hfits (Dirent.isLive_of_upperName hholds h0 hdel)

/-! ## Names that fit -/

/-- A segment of at most eight bytes without a dot, or of at most three more behind a dot. -/
def Is83 (s : List UInt8) : Prop := ∃ base ext, s = base ++ dotted ext ∧ Fits83 base ext

theorem Is83.take {s : List UInt8} (h : Is83 s) : s.take 15 = s := by
  obtain ⟨base, ext, rfl, hfits⟩ := h
  have hb := hfits.base_length
  have he := hfits.ext_length
  apply List.take_of_length_le
  unfold dotted
  split <;> simp <;> omega

theorem Is83.displayName {s : List UInt8} (h : Is83 s) :
    displayName (makeName83 s) = s.map toUpper := by
  obtain ⟨base, ext, rfl, hfits⟩ := h
  exact displayName_makeName83 hfits

/-- A name begins with the mark of a deleted entry only if its segment does. -/
theorem makeName83_proper {s : List UInt8} (h : s.head? ≠ some 0xE5) : makeName83 s 0 ≠ 0xE5 := by
  intro heq
  have hbase : ((s.takeWhile fun b => decide (b ≠ 0x2E)).take 8).getD 0 0x20 = 0xE5 :=
    toUpper_eq_deleted.1 heq
  cases s with
  | nil => exact absurd hbase (by decide)
  | cons c s =>
    rw [List.takeWhile_cons] at hbase
    split at hbase
    · exact h (congrArg some hbase)
    · exact absurd hbase (by decide)

/-- **Names that fit 8.3 do not collide**: two segments that differ in upper case are looked up
and written under different names. The second is never written into the slot of an entry with the
first name, which is that of every entry made under it, unless the first begins with the byte that
marks deleted entries. -/
theorem names_83_differ (p q s t : List UInt8) (hs : Is83 s) (ht : Is83 t)
    (hs' : s ≠ [] ∧ (0x2F : UInt8) ∉ s) (ht' : t ≠ [] ∧ (0x2F : UInt8) ∉ t)
    (hne : s.map toUpper ≠ t.map toUpper) :
    ∃ m n, (splitPath (p ++ 0x2F :: s)).2 = some m ∧ (splitPath (q ++ 0x2F :: t)).2 = some n ∧
      m ≠ n ∧ (∀ a c k, (newDirent m a c k).upperName = m) ∧
      ((0 : UInt8) ∉ s → s.head? ≠ some 0xE5 →
        ∀ fuel fs dir u slot u', dirFindSlot fuel fs dir n u = .ok (slot, u') →
          ¬ slot.Holds fs u.disk m) := by
  have hdiffer : makeName83 (s.take 15) ≠ makeName83 (t.take 15) := by
    intro heq
    rw [hs.take, ht.take] at heq
    apply hne
    rw [← hs.displayName, ← ht.displayName, heq]
  refine ⟨_, _, splitPath_segment p hs'.2 hs'.1, splitPath_segment q ht'.2 ht'.1, hdiffer,
    newDirent_upperName (toUpper_makeName83 _), ?_⟩
  intro hnul hdel fuel fs dir u slot u' h
  rw [hs.take] at hdiffer ⊢
  exact dirFindSlot_not_holds hdiffer (makeName83_zero hnul) (makeName83_proper hdel) h

/-- "/A" and "/B". -/
theorem names_83_differ_letters :
    ∃ m n, (splitPath ([] ++ 0x2F :: [0x41])).2 = some m ∧
      (splitPath ([] ++ 0x2F :: [0x42])).2 = some n ∧
      m ≠ n ∧ (∀ a c k, (newDirent m a c k).upperName = m) ∧
      ∀ fuel fs dir u slot u', dirFindSlot fuel fs dir n u = .ok (slot, u') →
        ¬ slot.Holds fs u.disk m := by
  obtain ⟨m, n, hm, hn, hdiffer, hnew, hslot⟩ := names_83_differ [] [] [0x41] [0x42]
    ⟨[0x41], [], rfl, ⟨by decide, by decide, by decide, by decide, by decide⟩⟩
    ⟨[0x42], [], rfl, ⟨by decide, by decide, by decide, by decide, by decide⟩⟩
    (by decide) (by decide) (by decide)
  exact ⟨m, n, hm, hn, hdiffer, hnew, hslot (by decide) (by decide)⟩

/-- "longname1" or "longname2", and ".txt". -/
def longName (digit : UInt8) : List UInt8 :=
  [0x6C, 0x6F, 0x6E, 0x67, 0x6E, 0x61, 0x6D, 0x65, digit, 0x2E, 0x74, 0x78, 0x74]

/-- The root region holds the file longname1.txt. -/
def oneLongName : Disk := ⟨fun a => if a = 3 then Sector.ofDirents
  [newDirent (makeName83 ((longName 0x31).take 15)) 0x20 0 0] else Sector.zero,
  fun _ => true, fun _ _ => true, 0⟩

/-- longname1.txt and longname2.txt have one name, and writing the second takes the slot of the
first. -/
theorem names_83_collide :
    ¬ (∀ s t : List UInt8, s.map toUpper ≠ t.map toUpper →
        makeName83 (s.take 15) ≠ makeName83 (t.take 15)) ∧
      ∃ u', dirFindSlot 1 sampleFs 0 (makeName83 ((longName 0x32).take 15))
          ⟨Sector.zero, oneLongName⟩ = .ok (.sameName 3 0, u') := by
  refine ⟨fun h => h (longName 0x31) (longName 0x32) (by decide) (by decide), ?_⟩
  have hslot : Reads (dirFindSlot 1 sampleFs 0 (makeName83 ((longName 0x32).take 15)))
      oneLongName (.sameName 3 0) :=
    reads_of_evalOn (readOnly_dirFindSlot _ _ _ _) (by decide +kernel)
  obtain ⟨u', h, -⟩ := hslot ⟨Sector.zero, oneLongName⟩ rfl
  exact ⟨u', h⟩

end HaoSys.Fs
