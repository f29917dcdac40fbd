import HaoSys.Fs.MountTable

/-!
# A mount that fails

`vfs_mount` on a mount point that is in use works on the slot that is there.
Up to the probe it changes nothing in it, but `fat_mount` fills the instance
before it knows whether it takes the device, so a device that is turned down
only by `fat_mount` takes the place of the one that was mounted.
-/

namespace HaoSys.Fs

open HaoSys.Lib Prog

/-- A file read through the instance: looked up, then loaded. -/
def readFile (fuel : Nat) (fs : FatFs) (path : Option (List UInt8)) (max : UInt32) :
    FatM (Option (List UInt8)) := do
  match ← fatFindFile fuel fs path with
  | none => pure none
  | some e =>
    let bytes ← fatLoadFile fuel fs e max
    pure (some bytes)

namespace MountTable

/-- `path` resolves and reads as `bytes`. -/
def ReadsFile (t : MountTable) (fuel : Nat) (path : Option (List UInt8)) (max : UInt32)
    (bytes : List UInt8) : Prop :=
  ∃ i sub, t.toVfs.vfsResolve path = some (i, sub) ∧
    Reads (readFile fuel (t.slots i).fs sub max) (t.disks (t.slots i).fsDev) (some bytes)

/-- Every mounted slot of `t` is as it was: point, device and instance; so is every path. -/
structure Keeps (t t' : MountTable) : Prop where
  mounted : ∀ i, (t.slots i).mounted = true → (t'.slots i).mounted = true
  point : ∀ i, (t.slots i).mounted = true → (t'.slots i).hasPoint = (t.slots i).hasPoint ∧
    (t'.slots i).storage.string = (t.slots i).storage.string
  dev : ∀ i, (t.slots i).mounted = true → (t'.slots i).dev = (t.slots i).dev
  fsDev : ∀ i, (t.slots i).mounted = true → (t'.slots i).fsDev = (t.slots i).fsDev
  fs : ∀ i, (t.slots i).mounted = true → (t'.slots i).fs = (t.slots i).fs
  resolve : ∀ path, t'.toVfs.vfsResolve path = t.toVfs.vfsResolve path
  reads : ∀ fuel path max bytes, t.ReadsFile fuel path max bytes → t'.ReadsFile fuel path max bytes

end MountTable

/-- What a refused `fat_mount` of `d` writes into the instance is there already. -/
structure FatFs.Holds (fs : FatFs) (d : Disk) : Prop where
  base : fs.baseLba = d.volumeStart
  reserved : d.readable d.volumeStart = true →
    fs.reservedSectors = (bootSector d).bpb.reservedSectors.toUInt32
  numFats : d.readable d.volumeStart = true → fs.numFats = (bootSector d).bpb.numFats.toUInt32
  type : d.readable d.volumeStart = true → hasSignature (bootSector d) = true →
    fs.fsType = .unknown

theorem FatFs.left_eq_iff {fs : FatFs} {d : Disk} : fs.left d = fs ↔ fs.Holds d := by
  obtain ⟨base, reserved, fats, size, root, data, total, cluster, sector, type, rc, init⟩ := fs
  constructor
  · intro h
    unfold left at h
    split at h
    · simp only [refused, FatFs.mk.injEq] at h
      exact ⟨h.1.symm, fun _ => h.2.1.symm, fun _ => h.2.2.1.symm, fun _ hs => by
        simpa [hs] using h.2.2.2.2.2.2.2.2.2.1.symm⟩
    · next hr =>
      simp only [FatFs.mk.injEq] at h
      exact ⟨h.1.symm, fun h => absurd h hr, fun h => absurd h hr, fun h => absurd h hr⟩
  · rintro ⟨h1, h2, h3, h4⟩
    simp only at h1 h2 h3 h4
    unfold left
    split
    · next hr =>
      subst h1
      simp only [refused, ← h2 hr, ← h3 hr]
      split
      · next hs => rw [h4 hr hs]
      · rfl
    · rw [← h1]

namespace MountTable

theorem Keeps.refl (t : MountTable) : t.Keeps t :=
  ⟨fun _ h => h, fun _ _ => ⟨rfl, rfl⟩, fun _ _ => rfl, fun _ _ => rfl, fun _ _ => rfl, fun _ => rfl,
    fun _ _ _ _ h => h⟩

/-- A slot's contents that leave everything of it that `Keeps` is about, if it is mounted. -/
structure Spares (s s' : MountSlot) : Prop where
  mounted : s'.mounted = s.mounted
  hasPoint : s'.hasPoint = s.hasPoint
  dev : s'.dev = s.dev
  string : s.mounted = true → s'.storage.string = s.storage.string
  fsDev : s.mounted = true → s'.fsDev = s.fsDev
  fs : s.mounted = true → s'.fs = s.fs

theorem mounted_of_resolve {t : MountTable} {path : Option (List UInt8)} {i : Fin 8}
    {sub : Option (List UInt8)} (h : t.toVfs.vfsResolve path = some (i, sub)) :
    (t.slots i).mounted = true := by
  obtain ⟨m, hm⟩ := Vfs.mounts_of_vfsResolve h
  unfold toVfs at hm
  simp only at hm
  split at hm
  · next h => exact h.1
  · cases hm

theorem Spares.keeps {t : MountTable} {i : Fin 8} {s : MountSlot} (h : Spares (t.slots i) s) :
    t.Keeps (t.setSlot i s) := by
  have hall : ∀ j, Spares (t.slots j) ((t.setSlot i s).slots j) := by
    intro j
    by_cases hj : j = i
    · subst hj
      rwa [setSlot_same]
    · rw [setSlot_other t s hj]
      exact ⟨rfl, rfl, rfl, fun _ => rfl, fun _ => rfl, fun _ => rfl⟩
  have hres : (t.setSlot i s).toVfs.vfsResolve = t.toVfs.vfsResolve := by
    apply Vfs.vfsResolve_congr
    intro j
    unfold toVfs
    simp only [(hall j).mounted, (hall j).hasPoint]
    by_cases hm : (t.slots j).mounted = true ∧ (t.slots j).hasPoint = true
    · rw [if_pos hm, if_pos hm]
      exact congrArg some ((hall j).string hm.1)
    · rw [if_neg hm, if_neg hm]
  refine ⟨fun j hm => (hall j).mounted ▸ hm, fun j hm => ⟨(hall j).hasPoint, (hall j).string hm⟩,
    fun j _ => (hall j).dev, fun j => (hall j).fsDev, fun j => (hall j).fs, fun p => by rw [hres], ?_⟩
  rintro fuel path max bytes ⟨j, sub, hj, hr⟩
  have hm := mounted_of_resolve hj
  refine ⟨j, sub, by rw [hres, hj], ?_⟩
  rw [(hall j).fs hm, (hall j).fsDev hm]
  exact hr

/-- The storage keeps the string that is copied over itself. -/
theorem strncpy_again {dest st : Storage} {src : List UInt8} (h : strncpy dest src 31 = .ok st)
    (hd : dest.string = src) : Storage.string (Function.update st 31 0) = src := by
  have hlen := strncpy_length h
  obtain ⟨h0, -, hz⟩ := (Storage.string_eq (by omega)).1 hd
  refine strncpy_string h h0 fun hl => ?_
  rw [← hz]
  congr 1
  exact Fin.ext hl.symm

/-- What a `vfs_mount` that got to the slot and returned false has done to it. -/
theorem mountSlot_false {t t' : MountTable} {point : List UInt8} {dev : Nat} {i : Fin 8}
    (h : t.mountSlot point dev i = .ok (false, t')) :
    ∃ st, strncpy (t.slots i).storage point 31 = .ok st ∧
      (t' = t.setSlot i { t.slots i with storage := Function.update st 31 0 } ∨
        (fsProbe (t.disks dev)).isFat = true ∧ (t.disks dev).refused = true ∧
          ∃ b, t' = t.setSlot i { t.slots i with
            storage := Function.update st 31 0, fs := (t.slots i).fs.left (t.disks dev),
            fsDev := dev, buf := b }) := by
  unfold mountSlot at h
  cases hcopy : strncpy (t.slots i).storage point 31 with
  | error e =>
    rw [hcopy] at h
    cases h
  | ok st =>
    refine ⟨st, rfl, ?_⟩
    rw [hcopy] at h
    simp only at h
    split at h
    · next hfat =>
      split at h
      · cases h
      · cases h
      · next fs s hm =>
        cases h
        obtain ⟨hr, rfl⟩ := fatMountInto_false (readable_of_fsProbe hfat) hm
        exact .inr ⟨hfat, hr, s.buf, rfl⟩
    · cases h
      exact .inl rfl

/-- A FAT that `fat_mount` turns down ends up in the slot. -/
theorem mountSlot_refused {t : MountTable} {point : List UInt8} {dev : Nat} {i : Fin 8}
    (hlen : point.length < 31) (hfat : (fsProbe (t.disks dev)).isFat = true)
    (href : (t.disks dev).refused = true) :
    ∃ t', t.mountSlot point dev i = .ok (false, t') ∧ (t'.slots i).fsDev = dev ∧
      (t'.slots i).fs = (t.slots i).fs.left (t.disks dev) := by
  obtain ⟨st, hst, -⟩ := strncpy_ok (t.slots i).storage hlen
  obtain ⟨u, hu⟩ := fatMountInto_of_refused (t.slots i).fs (t.slots i).buf
    (readable_of_fsProbe hfat) href
  unfold mountSlot
  rw [hst]
  simp only [hfat, if_true, hu]
  exact ⟨_, rfl, by rw [setSlot_same], by rw [setSlot_same]⟩

theorem mountSlot_keeps {t t' : MountTable} {point : List UInt8} {dev : Nat} {i : Fin 8}
    (hpick : t.pickSlot point = some i) (h : t.mountSlot point dev i = .ok (false, t'))
    (hholds : t.slotAt point = some i → (fsProbe (t.disks dev)).isFat = true →
      (t.disks dev).refused = true → point.length < 31 →
        (t.slots i).fsDev = dev ∧ (t.slots i).fs.Holds (t.disks dev)) :
    t.Keeps t' := by
  obtain ⟨st, hst, ht⟩ := mountSlot_false h
  have hlen : point.length < 31 := strncpy_length hst
  -- a slot that is not mounted has nothing to keep; one that is holds the string already
  have hfree : ∀ {P : Prop}, (t.slotAt point = some i → P) → (t.slots i).mounted = true → P := by
    intro P hP hm
    rcases pickSlot_cases hpick with hs | hs
    · exact hP hs
    · rw [hs] at hm
      cases hm
  have hstr : (t.slots i).mounted = true →
      Storage.string (Function.update st 31 0) = (t.slots i).storage.string := by
    refine hfree fun hs => ?_
    obtain ⟨-, -, hp⟩ := mountedAt_iff.1 (slotAt_eq_some hs)
    rw [strncpy_again hst hp, hp]
  obtain rfl | ⟨hfat, href, b, rfl⟩ := ht
  · exact Spares.keeps ⟨rfl, rfl, rfl, hstr, fun _ => rfl, fun _ => rfl⟩
  · refine Spares.keeps ⟨rfl, rfl, rfl, hstr, ?_, ?_⟩
    · exact hfree fun hs => (hholds hs hfat href hlen).1.symm
    · exact hfree fun hs => FatFs.left_eq_iff.2 (hholds hs hfat href hlen).2

/-- A `vfs_mount` that returns false leaves the mounted slots exactly when it does not put a
device that `fat_mount` turns down into the slot that is mounted at the point, or when what it
writes there is there already. -/
theorem vfs_mount_false_keeps_iff (t : MountTable) (point devName : Option (List UInt8)) :
    (∀ t', t.vfsMount point devName = .ok (false, t') → t.Keeps t') ↔
      ∀ p n dev i, point = some p → devName = some n → t.findDevice n = some dev →
        t.slotAt p = some i → p.length < 31 → (fsProbe (t.disks dev)).isFat = true →
        (t.disks dev).refused = true →
          (t.slots i).fsDev = dev ∧ (t.slots i).fs.Holds (t.disks dev) := by
  constructor
  · rintro h p n dev i rfl rfl hdev hslot hlen hfat href
    obtain ⟨t', ht', hd, hf⟩ := mountSlot_refused (i := i) hlen hfat href
    have hpick : t.pickSlot p = some i := by
      unfold pickSlot
      rw [hslot]
    have hk := h t' (by simp only [vfsMount, hdev, hpick, ht'])
    have hm := (mountedAt_iff.1 (slotAt_eq_some hslot)).1
    refine ⟨by rw [← hk.fsDev i hm, hd], FatFs.left_eq_iff.1 ?_⟩
    rw [← hf, hk.fs i hm]
  · intro h t' ht'
    unfold vfsMount at ht'
    split at ht'
    · next p n =>
      split at ht'
      · cases ht'
        exact Keeps.refl t
      · next dev hdev =>
        split at ht'
        · cases ht'
          exact Keeps.refl t
        · next i hi =>
          exact mountSlot_keeps hi ht' fun hs hfat href hlen =>
            h p n dev i rfl rfl hdev hs hlen hfat href
    · cases ht'
      exact Keeps.refl t

end MountTable

/-! ## A floppy without a boot signature -/

def fd1 : List UInt8 := [0x66, 0x64, 0x31]

namespace MountTable

/-- Two drives are registered; the floppy in the second one has no signature. -/
def twoFloppies : MountTable :=
  let t := empty fun n => floppy (n = 0)
  let t := (t.vfsRegisterDevice (some ⟨fd0, 2880⟩)).2
  (t.vfsRegisterDevice (some ⟨fd1, 2880⟩)).2

/-- `fd0` is mounted at "/", then mounting `fd1` there fails and its device is in the slot. -/
def secondReplacesFirst (t : MountTable) : Bool :=
  match t.vfsMount (some Vfs.rootPoint) (some fd0) with
  | .ok (true, t) => match t.vfsMount (some Vfs.rootPoint) (some fd1) with
    | .ok (false, t') => (t.slots 0).mounted && (t'.slots 0).fsDev != (t.slots 0).fsDev
    | _ => false
  | _ => false

theorem failed_remount_replaces_device :
    ∃ t t', twoFloppies.vfsMount (some Vfs.rootPoint) (some fd0) = .ok (true, t) ∧
      t.vfsMount (some Vfs.rootPoint) (some fd1) = .ok (false, t') ∧ ¬ t.Keeps t' := by
  have h : secondReplacesFirst twoFloppies = true := by decide +kernel
  unfold secondReplacesFirst at h
  split at h
  · next t ht =>
    split at h
    · next t' ht' =>
      simp only [Bool.and_eq_true, bne_iff_ne, ne_eq] at h
      exact ⟨t, t', ht, ht', fun hk => h.2 (hk.fsDev 0 h.1)⟩
    · cases h
  · cases h

end MountTable

end HaoSys.Fs
