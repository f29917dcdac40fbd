import HaoSys.Fs.Probe
import HaoSys.Fs.Reader
import HaoSys.Fs.Vfs

/-!
# Mounting and unmounting (`vfs_mount`, `vfs_umount`)

The table behind `Vfs`: eight slots with their `mount_point_storage`, and the
registered devices. A slot keeps its instance and its storage when it is not
mounted, and `fat_mount` fills the instance in place: a device it turns down
leaves behind what was written up to then.
-/

namespace HaoSys.Fs

open HaoSys.Lib Prog

/-! ## `fat_mount` in place -/

/-- What `fat_bpb_load` has written into the instance when it turns the boot sector `s` down:
the BPB before the signature is checked, the type before it is known. -/
def FatFs.refused (fs : FatFs) (s : Sector) : FatFs := { fs with
  reservedSectors := s.bpb.reservedSectors.toUInt32
  numFats := s.bpb.numFats.toUInt32
  fsType := if hasSignature s then .unknown else fs.fsType }

/-- `fat_bpb_load`: its result and what it leaves in the instance. -/
def fatBpbLoadInto (fs : FatFs) : FatM (Bool × FatFs) := do
  let s ← bufRead 0 512 id
  match ← fatBpbLoad fs with
  | some r => pure (true, r)
  | none => pure (false, fs.refused s)

/-- `fat_mount`: its result and what it leaves in the instance, `fs->dev` apart. -/
def fatMountInto (fs : FatFs) : FatM (Bool × FatFs) := do
  if ← fatDevRead { fs with baseLba := 0 } 0 then
    let partLba ← bufRead 0 512 mbrFindFatPartition
    if partLba = 0 then fatBpbLoadInto { fs with baseLba := 0 }
    else if ← fatDevRead { fs with baseLba := partLba } 0 then
      fatBpbLoadInto { fs with baseLba := partLba }
    else pure (false, { fs with baseLba := partLba })
  else pure (false, { fs with baseLba := 0 })

/-! ## The table -/

/-- A `mount_point_storage`. -/
abbrev Storage := Fin 32 → UInt8

/-- The string in a storage: its bytes before the NUL. -/
def Storage.string (s : Storage) : List UInt8 := (List.ofFn s).takeWhile (· ≠ 0)

/-- `strncpy`. When the first loop meets the NUL of `src`, its test has taken one from `n`
already, so the filling stops one byte short. When `src` has no NUL among its first `n` bytes,
`n` has gone below 0 and the filling runs over the whole memory. -/
def strncpy (dest : Storage) (src : List UInt8) (n : Nat) : Except Fault Storage :=
  if src.length < n then .ok fun k =>
    if k.val < src.length then src.getD k.val 0 else if k.val + 1 < n then 0 else dest k
  else .error .outOfBounds

/-- A slot (`vfs_mount_t`) and its storage. `hasPoint`: `mount_point` is not `NULL`, and then it
is the storage; `dev` is the slot's device, `fsDev` the instance's. -/
structure MountSlot where
  storage : Storage
  hasPoint : Bool
  dev : Nat
  fs : FatFs
  fsDev : Nat
  buf : Sector
  mounted : Bool

/-- `fat_fs_t` as the loader leaves it. -/
def FatFs.cleared : FatFs := ⟨0, 0, 0, 0, 0, 0, 0, 0, 0, .unknown, 0, false⟩

structure MountTable where
  slots : Fin 8 → MountSlot
  devs : List BlockDev
  disks : Nat → Disk

namespace MountTable

/-- The table before the first call; the disks are those of the devices to come. -/
def empty (disks : Nat → Disk) : MountTable :=
  ⟨fun _ => ⟨fun _ => 0, false, 0, .cleared, 0, .zero, false⟩, [], disks⟩

/-- Slot `i` is mounted at `point`. -/
def mountedAt (t : MountTable) (point : List UInt8) (i : Fin 8) : Bool :=
  (t.slots i).mounted ∧ (t.slots i).hasPoint ∧ (t.slots i).storage.string = point

/-- The slot mounted at `point`. -/
def slotAt (t : MountTable) (point : List UInt8) : Option (Fin 8) :=
  (List.finRange 8).find? (t.mountedAt point)

/-- The slot `vfs_mount` uses for `point`: its own, else the first that is not mounted. -/
def pickSlot (t : MountTable) (point : List UInt8) : Option (Fin 8) :=
  match t.slotAt point with
  | some i => some i
  | none => (List.finRange 8).find? fun i => !(t.slots i).mounted

/-- The registered device with this name. -/
def findDevice (t : MountTable) (name : List UInt8) : Option Nat :=
  t.devs.findIdx? fun d => d.name = name

def setSlot (t : MountTable) (i : Fin 8) (s : MountSlot) : MountTable :=
  { t with slots := Function.update t.slots i s }

/-- `vfs_register_device`; `none` is `NULL`. -/
def vfsRegisterDevice (t : MountTable) (dev : Option BlockDev) : Bool × MountTable :=
  match dev with
  | none => (false, t)
  | some d =>
    if t.devs.any fun e => e.name = d.name then (false, t)
    else if t.devs.length ≥ 8 then (false, t)
    else (true, { t with devs := t.devs ++ [d] })

/-- The rest of `vfs_mount` once the device and the slot are found. -/
def mountSlot (t : MountTable) (point : List UInt8) (dev : Nat) (i : Fin 8) :
    Except Fault (Bool × MountTable) :=
  match strncpy (t.slots i).storage point 31 with
  | .error e => .error e
  | .ok storage =>
    let slot := { t.slots i with storage := Function.update storage 31 0 }
    if (fsProbe (t.disks dev)).isFat then
      match fatMountInto slot.fs ⟨slot.buf, t.disks dev⟩ with
      | .error e => .error e
      | .ok ((true, fs), s) => .ok (true, t.setSlot i { slot with
          fs := fs, fsDev := dev, buf := s.buf, hasPoint := true, dev := dev, mounted := true })
      | .ok ((false, fs), s) =>
        .ok (false, t.setSlot i { slot with fs := fs, fsDev := dev, buf := s.buf })
    else .ok (false, t.setSlot i slot)

/-- `vfs_mount`. -/
def vfsMount (t : MountTable) (point devName : Option (List UInt8)) :
    Except Fault (Bool × MountTable) :=
  match point, devName with
  | some point, some devName =>
    match t.findDevice devName with
    | none => .ok (false, t)
    | some dev =>
      match t.pickSlot point with
      | none => .ok (false, t)
      | some i => t.mountSlot point dev i
  | _, _ => .ok (false, t)

/-- `vfs_umount`. -/
def vfsUmount (t : MountTable) (point : Option (List UInt8)) : Bool × MountTable :=
  match point.bind t.slotAt with
  | none => (false, t)
  | some i => (true, t.setSlot i { t.slots i with mounted := false })

/-- The mounted slots, as the rest of the kernel uses them. -/
def toVfs (t : MountTable) : Vfs where
  mounts i := if (t.slots i).mounted ∧ (t.slots i).hasPoint then
    some ⟨(t.slots i).storage.string, (t.slots i).fs, (t.slots i).buf, (t.slots i).fsDev⟩ else none
  devs := t.devs
  disks := t.disks

/-! ## Slots -/

@[simp] theorem setSlot_same (t : MountTable) (i : Fin 8) (s : MountSlot) :
    (t.setSlot i s).slots i = s := Function.update_self ..

theorem setSlot_other (t : MountTable) {i j : Fin 8} (s : MountSlot) (h : j ≠ i) :
    (t.setSlot i s).slots j = t.slots j := Function.update_of_ne h ..

theorem mountedAt_iff {t : MountTable} {point : List UInt8} {i : Fin 8} :
    t.mountedAt point i = true ↔ (t.slots i).mounted = true ∧ (t.slots i).hasPoint = true ∧
      (t.slots i).storage.string = point := by
  simp [mountedAt]

theorem slotAt_eq_some {t : MountTable} {point : List UInt8} {i : Fin 8}
    (h : t.slotAt point = some i) : t.mountedAt point i = true := List.find?_some h

theorem slotAt_eq_none {t : MountTable} {point : List UInt8} (h : t.slotAt point = none)
    (i : Fin 8) : t.mountedAt point i ≠ true := by
  simpa using List.find?_eq_none.1 h i (List.mem_finRange i)

theorem pickSlot_cases {t : MountTable} {point : List UInt8} {i : Fin 8}
    (h : t.pickSlot point = some i) : t.slotAt point = some i ∨ (t.slots i).mounted = false := by
  unfold pickSlot at h
  split at h
  · next j hj =>
    cases h
    exact .inl hj
  · have := List.find?_some h
    exact .inr (by simpa using this)

end MountTable

/-! ## Strings in the storage -/

/-- `takeWhile` stops at the first element that fails the test. -/
theorem takeWhile_append_cons {α : Type} {p : α → Bool} {l r : List α} {b : α}
    (hl : ∀ a ∈ l, p a = true) (hb : p b = false) : (l ++ b :: r).takeWhile p = l := by
  rw [List.takeWhile_append_of_pos hl, List.takeWhile_cons_of_neg (by simp [hb]), List.append_nil]

theorem Storage.getElem?_ofFn (s : Storage) (k : Fin 32) : (List.ofFn s)[k.val]? = some (s k) := by
  rw [List.getElem?_ofFn]
  simp

/-- A string that ends inside the storage: its bytes, none of them NUL, and the NUL behind them. -/
theorem Storage.string_eq {s : Storage} {l : List UInt8} (hl : l.length < 32) :
    s.string = l ↔ 0 ∉ l ∧ (∀ k : Fin 32, k.val < l.length → s k = l.getD k.val 0) ∧
      s ⟨l.length, hl⟩ = 0 := by
  constructor
  · intro h
    have hall : ∀ a ∈ l, decide (a ≠ 0) = true := fun a ha =>
      List.mem_takeWhile_imp (p := fun a : UInt8 => decide (a ≠ 0)) (by rw [string] at h; rwa [h])
    obtain ⟨r, hr⟩ : l <+: List.ofFn s := h ▸ List.takeWhile_prefix _
    have hget := s.getElem?_ofFn
    rw [← hr] at hget
    refine ⟨fun h0 => by simpa using hall 0 h0, fun k hk => ?_, ?_⟩
    · have := hget k
      rw [List.getElem?_append_left hk] at this
      rw [List.getD_eq_getElem?_getD, this, Option.getD_some]
    · cases r with
      | nil =>
        have := congrArg List.length hr
        simp at this
        omega
      | cons b r =>
        have hb : b = s ⟨l.length, hl⟩ := by simpa using hget ⟨l.length, hl⟩
        by_contra hne
        rw [string, ← hr, List.takeWhile_append_of_pos hall,
          List.takeWhile_cons_of_pos (by simpa [hb] using hne)] at h
        simpa using congrArg List.length h
  · rintro ⟨h0, hk, hz⟩
    have htake : (List.ofFn s).take l.length = l := by
      apply List.ext_getElem (by simp; omega)
      intro i h1 h2
      have := hk ⟨i, by omega⟩ h2
      simp only [List.getElem_take, List.getElem_ofFn]
      rw [this, List.getD_eq_getElem _ _ h2]
    have hdrop : (List.ofFn s).drop l.length = 0 :: (List.ofFn s).drop (l.length + 1) := by
      rw [List.drop_eq_getElem_cons (by simpa using hl), List.getElem_ofFn, hz]
    rw [string, ← List.take_append_drop l.length (List.ofFn s), htake, hdrop]
    exact takeWhile_append_cons (fun a ha => by simp; rintro rfl; exact h0 ha) rfl

/-- The copied string, when the byte that the filling leaves out does not matter. -/
theorem strncpy_string {dest st : Storage} {src : List UInt8}
    (h : strncpy dest src 31 = .ok st) (h0 : 0 ∉ src) (h30 : src.length = 30 → dest 30 = 0) :
    Storage.string (Function.update st 31 0) = src := by
  unfold strncpy at h
  split at h
  swap
  · cases h
  next hlen =>
  cases h
  rw [Storage.string_eq (by omega)]
  refine ⟨h0, fun k hk => ?_, ?_⟩
  · have hne : k ≠ 31 := by rintro rfl; simp at hk; omega
    rw [Function.update_of_ne hne, if_pos hk]
  · have hne : (⟨src.length, by omega⟩ : Fin 32) ≠ 31 := by
      intro he
      have := congrArg Fin.val he
      simp at this
      omega
    rw [Function.update_of_ne hne]
    simp only [lt_irrefl, if_false]
    split
    · rfl
    · have hl : src.length = 30 := by omega
      rw [← h30 hl]
      congr 1
      exact Fin.ext hl

theorem strncpy_length {dest st : Storage} {src : List UInt8} {n : Nat}
    (h : strncpy dest src n = .ok st) : src.length < n := by
  unfold strncpy at h
  split at h
  · assumption
  · cases h

theorem strncpy_ok (dest : Storage) {src : List UInt8} (h : src.length < 31) :
    ∃ st, strncpy dest src 31 = .ok st ∧ st 30 = dest 30 := by
  unfold strncpy
  rw [if_pos h]
  refine ⟨_, rfl, ?_⟩
  rw [if_neg (by simp; omega), if_neg (by simp)]

/-! ## What `fat_mount` leaves behind -/

/-- Where the volume of the device starts. -/
def Disk.volumeStart (d : Disk) : UInt32 := mbrFindFatPartition (d.sector 0)

/-- `fat_bpb_load` goes on with the boot sector `s`. -/
def bootAccepted (s : Sector) : Bool := hasSignature s ∧ bootType s ≠ .unknown

/-- `fat_mount` turns the device down, its first sector being readable. -/
def Disk.refused (d : Disk) : Bool := !d.readable d.volumeStart ∨ !bootAccepted (bootSector d)

/-- What a refused `fat_mount` leaves of the instance. -/
def FatFs.left (fs : FatFs) (d : Disk) : FatFs :=
  if d.readable d.volumeStart then { fs with baseLba := d.volumeStart }.refused (bootSector d)
  else { fs with baseLba := d.volumeStart }

theorem bufRead_whole (s : Sector) (d : Disk) : bufRead 0 512 id ⟨s, d⟩ = .ok (s, ⟨s, d⟩) := rfl

theorem fatBpbLoadInto_refused {fs : FatFs} {s : Sector} {d : Disk}
    (h : bootAccepted s = false) :
    fatBpbLoadInto fs ⟨s, d⟩ = .ok ((false, fs.refused s), ⟨s, d⟩) := by
  have hno : ¬ (hasSignature s = true ∧ bootType s ≠ .unknown) := by
    simpa [bootAccepted] using h
  have hload : fatBpbLoad fs ⟨s, d⟩ = .ok (none, ⟨s, d⟩) := by
    unfold fatBpbLoad
    rw [bind_of_ok (bufRead_whole s d), if_neg hno]
    rfl
  unfold fatBpbLoadInto
  rw [bind_of_ok (bufRead_whole s d), bind_of_ok hload]
  rfl

theorem fatBpbLoadInto_accepted {fs : FatFs} {s : Sector} {d : Disk} {r : Bool × FatFs}
    {u : FatState} (h : bootAccepted s = true) (hr : fatBpbLoadInto fs ⟨s, d⟩ = .ok (r, u)) :
    r.1 = true := by
  have hyes : hasSignature s = true ∧ bootType s ≠ .unknown := by simpa [bootAccepted] using h
  unfold fatBpbLoadInto at hr
  rw [bind_of_ok (bufRead_whole s d)] at hr
  obtain ⟨o, v, ho, hr⟩ := bind_eq_ok.1 hr
  unfold fatBpbLoad at ho
  rw [bind_of_ok (bufRead_whole s d), if_pos hyes] at ho
  obtain ⟨q, w, -, ho⟩ := bind_eq_ok.1 ho
  split at ho
  · cases ho
    cases hr
    rfl
  · cases ho
    cases hr
    rfl

/-- `fat_mount` on a device whose first sector can be read. -/
theorem fatMountInto_eq (fs : FatFs) (b : Sector) {d : Disk} (h0 : d.readable 0 = true) :
    fatMountInto fs ⟨b, d⟩ =
      if d.readable d.volumeStart then
        fatBpbLoadInto { fs with baseLba := d.volumeStart } ⟨bootSector d, d⟩
      else .ok ((false, { fs with baseLba := d.volumeStart }), ⟨d.sector 0, d⟩) := by
  unfold fatMountInto
  have hread : fatDevRead { fs with baseLba := 0 } 0 ⟨b, d⟩ = .ok (true, ⟨d.sector 0, d⟩) := by
    unfold fatDevRead
    rw [if_pos (by simpa using h0)]
    simp
  rw [bind_of_ok hread, if_pos rfl, bind_of_ok (bufRead_run (by omega) _ _)]
  change (if d.volumeStart = 0 then _ else _ : FatM (Bool × FatFs)) _ = _
  by_cases hz : d.volumeStart = 0
  · have hb : bootSector d = d.sector 0 := by
      unfold bootSector
      rw [show mbrFindFatPartition (d.sector 0) = 0 from hz]
    rw [if_pos hz, hz, if_pos h0, hb]
  · rw [if_neg hz]
    by_cases hr : d.readable d.volumeStart = true
    · rw [if_pos hr, bind_of_ok (a := true) (t := ⟨bootSector d, d⟩), if_pos rfl]
      · rfl
      · unfold fatDevRead
        simp only [add_zero]
        rw [if_pos (by exact hr)]
        rfl
    · rw [if_neg hr, bind_of_ok (a := false) (t := ⟨d.sector 0, d⟩)]
      · rfl
      · unfold fatDevRead
        simp only [add_zero]
        rw [if_neg (by exact hr)]

/-- When `fat_mount` returns false, and what it leaves then. -/
theorem fatMountInto_false {fs r : FatFs} {b : Sector} {d : Disk} {u : FatState}
    (h0 : d.readable 0 = true) (h : fatMountInto fs ⟨b, d⟩ = .ok ((false, r), u)) :
    d.refused = true ∧ r = fs.left d := by
  rw [fatMountInto_eq fs b h0] at h
  split at h
  · next hr =>
    cases hacc : bootAccepted (bootSector d) with
    | true => cases fatBpbLoadInto_accepted hacc h
    | false =>
      rw [fatBpbLoadInto_refused hacc] at h
      cases h
      exact ⟨by simp [Disk.refused, hacc], by rw [FatFs.left, if_pos hr]⟩
  · next hr =>
    cases h
    exact ⟨by simp [Disk.refused, hr], by rw [FatFs.left, if_neg hr]⟩

theorem fatMountInto_of_refused (fs : FatFs) (b : Sector) {d : Disk} (h0 : d.readable 0 = true)
    (h : d.refused = true) : ∃ u, fatMountInto fs ⟨b, d⟩ = .ok ((false, fs.left d), u) := by
  rw [fatMountInto_eq fs b h0, FatFs.left]
  by_cases hr : d.readable d.volumeStart = true
  · have hacc : bootAccepted (bootSector d) = false := by simpa [Disk.refused, hr] using h
    rw [if_pos hr, if_pos hr, fatBpbLoadInto_refused hacc]
    exact ⟨_, rfl⟩
  · rw [if_neg hr, if_neg hr]
    exact ⟨_, rfl⟩

/-! ## A floppy -/

/-- The boot sector of a FAT12 floppy, with or without the signature. -/
def floppyBoot (signed : Bool) : Sector :=
  let s := (((Sector.zero.set16 11 512).set 13 1).set16 14 1).set 16 2
  let s := ((s.set16 17 224).set16 19 2880).set16 22 9
  if signed then s.set16 510 0xAA55 else s

def floppy (signed : Bool) : Disk :=
  ⟨fun _ => floppyBoot signed, fun _ => true, fun _ _ => true, 0⟩

def fd0 : List UInt8 := [0x66, 0x64, 0x30]

end HaoSys.Fs
