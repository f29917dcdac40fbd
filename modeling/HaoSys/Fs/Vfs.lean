import HaoSys.Fs.Fat
import HaoSys.Lib.Best

/-!
# The mount table (`fs/vfs.c`)

Eight slots, each with a mount point and a FAT instance on a registered
device. `vfs_resolve` picks the longest mount point that is a prefix of the
path and hands on the rest of it; `NULL` is `none`.
-/

namespace HaoSys.Fs

open HaoSys.Lib

/-- A mounted slot (`vfs_mount_t`); the device's contents are kept under `dev`. -/
structure Mount where
  point : List UInt8
  fs : FatFs
  buf : Sector
  dev : Nat

/-- A registered block device (`block_dev_t`). -/
structure BlockDev where
  name : List UInt8
  sectorCount : UInt32

structure Vfs where
  mounts : Fin 8 → Option Mount
  devs : List BlockDev
  disks : Nat → Disk

instance neZero8 : NeZero 8 := ⟨by decide⟩

namespace Vfs

/-- The path of the root mount. -/
def rootPoint : List UInt8 := [0x2F]

/-- The slot mounted at "/". -/
def rootMount (v : Vfs) : Option (Fin 8) :=
  (List.finRange 8).find? fun i => (v.mounts i).any fun m => m.point = rootPoint

/-- Mount point `point` covers `path`: it is a prefix that ends where a segment ends. -/
def covers (point path : List UInt8) : Bool :=
  point.isPrefixOf path ∧
    ((path.drop point.length).head? = none ∨ (path.drop point.length).head? = some 0x2F)

/-- The longest mount point that covers the path, with its length; the first of equals. -/
def bestMount (v : Vfs) (path : List UInt8) : Option (Fin 8 × Nat) :=
  (List.finRange 8).foldl (fun best i =>
    match v.mounts i with
    | none => best
    | some m =>
      if m.point.length > (best.map Prod.snd).getD 0 ∧ covers m.point path then
        some (i, m.point.length)
      else best) none

/-- `vfs_resolve`: the slot and the subpath. -/
def vfsResolve (v : Vfs) (path : Option (List UInt8)) : Option (Fin 8 × Option (List UInt8)) :=
  match path with
  | none | some [] => v.rootMount.map fun i => (i, none)
  | some (c :: rest) =>
    match v.bestMount (c :: rest) with
    | some (i, len) =>
      let sub := (c :: rest).drop (len + 1)
      some (i, if sub = [] then none else some sub)
    | none => v.rootMount.map fun i => (i, some (if c = 0x2F then rest else c :: rest))

/-! ## What a path resolves to -/

/-- The length of the slot's mount point, if it covers the path. -/
def coverLength (v : Vfs) (path : List UInt8) (i : Fin 8) : Option Nat :=
  match v.mounts i with
  | none => none
  | some m => if covers m.point path then some m.point.length else none

theorem bestMount_eq (v : Vfs) (path : List UInt8) :
    v.bestMount path = (List.finRange 8).foldl (keepBest (v.coverLength path)) none := by
  unfold bestMount
  congr 1
  funext best i
  unfold keepBest coverLength
  cases v.mounts i with
  | none => rfl
  | some m => by_cases hc : covers m.point path = true <;> simp [hc]

theorem coverLength_eq_some {v : Vfs} {path : List UInt8} {i : Fin 8} {n : Nat} :
    v.coverLength path i = some n ↔
      ∃ m, v.mounts i = some m ∧ covers m.point path = true ∧ m.point.length = n := by
  unfold coverLength
  cases v.mounts i with
  | none => simp
  | some m => by_cases hc : covers m.point path = true <;> simp [hc]

/-- The slot `bestMount` finds: it covers the path, and no mount point that does is longer. -/
theorem bestMount_eq_some {v : Vfs} {path : List UInt8} {i : Fin 8} {n : Nat}
    (h : v.bestMount path = some (i, n)) :
    (∃ m, v.mounts i = some m ∧ covers m.point path = true ∧ m.point.length = n) ∧
      ∀ j m, v.mounts j = some m → covers m.point path = true → m.point.length ≤ n := by
  have hb := isBest_foldl (v.coverLength path) (List.finRange 8)
  rw [← bestMount_eq, h] at hb
  refine ⟨coverLength_eq_some.1 (hb.attained i n rfl).1, fun j m hj hc => ?_⟩
  exact hb.le j (List.mem_finRange j) _ (coverLength_eq_some.2 ⟨m, hj, hc, rfl⟩)

/-- Without a result only the empty mount point can cover the path. -/
theorem bestMount_eq_none {v : Vfs} {path : List UInt8} (h : v.bestMount path = none) (j : Fin 8)
    {m : Mount} (hj : v.mounts j = some m) (hc : covers m.point path = true) : m.point = [] := by
  have hb := isBest_foldl (v.coverLength path) (List.finRange 8)
  rw [← bestMount_eq, h] at hb
  have := hb.le j (List.mem_finRange j) _ (coverLength_eq_some.2 ⟨m, hj, hc, rfl⟩)
  simpa using this

theorem rootMount_eq_some {v : Vfs} {i : Fin 8} (h : v.rootMount = some i) :
    ∃ m, v.mounts i = some m ∧ m.point = rootPoint := by
  have := List.find?_some h
  simpa [Option.any_eq_true] using this

theorem rootMount_eq_none {v : Vfs} (h : v.rootMount = none) (i : Fin 8) {m : Mount}
    (hi : v.mounts i = some m) : m.point ≠ rootPoint := by
  have := List.find?_eq_none.1 h i (List.mem_finRange i)
  simpa [hi] using this

theorem mounts_of_vfsResolve {v : Vfs} {path : Option (List UInt8)} {i : Fin 8}
    {sub : Option (List UInt8)} (h : v.vfsResolve path = some (i, sub)) :
    ∃ m, v.mounts i = some m := by
  have hroot : ∀ f : Fin 8 → Fin 8 × Option (List UInt8), (∀ j, (f j).1 = j) →
      v.rootMount.map f = some (i, sub) → ∃ m, v.mounts i = some m := by
    intro f hf hm
    obtain ⟨j, hj, hm⟩ := Option.map_eq_some_iff.1 hm
    have : j = i := by rw [← hf j, hm]
    obtain ⟨m, hm, -⟩ := rootMount_eq_some hj
    exact ⟨m, this ▸ hm⟩
  unfold vfsResolve at h
  split at h
  · exact hroot _ (fun _ => rfl) h
  · exact hroot _ (fun _ => rfl) h
  · split at h
    · next j len hb =>
      cases h
      obtain ⟨m, hm, -⟩ := (bestMount_eq_some hb).1
      exact ⟨m, hm⟩
    · exact hroot _ (fun _ => rfl) h

/-- The resolution of a path depends on the mount points only. -/
theorem vfsResolve_congr {v w : Vfs}
    (h : ∀ i, (v.mounts i).map Mount.point = (w.mounts i).map Mount.point) :
    v.vfsResolve = w.vfsResolve := by
  have hany : ∀ (p : List UInt8) i, (v.mounts i).any (fun m => m.point = p) =
      (w.mounts i).any fun m => m.point = p := by
    intro p i
    have := h i
    cases hv : v.mounts i <;> cases hw : w.mounts i <;> simp_all
  have hroot : v.rootMount = w.rootMount := by
    unfold rootMount
    simp only [hany]
  have hbest : v.bestMount = w.bestMount := by
    funext path
    unfold bestMount
    congr 1
    funext best i
    have := h i
    cases hv : v.mounts i <;> cases hw : w.mounts i <;> simp_all
  funext path
  unfold vfsResolve
  rw [hroot, hbest]

/-! ## Operations on a slot -/

/-- Run an operation on the instance of a slot. -/
def run {α : Type} (v : Vfs) (i : Fin 8) (x : FatFs → FatM α) : Except Fault (Option α × Vfs) :=
  match v.mounts i with
  | none => .ok (none, v)
  | some m => match x m.fs ⟨m.buf, v.disks m.dev⟩ with
    | .error e => .error e
    | .ok (a, t) => .ok (some a, { v with
        mounts := Function.update v.mounts i (some { m with buf := t.buf })
        disks := Function.update v.disks m.dev t.disk })

/-! ## Virtual directories -/

/-- Eleven bytes of a name, padded with blanks. -/
def paddedName (name : List UInt8) : Name83 := fun j => name.getD j.val 0x20

/-- The entry `..` of a virtual directory. -/
def upEntry : Dirent := newDirent (paddedName [0x2E, 0x2E]) 0x10 0 0

/-- A device's name without "/dev/". -/
def deviceName (name : List UInt8) : List UInt8 :=
  if [0x2F, 0x64, 0x65, 0x76, 0x2F].isPrefixOf name then name.drop 5 else name

/-- `vfs_list_devices`. -/
def vfsListDevices (v : Vfs) (max : UInt32) : List Dirent :=
  (upEntry :: v.devs.map fun d =>
    newDirent (paddedName ((deviceName d.name).map toUpper)) 0x20 0 (d.sectorCount * 512)).take
    max.toNat

/-- `mount_point_name`: the last segment of a mount point in upper case, at most eleven bytes. -/
def mountPointName (point : List UInt8) : List UInt8 :=
  if 0x2F ∈ point then ((point.reverse.takeWhile (· ≠ 0x2F)).reverse.take 11).map toUpper else []

/-- `vfs_list_mount_points`. -/
def vfsListMountPoints (v : Vfs) (max : UInt32) : List Dirent :=
  (upEntry :: (List.finRange 8).filterMap fun i =>
    (v.mounts i).bind fun m =>
      if m.point = rootPoint ∨ mountPointName m.point = [] then none
      else some (newDirent (paddedName (mountPointName m.point)) 0x10 0 0)).take max.toNat

end Vfs

end HaoSys.Fs
