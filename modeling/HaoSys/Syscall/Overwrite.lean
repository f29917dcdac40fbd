import HaoSys.Syscall.Machine
import HaoSys.Syscall.Permission

/-!
# Writing to a file that exists

`sys_write_file` asks for write permission on the file when `fat_find_file`
finds it and on its directory otherwise. `fat_find_file` looks at the first
128 live entries of the directory; the write goes to the entry of that name
wherever it stands.
-/

namespace HaoSys.Syscall

open HaoSys.Lib HaoSys.Fs Prog DirSlot

/-- The subpath names the entry `e`: it resolves, and `e` is the first live entry of its name in the
sectors `ls` of the parent directory. -/
structure Names (fuel : Nat) (fs : FatFs) (d : Disk) (sub : List UInt8) (ls : List UInt32)
    (e : DirSlot) : Prop where
  resolves : ∃ r, Reads (fatResolveParent fuel fs (some sub)) d r ∧ r.parent ≠ 0xFFFFFFFF ∧
    DirSectors fs d r.parent ls ∧
      (live (fs.slots d ls)).find? (fun t => t.entry.upperName = r.name83) = some e

/-- `e` is among the first 128 live entries. -/
def AmongFirst (fs : FatFs) (d : Disk) (ls : List UInt32) (e : DirSlot) : Prop :=
  e ∈ (live (fs.slots d ls)).take 128

/-- The first live entry of a name is the first one among the 128 if it stands there at all. -/
theorem find?_take_of_find? {es : List DirSlot} {p : DirSlot → Bool} {e : DirSlot}
    (h : es.find? p = some e) (n : Nat) :
    (es.take n).find? p = if e ∈ es.take n then some e else none := by
  have hsplit := h
  rw [← List.take_append_drop n es, List.find?_append] at hsplit
  cases hcase : (es.take n).find? p with
  | some f =>
    rw [hcase, Option.some_or] at hsplit
    cases hsplit
    rw [if_pos (List.mem_of_find?_eq_some hcase)]
  | none =>
    rw [if_neg fun hm => List.find?_eq_none.1 hcase e hm (List.find?_some h)]

/-- `fat_find_file` finds an entry exactly when it is among the first 128. -/
theorem Names.fatFindFile_eq {fuel : Nat} {fs : FatFs} {d : Disk} {sub : List UInt8}
    {ls : List UInt32} {e : DirSlot} {f : Option Dirent} (hs : fs.Sized)
    (hi : fs.initialized = true) (hr : d.Reliable) (h : Names fuel fs d sub ls e)
    (hf : Reads (fatFindFile fuel fs (some sub)) d f) :
    (AmongFirst fs d ls e → f = some e.entry) ∧ (¬ AmongFirst fs d ls e → f = none) := by
  obtain ⟨r, hres, hparent, hdir, hfind⟩ := h.resolves
  obtain ⟨-, -, -, hentry⟩ := fatResolveParent_reads (fun _ => 0) hres hparent
  unfold fatFindFile at hf
  rw [if_neg (by simp [hi]), Reads.bind_iff hres (.ite (fun _ => .pure _) fun _ => .pure _),
    if_neg hparent, Reads.pure_iff] at hf
  rw [hf]
  have hname := hdir.findName hs hi hr.readable hentry
  rw [← List.map_take, find?_map_entry, find?_take_of_find? hfind] at hname
  constructor
  · intro hfirst
    unfold AmongFirst at hfirst
    exact hname.1 _ (by rw [if_pos hfirst]; rfl)
  · intro hfirst
    unfold AmongFirst at hfirst
    refine hname.2 (by rw [if_neg hfirst]; rfl) (.inl ?_)
    -- a shorter directory lies within the first 128
    by_contra hshort
    refine hfirst ?_
    rw [List.take_of_length_le (by omega)]
    exact List.mem_of_find?_eq_some hfind

/-- A write that returns 0 after `fat_find_file` has found the file has checked it. -/
theorem writeFileAt_found {fuel : Nat} {c : Creds} {sub : Option (List UInt8)} {data : List UInt8}
    {fs : FatFs} {s t : FatState} {n : Nat} {e : Dirent}
    (hfound : Reads (fatFindFile fuel fs sub) s.disk (some e))
    (h : writeFileAt fuel c sub data fs s = .ok ((true, n), t)) : sysCheckEntry c e 2 = true := by
  unfold writeFileAt at h
  obtain ⟨u, hu, -⟩ := hfound s rfl
  rw [bind_of_ok hu] at h
  by_contra hc
  simp only [hc] at h
  cases h

/-- What `sys_write_file` refuses before it looks for the file. -/
def WriteRefused (k : Kernel) (path data size : UInt32) : Prop :=
  path = 0 ∨ data = 0 ∨ k.accessible path = false ∨ size > 65536 ∨ k.accessible data = false ∨
    size > 0 ∧ k.accessible (data + size - 1) = false

/-- The call keeps to the file's own mode: its arguments are refused, the mode grants the write, the
file is among the first 128 live entries of its directory, or the directory's check refuses. -/
def Guarded (fuel : Nat) (k : Kernel) (path data size : UInt32) (fs : FatFs) (d : Disk)
    (sub : List UInt8) (ls : List UInt32) (e : DirSlot) : Prop :=
  WriteRefused k path data size ∨ sysCheckEntry k.creds e.entry 2 = true ∨
    AmongFirst fs d ls e ∨ ¬ Reads (sysCheckParentWritable fuel k.creds fs (some sub)) d true

section Calls

variable {fuel : Nat} {k : Kernel} {path data size : UInt32} {i : Fin 8} {m : Mount}

theorem sysWriteFile_refused (h : WriteRefused k path data size) :
    sysWriteFile fuel k path data size = k.refuse := by
  unfold sysWriteFile
  split_ifs with h1 h2 h3 h4 h5
  · rfl
  · rfl
  · rfl
  · rfl
  · rfl
  · simp only [Bool.not_eq_true', Bool.not_eq_false] at h2 h4 h5
    rcases h with h | h | h | h | h | h
    · exact absurd (.inl h) h1
    · exact absurd (.inr h) h1
    · exact absurd (h.symm.trans h2) Bool.false_ne_true
    · exact absurd h h3
    · exact absurd (h.symm.trans h4) Bool.false_ne_true
    · exact absurd h h5

/-- A call whose arguments are accepted returns 0 exactly when its work on the volume ends well. -/
theorem sysWriteFile_accepted {sub : Option (List UInt8)} (h : ¬ WriteRefused k path data size)
    (hres : k.vfs.vfsResolve (some (k.path path)) = some (i, sub)) (hm : k.vfs.mounts i = some m) :
    (∃ r, sysWriteFile fuel k path data size = .ok r ∧ r.eax = 0) ↔
      ∃ n t, writeFileAt fuel k.creds sub (k.bytesAt data size.toNat) m.fs
        ⟨m.buf, k.vfs.disks m.dev⟩ = .ok ((true, n), t) := by
  constructor
  · rintro ⟨r, hr, hzero⟩
    exact sysWriteFile_zero hres hm hr hzero
  · rintro ⟨n, t, ht⟩
    unfold WriteRefused at h
    simp only [not_or, Bool.not_eq_false] at h
    obtain ⟨h1, h2, h3, h4, h5, h6⟩ := h
    unfold sysWriteFile Vfs.run
    rw [if_neg (not_or.2 ⟨h1, h2⟩), if_neg (by simp [h3]), if_neg h4, if_neg (by simp [h5]),
      if_neg (by simpa using h6), hres]
    simp only [hm, ht]
    exact ⟨_, rfl, rfl⟩

/-- What is left of the work when `fat_find_file` has missed the file and the directory's check has
let the caller pass. -/
theorem writeFileAt_unseen {c : Creds} {sub : Option (List UInt8)} {fs : FatFs} {s : FatState}
    (bytes : List UInt8) (hnone : Reads (fatFindFile fuel fs sub) s.disk none)
    (hparent : Reads (sysCheckParentWritable fuel c fs sub) s.disk true) :
    ∃ b, ∀ n t, writeFileAt fuel c sub bytes fs s = .ok ((true, n), t) ↔
      ∃ v ok, fatWriteFileImpl fuel fs sub bytes ⟨b, s.disk⟩ = .ok ((true, n), v) ∧
        fatSetFileMeta fuel fs sub ⟨sIfreg ||| 0o644, c.uid.toUInt16, c.gid.toUInt16⟩ v =
          .ok (ok, t) := by
  obtain ⟨u, hu, hud⟩ := hnone s rfl
  obtain ⟨⟨b, d⟩, hw, hwd⟩ := hparent u hud
  obtain rfl : d = s.disk := hwd
  refine ⟨b, fun n t => ?_⟩
  unfold writeFileAt
  rw [bind_of_ok hu]
  simp only
  rw [bind_of_ok hw]
  simp only [if_true]
  constructor
  · intro h
    obtain ⟨⟨written, taken⟩, v, hwrite, h⟩ := bind_eq_ok.1 h
    cases written with
    | false => cases h
    | true =>
      simp only [if_true] at h
      obtain ⟨ok, t', hset, h⟩ := bind_eq_ok.1 h
      cases h
      exact ⟨v, ok, hwrite, hset⟩
  · rintro ⟨v, ok, hwrite, hset⟩
    rw [bind_of_ok hwrite]
    simp only [if_true]
    rw [bind_of_ok hset]
    rfl

/-- **The file's own mode decides** wherever the call is guarded. Elsewhere the caller is past the
checks, though the mode does not grant the write, and the call returns 0 exactly when
`fat_write_file` succeeds and `fat_set_file_meta` returns. -/
theorem sys_write_file_granted {sub : List UInt8} {ls : List UInt32} {e : DirSlot}
    (hres : k.vfs.vfsResolve (some (k.path path)) = some (i, some sub))
    (hm : k.vfs.mounts i = some m) (hs : m.fs.Sized) (hi : m.fs.initialized = true)
    (hr : (k.vfs.disks m.dev).Reliable)
    (he : Names fuel m.fs (k.vfs.disks m.dev) sub ls e) :
    (Guarded fuel k path data size m.fs (k.vfs.disks m.dev) sub ls e →
      ∀ r, sysWriteFile fuel k path data size = .ok r → r.eax = 0 →
        sysCheckEntry k.creds e.entry 2 = true) ∧
    (¬ Guarded fuel k path data size m.fs (k.vfs.disks m.dev) sub ls e →
      sysCheckEntry k.creds e.entry 2 = false ∧
      ∃ b, (∃ r, sysWriteFile fuel k path data size = .ok r ∧ r.eax = 0) ↔
        ∃ n v ok t, fatWriteFileImpl fuel m.fs (some sub) (k.bytesAt data size.toNat)
            ⟨b, k.vfs.disks m.dev⟩ = .ok ((true, n), v) ∧
          fatSetFileMeta fuel m.fs (some sub)
            ⟨sIfreg ||| 0o644, k.creds.uid.toUInt16, k.creds.gid.toUInt16⟩ v = .ok (ok, t)) := by
  obtain ⟨r₀, hpath, hparent, -⟩ := id he.resolves
  have hfind := reads_fatFindFile hi hpath hparent
  obtain ⟨hin, hout⟩ := he.fatFindFile_eq hs hi hr hfind
  constructor
  · rintro (hrefused | hgrants | hamong | hrefuses) r hrun hzero
    · rw [sysWriteFile_refused hrefused] at hrun
      cases hrun
      cases hzero
    · exact hgrants
    · obtain ⟨n, t, hwork⟩ := sysWriteFile_zero hres hm hrun hzero
      rw [hin hamong] at hfind
      exact writeFileAt_found hfind hwork
    · obtain ⟨n, t, hwork⟩ := sysWriteFile_zero hres hm hrun hzero
      by_cases hamong : AmongFirst m.fs (k.vfs.disks m.dev) ls e
      · rw [hin hamong] at hfind
        exact writeFileAt_found hfind hwork
      · rw [hout hamong] at hfind
        exact absurd (writeFileAt_new hfind hwork).1 hrefuses
  · intro hunguarded
    unfold Guarded at hunguarded
    simp only [not_or, not_not] at hunguarded
    obtain ⟨haccepted, hmode, hamong, hpass⟩ := hunguarded
    rw [hout hamong] at hfind
    obtain ⟨b, hwork⟩ := writeFileAt_unseen (s := ⟨m.buf, k.vfs.disks m.dev⟩)
      (k.bytesAt data size.toNat) hfind hpass
    refine ⟨by simpa using hmode, b, ?_⟩
    rw [sysWriteFile_accepted haccepted hres hm]
    constructor
    · rintro ⟨n, t, h⟩
      obtain ⟨v, ok, hwrite, hset⟩ := (hwork n t).1 h
      exact ⟨n, v, ok, t, hwrite, hset⟩
    · rintro ⟨n, v, ok, t, hwrite, hset⟩
      exact ⟨n, t, (hwork n t).2 ⟨v, ok, hwrite, hset⟩⟩

end Calls

/-! ## A crowded directory -/

/-- A small FAT16 volume with 16 sectors a cluster. -/
def crowdedFs : FatFs := ⟨0, 1, 2, 1, 1, 4, 68, 16, 512, .fat16, 0, true⟩

/-- 128 files, and then `P`, which only its owner may write. -/
def crowdedEntry (n j : Nat) : Dirent :=
  if j < n then
    newDirent (makeName83 [UInt8.ofNat (0x41 + j / 16), UInt8.ofNat (0x41 + j % 16)]) 0x20 0 0
  else if j = n then ownedDirent [0x50] 0x20 0 ⟨0o100600, 5, 5⟩
  else fun _ => 0

/-- The directory `D`, open to all, with `n` files before `P`. -/
def crowdedDisk (n : Nat) : Disk := Disk.ofSectors fun a =>
  if a = 3 then Sector.ofDirents [ownedDirent [0x44] 0x10 2 ⟨0o040777, 0, 0⟩]
  else if 4 ≤ a ∧ a < 20 then
    Sector.ofDirents ((List.range 16).map fun i => crowdedEntry n (16 * (a - 4).toNat + i))
  else Sector.zero

/-- A caller with credentials `c` and the path "/D/P". -/
def crowded (n : Nat) (c : Creds) : Kernel :=
  machine openVmm crowdedFs (crowdedDisk n) c [0x2F, 0x44, 0x2F, 0x50]

/-- The sectors of `D`. -/
def crowdedSectors : List UInt32 := [(2 : UInt32)].flatMap crowdedFs.regionSectors

/-- The slot of `P` behind `n` files. -/
def crowdedSlot (n : Nat) : DirSlot :=
  ⟨UInt32.ofNat (4 + n / 16), UInt32.ofNat (32 * (n % 16)), crowdedEntry n n⟩

theorem crowded_names {n : Nat} {e : Option Dirent}
    (hres : evalOn (fatResolveParent 4 crowdedFs (some [0x44, 0x2F, 0x50])) (crowdedDisk n) =
      some ⟨2, makeName83 [0x50], e⟩)
    (hfind : (live (crowdedFs.slots (crowdedDisk n) crowdedSectors)).find?
      (fun t => t.entry.upperName = makeName83 [0x50]) = some (crowdedSlot n)) :
    Names 4 crowdedFs (crowdedDisk n) [0x44, 0x2F, 0x50] crowdedSectors (crowdedSlot n) where
  resolves := by
    have hparent : (2 : UInt32) ≠ 0xFFFFFFFF := by decide
    refine ⟨_, reads_of_evalOn (readOnly_fatResolveParent _ _ _) hres, hparent, ?_, hfind⟩
    refine .chain (z := crowdedFs.table (crowdedDisk n) 2) ⟨⟨rfl, rfl⟩, fun x hx => ?_⟩ (by simp)
    rw [List.mem_singleton.1 hx]
    exact ⟨by decide, by decide⟩

theorem crowded_sized : crowdedFs.Sized := ⟨rfl, by decide, by decide⟩

theorem crowded_resolves {n : Nat} {c : Creds} :
    (crowded n c).vfs.vfsResolve (some ((crowded n c).path 0x1000)) =
      some (0, some [0x44, 0x2F, 0x50]) := by
  have hpath : (crowded n c).path 0x1000 = [0x2F, 0x44, 0x2F, 0x50] := by
    change Kernel.stringAt (stringMem 0x1000 [0x2F, 0x44, 0x2F, 0x50]) (2 ^ 32) 0x1000 = _
    decide +kernel
  rw [hpath]
  rfl

/-- The owner of `P` writes to it. -/
theorem sys_write_file_granted_owner : ∃ r,
    sysWriteFile 4 (crowded 2 ⟨5, 5, 5, 5⟩) 0x1000 0x2000 0 = .ok r ∧ r.eax = 0 ∧
      sysCheckEntry ⟨5, 5, 5, 5⟩ (crowdedSlot 2).entry 2 = true := by
  obtain ⟨r, hrun, hzero⟩ := exists_of_eaxOf
    (r := sysWriteFile 4 (crowded 2 ⟨5, 5, 5, 5⟩) 0x1000 0x2000 0) (v := 0) (by decide +kernel)
  refine ⟨r, hrun, hzero, ?_⟩
  have hfind : (live (crowdedFs.slots (crowdedDisk 2) crowdedSectors)).find?
      (fun t => t.entry.upperName = makeName83 [0x50]) = some (crowdedSlot 2) := by decide +kernel
  have hfirst : AmongFirst crowdedFs (crowdedDisk 2) crowdedSectors (crowdedSlot 2) := by
    unfold AmongFirst
    decide +kernel
  exact (sys_write_file_granted (k := crowded 2 ⟨5, 5, 5, 5⟩) (i := 0) crowded_resolves rfl
    crowded_sized rfl (Disk.ofSectors_reliable _)
    (crowded_names (e := some (crowdedEntry 2 2)) (by decide +kernel) hfind)).1
    (.inr (.inr (.inl hfirst))) r hrun hzero

/-- With 128 files before it, `P` is overwritten by a user who may not write it. -/
theorem sys_write_file_unseen :
    Names 4 crowdedFs (crowdedDisk 128) [0x44, 0x2F, 0x50] crowdedSectors (crowdedSlot 128) ∧
      (crowdedDisk 128).Reliable ∧ plainUser.euid ≠ 0 ∧
      (∃ r, sysWriteFile 4 (crowded 128 plainUser) 0x1000 0x2000 0 = .ok r ∧ r.eax = 0) ∧
      sysCheckEntry plainUser (crowdedSlot 128).entry 2 = false := by
  have hfind : (live (crowdedFs.slots (crowdedDisk 128) crowdedSectors)).find?
      (fun t => t.entry.upperName = makeName83 [0x50]) = some (crowdedSlot 128) := by
    decide +kernel
  refine ⟨crowded_names (e := none) (by decide +kernel) hfind, Disk.ofSectors_reliable _,
    by decide, exists_of_eaxOf (by decide +kernel), by decide +kernel⟩

end HaoSys.Syscall
