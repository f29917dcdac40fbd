import HaoSys.Fs.Rewrite
import HaoSys.Syscall.Ownership

/-!
# The owner of what is written over

`fat_write_file` builds the entry of a file anew, with no metadata in it, and
`sys_write_file` looks the path up once more to put them back. The entry that
was written, the one that gets the metadata and the one that `sys_stat` reads
are one and the same.
-/

namespace HaoSys.Syscall

open HaoSys.Lib HaoSys.Mm HaoSys.Fs Prog

/-! ## Asking for the status -/

/-- A task asks for the status of the path `s`, with a buffer for it. -/
structure Asks (v : Vfs) (s : List UInt8) (k : Kernel) (path buf : UInt32) : Prop where
  vfs : k.vfs = v
  pointer : path ≠ 0 ∧ k.accessible path = true
  path : k.path path = s
  buffer : buf ≠ 0 ∧ k.accessible buf = true ∧ k.accessible (buf + 15) = true

/-- With enough fuel, `sys_stat` returns 0 to every task that asks, and stores these values. -/
def Reports (v : Vfs) (s : List UInt8) (m : UnixMeta) (size : UInt32) : Prop :=
  ∃ f₀, ∀ fuel ≥ f₀, ∀ k path buf, Asks v s k path buf →
    ∃ r, sysStat fuel k path buf = .ok r ∧ r.eax = 0 ∧
      r.kernel.user = Kernel.storeBytes k.user buf (statBytes m size)

/-- The paths /dev and /mnt, in any case. -/
def IsVirtual (s : List UInt8) : Prop :=
  isVirtualDir s [0x44, 0x45, 0x56] = true ∨ isVirtualDir s [0x4D, 0x4E, 0x54] = true

instance (s : List UInt8) : Decidable (IsVirtual s) := inferInstanceAs (Decidable (_ ∨ _))

variable {v : Vfs} {s : List UInt8} {i : Fin 8} {m : Mount} {sub : List UInt8} {e : Dirent}

/-- What `sys_stat` reports is in the entry that the path leads to. -/
theorem reports_of_locates (hres : v.vfsResolve (some s) = some (i, some sub))
    (hm : v.mounts i = some m) (hreal : ¬ IsVirtual s)
    (h : m.fs.Locates (v.disks m.dev) sub (some e)) : Reports v s e.unixMeta e.fileSize := by
  obtain ⟨f₀, hf⟩ := h
  refine ⟨f₀, fun fuel hfuel k path buf hask => ?_⟩
  obtain ⟨rfl, ⟨hpath, hacc⟩, rfl, hbuf, hbuf0, hbuf15⟩ := hask
  obtain ⟨t, ht, -⟩ := hf fuel hfuel ⟨m.buf, k.vfs.disks m.dev⟩ rfl
  have hrun := run_eq (x := fun fs => fatFindFile fuel fs (some sub)) hm ht
  unfold IsVirtual at hreal
  unfold sysStat
  rw [if_neg (by simp [hpath, hbuf]), if_neg (by simp [hacc]), if_neg (by simp [hbuf0, hbuf15]),
    if_neg hreal, hres]
  simp only
  rw [hrun]
  exact ⟨_, rfl, rfl, rfl⟩

/-- One of the virtual directories is reported as what it is. -/
theorem sysStat_virtual {k : Kernel} {path buf : UInt32} (hask : Asks v s k path buf)
    (hvirtual : IsVirtual s) (fuel : Nat) :
    sysStat fuel k path buf = .ok ⟨0, k.copyOut buf (statBytes ⟨sIfdir ||| 0o755, 0, 0⟩ 0), 12⟩ := by
  obtain ⟨rfl, ⟨hpath, hacc⟩, rfl, hbuf, hbuf0, hbuf15⟩ := hask
  unfold IsVirtual at hvirtual
  unfold sysStat
  rw [if_neg (by simp [hpath, hbuf]), if_neg (by simp [hacc]), if_neg (by simp [hbuf0, hbuf15]),
    if_pos hvirtual]

/-! ## Paths are strings -/

theorem zero_not_mem_stringAt (m : UInt32 → UInt8) (n : Nat) (a : UInt32) :
    (0x00 : UInt8) ∉ Kernel.stringAt m n a := by
  induction n generalizing a with
  | zero => exact List.not_mem_nil
  | succ n ih =>
    unfold Kernel.stringAt
    split
    · exact List.not_mem_nil
    · next h0 =>
      intro hmem
      obtain he | hmem := List.mem_cons.1 hmem
      · exact h0 he.symm
      · exact ih _ hmem

/-- What is left of a path behind its mount point is a part of it. -/
theorem mem_of_vfsResolve (hres : v.vfsResolve (some s) = some (i, some sub)) {b : UInt8}
    (hb : b ∈ sub) : b ∈ s := by
  cases s with
  | nil =>
    obtain ⟨j, -, hj⟩ := Option.map_eq_some_iff.1 hres
    cases hj
  | cons c rest =>
    simp only [Vfs.vfsResolve] at hres
    split at hres
    · next j len _ =>
      simp only [Option.some.injEq, Prod.mk.injEq] at hres
      obtain ⟨-, hsub⟩ := hres
      split at hsub
      · cases hsub
      · cases hsub
        exact List.mem_of_mem_drop hb
    · obtain ⟨j, -, hj⟩ := Option.map_eq_some_iff.1 hres
      simp only [Prod.mk.injEq, Option.some.injEq] at hj
      obtain ⟨-, hsub⟩ := hj
      rw [← hsub] at hb
      split at hb
      · exact List.mem_cons_of_mem _ hb
      · exact hb

/-! ## Writing -/

/-- The metadata of a file that was written: those that it had, or the caller's for a new one. -/
def writtenMeta (c : Creds) (o : Option Dirent) : UnixMeta :=
  match o with
  | some e => e.unixMeta
  | none => ⟨sIfreg ||| 0o644, c.uid.toUInt16, c.gid.toUInt16⟩

section Writing

variable {fs : FatFs} {d : Disk} {o : Option Dirent} {fc : List UInt32} {p : FatFs.DirPlace}
  {name : Name83} {pre post : List DirSlot} {t : DirSlot} {s u : FatState}

theorem newDirent_fileSize (n : Name83) (a : UInt8) (c size : UInt32) :
    (newDirent n a c size).fileSize = size := le32_byte size

theorem setUnixMeta_fileSize (e : Dirent) (m : UnixMeta) :
    (e.setUnixMeta m).fileSize = e.fileSize := by
  unfold Dirent.fileSize
  rw [Dirent.setUnixMeta_apply e m (.inr (by decide)), Dirent.setUnixMeta_apply e m (.inr (by decide)),
    Dirent.setUnixMeta_apply e m (.inr (by decide)), Dirent.setUnixMeta_apply e m (.inr (by decide))]

/-- The two steps at the end: the entry is written, and the metadata are put into it. -/
theorem writeThenSet (h : fs.Site d sub o fc p name pre t post) (hs : s.disk = d)
    (hstring : (0x00 : UInt8) ∉ sub) (hproper : name 0 ≠ 0xE5) {data : List UInt8}
    (hlen : data.length ≤ 65536) {fuel n : Nat} {m : UnixMeta}
    (hrun : (do
      let (ok, taken) ← fatWriteFileImpl fuel fs (some sub) data
      if ok then
        let _ ← fatSetFileMeta fuel fs (some sub) m
        pure (true, taken)
      else pure (false, taken)) s = .ok ((true, n), u)) :
    ∃ e, fs.Refilled d u.disk fc name t e ∧ e.unixMeta = m ∧
      e.fileSize = UInt32.ofNat data.length := by
  obtain ⟨⟨ok, taken⟩, t1, h1, hrun⟩ := bind_eq_ok.1 hrun
  cases ok with
  | false => cases hrun
  | true =>
    simp only [if_true] at hrun
    obtain ⟨first, hfirst⟩ := h.fatWriteFileImpl hs hstring hproper hlen h1
    obtain ⟨b, t2, h2, hrun⟩ := bind_eq_ok.1 hrun
    cases hrun
    refine ⟨_, hfirst.fatSetFileMeta h rfl h2, Dirent.unixMeta_setUnixMeta _ m, ?_⟩
    rw [setUnixMeta_fileSize, newDirent_fileSize]

theorem writeFileAt_refills (h : fs.Site s.disk sub o fc p name pre t post)
    (hstring : (0x00 : UInt8) ∉ sub) (hproper : name 0 ≠ 0xE5) {c : Creds} {data : List UInt8}
    (hlen : data.length ≤ 65536) {fuel n : Nat}
    (hrun : writeFileAt fuel c (some sub) data fs s = .ok ((true, n), u)) :
    ∃ e, fs.Refilled s.disk u.disk fc name t e ∧ e.unixMeta = writtenMeta c o ∧
      e.fileSize = UInt32.ofNat data.length := by
  unfold writeFileAt at hrun
  obtain ⟨o', t1, h1, hrun⟩ := bind_eq_ok.1 hrun
  obtain ⟨rfl, hd1⟩ := h.locates.of_ok h.volume.sound.sized.sector h1
  cases o' with
  | some e =>
    simp only at hrun
    split at hrun
    · exact writeThenSet h hd1 hstring hproper hlen hrun
    · cases hrun
  | none =>
    obtain ⟨granted, t2, h2, hrun⟩ := bind_eq_ok.1 hrun
    obtain ⟨-, hd2⟩ := reads_of_run (readOnly_sysCheckParentWritable fuel c fs _) h2
    cases granted with
    | false => cases hrun
    | true => exact writeThenSet h (hd2.trans hd1) hstring hproper hlen hrun

end Writing

/-! ## The law -/

section Law

variable {k : Kernel} {path data size : UInt32} {r : SysResult} {o : Option Dirent}
  {fc : List UInt32} {p : FatFs.DirPlace} {name : Name83} {pre post : List DirSlot} {t : DirSlot}
  {fuel : Nat}

/-- **Ownership survives overwriting**: after `sys_write_file` has returned 0, `sys_stat` reports the
mode and the owner that the file had before, or those of a new file, with the size written. -/
theorem write_file_keeps_owner
    (hres : k.vfs.vfsResolve (some (k.path path)) = some (i, some sub))
    (hm : k.vfs.mounts i = some m) (hsite : m.fs.Site (k.vfs.disks m.dev) sub o fc p name pre t post)
    (hreal : ¬ IsVirtual (k.path path)) (hproper : name 0 ≠ 0xE5)
    (h : sysWriteFile fuel k path data size = .ok r) (hr : r.eax = 0) :
    (∀ e, o = some e → Reports k.vfs (k.path path) e.unixMeta e.fileSize ∧
        Reports r.kernel.vfs (k.path path) e.unixMeta size) ∧
      (o = none → Reports r.kernel.vfs (k.path path)
        ⟨sIfreg ||| 0o644, k.creds.uid.toUInt16, k.creds.gid.toUInt16⟩ size) := by
  obtain ⟨-, -, hsize, n, u, hrun, hk⟩ := sysWriteFile_zero_after hres hm h hr
  have hlen : (k.bytesAt data size.toNat).length = size.toNat := by
    unfold Kernel.bytesAt
    rw [List.length_map, List.length_range]
  have hstring : (0x00 : UInt8) ∉ sub := fun hmem =>
    zero_not_mem_stringAt k.user (2 ^ 32) path (mem_of_vfsResolve hres hmem)
  obtain ⟨e, hfilled, hmeta, hfilesize⟩ := writeFileAt_refills (s := ⟨m.buf, k.vfs.disks m.dev⟩)
    hsite hstring hproper (by rw [hlen]; exact hsize) hrun
  rw [hlen, UInt32.ofNat_toNat] at hfilesize
  -- the same path on the device that the call has left
  have hafter : Reports r.kernel.vfs (k.path path) (writtenMeta k.creds o) size := by
    rw [hk, ← hmeta, ← hfilesize]
    have hres' : (afterRun k.vfs i m u).vfsResolve (some (k.path path)) = some (i, some sub) := by
      rw [vfsResolve_afterRun hm]
      exact hres
    refine reports_of_locates (m := { m with buf := u.buf }) hres' (Function.update_self _ _ _)
      hreal ?_
    · rw [show (afterRun k.vfs i m u).disks m.dev = u.disk from Function.update_self _ _ _]
      exact hfilled.locates hsite
  refine ⟨fun old ho => ⟨?_, ?_⟩, fun ho => ?_⟩
  · exact reports_of_locates hres hm hreal (ho ▸ hsite.locates)
  · rw [ho] at hafter
    exact hafter
  · rw [ho] at hafter
    exact hafter

end Law

/-! ## A volume with long FATs -/

/-- A FAT16 volume with 36 clusters of one sector, a root region of one sector and FATs for 65536
numbers. -/
def longFatFs : FatFs := ⟨0, 1, 2, 256, 1, 514, 550, 1, 512, .fat16, 0, true⟩

/-- Nothing is on the volume but what stands in the root region. -/
def rootDisk (es : List Dirent) : Disk := Disk.ofSectors fun a =>
  if a = 513 then Sector.ofDirents es else Sector.zero

/-- The root of that volume. -/
def rootPlace : FatFs.DirPlace := ⟨0, [0], 0⟩

theorem longFatFs_sound : longFatFs.Sound := by
  refine ⟨⟨rfl, by decide, by decide⟩, rfl, by decide, rfl, rfl, by decide, by decide, by decide,
    fun c hc => ?_, by decide, by decide⟩
  have hlim : longFatFs.clusterLimit.toNat = 38 := by decide
  rw [hlim] at hc
  change c * 2 + 2 ≤ 256 * 512
  omega

theorem rootDisk_table (es : List Dirent) (c : UInt32) : longFatFs.table (rootDisk es) c = 0 := by
  have hbyte : ∀ n, n < 256 * 512 → longFatFs.fatByte (rootDisk es) n = 0 := by
    intro n hn
    have hne : longFatFs.fatSector (n / 512) ≠ 513 := fun he => by
      have hnat := congrArg UInt32.toNat he
      rw [longFatFs_sound.twoFats.fatSector_toNat (show n / 512 < 2 * 256 by omega)] at hnat
      change 0 + (1 + n / 512) = 513 at hnat
      omega
    unfold FatFs.fatByte rootDisk Disk.ofSectors
    simp only
    rw [if_neg hne]
    exact FatFs.sector_zero_get _
  unfold FatFs.table
  split
  · next hin =>
    have hlt := hin.2
    change c.toNat * 2 + 2 ≤ 256 * 512 at hlt
    change (le16 (longFatFs.fatByte (rootDisk es) (c.toNat * 2 + 0))
      (longFatFs.fatByte (rootDisk es) (c.toNat * 2 + 1))).toUInt32 = 0
    rw [hbyte _ (by omega), hbyte _ (by omega)]
    rfl
  · rfl

theorem rootDisk_fullFats (es : List Dirent) : longFatFs.FullFats (rootDisk es) :=
  ⟨longFatFs_sound, rfl, Disk.ofSectors_reliable _, by decide, fun c _ _ => rootDisk_table es c⟩

theorem rootDisk_inOrder (es : List Dirent) : longFatFs.InOrder (rootDisk es) rootPlace := by
  refine ⟨.inl ⟨rfl, rfl⟩, fun c hc => .inl (List.mem_singleton.1 hc),
    fun c hc => .inl (List.mem_singleton.1 hc), fun h => absurd h.1 (by decide)⟩

/-- The slots of the root. -/
def rootSlots (es : List Dirent) : List DirSlot := longFatFs.dirSlots (rootDisk es) [0]

/-- Root with the path in memory. -/
def rootMachine (es : List Dirent) (path : List UInt8) : Kernel :=
  machine openVmm longFatFs (rootDisk es) ⟨0, 0, 0, 0⟩ path

/-! ## A file behind a deleted entry -/

/-- The file F of another user, and a deleted entry before it. -/
def behindDeleted : List Dirent :=
  [newDirent (makeName83 [0xE5]) 0x20 0 0, ownedDirent [0x46] 0x20 0 ⟨0o100600, 5, 6⟩]

theorem behindDeleted_site :
    longFatFs.Site (rootDisk behindDeleted) [0x46]
      (some (ownedDirent [0x46] 0x20 0 ⟨0o100600, 5, 6⟩)) [] rootPlace (makeName83 [0x46]) []
      ⟨513, 0, newDirent (makeName83 [0xE5]) 0x20 0 0⟩ (rootSlots behindDeleted).tail := by
  refine ⟨rootDisk_fullFats _, ⟨.here, by decide +kernel⟩, ⟨rootDisk_inOrder _, nofun, ?_, nofun,
    by decide +kernel, by decide +kernel, by decide +kernel⟩, by decide +kernel,
    fun e he => ?_, nofun⟩
  · decide +kernel
  · cases he
    exact ⟨by decide +kernel, 0, by decide +kernel, nofun, nofun, fun h => absurd h.1 (by decide),
      by decide⟩

theorem behindDeleted_path : (rootMachine behindDeleted [0x2F, 0x46]).path 0x1000 = [0x2F, 0x46] := by
  change Kernel.stringAt (stringMem 0x1000 [0x2F, 0x46]) (2 ^ 32) 0x1000 = _
  decide +kernel

/-- Root writes three bytes over it: it stays the other user's. -/
theorem write_file_keeps_owner_deleted :
    ∃ r, sysWriteFile 4 (rootMachine behindDeleted [0x2F, 0x46]) 0x1000 0x1000 3 = .ok r ∧
      r.eax = 0 ∧
      Reports (rootMachine behindDeleted [0x2F, 0x46]).vfs [0x2F, 0x46] ⟨0o100600, 5, 6⟩ 0 ∧
      Reports r.kernel.vfs [0x2F, 0x46] ⟨0o100600, 5, 6⟩ 3 := by
  obtain ⟨r, hrun, hzero⟩ := exists_of_eaxOf
    (r := sysWriteFile 4 (rootMachine behindDeleted [0x2F, 0x46]) 0x1000 0x1000 3) (v := 0)
    (by decide +kernel)
  have hres : (rootMachine behindDeleted [0x2F, 0x46]).vfs.vfsResolve
      (some ((rootMachine behindDeleted [0x2F, 0x46]).path 0x1000)) = some (0, some [0x46]) := by
    rw [behindDeleted_path]
    decide +kernel
  have hlaw := (write_file_keeps_owner hres rfl behindDeleted_site
    (by rw [behindDeleted_path]; decide +kernel) (by decide +kernel) hrun hzero).1 _ rfl
  rw [behindDeleted_path] at hlaw
  have hmeta : (ownedDirent [0x46] 0x20 0 ⟨0o100600, 5, 6⟩).unixMeta = ⟨0o100600, 5, 6⟩ := by
    decide +kernel
  have hsize : (ownedDirent [0x46] 0x20 0 ⟨0o100600, 5, 6⟩).fileSize = 0 := by decide +kernel
  rw [hmeta, hsize] at hlaw
  exact ⟨r, hrun, hzero, hlaw⟩

/-! ## A file under a virtual directory -/

theorem dev_site :
    longFatFs.Site (rootDisk []) [0x44, 0x45, 0x56] none [] rootPlace
      (makeName83 [0x44, 0x45, 0x56]) [] ⟨513, 0, fun _ => 0⟩ (rootSlots []).tail := by
  refine ⟨rootDisk_fullFats _, ⟨.here, by decide +kernel⟩, ⟨rootDisk_inOrder _, nofun, ?_, nofun,
    by decide +kernel, by decide +kernel, by decide +kernel⟩, by decide +kernel, nofun,
    fun _ => rfl⟩
  decide +kernel

/-- The file DEV of the root is written, and `sys_stat` answers for the virtual directory. -/
theorem virtual_file_not_reported : ¬ ∀ (k : Kernel) (path data size : UInt32) (i : Fin 8)
    (m : Mount) (sub : List UInt8) (r : SysResult) (o : Option Dirent) (fc : List UInt32)
    (p : FatFs.DirPlace) (name : Name83) (pre post : List DirSlot) (t : DirSlot) (fuel : Nat),
    k.vfs.vfsResolve (some (k.path path)) = some (i, some sub) → k.vfs.mounts i = some m →
      m.fs.Site (k.vfs.disks m.dev) sub o fc p name pre t post →
      sysWriteFile fuel k path data size = .ok r → r.eax = 0 →
      (∀ e, o = some e → Reports k.vfs (k.path path) e.unixMeta e.fileSize ∧
          Reports r.kernel.vfs (k.path path) e.unixMeta size) ∧
        (o = none → Reports r.kernel.vfs (k.path path)
          ⟨sIfreg ||| 0o644, k.creds.uid.toUInt16, k.creds.gid.toUInt16⟩ size) := by
  intro h
  obtain ⟨r, hrun, hzero⟩ := exists_of_eaxOf
    (r := sysWriteFile 4 (rootMachine [] [0x2F, 0x44, 0x45, 0x56]) 0x1000 0x1000 3) (v := 0)
    (by decide +kernel)
  have hpath : (rootMachine [] [0x2F, 0x44, 0x45, 0x56]).path 0x1000 =
      [0x2F, 0x44, 0x45, 0x56] := by
    change Kernel.stringAt (stringMem 0x1000 [0x2F, 0x44, 0x45, 0x56]) (2 ^ 32) 0x1000 = _
    decide +kernel
  have hres : (rootMachine [] [0x2F, 0x44, 0x45, 0x56]).vfs.vfsResolve
      (some ((rootMachine [] [0x2F, 0x44, 0x45, 0x56]).path 0x1000)) =
        some (0, some [0x44, 0x45, 0x56]) := by
    rw [hpath]
    decide +kernel
  obtain ⟨f₀, hrep⟩ := (h _ _ _ _ _ _ _ _ _ _ _ _ _ _ _ _ hres rfl dev_site hrun hzero).2 rfl
  obtain ⟨-, -, -, n, u, -, hk⟩ := sysWriteFile_zero_after hres rfl hrun hzero
  have hask : Asks r.kernel.vfs ((rootMachine [] [0x2F, 0x44, 0x45, 0x56]).path 0x1000) r.kernel
      0x1000 0x2000 := by
    have hopen : ∀ a, r.kernel.accessible a = openVmm.vmmIsUserAccessible a := fun _ => by
      rw [hk]
      rfl
    refine ⟨rfl, ⟨by decide, ?_⟩, by rw [hk]; rfl, by decide, ?_, ?_⟩ <;> rw [hopen] <;>
      decide +kernel
  obtain ⟨r', hstat, -, huser⟩ := hrep f₀ (Nat.le_refl _) _ _ _ hask
  rw [sysStat_virtual hask (by rw [hpath]; decide +kernel)] at hstat
  cases hstat
  -- the first byte is that of a directory's mode
  have hbyte := congrFun huser 0x2000
  rw [hk] at hbyte
  change Kernel.storeBytes (stringMem 0x1000 [0x2F, 0x44, 0x45, 0x56]) 0x2000
      (statBytes ⟨sIfdir ||| 0o755, 0, 0⟩ 0) 0x2000 =
    Kernel.storeBytes (stringMem 0x1000 [0x2F, 0x44, 0x45, 0x56]) 0x2000
      (statBytes ⟨sIfreg ||| 0o644, 0, 0⟩ 3) 0x2000 at hbyte
  revert hbyte
  decide +kernel

end HaoSys.Syscall
