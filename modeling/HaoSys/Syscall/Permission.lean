import HaoSys.Fs.Path
import HaoSys.Syscall.Machine

/-!
# Which directory is checked

The calls that change a directory check the permission of the directory that
`sys_parent_sub` names and then change the one that `fat_resolve_parent`
reaches. Both come from the same string, but the first one through a buffer of
64 bytes.
-/

namespace HaoSys.Syscall

open HaoSys.Lib HaoSys.Fs Prog

/-! ## The part of a path before its last slash -/

/-- What stands before the last slash. -/
def parentPart (sub : List UInt8) : List UInt8 :=
  sub.take (sub.length - 1 - (sub.reverse.takeWhile (· ≠ 0x2F)).length)

/-- What `sys_parent_sub` keeps of it. -/
def checkedPart (sub : List UInt8) : List UInt8 := (parentPart sub).take 63

/-- A path with a slash is its parent part, the slash and a last segment without slashes. -/
theorem parentPart_split {sub : List UInt8} (h : (0x2F : UInt8) ∈ sub) :
    ∃ last, (0x2F : UInt8) ∉ last ∧ sub = parentPart sub ++ 0x2F :: last := by
  obtain ⟨rest, hrest⟩ : ∃ rest, sub.reverse.dropWhile (· ≠ 0x2F) = 0x2F :: rest := by
    cases hd : sub.reverse.dropWhile (· ≠ 0x2F) with
    | nil =>
      have := List.dropWhile_eq_nil_iff.1 hd 0x2F (List.mem_reverse.2 h)
      simp at this
    | cons c rest =>
      have := List.head?_dropWhile_not (· ≠ (0x2F : UInt8)) sub.reverse
      rw [hd] at this
      have hc : c = 0x2F := by simpa using this
      exact ⟨rest, by rw [hc]⟩
  have hrev : sub.reverse = sub.reverse.takeWhile (· ≠ 0x2F) ++ 0x2F :: rest := by
    rw [← hrest, List.takeWhile_append_dropWhile]
  have hsub : sub = rest.reverse ++ 0x2F :: (sub.reverse.takeWhile (· ≠ 0x2F)).reverse := by
    have := congrArg List.reverse hrev
    simpa using this
  have hlen : sub.length = rest.length + 1 + (sub.reverse.takeWhile (· ≠ 0x2F)).length := by
    have := congrArg List.length hrev
    simp only [List.length_reverse, List.length_append, List.length_cons] at this
    omega
  refine ⟨(sub.reverse.takeWhile (· ≠ 0x2F)).reverse, fun hm => ?_, ?_⟩
  · simpa using List.mem_takeWhile_imp (List.mem_reverse.1 hm)
  · have hpart : parentPart sub = rest.reverse := by
      rw [parentPart, show sub.length - 1 - (sub.reverse.takeWhile (· ≠ 0x2F)).length =
        rest.reverse.length by rw [List.length_reverse]; omega]
      conv_lhs => rw [hsub]
      exact List.take_left
    rw [hpart]
    exact hsub

theorem sysParentSub_eq (sub : List UInt8) :
    sysParentSub (some sub) =
      if parentPart sub = [] then none else some (checkedPart sub) := by
  rw [sysParentSub]
  by_cases hm : (0x2F : UInt8) ∈ sub
  · have hlen : sub.length - 1 - (sub.reverse.takeWhile (· ≠ 0x2F)).length =
        (parentPart sub).length := by
      rw [parentPart, List.length_take]
      omega
    have hpart : parentPart sub = sub.take (parentPart sub).length := by
      conv_lhs => rw [parentPart, hlen]
    simp only [hlen, hm, true_and, ne_eq, List.length_eq_zero_iff, ite_not]
    split
    · rfl
    · rw [checkedPart]
      conv_rhs => rw [hpart, List.take_take]
      congr 2
      split <;> omega
  · have hnil : parentPart sub = [] := by
      have : sub.reverse.takeWhile (· ≠ 0x2F) = sub.reverse :=
        List.takeWhile_eq_self_iff.2 fun c hc => by
          have : c ≠ 0x2F := by
            rintro rfl
            exact hm (List.mem_reverse.1 hc)
          simpa using this
      rw [parentPart, this]
      simp
    simp [hm, hnil]

/-- The names on the way to the parent directory are those of the parent part. -/
theorem splitPath_fst_eq (sub : List UInt8) : (splitPath sub).1 = pathNames (parentPart sub) := by
  by_cases hm : (0x2F : UInt8) ∈ sub
  · obtain ⟨last, hlast, hsplit⟩ := parentPart_split hm
    conv_lhs => rw [hsplit]
    exact splitPath_fst_of_split hlast
  · have h := sysParentSub_eq sub
    simp only [sysParentSub, hm, false_and, if_false] at h
    have hnil : parentPart sub = [] := by
      by_contra hne
      rw [if_neg hne] at h
      cases h
    rw [splitPath, splitLoop_fst_of_not_mem sub none hm, hnil]
    rfl

/-! ## The directory that is changed -/

/-- The directory `fat_resolve_parent` reaches on the subpath and its entry; the root of the volume
has the entry `sys_root_entry` makes up. -/
def changedDir (fuel : Nat) (fs : FatFs) (sub : List UInt8) : FatM (Option (UInt32 × Dirent)) :=
  walkDirs fuel fs (splitPath sub).1 (0, sysRootEntry)

/-- The directory that is changed by an operation on `sub` grants write permission. -/
def GrantsChange (fuel : Nat) (c : Creds) (fs : FatFs) (sub : List UInt8) (d : Disk) : Prop :=
  ∃ r e, Reads (fatResolveParent fuel fs (some sub)) d r ∧ r.parent ≠ 0xFFFFFFFF ∧
    Reads (changedDir fuel fs sub) d (some (r.parent, e)) ∧ sysCheckEntry c e 2 = true

theorem readOnly_sysCheckParentWritable (fuel : Nat) (c : Creds) (fs : FatFs)
    (sub : Option (List UInt8)) : ReadOnly (sysCheckParentWritable fuel c fs sub) := by
  unfold sysCheckParentWritable
  split
  · exact .pure _
  · refine .bind (readOnly_fatFindFile fuel fs _) fun e => ?_
    cases e with
    | none => exact .pure _
    | some e => exact .pure _

/-- What a passed check says: the root grants it, or the directory `sys_parent_sub` names. -/
theorem sysCheckParentWritable_reads {fuel : Nat} {c : Creds} {fs : FatFs} {sub : List UInt8}
    {d : Disk} (h : Reads (sysCheckParentWritable fuel c fs (some sub)) d true) :
    (parentPart sub = [] ∧ sysCheckEntry c sysRootEntry 2 = true) ∨
      ∃ e, Reads (fatFindFile fuel fs (some (checkedPart sub))) d (some e) ∧
        sysCheckEntry c e 2 = true := by
  rw [sysCheckParentWritable, sysParentSub_eq] at h
  by_cases hnil : parentPart sub = []
  · rw [if_pos hnil] at h
    exact .inl ⟨hnil, (Reads.of_pure h).symm⟩
  · rw [if_neg hnil] at h
    refine .inr ?_
    obtain ⟨e, he, hc⟩ := h.bind_inv (readOnly_fatFindFile fuel fs _) fun e => by
      cases e with
      | none => exact .pure _
      | some e => exact .pure _
    cases e with
    | none => cases Reads.of_pure hc
    | some e => exact ⟨e, he, (Reads.of_pure hc).symm⟩

/-- The part of the path that is checked names the directory that is changed, unless one of the two
paths never resolves: it has no last segment, or a segment looks like a deleted entry. -/
def ChecksParent (sub : List UInt8) : Prop :=
  pathNames (checkedPart sub) = pathNames (parentPart sub) ∨
    (parentPart sub ≠ [] ∧ (splitPath (checkedPart sub)).2 = none) ∨ (splitPath sub).2 = none ∨
    ∃ n ∈ pathNames (checkedPart sub) ++ pathNames (parentPart sub), n 0 = 0xE5

/-- A passed check is a check of the directory that is changed. -/
theorem grantsChange_of_checks {fuel : Nat} {c : Creds} {fs : FatFs} {sub : List UInt8} {d : Disk}
    {r : Resolved} (hsub : ChecksParent sub)
    (hcheck : Reads (sysCheckParentWritable fuel c fs (some sub)) d true)
    (hr : Reads (fatResolveParent fuel fs (some sub)) d r) (hparent : r.parent ≠ 0xFFFFFFFF) :
    GrantsChange fuel c fs sub d := by
  obtain ⟨f, hwalk, hsublast, -⟩ := fatResolveParent_reads sysRootEntry hr hparent
  refine ⟨r, f, hr, hparent, hwalk, ?_⟩
  rw [splitPath_fst_eq] at hwalk
  obtain ⟨hnil, hroot⟩ | ⟨e, he, hgrant⟩ := sysCheckParentWritable_reads hcheck
  · rw [hnil] at hwalk
    have hpair := Reads.of_pure hwalk
    simp only [Option.some.injEq, Prod.mk.injEq] at hpair
    rw [hpair.2]
    exact hroot
  · -- the checked path resolves too, so its names are directories and a last name
    obtain ⟨r', hr', hparent', hentry⟩ := fatFindFile_reads he
    obtain ⟨f', hwalk', hlast, hfind⟩ := fatResolveParent_reads sysRootEntry hr' hparent'
    have hnames : pathNames (parentPart sub) = (splitPath (checkedPart sub)).1 ++ [r'.name83] := by
      have hchecked : pathNames (checkedPart sub) =
          (splitPath (checkedPart sub)).1 ++ [r'.name83] := by
        rw [pathNames, hlast]
        rfl
      obtain hsame | ⟨-, hnone⟩ | hnone | ⟨n, hn, hdel⟩ := hsub
      · rw [← hsame, hchecked]
      · rw [hnone] at hlast
        cases hlast
      · rw [hnone] at hsublast
        cases hsublast
      · rw [hchecked, List.mem_append, List.mem_append, List.mem_singleton] at hn
        obtain (hn | rfl) | hn := hn
        · exact absurd hdel (walkDirs_not_deleted hwalk' n hn)
        · rw [hentry] at hfind
          exact absurd hdel (dirFindName_not_deleted hfind)
        · exact absurd hdel (walkDirs_not_deleted hwalk n hn)
    rw [hnames] at hwalk
    obtain ⟨q, hq, hf⟩ := walkDirs_concat fuel fs _ _ _ d _ hwalk
    cases hq.unique hwalk'
    rw [hentry] at hfind
    cases hf.unique hfind
    exact hgrant

/-! ## The operations resolve the path -/

theorem reads_of_run {α : Type} {x : FatM α} {s t : FatState} {a : α} (hx : ReadOnly x)
    (h : x s = .ok (a, t)) : Reads x s.disk a ∧ t.disk = s.disk :=
  hx.of_ok h

/-- An operation that gives up on an unresolved path and did not give up has resolved it. -/
theorem resolves_of_run {α : Type} {fuel : Nat} {fs : FatFs} {path : Option (List UInt8)}
    {P : Resolved → Prop} [DecidablePred P] {y : Resolved → FatM α} {a₀ a : α} {s t : FatState}
    (hP : ∀ r, r.parent = 0xFFFFFFFF → P r) (ha : a ≠ a₀)
    (h : (fatResolveParent fuel fs path >>= fun r => if P r then pure a₀ else y r) s =
      .ok (a, t)) :
    ∃ r, Reads (fatResolveParent fuel fs path) s.disk r ∧ r.parent ≠ 0xFFFFFFFF := by
  obtain ⟨r, u, hu, h⟩ := bind_eq_ok.1 h
  refine ⟨r, (reads_of_run (readOnly_fatResolveParent fuel fs path) hu).1, fun hr => ?_⟩
  rw [if_pos (hP r hr)] at h
  cases h
  exact ha rfl

theorem fatMkdir_resolves {fuel : Nat} {fs : FatFs} {path : Option (List UInt8)} {s t : FatState}
    (h : fatMkdir fuel fs path s = .ok (true, t)) :
    ∃ r, Reads (fatResolveParent fuel fs path) s.disk r ∧ r.parent ≠ 0xFFFFFFFF := by
  unfold fatMkdir at h
  split at h
  · cases h
  · exact resolves_of_run (fun _ hr => .inl hr) (by decide) h

theorem fatDeleteFile_resolves {fuel : Nat} {fs : FatFs} {path : Option (List UInt8)}
    {s t : FatState} (h : fatDeleteFile fuel fs path s = .ok (true, t)) :
    ∃ r, Reads (fatResolveParent fuel fs path) s.disk r ∧ r.parent ≠ 0xFFFFFFFF := by
  unfold fatDeleteFile at h
  split at h
  · cases h
  · exact resolves_of_run (fun _ hr => .inl hr) (by decide) h

theorem fatWriteFileImpl_resolves {fuel : Nat} {fs : FatFs} {path : Option (List UInt8)}
    {data : List UInt8} {s t : FatState} {n : Nat}
    (h : fatWriteFileImpl fuel fs path data s = .ok ((true, n), t)) :
    ∃ r, Reads (fatResolveParent fuel fs path) s.disk r ∧ r.parent ≠ 0xFFFFFFFF := by
  unfold fatWriteFileImpl at h
  split at h
  · cases h
  · exact resolves_of_run (fun _ hr => hr) (by simp) h

/-! ## The calls -/

theorem run_inv {α : Type} {v w : Vfs} {i : Fin 8} {x : FatFs → FatM α} {r : Option α} {m : Mount}
    (hm : v.mounts i = some m) (h : v.run i x = .ok (r, w)) :
    ∃ a t, x m.fs ⟨m.buf, v.disks m.dev⟩ = .ok (a, t) ∧ r = some a := by
  unfold Vfs.run at h
  rw [hm] at h
  simp only at h
  split at h
  · cases h
  · next a t hx =>
    cases h
    exact ⟨a, t, hx, rfl⟩

/-- A path call that returns 0 has run its operation to success. -/
theorem pathCall_zero {k : Kernel} {path : UInt32} {x : Option (List UInt8) → FatFs → FatM Bool}
    {i : Fin 8} {sub : Option (List UInt8)} {m : Mount} {r : SysResult}
    (hres : k.vfs.vfsResolve (some (k.path path)) = some (i, sub)) (hm : k.vfs.mounts i = some m)
    (h : pathCall k path x = .ok r) (hr : r.eax = 0) :
    ∃ t, x sub m.fs ⟨m.buf, k.vfs.disks m.dev⟩ = .ok (true, t) := by
  unfold pathCall Kernel.refuse at h
  split at h
  · cases h; cases hr
  split at h
  · cases h; cases hr
  rw [hres] at h
  simp only at h
  cases hrun : k.vfs.run i (x sub) with
  | error e => rw [hrun] at h; cases h
  | ok p =>
    obtain ⟨a, v⟩ := p
    obtain ⟨b, t, hx, rfl⟩ := run_inv hm hrun
    rw [hrun] at h
    cases h
    cases b with
    | false => cases hr
    | true => exact ⟨t, hx⟩

theorem sysWriteFile_zero {fuel : Nat} {k : Kernel} {path data size : UInt32} {i : Fin 8}
    {sub : Option (List UInt8)} {m : Mount} {r : SysResult}
    (hres : k.vfs.vfsResolve (some (k.path path)) = some (i, sub)) (hm : k.vfs.mounts i = some m)
    (h : sysWriteFile fuel k path data size = .ok r) (hr : r.eax = 0) :
    ∃ n t, writeFileAt fuel k.creds sub (k.bytesAt data size.toNat) m.fs
      ⟨m.buf, k.vfs.disks m.dev⟩ = .ok ((true, n), t) := by
  unfold sysWriteFile Kernel.refuse at h
  split at h
  · cases h; cases hr
  split at h
  · cases h; cases hr
  split at h
  · cases h; cases hr
  split at h
  · cases h; cases hr
  split at h
  · cases h; cases hr
  rw [hres] at h
  simp only at h
  cases hrun : k.vfs.run i (writeFileAt fuel k.creds sub (k.bytesAt data size.toNat)) with
  | error e => rw [hrun] at h; cases h
  | ok p =>
    obtain ⟨a, v⟩ := p
    obtain ⟨⟨b, n⟩, t, hx, rfl⟩ := run_inv hm hrun
    rw [hrun] at h
    cases h
    cases b with
    | false => cases hr
    | true => exact ⟨n, t, hx⟩

/-- A file that `fat_find_file` does not find is written only after the check of its directory. -/
theorem writeFileAt_new {fuel : Nat} {c : Creds} {sub : Option (List UInt8)} {data : List UInt8}
    {fs : FatFs} {s t : FatState} {n : Nat} (hnew : Reads (fatFindFile fuel fs sub) s.disk none)
    (h : writeFileAt fuel c sub data fs s = .ok ((true, n), t)) :
    Reads (sysCheckParentWritable fuel c fs sub) s.disk true ∧
      ∃ r, Reads (fatResolveParent fuel fs sub) s.disk r ∧ r.parent ≠ 0xFFFFFFFF := by
  unfold writeFileAt at h
  obtain ⟨u, hu, hud⟩ := hnew s rfl
  rw [bind_of_ok hu] at h
  obtain ⟨b, w, hw, h⟩ := bind_eq_ok.1 h
  obtain ⟨hcheck, hwd⟩ := reads_of_run (readOnly_sysCheckParentWritable fuel c fs sub) hw
  rw [hud] at hcheck hwd
  cases b with
  | false => cases h
  | true =>
    refine ⟨hcheck, ?_⟩
    simp only [if_true] at h
    obtain ⟨⟨ok, taken⟩, w', hwrite, h⟩ := bind_eq_ok.1 h
    cases ok with
    | false => cases h
    | true =>
      rw [← hwd]
      exact fatWriteFileImpl_resolves hwrite

/-- The call has returned 0 after a change of the directory: `sys_mkdir`, `sys_delete_file`, or
`sys_write_file` where `fat_find_file` does not find the file. -/
def ChangedBy (fuel : Nat) (k : Kernel) (path : UInt32) (fs : FatFs) (sub : List UInt8)
    (d : Disk) : Prop :=
  ∃ r : SysResult, r.eax = 0 ∧
    (sysMkdir fuel k path = .ok r ∨ sysDeleteFile fuel k path = .ok r ∨
      ∃ data size, sysWriteFile fuel k path data size = .ok r ∧
        Reads (fatFindFile fuel fs (some sub)) d none)

/-- Whenever a call on a path with this subpath changes a directory, that directory grants it. -/
def ChangesGranted (sub : List UInt8) : Prop :=
  ∀ (fuel : Nat) (k : Kernel) (path : UInt32) (i : Fin 8) (m : Mount),
    k.vfs.vfsResolve (some (k.path path)) = some (i, some sub) → k.vfs.mounts i = some m →
      ChangedBy fuel k path m.fs sub (k.vfs.disks m.dev) →
        GrantsChange fuel k.creds m.fs sub (k.vfs.disks m.dev)

theorem changesGranted_of_checksParent {sub : List UInt8} (hsub : ChecksParent sub) :
    ChangesGranted sub := by
  intro fuel k path i m hres hm ⟨r, hr, hcall⟩
  have hchecked : Reads (sysCheckParentWritable fuel k.creds m.fs (some sub)) (k.vfs.disks m.dev)
      true ∧ ∃ r, Reads (fatResolveParent fuel m.fs (some sub)) (k.vfs.disks m.dev) r ∧
        r.parent ≠ 0xFFFFFFFF := by
    obtain hcall | hcall | ⟨data, size, hcall, hnew⟩ := hcall
    · obtain ⟨t, ht⟩ := pathCall_zero hres hm hcall hr
      unfold mkdirAt at ht
      obtain ⟨b, u, hu, ht⟩ := bind_eq_ok.1 ht
      obtain ⟨hcheck, hud⟩ := reads_of_run (readOnly_sysCheckParentWritable _ _ _ _) hu
      cases b with
      | false => cases ht
      | true =>
        simp only [if_true] at ht
        obtain ⟨ok, w, hw, ht⟩ := bind_eq_ok.1 ht
        cases ok with
        | false => cases ht
        | true =>
          have hresolves := fatMkdir_resolves hw
          rw [hud] at hresolves
          exact ⟨hcheck, hresolves⟩
    · obtain ⟨t, ht⟩ := pathCall_zero hres hm hcall hr
      unfold deleteFileAt at ht
      obtain ⟨b, u, hu, ht⟩ := bind_eq_ok.1 ht
      obtain ⟨hcheck, hud⟩ := reads_of_run (readOnly_sysCheckParentWritable _ _ _ _) hu
      cases b with
      | false => cases ht
      | true =>
        have hresolves := fatDeleteFile_resolves ht
        rw [hud] at hresolves
        exact ⟨hcheck, hresolves⟩
    · obtain ⟨n, t, ht⟩ := sysWriteFile_zero hres hm hcall hr
      exact writeFileAt_new hnew ht
  obtain ⟨hcheck, r', hr', hparent⟩ := hchecked
  exact grantsChange_of_checks hsub hcheck hr' hparent

/-! ## A path that is longer than the buffer -/

/-- "U…U/P/F" with 63 times U: the check sees the first segment only. -/
def longPath : List UInt8 := List.replicate 63 0x55 ++ [0x2F, 0x50, 0x2F, 0x46]

def longFs : FatFs := ⟨0, 1, 2, 1, 1, 4, 40, 1, 512, .fat16, 0, true⟩

/-- `U…U` is open to all, `U…U/P` is not. -/
def longDisk : Disk := Disk.ofSectors fun a =>
  if a = 3 then
    Sector.ofDirents [ownedDirent (List.replicate 8 0x55) 0x10 2 ⟨0o040777, 0, 0⟩]
  else if a = 4 then Sector.ofDirents [ownedDirent [0x50] 0x10 3 ⟨0o040755, 0, 0⟩]
  else if a = 5 then Sector.ofDirents [ownedDirent [0x46] 0x20 0 ⟨0o100644, 0, 0⟩]
  else Sector.zero

def longMachine : Kernel := machine openVmm longFs longDisk plainUser (0x2F :: longPath)

/-- A user deletes a file from a directory that grants no write permission. -/
theorem long_path_not_granted : ¬ ChangesGranted longPath := by
  intro h
  have hpath : longMachine.path 0x1000 = 0x2F :: longPath := by
    change Kernel.stringAt (stringMem 0x1000 (0x2F :: longPath)) (2 ^ 32) 0x1000 = _
    decide +kernel
  have hres : longMachine.vfs.vfsResolve (some (longMachine.path 0x1000)) =
      some (0, some longPath) := by
    rw [hpath]
    decide +kernel
  obtain ⟨r, hrun, hzero⟩ := exists_of_eaxOf (r := sysDeleteFile 4 longMachine 0x1000) (v := 0)
    (by decide +kernel)
  obtain ⟨res, e, -, -, hdir, hgrant⟩ := h 4 longMachine 0x1000 0 _ hres rfl
    ⟨r, hzero, .inr (.inl hrun)⟩
  have heval : evalOn (changedDir 4 longFs longPath) longDisk =
      some (some (3, ownedDirent [0x50] 0x10 3 ⟨0o040755, 0, 0⟩)) := by decide +kernel
  have he := hdir.unique (reads_of_evalOn (readOnly_walkDirs _ _ _ _) heval)
  simp only [Option.some.injEq, Prod.mk.injEq] at he
  rw [he.2] at hgrant
  revert hgrant
  decide +kernel


end HaoSys.Syscall
