import HaoSys.Fs.Fat

/-!
# What the lookups read

Every lookup of the driver leaves the device as it is, and what it returns
depends on the device alone: whatever it takes from the sector buffer it has
read into it before. So a lookup made twice on one device returns the same.
-/

namespace HaoSys.Fs

open HaoSys.Lib Prog

/-- On the device `d`, `x` returns `a`, whatever is in the buffer. -/
abbrev Reads {α : Type} (x : FatM α) (d : Disk) (a : α) : Prop := Gives FatState.disk x d a

/-- `x` only reads the device. -/
abbrev ReadOnly {α : Type} (x : FatM α) : Prop := Reader FatState.disk x

/-- `x` leaves the device. -/
def KeepsDisk {α : Type} (x : FatM α) : Prop := ∀ s a t, x s = .ok (a, t) → t.disk = s.disk

namespace KeepsDisk

variable {α β : Type} {x y : FatM α}

theorem of_readOnly (h : ReadOnly x) : KeepsDisk x := fun _ _ _ hx => (h.of_ok hx).2

theorem pure (a : α) : KeepsDisk (Pure.pure a) := of_readOnly (.pure a)

theorem bind {f : α → FatM β} (hx : KeepsDisk x) (hf : ∀ a, KeepsDisk (f a)) :
    KeepsDisk (x >>= f) := by
  intro s b u h
  obtain ⟨a, t, ht, hu⟩ := bind_eq_ok.1 h
  exact (hf a t b u hu).trans (hx s a t ht)

theorem ite {c : Prop} [Decidable c] (hx : c → KeepsDisk x) (hy : ¬ c → KeepsDisk y) :
    KeepsDisk (if c then x else y) := by
  split
  · next h => exact hx h
  · next h => exact hy h

theorem bufRead (o w : Nat) (f : Sector → α) : KeepsDisk (bufRead o w f) := by
  intro s a t h
  rw [Fs.bufRead] at h
  split at h
  · cases h
    rfl
  · cases h

end KeepsDisk

variable {α β : Type}

theorem Reads.unique {x : FatM α} {d : Disk} {a a' : α} (h : Reads x d a) (h' : Reads x d a') :
    a = a' :=
  Gives.unique (s := (⟨Sector.zero, d⟩ : FatState)) h h'

theorem Reads.bind_inv {x : FatM α} {f : α → FatM β} {d : Disk} {b : β} (hx : ReadOnly x)
    (hf : ∀ a, ReadOnly (f a)) (h : Reads (x >>= f) d b) : ∃ a, Reads x d a ∧ Reads (f a) d b :=
  Gives.bind_inv (s := (⟨Sector.zero, d⟩ : FatState)) hx hf h

theorem Reads.exists_bind_iff {x : FatM α} {f : α → FatM β} {d : Disk} {b : β} (hx : ReadOnly x)
    (hf : ∀ a, ReadOnly (f a)) : Reads (x >>= f) d b ↔ ∃ a, Reads x d a ∧ Reads (f a) d b :=
  ⟨fun h => h.bind_inv hx hf, fun ⟨_, ha, hb⟩ => ha.bind hb⟩

/-- Behind a first step with a known result, a composition reads what the second step reads. -/
theorem Reads.bind_iff {x : FatM α} {f : α → FatM β} {d : Disk} {a : α} {b : β} (hx : Reads x d a)
    (hf : ReadOnly (f a)) : Reads (x >>= f) d b ↔ Reads (f a) d b := by
  refine ⟨fun h => ?_, fun h => hx.bind h⟩
  obtain ⟨t, ht, hd⟩ := hx ⟨Sector.zero, d⟩ rfl
  obtain ⟨u, hu, -⟩ := h ⟨Sector.zero, d⟩ rfl
  rw [bind_of_ok ht] at hu
  have := (hf.of_ok hu).1
  rwa [hd] at this

theorem Reads.of_pure {d : Disk} {a a' : α} (h : Reads (pure a) d a') : a' = a :=
  h.unique (Gives.pure a)

theorem Reads.pure_iff {d : Disk} {a a' : α} : Reads (pure a) d a' ↔ a' = a :=
  ⟨Reads.of_pure, fun h => by rw [h]; exact Gives.pure a⟩

/-! ## Reading a sector and then the buffer -/

theorem fatDevRead_of_readable {fs : FatFs} {lba : UInt32} {s : FatState}
    (h : s.disk.readable (fs.baseLba + lba) = true) :
    fatDevRead fs lba s = .ok (true, ⟨s.disk.sector (fs.baseLba + lba), s.disk⟩) := by
  rw [fatDevRead, if_pos h]

theorem fatDevRead_of_not {fs : FatFs} {lba : UInt32} {s : FatState}
    (h : ¬ s.disk.readable (fs.baseLba + lba) = true) : fatDevRead fs lba s = .ok (false, s) := by
  rw [fatDevRead, if_neg h]

theorem bufRead_run {o w : Nat} (h : o + w ≤ 512) (f : Sector → α) (s : FatState) :
    bufRead o w f s = .ok (f s.buf, s) := by
  rw [bufRead, if_pos h]

theorem bufWrite_run {o w : Nat} (h : o + w ≤ 512) (f : Sector → Sector) (s : FatState) :
    bufWrite o w f s = .ok ((), { s with buf := f s.buf }) := by
  rw [bufWrite, if_pos h]

/-- What follows a successful read of a sector sees that sector in the buffer. -/
theorem reads_sector {fs : FatFs} {lba : UInt32} {d : Disk} {f : Bool → FatM α} {a : α}
    (hr : d.readable (fs.baseLba + lba) = true)
    (hf : ∃ t, f true ⟨d.sector (fs.baseLba + lba), d⟩ = .ok (a, t) ∧ t.disk = d) :
    Reads (fatDevRead fs lba >>= f) d a := by
  rintro ⟨b, d⟩ rfl
  rw [bind_of_ok (fatDevRead_of_readable hr)]
  exact hf

/-- A read that is followed by a look at the buffer only where it succeeded is read-only. -/
theorem readOnly_sector {fs : FatFs} {lba : UInt32} {x y : FatM α} (hx : KeepsDisk x)
    (hy : ReadOnly y) :
    ReadOnly (do if ← fatDevRead fs lba then x else y) := by
  intro d
  by_cases hr : d.readable (fs.baseLba + lba) = true
  · cases hrun : x ⟨d.sector (fs.baseLba + lba), d⟩ with
    | error e =>
      refine .inr ⟨e, ?_⟩
      rintro ⟨b, d⟩ rfl
      rw [bind_of_ok (fatDevRead_of_readable hr)]
      exact hrun
    | ok r =>
      obtain ⟨a, t⟩ := r
      exact .inl ⟨a, reads_sector hr ⟨t, hrun, hx _ _ _ hrun⟩⟩
  · obtain ⟨a, ha⟩ | ⟨e, he⟩ := hy d
    · refine .inl ⟨a, ?_⟩
      rintro ⟨b, d⟩ rfl
      rw [bind_of_ok (fatDevRead_of_not hr)]
      exact ha _ rfl
    · refine .inr ⟨e, ?_⟩
      rintro ⟨b, d⟩ rfl
      rw [bind_of_ok (fatDevRead_of_not hr)]
      exact he _ rfl

/-- The result of a computation, from an empty buffer. -/
def evalOn (x : FatM α) (d : Disk) : Option α :=
  match x ⟨Sector.zero, d⟩ with
  | .ok (a, _) => some a
  | .error _ => none

theorem reads_of_evalOn {x : FatM α} {d : Disk} {a : α} (hx : ReadOnly x)
    (h : evalOn x d = some a) : Reads x d a := by
  unfold evalOn at h
  split at h
  · next b t hrun =>
    cases h
    exact (hx.of_ok hrun).1
  · cases h

/-! ## The lookups -/

theorem readOnly_udiv (a b : UInt32) : ReadOnly (udiv a b) := by
  rw [udiv]
  exact .ite (fun _ => .fault _) fun _ => .pure _

theorem readOnly_maxCluster (fs : FatFs) : ReadOnly (maxCluster fs) :=
  .bind (readOnly_udiv _ _) fun _ => .pure _

theorem readOnly_fatPlace (fs : FatFs) (off : UInt32) : ReadOnly (fatPlace fs off) :=
  .bind (readOnly_udiv _ _) fun _ => .pure _

theorem readOnly_readFatEntry (fs : FatFs) (c : UInt32) : ReadOnly (readFatEntry fs c) := by
  unfold readFatEntry
  split
  · refine .bind (readOnly_fatPlace fs _) fun p => .ite (fun _ => ?_) fun _ => ?_
    · exact readOnly_sector (.bind (.bufRead _ _ _) fun _ => .pure _) (.pure _)
    · refine readOnly_sector (.bind (.bufRead _ _ _) fun _ => .of_readOnly ?_) (.pure _)
      exact readOnly_sector (.bind (.bufRead _ _ _) fun _ => .pure _) (.pure _)
  · exact .bind (readOnly_fatPlace fs _) fun p => readOnly_sector (.bufRead _ _ _) (.pure _)
  · exact .bind (readOnly_fatPlace fs _) fun p => readOnly_sector (.bufRead _ _ _) (.pure _)
  · exact .pure _

theorem keepsDisk_readDirEntries (m : UInt32) :
    ∀ (n i : Nat) (acc : List Dirent), KeepsDisk (readDirEntries m n i acc)
  | 0, _, _ => .pure _
  | n + 1, i, acc => by
    rw [readDirEntries]
    refine .ite (fun _ => .bind (.bufRead _ _ _) fun e => ?_) fun _ => .pure _
    refine .ite (fun _ => .pure _) fun _ => .ite (fun _ => ?_) fun _ => ?_
    · exact keepsDisk_readDirEntries m n (i + 1) acc
    · exact keepsDisk_readDirEntries m n (i + 1) (acc ++ [e])

theorem readOnly_readDirSectors (fs : FatFs) (m : UInt32) :
    ∀ (n : Nat) (lba : UInt32) (acc : List Dirent), ReadOnly (readDirSectors fs m n lba acc)
  | 0, _, _ => .pure _
  | n + 1, lba, acc => by
    rw [readDirSectors]
    refine readOnly_sector (.bind (keepsDisk_readDirEntries m _ _ _) fun r => ?_) (.pure _)
    exact .ite (fun _ => .pure _) fun _ => .of_readOnly (readOnly_readDirSectors fs m n _ _)

theorem readOnly_readDirClusters (fs : FatFs) (m : UInt32) :
    ∀ (fuel : Nat) (c : UInt32) (acc : List Dirent), ReadOnly (readDirClusters fs m fuel c acc)
  | 0, _, _ => .fault _
  | fuel + 1, c, acc => by
    rw [readDirClusters]
    refine .ite (fun _ => .pure _) fun _ => .bind (readOnly_readDirSectors fs m _ _ _) fun r => ?_
    refine .ite (fun _ => .pure _) fun _ => .bind (readOnly_readFatEntry fs c) fun next => ?_
    exact .ite (fun _ => .pure _) fun _ => readOnly_readDirClusters fs m fuel next r.2

theorem readOnly_fatReadDir (fuel : Nat) (fs : FatFs) (dir m : UInt32) :
    ReadOnly (fatReadDir fuel fs dir m) :=
  .ite (fun _ => .pure _) fun _ => readOnly_readDirClusters fs m fuel _ _

theorem readOnly_dirFindName (fuel : Nat) (fs : FatFs) (dir : UInt32) (name : Name83) :
    ReadOnly (dirFindName fuel fs dir name) :=
  .bind (readOnly_fatReadDir fuel fs dir 128) fun _ => .pure _

theorem keepsDisk_findSlotEntries (name : Name83) (lba : UInt32) :
    ∀ (n i : Nat), KeepsDisk (findSlotEntries name lba n i)
  | 0, _ => .pure _
  | n + 1, i => by
    rw [findSlotEntries]
    refine .bind (.bufRead _ _ _) fun e => .ite (fun _ => .pure _) fun _ => ?_
    exact .ite (fun _ => .pure _) fun _ => keepsDisk_findSlotEntries name lba n (i + 1)

theorem readOnly_findSlotSectors (fs : FatFs) (name : Name83) :
    ∀ (n : Nat) (lba : UInt32), ReadOnly (findSlotSectors fs name n lba)
  | 0, _ => .pure _
  | n + 1, lba => by
    rw [findSlotSectors]
    refine readOnly_sector (.bind (keepsDisk_findSlotEntries name lba _ _) fun r => ?_) (.pure _)
    cases r with
    | full => exact .of_readOnly (readOnly_findSlotSectors fs name n (lba + 1))
    | sameName l o => exact .pure _
    | free l o => exact .pure _

theorem readOnly_findSlotClusters (fs : FatFs) (name : Name83) :
    ∀ (fuel : Nat) (c : UInt32), ReadOnly (findSlotClusters fs name fuel c)
  | 0, _ => .fault _
  | fuel + 1, c => by
    rw [findSlotClusters]
    refine .ite (fun _ => .pure _) fun _ => .bind (readOnly_findSlotSectors fs name _ _) fun r => ?_
    cases r with
    | some slot => exact .pure _
    | none =>
      refine .ite (fun _ => .pure _) fun _ => .bind (readOnly_readFatEntry fs c) fun next => ?_
      exact .ite (fun _ => .pure _) fun _ => readOnly_findSlotClusters fs name fuel next

theorem readOnly_dirFindSlot (fuel : Nat) (fs : FatFs) (dir : UInt32) (name : Name83) :
    ReadOnly (dirFindSlot fuel fs dir name) :=
  readOnly_findSlotClusters fs name fuel _

theorem readOnly_resolveParentLoop (fuel : Nat) (fs : FatFs) :
    ∀ (path : List UInt8) (cur : UInt32) (seg : Option (List UInt8)),
      ReadOnly (resolveParentLoop fuel fs path cur seg)
  | [], _, none => .pure _
  | [], cur, some seg => .bind (readOnly_dirFindName fuel fs cur _) fun _ => .pure _
  | c :: rest, cur, none => by
    rw [resolveParentLoop]
    exact .ite (fun _ => readOnly_resolveParentLoop fuel fs rest cur none)
      fun _ => readOnly_resolveParentLoop fuel fs rest cur _
  | c :: rest, cur, some seg => by
    rw [resolveParentLoop]
    refine .ite (fun _ => .bind (readOnly_dirFindName fuel fs cur _) fun e => ?_)
      fun _ => readOnly_resolveParentLoop fuel fs rest cur _
    cases e with
    | none => exact .pure _
    | some e =>
      exact .ite (fun _ => readOnly_resolveParentLoop fuel fs rest e.firstCluster none)
        fun _ => .pure _

theorem readOnly_fatResolveParent (fuel : Nat) (fs : FatFs) (path : Option (List UInt8)) :
    ReadOnly (fatResolveParent fuel fs path) := by
  cases path with
  | none => exact .pure _
  | some path => exact readOnly_resolveParentLoop fuel fs path 0 none

theorem readOnly_fatFindFile (fuel : Nat) (fs : FatFs) (path : Option (List UInt8)) :
    ReadOnly (fatFindFile fuel fs path) :=
  .ite (fun _ => .pure _) fun _ => .bind (readOnly_fatResolveParent fuel fs path) fun _ =>
    .ite (fun _ => .pure _) fun _ => .pure _

theorem readOnly_findFree (fs : FatFs) : ∀ (n : Nat) (c : UInt32), ReadOnly (findFree fs n c)
  | 0, _ => .pure _
  | n + 1, c => .bind (readOnly_readFatEntry fs c) fun _ =>
    .ite (fun _ => .pure _) fun _ => readOnly_findFree fs n (c + 1)

end HaoSys.Fs
