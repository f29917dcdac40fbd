import HaoSys.Fs.Total

/-!
# The operations stay inside the buffer

On an instance with 512-byte sectors and at least one sector a cluster, no
operation divides by zero or indexes outside `sector_buffer`, whatever the
device holds and however it fails: the only fault left is a loop that does not
end.
-/

namespace HaoSys.Fs

open HaoSys.Lib Prog

/-- `x` returns a value with `Q`, or does not return. -/
def Safe {α : Type} (x : FatM α) (Q : α → Prop) : Prop :=
  Triple (fun e => e = .noReturn) (fun _ => True) x fun a _ => Q a

/-- The geometry the buffer accesses rest on. -/
structure FatFs.Sized (fs : FatFs) : Prop where
  sector : fs.bytesPerSector = 512
  cluster : fs.sectorsPerCluster ≠ 0
  clusterLe : fs.sectorsPerCluster.toNat < 256

namespace Safe

variable {α β : Type} {x : FatM α} {Q : α → Prop}

theorem pure {a : α} (h : Q a) : Safe (Pure.pure a) Q := Triple.pure fun _ _ => h

theorem noReturn : Safe (Prog.fault .noReturn : FatM α) Q := Triple.fault rfl

theorem bind {f : α → FatM β} {R : β → Prop} (hx : Safe x Q) (hf : ∀ a, Q a → Safe (f a) R) :
    Safe (x >>= f) R :=
  Triple.bind hx fun a s hQ => hf a hQ s trivial

theorem ite {c : Prop} [Decidable c] {y : FatM α} (h1 : c → Safe x Q) (h2 : ¬ c → Safe y Q) :
    Safe (if c then x else y) Q := Triple.ite h1 h2

theorem of_total (h : Total x Q) : Safe x Q := Triple.of_faults h fun _ => False.elim

end Safe

variable {fs : FatFs}

/-! ## Accesses -/

theorem safe_fatDevRead (fs : FatFs) (lba : UInt32) : Safe (fatDevRead fs lba) fun _ => True :=
  .of_total (total_fatDevRead fs lba)

theorem safe_fatDevWrite (fs : FatFs) (lba : UInt32) : Safe (fatDevWrite fs lba) fun _ => True :=
  .of_total (total_fatDevWrite fs lba)

theorem safe_bufRead {α : Type} {o w : Nat} (h : o + w ≤ 512) (f : Sector → α) :
    Safe (bufRead o w f) fun _ => True :=
  .of_total (total_bufRead h f)

theorem safe_bufWrite {o w : Nat} (h : o + w ≤ 512) (f : Sector → Sector) :
    Safe (bufWrite o w f) fun _ => True :=
  .of_total (total_bufWrite h f)

theorem safe_udiv {a b : UInt32} (h : b ≠ 0) : Safe (udiv a b) fun q => q = a / b :=
  .of_total (total_udiv h)

theorem FatFs.Sized.toNat (h : fs.Sized) : fs.bytesPerSector.toNat = 512 :=
  toNat_of_bytesPerSector h.sector

theorem safe_readFatEntry (h : fs.Sized) (c : UInt32) : Safe (readFatEntry fs c) fun _ => True :=
  .of_total (total_readFatEntry h.sector c)

theorem safe_maxCluster (h : fs.Sized) : Safe (maxCluster fs) fun _ => True :=
  .bind (safe_udiv h.cluster) fun _ _ => .pure trivial

/-! ## Directories -/

theorem FatFs.Sized.perSector (h : fs.Sized) : (fs.bytesPerSector / 32).toNat = 16 := by
  rw [h.sector]
  rfl

theorem safe_readDirEntries (maxEntries : UInt32) :
    ∀ {n i : Nat} {acc : List Dirent}, n + i ≤ 16 →
      Safe (readDirEntries maxEntries n i acc) fun _ => True
  | 0, _, _, _ => .pure trivial
  | n + 1, i, acc, hn => by
    rw [readDirEntries]
    refine .ite (fun _ => ?_) fun _ => .pure trivial
    refine .bind (safe_bufRead (by omega) _) fun e _ => ?_
    refine .ite (fun _ => .pure trivial) fun _ => ?_
    exact .ite (fun _ => safe_readDirEntries maxEntries (by omega))
      fun _ => safe_readDirEntries maxEntries (by omega)

theorem safe_readDirSectors (h : fs.Sized) (maxEntries : UInt32) :
    ∀ {n : Nat} {lba : UInt32} {acc : List Dirent},
      Safe (readDirSectors fs maxEntries n lba acc) fun _ => True
  | 0, _, _ => .pure trivial
  | n + 1, lba, acc => by
    rw [readDirSectors]
    refine .bind (safe_fatDevRead fs lba) fun ok _ => .ite (fun _ => ?_) fun _ => .pure trivial
    refine .bind (safe_readDirEntries maxEntries (by rw [h.perSector])) fun r _ => ?_
    exact .ite (fun _ => .pure trivial) fun _ => safe_readDirSectors h maxEntries

theorem safe_readDirClusters (h : fs.Sized) (maxEntries : UInt32) :
    ∀ {fuel : Nat} {c : UInt32} {acc : List Dirent},
      Safe (readDirClusters fs maxEntries fuel c acc) fun _ => True
  | 0, _, _ => .noReturn
  | fuel + 1, c, acc => by
    rw [readDirClusters]
    refine .ite (fun _ => .pure trivial) fun _ => ?_
    refine .bind (safe_readDirSectors h maxEntries) fun r _ => ?_
    refine .ite (fun _ => .pure trivial) fun _ => ?_
    refine .bind (safe_readFatEntry h c) fun next _ => ?_
    exact .ite (fun _ => .pure trivial) fun _ => safe_readDirClusters h maxEntries

theorem safe_fatReadDir (h : fs.Sized) (fuel : Nat) (c maxEntries : UInt32) :
    Safe (fatReadDir fuel fs c maxEntries) fun _ => True :=
  .ite (fun _ => .pure trivial) fun _ => safe_readDirClusters h maxEntries

theorem safe_dirFindName (h : fs.Sized) (fuel : Nat) (c : UInt32) (name83 : Name83) :
    Safe (dirFindName fuel fs c name83) fun _ => True :=
  .bind (safe_fatReadDir h fuel c 128) fun _ _ => .pure trivial

/-- The offset a slot names leaves room for an entry. -/
def Slot.InSector : Slot → Prop
  | .full => True
  | .sameName _ o => o.toNat + 32 ≤ 512
  | .free _ o => o.toNat + 32 ≤ 512

theorem safe_findSlotEntries (name83 : Name83) (lba : UInt32) :
    ∀ {n i : Nat}, n + i ≤ 16 → Safe (findSlotEntries name83 lba n i) Slot.InSector
  | 0, _, _ => .pure trivial
  | n + 1, i, hn => by
    have hoff : (UInt32.ofNat (32 * i)).toNat + 32 ≤ 512 := by
      rw [UInt32.toNat_ofNat']
      omega
    rw [findSlotEntries]
    refine .bind (safe_bufRead (by omega) _) fun e _ => ?_
    refine .ite (fun _ => .pure hoff) fun _ => ?_
    exact .ite (fun _ => .pure hoff) fun _ => safe_findSlotEntries name83 lba (by omega)

theorem safe_findSlotSectors (h : fs.Sized) (name83 : Name83) :
    ∀ {n : Nat} {lba : UInt32},
      Safe (findSlotSectors fs name83 n lba) fun r => ∀ slot ∈ r, slot.InSector
  | 0, _ => .pure (by simp)
  | n + 1, lba => by
    rw [findSlotSectors]
    refine .bind (safe_fatDevRead fs lba) fun ok _ => .ite (fun _ => ?_)
      fun _ => .pure (by simp [Slot.InSector])
    refine .bind (safe_findSlotEntries name83 lba (by rw [h.perSector])) fun slot hslot => ?_
    cases slot with
    | full => exact safe_findSlotSectors h name83
    | sameName l o => exact .pure (by simpa using hslot)
    | free l o => exact .pure (by simpa using hslot)

theorem safe_findSlotClusters (h : fs.Sized) (name83 : Name83) :
    ∀ {fuel : Nat} {c : UInt32}, Safe (findSlotClusters fs name83 fuel c) Slot.InSector
  | 0, _ => .noReturn
  | fuel + 1, c => by
    rw [findSlotClusters]
    refine .ite (fun _ => .pure trivial) fun _ => ?_
    refine .bind (safe_findSlotSectors h name83) fun r hr => ?_
    cases r with
    | some slot => exact .pure (hr slot rfl)
    | none =>
      refine .ite (fun _ => .pure trivial) fun _ => ?_
      refine .bind (safe_readFatEntry h c) fun next _ => ?_
      exact .ite (fun _ => .pure trivial) fun _ => safe_findSlotClusters h name83

theorem safe_dirFindSlot (h : fs.Sized) (fuel : Nat) (c : UInt32) (name83 : Name83) :
    Safe (dirFindSlot fuel fs c name83) Slot.InSector := safe_findSlotClusters h name83

theorem safe_chainTail (h : fs.Sized) :
    ∀ {n : Nat} {c : UInt32}, Safe (chainTail fs n c) fun _ => True
  | 0, _ => .pure trivial
  | n + 1, c => by
    rw [chainTail]
    refine .ite (fun _ => ?_) fun _ => .pure trivial
    refine .bind (safe_readFatEntry h c) fun next _ => ?_
    exact .ite (fun _ => .pure trivial) fun _ => safe_chainTail h

theorem safe_findFree (h : fs.Sized) :
    ∀ {n : Nat} {c : UInt32}, Safe (findFree fs n c) fun _ => True
  | 0, _ => .pure trivial
  | n + 1, c => by
    rw [findFree]
    refine .bind (safe_readFatEntry h c) fun v _ => ?_
    exact .ite (fun _ => .pure trivial) fun _ => safe_findFree h

theorem safe_clearBuf (h : fs.Sized) : Safe (clearBuf fs) fun _ => True :=
  safe_bufWrite (by rw [h.toNat]) _

theorem safe_zeroSectors (h : fs.Sized) :
    ∀ {n : Nat} {lba : UInt32}, Safe (zeroSectors fs n lba) fun _ => True
  | 0, _ => .pure trivial
  | n + 1, lba => by
    rw [zeroSectors]
    refine .bind (safe_clearBuf h) fun _ _ => ?_
    exact .bind (safe_fatDevWrite fs lba) fun _ _ => safe_zeroSectors h

/-! ## Paths -/

theorem safe_resolveParentLoop (h : fs.Sized) (fuel : Nat) :
    ∀ {path : List UInt8} {cur : UInt32} {seg : Option (List UInt8)},
      Safe (resolveParentLoop fuel fs path cur seg) fun _ => True
  | [], _, none => .pure trivial
  | [], cur, some seg => .bind (safe_dirFindName h fuel cur _) fun _ _ => .pure trivial
  | c :: rest, cur, seg => by
    cases seg with
    | none =>
      rw [resolveParentLoop]
      exact .ite (fun _ => safe_resolveParentLoop h fuel) fun _ => safe_resolveParentLoop h fuel
    | some seg =>
      rw [resolveParentLoop]
      refine .ite (fun _ => ?_) fun _ => safe_resolveParentLoop h fuel
      refine .bind (safe_dirFindName h fuel cur _) fun r _ => ?_
      cases r with
      | none => exact .pure trivial
      | some e => exact .ite (fun _ => safe_resolveParentLoop h fuel) fun _ => .pure trivial

theorem safe_fatResolveParent (h : fs.Sized) (fuel : Nat) (path : Option (List UInt8)) :
    Safe (fatResolveParent fuel fs path) fun _ => True := by
  cases path with
  | none => exact .pure trivial
  | some path => exact safe_resolveParentLoop h fuel

theorem safe_openDirLoop (h : fs.Sized) (fuel : Nat) :
    ∀ {path : List UInt8} {cur : UInt32} {seg : Option (List UInt8)},
      Safe (openDirLoop fuel fs path cur seg) fun _ => True
  | [], _, none => .pure trivial
  | [], cur, some seg => by
    refine .bind (safe_dirFindName h fuel cur _) fun r _ => ?_
    cases r with
    | none => exact .pure trivial
    | some e => exact .ite (fun _ => .pure trivial) fun _ => .pure trivial
  | c :: rest, cur, seg => by
    cases seg with
    | none =>
      rw [openDirLoop]
      exact .ite (fun _ => safe_openDirLoop h fuel) fun _ => safe_openDirLoop h fuel
    | some seg =>
      rw [openDirLoop]
      refine .ite (fun _ => ?_) fun _ => safe_openDirLoop h fuel
      refine .bind (safe_dirFindName h fuel cur _) fun r _ => ?_
      cases r with
      | none => exact .pure trivial
      | some e => exact .ite (fun _ => safe_openDirLoop h fuel) fun _ => .pure trivial

theorem safe_fatOpenDir (h : fs.Sized) (fuel : Nat) (path : Option (List UInt8)) :
    Safe (fatOpenDir fuel fs path) fun _ => True := safe_openDirLoop h fuel

theorem safe_fatFindFile (h : fs.Sized) (fuel : Nat) (path : Option (List UInt8)) :
    Safe (fatFindFile fuel fs path) fun _ => True := by
  refine .ite (fun _ => .pure trivial) fun _ => ?_
  refine .bind (safe_fatResolveParent h fuel path) fun r _ => ?_
  exact .ite (fun _ => .pure trivial) fun _ => .pure trivial

theorem safe_fatSetFileMeta (h : fs.Sized) (fuel : Nat) (path : Option (List UInt8))
    (m : UnixMeta) : Safe (fatSetFileMeta fuel fs path m) fun _ => True := by
  refine .ite (fun _ => .pure trivial) fun _ => ?_
  refine .bind (safe_fatResolveParent h fuel path) fun r _ => ?_
  refine .ite (fun _ => .pure trivial) fun _ => ?_
  refine .bind (safe_dirFindSlot h fuel _ _) fun slot hslot => ?_
  cases slot with
  | full => exact .pure trivial
  | free lba o => exact .pure trivial
  | sameName lba o =>
    refine .bind (safe_fatDevRead fs lba) fun ok _ => .ite (fun _ => ?_) fun _ => .pure trivial
    exact .bind (safe_bufWrite hslot _) fun _ _ => safe_fatDevWrite fs lba

/-! ## Files -/

theorem safe_loadSectors (h : fs.Sized) :
    ∀ {n : Nat} {lba : UInt32} {acc : List UInt8} {remaining : UInt32},
      Safe (loadSectors fs n lba acc remaining) fun _ => True
  | 0, _, _, _ => .pure trivial
  | n + 1, lba, acc, remaining => by
    rw [loadSectors]
    refine .ite (fun _ => ?_) fun _ => .pure trivial
    refine .bind (safe_fatDevRead fs lba) fun ok _ => .ite (fun _ => ?_) fun _ => .pure trivial
    refine .bind (safe_bufRead ?_ _) fun _ _ => safe_loadSectors h
    split
    · next hlt =>
      have := UInt32.lt_iff_toNat_lt.1 hlt
      rw [h.toNat] at this
      omega
    · rw [h.toNat]

theorem safe_loadClusters (h : fs.Sized) :
    ∀ {fuel : Nat} {c : UInt32} {acc : List UInt8} {remaining : UInt32},
      Safe (loadClusters fs fuel c acc remaining) fun _ => True
  | 0, _, _, _ => .noReturn
  | fuel + 1, c, acc, remaining => by
    rw [loadClusters]
    refine .ite (fun _ => ?_) fun _ => .pure trivial
    refine .bind (safe_loadSectors h) fun r _ => ?_
    refine .ite (fun _ => ?_) fun _ => .pure trivial
    refine .bind (safe_readFatEntry h c) fun next _ => ?_
    exact .ite (fun _ => .pure trivial) fun _ => safe_loadClusters h

theorem safe_fatLoadFile (h : fs.Sized) (fuel : Nat) (e : Dirent) (maxSize : UInt32) :
    Safe (fatLoadFile fuel fs e maxSize) fun _ => True := by
  refine .ite (fun _ => .pure trivial) fun _ => ?_
  exact .ite (fun _ => .pure trivial) fun _ => safe_loadClusters h

theorem safe_loadOffSectors (h : fs.Sized) :
    ∀ {n : Nat} {lba : UInt32} {acc : List UInt8} {remaining skip : UInt32},
      Safe (loadOffSectors fs n lba acc remaining skip) fun _ => True
  | 0, _, _, _, _ => .pure trivial
  | n + 1, lba, acc, remaining, skip => by
    rw [loadOffSectors]
    refine .ite (fun _ => ?_) fun _ => .pure trivial
    refine .bind (safe_fatDevRead fs lba) fun ok _ => .ite (fun _ => ?_) fun _ => .pure trivial
    refine .ite (fun _ => safe_loadOffSectors h) fun hskip => ?_
    refine .bind (safe_bufRead ?_ _) fun _ _ => safe_loadOffSectors h
    -- less than a sector is skipped, and no more than the rest of it is copied
    have hlt : skip.toNat < 512 := by
      by_contra hge
      refine hskip ⟨UInt32.lt_iff_toNat_lt.2 ?_, UInt32.le_iff_toNat_le.2 ?_⟩
      · rw [UInt32.toNat_zero]; omega
      · rw [h.toNat]; omega
    have havail : (fs.bytesPerSector - skip).toNat = 512 - skip.toNat := by
      rw [UInt32.toNat_sub_of_le _ _ (UInt32.le_iff_toNat_le.2 (by rw [h.toNat]; omega)), h.toNat]
    split
    · next hc =>
      have := UInt32.lt_iff_toNat_lt.1 hc
      omega
    · omega

theorem safe_loadOffClusters (h : fs.Sized) :
    ∀ {fuel : Nat} {c : UInt32} {acc : List UInt8} {remaining skip : UInt32},
      Safe (loadOffClusters fs fuel c acc remaining skip) fun _ => True
  | 0, _, _, _, _ => .noReturn
  | fuel + 1, c, acc, remaining, skip => by
    rw [loadOffClusters]
    refine .ite (fun _ => ?_) fun _ => .pure trivial
    refine .bind (safe_loadOffSectors h) fun r _ => ?_
    refine .ite (fun _ => ?_) fun _ => .pure trivial
    refine .bind (safe_readFatEntry h c) fun next _ => ?_
    exact .ite (fun _ => .pure trivial) fun _ => safe_loadOffClusters h

theorem safe_fatLoadFileOff (h : fs.Sized) (fuel : Nat) (e : Dirent) (offset maxSize : UInt32) :
    Safe (fatLoadFileOff fuel fs e offset maxSize) fun _ => True := by
  refine .ite (fun _ => .pure trivial) fun _ => ?_
  exact .ite (fun _ => .pure trivial) fun _ => safe_loadOffClusters h

theorem safe_fillBuf (h : fs.Sized) {bytes : List UInt8} (hlen : bytes.length ≤ 512) :
    Safe (fillBuf fs bytes) fun _ => True :=
  .bind (safe_clearBuf h) fun _ _ => safe_bufWrite (by omega) _

theorem safe_writeSectors (h : fs.Sized) :
    ∀ {n : Nat} {lba : UInt32} {data : List UInt8},
      Safe (writeSectors fs n lba data) fun _ => True
  | 0, _, _ => .pure trivial
  | n + 1, lba, data => by
    rw [writeSectors]
    refine .ite (fun _ => .pure trivial) fun _ => ?_
    refine .bind (safe_fillBuf h ?_) fun _ _ => ?_
    · rw [h.toNat, List.length_take]
      omega
    · exact .bind (safe_fatDevWrite fs lba) fun ok _ =>
        .ite (fun _ => safe_writeSectors h) fun _ => .pure trivial

theorem safe_writeClusters (h : fs.Sized) :
    ∀ {fuel : Nat} {c : UInt32} {data : List UInt8},
      Safe (writeClusters fs fuel c data) fun _ => True
  | 0, _, _ => .noReturn
  | fuel + 1, c, data => by
    rw [writeClusters]
    refine .ite (fun _ => ?_) fun _ => .pure trivial
    refine .bind (safe_writeSectors h) fun r _ => ?_
    refine .ite (fun _ => ?_) fun _ => .pure trivial
    refine .bind (safe_readFatEntry h c) fun next _ => ?_
    exact .ite (fun _ => .pure trivial) fun _ => safe_writeClusters h

theorem safe_storeDirent {lba o : UInt32} (ho : o.toNat + 32 ≤ 512) (e : Dirent) :
    Safe (storeDirent fs lba o e) fun _ => True := by
  refine .bind (safe_fatDevRead fs lba) fun ok _ => .ite (fun _ => ?_) fun _ => .pure trivial
  exact .bind (safe_bufWrite ho _) fun _ _ => safe_fatDevWrite fs lba

theorem FatFs.Sized.clusterBytes_ne_zero (h : fs.Sized) :
    fs.sectorsPerCluster * fs.bytesPerSector ≠ 0 := fun hz => by
  have hmul := congrArg UInt32.toNat hz
  have := h.clusterLe
  rw [UInt32.toNat_mul, h.toNat, UInt32.toNat_zero] at hmul
  exact h.cluster (UInt32.toNat_inj.1 (by rw [UInt32.toNat_zero]; omega))

/-! ## Changing the volume -/

section Changes

variable [BehindBuffer] (hw : ∀ c v, Total (writeFatEntry fs c v) fun _ => True)

include hw

theorem safe_dirExtend (h : fs.Sized) (c : UInt32) : Safe (dirExtend fs c) fun _ => True := by
  refine .bind (safe_chainTail h) fun tail _ => ?_
  refine .ite (fun _ => .pure trivial) fun _ => ?_
  refine .bind (safe_maxCluster h) fun maxC _ => ?_
  refine .bind (safe_findFree h) fun r _ => ?_
  cases r with
  | none => exact .pure trivial
  | some c =>
    refine .bind (.of_total (hw _ _)) fun _ _ => ?_
    refine .bind (.of_total (hw _ _)) fun _ _ => ?_
    exact .bind (safe_zeroSectors h) fun _ _ => .pure trivial

theorem safe_freeChainLoop (h : fs.Sized) {n : Nat} {c : UInt32} :
    Safe (freeChainLoop fs n c) fun _ => True :=
  .of_total (total_freeChainLoop h.sector hw)

theorem safe_freeChainFrom (h : fs.Sized) (c : UInt32) : Safe (freeChainFrom fs c) fun _ => True :=
  .of_total (total_freeChainFrom h.sector hw c)

theorem safe_fatDeleteFile (h : fs.Sized) (fuel : Nat) (path : Option (List UInt8)) :
    Safe (fatDeleteFile fuel fs path) fun _ => True := by
  refine .ite (fun _ => .pure trivial) fun _ => ?_
  refine .bind (safe_fatResolveParent h fuel path) fun r _ => ?_
  refine .ite (fun _ => .pure trivial) fun _ => ?_
  refine .bind (safe_dirFindSlot h fuel _ _) fun slot hslot => ?_
  cases slot with
  | full => exact .pure trivial
  | free lba o => exact .pure trivial
  | sameName lba o =>
    refine .bind (safe_fatDevRead fs lba) fun ok _ => .ite (fun _ => ?_) fun _ => .pure trivial
    refine .bind (safe_bufRead hslot _) fun e _ => ?_
    refine .bind (.ite (fun _ => safe_fatReadDir h fuel _ _) fun _ => .pure trivial) fun inside _ => ?_
    refine .ite (fun _ => .pure trivial) fun _ => ?_
    refine .bind (safe_fatDevRead fs lba) fun ok _ => .ite (fun _ => ?_) fun _ => .pure trivial
    refine .bind (safe_bufWrite hslot _) fun _ _ => ?_
    refine .bind (safe_fatDevWrite fs lba) fun ok _ => .ite (fun _ => ?_) fun _ => .pure trivial
    exact .bind (safe_freeChainFrom hw h _) fun _ _ => .pure trivial

theorem safe_linkPrev (prev value : UInt32) :
    Safe (linkPrev fs prev value) fun _ => True :=
  .ite (fun _ => .of_total (hw _ _)) fun _ => .pure trivial

theorem safe_allocLoop (h : fs.Sized) (needed : UInt32) :
    ∀ {n : Nat} {c : UInt32} {a : Alloc}, Safe (allocLoop fs needed n c a) fun _ => True
  | 0, _, _ => .pure trivial
  | n + 1, c, a => by
    rw [allocLoop]
    refine .ite (fun _ => ?_) fun _ => .pure trivial
    refine .bind (safe_readFatEntry h c) fun v _ => ?_
    refine .ite (fun _ => ?_) fun _ => safe_allocLoop h needed
    exact .bind (safe_linkPrev hw _ _) fun _ _ => safe_allocLoop h needed

theorem safe_writeTarget (h : fs.Sized) (fuel : Nat) (r : Resolved) :
    Safe (writeTarget fuel fs r) fun t => ∀ x ∈ t, x.offset.toNat + 32 ≤ 512 := by
  refine .bind (safe_dirFindSlot h fuel _ _) fun slot hslot => ?_
  cases slot with
  | full =>
    refine .ite (fun _ => .pure (by simp)) fun _ => ?_
    refine .bind (safe_dirExtend hw h _) fun r _ => ?_
    cases r with
    | none => exact .pure (by simp)
    | some lba => exact .pure (by simp)
  | free lba o => exact .pure (fun x hx => by cases hx; exact hslot)
  | sameName lba o =>
    refine .bind (safe_fatDevRead fs lba) fun ok _ => .ite (fun _ => ?_) fun _ => .pure (by simp)
    refine .bind (safe_bufRead hslot _) fun e _ => ?_
    exact .ite (fun _ => .pure (by simp)) fun _ => .pure (fun x hx => by cases hx; exact hslot)

theorem safe_fatWriteFileImpl (h : fs.Sized) (fuel : Nat) (path : Option (List UInt8))
    (data : List UInt8) : Safe (fatWriteFileImpl fuel fs path data) fun _ => True := by
  refine .ite (fun _ => .pure trivial) fun _ => ?_
  refine .bind (safe_fatResolveParent h fuel path) fun r _ => ?_
  refine .ite (fun _ => .pure trivial) fun _ => ?_
  refine .bind (safe_maxCluster h) fun maxC _ => ?_
  refine .bind (safe_writeTarget hw h fuel r) fun t ht => ?_
  cases t with
  | none => exact .pure trivial
  | some target =>
    refine .bind (safe_udiv h.clusterBytes_ne_zero) fun needed _ => ?_
    refine .bind (safe_allocLoop hw h needed) fun a _ => ?_
    refine .ite (fun _ => ?_) fun _ => ?_
    · exact .bind (safe_freeChainLoop hw h) fun _ _ => .pure trivial
    · refine .bind (safe_linkPrev hw _ _) fun _ _ => ?_
      refine .bind (safe_freeChainFrom hw h _) fun _ _ => ?_
      refine .bind (safe_writeClusters h) fun w _ => ?_
      refine .ite (fun _ => ?_) fun _ => ?_
      · exact .bind (safe_storeDirent (ht target rfl) _) fun _ _ => .pure trivial
      · exact .bind (safe_freeChainLoop hw h) fun _ _ => .pure trivial

theorem safe_fatWriteFile (h : fs.Sized) (fuel : Nat) (path : Option (List UInt8))
    (data : List UInt8) : Safe (fatWriteFile fuel fs path data) fun _ => True :=
  .bind (safe_fatWriteFileImpl hw h fuel path data) fun _ _ => .pure trivial

theorem safe_mkdirTarget (h : fs.Sized) (fuel : Nat) (r : Resolved) :
    Safe (mkdirTarget fuel fs r) fun t => ∀ x ∈ t, x.2.toNat + 32 ≤ 512 := by
  refine .bind (safe_dirFindSlot h fuel _ _) fun slot hslot => ?_
  cases slot with
  | full =>
    refine .ite (fun _ => .pure (by simp)) fun _ => ?_
    refine .bind (safe_dirExtend hw h _) fun r _ => ?_
    cases r with
    | none => exact .pure (by simp)
    | some lba => exact .pure (by simp)
  | free lba o => exact .pure (fun x hx => by cases hx; exact hslot)
  | sameName lba o => exact .pure (by simp)

theorem safe_mkdirFill (h : fs.Sized) (fuel : Nat) (r : Resolved) (c : UInt32) :
    Safe (mkdirFill fuel fs r c) fun _ => True := by
  have hdots : Safe (storeDots fs (clusterLba fs c) c r.parent) fun _ => True := by
    refine .bind (safe_fatDevRead fs _) fun ok _ => .ite (fun _ => ?_) fun _ => .pure trivial
    exact .bind (safe_bufWrite (by omega) _) fun _ _ => safe_fatDevWrite fs _
  refine .bind hdots fun ok _ => .ite (fun _ => ?_) fun _ => .pure trivial
  refine .bind (safe_mkdirTarget hw h fuel r) fun t ht => ?_
  cases t with
  | none => exact .pure trivial
  | some p => exact safe_storeDirent (ht p rfl) _

theorem safe_fatMkdir (h : fs.Sized) (fuel : Nat) (path : Option (List UInt8)) :
    Safe (fatMkdir fuel fs path) fun _ => True := by
  refine .ite (fun _ => .pure trivial) fun _ => ?_
  refine .bind (safe_fatResolveParent h fuel path) fun r _ => ?_
  refine .ite (fun _ => .pure trivial) fun _ => ?_
  refine .bind (safe_maxCluster h) fun maxC _ => ?_
  refine .bind (safe_findFree h) fun t _ => ?_
  cases t with
  | none => exact .pure trivial
  | some c =>
    refine .bind (.of_total (hw _ _)) fun _ _ => ?_
    refine .bind (safe_zeroSectors h) fun _ _ => ?_
    refine .bind (safe_mkdirFill hw h fuel r c) fun ok _ => .ite (fun _ => .pure trivial) fun _ => ?_
    exact .bind (safe_freeChainLoop hw h) fun _ _ => .pure trivial

end Changes

end HaoSys.Fs
