import HaoSys.Fs.Reader

/-!
# Volumes with a history

The device decides which reads and writes succeed, and no operation of the
driver changes that: `Steady`. So what `fat_write_file`, `fat_mkdir` and
`fat_delete_file` make of a volume on a reliable device, in any order and
whatever they return, is again on a reliable device.
-/

namespace HaoSys.Fs

open HaoSys.Lib Prog

/-- `x` leaves which reads and writes of the device succeed. -/
def Steady {α : Type} (x : FatM α) : Prop :=
  ∀ s a t, x s = .ok (a, t) →
    t.disk.readable = s.disk.readable ∧ t.disk.writable = s.disk.writable

namespace Steady

variable {α β : Type} {x y : FatM α}

theorem of_readOnly (h : ReadOnly x) : Steady x := by
  intro s a t hx
  rw [(h.of_ok hx).2]
  exact ⟨rfl, rfl⟩

theorem pure (a : α) : Steady (Pure.pure a) := of_readOnly (.pure a)

theorem fault (e : Fault) : Steady (Prog.fault e : FatM α) := of_readOnly (.fault e)

theorem bind {f : α → FatM β} (hx : Steady x) (hf : ∀ a, Steady (f a)) : Steady (x >>= f) := by
  intro s b u h
  obtain ⟨a, t, ht, hu⟩ := bind_eq_ok.1 h
  obtain ⟨h1, h2⟩ := hx s a t ht
  obtain ⟨h3, h4⟩ := hf a t b u hu
  exact ⟨h3.trans h1, h4.trans h2⟩

theorem ite {c : Prop} [Decidable c] (hx : c → Steady x) (hy : ¬ c → Steady y) :
    Steady (if c then x else y) := by
  split
  · next h => exact hx h
  · next h => exact hy h

theorem fatDevRead (fs : FatFs) (lba : UInt32) : Steady (fatDevRead fs lba) := by
  intro s a t h
  rw [Fs.fatDevRead] at h
  split at h <;> cases h <;> exact ⟨rfl, rfl⟩

theorem fatDevWrite (fs : FatFs) (lba : UInt32) : Steady (fatDevWrite fs lba) := by
  intro s a t h
  rw [Fs.fatDevWrite] at h
  split at h <;> cases h <;> exact ⟨rfl, rfl⟩

theorem bufRead (o w : Nat) (f : Sector → α) : Steady (bufRead o w f) := by
  intro s a t h
  rw [(KeepsDisk.bufRead o w f) s a t h]
  exact ⟨rfl, rfl⟩

theorem bufWrite (o w : Nat) (f : Sector → Sector) : Steady (bufWrite o w f) := by
  intro s a t h
  rw [Fs.bufWrite] at h
  split at h
  · cases h
    exact ⟨rfl, rfl⟩
  · cases h

end Steady

/-! ## The parts of the operations -/

section Parts

variable (fs : FatFs)

theorem steady_writeMirrored (sec : UInt32) : Steady (writeMirrored fs sec) :=
  .bind (.fatDevWrite fs sec) fun _ => .bind (.fatDevWrite fs _) fun _ => .pure _

theorem steady_writeFatEntry (c v : UInt32) : Steady (writeFatEntry fs c v) := by
  have hplace : Steady (fatPlace fs (fatOffset fs c)) := .of_readOnly (readOnly_fatPlace fs _)
  have hsector : ∀ (sec : UInt32) (o w : Nat) (f : Sector → Sector), Steady (do
      if ← fatDevRead fs sec then
        bufWrite o w f
        writeMirrored fs sec) := fun sec o w f =>
    .bind (.fatDevRead fs sec) fun _ => .ite (fun _ => .bind (.bufWrite o w f) fun _ =>
      steady_writeMirrored fs sec) fun _ => .pure _
  unfold writeFatEntry
  cases hty : fs.fsType with
  | unknown => exact .pure _
  | fat16 => exact .bind hplace fun p => hsector _ _ _ _
  | fat32 => exact .bind hplace fun p => hsector _ _ _ _
  | fat12 =>
    refine .bind hplace fun p => .ite (fun _ => hsector _ _ _ _) fun _ => ?_
    refine .bind (.fatDevRead fs _) fun _ => .ite (fun _ => ?_) fun _ => .pure _
    refine .bind (.bufRead _ _ _) fun _ => .bind (.pure 0) fun _ => ?_
    refine .bind (.fatDevRead fs _) fun _ => ?_
    refine .ite (fun _ => .bind (.bufRead _ _ _) fun _ => ?_) fun _ => .pure _
    refine .bind (.bufWrite _ _ _) fun _ => .bind (steady_writeMirrored fs _) fun _ => ?_
    exact hsector _ _ _ _

theorem steady_freeChainLoop : ∀ (n : Nat) (c : UInt32), Steady (freeChainLoop fs n c)
  | 0, _ => .pure _
  | n + 1, c => by
    rw [freeChainLoop]
    refine .ite (fun _ => ?_) fun _ => .pure _
    refine .bind (.of_readOnly (readOnly_readFatEntry fs c)) fun next => ?_
    refine .bind (steady_writeFatEntry fs c 0) fun _ => ?_
    exact .ite (fun _ => .pure _) fun _ => steady_freeChainLoop n next

theorem steady_freeChainFrom (c : UInt32) : Steady (freeChainFrom fs c) :=
  .ite (fun _ => steady_freeChainLoop fs _ _) fun _ => .pure _

theorem steady_linkPrev (prev v : UInt32) : Steady (linkPrev fs prev v) :=
  .ite (fun _ => steady_writeFatEntry fs _ _) fun _ => .pure _

theorem steady_allocLoop (needed : UInt32) :
    ∀ (n : Nat) (c : UInt32) (a : Alloc), Steady (allocLoop fs needed n c a)
  | 0, _, _ => .pure _
  | n + 1, c, a => by
    rw [allocLoop]
    refine .ite (fun _ => ?_) fun _ => .pure _
    refine .bind (.of_readOnly (readOnly_readFatEntry fs c)) fun v => ?_
    refine .ite (fun _ => ?_) fun _ => steady_allocLoop needed n _ _
    exact .bind (steady_linkPrev fs _ _) fun _ => steady_allocLoop needed n _ _

theorem steady_writeSectors :
    ∀ (n : Nat) (lba : UInt32) (data : List UInt8), Steady (writeSectors fs n lba data)
  | 0, _, _ => .pure _
  | n + 1, lba, data => by
    rw [writeSectors]
    refine .ite (fun _ => .pure _) fun _ => ?_
    refine .bind (.bind (.bufWrite _ _ _) fun _ => .bufWrite _ _ _) fun _ => ?_
    refine .bind (.fatDevWrite fs lba) fun _ => .ite (fun _ => ?_) fun _ => .pure _
    exact steady_writeSectors n _ _

theorem steady_writeClusters :
    ∀ (fuel : Nat) (c : UInt32) (data : List UInt8), Steady (writeClusters fs fuel c data)
  | 0, _, _ => .fault _
  | fuel + 1, c, data => by
    rw [writeClusters]
    refine .ite (fun _ => ?_) fun _ => .pure _
    refine .bind (steady_writeSectors fs _ _ _) fun r => .ite (fun _ => ?_) fun _ => .pure _
    refine .bind (.of_readOnly (readOnly_readFatEntry fs c)) fun next => ?_
    exact .ite (fun _ => .pure _) fun _ => steady_writeClusters fuel _ _

theorem readOnly_chainTail : ∀ (n : Nat) (c : UInt32), ReadOnly (chainTail fs n c)
  | 0, _ => .pure _
  | n + 1, c => by
    rw [chainTail]
    refine .ite (fun _ => ?_) fun _ => .pure _
    refine .bind (readOnly_readFatEntry fs c) fun next => ?_
    exact .ite (fun _ => .pure _) fun _ => readOnly_chainTail n next

theorem steady_zeroSectors : ∀ (n : Nat) (lba : UInt32), Steady (zeroSectors fs n lba)
  | 0, _ => .pure _
  | n + 1, lba => by
    rw [zeroSectors]
    refine .bind (.bufWrite _ _ _) fun _ => .bind (.fatDevWrite fs lba) fun _ => ?_
    exact steady_zeroSectors n _

theorem steady_dirExtend (dir : UInt32) : Steady (dirExtend fs dir) := by
  refine .bind (.of_readOnly (readOnly_chainTail fs _ dir)) fun c => ?_
  refine .ite (fun _ => .pure _) fun _ => ?_
  refine .bind (.of_readOnly (readOnly_maxCluster fs)) fun maxC => ?_
  refine .bind (.of_readOnly (readOnly_findFree fs _ _)) fun o => ?_
  cases o with
  | none => exact .pure _
  | some c =>
    refine .bind (steady_writeFatEntry fs _ _) fun _ => .bind (steady_writeFatEntry fs _ _) fun _ => ?_
    exact .bind (steady_zeroSectors fs _ _) fun _ => .pure _

theorem steady_storeDirent (lba o : UInt32) (e : Dirent) : Steady (storeDirent fs lba o e) := by
  refine .bind (.fatDevRead fs lba) fun _ => .ite (fun _ => ?_) fun _ => .pure _
  exact .bind (.bufWrite _ _ _) fun _ => .fatDevWrite fs lba

theorem steady_writeTarget (fuel : Nat) (r : Resolved) : Steady (writeTarget fuel fs r) := by
  refine .bind (.of_readOnly (readOnly_dirFindSlot fuel fs _ _)) fun slot => ?_
  cases slot with
  | full =>
    refine .ite (fun _ => .pure _) fun _ => .bind (steady_dirExtend fs _) fun o => ?_
    cases o with
    | none => exact .pure _
    | some lba => exact .pure _
  | free lba o => exact .pure _
  | sameName lba o =>
    refine .bind (.fatDevRead fs lba) fun _ => .ite (fun _ => ?_) fun _ => .pure _
    exact .bind (.bufRead _ _ _) fun _ => .ite (fun _ => .pure _) fun _ => .pure _

theorem steady_mkdirFill (fuel : Nat) (r : Resolved) (c : UInt32) :
    Steady (mkdirFill fuel fs r c) := by
  have hdots : Steady (storeDots fs (clusterLba fs c) c r.parent) := by
    refine .bind (.fatDevRead fs _) fun _ => .ite (fun _ => ?_) fun _ => .pure _
    exact .bind (.bufWrite _ _ _) fun _ => .fatDevWrite fs _
  have htarget : Steady (mkdirTarget fuel fs r) := by
    refine .bind (.of_readOnly (readOnly_dirFindSlot fuel fs _ _)) fun slot => ?_
    cases slot with
    | full =>
      refine .ite (fun _ => .pure _) fun _ => .bind (steady_dirExtend fs _) fun o => ?_
      cases o with
      | none => exact .pure _
      | some lba => exact .pure _
    | free lba o => exact .pure _
    | sameName lba o => exact .pure _
  refine .bind hdots fun _ => .ite (fun _ => .bind htarget fun o => ?_) fun _ => .pure _
  cases o with
  | none => exact .pure _
  | some p => exact steady_storeDirent fs _ _ _

end Parts

/-! ## The operations -/

theorem steady_fatWriteFile (fuel : Nat) (fs : FatFs) (path : Option (List UInt8))
    (data : List UInt8) : Steady (fatWriteFile fuel fs path data) := by
  refine .bind (.ite (fun _ => .pure _) fun _ => ?_) fun _ => .pure _
  refine .bind (.of_readOnly (readOnly_fatResolveParent fuel fs path)) fun r => ?_
  refine .ite (fun _ => .pure _) fun _ => ?_
  refine .bind (.of_readOnly (readOnly_maxCluster fs)) fun maxC => ?_
  refine .bind (steady_writeTarget fs fuel r) fun target => ?_
  cases target with
  | none => exact .pure _
  | some target =>
    refine .bind (.of_readOnly (readOnly_udiv _ _)) fun needed => ?_
    refine .bind (steady_allocLoop fs needed _ _ _) fun a => .ite (fun _ => ?_) fun _ => ?_
    · exact .bind (steady_freeChainLoop fs _ _) fun _ => .pure _
    · refine .bind (steady_linkPrev fs _ _) fun _ => .bind (steady_freeChainFrom fs _) fun _ => ?_
      refine .bind (steady_writeClusters fs _ _ _) fun w => .ite (fun _ => ?_) fun _ => ?_
      · exact .bind (steady_storeDirent fs _ _ _) fun _ => .pure _
      · exact .bind (steady_freeChainLoop fs _ _) fun _ => .pure _

theorem steady_fatMkdir (fuel : Nat) (fs : FatFs) (path : Option (List UInt8)) :
    Steady (fatMkdir fuel fs path) := by
  refine .ite (fun _ => .pure _) fun _ => ?_
  refine .bind (.of_readOnly (readOnly_fatResolveParent fuel fs path)) fun r => ?_
  refine .ite (fun _ => .pure _) fun _ => ?_
  refine .bind (.of_readOnly (readOnly_maxCluster fs)) fun maxC => ?_
  refine .bind (.of_readOnly (readOnly_findFree fs _ _)) fun o => ?_
  cases o with
  | none => exact .pure _
  | some c =>
    refine .bind (steady_writeFatEntry fs _ _) fun _ => .bind (steady_zeroSectors fs _ _) fun _ => ?_
    refine .bind (steady_mkdirFill fs fuel r c) fun _ => .ite (fun _ => .pure _) fun _ => ?_
    exact .bind (steady_freeChainLoop fs _ _) fun _ => .pure _

theorem steady_fatDeleteFile (fuel : Nat) (fs : FatFs) (path : Option (List UInt8)) :
    Steady (fatDeleteFile fuel fs path) := by
  refine .ite (fun _ => .pure _) fun _ => ?_
  refine .bind (.of_readOnly (readOnly_fatResolveParent fuel fs path)) fun r => ?_
  refine .ite (fun _ => .pure _) fun _ => ?_
  refine .bind (.of_readOnly (readOnly_dirFindSlot fuel fs _ _)) fun slot => ?_
  cases slot with
  | full => exact .pure _
  | free lba o => exact .pure _
  | sameName lba o =>
    refine .bind (.fatDevRead fs lba) fun _ => .ite (fun _ => ?_) fun _ => .pure _
    refine .bind (.bufRead _ _ _) fun e => .bind (.of_readOnly ?_) fun inside => ?_
    · exact .ite (fun _ => readOnly_fatReadDir fuel fs _ _) fun _ => .pure _
    · refine .ite (fun _ => .pure _) fun _ => .bind (.fatDevRead fs lba) fun _ => ?_
      refine .ite (fun _ => .bind (.bufWrite _ _ _) fun _ => ?_) fun _ => .pure _
      refine .bind (.fatDevWrite fs lba) fun _ => .ite (fun _ => ?_) fun _ => .pure _
      exact .bind (steady_freeChainFrom fs _) fun _ => .pure _

namespace FatFs

/-- The devices that the three operations make of `d₀`, in any order and with any result. -/
inductive Reachable (fs : FatFs) (d₀ : Disk) : Disk → Prop
  | start : Reachable fs d₀ d₀
  | write {fuel : Nat} {path : Option (List UInt8)} {data : List UInt8} {b : Sector} {d : Disk}
      {ok : Bool} {t : FatState} (h : Reachable fs d₀ d)
      (hrun : fatWriteFile fuel fs path data ⟨b, d⟩ = .ok (ok, t)) : Reachable fs d₀ t.disk
  | mkdir {fuel : Nat} {path : Option (List UInt8)} {b : Sector} {d : Disk} {ok : Bool}
      {t : FatState} (h : Reachable fs d₀ d)
      (hrun : fatMkdir fuel fs path ⟨b, d⟩ = .ok (ok, t)) : Reachable fs d₀ t.disk
  | delete {fuel : Nat} {path : Option (List UInt8)} {b : Sector} {d : Disk} {ok : Bool}
      {t : FatState} (h : Reachable fs d₀ d)
      (hrun : fatDeleteFile fuel fs path ⟨b, d⟩ = .ok (ok, t)) : Reachable fs d₀ t.disk

/-- The operations keep a reliable device reliable. -/
theorem Reachable.reliable {fs : FatFs} {d₀ d : Disk} (h : fs.Reachable d₀ d) (hd : d₀.Reliable) :
    d.Reliable := by
  have hstep : ∀ {x : FatM Bool} {b : Sector} {d : Disk} {ok : Bool} {t : FatState}, Steady x →
      d.Reliable → x ⟨b, d⟩ = .ok (ok, t) → t.disk.Reliable := by
    intro x b d ok t hx hd hrun
    obtain ⟨hr, hw⟩ := hx _ _ _ hrun
    exact ⟨fun a => by rw [hr]; exact hd.readable a, fun n a => by rw [hw]; exact hd.writable n a⟩
  induction h with
  | start => exact hd
  | write _ hrun ih => exact hstep (steady_fatWriteFile _ _ _ _) ih hrun
  | mkdir _ hrun ih => exact hstep (steady_fatMkdir _ _ _) ih hrun
  | delete _ hrun ih => exact hstep (steady_fatDeleteFile _ _ _) ih hrun

end FatFs

end HaoSys.Fs
