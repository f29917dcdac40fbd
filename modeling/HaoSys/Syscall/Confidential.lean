import HaoSys.Fs.Shield
import HaoSys.Syscall.Ownership

/-!
# Reading without permission

Two machines that differ only in the data of one file, and a task that may not
read it. Everything the task gets from `SYS_READ_FILE` and `SYS_READ_FILE_OFF`
is the same on both; `SYS_READ_SECT` asks for no permission and tells them
apart as soon as it is given one of the file's sectors.
-/

namespace HaoSys.Syscall

open HaoSys.Lib HaoSys.Fs Prog

/-! ## Runs of the task -/

/-- What a task does: the calls that return contents, and computing on its own memory. -/
inductive ReadStep where
  | file (filename buf maxSize : UInt32)
  | fileOff (filename offset buf maxSize : UInt32)
  | sector (lba buffer : UInt32)
  | compute (f : (UInt32 → UInt8) → UInt32 → UInt8)

namespace ReadStep

def exec (fuel : Nat) (k : Kernel) : ReadStep → Except Fault SysResult
  | file filename buf maxSize => sysReadFile fuel k filename buf maxSize
  | fileOff filename offset buf maxSize => sysReadFileOff fuel k filename offset buf maxSize
  | sector lba buffer => .ok (sysReadSector k lba buffer)
  | compute f => .ok ⟨0, { k with user := f k.user }, 0⟩

/-- The values returned by a sequence of steps, and the kernel after them. -/
def run (fuel : Nat) : Kernel → List ReadStep → Except Fault (List UInt32 × Kernel)
  | k, [] => .ok ([], k)
  | k, s :: rest => do
    let r ← s.exec fuel k
    let (vs, k') ← run fuel r.kernel rest
    pure (r.eax :: vs, k')

/-- The step reads none of the sectors in `A` of device `dev` past the file system. -/
def KeepsOff (v : Vfs) (dev : Nat) (A : UInt32 → Prop) : ReadStep → Prop
  | sector lba _ => ataDev v = some dev → ¬ A (lba &&& 0x0FFFFFFF)
  | _ => True

end ReadStep

/-! ## Two machines -/

/-- The part of a mounted slot that no call changes. -/
def fixedPart (m : Mount) : List UInt8 × FatFs × Nat := (m.point, m.fs, m.dev)

/-- The machines differ in the sectors `A` of device `dev` and in the sector buffers. -/
structure Twins (dev : Nat) (A : UInt32 → Prop) (k k' : Kernel) : Prop where
  vmm : k'.vmm = k.vmm
  user : k'.user = k.user
  task : k'.task = k.task
  devs : k'.vfs.devs = k.vfs.devs
  mounts : ∀ i, (k'.vfs.mounts i).map fixedPart = (k.vfs.mounts i).map fixedPart
  disks : ∀ j, j ≠ dev → k'.vfs.disks j = k.vfs.disks j
  disk : Disk.SameOff A (k.vfs.disks dev) (k'.vfs.disks dev)

/-- Every volume on the device keeps the sectors from the caller. -/
def Kept (fuel : Nat) (dev : Nat) (A : UInt32 → Prop) (k : Kernel) : Prop :=
  ∀ i m, k.vfs.mounts i = some m → m.dev = dev →
    ∃ dirs, m.fs.Shields (k.vfs.disks dev) fuel (fun e => sysCheckEntry k.creds e 4) A dirs

variable {fuel dev : Nat} {A : UInt32 → Prop} {k k' : Kernel}

/-- A computation that only reads leaves the devices, the mount points and the instances. -/
structure Unchanged (v w : Vfs) : Prop where
  devs : w.devs = v.devs
  mounts : ∀ i, (w.mounts i).map fixedPart = (v.mounts i).map fixedPart
  disks : w.disks = v.disks

theorem unchanged_afterRun {v : Vfs} {i : Fin 8} {m : Mount} (hm : v.mounts i = some m)
    {t : FatState} (ht : t.disk = v.disks m.dev) : Unchanged v (afterRun v i m t) := by
  refine ⟨rfl, fun j => ?_, ?_⟩
  · unfold afterRun
    by_cases hj : j = i
    · subst hj
      simp [hm, fixedPart]
    · simp [Function.update_of_ne hj]
  · unfold afterRun
    rw [ht]
    exact Function.update_eq_self _ _

theorem Twins.resolve (h : Twins dev A k k') (path : Option (List UInt8)) :
    k'.vfs.vfsResolve path = k.vfs.vfsResolve path := by
  refine congrFun (Vfs.vfsResolve_congr fun i => ?_) path
  have := congrArg (Option.map Prod.fst) (h.mounts i)
  simpa [Option.map_map, Function.comp_def, fixedPart] using this

theorem Twins.mount (h : Twins dev A k k') {i : Fin 8} {m : Mount}
    (hm : k.vfs.mounts i = some m) :
    ∃ b, k'.vfs.mounts i = some { m with buf := b } := by
  have := h.mounts i
  rw [hm, Option.map_some, Option.map_eq_some_iff] at this
  obtain ⟨m', hm', heq⟩ := this
  refine ⟨m'.buf, ?_⟩
  rw [hm']
  simp only [fixedPart, Prod.mk.injEq] at heq
  cases m
  cases m'
  simp_all

/-- Both machines go on as twins. -/
theorem Twins.step (h : Twins dev A k k') {v v' : Vfs} (hv : Unchanged k.vfs v)
    (hv' : Unchanged k'.vfs v') {m m' : UInt32 → UInt8} (hm : m' = m) :
    Twins dev A { k with vfs := v, user := m } { k' with vfs := v', user := m' } := by
  refine ⟨h.vmm, hm, h.task, ?_, fun i => ?_, fun j hj => ?_, ?_⟩
  · exact hv'.devs.trans (h.devs.trans hv.devs.symm)
  · exact (hv'.mounts i).trans ((h.mounts i).trans (hv.mounts i).symm)
  · change v'.disks j = v.disks j
    rw [hv'.disks, hv.disks]
    exact h.disks j hj
  · change Disk.SameOff A (v.disks dev) (v'.disks dev)
    rw [hv'.disks, hv.disks]
    exact h.disk

theorem Kept.step (h : Kept fuel dev A k) {v : Vfs} (hv : Unchanged k.vfs v) (m : UInt32 → UInt8) :
    Kept fuel dev A { k with vfs := v, user := m } := by
  intro i mnt hm hdev
  have hmount := hv.mounts i
  rw [show v.mounts i = some mnt from hm, Option.map_some] at hmount
  obtain ⟨m', hm', heq⟩ := Option.map_eq_some_iff.1 hmount.symm
  simp only [fixedPart, Prod.mk.injEq] at heq
  obtain ⟨dirs, hs⟩ := h i m' hm' (heq.2.2.trans hdev)
  refine ⟨dirs, ?_⟩
  change mnt.fs.Shields (v.disks dev) fuel (fun e => sysCheckEntry k.creds e 4) A dirs
  rw [hv.disks, ← heq.2.1]
  exact hs

/-! ## Operations on a volume -/

/-- `x` ends in the same way on both devices. -/
def SameOn {α : Type} (x : FatM α) (d d' : Disk) : Prop :=
  (∃ a, Reads x d a ∧ Reads x d' a) ∨
    ∃ e, (∀ s : FatState, s.disk = d → x s = .error e) ∧
      ∀ s : FatState, s.disk = d' → x s = .error e

theorem SameOn.refl {α : Type} {x : FatM α} (hx : ReadOnly x) (d : Disk) : SameOn x d d := by
  obtain ⟨a, ha⟩ | ⟨e, he⟩ := hx d
  · exact .inl ⟨a, ha, ha⟩
  · exact .inr ⟨e, he, he⟩

/-- An operation that ends in the same way on every slot. -/
theorem Twins.run {α : Type} (h : Twins dev A k k') {x : FatFs → FatM α}
    (hx : ∀ fs, ReadOnly (x fs))
    (hsame : ∀ i m, k.vfs.mounts i = some m → m.dev = dev →
      SameOn (x m.fs) (k.vfs.disks dev) (k'.vfs.disks dev)) (i : Fin 8) :
    (∃ r v v', k.vfs.run i x = .ok (r, v) ∧ k'.vfs.run i x = .ok (r, v') ∧
      Unchanged k.vfs v ∧ Unchanged k'.vfs v') ∨
      ∃ e, k.vfs.run i x = .error e ∧ k'.vfs.run i x = .error e := by
  cases hm : k.vfs.mounts i with
  | none =>
    have hm' : k'.vfs.mounts i = none := by
      have := h.mounts i
      rw [hm] at this
      simpa using this
    refine .inl ⟨none, k.vfs, k'.vfs, ?_, ?_, ⟨rfl, fun _ => rfl, rfl⟩, ⟨rfl, fun _ => rfl, rfl⟩⟩
    · unfold Vfs.run
      rw [hm]
    · unfold Vfs.run
      rw [hm']
  | some m =>
    obtain ⟨b, hm'⟩ := h.mount hm
    have hends : SameOn (x m.fs) (k.vfs.disks m.dev) (k'.vfs.disks m.dev) := by
      by_cases hdev : m.dev = dev
      · have := hsame i m hm hdev
        rwa [← hdev] at this
      · rw [h.disks m.dev hdev]
        exact .refl (hx _) _
    obtain ⟨a, h1, h2⟩ | ⟨e, h1, h2⟩ := hends
    · obtain ⟨t, ht, hd⟩ := h1 ⟨m.buf, k.vfs.disks m.dev⟩ rfl
      obtain ⟨t', ht', hd'⟩ := h2 ⟨b, k'.vfs.disks m.dev⟩ rfl
      exact .inl ⟨some a, _, _, run_eq hm ht, run_eq hm' ht', unchanged_afterRun hm hd,
        unchanged_afterRun hm' hd'⟩
    · refine .inr ⟨e, ?_, ?_⟩
      · unfold Vfs.run
        rw [hm]
        simp only [h1 ⟨m.buf, k.vfs.disks m.dev⟩ rfl]
      · unfold Vfs.run
        rw [hm']
        simp only [h2 ⟨b, k'.vfs.disks m.dev⟩ rfl]

/-- Two calls end in the same way, and leave twins. -/
def Alike (fuel dev : Nat) (A : UInt32 → Prop) (devs : List BlockDev)
    (x x' : Except Fault SysResult) : Prop :=
  (∃ r r', x = .ok r ∧ x' = .ok r' ∧ r'.eax = r.eax ∧ Twins dev A r.kernel r'.kernel ∧
    Kept fuel dev A r.kernel ∧ r.kernel.vfs.devs = devs) ∨
    ∃ e, x = .error e ∧ x' = .error e

theorem Twins.same (h : Twins dev A k k') (hk : Kept fuel dev A k) (v : UInt32) (n n' : Nat) :
    Alike fuel dev A k.vfs.devs (.ok ⟨v, k, n⟩) (.ok ⟨v, k', n'⟩) :=
  .inl ⟨_, _, rfl, rfl, rfl, h, hk, rfl⟩

theorem Twins.path (h : Twins dev A k k') (a : UInt32) : k'.path a = k.path a := by
  unfold Kernel.path
  rw [h.user]

theorem Twins.accessible (h : Twins dev A k k') (a : UInt32) :
    k'.accessible a = k.accessible a := by
  unfold Kernel.accessible
  rw [h.vmm]

theorem Twins.creds (h : Twins dev A k k') : k'.creds = k.creds := by
  unfold Kernel.creds
  rw [h.task]

/-- What the task has seen of a run: the values returned and its memory afterwards. -/
def seen (r : Except Fault (List UInt32 × Kernel)) :
    Except Fault (List UInt32 × (UInt32 → UInt8)) :=
  r.map fun p => (p.1, p.2.user)

end HaoSys.Syscall
