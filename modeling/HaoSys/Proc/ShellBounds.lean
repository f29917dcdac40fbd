import HaoSys.Mm.PmmPageZero
import HaoSys.Proc.ShellExits

/-!
# The bounds of the shell loader

Four limits have to agree: the 64 pages above which a file is refused, the 24
pages behind it, the 80 elements of `extra_phys` and the 96 of
`user_virt_pages`. They do for files of up to 57 pages. A longer one that is not
refused runs over `extra_phys`, and near 2^32 the page count wraps to 0.
-/

namespace HaoSys.Proc

open HaoSys.Lib HaoSys.Mm

/-- The pages of the window at `load_virt`. -/
def windowPages (fileSize : UInt32) : List UInt32 := pagesFrom loadVirt (codePages fileSize).toNat

/-- The pages of the task: those of the code and the two of the stack. -/
def userPages (fileSize : UInt32) : List UInt32 :=
  pagesFrom codeVirt (codePages fileSize).toNat ++ [stackVirt fileSize, stackVirt fileSize + 0x1000]

/-- `virt` is one of the first `user_virt_count` entries of `user_virt_pages`. -/
def Registered (s : Sched) (task virt : UInt32) : Prop :=
  ∃ i : Fin 96, i.val < (s.get task .userVirtCount).toNat ∧ s.get task (.userVirtPage i) = virt

/-- The loader keeps to its bounds for a file of this size, on every machine. -/
structure LoaderInBounds (fileSize : UInt32) : Prop where
  extra : ∀ endAddr k s L f, Vmm.ImageLayout endAddr k → Reachable endAddr k Sched.ReapsOwn s L →
    f.fileSize = fileSize → Sched.loadAndRunShell (some f) s ≠ .overrun
  window : ∀ i, i < fileSize → pageOf (loadVirt + i) ∈ windowPages fileSize
  apart : (userPages fileSize).Nodup
  registered : ∀ endAddr k s L f s', Vmm.ImageLayout endAddr k →
    Reachable endAddr k Sched.ReapsOwn s L → f.fileSize = fileSize →
    Sched.loadAndRunShell (some f) s = .running s' →
    ∀ v ∈ userPages fileSize, Registered s' s'.currentTask v

section

variable {s s' s'' : Sched} {L : List Owned} {ts zs xs : List UInt32} {f : ShellFile}
  {task dir codePhys t virt v : UInt32} {extra : List UInt32} {n : Nat}

/-! ## The registered pages -/

theorem registerPage_eq (hc : (s.get task .userVirtCount).toNat < 96) :
    s.registerPage task virt = (s.set task (.userVirtPage ⟨_, hc⟩) virt).set task .userVirtCount
      (s.get task .userVirtCount + 1) := dif_pos hc

theorem registerPage_count (hc : (s.get task .userVirtCount).toNat < 96) :
    ((s.registerPage task virt).get task .userVirtCount).toNat =
      (s.get task .userVirtCount).toNat + 1 := by
  rw [registerPage_eq hc, get_set_self, UInt32.toNat_add, UInt32.toNat_one]
  omega

theorem registered_registerPage (ha : task.toNat % 4096 = 0)
    (hc : (s.get task .userVirtCount).toNat < 96) (hv : v = virt ∨ Registered s task v) :
    Registered (s.registerPage task virt) task v := by
  rcases hv with rfl | ⟨i, hi, hpage⟩
  · refine ⟨⟨_, hc⟩, ?_, ?_⟩
    · rw [registerPage_count hc]
      exact Nat.lt_succ_self _
    · rw [registerPage_eq hc, get_set_of_ne ha ha (.inl (by simp)), get_set_self]
  · refine ⟨i, ?_, ?_⟩
    · rw [registerPage_count hc]
      exact Nat.lt_succ_of_lt hi
    · rw [registerPage_eq hc, get_set_of_ne ha ha (.inl (by simp)),
        get_set_of_ne ha ha (.inl fun e => ?_), hpage]
      have hval : i = ⟨_, hc⟩ := Field.userVirtPage.inj e
      rw [hval] at hi
      exact absurd hi (Nat.lt_irrefl _)

/-- With room for all of them, all of them are registered. -/
theorem registered_registerPages (ha : task.toNat % 4096 = 0) {vs : List UInt32}
    (hroom : (s.get task .userVirtCount).toNat + vs.length ≤ 96)
    (hv : v ∈ vs ∨ Registered s task v) : Registered (Sched.registerPages task vs s) task v := by
  induction vs generalizing s with
  | nil => exact hv.resolve_left List.not_mem_nil
  | cons u vs ih =>
    rw [List.length_cons] at hroom
    have hc : (s.get task .userVirtCount).toNat < 96 := by omega
    refine ih ?_ ?_
    · rw [registerPage_count hc]
      omega
    · rcases hv with hv | hv
      · rcases List.mem_cons.1 hv with rfl | hv
        · exact .inr (registered_registerPage ha hc (.inl rfl))
        · exact .inl hv
      · exact .inr (registered_registerPage ha hc (.inr hv))

theorem registerPages_append (task : UInt32) (vs : List UInt32) (u v : UInt32) (s : Sched) :
    Sched.registerPages task (vs ++ [u, v]) s =
      ((Sched.registerPages task vs s).registerPage task u).registerPage task v := by
  simp only [Sched.registerPages, List.foldl_append, List.foldl_cons, List.foldl_nil]

theorem Registered.launch (ha : task.toNat % 4096 = 0) (h : Registered s task v) :
    Registered (s.launch task) task v := by
  obtain ⟨e, d, heq⟩ := launch_eq s task
  have hget : ∀ f, f ≠ .state → (s.launch task).get task f = s.get task f := fun f hf => by
    rw [heq]
    exact get_set_of_ne ha ha (.inl hf)
  obtain ⟨i, hi, hpage⟩ := h
  exact ⟨i, by rwa [hget _ (by simp)], by rwa [hget _ (by simp)]⟩

/-! ## How the loader ends -/

/-- A user task that runs has had all its pages entered, from an empty table on. -/
theorem loadStack_running (h : Sched.loadStack f task dir codePhys s = .running s') :
    ∃ s₁ : Sched, s' = (Sched.registerPages task (userPages f.fileSize)
      (s₁.set task .userVirtCount 0)).launch task := by
  unfold Sched.loadStack at h
  simp only at h
  generalize s.allocPage = a₁ at h
  generalize a₁.2.allocPage = a₂ at h
  split at h
  · cases h
  split at h
  · cases h
  · split at h
    · cases h
    · next s₂ _ =>
      refine ⟨s₂, (ShellEnd.running.inj h).symm.trans ?_⟩
      rw [userPages, registerPages_append]

theorem loadTask_running (h : Sched.loadTask f task codePhys s = .running s') :
    ∃ s₁ : Sched, s' = (Sched.registerPages task (userPages f.fileSize)
      (s₁.set task .userVirtCount 0)).launch task := by
  unfold Sched.loadTask Sched.loadCode at h
  simp only at h
  split at h
  · cases h
  split at h
  · cases h
  · split at h
    · cases h
    · cases h
    · split at h
      · cases h
      · split at h
        · cases h
        · split at h
          · cases h
          · split at h
            · cases h
            · exact loadStack_running h

theorem loadStack_ne_overrun : Sched.loadStack f task dir codePhys s ≠ .overrun := by
  unfold Sched.loadStack
  simp only
  generalize s.allocPage = a₁
  generalize a₁.2.allocPage = a₂
  split
  · nofun
  split
  · nofun
  · split <;> nofun

/-- The only store out of bounds is in the loop that takes the extra pages. -/
theorem loadTask_overrun (h : Sched.loadTask f task codePhys s = .overrun) :
    ∃ s₁, Sched.takeExtra (codePages f.fileSize - 1).toNat [] s₁ = none := by
  unfold Sched.loadTask Sched.loadCode at h
  simp only at h
  split at h
  · cases h
  split at h
  · cases h
  · next s₁ _ =>
    split at h
    · next hnone => exact ⟨s₁, hnone⟩
    · cases h
    · split at h
      · cases h
      · split at h
        · cases h
        · split at h
          · cases h
          · split at h
            · cases h
            · exact absurd h loadStack_ne_overrun

theorem takeExtra_ne_none {n : Nat} {extra : List UInt32} {s : Sched}
    (h : extra.length + n ≤ extraSize) : Sched.takeExtra n extra s ≠ none := by
  induction n generalizing extra s with
  | zero => exact Option.some_ne_none _
  | succ n ih =>
    unfold Sched.takeExtra
    rw [if_pos (by omega)]
    simp only
    split
    · exact Option.some_ne_none _
    · apply ih
      rw [List.length_append, List.length_singleton]
      omega

/-! ## The pages -/

theorem userPages_eq (n : UInt32) : userPages n = pagesFrom codeVirt ((codePages n).toNat + 2) := by
  have hsucc : UInt32.ofNat ((codePages n).toNat + 1) = codePages n + 1 := by
    rw [UInt32.ofNat_add, UInt32.ofNat_toNat]
    rfl
  have hstep : codeVirt + (codePages n + 1) * 4096 = stackVirt n + 4096 := by
    rw [stackVirt, add_mul, one_mul, add_assoc]
  rw [userPages, pagesFrom, pagesFrom, List.range_succ, List.range_succ, List.append_assoc,
    List.map_append, List.singleton_append, List.map_cons, List.map_singleton, hsucc, hstep,
    UInt32.ofNat_toNat]
  rfl

theorem pagesFrom_nodup (virt : UInt32) {n : Nat} (h : n ≤ 2 ^ 20) : (pagesFrom virt n).Nodup := by
  refine List.Nodup.map_on (fun i hi j hj e => ?_) List.nodup_range
  rw [List.mem_range] at hi hj
  have e := congrArg UInt32.toNat (add_left_cancel e)
  simp only [UInt32.toNat_mul, UInt32.toNat_ofNat', UInt32.reduceToNat] at e
  omega

theorem extraPages_toNat {n : UInt32} (hf : ¬ filePages n > 64) :
    (codePages n - 1).toNat = (filePages n).toNat + 23 := by
  have hpages := codePages_toNat hf
  have hle : 1 ≤ codePages n := UInt32.le_iff_toNat_le.2 (by rw [UInt32.toNat_one]; omega)
  rw [UInt32.toNat_sub_of_le _ _ hle, UInt32.toNat_one, hpages]
  omega

/-- A file that fits its pages stays in the window. -/
theorem window_of_le {size i : UInt32} (hf : ¬ filePages size > 64)
    (hsize : size.toNat ≤ (filePages size).toNat * 4096) (hi : i < size) :
    pageOf (loadVirt + i) ∈ windowPages size := by
  have hpages := codePages_toNat hf
  have hlt := UInt32.lt_iff_toNat_lt.1 hi
  refine List.mem_map.2 ⟨i.toNat / 4096, List.mem_range.2 (by omega), UInt32.toNat_inj.1 ?_⟩
  have h64 := UInt32.le_iff_toNat_le.1 (UInt32.not_lt.1 hf)
  rw [pageOf, page_toNat]
  simp only [loadVirt, UInt32.toNat_add, UInt32.toNat_mul, UInt32.toNat_ofNat',
    UInt32.reduceToNat] at h64 ⊢
  omega

/-- The page count of a file that is not refused, unless the rounding wraps. -/
theorem filePages_cases {size : UInt32} (hf : ¬ filePages size > 64) :
    (size.toNat ≤ (filePages size).toNat * 4096 ∧ (filePages size).toNat = (size.toNat + 4095) / 4096) ∨
      (filePages size = 0 ∧ 2 ^ 32 - 4095 ≤ size.toNat) := by
  have h64 := UInt32.le_iff_toNat_le.1 (UInt32.not_lt.1 hf)
  have hlt := size.toNat_lt
  have heq : (filePages size).toNat = (size.toNat + 4095) % 2 ^ 32 / 4096 := by
    rw [filePages, UInt32.toNat_div, UInt32.toNat_add]
    rfl
  rcases Nat.lt_or_ge (size.toNat + 4095) (2 ^ 32) with h | h
  · rw [Nat.mod_eq_of_lt h] at heq
    exact .inl ⟨by omega, heq⟩
  · refine .inr ⟨UInt32.toNat_inj.1 ?_, by omega⟩
    rw [heq, UInt32.toNat_zero]
    omega

/-- The window of 24 pages is too short for a file near 2^32. -/
theorem window_wraps {size : UInt32} (h0 : filePages size = 0) (hsize : 24 * 4096 < size.toNat) :
    ∃ i, i < size ∧ pageOf (loadVirt + i) ∉ windowPages size := by
  refine ⟨24 * 4096, UInt32.lt_iff_toNat_lt.2 hsize, ?_⟩
  rw [windowPages, codePages, h0]
  decide

/-! ## Running over `extra_phys` -/

/-- With pages enough the array is full before the loop is done. -/
theorem SchedInv.takeExtra_overruns (h : SchedInv s L ts zs xs) (h0 : 0 ∉ xs)
    (hlen : extraSize ≤ extra.length + xs.length) (hfull : extra.length ≤ extraSize)
    (hn : extraSize < extra.length + n) : Sched.takeExtra n extra s = none := by
  induction n generalizing s xs extra with
  | zero => exact absurd hn (Nat.not_lt.2 hfull)
  | succ n ih =>
    unfold Sched.takeExtra
    by_cases hroom : extra.length < extraSize
    · obtain ⟨p, s', halloc, hhead, hinv, -⟩ := h.allocPage
      have hxs : xs ≠ [] := fun e => by
        rw [e, List.length_nil] at hlen
        omega
      obtain ⟨x, us, rfl⟩ := List.exists_cons_of_ne_nil hxs
      have hp : p ≠ 0 := fun e => by
        have hx := (h.core.inv.pmm.indexToAddr_eq_zero List.mem_cons_self).1 (hhead.symm.trans e)
        exact h0 (hx ▸ List.mem_cons_self)
      simp only [if_pos hroom, halloc, if_neg hp]
      rw [List.length_cons] at hlen
      rw [List.tail_cons] at hinv
      refine ih hinv (fun hm => h0 (List.mem_cons_of_mem x hm)) ?_ ?_ ?_ <;>
        rw [List.length_append, List.length_singleton] <;> omega
    · exact if_neg hroom

/-- The first page of the code goes into a new table. -/
theorem Begun.mapCode {x d : UInt32} {us : List UInt32} {o : Owned}
    (hb : Begun s L ts zs x us o d s')
    (hslot : tableOf s.vmm.mem s.vmm.kernelPageDirectory (pdIndex codeVirt) = none) (h0 : 0 ∉ us)
    {y : UInt32} {ys : List UInt32} (hus : us.tail.tail.tail = y :: ys) (phys flags : UInt32) :
    (s'.mapPage d codeVirt phys flags).1 = true := by
  have hmem : o ∈ o :: L := List.mem_cons_self
  have hd := List.mem_cons_of_mem s'.vmm.kernelPageDirectory (mem_dirs hmem hb.dir)
  have hinv := hb.inv.core.inv
  rw [hus] at hinv
  have hy : y ∈ us :=
    List.mem_of_mem_tail (List.mem_of_mem_tail (List.mem_of_mem_tail (hus ▸ List.mem_cons_self)))
  have hy0 : indexToAddr y ≠ 0 := fun e =>
    h0 ((hinv.pmm.indexToAddr_eq_zero List.mem_cons_self).1 e ▸ hy)
  have hnone : tableOf s'.vmm.mem d (pdIndex codeVirt) = none := by
    rw [hb.tables, hb.kernel.boot.1, hb.kernel.tables _ List.mem_cons_self, hslot]
  have hempty : isPresent (entryAt s'.vmm.mem d (pdIndex codeVirt)) = false := by
    by_contra hp
    rw [Vmm.tableOf_pdIndex (Bool.not_eq_false _ ▸ hp)] at hnone
    cases hnone
  obtain ⟨w, heq, -⟩ := hinv.vmmMapPage_new hd hy0 codeVirt phys flags hempty
  unfold Sched.mapPage
  rw [heq]

theorem Begun.overruns {x d : UInt32} {us : List UInt32} {o : Owned}
    (hb : Begun s L ts zs x us o d s')
    (hslot : tableOf s.vmm.mem s.vmm.kernelPageDirectory (pdIndex codeVirt) = none) (h0 : 0 ∉ us)
    (hlen : extraSize + 4 ≤ us.length) (hn : extraSize < (codePages f.fileSize - 1).toNat) :
    Sched.loadTask f o.pcb codePhys s' = .overrun := by
  have hmem : o ∈ o :: L := List.mem_cons_self
  have hdmem := mem_dirs hmem hb.dir
  have hd0 := (hb.inv.core.inv.dir d (List.mem_cons_of_mem _ hdmem)).1
  obtain ⟨b, s₁, ys, hmap, hinv, htakes⟩ :=
    hb.inv.mapPage hdmem codeVirt codePhys (pageWrite ||| pageUser)
  obtain ⟨y₁, y₂, y₃, y₄, rest, rfl⟩ : ∃ a b c e l, us = a :: b :: c :: e :: l := by
    match us, hlen with
    | a :: b :: c :: e :: l, _ => exact ⟨a, b, c, e, l, rfl⟩
  have hb1 := hb.mapCode hslot h0 rfl codePhys (pageWrite ||| pageUser)
  rw [hmap] at hb1
  obtain rfl : b = true := hb1
  have hsub : ys ⊆ y₄ :: rest ∧ extraSize ≤ ys.length := by
    simp only [List.length_cons] at hlen
    rcases htakes rfl with ⟨rfl, -⟩ | ⟨y, e, -⟩
    · refine ⟨List.Subset.refl _, ?_⟩
      simp only [List.tail_cons, List.length_cons]
      omega
    · obtain ⟨-, rfl⟩ := List.cons.inj e
      exact ⟨List.subset_cons_self _ _, by omega⟩
  have hys : 0 ∉ ys := fun hm => h0 (List.mem_cons_of_mem _ (List.mem_cons_of_mem _
    (List.mem_cons_of_mem _ (hsub.1 hm))))
  unfold Sched.loadTask
  simp only [(hb.inv.tasks.ok o hmem).dir d hb.dir, if_neg hd0, hmap]
  have hnone : Sched.takeExtra (codePages f.fileSize - 1).toNat [] s₁ = none :=
    hinv.takeExtra_overruns hys (by simpa using hsub.2) (Nat.zero_le _) (by simpa using hn)
  simp only [hnone]

end

/-! ## A machine with room

1408 KB of memory and an image ending at 0x102000: the bitmap is page 0x102 and the pages 0x103 to
0x15F are free. -/

/-- Multiboot2 information at 0: one tag with 640 KB below 1 MB and 768 KB above. -/
def roomyBootMem : Mem := fun a =>
  if a = 0 then 32 else if a = 8 then 4 else if a = 12 then 16 else if a = 16 then 0x80
  else if a = 17 then 0x02 else if a = 21 then 0x03 else if a = 28 then 8 else 0

theorem roomyBootMem_info :
    Pmm.memInfo 2 roomyBootMem Pmm.multiboot2Magic 0 = some (640, 768) := by
  decide +kernel

theorem roomy_plain : ∀ k < 93,
    Pmm.PlainPage 0x102000 ((640 + 768) * 1024) (UInt32.ofNat (0x103 + k)) := by
  decide +kernel

theorem roomy_pmm : ∃ pmm, Pmm.pmmInit 2 0x102000 Pmm.multiboot2Magic 0 roomyBootMem = some pmm ∧
    pmm.totalMemory = 0x160000 ∧ ∃ xs, pmm.Inv xs ∧ 93 ≤ xs.length ∧ 0 ∉ xs := by
  obtain ⟨pmm, xs, hp, htotal, hinv, hxs⟩ := Pmm.pmmInit_multiboot2 Vmm.smallLayout.room
    roomyBootMem_info (by decide) ⟨_, roomy_plain 0 (by decide)⟩
  refine ⟨pmm, hp, htotal, xs, hinv, ?_, fun h0 => absurd ((hxs 0).1 h0) (by decide)⟩
  have hnd : ((List.range 93).map fun k => UInt32.ofNat (0x103 + k)).Nodup := by decide
  have hsub : ((List.range 93).map fun k => UInt32.ofNat (0x103 + k)) ⊆ xs := fun i hi => by
    obtain ⟨k, hk, rfl⟩ := List.mem_map.1 hi
    exact (hxs _).2 (roomy_plain k (List.mem_range.1 hk))
  simpa using (hnd.subperm hsub).length_le

/-- What is left when the idle task is there. -/
theorem roomy_booted (ok : Sched → Prop) : ∃ pmm s o xs, Booted 0x102000 0x101000 ok pmm s o xs ∧
    90 ≤ xs.length ∧ 0 ∉ xs ∧
    tableOf s.vmm.mem s.vmm.kernelPageDirectory (pdIndex codeVirt) = none := by
  obtain ⟨pmm, hp, htotal, us, hus, hlen, h0⟩ := roomy_pmm
  obtain ⟨hb, zs, hzs, himg⟩ := Pmm.pmmInit_inv Vmm.smallLayout.room hp
  obtain ⟨hboot, n, hn, hinv, -⟩ :=
    Vmm.vmmInit_inv hzs (Vmm.smallLayout.inUse hb himg) Vmm.smallLayout.ne_zero
  have hinv : (bootSched pmm 0x101000).vmm.Inv [] (zs.drop n) := hinv
  have hn : n ≤ 1 := by
    rwa [Vmm.identityCount, htotal] at hn
  have hzlen : zs.length = us.length := by rw [← hzs.count, hus.count]
  have hfree := hinv.pmm.count
  rw [List.length_drop] at hfree
  have hbit : (bootSched pmm 0x101000).vmm.pmm.getPageBit 0 = false := by
    by_contra hbit
    have hpos : 0 < (bootSched pmm 0x101000).vmm.pmm.totalPages := by
      obtain ⟨x, hx⟩ : ∃ x, x ∈ zs.drop n :=
        List.exists_mem_of_length_pos (by rw [List.length_drop]; omega)
      exact UInt32.lt_iff_toNat_lt.2 (Nat.zero_lt_of_lt (UInt32.lt_iff_toNat_lt.1 (hinv.pmm.lt hx)))
    have hz := (hzs.mem_iff 0).1 (List.mem_of_mem_drop
      ((hinv.pmm.mem_iff 0).2 ⟨hpos, Bool.not_eq_false _ ▸ hbit⟩))
    exact h0 ((hus.mem_iff 0).2 hz)
  obtain ⟨s, o, xs, h⟩ := boot_idle Vmm.smallLayout hp (by omega) hbit ok
  have hcount := h.count
  refine ⟨pmm, s, o, xs, h, by omega, fun hm => h.room 0 hm rfl, ?_⟩
  have hpdes : (bootSched pmm 0x101000).vmm.kernelPdes = 1 := by
    have htotal' : (bootSched pmm 0x101000).vmm.pmm.totalMemory = 0x160000 :=
      hboot.2.2.trans htotal
    rw [Vmm.kernelPdes, htotal']
    decide
  rw [h.tables.boot.1, h.tables.tables _ List.mem_cons_self]
  exact boot_scan Vmm.smallLayout hp (hpdes ▸ by decide)

/-! ## The bounds -/

/-- A file of more than 57 pages runs over `extra_phys` there. -/
theorem shell_overruns {f : ShellFile} (hf : ¬ filePages f.fileSize > 64)
    (h57 : 57 < (filePages f.fileSize).toNat) :
    ∃ s L, Reachable 0x102000 0x101000 Sched.ReapsOwn s L ∧
      Sched.loadAndRunShell (some f) s = .overrun := by
  obtain ⟨pmm, s, b, xs, h, hlen, h0, hslot⟩ := roomy_booted Sched.ReapsOwn
  refine ⟨s, [b], h.reach, ?_⟩
  rcases h.inv.loader_begins hf with ⟨-, -, -, hshort⟩ | ⟨x, us, o, d, s₁, rfl, -, heq, hb⟩
  · have := hshort h0
    omega
  · rw [List.length_cons] at hlen
    rw [heq]
    refine hb.overruns hslot (fun hm => h0 (List.mem_cons_of_mem x hm)) ?_ ?_
    · rw [extraSize]
      omega
    · rw [extraPages_toNat hf, extraSize]
      omega

/-- **The loader's bounds** hold for the files of up to 57 pages. -/
theorem shell_in_bounds_iff (fileSize : UInt32) (hf : ¬ filePages fileSize > 64) :
    LoaderInBounds fileSize ↔ fileSize.toNat ≤ 57 * 4096 := by
  have hpages := codePages_toNat hf
  constructor
  · intro h
    by_contra hlong
    rcases filePages_cases hf with ⟨hsize, heq⟩ | ⟨h0, hsize⟩
    · obtain ⟨s, L, hreach, hover⟩ := shell_overruns (f := ⟨fileSize, [], Nat.zero_le _⟩) hf
        (by rw [heq]; omega)
      exact h.extra 0x102000 0x101000 s L _ Vmm.smallLayout hreach rfl hover
    · obtain ⟨i, hi, hout⟩ := window_wraps h0 (by omega)
      exact hout (h.window i hi)
  · intro hsize
    obtain ⟨hfit, heq⟩ : fileSize.toNat ≤ (filePages fileSize).toNat * 4096 ∧
        (filePages fileSize).toNat = (fileSize.toNat + 4095) / 4096 :=
      (filePages_cases hf).resolve_right fun h => by omega
    refine ⟨fun endAddr k s L f hl hreach hfs hover => ?_, fun i hi => window_of_le hf hfit hi, ?_,
      fun endAddr k s L f s' hl hreach hfs hrun v hv => ?_⟩
    · obtain ⟨ts, zs, xs, hinv, -⟩ := hreach.inv hl fun _ hs => hs
      subst hfs
      rcases hinv.loader_begins hf with ⟨s₁, hret, -⟩ | ⟨x, us, o, d, s₁, -, -, hbegin, -⟩
      · rw [hret] at hover
        cases hover
      · obtain ⟨s₂, hnone⟩ := loadTask_overrun (hbegin.symm.trans hover)
        refine takeExtra_ne_none ?_ hnone
        rw [List.length_nil, extraPages_toNat hf, extraSize]
        omega
    · rw [userPages_eq]
      exact pagesFrom_nodup _ (by omega)
    · obtain ⟨ts, zs, xs, hinv, -⟩ := hreach.inv hl fun _ hs => hs
      subst hfs
      rcases hinv.loader_begins hf with ⟨s₁, hret, -⟩ | ⟨x, us, o, d, s₁, -, -, hbegin, hb⟩
      · rw [hret] at hrun
        cases hrun
      · obtain ⟨s₂, rfl⟩ := loadTask_running (hbegin.symm.trans hrun)
        have ha := (hb.inv.core.pcb List.mem_cons_self).inUse.aligned
        refine Registered.launch ha (registered_registerPages ha ?_ (.inl hv))
        rw [get_set_self, UInt32.toNat_zero, userPages_eq, pagesFrom, List.length_map,
          List.length_range]
        omega

/-- A file of 57 pages. -/
theorem shell_in_bounds_iff_largest : ¬ filePages 233472 > 64 ∧
    (LoaderInBounds 233472 ↔ (233472 : UInt32).toNat ≤ 57 * 4096) :=
  ⟨by decide, shell_in_bounds_iff 233472 (by decide)⟩

/-- A file of 57 pages and a byte is not refused. -/
theorem shell_out_of_bounds : ¬ filePages 233473 > 64 ∧ ¬ LoaderInBounds 233473 := by
  have hf : ¬ filePages 233473 > 64 := by decide
  refine ⟨hf, fun h => ?_⟩
  obtain ⟨s, L, hreach, hover⟩ := shell_overruns (f := ⟨233473, [], Nat.zero_le _⟩) hf (by decide)
  exact h.extra 0x102000 0x101000 s L _ Vmm.smallLayout hreach rfl hover

end HaoSys.Proc
