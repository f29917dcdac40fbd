import HaoSys.Proc.Life
import HaoSys.Proc.Shell

/-!
# The exits of the shell loader

Behind `task_create_user` the loader changes nothing of the scheduler but what
the memory managers hold, so the task it made is still at the head of
`task_list` on every return from there. The returns before that give back what
was taken, except page 0.
-/

namespace HaoSys.Proc

open HaoSys.Lib HaoSys.Mm

/-- `task` is on `task_list`, which need not end. -/
inductive Listed (s : Sched) : UInt32 → Prop where
  | head : s.taskList ≠ 0 → Listed s s.taskList
  | next {t : UInt32} : Listed s t → s.get t .next ≠ 0 → Listed s (s.get t .next)

/-- The free pages are those on entry, and no task is new on `task_list`. -/
def CleanExit (s s' : Sched) : Prop :=
  (∀ i, s'.Free i ↔ s.Free i) ∧ ∀ t, Listed s' t → Listed s t

/-- Only what the memory managers hold is another. -/
def OnMemory (s s' : Sched) : Prop := ∃ v, s' = { s with vmm := v }

section

variable {s s' s'' : Sched} {L : List Owned} {ts zs xs ys : List UInt32} {f : ShellFile}
  {t task dir codePhys : UInt32} {extra : List UInt32}

/-! ## Behind the creation of the task -/

theorem OnMemory.refl (s : Sched) : OnMemory s s := ⟨s.vmm, rfl⟩

theorem OnMemory.trans (h₁ : OnMemory s s') (h₂ : OnMemory s' s'') : OnMemory s s'' := by
  obtain ⟨v, rfl⟩ := h₁
  obtain ⟨w, rfl⟩ := h₂
  exact ⟨w, rfl⟩

theorem OnMemory.foldl {α : Type} {g : Sched → α → Sched} (hg : ∀ s a, OnMemory s (g s a)) :
    ∀ (l : List α) (s : Sched), OnMemory s (l.foldl g s)
  | [], s => .refl s
  | a :: l, s => (hg s a).trans (OnMemory.foldl hg l (g s a))

theorem onMemory_allocPage (s : Sched) : OnMemory s s.allocPage.2 := ⟨_, rfl⟩

theorem onMemory_freePage (s : Sched) (a : UInt32) : OnMemory s (s.freePage a) := ⟨_, rfl⟩

theorem onMemory_mapPage (s : Sched) (dir virt phys flags : UInt32) :
    OnMemory s (s.mapPage dir virt phys flags).2 := ⟨_, rfl⟩

theorem onMemory_unmapPage (s : Sched) (dir virt : UInt32) : OnMemory s (s.unmapPage dir virt) :=
  ⟨_, rfl⟩

theorem onMemory_freePages (s : Sched) (ps : List UInt32) : OnMemory s (s.freePages ps) :=
  OnMemory.foldl onMemory_freePage ps s

theorem onMemory_unmapMapped (s : Sched) (dir : UInt32) (virts : List UInt32) :
    OnMemory s (s.unmapMapped dir virts) := by
  refine OnMemory.foldl (fun s v => ?_) virts s
  split
  · exact onMemory_unmapPage ..
  · exact .refl s

theorem onMemory_mapWindow (ps : List (UInt32 × UInt32)) (s : Sched) :
    OnMemory s (Sched.mapWindow ps s) :=
  OnMemory.foldl (fun _ _ => onMemory_mapPage ..) ps s

theorem onMemory_unmapWindow (virts : List UInt32) (s : Sched) :
    OnMemory s (Sched.unmapWindow virts s) :=
  OnMemory.foldl (fun _ _ => onMemory_unmapPage ..) virts s

theorem onMemory_takeExtra {b : Bool} {taken : List UInt32} :
    ∀ {n : Nat} {extra : List UInt32} {s : Sched},
      Sched.takeExtra n extra s = some (b, taken, s') → OnMemory s s'
  | 0, extra, s, h => by
    obtain ⟨-, -, rfl⟩ : true = b ∧ extra = taken ∧ s = s' := by simpa [Sched.takeExtra] using h
    exact .refl s
  | n + 1, extra, s, h => by
    unfold Sched.takeExtra at h
    split at h
    · simp only at h
      split at h
      · obtain ⟨-, -, rfl⟩ : false = b ∧ extra = taken ∧ s.allocPage.2 = s' := by simpa using h
        exact onMemory_allocPage s
      · exact (onMemory_allocPage s).trans (onMemory_takeExtra h)
    · cases h

theorem onMemory_mapPages (dir : UInt32) :
    ∀ (ps : List (UInt32 × UInt32)) (s : Sched), OnMemory s (Sched.mapPages dir ps s).2
  | [], s => .refl s
  | (virt, phys) :: ps, s => by
    have hmap := onMemory_mapPage s dir virt phys (pageWrite ||| pageUser)
    unfold Sched.mapPages
    cases hr : s.mapPage dir virt phys (pageWrite ||| pageUser) with
    | mk b s₁ =>
      rw [hr] at hmap
      cases b with
      | false => exact hmap
      | true => exact hmap.trans (onMemory_mapPages dir ps s₁)

theorem onMemory_storeBytes :
    ∀ {bs : List UInt8} {virt : UInt32} {s : Sched}, s.storeBytes virt bs = some s' → OnMemory s s'
  | [], virt, s, h => by
    obtain rfl : s = s' := by simpa [Sched.storeBytes] using h
    exact .refl s
  | b :: bs, virt, s, h => by
    unfold Sched.storeBytes at h
    split at h
    · cases h
    · exact OnMemory.trans ⟨_, rfl⟩ (onMemory_storeBytes h)

theorem onMemory_clearPages :
    ∀ {virts : List UInt32} {s : Sched}, s.clearPages virts = some s' → OnMemory s s'
  | [], s, h => by
    obtain rfl : s = s' := Option.some.inj h
    exact .refl s
  | v :: virts, s, h => by
    unfold Sched.clearPages at h
    rw [List.foldlM_cons] at h
    obtain ⟨s₁, h₁, h₂⟩ := Option.bind_eq_some_iff.1 h
    exact (onMemory_storeBytes h₁).trans (onMemory_clearPages h₂)

/-- A page that is freed if it was there. -/
theorem onMemory_freeIf (s : Sched) (a : UInt32) :
    OnMemory s (if a ≠ 0 then s.freePage a else s) := by
  split
  · exact onMemory_freePage s a
  · exact .refl s

/-- The three returns from the user's stack on. -/
theorem onMemory_loadStack (h : Sched.loadStack f task dir codePhys s = .returned s') :
    OnMemory s s' := by
  have h₁ := onMemory_allocPage s
  have h₂ := onMemory_allocPage s.allocPage.2
  unfold Sched.loadStack at h
  simp only at h
  generalize s.allocPage = a₁ at *
  generalize a₁.2.allocPage = a₂ at *
  have hback := h₁.trans h₂
  have hcode : ∀ s₁, OnMemory s s₁ →
      OnMemory s ((s₁.unmapPage dir codeVirt).freePage codePhys) := fun s₁ h₁ =>
    (h₁.trans (onMemory_unmapPage ..)).trans (onMemory_freePage ..)
  split at h
  · cases h
    exact hcode _ ((hback.trans (onMemory_freeIf ..)).trans (onMemory_freeIf ..))
  have hmap := hback.trans (onMemory_mapPage a₂.2 dir (stackVirt f.fileSize) a₁.1
    (pageWrite ||| pageUser))
  split at h
  · next hr =>
    rw [hr] at hmap
    cases h
    exact hcode _ ((hmap.trans (onMemory_freePage ..)).trans (onMemory_freePage ..))
  · next s₃ hr =>
    rw [hr] at hmap
    have hmap₂ := hmap.trans (onMemory_mapPage s₃ dir (stackVirt f.fileSize + 0x1000) a₂.1
      (pageWrite ||| pageUser))
    split at h
    · next hr =>
      rw [hr] at hmap₂
      cases h
      exact hcode _ (((hmap₂.trans (onMemory_freePage ..)).trans (onMemory_freePage ..)).trans
        (onMemory_unmapPage ..))
    · cases h

theorem onMemory_loadCode (h : Sched.loadCode f task dir codePhys extra s = .returned s') :
    OnMemory s s' := by
  have hwin := onMemory_mapWindow ((pagesFrom loadVirt (codePages f.fileSize).toNat).zip
    (codePhys :: extra)) s
  unfold Sched.loadCode at h
  simp only at h
  split at h
  · cases h
  · next s₁ hs₁ =>
    split at h
    · cases h
    · next s₂ hs₂ =>
      split at h
      · cases h
      · exact (((hwin.trans (onMemory_storeBytes hs₁)).trans (onMemory_clearPages hs₂)).trans
          (onMemory_unmapWindow ..)).trans (onMemory_loadStack h)

/-- **Every return behind the creation of the task** leaves what the scheduler holds. -/
theorem onMemory_loadTask (h : Sched.loadTask f task codePhys s = .returned s') :
    OnMemory s s' := by
  unfold Sched.loadTask at h
  simp only at h
  generalize s.get task .pageDirectory = dir at h
  split at h
  · cases h
    exact onMemory_freePage ..
  have hmap := onMemory_mapPage s dir codeVirt codePhys (pageWrite ||| pageUser)
  split at h
  · next hr =>
    rw [hr] at hmap
    cases h
    exact hmap.trans (onMemory_freePage ..)
  · next s₁ hr =>
    rw [hr] at hmap
    split at h
    · cases h
    · next extra s₂ htake =>
      cases h
      exact (((hmap.trans (onMemory_takeExtra htake)).trans (onMemory_freePages ..)).trans
        (onMemory_unmapPage ..)).trans (onMemory_freePage ..)
    · next extra s₂ htake =>
      have htaken := hmap.trans (onMemory_takeExtra htake)
      have hpages := htaken.trans (onMemory_mapPages dir ((pagesFrom codeVirt
        (codePages f.fileSize).toNat).tail.zip extra) s₂)
      split at h
      · next hr =>
        rw [hr] at hpages
        cases h
        exact ((hpages.trans (onMemory_unmapMapped ..)).trans (onMemory_freePages ..)).trans
          (onMemory_freePage ..)
      · next hr =>
        rw [hr] at hpages
        exact hpages.trans (onMemory_loadCode h)

/-! ## Up to the creation of the task -/

theorem codePages_toNat {n : UInt32} (h : ¬ filePages n > 64) :
    (codePages n).toNat = (filePages n).toNat + 24 := by
  have h64 := UInt32.le_iff_toNat_le.1 (UInt32.not_lt.1 h)
  rw [codePages, UInt32.toNat_add]
  simp only [bssPages, UInt32.reduceToNat] at h64 ⊢
  omega

theorem stackVirt_toNat {n : UInt32} (h : ¬ filePages n > 64) :
    (stackVirt n).toNat = 0x10000000 + ((filePages n).toNat + 24) * 4096 := by
  have h64 := UInt32.le_iff_toNat_le.1 (UInt32.not_lt.1 h)
  rw [stackVirt, UInt32.toNat_add, UInt32.toNat_mul, codePages_toNat h]
  simp only [codeVirt, UInt32.reduceToNat] at h64 ⊢
  omega

/-- What was taken before a creation that fails is still there. -/
theorem NotCreated.fresh {r : UInt32 × Sched} {p : UInt32} (hr : NotCreated s L r ys)
    (hp : s.vmm.Fresh (dirs L) xs p) (hsub : ys ⊆ xs) : r.2.vmm.Fresh (dirs L) ys p := by
  obtain ⟨hk, hm, hpages⟩ := hr.tables.boot
  refine ⟨hp.ne_zero, ⟨hp.inUse.aligned, fun hf => hp.inUse.notFree (hsub hf), fun hb => ?_⟩,
    hk ▸ hp.notDir, fun d hd i => ?_⟩
  · exact hp.inUse.notBitmap (hb.congr hm.1 hm.2)
  · rw [hk] at hd
    rw [hr.tables.tables d hd]
    exact hp.notTable d hd i

/-- The loader has made its task: the page `x` is the first code page, `o` is the task's entry and
`d` its directory. -/
structure Begun (s : Sched) (L : List Owned) (ts zs : List UInt32) (x : UInt32) (us : List UInt32)
    (o : Owned) (d : UInt32) (s' : Sched) : Prop where
  inv : SchedInv s' (o :: L) (o.pcb :: ts) zs us.tail.tail.tail
  old : SameOld s s' L
  list : s'.taskList = o.pcb
  new : o.pcb ∉ ts
  dir : o.dir = some d
  tables : ∀ i, tableOf s'.vmm.mem d i = tableOf s'.vmm.mem s'.vmm.kernelPageDirectory i
  kernel : SameTables [] s.vmm s'.vmm
  fresh : s'.vmm.Fresh (dirs (o :: L)) us.tail.tail.tail (indexToAddr x)
  unheld : indexToAddr x ∉ held (o :: L)

/-- A page that was free when another was in use. -/
theorem ne_of_free {v : Vmm} {a i : UInt32} (h : Core v L xs) (ha : v.pmm.InUse xs a)
    (hi : i ∈ xs) : a ≠ indexToAddr i := by
  rintro rfl
  refine ha.notFree ?_
  rwa [addrToIndex_indexToAddr (h.inv.pmm.fits.lt (h.inv.pmm.lt hi))]

/-- One page from the allocator. -/
theorem SchedInv.allocPage (h : SchedInv s L ts zs xs) :
    ∃ p s', s.allocPage = (p, s') ∧ p = indexToAddr (xs.headD 0) ∧ SchedInv s' L ts zs xs.tail ∧
      SameOld s s' L ∧ SameTables (dirs L) s.vmm s'.vmm ∧
      (p ≠ 0 → s'.vmm.Fresh (dirs L) xs.tail p ∧ p ∉ held L) := by
  obtain ⟨p, pmm, halloc, hhead, he, hnew⟩ := h.core.inv.evolves_alloc
  have hold : SameOld s { s with vmm := { s.vmm with pmm := pmm } } L :=
    h.core.sameOld he.keeps rfl fun _ _ => List.not_mem_nil
  refine ⟨p, { s with vmm := { s.vmm with pmm := pmm } }, ?_, hhead,
    ⟨h.core.of_evolves_nil he, h.tasks.congr hold rfl⟩, hold,
    h.core.sameTables he.keeps fun _ _ => List.not_mem_nil, fun hp0 => ?_⟩
  · unfold Sched.allocPage
    rw [halloc]
  · obtain ⟨hfresh, hpold⟩ := hnew hp0
    exact ⟨hfresh, fun hm => hpold p (h.core.fresh p hm).inUse rfl⟩

/-- The first of the pages goes back when the rest has lost page 0 at most. -/
theorem SchedInv.giveBack {x : UInt32} {us : List UInt32} (h : SchedInv s L ts zs (x :: us))
    (h' : SchedInv s' L ts zs (us.erase 0)) (hboot : s.vmm.SameBoot s'.vmm)
    (hf : s'.vmm.Fresh (dirs L) (us.erase 0) (indexToAddr x)) (hn : indexToAddr x ∉ held L) :
    SchedInv (s'.freePage (indexToAddr x)) L ts zs ((x :: us).erase 0) := by
  have he := h.core.inv.evolves_giveBack (List.Subset.refl (x :: us)) hf.ne_zero h'.core.inv
    hboot.2.1.2 hf
  have hgone : ∀ p ∈ [indexToAddr x], s'.vmm.Fresh (dirs L) (us.erase 0) p := fun p hp =>
    List.mem_singleton.1 hp ▸ hf
  have hheld : ∀ p ∈ held L, p ∉ [indexToAddr x] := fun p hp hm => hn (List.mem_singleton.1 hm ▸ hp)
  exact ⟨h'.core.of_evolves_fresh he hgone fun p hp hm => absurd hm (hheld p hp),
    h'.tasks.congr (h'.core.sameOld he.keeps rfl hheld) rfl⟩

/-- The state when `task_create_user` has made the task. -/
theorem SchedInv.begun {x d : UInt32} {us : List UInt32} {o : Owned}
    (h : SchedInv s' L ts zs us) (hold : SameOld s s' L) (hkernel : SameTables (dirs L) s.vmm s'.vmm)
    (hfresh : s'.vmm.Fresh (dirs L) us (indexToAddr x)) (hheld : indexToAddr x ∉ held L)
    (hc : Created s' L us o s'' us.tail.tail.tail) (hd : o.dir = some d)
    (hpcb : o.pcb = indexToAddr (us.headD 0)) (hstack : o.stack = indexToAddr (us.tail.headD 0))
    (hdir : d = indexToAddr (us.tail.tail.headD 0))
    (htab : ∀ i, tableOf s''.vmm.mem d i = tableOf s'.vmm.mem s'.vmm.kernelPageDirectory i) :
    3 ≤ us.length ∧ Begun s L ts zs x us o d s'' := by
  have hmem : o ∈ o :: L := List.mem_cons_self
  have hdmem := List.mem_cons_of_mem s''.vmm.kernelPageDirectory (mem_dirs hmem hd)
  have hpcb0 := (hc.core.pcb hmem).ne_zero
  have hstack0 := (hc.core.stack hmem).ne_zero
  obtain ⟨hd0, -⟩ := hc.core.inv.dir d hdmem
  have hroot := (h.core.inv.dir _ List.mem_cons_self).2
  have htables : ∀ i, tableOf s''.vmm.mem s''.vmm.kernelPageDirectory i =
      tableOf s'.vmm.mem s'.vmm.kernelPageDirectory i := fun i => by
    rw [hc.old.boot.1]
    exact hc.keeps.tableOf hroot List.not_mem_nil
  obtain ⟨y, us, rfl, hy⟩ := cons_of_head hpcb hpcb0
  obtain ⟨z, us, rfl, hz⟩ := cons_of_head hstack hstack0
  obtain ⟨w, us, rfl, hw⟩ := cons_of_head hdir hd0
  have hne : ∀ i ∈ y :: z :: w :: us, indexToAddr x ≠ indexToAddr i := fun i hi =>
    ne_of_free h.core hfresh.inUse hi
  have hxy : indexToAddr x ≠ o.pcb := by
    rw [hy]
    exact hne y (by simp)
  have hxz : indexToAddr x ≠ o.stack := by
    rw [hz]
    exact hne z (by simp)
  have hxw : indexToAddr x ≠ d := by
    rw [hw]
    exact hne w (by simp)
  have hdirs : dirs (o :: L) = d :: dirs L := by simp [dirs, hd]
  have hheld' : held (o :: L) = o.pcb :: o.stack :: held L := by
    simp [held, Owned.held, hc.maps]
  have hkeep := hc.keeps.inUse _ hfresh.inUse List.not_mem_nil
  refine ⟨by simp, h.created hc, hold.trans hc.old, hc.list, fun hm => ?_, hd,
    fun i => (htab i).trans (htables i).symm, ⟨hold.boot.trans hc.old.boot, fun e he i => ?_⟩,
    ⟨hfresh.ne_zero, hkeep, ?_, fun e he i => ?_⟩, ?_⟩
  · exact hc.new _ (h.fresh (List.mem_append_left _ hm)).inUse rfl
  · have hroots := hkernel.tables _ List.mem_cons_self i
    rw [List.mem_singleton.1 he, ← hroots, ← hold.boot.1, ← htables i, hc.old.boot.1]
  · rw [hdirs, hc.old.boot.1]
    intro hm
    rcases List.mem_cons.1 hm with hk | hm
    · exact hfresh.notDir (hk ▸ List.mem_cons_self)
    · exact (List.mem_cons.1 hm).elim hxw fun hm => hfresh.notDir (List.mem_cons_of_mem _ hm)
  · rw [hdirs] at he
    rcases List.mem_cons.1 he with rfl | he
    · rw [htables i]
      exact hfresh.notTable _ List.mem_cons_self i
    rcases List.mem_cons.1 he with rfl | he
    · rw [htab i]
      exact hfresh.notTable _ List.mem_cons_self i
    · have hin := List.mem_cons_of_mem s'.vmm.kernelPageDirectory he
      rw [hc.keeps.tableOf (h.core.inv.dir e hin).2 List.not_mem_nil]
      exact hfresh.notTable e hin i
  · rw [hheld', List.mem_cons, List.mem_cons, not_or, not_or]
    exact ⟨hxy, hxz, hheld⟩

/-- The loader up to the creation of its task. -/
theorem SchedInv.loader_begins (h : SchedInv s L ts zs xs) (hf : ¬ filePages f.fileSize > 64) :
    (∃ s', Sched.loadAndRunShell (some f) s = .returned s' ∧ SchedInv s' L ts zs (xs.erase 0) ∧
        (0 ∉ xs → xs.length < 4)) ∨
      ∃ x us o d s', xs = x :: us ∧ 4 ≤ xs.length ∧
        Sched.loadAndRunShell (some f) s = Sched.loadTask f o.pcb (indexToAddr x) s' ∧
        Begun s L ts zs x us o d s' := by
  obtain ⟨p, s₁, halloc, hhead, hinv₁, hold₁, htab₁, hnew⟩ := h.allocPage
  unfold Sched.loadAndRunShell
  simp only [if_neg hf, halloc]
  by_cases hp0 : p = 0
  · -- no code page
    rw [if_pos hp0, ← h.core.inv.pmm.tail_eq_erase (hhead ▸ hp0)]
    refine .inl ⟨_, rfl, hinv₁, fun h0 => ?_⟩
    cases xs with
    | nil => exact Nat.succ_pos 3
    | cons x us =>
      have hx := (h.core.inv.pmm.indexToAddr_eq_zero List.mem_cons_self).1 (hhead.symm.trans hp0)
      exact absurd (hx ▸ List.mem_cons_self) h0
  obtain ⟨hfresh, hpn⟩ := hnew hp0
  obtain ⟨x, us, rfl, rfl⟩ := cons_of_head hhead hp0
  have hentry : codeVirt ≠ 0 := by decide
  have hstack : stackVirt f.fileSize ≠ 0 := fun e => by
    have := congrArg UInt32.toNat e
    rw [stackVirt_toNat hf, UInt32.toNat_zero] at this
    omega
  rw [if_neg hp0]
  rcases hinv₁.core.taskCreateUser codeVirt (stackVirt f.fileSize) with hno |
    ⟨o, d, hd, hpcb, hkstack, hdir, hr, hc, htab⟩
  · -- no task: the code page goes back
    rw [if_neg (not_or.2 ⟨hentry, hstack⟩)] at hno
    have hnull := hno.null
    rw [if_pos hnull]
    refine .inl ⟨_, rfl, h.giveBack (hinv₁.failed hno) (hold₁.boot.trans hno.tables.boot)
      (hno.fresh hfresh List.erase_subset) hpn, fun h0 => ?_⟩
    by_contra hlen
    obtain ⟨y, z, w, us, rfl⟩ : ∃ y z w vs, us = y :: z :: w :: vs := by
      match us, hlen with
      | y :: z :: w :: vs, _ => exact ⟨y, z, w, vs, rfl⟩
      | [], hlen => exact absurd (by simp) hlen
      | [_], hlen => exact absurd (by simp) hlen
      | [_, _], hlen => exact absurd (by simp) hlen
    have hroom : ∀ i ∈ y :: z :: w :: us, indexToAddr i ≠ 0 := fun i hi hz => by
      rw [hinv₁.core.inv.pmm.indexToAddr_eq_zero hi] at hz
      exact h0 (hz ▸ List.mem_cons_of_mem x hi)
    exact hinv₁.core.taskCreateUser_ne_zero (hroom y (by simp)) (hroom z (by simp))
      (hroom w (by simp)) hentry hstack hnull
  · -- the task is made
    have hpcb0 := (hc.core.pcb List.mem_cons_self).ne_zero
    rw [if_neg (hr ▸ hpcb0), hr]
    obtain ⟨hlen, hb⟩ := hinv₁.begun hold₁ htab₁ hfresh hpn hc hd hpcb hkstack hdir htab
    exact .inr ⟨x, us, o, d, _, rfl, by simpa using hlen, rfl, hb⟩

/-! ## Too few pages -/

/-- A page mapped in a task's directory. -/
theorem SchedInv.mapPage (h : SchedInv s L ts zs xs) (hd : dir ∈ dirs L) (virt phys flags : UInt32) :
    ∃ b s' ys, s.mapPage dir virt phys flags = (b, s') ∧ SchedInv s' L ts zs ys ∧
      (b = true → Vmm.MapTakes s.vmm s'.vmm xs ys dir virt) := by
  obtain ⟨ys, hcore, hw, htakes, -⟩ := h.core.mapUser hd virt phys flags
  have hold := h.core.sameOld hw.evolves.keeps hw.current fun p hp =>
    h.core.not_written hp (List.mem_cons_of_mem _ hd)
  exact ⟨_, _, ys, rfl, ⟨hcore, h.tasks.congr hold rfl⟩, htakes⟩

/-- An allocation fails before all the extra pages are there. -/
theorem SchedInv.takeExtra_short {n : Nat} (h : SchedInv s L ts zs xs) (hlen : xs.length < n)
    (hroom : extra.length + n ≤ extraSize) :
    ∃ taken s', Sched.takeExtra n extra s = some (false, taken, s') := by
  induction n generalizing s xs extra with
  | zero => exact absurd hlen (Nat.not_lt_zero _)
  | succ n ih =>
    obtain ⟨p, s', halloc, hhead, hinv, -⟩ := h.allocPage
    unfold Sched.takeExtra
    simp only [if_pos (show extra.length < extraSize by omega), halloc]
    by_cases hp : p = 0
    · exact ⟨extra, s', if_pos hp⟩
    · rw [if_neg hp]
      obtain ⟨x, us, rfl, -⟩ := cons_of_head hhead hp
      refine ih hinv ?_ ?_
      · simpa using hlen
      · rw [List.length_append, List.length_singleton]
        omega

/-- The loader comes back when the code's pages are not there. -/
theorem Begun.short {x d : UInt32} {us : List UInt32} {o : Owned} (hb : Begun s L ts zs x us o d s')
    (hlen : us.tail.tail.tail.length < (codePages f.fileSize - 1).toNat)
    (hroom : (codePages f.fileSize - 1).toNat ≤ extraSize) :
    ∃ s'', Sched.loadTask f o.pcb codePhys s' = .returned s'' := by
  have hmem : o ∈ o :: L := List.mem_cons_self
  have hdmem := mem_dirs hmem hb.dir
  have hd0 := (hb.inv.core.inv.dir d (List.mem_cons_of_mem _ hdmem)).1
  obtain ⟨b, s₁, ys, hmap, hinv, htakes⟩ :=
    hb.inv.mapPage hdmem codeVirt codePhys (pageWrite ||| pageUser)
  unfold Sched.loadTask
  simp only [(hb.inv.tasks.ok o hmem).dir d hb.dir, if_neg hd0, hmap]
  cases b with
  | false => exact ⟨_, rfl⟩
  | true =>
    have hys : ys.length ≤ us.tail.tail.tail.length := by
      rcases htakes rfl with ⟨rfl, -⟩ | ⟨y, e, -⟩
      · exact Nat.le_refl _
      · rw [e, List.length_cons]
        exact Nat.le_succ _
    have hroom' : ([] : List UInt32).length + (codePages f.fileSize - 1).toNat ≤ extraSize := by
      simpa using hroom
    obtain ⟨taken, s₂, htake⟩ := hinv.takeExtra_short (Nat.lt_of_le_of_lt hys hlen) hroom'
    simp only [htake]
    exact ⟨_, rfl⟩

/-- A shell of one byte. -/
def smallShell : ShellFile := ⟨1, [0], Nat.le_refl 1⟩

/-- The small machine makes the task and comes back. -/
theorem small_begun : ∃ s L ts zs xs x us o d s₁ s', Reachable 0x102000 0x101000 Sched.ReapsOwn s L ∧
    SchedInv s L ts zs xs ∧ Begun s L ts zs x us o d s₁ ∧
    Sched.loadAndRunShell (some smallShell) s = Sched.loadTask smallShell o.pcb (indexToAddr x) s₁ ∧
    Sched.loadTask smallShell o.pcb (indexToAddr x) s₁ = .returned s' := by
  obtain ⟨s, b, q, xs, hturn, hlen⟩ := small_turn Sched.ReapsOwn
  have h0 : 0 ∉ xs := fun hm => hturn.room 0 hm rfl
  have hf : ¬ filePages smallShell.fileSize > 64 := by decide
  rcases hturn.inv.loader_begins hf with ⟨-, -, -, hshort⟩ | ⟨x, us, o, d, s₁, rfl, -, heq, hb⟩
  · have := hshort h0
    omega
  · have hus : us.tail.tail.tail.length < (codePages smallShell.fileSize - 1).toNat := by
      rw [show (codePages smallShell.fileSize - 1).toNat = 24 by decide]
      simp only [List.length_cons, List.length_tail] at hlen ⊢
      omega
    obtain ⟨s', hr⟩ : ∃ s', Sched.loadTask smallShell o.pcb (indexToAddr x) s₁ = .returned s' :=
      hb.short hus (by decide)
    exact ⟨s, _, _, _, _, x, us, o, d, s₁, s', hturn.reach, hturn.inv, hb, heq, hr⟩

/-! ## Clean exits -/

/-- From a task that is listed on, the whole list is. -/
theorem listed_of_follows :
    ∀ {us : List UInt32} {a : UInt32}, Follows (fun t => s.get t .next) a us 0 → 0 ∉ us →
      (a ≠ 0 → Listed s a) → ∀ t ∈ us, Listed s t
  | u :: us, a, ⟨hau, hrest⟩, h0, ha, t, ht => by
    have hu : Listed s u := hau ▸ ha fun e => h0 (e ▸ hau ▸ List.mem_cons_self)
    rcases List.mem_cons.1 ht with rfl | ht
    · exact hu
    · exact listed_of_follows hrest (fun hm => h0 (List.mem_cons_of_mem u hm)) hu.next t ht

theorem SchedInv.listed_iff (h : SchedInv s L ts zs xs) : Listed s t ↔ t ∈ ts := by
  have h0 : (0 : UInt32) ∉ ts := fun hm => h.zero_not_mem (List.mem_append_left _ hm)
  refine ⟨fun hl => ?_, fun ht => listed_of_follows h.tasks.list h0 Listed.head t ht⟩
  induction hl with
  | head hne =>
    have hlist := h.tasks.list
    cases ts with
    | nil => exact absurd hlist hne
    | cons u us => exact hlist.1 ▸ List.mem_cons_self
  | next _ hne ih => exact (h.tasks.list.next_mem ih).resolve_right hne

/-- No return from the task on takes it off the list. -/
theorem Begun.not_clean {x d : UInt32} {us : List UInt32} {o : Owned} (h : SchedInv s L ts zs xs)
    (hb : Begun s L ts zs x us o d s') (hr : Sched.loadTask f o.pcb codePhys s' = .returned s'') :
    ¬ CleanExit s s'' := by
  intro hc
  obtain ⟨w, rfl⟩ := onMemory_loadTask hr
  have hpcb := (hb.inv.core.pcb List.mem_cons_self).ne_zero
  have hlisted : Listed { s' with vmm := w } o.pcb := hb.list ▸ .head (hb.list ▸ hpcb)
  exact hb.new (h.listed_iff.1 (hc.2 _ hlisted))

/-- **The loader's failures.** One that comes back is clean when it was refused before the first
page, or found fewer than four free pages, page 0 not among them. From the task on no return takes
it off the list. -/
theorem shell_returns_clean_iff {endAddr k : UInt32} (hl : Vmm.ImageLayout endAddr k)
    (h : Reachable endAddr k Sched.ReapsOwn s L) {file : Option ShellFile}
    (hr : Sched.loadAndRunShell file s = .returned s') :
    CleanExit s s' ↔ file = none ∨ (∃ f, file = some f ∧ filePages f.fileSize > 64) ∨
      (s.vmm.pmm.freePages < 4 ∧ ¬ s.Free 0) := by
  obtain ⟨ts, zs, xs, hinv, -⟩ := h.inv hl fun _ hs => hs
  have hrefl : CleanExit s s := ⟨fun _ => .rfl, fun _ ht => ht⟩
  cases file with
  | none =>
    obtain rfl : s = s' := ShellEnd.returned.inj hr
    simp [hrefl]
  | some f =>
    by_cases hf : filePages f.fileSize > 64
    · have heq : Sched.loadAndRunShell (some f) s = .returned s := if_pos hf
      obtain rfl : s = s' := ShellEnd.returned.inj (heq.symm.trans hr)
      simp [hrefl, hf]
    have hcount : s.vmm.pmm.freePages < 4 ↔ xs.length < 4 := by
      rw [UInt32.lt_iff_toNat_lt, hinv.core.inv.pmm.count]
      rfl
    simp only [reduceCtorEq, Option.some.injEq, exists_eq_left', hf, false_or, hcount,
      hinv.core.free_iff]
    rcases hinv.loader_begins hf with ⟨s₁, heq, hinv₁, hlen⟩ |
      ⟨x, us, o, d, s₁, rfl, hlen, heq, hb⟩
    · -- before there is a task
      obtain rfl : s₁ = s' := ShellEnd.returned.inj (heq.symm.trans hr)
      constructor
      · rintro ⟨hfree, -⟩
        have h0 : 0 ∉ xs := fun hm => by
          have hm' := (hfree 0).2 ((hinv.core.free_iff 0).2 hm)
          rw [hinv₁.core.free_iff] at hm'
          exact hinv.core.inv.pmm.nodup.not_mem_erase hm'
        exact ⟨hlen h0, h0⟩
      · rintro ⟨-, h0⟩
        rw [List.erase_of_not_mem h0] at hinv₁
        refine ⟨fun i => ?_, fun t => ?_⟩
        · rw [hinv₁.core.free_iff, hinv.core.free_iff]
        · rw [hinv₁.listed_iff, hinv.listed_iff]
          exact id
    · -- the task stays on the list
      exact iff_of_false (hb.not_clean hinv (heq.symm.trans hr)) fun hs =>
        absurd hs.1 (Nat.not_lt.2 hlen)

theorem shell_returns_clean_iff_small : ∃ s L s', Reachable 0x102000 0x101000 Sched.ReapsOwn s L ∧
    Sched.loadAndRunShell (some smallShell) s = .returned s' ∧
    (CleanExit s s' ↔ some smallShell = none ∨
      (∃ f, some smallShell = some f ∧ filePages f.fileSize > 64) ∨
      (s.vmm.pmm.freePages < 4 ∧ ¬ s.Free 0)) := by
  obtain ⟨s, L, _, _, _, _, _, _, _, _, s', hreach, -, -, heq, hr⟩ := small_begun
  exact ⟨s, L, s', hreach, heq.trans hr,
    shell_returns_clean_iff Vmm.smallLayout hreach (heq.trans hr)⟩

/-- A shell that does not fit leaves its task behind. -/
theorem shell_leaves_task : ∃ s L s', Reachable 0x102000 0x101000 Sched.ReapsOwn s L ∧
    Sched.loadAndRunShell (some smallShell) s = .returned s' ∧ ¬ CleanExit s s' := by
  obtain ⟨s, L, _, _, _, _, _, _, _, _, s', hreach, hinv, hb, heq, hr⟩ := small_begun
  exact ⟨s, L, s', hreach, heq.trans hr, hb.not_clean hinv hr⟩

end

end HaoSys.Proc
