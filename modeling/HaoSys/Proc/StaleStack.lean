import HaoSys.Proc.Intact
import Mathlib.Data.List.Find

/-!
# A frame on a stack that is freed

Where a kernel task exits and a user task is next, `tss.esp0` stays the end of the
exited task's stack. The frame of the user task's next system call goes there, and
the call of `schedule` that it makes frees that stack. The next task to be created
gets the page, so that the switch back pops what its creation has laid there.

The run is one of the small machine. Its idle task has launched a program and keeps
its state, so `schedule` goes to none but the others (`Round`).
-/

namespace HaoSys.Proc

open HaoSys.Lib HaoSys.Mm

/-- The list around the current task. The idle task was left running, and nothing goes to it. -/
structure Round (s : Sched) (L : List Owned) (l : List UInt32) (c : UInt32)
    (r zs xs : List UInt32) : Prop where
  inv : SchedInv s L (l ++ c :: r) zs xs
  settled : Settled s L
  task : s.currentTask = c
  running : s.get c .state = TaskState.running.code
  idle : s.get s.idleTask .state = TaskState.running.code

section

variable {s s' : Sched} {m : Machine} {L : List Owned} {l l' r r' zs xs : List UInt32}
  {c n x y sp entry : UInt32} {o : Owned}

theorem Round.mem_idle (h : Round s L l c r zs xs) : s.idleTask ∈ (l ++ c :: r) ++ zs :=
  List.mem_append_left _ h.inv.tasks.idle

/-- The others are ready, but for the idle task. -/
theorem Round.ready (h : Round s L l c r zs xs) {t : UInt32} (ht : t ∈ r ++ l) :
    t ≠ c ∧ s.hasState t .ready = decide (t ≠ s.idleTask) := by
  have hnd := h.inv.nodup
  refine ⟨by grind, ?_⟩
  by_cases hidle : t = s.idleTask
  · rw [hidle, Sched.hasState, h.idle]
    simp
    decide
  · have hready := (h.inv.tasks.ready t (by grind) (by rw [h.task]; grind)).resolve_right
      fun e => hidle e.1
    rw [hasState_iff.2 hready]
    simp [hidle]

/-- `schedule` goes to the next task that is not the idle task. -/
theorem Round.findNext (h : Round s L l c r zs xs)
    (hf : (r ++ l).find? (fun t => t ≠ s.idleTask) = some n) : s.findNext = some n := by
  have hinv := h.inv
  rw [← h.task] at hinv
  rw [hinv.findNext_eq, ← hf]
  exact List.find?_congr fun t ht => (h.ready ht).2

/-- The call, once it is known what it reaps. -/
theorem Round.schedule_eq (h : Round s L l c r zs xs)
    (hf : (r ++ l).find? (fun t => t ≠ s.idleTask) = some n) {fuel : Nat}
    {log : List (UInt32 × List UInt32)} (hreap : Sched.reapZombies fuel s = some (log, s'))
    (sp : UInt32) : s.schedule fuel sp = some ⟨log, true, s'.enter sp n⟩ := by
  have hterm : s.hasState s.currentTask .terminated = false := by
    rw [h.task]
    exact not_terminated h.running
  unfold Sched.schedule Sched.switchTo
  rw [if_neg h.inv.current_ne_zero, if_neg (by simp [hterm]), h.findNext hf]
  simp only [hreap, Option.map_some]

theorem reschedule_eq {fuel : Nat} {log : List (UInt32 × List UInt32)} {back : Machine → Machine}
    (hr : m.sched.schedule fuel m.cpu.esp = some ⟨log, true, s'⟩) :
    m.reschedule fuel back = some (log.map Prod.fst, ⟨s', s'.resume m.cpu.eflags⟩) := by
  unfold Machine.reschedule
  rw [hr]
  rfl

theorem Round.sysYield_eq (h : Round m.enterKernel.sched L l c r zs xs)
    (hf : (r ++ l).find? (fun t => t ≠ m.enterKernel.sched.idleTask) = some n) {fuel : Nat}
    {log : List (UInt32 × List UInt32)}
    (hreap : Sched.reapZombies fuel m.enterKernel.sched = some (log, s')) :
    m.sysYield fuel m.enterKernel.mem = some (log.map Prod.fst,
      ⟨s'.enter m.enterKernel.cpu.esp n,
        (s'.enter m.enterKernel.cpu.esp n).resume m.enterKernel.cpu.eflags⟩) := by
  have hself : m.enterKernel.setMem m.enterKernel.mem = m.enterKernel := rfl
  unfold Machine.sysYield
  rw [hself]
  exact reschedule_eq (h.schedule_eq hf hreap _)

/-! ## The steps -/

theorem Round.created {t : UInt32 × Sched} {ys : List UInt32} (h : Round s L l c r zs xs)
    (hc : Created s L xs o t.2 ys) (hr : t.1 = o.pcb)
    (hstack : o.stack = indexToAddr (xs.tail.headD 0)) :
    Round t.2 (o :: L) (o.pcb :: l) c r zs ys ∧ record L t = o :: L := by
  have hset := h.settled.created h.inv (.inr ⟨o, ys, hstack, hr, hc⟩)
  have hrec := record_created hc hr
  rw [hrec] at hset
  have hget : ∀ u ∈ (l ++ c :: r) ++ zs, ∀ f, t.2.get u f = s.get u f := by
    intro u hu f
    obtain ⟨o', ho', rfl⟩ := h.inv.entry hu
    exact hc.old.get ho' f
  refine ⟨⟨h.inv.created hc, hset, hc.old.current.trans h.task, ?_, ?_⟩, hrec⟩
  · rw [hget c (by simp)]
    exact h.running
  · rw [hc.old.idle, hget _ h.mem_idle]
    exact h.idle

/-- `task_create` with two free pages at hand. -/
theorem Round.taskCreate (h : Round s L l c r zs (x :: y :: xs)) (hx : indexToAddr x ≠ 0)
    (hy : indexToAddr y ≠ 0) (he : entry ≠ 0) :
    Created s L (x :: y :: xs) ⟨indexToAddr x, indexToAddr y, none, []⟩ (s.taskCreate entry).2 xs ∧
      (s.taskCreate entry).1 = indexToAddr x ∧
      (s.taskCreate entry).2.get (indexToAddr x) .pageDirectory = s.vmm.currentDirectory ∧
      Round (s.taskCreate entry).2 (⟨indexToAddr x, indexToAddr y, none, []⟩ :: L)
        (indexToAddr x :: l) c r zs xs ∧
      record L (s.taskCreate entry) = ⟨indexToAddr x, indexToAddr y, none, []⟩ :: L := by
  obtain ⟨hr, hpd, hc⟩ := h.inv.core.taskCreate_pages hx hy he
  exact ⟨hc, hr, hpd, h.created hc hr rfl⟩

theorem Round.enter (h : Round s L l c r [] xs) (hc : s.idleTask ≠ c) (hn : s.idleTask ≠ n)
    (hts : l ++ c :: r = l' ++ n :: r') (sp : UInt32) :
    Round (s.enter sp n) L l' n r' [] xs ∧ (s.enter sp n).esp0 = (s.enter sp n).get n .kernelEsp0 ∧
      Switched (dirs L) s (s.enter sp n) (l ++ c :: r) n := by
  have hmem : n ∈ l ++ c :: r := hts ▸ by simp
  obtain ⟨hinv, hsw, hesp0⟩ := h.inv.enter sp hmem
  have hset := h.settled.same hsw.tables.boot hsw.idle
  obtain ⟨o, ho, hpcb⟩ := hinv.entry (List.mem_append_left _ hmem)
  have hesp := (hinv.tasks.ok o ho).esp0
  rw [hpcb, hsw.idle, if_neg hn.symm] at hesp
  rw [List.append_nil] at hsw
  refine ⟨⟨hts ▸ hinv, hset, hsw.current, hsw.running, ?_⟩, hesp0 ?_, hsw⟩
  · rw [hsw.idle, hsw.states _ h.inv.tasks.idle hn, h.task, if_neg hc]
    exact h.idle
  · rw [hesp]
    exact hset.stack o ho

/-- The current task exits. The branch of `schedule` for that leaves `tss.esp0`. -/
theorem Round.exit (h : Round s L l c r zs xs) (hc : s.idleTask ≠ c)
    (hf : (r ++ l).find? (fun t => t ≠ s.idleTask) = some n) (hts : l ++ r = l' ++ n :: r')
    (sp : UInt32) :
    ∃ s', s.markTerminated.schedule (l.length + 1) sp = some ⟨[], true, s'⟩ ∧
      Round s' L l' n r' (c :: zs) xs ∧ s'.idleTask = s.idleTask ∧ s'.esp0 = s.esp0 ∧
      (∀ t ∈ (l ++ c :: r) ++ zs, ∀ f, f ≠ .next → f ≠ .state → s'.get t f = s.get t f) ∧
      s.vmm.SameBoot s'.vmm ∧
      (s'.get n .pageDirectory ≠ 0 → s'.vmm.currentDirectory = s'.get n .pageDirectory) := by
  obtain ⟨-, hterm, hcur, hidle, hset⟩ := h.inv.exiting h.settled
  obtain ⟨hinv, heq⟩ := h.inv.markTerminated
  have hmem : c ∈ (l ++ c :: r) ++ zs := by simp
  have hother : ∀ t ∈ (l ++ c :: r) ++ zs, ∀ f, f ≠ .state ∨ t ≠ c →
      s.markTerminated.get t f = s.get t f := fun t ht f hf => by
    rw [heq, h.task]
    exact get_set_of_ne (h.inv.aligned hmem) (h.inv.aligned ht) hf
  have hesp0 : s.markTerminated.esp0 = s.esp0 := by rw [heq]; rfl
  have hboot : s.vmm.SameBoot s.markTerminated.vmm := by
    rw [heq]
    exact Vmm.sameBoot_setMem ..
  rw [h.task] at hcur
  generalize s.markTerminated = y at *
  have hfirst : y.firstReady (r ++ l) = n := by
    have hagree : ∀ t ∈ r ++ l, y.hasState t .ready = decide (t ≠ s.idleTask) := fun t ht => by
      obtain ⟨hne, hready⟩ := h.ready ht
      rw [← hready, Sched.hasState, Sched.hasState, hother t (by grind) _ (.inr hne)]
    unfold Sched.firstReady
    rw [List.find?_congr hagree, hf]
    rfl
  rw [← hcur] at hinv
  obtain ⟨s', hcall, hinv', hsw, hesp, hwords⟩ := hinv.schedule_exit hterm
    (by rw [hcur, hidle]; exact hc.symm) (Nat.lt_succ_self l.length) sp
  rw [hfirst] at hsw
  rw [hcur, hts] at hinv'
  rw [hcur] at hwords
  have hidle' : s'.idleTask = s.idleTask := hsw.idle.trans hidle
  have hlist : s.idleTask ∈ l ++ r := by
    have := h.inv.tasks.idle
    grind
  refine ⟨s', hcall, ⟨hinv', hset.same hsw.tables.boot hsw.idle, hsw.current, hsw.running, ?_⟩,
    hidle', hesp.trans hesp0, fun t ht f h1 h2 => ?_, hboot.trans hsw.tables.boot, hsw.directory⟩
  · have hne : s.idleTask ≠ n := fun e => by
      have := List.find?_some hf
      simp [e] at this
    rw [hidle', hsw.states _ hlist hne, hcur, if_neg hc, hother _ h.mem_idle _ (.inr hc)]
    exact h.idle
  · rw [hwords t ht f h1 h2, hother t ht f (.inl h2)]

/-- A program stops, on whatever stack `tss.esp0` is the end of. -/
theorem Round.enterKernel (h : Round m.sched L l c r zs xs) (ho : o ∈ L) (h3 : m.cpu.ring3 = true)
    (hesp0 : m.sched.esp0 = slot o.stack 1024) :
    Round m.enterKernel.sched L l c r zs xs ∧
      m.enterKernel.sched.idleTask = m.sched.idleTask ∧
      m.enterKernel.sched.vmm.currentDirectory = m.sched.vmm.currentDirectory ∧
      m.sched.vmm.SameBoot m.enterKernel.sched.vmm ∧
      m.enterKernel.cpu = { m.cpu.cli with cs := 0x08, esp := slot o.stack 1011, ss := 0x10 } ∧
      m.enterKernel.sched.get c .esp = slot o.stack 1011 ∧
      (∀ t ∈ (l ++ c :: r) ++ zs, ∀ f, f ≠ .esp → m.enterKernel.sched.get t f = m.sched.get t f) ∧
      ∀ o' ∈ L, o' ≠ o → o'.pcb ≠ c → Untouched o' m.mem m.enterKernel.mem := by
  have ha := (h.inv.core.stack ho).inUse.aligned
  obtain ⟨w, hE⟩ := enterKernel_ring3 ha h.inv.current_ne_zero h3 hesp0
  obtain ⟨hinv, hget⟩ := h.inv.write ho List.mem_cons_self hE.off
  have hmem : c ∈ (l ++ c :: r) ++ zs := by simp
  have hword : ∀ t ∈ (l ++ c :: r) ++ zs, ∀ f, f ≠ .esp →
      m.enterKernel.sched.get t f = m.sched.get t f := fun t ht f hf => by
    rw [hE.eq, h.task]
    exact (get_set_of_ne (h.inv.aligned hmem) (h.inv.aligned ht) (.inl hf)).trans (hget t ht f)
  have hidle : m.enterKernel.sched.idleTask = m.sched.idleTask := by rw [hE.eq]; rfl
  have hcur : m.enterKernel.sched.currentTask = m.sched.currentTask := by rw [hE.eq]; rfl
  have hboot : m.sched.vmm.SameBoot m.enterKernel.sched.vmm := by
    rw [hE.eq]
    exact Vmm.sameBoot_setMem ..
  refine ⟨⟨?_, h.settled.same hboot hidle, hcur.trans h.task, ?_, ?_⟩, hidle, ?_, hboot, ?_, ?_,
    hword, fun o' ho' hne hpcb => ?_⟩
  · rw [hE.eq, h.task]
    exact hinv.saveEsp hmem _
  · rw [hword c hmem _ (by simp)]
    exact h.running
  · rw [hidle, hword _ h.mem_idle _ (by simp)]
    exact h.idle
  · rw [hE.eq]
    rfl
  · rw [hE.eq]
  · rw [hE.eq, h.task]
    exact get_set_self ..
  · have hno : o.stack ∉ o'.held := fun hs => hne <|
      h.inv.core.eq_of_held ho' ho hs (List.mem_cons_of_mem _ List.mem_cons_self)
    rw [hE.eq, h.task]
    exact (h.inv.core.untouched_write ho' ha hno hE.off).trans
      (h.inv.untouched_set ho' hmem (fun _ => hpcb) w _)

/-- The only zombie is a kernel task of the current directory: its two pages are the first that are
free then. -/
theorem Round.reap (h : Round s L l c r [o.pcb] xs) (ho : o ∈ L) (hmaps : o.maps = [])
    (hpd : s.get o.pcb .pageDirectory = s.vmm.currentDirectory)
    (hbound : ∀ p ∈ [o.stack, o.pcb], addrToIndex p < s.vmm.pmm.totalPages) :
    ∃ w, Sched.reapZombies 1 s =
        some ([(o.pcb, [o.stack, o.pcb])], { s with zombieList := 0, vmm := w }) ∧
      Round { s with zombieList := 0, vmm := w } (L.filter fun o' => o'.pcb ∉ [o.pcb]) l c r []
        (addrToIndex o.pcb :: addrToIndex o.stack :: xs) ∧
      Left s.vmm (L.filter fun o' => o'.pcb ∉ [o.pcb]) w
        (addrToIndex o.pcb :: addrToIndex o.stack :: xs) := by
  have hcore := h.inv.core.perm (h.inv.core.filter_perm ho)
  obtain ⟨hz, hnext⟩ : s.zombieList = o.pcb ∧ s.get o.pcb .next = 0 := h.inv.tasks.zombies
  have hz0 : s.zombieList ≠ 0 := hz ▸ (h.inv.core.pcb ho).ne_zero
  have hidle : o.pcb ≠ s.idleTask := fun heq => by
    have hnd := h.inv.nodup
    have hmem := h.inv.tasks.idle
    rw [← heq] at hmem
    exact (List.nodup_append.1 hnd).2.2 _ hmem _ (by simp) rfl
  have hok : TaskOk { s with zombieList := 0 } o :=
    (h.inv.tasks.ok o ho).congr rfl fun _ _ _ _ => rfl
  have hfree := Core.freeTask_current (s := { s with zombieList := 0 }) hcore hok hmaps hidle
    (h.settled.stack o ho) hpd
  have hrun : Sched.reapZombies 1 s = some ([(o.pcb, [o.stack, o.pcb])],
      { s with zombieList := 0, vmm := [o.stack, o.pcb].foldl Vmm.freePage s.vmm }) := by
    unfold Sched.reapZombies
    rw [if_neg hz0, hz]
    simp only [hnext, hfree]
    rfl
  obtain ⟨log, w, ys, hrun', -, hleft, hinv, -⟩ := h.inv.reapZombies (fun z hm => by
    rw [List.mem_singleton.1 hm]
    exact .inl hpd) (show [o.pcb].length ≤ 1 from Nat.le_refl 1)
  have hw : w = [o.stack, o.pcb].foldl Vmm.freePage s.vmm := by
    rw [hrun'] at hrun
    exact congrArg Sched.vmm (Prod.mk.inj (Option.some.inj hrun)).2
  have hfresh : ∀ p ∈ [o.stack, o.pcb], s.vmm.Fresh (dirs L) xs p := fun p hp => by
    rcases List.mem_pair.1 hp with rfl | rfl
    · exact h.inv.core.stack ho
    · exact h.inv.core.pcb ho
  have hnd : [o.stack, o.pcb].Nodup := by
    have hne := h.inv.core.pcb_ne_stack ho
    simp [hne.symm]
  have he := h.inv.core.inv.evolves_frees hfresh hnd hbound
  rw [← hw] at he hrun
  obtain rfl := hleft.core.inv.pmm.unique he.inv.pmm
  -- the tasks of the list keep their words
  have hget : ∀ t ∈ l ++ c :: r, ∀ f,
      Sched.get { s with zombieList := 0, vmm := w } t f = s.get t f := fun t ht f => by
    obtain ⟨o', ho', rfl⟩ := hinv.entry (List.mem_append_left _ ht)
    exact hleft.held _ (pcb_mem_held ho') _ f.index_lt
  refine ⟨w, hrun, ⟨hinv, ?_, h.task, ?_, ?_⟩, hleft⟩
  · exact h.settled.congr hleft.boot rfl fun o' ho' =>
      ⟨o', List.mem_of_mem_filter ho', rfl, rfl, rfl⟩
  · rw [hget c (by simp)]
    exact h.running
  · exact (hget _ h.inv.tasks.idle _).trans h.idle

/-- The end of `load_and_run_shell`. -/
theorem Round.launch (h : Round s L l c r zs xs) (hc : s.currentTask = s.idleTask)
    (hts : l ++ c :: r = l' ++ n :: r') (hpd : s.get n .pageDirectory ≠ 0) :
    Round (s.launch n) L l' n r' zs xs ∧ (s.launch n).idleTask = s.idleTask ∧
      (s.launch n).vmm.currentDirectory = (s.launch n).get n .pageDirectory := by
  have hmem : n ∈ l ++ c :: r := hts ▸ by simp
  have hall := List.mem_append_left zs hmem
  have hinv := h.inv.launch hc hmem (hasState_iff.2 (h.task ▸ h.running))
  have hword := fun t ht f => h.inv.launch_words hmem (u := t) ht f
  obtain ⟨e, d, heq⟩ := launch_eq s n
  have hidle : (s.launch n).idleTask = s.idleTask := by
    rw [heq]
    rfl
  refine ⟨⟨hts ▸ hinv, ?_, rfl, (hword n hall .state).trans (if_pos ⟨rfl, rfl⟩), ?_⟩, hidle, ?_⟩
  · rw [heq]
    exact h.settled.same (Vmm.sameBoot_setMem ..) rfl
  · rw [hidle, hword _ h.mem_idle .state]
    split
    · rfl
    · exact h.idle
  · have hword' : (s.set n .state TaskState.running.code).get n .pageDirectory =
        s.get n .pageDirectory :=
      get_set_of_ne (h.inv.aligned hall) (h.inv.aligned hall) (.inl (by simp))
    rw [hword n hall .pageDirectory, if_neg (by simp)]
    unfold Sched.launch
    generalize s.set n .state TaskState.running.code = s₁ at hword'
    simp only [Vmm.vmmSwitchDirectory]
    split
    · next h0 => exact absurd (hword'.symm.trans h0) hpd
    · exact hword'

/-! ## The run up to the exit -/

/-- The steps of a run without what it saves. -/
abbrev Steps (a b : Machine × List Owned) : Prop :=
  Relation.ReflTransGen (fun a b => ∃ e, Step a e b) a b

theorem Steps.live {a b : Machine × List Owned} (h : Live a.1 a.2) (hr : Steps a b) :
    Live b.1 b.2 := by
  induction hr with
  | refl => exact h
  | tail _ hs ih =>
    obtain ⟨e, hs⟩ := hs
    exact (hs.next ih).live

/-- `z` is a kernel task of the directory of the user task `u`. -/
structure Child (s : Sched) (L : List Owned) (u z : Owned) : Prop where
  user : u ∈ L
  dir : u.dir.isSome = true
  child : z ∈ L
  kernel : z.dir = none
  maps : z.maps = []
  directory : s.get z.pcb .pageDirectory = s.get u.pcb .pageDirectory
  bound : ∀ p ∈ [z.stack, z.pcb], addrToIndex p < s.vmm.pmm.totalPages

theorem Child.congr {L' : List Owned} {u z : Owned} (h : Child s L u z) (hL : L ⊆ L')
    (hword : ∀ o ∈ L, s'.get o.pcb .pageDirectory = s.get o.pcb .pageDirectory)
    (hboot : s.vmm.SameBoot s'.vmm) : Child s' L' u z := by
  refine ⟨hL h.user, h.dir, hL h.child, h.kernel, h.maps, ?_, ?_⟩
  · rw [hword z h.child, hword u h.user, h.directory]
  · rw [hboot.2.1.2]
    exact h.bound

/-- In ring 3 `tss.esp0` is the end of the task's own stack. -/
theorem Live.program_esp0 (h : Live m L) (ho : o ∈ L) (hpcb : o.pcb = m.sched.currentTask)
    (h3 : m.cpu.ring3 = true) : m.sched.esp0 = slot o.stack 1024 := by
  cases h.runs o ho hpcb with
  | idle _ h0 =>
    rw [h3] at h0
    cases h0
  | program _ _ he => exact he
  | syscall _ he => exact he
  | task _ _ hin =>
    rw [hin.ring3] at h3
    cases h3

/-- The end of a system call is in ring 3. -/
theorem Live.leave_ring3 (h : Live m L) (ho : o ∈ L) (hpcb : o.pcb = m.sched.currentTask)
    (hd : o.dir.isSome = true) (h0 : m.cpu.ring3 = false) (hesp : m.cpu.esp = slot o.stack 1011) :
    m.leaveKernel.cpu.ring3 = true := by
  cases h.runs o ho hpcb with
  | idle hid => exact absurd hid (h.idle_dir ho hd)
  | program _ h3 =>
    rw [h0] at h3
    cases h3
  | syscall _ _ _ _ htrap =>
    change (popFrame m.mem m.cpu.esp).ring3 = true
    rw [hesp]
    exact popFrame_ring3 htrap
  | task hno =>
    rw [hno] at hd
    cases hd

/-- The small machine boots, makes a user task and launches it. -/
theorem user_launched : ∃ a s L u xs, Boot 0x102000 0x101000 a ∧ Steps a (s, L) ∧
    Round s.sched L [] u.pcb [s.sched.idleTask] [] xs ∧ u ∈ L ∧ u.dir.isSome = true ∧
    s.cpu.ring3 = true ∧ s.sched.vmm.currentDirectory = s.sched.get u.pcb .pageDirectory ∧
    4 ≤ xs.length ∧ ∀ i ∈ xs, indexToAddr i ≠ 0 := by
  obtain ⟨hfree, hbit, -⟩ := small_boot_facts
  obtain ⟨s, e, q, xs, hboot, hinv, hcur, hidle, hlen, hroom⟩ :=
    boot_pages Vmm.smallLayout smallPmm_init (hfree ▸ by decide) hbit
  rw [hfree] at hlen
  obtain ⟨x₁, x₂, x₃, xs, rfl⟩ : ∃ x₁ x₂ x₃ us, xs = x₁ :: x₂ :: x₃ :: us := by
    have hthree : 3 ≤ xs.length := by omega
    match xs, hthree with
    | x₁ :: x₂ :: x₃ :: us, _ => exact ⟨x₁, x₂, x₃, us, rfl⟩
  have hone : (1 : UInt32) ≠ 0 := by decide
  have h0 : Cpu.ring3 ⟨.clear, 0, 0x08, 0, 0, 0x10⟩ = false := by decide
  have hlive := hboot.live Vmm.smallLayout
  have hrun : s.get s.currentTask .state = TaskState.running.code := hlive.running
  have h₀ : Round s [⟨e, q, none, []⟩] [] e [] [] (x₁ :: x₂ :: x₃ :: xs) :=
    ⟨hinv, hlive.settled, hcur, hcur ▸ hrun, by rw [hidle, ← hcur]; exact hrun⟩
  -- the user task
  have hmade := hinv.core.taskCreateUser_ne_zero (hroom x₁ (by simp)) (hroom x₂ (by simp))
    (hroom x₃ (by simp)) hone hone
  have hs₁ : Step (⟨s, ⟨.clear, 0, 0x08, 0, 0, 0x10⟩⟩, [⟨e, q, none, []⟩]) .createUser _ :=
    .createUser 1 1 h0
  rcases hinv.core.taskCreateUser 1 1 with hno | ⟨u, d, hd, -, hstack, -, hr, hc, -⟩
  · exact absurd hno.null hmade
  obtain ⟨h₁, hrec⟩ := h₀.created hc hr hstack
  rw [hrec] at hs₁
  have hlive₁ := (hs₁.next hlive).live
  have hidle₁ : (s.taskCreateUser 1 1).2.idleTask = e := hc.old.idle.trans hidle
  have hcur₁ : (s.taskCreateUser 1 1).2.currentTask = e := hc.old.current.trans hcur
  have hmem : u ∈ u :: [(⟨e, q, none, []⟩ : Owned)] := List.mem_cons_self
  have hpd : (s.taskCreateUser 1 1).2.get u.pcb .pageDirectory ≠ 0 := by
    rw [hc.dir d hd]
    exact (hc.core.inv.dir d (List.mem_cons_of_mem _ (mem_dirs hmem hd))).1
  have huser : (s.taskCreateUser 1 1).2.isUserTask u.pcb = true := by
    rw [Sched.isUserTask, hc.user, hd]
    rfl
  -- it is launched
  generalize (s.taskCreateUser 1 1).2 = s₁ at *
  have hon : s₁.OnList u.pcb := h₁.inv.onList_iff.2 (by simp)
  have hs₂ : Step (⟨s₁, ⟨.clear, 0, 0x08, 0, 0, 0x10⟩⟩, u :: [(⟨e, q, none, []⟩ : Owned)])
      (.launch u.pcb) _ := .launch 1 1 (hcur₁.trans hidle₁.symm) hon huser
  obtain ⟨h₂, hidle₂, hdir⟩ := h₁.launch (hcur₁.trans hidle₁.symm)
    (show _ = [] ++ u.pcb :: [e] from rfl) hpd
  have hcur₂ : (s₁.launch u.pcb).idleTask = e := hidle₂.trans hidle₁
  refine ⟨_, _, _, u, xs, hboot, (Relation.ReflTransGen.single ⟨_, hs₁⟩).tail ⟨_, hs₂⟩, ?_, hmem,
    by rw [hd]; rfl, ?_, hdir, ?_, fun i hi => hroom i (by simp [hi])⟩
  · change Round (s₁.launch u.pcb) _ [] u.pcb [(s₁.launch u.pcb).idleTask] [] xs
    rw [hcur₂]
    exact h₂
  · exact decide_eq_true (by decide : (0x1B : UInt32) &&& 3 = 3)
  · simp at hlen
    omega

/-- The program makes a kernel task, whose directory is its own then. -/
theorem small_forked : ∃ a s L u z xs, Boot 0x102000 0x101000 a ∧ Steps a (s, L) ∧
    Round s.sched L [z.pcb] u.pcb [s.sched.idleTask] [] xs ∧ Child s.sched L u z ∧
    s.cpu.ring3 = true ∧ 2 ≤ xs.length ∧ ∀ i ∈ xs, indexToAddr i ≠ 0 := by
  obtain ⟨a, s, L, u, xs, hboot, hrun, h, hu, hd, h3, hdir, hlen, hroom⟩ := user_launched
  obtain ⟨x, y, xs, rfl⟩ : ∃ x y us, xs = x :: y :: us := by
    have htwo : 2 ≤ xs.length := by omega
    match xs, htwo with
    | x :: y :: us, _ => exact ⟨x, y, us, rfl⟩
  have hlive : Live s L := hrun.live (hboot.live Vmm.smallLayout)
  -- the system call
  have hs₁ : Step (s, L) .trap _ := .trap h3
  obtain ⟨h₁, hidle₁, hdir₁, -, hcpu₁, -, hword₁, -⟩ := h.enterKernel hu h3
    (hlive.program_esp0 hu h.task.symm h3)
  have hlive₁ : Live s.enterKernel L := (hs₁.next hlive).live
  have h0₁ : s.enterKernel.cpu.ring3 = false := by
    rw [hcpu₁]
    exact decide_eq_false (by decide : ¬ (0x08 : UInt32) &&& 3 = 3)
  -- makes the task
  have hs₂ : Step (s.enterKernel, L) .create _ := .create 1 h0₁
  obtain ⟨hc, -, hpd, h₂, hrec⟩ := h₁.taskCreate (hroom x (by simp)) (hroom y (by simp))
    (show (1 : UInt32) ≠ 0 by decide)
  rw [hrec] at hs₂
  have hlive₂ : Live { s.enterKernel with sched := (s.enterKernel.sched.taskCreate 1).2 }
      (⟨indexToAddr x, indexToAddr y, none, []⟩ :: L) := (hs₂.next hlive₁).live
  have hchild : Child (s.enterKernel.sched.taskCreate 1).2
      (⟨indexToAddr x, indexToAddr y, none, []⟩ :: L) u
      ⟨indexToAddr x, indexToAddr y, none, []⟩ := by
    refine ⟨List.mem_cons_of_mem _ hu, hd, List.mem_cons_self, rfl, rfl, ?_, fun p hp => ?_⟩
    · have hword := hword₁ u.pcb (by simp) .pageDirectory (by simp)
      rw [hc.old.get hu, hword, ← hdir, ← hdir₁, ← hpd]
    · have hlt : ∀ i ∈ x :: y :: xs, addrToIndex (indexToAddr i) <
          s.enterKernel.sched.vmm.pmm.totalPages := fun i hi => by
        have hlt := h₁.inv.core.inv.pmm.lt hi
        rwa [addrToIndex_indexToAddr (h₁.inv.core.inv.pmm.fits.lt hlt)]
      rw [hc.old.boot.2.1.2]
      rcases List.mem_pair.1 hp with rfl | rfl
      · exact hlt y (by simp)
      · exact hlt x (by simp)
  rw [← hidle₁, ← hc.old.idle] at h₂
  generalize hz : (⟨indexToAddr x, indexToAddr y, none, []⟩ : Owned) = z at hs₂ hlive₂ hchild h₂
  have hpcb : indexToAddr x = z.pcb := by rw [← hz]
  rw [hpcb] at h₂
  generalize (s.enterKernel.sched.taskCreate 1).2 = x₂ at hs₂ hlive₂ hchild h₂
  -- and returns
  have hu₂ : u ∈ z :: L := List.mem_cons_of_mem _ hu
  have hesp : s.enterKernel.cpu.esp = slot u.stack 1011 := by rw [hcpu₁]
  have hs₃ : Step ({ s.enterKernel with sched := x₂ }, z :: L) .sysret _ :=
    .sysret hu₂ h₂.task.symm hd h0₁ hesp
  refine ⟨a, _, _, u, z, xs, hboot, ((hrun.tail ⟨_, hs₁⟩).tail ⟨_, hs₂⟩).tail ⟨_, hs₃⟩, h₂, hchild,
    hlive₂.leave_ring3 hu₂ h₂.task.symm hd h0₁ hesp, ?_, fun i hi => hroom i (by simp [hi])⟩
  simp at hlen
  omega

/-- `z` runs and is about to exit, `u` is next; `v` is a kernel task that `z` has made. -/
structure Handover (m : Machine) (L : List Owned) (u z v : Owned) (xs : List UInt32) : Prop where
  live : Live m L
  round : Round m.sched L [v.pcb] z.pcb [u.pcb, m.sched.idleTask] [] xs
  child : Child m.sched L u z
  maker : v ∈ L
  kernel : v.dir = none
  esp0 : m.sched.esp0 = slot z.stack 1024
  program : (m.sched.parked u.pcb).ring3 = true
  fresh : m.sched.parked v.pcb = firstContext v 1 0

/-- The program yields to the kernel task, which makes another one. -/
theorem small_handover : ∃ a s L u z v xs, Boot 0x102000 0x101000 a ∧ Steps a (s, L) ∧
    Handover s L u z v xs := by
  obtain ⟨a, s, L, u, z, xs, hboot, hrun, h, hchild, h3, hlen, hroom⟩ := small_forked
  obtain ⟨x, y, xs, rfl⟩ : ∃ x y us, xs = x :: y :: us := by
    match xs, hlen with
    | x :: y :: us, _ => exact ⟨x, y, us, rfl⟩
  have hlive : Live s L := hrun.live (hboot.live Vmm.smallLayout)
  have hu := hchild.user
  have hnd := h.inv.nodup
  -- the system call
  obtain ⟨h₁, hidle₁, hdir₁, hboot₁, -, -, hword₁, -⟩ := h.enterKernel hu h3
    (hlive.program_esp0 hu h.task.symm h3)
  have hze : s.sched.idleTask ≠ z.pcb := by grind
  have hue : s.sched.idleTask ≠ u.pcb := by grind
  have huz : u.pcb ≠ z.pcb := by grind
  have hf : ([s.sched.idleTask] ++ [z.pcb]).find? (fun t => t ≠ s.enterKernel.sched.idleTask) =
      some z.pcb := by
    rw [hidle₁]
    simp [hze.symm]
  have hreap : Sched.reapZombies 0 s.enterKernel.sched = some ([], s.enterKernel.sched) :=
    if_pos h₁.inv.tasks.zombies
  have hs : Stops s L u s.enterKernel.mem := stops_enterKernel hu h.task.symm h3
  have hok : s.enterKernel.sched.ReapsOwn := fun _ _ _ hz =>
    absurd (h₁.inv.zombie_iff.1 hz) List.not_mem_nil
  have hs₂ : Step (s, L) .sysYield (_, without L []) :=
    .sysYield h3 hs hok (h₁.sysYield_eq hf hreap)
  rw [without_nil] at hs₂
  obtain ⟨h₂, hesp0₂, hsw⟩ := h₁.enter (hidle₁ ▸ hue) (hidle₁ ▸ hze)
    (show _ = [] ++ z.pcb :: [u.pcb, s.sched.idleTask] from rfl) s.enterKernel.cpu.esp
  have hsub : ∀ o ∈ L, o.pcb ∈ [z.pcb] ++ u.pcb :: [s.sched.idleTask] := fun o ho => by
    have := h.inv.mem_lists ho
    rwa [List.append_nil] at this
  have hchild₁ := hchild.congr (List.Subset.refl L) (fun o ho =>
    hword₁ _ (h.inv.mem_lists ho) _ (by simp)) hboot₁
  have hchild₂ := hchild₁.congr (List.Subset.refl L) (fun o ho =>
    hsw.words _ (hsub o ho) _ (by simp) (by simp) (by simp)) hsw.tables.boot
  have hidle₂ := hsw.idle.trans hidle₁
  generalize s.enterKernel.sched.enter s.enterKernel.cpu.esp z.pcb = x₂ at *
  have hlive₂ : Live ⟨x₂, x₂.resume s.enterKernel.cpu.eflags⟩ L := (hs₂.next hlive).live
  generalize hm : (⟨x₂, x₂.resume s.enterKernel.cpu.eflags⟩ : Machine) = m₂ at *
  obtain rfl : m₂.sched = x₂ := by rw [← hm]
  have hon₂ : m₂.sched.OnList u.pcb := h₂.inv.onList_iff.2 (by simp)
  have hu₂ : (m₂.sched.parked u.pcb).ring3 = true := by
    have hne : m₂.sched.currentTask ≠ s.sched.currentTask := by
      rw [h₂.task, h.task]
      exact huz.symm
    rcases hs₂.turns hlive with heq | ⟨_, ht⟩ | hsw'
    · exact absurd heq hne
    · cases ht
    · have huser := (hlive.user_current hu h.task.symm).trans hchild.dir
      have hleft := hsw'.leaves (h.task ▸ hon₂) hne fun _ => s.cpu
      rw [Event.saves_user (.inr rfl) huser, h.task, hlive.context_current hu h.task.symm
        hchild.dir] at hleft
      exact hleft ▸ h3
  -- the task that runs now makes another one
  obtain ⟨i, hin, -⟩ := hlive₂.kernel_runs hchild.child h₂.task.symm
    (fun e => hze (hidle₂.symm.trans e.symm)) hchild.kernel
  have hs₃ : Step (m₂, L) .create _ := .create 1 hin.ring3
  obtain ⟨hc, hr, -, h₃, hrec⟩ := h₂.taskCreate (hroom x (by simp)) (hroom y (by simp))
    (show (1 : UInt32) ≠ 0 by decide)
  rw [hrec] at hs₃
  refine ⟨a, _, _, u, z, ⟨indexToAddr x, indexToAddr y, none, []⟩, xs, hboot,
    (hrun.tail ⟨_, hs₂⟩).tail ⟨_, hs₃⟩, (hs₃.next hlive₂).live, ?_, ?_, List.mem_cons_self, rfl, ?_,
    ?_, (hc.fresh hr rfl 0).context⟩
  · rw [← hidle₂, ← hc.old.idle] at h₃
    exact h₃
  · exact hchild₂.congr (List.subset_cons_self ..) (fun o ho => hc.old.get ho _) hc.old.boot
  · have hesp0 := (h₂.inv.tasks.ok z hchild.child).esp0
    rw [if_neg fun e => hze (hidle₂.symm.trans e.symm)] at hesp0
    exact hc.old.esp0.trans (hesp0₂.trans hesp0)
  · have hframe := hs₃.frame hlive₂ hon₂ (fun e => absurd (e.trans h₂.task) huz) fun e => by cases e
    exact (congrArg Cpu.ring3 hframe).trans hu₂

/-! ## The exit, and what follows -/

theorem exit_eq {fuel : Nat} (hr : m.sched.markTerminated.schedule fuel m.cpu.esp =
    some ⟨[], true, s'⟩) : m.exit fuel = some ([], ⟨s', s'.resume m.cpu.cli.eflags⟩) := by
  unfold Machine.exit
  rw [hr]
  rfl

theorem resume_user {flags : UInt32} (hu : s.isUserTask s.currentTask = true) :
    s.resume flags = s.parked s.currentTask := by
  unfold Sched.resume Sched.parked
  rw [if_pos hu, if_pos hu]

theorem resume_kernel {flags : UInt32} (hu : s.isUserTask s.currentTask = false) :
    s.resume flags = { s.parked s.currentTask with eflags := flags } := by
  unfold Sched.resume Sched.parked
  rw [hu]
  rfl

/-- `u` runs, with the end of the stack of the zombie `z` in `tss.esp0`. -/
structure Stale (m : Machine) (L : List Owned) (u z v : Owned) (xs : List UInt32) : Prop where
  round : Round m.sched L [v.pcb] u.pcb [m.sched.idleTask] [z.pcb] xs
  child : Child m.sched L u z
  maker : v ∈ L
  kernel : v.dir = none
  current : m.sched.get z.pcb .pageDirectory = m.sched.vmm.currentDirectory
  ring3 : m.cpu.ring3 = true
  esp0 : m.sched.esp0 = slot z.stack 1024
  parked : Parked m.sched v
  fresh : m.sched.parked v.pcb = firstContext v 1 0

theorem Handover.exit {u z v : Owned} (h : Handover m L u z v xs) :
    ∃ m', Moves (m, L) .exit (m', L) ∧ Stale m' L u z v xs := by
  obtain ⟨hlive, hround, hchild, hv, hvd, hesp0, h3, hfresh⟩ := h
  have hu := hchild.user
  have hnd := hround.inv.nodup
  have hc : m.sched.idleTask ≠ z.pcb := by grind
  have hue : u.pcb ≠ m.sched.idleTask := by grind
  have huz : u.pcb ≠ z.pcb := by grind
  have hvz : v.pcb ≠ z.pcb := by grind
  have hidle : m.sched.currentTask ≠ m.sched.idleTask := hround.task ▸ hc.symm
  have hf : ([u.pcb, m.sched.idleTask] ++ [v.pcb]).find? (fun t => t ≠ m.sched.idleTask) =
      some u.pcb := by simp [hue]
  obtain ⟨s', hcall, hround', hidle', hesp0', hwords, hboot, hdir⟩ := hround.exit hc hf
    (show _ = [v.pcb] ++ u.pcb :: [m.sched.idleTask] from rfl) m.cpu.esp
  obtain ⟨i, hin, -⟩ := hlive.kernel_runs hchild.child hround.task.symm (fun e => hc e.symm)
    hchild.kernel
  have hmove : Moves (m, L) .exit (_, without L []) := .exit hidle hin.ring3 (exit_eq hcall)
  rw [without_nil] at hmove
  -- the two tasks that stay
  have hkeep : ∀ o ∈ L, o.pcb ≠ z.pcb → Parked m.sched o ∧
      Untouched o m.sched.vmm.mem s'.vmm.mem ∧ s'.parked o.pcb = m.sched.parked o.pcb := by
    intro o ho hne
    have hl : m.sched.OnList o.pcb := hround.inv.onList_iff.2 (by
      have := hround.inv.mem_lists ho
      rwa [List.append_nil] at this)
    rw [← hround.task] at hne
    have hpark := hlive.parked o ho hl hne
    have hkept : Untouched o m.sched.vmm.mem s'.vmm.mem :=
      hround.inv.exit_untouched hlive.settled hidle hcall ho hl hne
    exact ⟨hpark, hkept, hpark.parked_eq (hround.inv.placed hround.settled ho)
      (hround'.inv.placed hround'.settled ho) hkept⟩
  have huser : s'.isUserTask s'.currentTask = true := by
    rw [hround'.task, (hround'.inv.placed hround'.settled hu).user, hchild.dir]
  have hword : ∀ o ∈ L, s'.get o.pcb .pageDirectory = m.sched.get o.pcb .pageDirectory :=
    fun o ho => hwords _ (hround.inv.mem_lists ho) _ (by simp) (by simp)
  obtain ⟨hpark, hkept, heq⟩ := hkeep v hv hvz
  refine ⟨_, hmove, ?_, hchild.congr (fun _ h => h) hword hboot, hv, hvd, ?_, ?_,
    hesp0'.trans hesp0, hpark.congr hkept, heq.trans hfresh⟩
  · rw [← hidle'] at hround'
    exact hround'
  · obtain ⟨d, hd⟩ := Option.isSome_iff_exists.1 hchild.dir
    have hpd : s'.get u.pcb .pageDirectory ≠ 0 := by
      rw [(hround'.inv.tasks.ok u hu).dir d hd]
      exact (hround'.inv.core.inv.dir d (List.mem_cons_of_mem _ (mem_dirs hu hd))).1
    change s'.get z.pcb .pageDirectory = s'.vmm.currentDirectory
    rw [hword z hchild.child, hchild.directory, hdir hpd, hword u hu]
  · change (s'.resume m.cpu.cli.eflags).ring3 = true
    rw [resume_user huser, hround'.task, (hkeep u hu huz).2.2]
    exact h3

/-- `v` runs on an empty stack. The frame of `u` is on the stack of `z`, whose two pages are the
first that are free. -/
structure Freed (m : Machine) (L : List Owned) (u z v : Owned) (xs : List UInt32) : Prop where
  round : Round m.sched L [] v.pcb [u.pcb, m.sched.idleTask] []
    (addrToIndex z.pcb :: addrToIndex z.stack :: xs)
  user : u ∈ L
  dir : u.dir.isSome = true
  maker : v ∈ L
  kernel : v.dir = none
  esp : m.sched.get u.pcb .esp = slot z.stack 1011
  ring0 : m.cpu.ring3 = false
  empty : m.cpu.esp = slot v.stack 1024
  pages : ∀ p ∈ [z.pcb, z.stack], p.toNat % 4096 = 0 ∧ p ≠ 0

theorem Stale.sysYield {u z v : Owned} (h : Stale m L u z v xs) :
    ∃ m', Moves (m, L) .sysYield (m', without L [z.pcb]) ∧
      Freed m' (without L [z.pcb]) u z v xs := by
  obtain ⟨hround, hchild, hv, hvd, hcur, h3, hesp0, hpark, hfresh⟩ := h
  have hu := hchild.user
  have hz := hchild.child
  have hnd := hround.inv.nodup
  have huz : u.pcb ≠ z.pcb := by grind
  have hvz : v.pcb ≠ z.pcb := by grind
  have hvu : v.pcb ≠ u.pcb := by grind
  have hve : m.sched.idleTask ≠ v.pcb := by grind
  have hue : m.sched.idleTask ≠ u.pcb := by grind
  -- the frame goes onto the stack of the zombie
  obtain ⟨h₁, hidle₁, hdir₁, hboot₁, hcpu₁, hesp₁, hword₁, hkeep₁⟩ := hround.enterKernel hz h3 hesp0
  have hpd : m.enterKernel.sched.get z.pcb .pageDirectory =
      m.enterKernel.sched.vmm.currentDirectory := by
    rw [hword₁ z.pcb (by simp) _ (by simp), hdir₁, hcur]
  obtain ⟨w, hreap, h₂, hleft⟩ := h₁.reap hz hchild.maps hpd (by
    rw [hboot₁.2.1.2]
    exact hchild.bound)
  have hf : ([m.sched.idleTask] ++ [v.pcb]).find? (fun t => t ≠ m.enterKernel.sched.idleTask) =
      some v.pcb := by
    rw [hidle₁]
    simp [hve.symm]
  have hs : Stops m L u m.enterKernel.mem := stops_enterKernel hu hround.task.symm h3
  have hmove : Moves (m, L) .sysYield (_, without L [z.pcb]) :=
    .sysYield h3 hs (h₁.sysYield_eq hf hreap)
  have hmem : ∀ o ∈ L, o.pcb ≠ z.pcb → o ∈ without L [z.pcb] := fun o ho hne =>
    mem_without ho (by simpa using hne)
  obtain ⟨h₃, -, hsw⟩ := h₂.enter (fun e => hue (hidle₁.symm.trans e))
    (fun e => hve (hidle₁.symm.trans e))
    (show _ = [] ++ v.pcb :: [u.pcb, m.sched.idleTask] from rfl) m.enterKernel.cpu.esp
  have huser : m.enterKernel.sched.isUserTask m.enterKernel.sched.currentTask = true := by
    rw [h₁.task, (h₁.inv.placed h₁.settled hu).user, hchild.dir]
  have hkeep : ∀ o ∈ without L [z.pcb], Untouched o m.enterKernel.mem (Sched.enter
      { m.enterKernel.sched with zombieList := 0, vmm := w } m.enterKernel.cpu.esp v.pcb).vmm.mem :=
    fun o ho => (h₂.inv.reaped_untouched hleft ho (by simp)).2 fun e => by
      rw [huser] at e
      cases e
  have hidle₃ := hsw.idle.trans hidle₁
  generalize Sched.enter { m.enterKernel.sched with zombieList := 0, vmm := w }
    m.enterKernel.cpu.esp v.pcb = x₃ at *
  have hu' := hmem u hu huz
  have hv' := hmem v hv hvz
  have hplaced := h₃.inv.placed h₃.settled hv'
  have hvz' : v ≠ z := fun e => hvz (congrArg Owned.pcb e)
  have hparked : x₃.parked v.pcb = firstContext v 1 0 := by
    rw [← hfresh]
    exact hpark.parked_eq (hround.inv.placed hround.settled hv) hplaced
      ((hkeep₁ v hv hvz' hvu).trans (hkeep v hv'))
  have hcpu : ∀ flags, x₃.resume flags = ⟨.clear, 1, 0x08, flags, v.stack + 4096, 0x10⟩ := by
    intro flags
    rw [resume_kernel, h₃.task, hparked, firstContext, hvd]
    · rfl
    · rw [h₃.task, hplaced.user, hvd]
      rfl
  refine ⟨_, hmove, ?_, hu', hchild.dir, hv', hvd, (hkeep u hu').esp.trans hesp₁, ?_, ?_,
    fun p hp => ?_⟩
  · rw [← hidle₃] at h₃
    exact h₃
  · change (x₃.resume _).ring3 = false
    rw [hcpu]
    exact decide_eq_false (by decide : ¬ (0x08 : UInt32) &&& 3 = 3)
  · change (x₃.resume _).esp = _
    rw [hcpu]
    rfl
  · rcases List.mem_pair.1 hp with rfl | rfl
    · exact ⟨(hround.inv.core.pcb hz).inUse.aligned, (hround.inv.core.pcb hz).ne_zero⟩
    · exact ⟨(hround.inv.core.stack hz).inUse.aligned, (hround.inv.core.stack hz).ne_zero⟩

/-- ECX in the first frame of a kernel task. -/
theorem Fresh.word (h : Fresh s o entry x) (hp : Placed s o) (hd : o.dir = none) :
    stackWord s.vmm.mem o.stack 1020 = 0 := by
  obtain ⟨i, hi, hle⟩ := h.parked.kernel hd
  have hpop : popSwitch 0 s.vmm.mem (slot o.stack i) =
      ⟨.clear, entry, 0x08, 0, o.stack + 4096, 0x10⟩ := by
    have hctx := h.context
    unfold Sched.parked firstContext at hctx
    rw [hp.user, hd, hi] at hctx
    exact hctx
  have htop : slot o.stack (i + 10) = slot o.stack 1024 :=
    (slot_add o.stack i 10).symm.trans (congrArg Cpu.esp hpop)
  have hi' := slot_inj hp.aligned hp.stackEnd hle (Nat.le_refl _) htop
  obtain rfl : i = 1014 := by omega
  exact (entryAt_slot s.vmm.mem o.stack 1014 6).symm.trans (congrArg (fun c => c.gprs.ecx) hpop)

theorem Event.saves_created {m' : Machine} {t : UInt32} (hne : t ≠ m'.sched.taskList) (g : Saves) :
    Event.create.saves m m' g t = g t := by
  change (if m'.sched.taskList = m.sched.taskList then g else
    Function.update g m'.sched.taskList (m'.sched.parked m'.sched.taskList)) t = g t
  split
  · rfl
  · exact Function.update_of_ne hne ..

theorem yield_eq {fuel : Nat} {log : List (UInt32 × List UInt32)}
    (hr : m.sched.schedule fuel (m.cpu.esp - 40) = some ⟨log, true, s'⟩) :
    ∃ m', m.yield fuel = some (log.map Prod.fst, m') ∧ m'.sched.currentTask = s'.currentTask := by
  unfold Machine.yield
  rw [hr]
  exact ⟨_, rfl, rfl⟩

/-- The new task gets the pages of `z`, and its frame goes over that of `u`. -/
theorem Freed.create {u z v : Owned} (h : Freed m L u z v xs) :
    ∃ m', Step (m, L) .create (m', ⟨z.pcb, z.stack, none, []⟩ :: L) ∧
      (∀ g, Event.create.saves m m' g u.pcb = g u.pcb) ∧
      (m'.sched.parked u.pcb).ring3 = false ∧
      ∃ b, Moves (m', ⟨z.pcb, z.stack, none, []⟩ :: L) .yield b ∧
        b.1.sched.currentTask = u.pcb ∧ m'.sched.currentTask ≠ u.pcb := by
  obtain ⟨hround, hu, hd, hv, hvd, hesp, h0, hempty, hpages⟩ := h
  have hpage : ∀ p ∈ [z.pcb, z.stack], indexToAddr (addrToIndex p) = p := fun p hp =>
    indexToAddr_addrToIndex (hpages p hp).1
  obtain ⟨hc, hr, -, h₁, hrec⟩ := hround.taskCreate
    (by rw [hpage _ (by simp)]; exact (hpages _ (by simp)).2)
    (by rw [hpage _ (by simp)]; exact (hpages _ (by simp)).2) (by decide : (1 : UInt32) ≠ 0)
  rw [hpage z.pcb (by simp), hpage z.stack (by simp)] at hc h₁ hrec
  rw [hpage z.pcb (by simp)] at hr
  have hstep : Step (m, L) .create _ := .create 1 h0
  rw [hrec] at hstep
  have hesp₁ : (m.sched.taskCreate 1).2.get u.pcb .esp = slot z.stack 1011 :=
    (hc.old.get hu .esp).trans hesp
  have hfresh := hc.fresh hr rfl 0
  have hidle₁ := hc.old.idle
  have hlist := hc.list
  generalize (m.sched.taskCreate 1).2 = x₁ at *
  have hword := hfresh.word (h₁.inv.placed h₁.settled List.mem_cons_self) rfl
  have hu₁ : u ∈ (⟨z.pcb, z.stack, none, []⟩ : Owned) :: L := List.mem_cons_of_mem _ hu
  have hv₁ : v ∈ (⟨z.pcb, z.stack, none, []⟩ : Owned) :: L := List.mem_cons_of_mem _ hv
  have hnd := h₁.inv.nodup
  have huz : u.pcb ≠ z.pcb := by grind
  have hvu : v.pcb ≠ u.pcb := by grind
  have hue : x₁.idleTask ≠ u.pcb := by grind
  have hve : x₁.idleTask ≠ v.pcb := by grind
  have hpv := h₁.inv.placed h₁.settled hv₁
  have hf : ([u.pcb, m.sched.idleTask] ++ [z.pcb]).find? (fun t => t ≠ x₁.idleTask) =
      some u.pcb := by simp [hue.symm]
  have hreap : Sched.reapZombies 0 x₁ = some ([], x₁) := if_pos h₁.inv.tasks.zombies
  obtain ⟨m', hyield, hcur⟩ := yield_eq (m := ⟨x₁, m.cpu⟩) (h₁.schedule_eq hf hreap _)
  refine ⟨⟨x₁, m.cpu⟩, hstep, Event.saves_created ?_, ?_, _,
    .yield hv₁ h₁.task.symm hve.symm hvd ?_ hyield, hcur.trans (enter_current ..),
    h₁.task.trans_ne hvu⟩
  · change u.pcb ≠ x₁.taskList
    rw [hlist]
    exact huz
  · change (x₁.parked u.pcb).ring3 = false
    unfold Sched.parked
    rw [(h₁.inv.placed h₁.settled hu₁).user, if_pos hd, hesp₁]
    have hcs : (popFrame x₁.vmm.mem (slot z.stack 1011)).cs = 0 :=
      (entryAt_slot x₁.vmm.mem z.stack 1011 9).trans hword
    unfold Cpu.ring3
    rw [hcs]
    exact decide_eq_false (by decide : ¬ (0 : UInt32) &&& 3 = 3)
  · change slot v.stack 10 ≤ m.cpu.esp
    rw [hempty, slot_le hpv.aligned hpv.stackEnd (by omega) (by omega)]
    omega

theorem Saving.moves {a b : (Machine × List Owned) × Saves} (h : Saving Step a b) :
    Saving Moves a b := by
  obtain ⟨e, hs, he⟩ := h
  exact ⟨e, .step hs, he⟩

/-- The stub has saved the registers of the program. -/
theorem Stale.saves {u z v : Owned} {m' : Machine} (h : Stale m L u z v xs) (g : Saves) :
    Event.sysYield.saves m m' g u.pcb = m.cpu := by
  have huser : m.sched.isUserTask m.sched.currentTask = true := by
    rw [h.round.task, (h.round.inv.placed h.round.settled h.child.user).user, h.child.dir]
  change (if m.sched.isUserTask m.sched.currentTask then
    Function.update g m.sched.currentTask m.cpu else g) u.pcb = m.cpu
  rw [if_pos huser, h.round.task]
  exact Function.update_self ..

/-- **The switch back to the program pops what was laid there for another task.** -/
theorem stale_stack_overwritten : ∃ a x b, Boot 0x102000 0x101000 a ∧
    Relation.ReflTransGen (Saving Moves) (a, a.1.sched.parked) x ∧ Moves x.1 .yield b ∧
      b.1.sched.currentTask ≠ x.1.1.sched.currentTask ∧ ¬ GoesOn x b.1 := by
  obtain ⟨a, s, L, u, z, v, xs, hboot, hrun, h⟩ := small_handover
  obtain ⟨g, hsaves⟩ := saves_along a.1.sched.parked hrun
  have hmoves := Relation.ReflTransGen.mono (fun _ _ => Saving.moves) _ _ hsaves
  obtain ⟨m₁, hexit, h₁⟩ := h.exit
  obtain ⟨m₂, hyield, h₂⟩ := h₁.sysYield
  obtain ⟨m₃, hcreate, hkeep, hlost, b, hback, hcur, hne⟩ := h₂.create
  have hmoves₁ := hmoves.tail (c := ((m₁, L), g)) ⟨.exit, hexit, rfl⟩
  have hmoves₂ := hmoves₁.tail (c := ((m₂, without L [z.pcb]), Event.sysYield.saves m₁ m₂ g))
    ⟨.sysYield, hyield, rfl⟩
  have hmoves₃ := hmoves₂.tail (c := ((m₃, ⟨z.pcb, z.stack, none, []⟩ :: without L [z.pcb]),
    Event.create.saves m₂ m₃ (Event.sysYield.saves m₁ m₂ g))) ⟨.create, .step hcreate, rfl⟩
  refine ⟨a, _, b, hboot, hmoves₃, hback, fun e => hne (e.symm.trans hcur), ?_⟩
  rintro ⟨o, -, hpcb, hintact, -⟩
  have hpops := hintact.pops
  rw [hpcb, hcur] at hpops
  have hsaved := hpops.trans ((hkeep _).trans (h₁.saves g))
  have h3 := h₁.ring3
  rw [← hsaved] at h3
  exact absurd h3 (by simp [hlost])

end

end HaoSys.Proc
