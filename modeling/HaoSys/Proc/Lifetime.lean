import HaoSys.Proc.Misreap

/-!
# The life of a task

What holds along every run in which `schedule` only reaps what is reapable: the
pages it frees are those of the tasks it reaps, the two lists hold the tasks
there are, and a switch to a user task sets `tss.esp0` unless a task that has
exited makes it. Short runs on the small machine show what happens otherwise: a
kernel task's directory is the one that was current when the task was made, and
`free_task` destroys it.
-/

namespace HaoSys.Proc

open HaoSys.Lib HaoSys.Mm

section

variable {endAddr k sp : UInt32} {s : Sched} {L : List Owned} {ts zs xs : List UInt32}
  {r : Sched.Scheduled} {fuel : Nat}

/-! ## What is freed -/

/-- Every page that the call frees was allocated for the task it is freed with; the kernel's
directory and its tables are not among them. -/
def FreesOwn (s : Sched) (L : List Owned) (r : Sched.Scheduled) : Prop :=
  ∀ e ∈ r.reaped, ∃ o ∈ L, o.pcb = e.1 ∧ ∀ a ∈ e.2, Own s.vmm L o a ∧
    a ≠ s.vmm.kernelPageDirectory ∧ ∀ i, tableOf s.vmm.mem s.vmm.kernelPageDirectory i ≠ some a

/-- What a task owns is no part of the kernel's address space. -/
theorem Core.own_not_kernel {v : Vmm} (h : Core v L xs) {o : Owned} (ho : o ∈ L) {a : UInt32}
    (ha : Own v L o a) :
    a ≠ v.kernelPageDirectory ∧ ∀ i, tableOf v.mem v.kernelPageDirectory i ≠ some a := by
  have hperm := h.filter_perm ho
  obtain ⟨-, hdir, htab⟩ := (h.perm hperm).own_not_others (ha.perm hperm)
  exact ⟨fun e => hdir (e ▸ List.mem_cons_self), htab _ List.mem_cons_self⟩

theorem Outcome.freesOwn (h : Outcome s L ts zs r) (hcore : Core s.vmm L xs) : FreesOwn s L r := by
  cases h with
  | stay => exact nofun
  | exit => exact nofun
  | switch _ _ _ hreap =>
    intro e he
    obtain ⟨o, ho, hp, hown, -⟩ := hreap.own e he
    exact ⟨o, ho, hp, fun a ha => ⟨hown a ha, hcore.own_not_kernel ho (hown a ha)⟩⟩

/-- **`schedule` frees only what the tasks it reaps own**, in every run in which each of its calls
only reaps what is reapable. -/
theorem reaping_frees_own (hl : Vmm.ImageLayout endAddr k)
    (h : Reachable endAddr k Sched.ReapsOwn s L) (hok : s.ReapsOwn)
    (hr : s.schedule fuel sp = some r) : FreesOwn s L r := by
  obtain ⟨ts, zs, xs, hinv, ha⟩ := h.inv hl fun _ h => h
  exact (hinv.schedule_outcome ha hok hr).freesOwn hinv.core

theorem reaping_frees_own_small : ∃ s L r, Reachable 0x102000 0x101000 Sched.ReapsOwn s L ∧
    s.schedule 1 0 = some r ∧ r.reaped ≠ [] ∧ FreesOwn s L r := by
  obtain ⟨s, L, b, c, o, d, y, xs, h, -, hb, -, -, hne, ho, hd, hmaps⟩ := small_zombie
  have hok := h.reapsOwn_user ho hd
  have hreap := h.reapOne_eq Vmm.smallLayout (fun _ h => h) ho hmaps (hb.symm ▸ hne)
  have hcall := h.schedule_eq rfl hreap 0
  exact ⟨s, L, _, h.reach, hcall, List.cons_ne_nil _ _,
    reaping_frees_own Vmm.smallLayout h.reach hok hcall⟩

/-- A user task that reaps a kernel task frees the kernel's directory. -/
theorem reaping_frees_kernel_directory : ∃ s L r,
    Reachable 0x102000 0x101000 (fun _ => True) s L ∧ s.schedule 1 0 = some r ∧
      ¬ FreesOwn s L r := by
  obtain ⟨s, L, b, c, o, xs, h, ho, -, hmaps, hne⟩ := small_kernelZombie
  obtain ⟨freed, s', hcall, hd⟩ := h.frees_directory Vmm.smallLayout (fun _ h => h) ho hmaps hne rfl
  refine ⟨s, L, _, h.reach.mono fun _ _ => trivial, hcall, fun hown => ?_⟩
  obtain ⟨o, -, -, hfreed⟩ := hown _ List.mem_cons_self
  exact (hfreed 0x101000 hd).2.1 h.kernel.symm

/-! ## The switch to a user task -/

/-- The first ready task behind the current one. -/
def Sched.Behind (s : Sched) (t : UInt32) : Prop :=
  ∃ l r, s.Linked s.taskList (l ++ s.currentTask :: r) ∧ t = s.firstReady (r ++ l)

/-- Where the current task has exited, the user task behind it finds its own stack in `tss.esp0`. -/
def Sched.HandsOver (s : Sched) : Prop :=
  s.hasState s.currentTask .terminated = true →
    ∀ t, s.Behind t → s.isUserTask t = true → s.esp0 = s.get t .kernelEsp0

/-- `tss.esp0` and CR3 are those of the current task. -/
def Sched.Restored (s : Sched) : Prop :=
  s.esp0 = s.get s.currentTask .kernelEsp0 ∧
    s.vmm.currentDirectory = s.get s.currentTask .pageDirectory

theorem SchedInv.behind_iff {l r : List UInt32} (h : SchedInv s L (l ++ s.currentTask :: r) zs xs)
    {t : UInt32} : s.Behind t ↔ t = s.firstReady (r ++ l) := by
  constructor
  · rintro ⟨l', r', hlist, rfl⟩
    have heq := hlist.unique h.linked.1
    have hnd := (List.nodup_append.1 h.nodup).1
    rw [List.nodup_middle, List.nodup_cons, List.mem_append, not_or] at hnd
    obtain ⟨rfl, -, rfl⟩ := (List.append_cons_inj_of_notMem hnd.1.1 hnd.1.2).1 heq.symm
    rfl
  · rintro rfl
    exact ⟨l, r, h.linked.1, rfl⟩

/-- A user task of the list has a directory and a stack. -/
theorem SchedInv.user_words (h : SchedInv s L ts zs xs) (hset : Settled s L) {t : UInt32}
    (ht : t ∈ ts) (hu : s.isUserTask t = true) :
    s.get t .kernelEsp0 ≠ 0 ∧ s.get t .pageDirectory ≠ 0 := by
  obtain ⟨o, ho, rfl, d, hd⟩ := h.user_entry (List.mem_append_left zs ht) hu
  have hok := h.tasks.ok o ho
  have hidle : o.pcb ≠ s.idleTask := fun he => by
    rw [hset.idle o ho he] at hd
    cases hd
  rw [hok.esp0, if_neg hidle, hok.dir d hd]
  exact ⟨hset.stack o ho, (h.core.inv.dir d (List.mem_cons_of_mem _ (mem_dirs ho hd))).1⟩

/-- **A switch to a user task restores `tss.esp0` and CR3** exactly when it is not the exit of a
task, or the stack of the task behind is already in `tss.esp0`. -/
theorem switch_restores_iff (hl : Vmm.ImageLayout endAddr k)
    (h : Reachable endAddr k Sched.ReapsOwn s L) (hok : s.ReapsOwn)
    (hr : s.schedule fuel sp = some r) (hsw : r.switched = true)
    (hu : r.state.isUserTask r.state.currentTask = true) : r.state.Restored ↔ s.HandsOver := by
  have hset := (Reachable.schedule h hok hr).settled hl fun _ h => h
  obtain ⟨ts, zs, xs, hinv, ha⟩ := h.inv hl fun _ h => h
  cases hinv.schedule_outcome ha hok hr with
  | stay => cases hsw
  | @exit l r ys s' hterm hts hinv' hsw' hesp =>
    subst hts
    simp only at hset hu ⊢
    rw [List.map_nil, filter_not_mem_nil] at hset
    have hmem := hinv'.tasks.current
    rw [hsw'.current] at hmem hu
    have hdir := hsw'.directory (hinv'.user_words hset hmem hu).2
    have hword := fun f h1 h2 h3 => hsw'.words _ hmem f h1 h2 h3
    rw [Sched.isUserTask, hword _ (by simp) (by simp) (by simp)] at hu
    unfold Sched.Restored Sched.HandsOver
    rw [hsw'.current, hesp, hword _ (by simp) (by simp) (by simp)]
    constructor
    · rintro ⟨hsame, -⟩ - t ht -
      rw [hinv.behind_iff.1 ht]
      exact hsame
    · intro hover
      exact ⟨hover (hasState_iff.2 hterm) _ (hinv.behind_iff.2 rfl) hu, hdir⟩
  | @switch next log ys s' hrun hn _ hreap hinv' hsw' hesp =>
    simp only at hset hu ⊢
    rw [hreap.tasks] at hset
    have hmem := hinv'.tasks.current
    rw [hsw'.current] at hmem hu
    obtain ⟨hstack, hdir⟩ := hinv'.user_words hset hmem hu
    have hover : s.HandsOver := fun hterm => by
      rw [not_terminated hrun] at hterm
      cases hterm
    refine iff_of_true ⟨?_, ?_⟩ hover
    · rw [hsw'.current]
      exact hesp hstack
    · rw [hsw'.current]
      exact hsw'.directory hdir

/-- A user task, about to run. -/
theorem small_user : ∃ s L b o d xs,
    Turn 0x102000 0x101000 Sched.ReapsOwn b s L [(o.pcb, d)] (b, 0x101000) [] [] xs ∧
      2 ≤ xs.length ∧ o ∈ L ∧ o.dir = some d := by
  obtain ⟨s₀, b, q, xs, h₀, hlen⟩ := small_turn Sched.ReapsOwn
  obtain ⟨x₁, x₂, x₃, xs, rfl⟩ : ∃ x₁ x₂ x₃ us, xs = x₁ :: x₂ :: x₃ :: us := by
    match xs, hlen with
    | x₁ :: x₂ :: x₃ :: us, _ => exact ⟨x₁, x₂, x₃, us, rfl⟩
  have hone : (1 : UInt32) ≠ 0 := by decide
  obtain ⟨s₁, h₁⟩ := h₀.createUser hone hone
  refine ⟨s₁, _, b, _, _, xs, h₁, ?_, List.mem_cons_self, rfl⟩
  simp only [List.length_cons] at hlen
  omega

theorem switch_restores_iff_small : ∃ s L r, Reachable 0x102000 0x101000 Sched.ReapsOwn s L ∧
    s.schedule 0 0 = some r ∧ r.state.isUserTask r.state.currentTask = true ∧
      (r.state.Restored ↔ s.HandsOver) := by
  obtain ⟨s, L, b, o, d, xs, h, -, ho, hd⟩ := small_user
  have hz : s.zombieList = 0 := h.inv.tasks.zombies
  have hcall := h.schedule_eq rfl (show Sched.reapZombies 0 s = some ([], s) from if_pos hz) 0
  obtain ⟨-, hsw, -⟩ := h.inv.enter 0 (show o.pcb ∈ _ by simp)
  simp only at hcall
  generalize s.enter 0 o.pcb = s' at *
  have huser : s'.isUserTask s'.currentTask = true := by
    rw [hsw.current, Sched.isUserTask, hsw.words o.pcb (by simp) _ (by simp) (by simp) (by simp),
      (h.inv.tasks.ok o ho).user, hd]
    simp
  exact ⟨s, L, _, h.reach, hcall, huser,
    switch_restores_iff Vmm.smallLayout h.reach h.reapsOwn hcall rfl huser⟩

/-- The exit of a kernel task leaves its stack in `tss.esp0` for the user task behind it. -/
theorem exit_keeps_esp0 : ∃ s L r, Reachable 0x102000 0x101000 Sched.ReapsOwn s L ∧
    s.schedule 1 0 = some r ∧ r.switched = true ∧
      r.state.isUserTask r.state.currentTask = true ∧ ¬ r.state.Restored := by
  obtain ⟨s₀, L, b, o, d, xs, h₀, hlen, ho, hd⟩ := small_user
  obtain ⟨x₁, x₂, xs, rfl⟩ : ∃ x₁ x₂ us, xs = x₁ :: x₂ :: us := by
    match xs, hlen with
    | x₁ :: x₂ :: us, _ => exact ⟨x₁, x₂, us, rfl⟩
  obtain ⟨s₁, h₁⟩ := h₀.create (show (1 : UInt32) ≠ 0 by decide)
  generalize indexToAddr x₁ = p, indexToAddr x₂ = q at *
  obtain ⟨s₂, h₂, hesp, -⟩ := h₁.switch h₁.reapsOwn rfl
    (show _ = [] ++ (p, 0x101000) :: [(o.pcb, d), (b, 0x101000)] from rfl)
  have hidle : p ≠ b := Ne.symm (h₂.ne (t := (b, 0x101000)) (by simp))
  obtain ⟨hreach, s₃, hcall, h₃, hesp'⟩ := h₂.exit hidle h₂.reapsOwn_exit rfl
    (show _ = [] ++ (o.pcb, d) :: [(b, 0x101000)] from rfl)
  have ho' : o ∈ (⟨p, q, none, []⟩ : Owned) :: L := List.mem_cons_of_mem _ ho
  have hok := h₃.inv.tasks.ok o ho'
  refine ⟨_, _, _, hreach, hcall, rfl, ?_, fun hrestored => ?_⟩
  · change s₃.isUserTask s₃.currentTask = true
    rw [h₃.task, Sched.isUserTask, hok.user, hd]
    simp
  · have hrest : s₃.esp0 = s₃.get s₃.currentTask .kernelEsp0 := hrestored.1
    have hstack := (h₂.reach.settled Vmm.smallLayout fun _ h => h).stack _ List.mem_cons_self
    have hown := (h₂.inv.tasks.ok _ List.mem_cons_self).esp0
    rw [if_neg (by rw [h₂.idle]; exact hidle)] at hown
    have hne : o.pcb ≠ b := Ne.symm (h₃.ne (t := (b, 0x101000)) (by simp))
    rw [h₃.task, hok.esp0, if_neg (by rw [h₃.idle]; exact hne), hesp', hesp (hown ▸ hstack)] at hrest
    have heq : q = o.stack := (UInt32.add_left_inj 4096).1 (hown.symm.trans hrest)
    have hentry := h₂.inv.core.eq_of_held (p := q) List.mem_cons_self ho' (by simp [Owned.held])
      (by simp [Owned.held, heq])
    exact absurd (congrArg Owned.dir hentry) (by rw [hd]; simp)

/-! ## The two lists -/

/-- `task_list` and `zombie_list` end, share no task and hold every task of the ledger once; the
current task is on the first and runs, or has just exited, and no other task there has exited. -/
def Orderly (s : Sched) (L : List Owned) : Prop :=
  ∃ ts zs, s.Linked s.taskList ts ∧ s.Linked s.zombieList zs ∧ (ts ++ zs).Nodup ∧
    (ts ++ zs).Perm (L.map Owned.pcb) ∧ s.currentTask ∈ ts ∧ s.Active ∧
    ∀ t ∈ ts, t ≠ s.currentTask → s.hasState t .terminated = false

/-- The call frees neither the `task_t` nor the stack of the task that makes it. -/
def SparesCurrent (s : Sched) (L : List Owned) (r : Sched.Scheduled) : Prop :=
  ∀ o ∈ L, o.pcb = s.currentTask → ∀ e ∈ r.reaped, o.pcb ∉ e.2 ∧ o.stack ∉ e.2

theorem RunInv.orderly (h : RunInv s L) : Orderly s L := by
  obtain ⟨ts, zs, xs, hinv, ha⟩ := h
  obtain ⟨hlist, hzombies⟩ := hinv.linked
  refine ⟨ts, zs, hlist, hzombies, hinv.nodup, hinv.tasks.perm, hinv.tasks.current, ha,
    fun t ht hne => ?_⟩
  rcases hinv.tasks.ready t ht hne with hst | ⟨-, hst⟩
  · rw [Sched.hasState, hst]
    decide
  · exact not_terminated hst

theorem Outcome.sparesCurrent (h : Outcome s L ts zs r) (hinv : SchedInv s L ts zs xs) :
    SparesCurrent s L r := by
  cases h with
  | stay => exact fun _ _ _ => nofun
  | exit => exact fun _ _ _ => nofun
  | switch _ _ _ hreap =>
    intro o ho hcur e he
    obtain ⟨o', ho', hp, hown, -⟩ := hreap.own e he
    -- the task that is reaped is a zombie
    have hz : o'.pcb ∈ zs := by
      rw [hp, ← hreap.tasks]
      exact List.mem_map_of_mem he
    have hne : o.pcb ≠ o'.pcb := fun heq => by
      refine (List.nodup_append.1 hinv.nodup).2.2 _ hinv.tasks.current _ hz ?_
      rw [← hcur, heq]
    have hperm := hinv.core.filter_perm ho'
    have hmem : o ∈ L.filter fun o₁ => o₁.pcb ≠ o'.pcb := List.mem_filter.2 ⟨ho, by simpa using hne⟩
    have hnot : ∀ a ∈ e.2, a ∉ held (L.filter fun o₁ => o₁.pcb ≠ o'.pcb) := fun a ha =>
      ((hinv.core.perm hperm).own_not_others ((hown a ha).perm hperm)).1
    exact ⟨fun hm => hnot _ hm (pcb_mem_held hmem), fun hm => hnot _ hm (stack_mem_held hmem)⟩

/-- **The lists stay in order and the current task keeps its pages**, in every run in which
`schedule` only reaps what is reapable. -/
theorem task_lists_orderly (hl : Vmm.ImageLayout endAddr k)
    (h : Reachable endAddr k Sched.ReapsOwn s L) : Orderly s L ∧
      ∀ fuel sp r, s.ReapsOwn → s.schedule fuel sp = some r →
        SparesCurrent s L r ∧ r.state.hasState r.state.currentTask .running = true := by
  have hrun := h.inv hl fun _ h => h
  refine ⟨hrun.orderly, fun fuel sp r hok hr => ?_⟩
  obtain ⟨ts, zs, xs, hinv, ha⟩ := hrun
  have hout := hinv.schedule_outcome ha hok hr
  refine ⟨hout.sparesCurrent hinv, hasState_iff.2 ?_⟩
  cases hout with
  | stay hst => exact hst
  | exit _ _ _ hsw => exact hsw.current ▸ hsw.running
  | switch _ _ _ _ _ hsw => exact hsw.current ▸ hsw.running

theorem task_lists_orderly_small : ∃ s L, Reachable 0x102000 0x101000 Sched.ReapsOwn s L ∧
    Orderly s L ∧ ∀ fuel sp r, s.ReapsOwn → s.schedule fuel sp = some r →
      SparesCurrent s L r ∧ r.state.hasState r.state.currentTask .running = true := by
  obtain ⟨s, L, b, c, o, d, y, xs, h, -⟩ := small_zombie
  exact ⟨s, L, h.reach, task_lists_orderly Vmm.smallLayout h.reach⟩

/-- A task frees the stack it runs on. -/
theorem reaping_frees_own_stack : ∃ s L r,
    Reachable 0x102000 0x101000 (fun _ => True) s L ∧ s.schedule 1 0 = some r ∧
      ¬ SparesCurrent s L r := by
  obtain ⟨s, L, t, y, x, r, b, d, xs, h⟩ := small_standing
  obtain ⟨freed, s', hcall, hd⟩ := h.call
  obtain ⟨e, hturn⟩ := h.turn
  obtain ⟨o, ho, hpcb, hstack⟩ := h.stack
  refine ⟨s, L, _, hturn.reach.mono fun _ _ => trivial, hcall, fun hspares => ?_⟩
  refine (hspares o ho (hpcb.trans hturn.task.symm) _ List.mem_cons_self).2 ?_
  rw [hstack]
  exact hd

end

end HaoSys.Proc
