import HaoSys.Proc.Misreap

/-!
# Taking turns

`schedule` goes to the first ready task behind the current one. The ready tasks in that order,
with the current task behind them, form a wheel: a call brings its first task to the front of the
machine and turns it by one place, and what tasks do between the calls leaves it. So every task of
the wheel has had its turn when it has gone round once.
-/

namespace HaoSys.Proc

open HaoSys.Lib HaoSys.Mm

/-- What a task does between two calls of `schedule` without making a task or leaving. -/
inductive Quiet (s : Sched) (L : List Owned) : Sched → List Owned → Prop where
  | load {task virt : UInt32} : s.OnList task → s.isUserTask task = true →
    virt.toNat % 4096 = 0 → Loadable s.vmm virt →
    Quiet s L (s.loadPage task virt) (recordPage L s task virt)
  | map {virt : UInt32} (phys : UInt32) : pdIndex virt = loadSlot →
    s.vmm.currentDirectory = s.vmm.kernelPageDirectory →
    Quiet s L { s with vmm := (s.vmm.vmmMapPage s.vmm.currentDirectory virt phys pageWrite).2 } L
  | unmap {virt : UInt32} : pdIndex virt = loadSlot →
    s.vmm.currentDirectory = s.vmm.kernelPageDirectory →
    Quiet s L { s with vmm := (s.vmm.vmmUnmapPage s.vmm.currentDirectory virt).2 } L
  | write {o : Owned} {p : UInt32} {m : Mem} : o ∈ L → p ∈ o.stack :: o.maps.map Prod.snd →
    (∀ c, addrToIndex c ≠ addrToIndex p → m c = s.vmm.mem c) →
    Quiet s L { s with vmm := s.vmm.setMem m } L
  | interrupt (sp : UInt32) : Quiet s L (s.set s.currentTask .esp sp) L

/-- A piece of a run from `s` in which no task is made and none exits: `cs` are the tasks that are
current behind its calls of `schedule`, in order. -/
inductive Rounds (ok : Sched → Prop) (s : Sched) (L : List Owned) :
    List UInt32 → Sched → List Owned → Prop where
  | start : Rounds ok s L [] s L
  | quiet {cs : List UInt32} {s' s'' : Sched} {L' L'' : List Owned} : Rounds ok s L cs s' L' →
    Quiet s' L' s'' L'' → Rounds ok s L cs s'' L''
  | call {cs : List UInt32} {s' : Sched} {L' : List Owned} {fuel : Nat} {sp : UInt32}
    {r : Sched.Scheduled} : Rounds ok s L cs s' L' → ok s' → s'.schedule fuel sp = some r →
    Rounds ok s L (cs ++ [r.state.currentTask]) r.state
      (L'.filter fun o => o.pcb ∉ r.reaped.map Prod.fst)

/-- The tasks of `task_list` other than the current one, in order from the one behind it. -/
def Sched.Others (s : Sched) (q : List UInt32) : Prop :=
  ∃ l r, s.Linked s.taskList (l ++ s.currentTask :: r) ∧ q = r ++ l

/-- A call by a task that has not exited goes to the first ready task of the others, and changes
nothing when none is ready. -/
def Sched.GoesToFirstReady (s : Sched) : Prop :=
  ∃ q, s.Others q ∧ (s.hasState s.currentTask .terminated = false →
    ∀ fuel sp r, s.schedule fuel sp = some r →
      match q.find? fun t => s.hasState t .ready with
      | some t => r.switched = true ∧ r.state.currentTask = t
      | none => r = ⟨[], false, s⟩)

/-- The ready ones of the others, and the current task at the end. -/
def Sched.wheel (s : Sched) (q : List UInt32) : List UInt32 :=
  (q.filter fun t => s.hasState t .ready) ++ [s.currentTask]

section

variable {endAddr k : UInt32} {s s' : Sched} {L L' : List Owned} {ts zs xs q cs : List UInt32}
  {r : Sched.Scheduled} {fuel : Nat} {sp : UInt32}

/-! ## The search -/

/-- The search of the normal branch, when at most the idle task is not ready. -/
theorem SchedInv.findNext_eq {l r : List UInt32}
    (h : SchedInv s L (l ++ s.currentTask :: r) zs xs) :
    s.findNext = (r ++ l).find? fun t => s.hasState t .ready := by
  have hnd := (List.nodup_append.1 h.nodup).1
  have h0 : (0 : UInt32) ∉ l ++ s.currentTask :: r := fun hm =>
    h.zero_not_mem (List.mem_append_left _ hm)
  have hready : ∀ t ∈ r ++ l, s.hasState t .ready = true ∨ t = s.idleTask := fun t ht => by
    rcases h.tasks.ready t (by grind) (by grind) with e | ⟨e, -⟩
    · exact .inl (hasState_iff.2 e)
    · exact .inr e
  have hnext := nextOf_eq h.tasks.list h0 (List.cons_append (a := s.currentTask) ..)
  unfold Sched.findNext
  rw [hnext]
  cases hrl : r ++ l with
  | nil => exact if_pos rfl
  | cons a rest =>
    rw [hrl] at hready
    have hne : a ≠ s.currentTask := by
      have : a ∈ r ++ l := hrl ▸ List.mem_cons_self
      grind
    rw [List.cons_append, List.headD_cons, if_neg hne, maxTasks, Sched.searchReady]
    cases ha : s.hasState a .ready with
    | true => rw [if_pos rfl, List.find?_cons_of_pos (by simpa using ha)]
    | false =>
      -- `a` is the idle task: the one behind it is ready or the current one
      have hidle := (hready a List.mem_cons_self).resolve_left (by simp [ha])
      have hbehind : s.nextOf a = (rest ++ [s.currentTask]).headD 0 := by
        cases r with
        | nil =>
          rw [List.nil_append] at hrl
          subst hrl
          have hsplit : (a :: rest ++ [s.currentTask]) ++ [] = a :: (rest ++ [s.currentTask]) := by
            simp
          rw [nextOf_eq (l := []) h.tasks.list h0 hsplit]
          cases rest <;> rfl
        | cons b r =>
          rw [List.cons_append, List.cons.injEq] at hrl
          obtain ⟨rfl, rfl⟩ := hrl
          have hsplit : l ++ s.currentTask :: b :: r = (l ++ [s.currentTask]) ++ b :: r := by simp
          have hlist := h.tasks.list
          rw [hsplit] at hlist h0
          rw [nextOf_eq hlist h0 (List.cons_append ..), ← List.append_assoc r]
          cases r ++ l <;> rfl
      rw [if_neg (by simp), List.find?_cons_of_neg (by simp [ha]), hbehind]
      cases rest with
      | nil => exact if_pos rfl
      | cons b rest =>
        have hmem : b ∈ r ++ l := hrl ▸ by simp
        have hnd' : (a :: b :: rest).Nodup := hrl ▸ (by grind : (r ++ l).Nodup)
        have hb : s.hasState b .ready = true :=
          (hready b (by simp)).resolve_right fun e => by rw [e, ← hidle] at hnd'; simp at hnd'
        rw [List.cons_append, List.headD_cons, if_neg (by grind), Sched.searchReady, if_pos hb,
          List.find?_cons_of_pos (by simpa using hb)]

theorem SchedInv.others_iff {l r : List UInt32}
    (h : SchedInv s L (l ++ s.currentTask :: r) zs xs) : s.Others q ↔ q = r ++ l := by
  constructor
  · rintro ⟨l', r', hlist, rfl⟩
    have heq := hlist.unique h.linked.1
    have hnd := (List.nodup_append.1 h.nodup).1
    rw [List.nodup_middle, List.nodup_cons, List.mem_append, not_or] at hnd
    obtain ⟨rfl, -, rfl⟩ := (List.append_cons_inj_of_notMem hnd.1.1 hnd.1.2).1 heq.symm
    rfl
  · rintro rfl
    exact ⟨l, r, h.linked.1, rfl⟩

/-! ## One call -/

/-- The list read from behind a later task: the tasks after it, the current one and the tasks
before it. -/
theorem rotate_split {l r p p' : List UInt32} {c u : UInt32} (h : r ++ l = p ++ u :: p') :
    ∃ l' r', l ++ c :: r = l' ++ u :: r' ∧ r' ++ l' = p' ++ c :: p := by
  rcases List.append_eq_append_iff.1 h with ⟨m, rfl, hm⟩ | ⟨m, hm, hl⟩
  · exact ⟨m, p' ++ c :: r, by rw [hm]; simp, by simp⟩
  · cases m with
    | nil =>
      rw [List.nil_append] at hl
      rw [List.append_nil] at hm
      exact ⟨[], p' ++ c :: r, by rw [← hl]; simp, by rw [hm]; simp⟩
    | cons x m =>
      rw [List.cons_append, List.cons.injEq] at hl
      obtain ⟨rfl, rfl⟩ := hl
      exact ⟨l ++ c :: p, m, by rw [hm]; simp, by simp⟩

/-- A call that switches turns the wheel. -/
theorem Switched.wheel {l r ys : List UInt32} {M : List Owned} {u : UInt32}
    (h : SchedInv s L (l ++ s.currentTask :: r) zs xs)
    (hu : ((r ++ l).find? fun t => s.hasState t .ready) = some u)
    (hsw : Switched (dirs M) s s' (l ++ s.currentTask :: r) u)
    (h' : SchedInv s' M (l ++ s.currentTask :: r) [] ys) :
    ∃ q, s'.Others q ∧ (s.wheel (r ++ l)).head? = some u ∧
      s'.wheel q = (s.wheel (r ++ l)).rotate 1 := by
  obtain ⟨hur, p, p', hrl, hp⟩ := List.find?_eq_some_iff_append.1 hu
  obtain ⟨l', r', hts, hrot⟩ := rotate_split (c := s.currentTask) hrl
  have hnd := (List.nodup_append.1 h.nodup).1
  have hcur := hsw.current
  rw [hts, ← hcur] at h'
  refine ⟨r' ++ l', h'.others_iff.2 rfl, ?_, ?_⟩
  · rw [Sched.wheel, hrl, List.filter_append, List.filter_eq_nil_iff.2 (by simpa using hp),
      List.filter_cons_of_pos (by simpa using hur)]
    rfl
  · have hstate : ∀ t ∈ r ++ l, t ≠ u → s'.hasState t .ready = s.hasState t .ready := by
      intro t ht hne
      rw [Sched.hasState, Sched.hasState, hsw.states t (by grind) hne, if_neg (by grind)]
    have hnew : s'.hasState s.currentTask .ready = true := by
      have hne : s.currentTask ≠ u := by
        have : u ∈ r ++ l := hrl ▸ by simp
        grind
      rw [hasState_iff, hsw.states _ (by simp) hne, if_pos rfl]
    have hnd' : (p ++ u :: p').Nodup := hrl ▸ (by grind : (r ++ l).Nodup)
    have hmem : ∀ t ∈ p ++ p', t ∈ r ++ l ∧ t ≠ u := fun t ht => by
      rw [hrl]
      grind
    have hp' : (p'.filter fun t => s'.hasState t .ready) =
        p'.filter fun t => s.hasState t .ready :=
      List.filter_congr fun t ht => by
        obtain ⟨h1, h2⟩ := hmem t (List.mem_append_right _ ht)
        rw [hstate t h1 h2]
    have hpnil : (p.filter fun t => s'.hasState t .ready) = [] :=
      List.filter_eq_nil_iff.2 fun t ht => by
        obtain ⟨h1, h2⟩ := hmem t (List.mem_append_left _ ht)
        rw [hstate t h1 h2]
        simpa using hp t ht
    have hpnil' : (p.filter fun t => s.hasState t .ready) = [] :=
      List.filter_eq_nil_iff.2 (by simpa using hp)
    rw [Sched.wheel, Sched.wheel, hrot, hrl, List.filter_append, List.filter_append,
      List.filter_cons_of_pos (by simpa using hnew), List.filter_cons_of_pos (by simpa using hur),
      hp', hpnil, hpnil', hcur]
    simp

/-- What a call does, by the search. -/
theorem SchedInv.schedule_first {l r' : List UInt32}
    (h : SchedInv s L (l ++ s.currentTask :: r') zs xs)
    (hs : s.hasState s.currentTask .terminated = false)
    (hr : s.schedule fuel sp = some r) :
    match (r' ++ l).find? fun t => s.hasState t .ready with
    | some t => r.switched = true ∧ r.state.currentTask = t
    | none => r = ⟨[], false, s⟩ := by
  unfold Sched.schedule at hr
  rw [if_neg h.current_ne_zero, if_neg (by simp [hs]), h.findNext_eq] at hr
  cases hf : (r' ++ l).find? fun t => s.hasState t .ready with
  | none =>
    rw [hf] at hr
    exact (Option.some.inj hr).symm
  | some t =>
    rw [hf] at hr
    unfold Sched.switchTo at hr
    obtain ⟨⟨log, s₁⟩, -, rfl⟩ := Option.map_eq_some_iff.1 hr
    exact ⟨rfl, enter_current s₁ sp t⟩

/-- A running task and its wheel. -/
structure Rolling (s : Sched) (L : List Owned) (w : List UInt32) : Prop where
  inv : ∃ ts zs xs, SchedInv s L ts zs xs
  running : s.get s.currentTask .state = TaskState.running.code
  wheel : ∃ q, s.Others q ∧ w = s.wheel q

/-- A call turns the wheel by one place. -/
theorem Rolling.call {w : List UInt32} (h : Rolling s L w) (hok : s.ReapsOwn)
    (hr : s.schedule fuel sp = some r) :
    Rolling r.state (L.filter fun o => o.pcb ∉ r.reaped.map Prod.fst) (w.rotate 1) ∧
      w.head? = some r.state.currentTask := by
  obtain ⟨⟨ts, zs, xs, hinv⟩, hrun, q, hq, rfl⟩ := h
  obtain ⟨l, r', rfl⟩ := List.append_of_mem hinv.tasks.current
  obtain rfl := hinv.others_iff.1 hq
  cases hinv.schedule_outcome (.inl hrun) hok hr with
  | stay =>
    have hnone := hinv.schedule_first (not_terminated hrun) hr
    -- nothing is ready, so the wheel is the current task alone
    have hw : s.wheel (r' ++ l) = [s.currentTask] := by
      cases hf : (r' ++ l).find? fun t => s.hasState t .ready with
      | some t =>
        rw [hf] at hnone
        cases hnone.1
      | none =>
        rw [Sched.wheel, List.filter_eq_nil_iff.2 fun t ht => List.find?_eq_none.1 hf t ht]
        rfl
    rw [List.map_nil, filter_not_mem_nil, hw]
    exact ⟨⟨⟨_, zs, xs, hinv⟩, hrun, _, hq, by rw [hw, List.rotate_singleton]⟩, rfl⟩
  | exit hterm =>
    rw [hrun] at hterm
    exact absurd hterm (by decide)
  | switch _ hn _ hreap hinv' hsw =>
    rw [hreap.tasks]
    rw [hinv.findNext_eq] at hn
    obtain ⟨q, hq', hhead, hw⟩ := hsw.wheel hinv hn hinv'
    refine ⟨⟨⟨_, _, _, hinv'⟩, ?_, q, hq', hw.symm⟩, ?_⟩
    · rw [hsw.current]
      exact hsw.running
    · rw [hhead, hsw.current]

/-! ## A round -/

theorem Quiet.still (h : SchedInv s L ts zs xs) (hq : Quiet s L s' L') : Still s s' L' ts zs := by
  cases hq with
  | load ht hu hv hslot => exact h.still_loadPage ht hu hv hslot
  | map phys hslot hcur =>
    rw [hcur]
    exact h.still_keeps (h.core.mapKernel hslot phys pageWrite)
  | unmap _ hcur =>
    rw [hcur]
    exact h.still_keeps ⟨xs, h.core.unmapKernel _⟩
  | write ho hp hm => exact h.still_write ho hp hm
  | interrupt sp => exact h.still_interrupt sp

/-- What happens between the calls leaves the wheel. -/
theorem Rolling.quiet {w : List UInt32} (h : Rolling s L w) (hq : Quiet s L s' L') :
    Rolling s' L' w := by
  obtain ⟨⟨ts, zs, xs, hinv⟩, hrun, q, ho, rfl⟩ := h
  obtain ⟨⟨ys, hinv'⟩, hcur, -, hstates⟩ := hq.still hinv
  refine ⟨⟨ts, zs, ys, hinv'⟩, ?_, q, ?_, ?_⟩
  · rw [hcur, hstates _ hinv.tasks.current]
    exact hrun
  all_goals
    obtain ⟨l, r, rfl⟩ := List.append_of_mem hinv.tasks.current
    obtain rfl := hinv.others_iff.1 ho
  · rw [← hcur] at hinv'
    exact hinv'.others_iff.2 rfl
  · have hsame : ∀ t ∈ r ++ l, s'.hasState t .ready = s.hasState t .ready := fun t ht => by
      rw [Sched.hasState, Sched.hasState, hstates t (by grind)]
    rw [Sched.wheel, Sched.wheel, List.filter_congr fun t ht => by rw [← hsame t ht], hcur]

/-- The calls of a run go through the wheel. -/
theorem Rolling.rounds {w : List UInt32} (h : Rolling s L w) (hruns : Rounds Sched.ReapsOwn s L cs s' L')
    (hlen : cs.length ≤ w.length) : cs = w.take cs.length ∧ Rolling s' L' (w.rotate cs.length) := by
  induction hruns with
  | start => exact ⟨rfl, by rwa [List.length_nil, List.rotate_zero]⟩
  | quiet _ hq ih =>
    obtain ⟨hcs, hroll⟩ := ih hlen
    exact ⟨hcs, hroll.quiet hq⟩
  | @call cs s' L' fuel sp r _ hok hr ih =>
    rw [List.length_append, List.length_singleton] at hlen ⊢
    obtain ⟨hcs, hroll⟩ := ih (by omega)
    obtain ⟨hroll', hhead⟩ := hroll.call hok hr
    rw [List.rotate_rotate] at hroll'
    refine ⟨?_, hroll'⟩
    rw [List.head?_rotate (by omega)] at hhead
    rw [List.take_add_one, hhead, ← hcs]
    rfl

/-- **Round robin**, in every run in which `schedule` only reaps what is reapable: a call goes to
the first ready task behind the current one and ends, and while no task is made and none exits the
ready tasks have their turn in the order of the list, after which the first one has it again. -/
theorem schedule_round_robin (hl : Vmm.ImageLayout endAddr k)
    (h : Reachable endAddr k Sched.ReapsOwn s L) : s.GoesToFirstReady ∧
      (s.ReapsOwn → ∀ sp, ∃ fuel r, s.schedule fuel sp = some r) ∧
      ∀ q, s.Others q → s.hasState s.currentTask .terminated = false →
        ∀ cs s' L', Rounds Sched.ReapsOwn s L cs s' L' → cs.length ≤ (s.wheel q).length →
          cs = (s.wheel q).take cs.length := by
  obtain ⟨ts, zs, xs, hinv, ha⟩ := h.inv hl fun _ h => h
  obtain ⟨l, r, rfl⟩ := List.append_of_mem hinv.tasks.current
  refine ⟨⟨_, hinv.others_iff.2 rfl, fun hs fuel sp r hr => hinv.schedule_first hs hr⟩,
    fun hok sp => ?_, fun q hq hs cs s' L' hruns hlen => ?_⟩
  · obtain ⟨r, hr, -⟩ := hinv.schedule_ends ha hok sp
    exact ⟨_, r, hr⟩
  · have hrun : s.get s.currentTask .state = TaskState.running.code :=
      ha.resolve_right fun hterm => by
        rw [hasState_iff.2 hterm.1] at hs
        cases hs
    have hroll : Rolling s L (s.wheel q) := ⟨⟨_, zs, xs, hinv⟩, hrun, q, hq, rfl⟩
    exact (hroll.rounds hruns hlen).1

theorem schedule_round_robin_small : ∃ s L, Reachable 0x102000 0x101000 Sched.ReapsOwn s L ∧
    s.GoesToFirstReady ∧ (s.ReapsOwn → ∀ sp, ∃ fuel r, s.schedule fuel sp = some r) ∧
      ∀ q, s.Others q → s.hasState s.currentTask .terminated = false →
        ∀ cs s' L', Rounds Sched.ReapsOwn s L cs s' L' → cs.length ≤ (s.wheel q).length →
          cs = (s.wheel q).take cs.length := by
  obtain ⟨s, L, b, c, o, d, y, xs, h, -⟩ := small_zombie
  exact ⟨s, L, h.reach, schedule_round_robin Vmm.smallLayout h.reach⟩

/-- The page of a task is freed as a table of the zombie's directory, and the next tasks that are
made close the list to a circle: no order of the tasks is left. -/
theorem schedule_loses_order : ∃ s L, Reachable 0x102000 0x101000 (fun _ => True) s L ∧
    s.hasState s.currentTask .running = true ∧ ¬ s.GoesToFirstReady := by
  obtain ⟨s, L, t, y, x, r, b, d, xs, h⟩ := small_astray
  obtain ⟨s', L', hreach, hrun, hlinked⟩ := h.circle
  refine ⟨s', L', hreach, hrun, ?_⟩
  rintro ⟨q, ⟨l, r', hlist, -⟩, -⟩
  exact hlinked _ hlist

end

end HaoSys.Proc
