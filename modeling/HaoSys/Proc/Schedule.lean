import HaoSys.Proc.Reap

/-!
# `schedule`

The two branches of `schedule` on the invariant. The search of the normal
branch stays on the list and ends at a ready task, so the switch is a change of
the `state` words, of `current_task` and of the two registers. The terminated
branch takes the current task off the list, puts it in front of the zombies and
continues with the first ready task behind it.
-/

namespace HaoSys.Proc

open HaoSys.Lib HaoSys.Mm

section

variable {s s' : Sched} {L M : List Owned} {ts zs xs ys : List UInt32} {o : Owned}
  {t u : UInt32}

/-! ## Going round the list -/

theorem nextOf_mem (h : Follows (fun t => s.get t .next) s.taskList ts 0) (ht : t ∈ ts) :
    s.nextOf t ∈ ts := by
  unfold Sched.nextOf
  split
  · cases ts with
    | nil => cases ht
    | cons x ts =>
      rw [h.1]
      exact List.mem_cons_self
  · next hne => exact (h.next_mem ht).resolve_right hne

/-- The task behind `t`, with the list read from `t` on. -/
theorem nextOf_eq {l r : List UInt32} (h : Follows (fun t => s.get t .next) s.taskList (l ++ r) 0)
    (h0 : (0 : UInt32) ∉ l ++ r) {rest : List UInt32} (hr : r ++ l = t :: rest) :
    s.nextOf t = (rest ++ [t]).headD 0 := by
  obtain ⟨b, hl, hb⟩ := follows_append.1 h
  unfold Sched.nextOf
  cases r with
  | nil =>
    rw [List.nil_append] at hr
    subst hr
    rw [follows_nil] at hb
    cases rest with
    | nil =>
      obtain ⟨e, hnext⟩ := hl
      rw [if_pos (hnext.trans hb), e]
      rfl
    | cons x rest =>
      have hx : s.get t .next = x := hl.2.1
      rw [if_neg, hx]
      · rfl
      · rw [hx]
        rintro rfl
        exact h0 (by simp)
  | cons a r =>
    rw [List.cons_append, List.cons.injEq] at hr
    obtain ⟨rfl, rfl⟩ := hr
    cases r with
    | nil =>
      have hnext : s.get a .next = 0 := hb.2
      rw [if_pos hnext, List.nil_append]
      cases l with
      | nil => exact hl.trans hb.1
      | cons x l => exact hl.1
    | cons x r =>
      have hx : s.get a .next = x := hb.2.1
      rw [if_neg, hx]
      · rfl
      · rw [hx]
        rintro rfl
        exact h0 (by simp)

theorem searchReady_mem (h : Follows (fun t => s.get t .next) s.taskList ts 0) {n : Nat}
    (ht : t ∈ ts) (hu : s.searchReady n t = some u) : u ∈ ts := by
  induction n generalizing t with
  | zero =>
    unfold Sched.searchReady at hu
    split at hu
    · cases hu
      exact ht
    · cases hu
  | succ n ih =>
    unfold Sched.searchReady at hu
    split at hu
    · cases hu
      exact ht
    · split at hu
      · cases hu
      · exact ih (nextOf_mem h ht) hu

/-- The normal branch switches to a task of the list. -/
theorem Tasks.findNext (h : Tasks s L ts zs) (hu : s.findNext = some u) : u ∈ ts := by
  unfold Sched.findNext at hu
  split at hu
  · cases hu
  · exact searchReady_mem h.list (nextOf_mem h.list h.current) hu

/-! ## Words of the tasks -/

/-- A change of the `state` and `esp` words and of the current task. -/
theorem Tasks.rotate (h : Tasks s L ts zs) (hidle : s'.idleTask = s.idleTask)
    (hlist : s'.taskList = s.taskList) (hz : s'.zombieList = s.zombieList)
    (hget : ∀ t ∈ ts ++ zs, ∀ f, f ≠ .state → f ≠ .esp → s'.get t f = s.get t f)
    (hcur : s'.currentTask ∈ ts)
    (hready : ∀ t ∈ ts, t ≠ s'.currentTask → s'.get t .state = TaskState.ready.code ∨
      t = s'.idleTask ∧ s'.get t .state = TaskState.running.code) : Tasks s' L ts zs := by
  refine ⟨fun o ho => (h.ok o ho).congr hidle fun f h1 _ h2 => ?_, ?_, ?_, h.perm, hcur,
    hidle ▸ h.idle, hready⟩
  · exact hget _ (h.perm.symm.subset (List.mem_map_of_mem ho)) f h1 h2
  · rw [hlist]
    exact h.list.congr fun t ht => hget t (List.mem_append_left _ ht) _ (by simp) (by simp)
  · rw [hz]
    exact h.zombies.congr fun t ht => hget t (List.mem_append_right _ ht) _ (by simp) (by simp)

theorem SchedInv.aligned (h : SchedInv s L ts zs xs) (ht : t ∈ ts ++ zs) : t.toNat % 4096 = 0 :=
  (h.fresh ht).inUse.aligned

theorem SchedInv.set_sameTables (h : SchedInv s L ts zs xs) (ht : t ∈ ts ++ zs) (f : Field)
    (x : UInt32) : SameTables (dirs L) s.vmm (s.set t f x).vmm := by
  obtain ⟨o, ho, rfl⟩ := h.entry ht
  exact h.core.set_sameTables (pcb_mem_held ho) f x

theorem SchedInv.setCore (h : SchedInv s L ts zs xs) (ht : t ∈ ts ++ zs) (f : Field) (x : UInt32) :
    Core (s.set t f x).vmm L xs := by
  obtain ⟨o, ho, rfl⟩ := h.entry ht
  exact (h.core.set (pcb_mem_held ho) f x).1

@[simp] theorem switchDirectory_get (s : Sched) (t u : UInt32) (f : Field) :
    (s.switchDirectory t).get u f = s.get u f := by
  unfold Sched.switchDirectory
  simp only
  split
  · unfold Sched.get Vmm.vmmSwitchDirectory
    split <;> rfl
  · rfl

theorem switchDirectory_vars (s : Sched) (t : UInt32) :
    (s.switchDirectory t).taskList = s.taskList ∧ (s.switchDirectory t).currentTask = s.currentTask ∧
      (s.switchDirectory t).idleTask = s.idleTask ∧ (s.switchDirectory t).zombieList = s.zombieList ∧
      (s.switchDirectory t).esp0 = s.esp0 := by
  unfold Sched.switchDirectory
  simp only
  split <;> exact ⟨rfl, rfl, rfl, rfl, rfl⟩

theorem switchDirectory_vmm (s : Sched) (t : UInt32) :
    (s.switchDirectory t).vmm = { s.vmm with
      currentDirectory := if s.get t .pageDirectory = 0 then s.vmm.currentDirectory
        else s.get t .pageDirectory } := by
  unfold Sched.switchDirectory
  simp only
  by_cases h0 : s.get t .pageDirectory = 0
  · rw [if_neg (fun h => h.1 h0), if_pos h0]
  · rw [if_neg h0]
    by_cases hc : s.get t .pageDirectory = s.vmm.currentDirectory
    · rw [if_neg (fun h => h.2 hc), hc]
    · rw [if_pos ⟨h0, hc⟩]
      unfold Vmm.vmmSwitchDirectory
      rw [if_neg h0]

/-! ## The normal branch -/

/-- What a call that switches to `next` makes of the state, with the tasks `ts` left on the list and
the directories `ds`. -/
structure Switched (ds : List UInt32) (s s' : Sched) (ts : List UInt32) (next : UInt32) : Prop where
  current : s'.currentTask = next
  running : s'.get next .state = TaskState.running.code
  states : ∀ t ∈ ts, t ≠ next → s'.get t .state =
    if t = s.currentTask then TaskState.ready.code else s.get t .state
  words : ∀ t ∈ ts, ∀ f, f ≠ .state → f ≠ .esp → f ≠ .next → s'.get t f = s.get t f
  idle : s'.idleTask = s.idleTask
  tables : SameTables ds s.vmm s'.vmm
  directory : s'.get next .pageDirectory ≠ 0 →
    s'.vmm.currentDirectory = s'.get next .pageDirectory

/-- Saving the stack pointer of a kernel task. -/
theorem SchedInv.saveEsp (h : SchedInv s L ts zs xs) (ht : t ∈ ts ++ zs) (sp : UInt32) :
    SchedInv (s.set t .esp sp) L ts zs xs := by
  have hget : ∀ u ∈ ts ++ zs, ∀ f, f ≠ .esp → (s.set t .esp sp).get u f = s.get u f :=
    fun u hu f hf => get_set_of_ne (h.aligned ht) (h.aligned hu) (.inl hf)
  refine ⟨h.setCore ht .esp sp, h.tasks.rotate rfl rfl rfl (fun u hu f _ hf => hget u hu f hf)
    h.tasks.current fun u hu hne => ?_⟩
  rw [hget u (List.mem_append_left _ hu) _ (by simp)]
  exact h.tasks.ready u hu hne

/-- The switch itself: the words of the two tasks, `current_task` and CR3. -/
theorem SchedInv.setCurrent (h : SchedInv s L ts zs xs) (esp0 : UInt32) {next : UInt32}
    (hn : next ∈ ts) :
    let s₂ := (s.set s.currentTask .state TaskState.ready.code).set next .state
      TaskState.running.code
    let s₃ := Sched.switchDirectory { s₂ with esp0 := esp0, currentTask := next } next
    SchedInv s₃ L ts zs xs ∧ Switched (dirs L) s s₃ (ts ++ zs) next ∧ s₃.esp0 = esp0 := by
  intro s₂ s₃
  have hprev := List.mem_append_left zs h.tasks.current
  have hnext := List.mem_append_left zs hn
  have hget : ∀ t ∈ ts ++ zs, ∀ f, s₃.get t f =
      if t = next ∧ f = .state then TaskState.running.code
      else if t = s.currentTask ∧ f = .state then TaskState.ready.code else s.get t f := by
    intro t ht f
    rw [switchDirectory_get]
    change s₂.get t f = _
    rw [get_set (h.aligned hnext) (h.aligned ht), get_set (h.aligned hprev) (h.aligned ht)]
  have hother : ∀ t ∈ ts ++ zs, ∀ f, f ≠ .state → s₃.get t f = s.get t f := fun t ht f hf => by
    rw [hget t ht, if_neg fun e => hf e.2, if_neg fun e => hf e.2]
  have hvmm := switchDirectory_vmm { s₂ with esp0 := esp0, currentTask := next } next
  obtain ⟨hlist, hcur, hidle, hz, hesp⟩ :=
    switchDirectory_vars { s₂ with esp0 := esp0, currentTask := next } next
  have hcore₁ := h.setCore hprev .state TaskState.ready.code
  obtain ⟨o, ho, he⟩ := h.entry hnext
  have hheld : next ∈ held L := he ▸ pcb_mem_held ho
  have hcore₂ : Core s₂.vmm L xs := (hcore₁.set hheld .state TaskState.running.code).1
  have htables : SameTables (dirs L) s.vmm s₂.vmm :=
    (h.set_sameTables hprev .state _).trans (hcore₁.set_sameTables hheld .state _)
  refine ⟨⟨?_, h.tasks.rotate hidle hlist hz (fun t ht f hf _ => hother t ht f hf) ?_ ?_⟩,
    ⟨hcur, ?_, fun t ht hne' => ?_, fun t ht f hf _ _ => hother t ht f hf, hidle, ?_,
      fun hpd => ?_⟩, hesp⟩
  · rw [hvmm]
    exact hcore₂.setDirectory _
  · rw [hcur]
    exact hn
  · intro t ht hne'
    rw [hcur] at hne'
    rw [hget t (List.mem_append_left _ ht), if_neg fun e => hne' e.1]
    by_cases he : t = s.currentTask
    · rw [if_pos ⟨he, rfl⟩]
      exact .inl rfl
    · rw [if_neg fun e => he e.1, hidle]
      exact h.tasks.ready t ht he
  · rw [hget next hnext, if_pos ⟨rfl, rfl⟩]
  · rw [hget t ht, if_neg fun e => hne' e.1]
    simp only [and_true]
  · rw [hvmm]
    exact htables.setDirectory _
  · rw [switchDirectory_get] at hpd
    rw [switchDirectory_get, hvmm]
    exact if_neg hpd

theorem enter_eq (s : Sched) (sp next : UInt32) : ∃ esp0,
    let s₂ := (s.set s.currentTask .state TaskState.ready.code).set next .state
      TaskState.running.code
    let s₃ := Sched.switchDirectory { s₂ with esp0 := esp0, currentTask := next } next
    esp0 = (if s₂.get next .kernelEsp0 ≠ 0 then s₂.get next .kernelEsp0 else s₂.esp0) ∧
      s.enter sp next =
        if s₃.isUserTask s.currentTask then s₃ else s₃.set s.currentTask .esp sp := by
  refine ⟨_, rfl, ?_⟩
  unfold Sched.enter
  by_cases hc : ((s.set s.currentTask .state TaskState.ready.code).set next .state
      TaskState.running.code).get next .kernelEsp0 ≠ 0
  · simp only [if_pos hc]
  · simp only [if_neg hc]

theorem enter_current (s : Sched) (sp t : UInt32) : (s.enter sp t).currentTask = t := by
  have hsave : ∀ s₁ : Sched, s₁.currentTask = t →
      (if s₁.isUserTask s.currentTask then s₁ else s₁.set s.currentTask .esp sp).currentTask = t := by
    intro s₁ h
    split <;> exact h
  obtain ⟨esp0, -, heq⟩ := enter_eq s sp t
  rw [heq]
  exact hsave _ (switchDirectory_vars ..).2.1

theorem SchedInv.enter (h : SchedInv s L ts zs xs) (sp : UInt32) {next : UInt32} (hn : next ∈ ts) :
    SchedInv (s.enter sp next) L ts zs xs ∧
      Switched (dirs L) s (s.enter sp next) (ts ++ zs) next ∧
      ((s.enter sp next).get next .kernelEsp0 ≠ 0 →
        (s.enter sp next).esp0 = (s.enter sp next).get next .kernelEsp0) := by
  obtain ⟨esp0, hesp, heq⟩ := enter_eq s sp next
  have hnext := List.mem_append_left zs hn
  have hprev := List.mem_append_left zs h.tasks.current
  obtain ⟨hinv, hsw, hesp₃⟩ := h.setCurrent esp0 hn
  have hget : ∀ s₃ : Sched, Switched (dirs L) s s₃ (ts ++ zs) next →
      s₃.get next .kernelEsp0 = s.get next .kernelEsp0 := fun _ hs =>
    hs.words next hnext _ (by simp) (by simp) (by simp)
  have hkernel : ((s.set s.currentTask .state TaskState.ready.code).set next .state
      TaskState.running.code).get next .kernelEsp0 = s.get next .kernelEsp0 := by
    rw [get_set_of_ne (h.aligned hnext) (h.aligned hnext) (.inl (by simp)),
      get_set_of_ne (h.aligned hprev) (h.aligned hnext) (.inl (by simp))]
  rw [hkernel] at hesp
  rw [heq]
  generalize Sched.switchDirectory _ next = s₃ at *
  by_cases hu : s₃.isUserTask s.currentTask = true
  · rw [if_pos hu]
    refine ⟨hinv, hsw, fun hne0 => ?_⟩
    rw [hget _ hsw] at hne0 ⊢
    rw [hesp₃, hesp, if_pos hne0]
  · rw [if_neg hu]
    have hsame : ∀ t ∈ ts ++ zs, ∀ f, f ≠ .esp →
        (s₃.set s.currentTask .esp sp).get t f = s₃.get t f :=
      fun t ht f hf => get_set_of_ne (h.aligned hprev) (h.aligned ht) (.inl hf)
    refine ⟨hinv.saveEsp hprev sp, ⟨hsw.current, ?_, fun t ht hne' => ?_, fun t ht f h1 h2 h3 => ?_,
      hsw.idle, hsw.tables.trans (hinv.set_sameTables hprev .esp sp), fun hpd => ?_⟩,
      fun hne0 => ?_⟩
    · rw [hsame next hnext _ (by simp)]
      exact hsw.running
    · rw [hsame t ht _ (by simp)]
      exact hsw.states t ht hne'
    · rw [hsame t ht f h2]
      exact hsw.words t ht f h1 h2 h3
    · rw [hsame next hnext _ (by simp)] at hpd ⊢
      exact hsw.directory hpd
    · rw [hsame next hnext _ (by simp), hget _ hsw] at hne0 ⊢
      change s₃.esp0 = _
      rw [hesp₃, hesp, if_pos hne0]

theorem SchedInv.switchTo (h : SchedInv s L ts zs xs) (hr : ∀ z ∈ zs, s.Reapable z) {fuel : Nat}
    (hfuel : zs.length ≤ fuel) (sp : UInt32) {next : UInt32} (hn : next ∈ ts) :
    ∃ log s' ys, s.switchTo fuel sp next = some ⟨log, true, s'⟩ ∧ Reaped s L zs log ∧
      SchedInv s' (L.filter fun o => o.pcb ∉ zs) ts [] ys ∧
      Switched (dirs (L.filter fun o => o.pcb ∉ zs)) s s' ts next ∧
      (s'.get next .kernelEsp0 ≠ 0 → s'.esp0 = s'.get next .kernelEsp0) ∧
      Vmm.GivesBack s.vmm.pmm.totalPages (log.flatMap Prod.snd) xs ys := by
  obtain ⟨log, w, ys, hrun, hreap, hleft, hinv, hback⟩ := h.reapZombies hr hfuel
  have hswitch : s.switchTo fuel sp next =
      some ⟨log, true, Sched.enter { s with zombieList := 0, vmm := w } sp next⟩ := by
    unfold Sched.switchTo
    rw [hrun, Option.map_some]
  obtain ⟨hinv', hsw, hesp⟩ := hinv.enter sp hn
  -- the tasks of the list keep their words when the zombies go
  have hget : ∀ t ∈ ts, ∀ f, Sched.get { s with zombieList := 0, vmm := w } t f = s.get t f := by
    intro t ht f
    obtain ⟨o, ho, rfl⟩ := hinv.entry (List.mem_append_left _ ht)
    exact hleft.held _ (pcb_mem_held ho) _ f.index_lt
  refine ⟨log, _, ys, hswitch, hreap, hinv', ⟨hsw.current, hsw.running, fun t ht hne' => ?_,
    fun t ht f h1 h2 h3 => ?_, hsw.idle, hleft.sameTables.trans hsw.tables, hsw.directory⟩, hesp,
    hback⟩
  · rw [hsw.states t (List.mem_append_left _ ht) hne', hget t ht]
  · rw [hsw.words t (List.mem_append_left _ ht) f h1 h2 h3, hget t ht]

/-! ## The terminated branch -/

theorem findCurrent_eq {l r : List UInt32} {fuel : Nat} {prev : UInt32}
    (h : Follows (fun t => s.get t .next) t (l ++ s.currentTask :: r) 0)
    (hl : ∀ x ∈ l, x ≠ 0 ∧ x ≠ s.currentTask) (hfuel : l.length < fuel) :
    s.findCurrent fuel prev t = some (l.getLastD prev, s.currentTask) := by
  induction l generalizing fuel prev t with
  | nil =>
    obtain ⟨fuel, rfl⟩ : ∃ n, fuel = n + 1 := ⟨fuel - 1, by simp at hfuel; omega⟩
    unfold Sched.findCurrent
    rw [if_pos (.inr h.1), h.1]
    rfl
  | cons x l ih =>
    obtain ⟨fuel, rfl⟩ : ∃ n, fuel = n + 1 := ⟨fuel - 1, by simp at hfuel; omega⟩
    obtain ⟨rfl, hf⟩ := h
    have hx := hl t List.mem_cons_self
    unfold Sched.findCurrent
    rw [if_neg (by simp [hx]), ih hf (fun y hy => hl y (List.mem_cons_of_mem _ hy))
      (by simpa using hfuel)]
    cases l <;> rfl

/-- The current task is off the list, with `s₁` and then `s₂` for the states. -/
structure Unlinked (s s₁ : Sched) (L : List Owned) (l r zs xs : List UInt32) : Prop where
  core : Core s₁.vmm L xs
  list : Follows (fun t => s₁.get t .next) s₁.taskList (l ++ r) 0
  next : ∀ t ∈ s.currentTask :: zs, s₁.get t .next = s.get t .next
  get : ∀ t ∈ (l ++ s.currentTask :: r) ++ zs, ∀ f, f ≠ .next → s₁.get t f = s.get t f
  current : s₁.currentTask = s.currentTask
  idle : s₁.idleTask = s.idleTask
  zombies : s₁.zombieList = s.zombieList
  esp0 : s₁.esp0 = s.esp0
  tables : SameTables (dirs L) s.vmm s₁.vmm

theorem SchedInv.unlinkCurrent {l r : List UInt32}
    (h : SchedInv s L (l ++ s.currentTask :: r) zs xs) {fuel : Nat} (hfuel : l.length < fuel) :
    ∃ s₁, s.unlinkCurrent fuel = some s₁ ∧ Unlinked s s₁ L l r zs xs := by
  have hnd := h.nodup
  have hmem : ∀ x, x ∈ l ++ s.currentTask :: r → x ≠ 0 := fun x hx =>
    (h.fresh (List.mem_append_left _ hx)).ne_zero
  have hl : ∀ x ∈ l, x ≠ 0 ∧ x ≠ s.currentTask := fun x hx => by
    refine ⟨hmem x (List.mem_append_left _ hx), ?_⟩
    rintro rfl
    grind
  unfold Sched.unlinkCurrent
  rw [findCurrent_eq h.tasks.list hl hfuel, Option.map_some]
  simp only [if_true]
  refine ⟨_, rfl, ?_⟩
  rcases List.eq_nil_or_concat' l with rfl | ⟨l, x, rfl⟩
  · -- the head of the list
    rw [if_neg (by simp)]
    exact ⟨h.core, (follows_cons.1 h.tasks.list).2, fun _ _ => rfl, fun _ _ _ _ => rfl, rfl, rfl,
      rfl, rfl, .refl _ _⟩
  · have hx : x ∈ (l ++ [x]) ++ s.currentTask :: r ++ zs := by simp
    have hlast : (l ++ [x]).getLastD 0 = x := by simp
    rw [hlast, if_pos (hmem x (by simp))]
    have hget : ∀ t ∈ (l ++ [x]) ++ s.currentTask :: r ++ zs, ∀ f, f ≠ .next ∨ t ≠ x →
        (s.set x .next (s.get s.currentTask .next)).get t f = s.get t f :=
      fun t ht f hf => get_set_of_ne (h.aligned hx) (h.aligned ht) hf
    have hlist := h.tasks.list
    rw [List.append_assoc, List.singleton_append] at hlist
    have hunlink : Follows (fun t => (s.set x .next (s.get s.currentTask .next)).get t .next)
        s.taskList (l ++ x :: r) 0 := hlist.unlink (get_set_self ..) fun c hc =>
      hget c (by grind) _ (.inr (by grind))
    rw [← List.singleton_append, ← List.append_assoc] at hunlink
    exact ⟨h.setCore hx _ _, hunlink, fun t ht => hget t (by grind) _ (.inr (by grind)),
      fun t ht f hf => hget t ht f (.inl hf), rfl, rfl, rfl, rfl, h.set_sameTables hx _ _⟩

/-- The first ready task of a list, or its first. -/
def Sched.firstReady (s : Sched) (ts : List UInt32) : UInt32 :=
  (ts.find? fun t => s.hasState t .ready).getD (ts.headD 0)

theorem firstReady_mem (s : Sched) (hne : ts ≠ []) : s.firstReady ts ∈ ts := by
  unfold Sched.firstReady
  cases hf : ts.find? fun t => s.hasState t .ready with
  | none =>
    cases ts with
    | nil => exact absurd rfl hne
    | cons x ts => exact List.mem_cons_self
  | some u => exact List.mem_of_find?_eq_some hf

theorem pickReady_alone (h : s.hasState t .ready = false) (hself : s.nextOf t = t) (n : Nat) :
    s.pickReady n t = t := by
  induction n with
  | zero => rfl
  | succ n ih =>
    unfold Sched.pickReady
    rw [h, if_neg (by simp), hself, ih]

/-- The search of the terminated branch, when at most the idle task is not ready. -/
theorem pickReady_eq {l r : List UInt32} (h : Follows (fun t => s.get t .next) s.taskList (l ++ r) 0)
    (hnd : (l ++ r).Nodup) (h0 : (0 : UInt32) ∉ l ++ r) (hne : r ++ l ≠ [])
    (hready : ∀ t ∈ l ++ r, s.hasState t .ready = true ∨ t = s.idleTask) :
    (if s.hasState (s.pickReady maxTasks ((r ++ l).headD 0)) .ready then
      s.pickReady maxTasks ((r ++ l).headD 0) else (r ++ l).headD 0) = s.firstReady (r ++ l) := by
  have hmem : ∀ t ∈ r ++ l, t ∈ l ++ r := fun t ht => (List.perm_append_comm).subset ht
  have hnd' : (r ++ l).Nodup := List.perm_append_comm.nodup hnd
  unfold Sched.firstReady
  cases hrl : r ++ l with
  | nil => exact absurd hrl hne
  | cons a rest =>
    rw [hrl] at hmem hnd'
    rw [List.headD_cons]
    have hstep : ∀ n, s.pickReady (n + 1) a =
        if s.hasState a .ready then a else s.pickReady n (s.nextOf a) := fun n => rfl
    cases ha : s.hasState a .ready with
    | true =>
      rw [List.find?_cons_of_pos (by simpa using ha)]
      have hpick : s.pickReady maxTasks a = a := by
        rw [maxTasks, hstep, if_pos ha]
      rw [hpick, if_pos ha]
      rfl
    | false =>
      have hidle : a = s.idleTask := (hready a (hmem a List.mem_cons_self)).resolve_left (by simp [ha])
      have hnext := nextOf_eq h h0 hrl
      rw [List.find?_cons_of_neg (by simp [ha])]
      cases rest with
      | nil =>
        rw [pickReady_alone ha hnext, if_neg (by simp [ha])]
        rfl
      | cons b rest =>
        have hb : s.hasState b .ready = true := by
          refine (hready b (hmem b (by simp))).resolve_right fun e => ?_
          rw [hidle, ← e] at hnd'
          simp at hnd'
        have hpick : s.pickReady maxTasks a = b := by
          rw [maxTasks, hstep, if_neg (by simp [ha]), hnext]
          change s.pickReady (30 + 1) b = b
          unfold Sched.pickReady
          rw [if_pos hb]
        rw [hpick, if_pos hb, List.find?_cons_of_pos (by simpa using hb)]
        rfl

/-- The terminated task in front of the zombies. -/
structure Zombied (s s₂ : Sched) (L : List Owned) (l r zs xs : List UInt32) : Prop where
  core : Core s₂.vmm L xs
  list : Follows (fun t => s₂.get t .next) s₂.taskList (l ++ r) 0
  zombies : Follows (fun t => s₂.get t .next) s₂.zombieList (s.currentTask :: zs) 0
  get : ∀ t ∈ (l ++ s.currentTask :: r) ++ zs, ∀ f, f ≠ .next → s₂.get t f = s.get t f
  idle : s₂.idleTask = s.idleTask
  esp0 : s₂.esp0 = s.esp0
  tables : SameTables (dirs L) s.vmm s₂.vmm

theorem SchedInv.freeTaskLater {l r : List UInt32} {s₁ : Sched}
    (h : SchedInv s L (l ++ s.currentTask :: r) zs xs) (hu : Unlinked s s₁ L l r zs xs) :
    Zombied s (s₁.freeTaskLater s.currentTask) L l r zs xs := by
  have hc : s.currentTask ∈ (l ++ s.currentTask :: r) ++ zs := by simp
  have hnd := h.nodup
  have hget : ∀ t ∈ (l ++ s.currentTask :: r) ++ zs, ∀ f, f ≠ .next ∨ t ≠ s.currentTask →
      (s₁.freeTaskLater s.currentTask).get t f = s₁.get t f :=
    fun t ht f hf => get_set_of_ne (h.aligned hc) (h.aligned ht) hf
  obtain ⟨o, ho, he⟩ := h.entry hc
  have hheld : s.currentTask ∈ held L := he ▸ pcb_mem_held ho
  have hcore : Core (s₁.freeTaskLater s.currentTask).vmm L xs :=
    (hu.core.set hheld .next s₁.zombieList).1
  refine ⟨hcore, ?_, ⟨rfl, ?_⟩, fun t ht f hf => ?_, hu.idle, hu.esp0,
    hu.tables.trans (hu.core.set_sameTables hheld .next _)⟩
  · exact hu.list.congr fun t ht => hget t (by grind) _ (.inr (by grind))
  · have hnext : (s₁.freeTaskLater s.currentTask).get s.currentTask .next = s.zombieList :=
      (get_set_self ..).trans hu.zombies
    simp only [hnext]
    refine h.tasks.zombies.congr fun t ht => ?_
    rw [hget t (by grind) _ (.inr (by grind)), hu.next t (List.mem_cons_of_mem _ ht)]
  · rw [hget t ht f (.inl hf), hu.get t ht f hf]

/-- The successor that is read before the list is changed. -/
theorem SchedInv.successor {l r : List UInt32} {s₁ : Sched}
    (h : SchedInv s L (l ++ s.currentTask :: r) zs xs) (hidle : s.currentTask ≠ s.idleTask)
    (hu : Unlinked s s₁ L l r zs xs) :
    (if s₁.get s.currentTask .next = 0 then (s₁.freeTaskLater s.currentTask).taskList
      else s₁.get s.currentTask .next) = (r ++ l).headD 0 ∧ r ++ l ≠ [] := by
  have hmem : s.idleTask ∈ r ++ l := by
    have := h.tasks.idle
    grind
  rw [hu.next _ List.mem_cons_self]
  obtain ⟨b, -, -, hr⟩ := follows_append.1 h.tasks.list
  cases r with
  | nil =>
    have hnext : s.get s.currentTask .next = 0 := hr
    rw [if_pos hnext]
    have hlist := hu.list
    cases l with
    | nil => simp at hmem
    | cons x l => exact ⟨hlist.1, by simp⟩
  | cons x r =>
    have hnext : s.get s.currentTask .next = x := hr.1
    have hx : x ≠ 0 := (h.fresh (t := x) (by simp)).ne_zero
    rw [hnext, if_neg hx]
    exact ⟨rfl, by simp⟩

theorem firstReady_congr (hget : ∀ t ∈ ts, s'.get t .state = s.get t .state) :
    s'.firstReady ts = s.firstReady ts := by
  have hstate : ∀ t ∈ ts, s'.hasState t .ready = s.hasState t .ready := fun t ht => by
    rw [Sched.hasState, Sched.hasState, hget t ht]
  unfold Sched.firstReady
  congr 1
  induction ts with
  | nil => rfl
  | cons x ts ih =>
    rw [List.find?_cons, List.find?_cons, hstate x List.mem_cons_self,
      ih (fun t ht => hget t (List.mem_cons_of_mem _ ht))
        fun t ht => hstate t (List.mem_cons_of_mem _ ht)]

/-- **The terminated branch.** -/
theorem SchedInv.scheduleTerminated {l r : List UInt32}
    (h : SchedInv s L (l ++ s.currentTask :: r) zs xs) (hidle : s.currentTask ≠ s.idleTask)
    {fuel : Nat} (hfuel : l.length < fuel) :
    ∃ s', s.scheduleTerminated fuel = some ⟨[], true, s'⟩ ∧
      SchedInv s' L (l ++ r) (s.currentTask :: zs) xs ∧
      Switched (dirs L) s s' (l ++ r) (s.firstReady (r ++ l)) ∧ s'.esp0 = s.esp0 ∧
      ∀ t ∈ (l ++ s.currentTask :: r) ++ zs, ∀ f, f ≠ .next → f ≠ .state →
        s'.get t f = s.get t f := by
  obtain ⟨s₁, hrun, hu⟩ := h.unlinkCurrent hfuel
  have hz := h.freeTaskLater hu
  obtain ⟨hstart, hne⟩ := h.successor hidle hu
  have hnd := h.nodup
  generalize hs₂ : s₁.freeTaskLater s.currentTask = s₂ at *
  have hmem : ∀ t ∈ r ++ l, t ∈ (l ++ s.currentTask :: r) ++ zs := by grind
  have hmem' : ∀ t ∈ l ++ r, t ∈ (l ++ s.currentTask :: r) ++ zs := by grind
  have hperm : (l ++ r ++ s.currentTask :: zs).Perm ((l ++ s.currentTask :: r) ++ zs) := by
    grind
  have hzero : (0 : UInt32) ∉ r ++ l := fun hm => (h.fresh (hmem 0 hm)).ne_zero rfl
  -- the task that is picked
  have hstate : ∀ t ∈ r ++ l, s₂.get t .state = s.get t .state := fun t ht =>
    hz.get t (hmem t ht) _ (by simp)
  have hpick := pickReady_eq hz.list (by grind) (by grind) hne fun t ht => by
    rcases h.tasks.ready t (by grind) (by grind) with e | ⟨e, -⟩
    · rw [Sched.hasState, hz.get t (hmem' t ht) _ (by simp), e]
      exact .inl (by simp)
    · exact .inr (e.trans hz.idle.symm)
  rw [firstReady_congr hstate] at hpick
  have hn := firstReady_mem s hne
  have hhead : (r ++ l).headD 0 ≠ 0 := by
    cases hrl : r ++ l with
    | nil => exact absurd hrl hne
    | cons x rest =>
      rintro rfl
      exact hzero (by simp [hrl])
  generalize s.firstReady (r ++ l) = n at *
  have hna := h.aligned (hmem n hn)
  generalize hs₃ : Sched.set { s₂ with currentTask := n } n .state TaskState.running.code = s₃
  have hget₃ : ∀ t ∈ (l ++ s.currentTask :: r) ++ zs, ∀ f, s₃.get t f =
      if t = n ∧ f = .state then TaskState.running.code else s₂.get t f := by
    intro t ht f
    rw [← hs₃, get_set hna (h.aligned ht)]
    rfl
  have hcore₃ : Core s₃.vmm L xs ∧ SameTables (dirs L) s₂.vmm s₃.vmm := by
    obtain ⟨o, ho, he⟩ := h.entry (hmem n hn)
    have hheld : n ∈ held L := he ▸ pcb_mem_held ho
    rw [← hs₃]
    exact ⟨(Core.set (s := { s₂ with currentTask := n }) hz.core hheld .state _).1,
      Core.set_sameTables (s := { s₂ with currentTask := n }) hz.core hheld .state _⟩
  have hvars : s₃.taskList = s₂.taskList ∧ s₃.currentTask = n ∧ s₃.idleTask = s₂.idleTask ∧
      s₃.zombieList = s₂.zombieList ∧ s₃.esp0 = s₂.esp0 := by
    rw [← hs₃]
    exact ⟨rfl, rfl, rfl, rfl, rfl⟩
  obtain ⟨hlist₃, hcur₃, hidle₃, hz₃, hesp₃⟩ := hvars
  have hnext₃ : ∀ t ∈ (l ++ s.currentTask :: r) ++ zs, s₃.get t .next = s₂.get t .next :=
    fun t ht => by rw [hget₃ t ht, if_neg (by simp)]
  have hother₃ : ∀ t ∈ (l ++ s.currentTask :: r) ++ zs, ∀ f, f ≠ .next → f ≠ .state →
      s₃.get t f = s.get t f := fun t ht f h1 h2 => by
    rw [hget₃ t ht, if_neg fun e => h2 e.2, hz.get t ht f h1]
  obtain ⟨hlist, hcur, hidl, hzom, hesp⟩ := switchDirectory_vars s₃ n
  refine ⟨s₃.switchDirectory n, ?_, ⟨?_, fun o ho => ?_, ?_, ?_, ?_, ?_, ?_, fun t ht hne' => ?_⟩,
    ⟨?_, ?_, fun t ht hne' => ?_, fun t ht f h1 _ h2 => ?_, ?_, ?_, fun hpd => ?_⟩, ?_,
    fun t ht f h1 h2 => ?_⟩
  · unfold Sched.scheduleTerminated
    rw [hrun, Option.bind_some, hu.current]
    simp only [hs₂, hstart]
    rw [if_neg hhead]
    simp only [hpick, hs₃, hcur₃]
  · rw [switchDirectory_vmm]
    exact hcore₃.1.setDirectory _
  · refine (h.tasks.ok o ho).congr (hidl.trans (hidle₃.trans hz.idle)) fun f h1 h2 _ => ?_
    rw [switchDirectory_get]
    exact hother₃ _ (h.tasks.perm.symm.subset (List.mem_map_of_mem ho)) f h2 h1
  · rw [hlist, hlist₃]
    refine hz.list.congr fun t ht => ?_
    rw [switchDirectory_get, hnext₃ t (hmem' t ht)]
  · rw [hzom, hz₃]
    refine hz.zombies.congr fun t ht => ?_
    rw [switchDirectory_get, hnext₃ t (hperm.subset (List.mem_append_right _ ht))]
  · exact hperm.trans h.tasks.perm
  · rw [hcur, hcur₃]
    exact List.perm_append_comm.subset hn
  · rw [hidl, hidle₃, hz.idle]
    have := h.tasks.idle
    grind
  · rw [hcur, hcur₃] at hne'
    rw [switchDirectory_get, hget₃ t (hmem' t ht), if_neg fun e => hne' e.1,
      hz.get t (hmem' t ht) _ (by simp), hidl, hidle₃, hz.idle]
    exact h.tasks.ready t (by grind) (by grind)
  · rw [hcur, hcur₃]
  · rw [switchDirectory_get, hget₃ n (hmem n hn), if_pos ⟨rfl, rfl⟩]
  · rw [switchDirectory_get, hget₃ t (hmem' t ht), if_neg fun e => hne' e.1,
      hz.get t (hmem' t ht) _ (by simp), if_neg (by grind)]
  · rw [switchDirectory_get, hother₃ t (hmem' t ht) f h2 h1]
  · rw [hidl, hidle₃, hz.idle]
  · rw [switchDirectory_vmm]
    exact (hz.tables.trans hcore₃.2).setDirectory _
  · rw [switchDirectory_get] at hpd ⊢
    rw [switchDirectory_vmm]
    exact if_neg hpd
  · rw [hesp, hesp₃, hz.esp0]
  · rw [switchDirectory_get, hother₃ t ht f h1 h2]

/-! ## The call -/

theorem findCurrent_mono {fuel fuel' : Nat} (hle : fuel ≤ fuel') {prev : UInt32}
    {x : UInt32 × UInt32} (h : s.findCurrent fuel prev t = some x) :
    s.findCurrent fuel' prev t = some x := by
  induction fuel generalizing fuel' prev t with
  | zero => cases h
  | succ fuel ih =>
    obtain ⟨fuel', rfl⟩ : ∃ n, fuel' = n + 1 := ⟨fuel' - 1, by omega⟩
    unfold Sched.findCurrent at h ⊢
    split
    · next hc =>
      rw [if_pos hc] at h
      exact h
    · next hc =>
      rw [if_neg hc] at h
      exact ih (by omega) h

theorem reapZombies_mono {fuel fuel' : Nat} (hle : fuel ≤ fuel')
    {x : List (UInt32 × List UInt32) × Sched} (h : Sched.reapZombies fuel s = some x) :
    Sched.reapZombies fuel' s = some x := by
  induction fuel generalizing fuel' s x with
  | zero =>
    unfold Sched.reapZombies at h
    split at h
    · next h0 =>
      cases fuel' with
      | zero =>
        unfold Sched.reapZombies
        rw [if_pos h0]
        exact h
      | succ n =>
        unfold Sched.reapZombies
        rw [if_pos h0]
        exact h
    · cases h
  | succ fuel ih =>
    obtain ⟨fuel', rfl⟩ : ∃ n, fuel' = n + 1 := ⟨fuel' - 1, by omega⟩
    unfold Sched.reapZombies at h ⊢
    split
    · next h0 =>
      rw [if_pos h0] at h
      exact h
    · next h0 =>
      rw [if_neg h0] at h
      simp only [Option.map_eq_some_iff] at h ⊢
      obtain ⟨y, hy, rfl⟩ := h
      exact ⟨y, ih (by omega) hy, rfl⟩

/-- More fuel gives the same result. -/
theorem schedule_mono {fuel fuel' : Nat} (hle : fuel ≤ fuel') {sp : UInt32} {x : Sched.Scheduled}
    (h : s.schedule fuel sp = some x) : s.schedule fuel' sp = some x := by
  unfold Sched.schedule at h ⊢
  split
  · next hc =>
    rw [if_pos hc] at h
    exact h
  · next hc =>
    rw [if_neg hc] at h
    split
    · next ht =>
      rw [if_pos ht] at h
      unfold Sched.scheduleTerminated Sched.unlinkCurrent at h ⊢
      rw [Option.bind_map, Option.bind_eq_some_iff] at h ⊢
      obtain ⟨y, hy, h⟩ := h
      exact ⟨y, findCurrent_mono hle hy, h⟩
    · next ht =>
      rw [if_neg ht] at h
      split
      · next hn =>
        rw [hn] at h
        exact h
      · next n hn =>
        rw [hn] at h
        unfold Sched.switchTo at h ⊢
        rw [Option.map_eq_some_iff] at h ⊢
        obtain ⟨y, hy, h⟩ := h
        exact ⟨y, reapZombies_mono hle hy, h⟩

/-- The task that runs, or is about to leave. -/
def Sched.Active (s : Sched) : Prop :=
  s.get s.currentTask .state = TaskState.running.code ∨
    s.get s.currentTask .state = TaskState.terminated.code ∧ s.currentTask ≠ s.idleTask

theorem SchedInv.current_ne_zero (h : SchedInv s L ts zs xs) : s.currentTask ≠ 0 :=
  (h.fresh (List.mem_append_left _ h.tasks.current)).ne_zero

theorem SchedInv.schedule_exit {l r : List UInt32}
    (h : SchedInv s L (l ++ s.currentTask :: r) zs xs)
    (hs : s.get s.currentTask .state = TaskState.terminated.code)
    (hidle : s.currentTask ≠ s.idleTask) {fuel : Nat} (hfuel : l.length < fuel) (sp : UInt32) :
    ∃ s', s.schedule fuel sp = some ⟨[], true, s'⟩ ∧
      SchedInv s' L (l ++ r) (s.currentTask :: zs) xs ∧
      Switched (dirs L) s s' (l ++ r) (s.firstReady (r ++ l)) ∧ s'.esp0 = s.esp0 ∧
      ∀ t ∈ (l ++ s.currentTask :: r) ++ zs, ∀ f, f ≠ .next → f ≠ .state →
        s'.get t f = s.get t f := by
  unfold Sched.schedule
  rw [if_neg h.current_ne_zero, if_pos (by rw [Sched.hasState, hs]; simp)]
  exact h.scheduleTerminated hidle hfuel

theorem not_terminated (hs : s.get t .state = TaskState.running.code) :
    s.hasState t .terminated = false := by
  rw [Sched.hasState, hs]
  decide

theorem SchedInv.schedule_stay (h : SchedInv s L ts zs xs)
    (hs : s.get s.currentTask .state = TaskState.running.code) (hn : s.findNext = none) (fuel : Nat)
    (sp : UInt32) : s.schedule fuel sp = some ⟨[], false, s⟩ := by
  unfold Sched.schedule
  rw [if_neg h.current_ne_zero, if_neg (by simp [not_terminated hs]), hn]

theorem SchedInv.schedule_switch (h : SchedInv s L ts zs xs)
    (hs : s.get s.currentTask .state = TaskState.running.code) {next : UInt32}
    (hn : s.findNext = some next) (hr : ∀ z ∈ zs, s.Reapable z) {fuel : Nat}
    (hfuel : zs.length ≤ fuel) (sp : UInt32) :
    ∃ log s' ys, s.schedule fuel sp = some ⟨log, true, s'⟩ ∧ Reaped s L zs log ∧
      SchedInv s' (L.filter fun o => o.pcb ∉ zs) ts [] ys ∧
      Switched (dirs (L.filter fun o => o.pcb ∉ zs)) s s' ts next ∧
      (s'.get next .kernelEsp0 ≠ 0 → s'.esp0 = s'.get next .kernelEsp0) ∧
      Vmm.GivesBack s.vmm.pmm.totalPages (log.flatMap Prod.snd) xs ys := by
  unfold Sched.schedule
  rw [if_neg h.current_ne_zero, if_neg (by simp [not_terminated hs]), hn]
  exact h.switchTo hr hfuel sp (h.tasks.findNext hn)

end

end HaoSys.Proc
