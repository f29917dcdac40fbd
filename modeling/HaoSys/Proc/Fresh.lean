import HaoSys.Proc.Contexts

/-!
# The first context of a task

`task_create` and `task_create_user` lay a frame on the new kernel stack, as pushes
would. A new task is parked, and what the first switch to it pops is its entry with
clear registers: a kernel task in ring 0 with an empty stack, a user task in ring 3
on the stack it was given, with interrupts on.
-/

namespace HaoSys.Proc

open HaoSys.Lib HaoSys.Mm

def Gprs.clear : Gprs := ⟨0, 0, 0, 0, 0, 0, 0⟩

/-- The first context of a kernel task, as `Sched.parked` gives it, and of a user task. -/
def firstContext (o : Owned) (entry stack : UInt32) : Cpu :=
  if o.dir.isSome then ⟨.clear, entry, 0x1B, 0x200, stack + 4096, 0x23⟩
  else ⟨.clear, entry, 0x08, 0, o.stack + 4096, 0x10⟩

/-- The task has its first context, on a frame that `Parked` allows. -/
structure Fresh (x : Sched) (o : Owned) (entry stack : UInt32) : Prop where
  parked : Parked x o
  context : x.parked o.pcb = firstContext o entry stack

section

variable {x x' : Sched} {L : List Owned} {xs ys : List UInt32} {o : Owned} {v : Vmm} {m m' : Mem}
  {k entry stack : UInt32}

theorem layWords_eq_pushWords {ws : List UInt32} {i : Nat} (h : ws.length ≤ i + 1) :
    Sched.layWords k (UInt32.ofNat i) ws m = (pushWords ws (slot k (i + 1), m)).2 := by
  induction ws generalizing i m with
  | nil => rfl
  | cons w ws ih =>
    unfold Sched.layWords pushWords
    rw [slot_succ_sub]
    cases ws with
    | nil => rfl
    | cons w' ws =>
      rw [List.length_cons, List.length_cons] at h
      obtain ⟨i, rfl⟩ : ∃ n, i = n + 1 := ⟨i - 1, by omega⟩
      have hpred : UInt32.ofNat (i + 1) - 1 = UInt32.ofNat i := by
        rw [UInt32.ofNat_add]
        exact UInt32.add_sub_cancel ..
      rw [hpred, ih (by rw [List.length_cons]; omega)]
      rfl

theorem Pushed.popFrame_user (h : Pushed k 1024 (Sched.userFrame entry stack) m m') :
    popFrame m' (slot k 1011) = ⟨.clear, entry, 0x1B, 0x200, stack + 4096, 0x23⟩ ∧ Trapped m' k := by
  have hframe : Sched.userFrame entry stack =
      [0x23, stack + 4096, 0x200, 0x1B, entry] ++ Gprs.clear.words 0 := rfl
  rw [hframe] at h
  have hgprs : popGprs m' (slot k 1011) = .clear := h.gprs (by simp)
  have heip : entryAt m' (slot k 1011) 8 = entry := h.above (p := 4) (by simp) rfl
  have hcs : entryAt m' (slot k 1011) 9 = 0x1B := h.above (p := 3) (by simp) rfl
  have hflags : entryAt m' (slot k 1011) 10 = 0x200 := h.above (p := 2) (by simp) rfl
  have hesp : entryAt m' (slot k 1011) 11 = stack + 4096 := h.above (p := 1) (by simp) rfl
  have hss : entryAt m' (slot k 1011) 12 = 0x23 := h.above (p := 0) (by simp) rfl
  have hring : (0x1B : UInt32) &&& 3 = 3 := by decide
  refine ⟨?_, ?_⟩
  · simp only [popFrame, hgprs, heip, hcs, hflags, hesp, hss, hring, if_true]
  · unfold Trapped
    rw [show stackWord m' k 1020 = 0x1B from (entryAt_slot m' k 1011 9).symm.trans hcs]
    exact hring

theorem Pushed.popSwitch_kernel (h : Pushed k 1024 (Sched.kernelFrame entry) m m') :
    popSwitch 0 m' (slot k 1014) = ⟨.clear, entry, 0x08, 0, k + 4096, 0x10⟩ := by
  have hframe : Sched.kernelFrame entry = [entry, 0] ++ Gprs.clear.words 0 := rfl
  rw [hframe] at h
  have hgprs : popGprs m' (slot k 1014) = .clear := h.gprs (by simp)
  have heip : entryAt m' (slot k 1014) 9 = entry := h.above (p := 0) (by simp) rfl
  have hebp : entryAt m' (slot k 1014) 8 = 0 := h.above (p := 1) (by simp) rfl
  have hesp : slot k 1014 + 40 = k + 4096 := slot_add k 1014 10
  simp only [popSwitch, hgprs, heip, hebp, hesp]
  rfl

/-- The frame of a new task is on its stack, and its stack pointer is at it. -/
theorem fillTask_frame (hpa : o.pcb.toNat % 4096 = 0) (hsa : o.stack.toNat % 4096 = 0)
    (hne : o.stack ≠ o.pcb) {frame : List UInt32} (hlen : frame.length ≤ 1024)
    (eip isUser pd : UInt32) :
    let s := Sched.fillTask { x with vmm := v.setMem (Sched.layWords o.stack 1023 frame v.mem) } o.pcb
      (o.stack + 4096 - 4 * UInt32.ofNat frame.length) eip (o.stack + 4096) isUser pd
    Pushed o.stack 1024 frame v.mem (Sched.layWords o.stack 1023 frame v.mem) ∧
      (∀ j, j < 1024 → stackWord s.vmm.mem o.stack j =
        stackWord (Sched.layWords o.stack 1023 frame v.mem) o.stack j) ∧
      s.get o.pcb .esp = slot o.stack (1024 - frame.length) := by
  intro s
  obtain ⟨m', hpush, hp⟩ := pushWords_slot (m := v.mem) hsa hlen (Nat.le_refl 1024)
  have hlay : Sched.layWords o.stack 1023 frame v.mem = m' := by
    have h := layWords_eq_pushWords (k := o.stack) (m := v.mem) (i := 1023) hlen
    rw [hpush] at h
    exact h
  obtain ⟨m₂, hvmm, hm₂⟩ := fillTask_vmm
    { x with vmm := v.setMem (Sched.layWords o.stack 1023 frame v.mem) } hpa
    (o.stack + 4096 - 4 * UInt32.ofNat frame.length) eip (o.stack + 4096) isUser pd
  refine ⟨hlay ▸ hp, fun j hj => ?_, ?_⟩
  · change entryAt s.vmm.mem o.stack _ = _
    have hmem : s.vmm.mem = m₂ := congrArg Vmm.mem hvmm
    rw [hmem]
    exact entryAt_of_off hpa hsa hne (ofNat_lt hj) hm₂
  · refine (fillTask_get _ hpa _ _ _ _ _ .esp).trans ?_
    have hsub : slot o.stack (1024 - frame.length) + 4 * UInt32.ofNat frame.length =
        o.stack + 4096 := by
      rw [slot_add, Nat.sub_add_cancel hlen]
      rfl
    rw [← hsub]
    exact UInt32.add_sub_cancel ..

/-! ## The calls -/

theorem taskCreate_eq (hne : (x.taskCreate entry).1 ≠ 0) : ∃ (v : Vmm) (kstack pd : UInt32),
    (x.taskCreate entry).2 = Sched.fillTask
      { x with vmm := v.setMem (Sched.layWords kstack 1023 (Sched.kernelFrame entry) v.mem) }
      (x.taskCreate entry).1
      (kstack + 4096 - 4 * UInt32.ofNat (Sched.kernelFrame entry).length) entry (kstack + 4096) 0
      pd := by
  unfold Sched.taskCreate at hne ⊢
  split at hne
  · exact absurd rfl hne
  · next h0 =>
    rw [if_neg h0]
    generalize x.vmm.allocatePt = a at hne ⊢
    obtain ⟨task, w⟩ := a
    simp only at hne ⊢
    split at hne
    · exact absurd rfl hne
    · next ht =>
      rw [if_neg ht]
      generalize w.pmm.pmmAllocPage = b at hne ⊢
      obtain ⟨kstack, pmm⟩ := b
      simp only at hne ⊢
      split at hne
      · exact absurd rfl hne
      · next hs =>
        rw [if_neg hs]
        exact ⟨_, kstack, _, rfl⟩

theorem taskCreateUser_eq (hne : (x.taskCreateUser entry stack).1 ≠ 0) : ∃ (v : Vmm) (kstack pd : UInt32),
    (x.taskCreateUser entry stack).2 = Sched.fillTask
      { x with vmm := v.setMem (Sched.layWords kstack 1023 (Sched.userFrame entry stack) v.mem) }
      (x.taskCreateUser entry stack).1
      (kstack + 4096 - 4 * UInt32.ofNat (Sched.userFrame entry stack).length) entry (kstack + 4096)
      1 pd := by
  unfold Sched.taskCreateUser at hne ⊢
  split at hne
  · exact absurd rfl hne
  · next h0 =>
    rw [if_neg h0]
    generalize x.vmm.allocatePt = a at hne ⊢
    obtain ⟨task, w⟩ := a
    simp only at hne ⊢
    split at hne
    · exact absurd rfl hne
    · next ht =>
      rw [if_neg ht]
      generalize w.pmm.pmmAllocPage = b at hne ⊢
      obtain ⟨kstack, pmm⟩ := b
      simp only at hne ⊢
      split at hne
      · exact absurd rfl hne
      · next hs =>
        rw [if_neg hs]
        generalize Vmm.vmmCreateDirectory _ = c at hne ⊢
        obtain ⟨d, w'⟩ := c
        simp only at hne ⊢
        split at hne
        · exact absurd rfl hne
        · next hd =>
          rw [if_neg hd]
          exact ⟨_, kstack, _, rfl⟩

/-- The stack of an entry is the one the frame was laid on. -/
theorem Created.stack_eq {kstack isUser pd : UInt32} {frame : List UInt32} {eip : UInt32}
    (h : Created x L xs o x' ys)
    (heq : x' = Sched.fillTask { x with vmm := v.setMem (Sched.layWords kstack 1023 frame v.mem) }
      o.pcb (kstack + 4096 - 4 * UInt32.ofNat frame.length) eip (kstack + 4096) isUser pd) :
    kstack = o.stack := by
  have hesp0 : x'.get o.pcb .kernelEsp0 = kstack + 4096 := by
    rw [heq]
    exact fillTask_get _ (h.core.pcb List.mem_cons_self).inUse.aligned _ _ _ _ _ .kernelEsp0
  have hsum := hesp0.symm.trans h.esp0
  rw [← UInt32.add_sub_cancel (a := kstack) (b := 4096), hsum, UInt32.add_sub_cancel]

theorem Created.stack_ne (h : Created x L xs o x' ys) : o.stack ≠ o.pcb := fun e => by
  have hnd := (List.nodup_flatMap.1 h.core.heldNodup).1 o List.mem_cons_self
  exact (List.nodup_cons.1 hnd).1 (e ▸ List.mem_cons_self)

/-- A new kernel task. -/
theorem Created.fresh (h : Created x L xs o (x.taskCreate entry).2 ys)
    (hr : (x.taskCreate entry).1 = o.pcb) (hd : o.dir = none) (stack : UInt32) :
    Fresh (x.taskCreate entry).2 o entry stack := by
  have hpcb := h.core.pcb List.mem_cons_self
  obtain ⟨v, kstack, pd, heq⟩ := taskCreate_eq (hr ▸ hpcb.ne_zero)
  rw [hr] at heq
  obtain rfl := h.stack_eq heq
  obtain ⟨hpush, hstack, hesp⟩ := fillTask_frame (x := x) (v := v) hpcb.inUse.aligned
    (h.core.stack List.mem_cons_self).inUse.aligned h.stack_ne
    (show (Sched.kernelFrame entry).length ≤ 1024 by simp [Sched.kernelFrame]) entry 0 pd
  rw [← heq] at hstack hesp
  have hslot : (x.taskCreate entry).2.get o.pcb .esp = slot o.stack 1014 := hesp
  refine ⟨⟨fun hsome => ?_, fun _ => ⟨1014, hslot, Nat.le_refl _⟩⟩, ?_⟩
  · rw [hd] at hsome
    cases hsome
  · have huser : (x.taskCreate entry).2.isUserTask o.pcb = false := by
      rw [Sched.isUserTask, h.user, hd]
      simp
    have hpop : popSwitch 0 (x.taskCreate entry).2.vmm.mem (slot o.stack 1014) = _ :=
      (popSwitch_congr (fun n hn => hstack (1014 + n) (by omega)) 0).trans hpush.popSwitch_kernel
    unfold Sched.parked firstContext
    rw [huser, hslot, hd]
    exact hpop

/-- A new user task. -/
theorem Created.fresh_user (h : Created x L xs o (x.taskCreateUser entry stack).2 ys)
    (hr : (x.taskCreateUser entry stack).1 = o.pcb) (hd : o.dir.isSome = true) :
    Fresh (x.taskCreateUser entry stack).2 o entry stack := by
  have hpcb := h.core.pcb List.mem_cons_self
  obtain ⟨v, kstack, pd, heq⟩ := taskCreateUser_eq (hr ▸ hpcb.ne_zero)
  rw [hr] at heq
  obtain rfl := h.stack_eq heq
  obtain ⟨hpush, hstack, hesp⟩ := fillTask_frame (x := x) (v := v) hpcb.inUse.aligned
    (h.core.stack List.mem_cons_self).inUse.aligned h.stack_ne
    (show (Sched.userFrame entry stack).length ≤ 1024 by simp [Sched.userFrame]) entry 1 pd
  rw [← heq] at hstack hesp
  have hslot : (x.taskCreateUser entry stack).2.get o.pcb .esp = slot o.stack 1011 := hesp
  obtain ⟨hpop, htrap⟩ := hpush.popFrame_user
  refine ⟨⟨fun _ => ⟨?_, .program hslot⟩, fun hno => ?_⟩, ?_⟩
  · unfold Trapped at htrap ⊢
    rw [hstack 1020 (by omega)]
    exact htrap
  · rw [hno] at hd
    cases hd
  · have huser : (x.taskCreateUser entry stack).2.isUserTask o.pcb = true := by
      rw [Sched.isUserTask, h.user, if_pos hd]
      simp
    have hpop' : popFrame (x.taskCreateUser entry stack).2.vmm.mem (slot o.stack 1011) = _ :=
      (popFrame_congr (fun n hn => hstack (1011 + n) (by omega))
        fun _ n hn => hstack (1011 + n) (by omega)).trans hpop
    unfold Sched.parked firstContext
    rw [huser, hslot, if_pos hd]
    exact hpop'

end

end HaoSys.Proc
