import HaoSys.Proc.Cpu

/-!
# Frames on a kernel stack

A kernel stack is a page, and its words are numbered from the bottom: `slot k i`
is the address of word `i` of the stack `k`, and 1024 is an empty stack. A push
goes one slot down. What the stubs and `switch_to` push is what they pop
(`Entered.frame`, `popSwitch_pushSwitch`), and the words above stay.
-/

namespace HaoSys.Proc

open HaoSys.Mm

def slot (k : UInt32) (i : Nat) : UInt32 := k + 4 * UInt32.ofNat i

def stackWord (m : Mem) (k : UInt32) (i : Nat) : UInt32 := entryAt m k (UInt32.ofNat i)

section Slots

variable {m m' : Mem} {k sp x : UInt32} {i j b : Nat} {ws : List UInt32}

theorem slot_add (k : UInt32) (i j : Nat) : slot k i + 4 * UInt32.ofNat j = slot k (i + j) := by
  unfold slot
  rw [UInt32.ofNat_add, UInt32.mul_add, UInt32.add_assoc]

theorem slot_succ_sub (k : UInt32) (i : Nat) : slot k (i + 1) - 4 = slot k i := by
  have h := slot_add k i 1
  rw [← h]
  exact UInt32.add_sub_cancel ..

theorem entryAt_slot (m : Mem) (k : UInt32) (i j : Nat) :
    entryAt m (slot k i) (UInt32.ofNat j) = stackWord m k (i + j) := by
  unfold entryAt stackWord
  rw [slot_add]
  rfl

theorem ofNat_lt (hi : i < 1024) : (UInt32.ofNat i).toNat < 1024 := by
  rw [UInt32.toNat_ofNat']
  omega

theorem ofNat_ne (hi : i < 1024) (hj : j < 1024) (hne : i ≠ j) : UInt32.ofNat i ≠ UInt32.ofNat j := by
  intro e
  have h := congrArg UInt32.toNat e
  rw [UInt32.toNat_ofNat', UInt32.toNat_ofNat'] at h
  omega

theorem slot_toNat_le (hk : k.toNat % 4096 = 0) (hend : k + 4096 ≠ 0) (hi : i ≤ 1024) :
    (slot k i).toNat = k.toNat + 4 * i := by
  have hlt := k.toNat_lt
  have hsum : k.toNat + 4096 < 2 ^ 32 := by
    by_contra h
    refine hend (UInt32.toNat_inj.1 ?_)
    rw [UInt32.toNat_add, UInt32.toNat_zero]
    simp only [UInt32.reduceToNat]
    omega
  unfold slot
  rw [UInt32.toNat_add, UInt32.toNat_mul, UInt32.toNat_ofNat']
  simp only [UInt32.reduceToNat]
  omega

theorem slot_le (hk : k.toNat % 4096 = 0) (hend : k + 4096 ≠ 0) (hi : i ≤ 1024) (hj : j ≤ 1024) :
    slot k i ≤ slot k j ↔ i ≤ j := by
  rw [UInt32.le_iff_toNat_le, slot_toNat_le hk hend hi, slot_toNat_le hk hend hj]
  omega

theorem slot_inj (hk : k.toNat % 4096 = 0) (hend : k + 4096 ≠ 0) (hi : i ≤ 1024) (hj : j ≤ 1024)
    (h : slot k i = slot k j) : i = j := by
  have := congrArg UInt32.toNat h
  rw [slot_toNat_le hk hend hi, slot_toNat_le hk hend hj] at this
  omega

theorem stackWord_store (hk : k.toNat % 4096 = 0) (hi : i < 1024) (hj : j < 1024) :
    stackWord (store32 m (slot k i) x) k j = if j = i then x else stackWord m k j := by
  have h : stackWord (store32 m (slot k i) x) k j =
      entryAt (storeEntry m k (UInt32.ofNat i) x) k (UInt32.ofNat j) := rfl
  rw [h, entryAt_storeEntry hk hk (ofNat_lt hi) (ofNat_lt hj)]
  by_cases he : j = i
  · rw [if_pos ⟨rfl, by rw [he]⟩, if_pos he]
  · rw [if_neg fun e => ofNat_ne hj hi he e.2, if_neg he]
    rfl

/-! ## Pushing -/

/-- `ws` was pushed from slot `i` on. -/
structure Pushed (k : UInt32) (i : Nat) (ws : List UInt32) (m m' : Mem) : Prop where
  off : ∀ a, addrToIndex a ≠ addrToIndex k → m' a = m a
  word : ∀ n x, ws[n]? = some x → stackWord m' k (i - 1 - n) = x
  rest : ∀ j, j < 1024 → (j + ws.length < i ∨ i ≤ j) → stackWord m' k j = stackWord m k j

theorem pushWords_slot (hk : k.toNat % 4096 = 0) (hlen : ws.length ≤ i) (hi : i ≤ 1024) :
    ∃ m', pushWords ws (slot k i, m) = (slot k (i - ws.length), m') ∧ Pushed k i ws m m' := by
  induction ws generalizing i m with
  | nil =>
    refine ⟨m, rfl, fun _ _ => rfl, fun n x h => ?_, fun _ _ _ => rfl⟩
    rw [List.getElem?_nil] at h
    cases h
  | cons x ws ih =>
    obtain ⟨i, rfl⟩ : ∃ n, i = n + 1 := ⟨i - 1, by simp at hlen; omega⟩
    rw [List.length_cons] at hlen
    obtain ⟨m', hpush, hoff, hword, hrest⟩ :=
      ih (i := i) (m := store32 m (slot k i) x) (by omega) (by omega)
    refine ⟨m', ?_, fun a ha => ?_, fun n y hn => ?_, fun j hj hout => ?_⟩
    · unfold pushWords
      rw [slot_succ_sub, hpush, List.length_cons, Nat.add_sub_add_right]
    · rw [hoff a ha]
      exact storeEntry_apply hk (ofNat_lt (by omega)) ha
    · cases n with
      | zero =>
        cases hn
        rw [Nat.sub_zero, Nat.add_sub_cancel, hrest i (by omega) (.inr (Nat.le_refl i)),
          stackWord_store hk (by omega) (by omega), if_pos rfl]
      | succ n =>
        have h := hword n y hn
        rwa [show i + 1 - 1 - (n + 1) = i - 1 - n by omega]
    · rw [List.length_cons] at hout
      rw [hrest j hj (by omega), stackWord_store hk (by omega) hj, if_neg (by omega)]

theorem Pushed.append {m₁ m₂ : Mem} {vs : List UInt32} (h₁ : Pushed k i ws m m₁)
    (h₂ : Pushed k (i - ws.length) vs m₁ m₂) (hlen : ws.length + vs.length ≤ i) (hi : i ≤ 1024) :
    Pushed k i (ws ++ vs) m m₂ := by
  refine ⟨fun a ha => (h₂.off a ha).trans (h₁.off a ha), fun n x hn => ?_, fun j hj hout => ?_⟩
  · by_cases hlt : n < ws.length
    · rw [List.getElem?_append_left hlt] at hn
      rw [h₂.rest _ (by omega) (.inr (by omega)), h₁.word n x hn]
    · rw [List.getElem?_append_right (by omega)] at hn
      have hvs : n - ws.length < vs.length := (List.getElem?_eq_some_iff.1 hn).1
      have h := h₂.word _ x hn
      rwa [show i - ws.length - 1 - (n - ws.length) = i - 1 - n by omega] at h
  · rw [List.length_append] at hout
    rw [h₂.rest j hj (by omega), h₁.rest j hj (by omega)]

/-! ## Popping -/

theorem popGprs_congr (h : ∀ n, n < 8 → stackWord m' k (b + n) = stackWord m k (b + n)) :
    popGprs m' (slot k b) = popGprs m (slot k b) := by
  have hword : ∀ n, n < 8 →
      entryAt m' (slot k b) (UInt32.ofNat n) = entryAt m (slot k b) (UInt32.ofNat n) :=
    fun n hn => by rw [entryAt_slot, entryAt_slot, h n hn]
  unfold popGprs
  rw [Gprs.mk.injEq]
  exact ⟨hword 7 (by omega), hword 6 (by omega), hword 5 (by omega), hword 4 (by omega),
    hword 2 (by omega), hword 1 (by omega), hword 0 (by omega)⟩

/-- What the pops of a frame take: thirteen words if it goes back to a program, else eleven. -/
theorem popFrame_congr (h : ∀ n, n < 11 → stackWord m' k (b + n) = stackWord m k (b + n))
    (huser : stackWord m k (b + 9) &&& 3 = 3 →
      ∀ n, n < 13 → stackWord m' k (b + n) = stackWord m k (b + n)) :
    popFrame m' (slot k b) = popFrame m (slot k b) := by
  have hword : ∀ n, stackWord m' k (b + n) = stackWord m k (b + n) →
      entryAt m' (slot k b) (UInt32.ofNat n) = entryAt m (slot k b) (UInt32.ofNat n) :=
    fun n hn => by rw [entryAt_slot, entryAt_slot, hn]
  have heip : entryAt m' (slot k b) 8 = entryAt m (slot k b) 8 := hword 8 (h 8 (by omega))
  have hcs : entryAt m' (slot k b) 9 = entryAt m (slot k b) 9 := hword 9 (h 9 (by omega))
  have hflags : entryAt m' (slot k b) 10 = entryAt m (slot k b) 10 := hword 10 (h 10 (by omega))
  unfold popFrame
  rw [popGprs_congr fun n hn => h n (by omega), heip, hcs, hflags]
  by_cases hring : entryAt m (slot k b) 9 &&& 3 = 3
  · have hout : stackWord m k (b + 9) &&& 3 = 3 := by
      rw [← entryAt_slot]
      exact hring
    have hesp : entryAt m' (slot k b) 11 = entryAt m (slot k b) 11 :=
      hword 11 (huser hout 11 (by omega))
    have hss : entryAt m' (slot k b) 12 = entryAt m (slot k b) 12 :=
      hword 12 (huser hout 12 (by omega))
    rw [hesp, hss]
  · simp only [if_neg hring]

theorem popSwitch_congr (h : ∀ n, n < 10 → stackWord m' k (b + n) = stackWord m k (b + n))
    (flags : UInt32) : popSwitch flags m' (slot k b) = popSwitch flags m (slot k b) := by
  have hword : ∀ n, n < 10 →
      entryAt m' (slot k b) (UInt32.ofNat n) = entryAt m (slot k b) (UInt32.ofNat n) :=
    fun n hn => by rw [entryAt_slot, entryAt_slot, h n hn]
  have hebp : entryAt m' (slot k b) 8 = entryAt m (slot k b) 8 := hword 8 (by omega)
  have heip : entryAt m' (slot k b) 9 = entryAt m (slot k b) 9 := hword 9 (by omega)
  unfold popSwitch
  rw [popGprs_congr fun n hn => h n (by omega), hebp, heip]

/-- Words pushed in front of the registers. -/
theorem Pushed.above {g : Gprs} {e : UInt32} {p : Nat} (h : Pushed k i (ws ++ g.words e) m m')
    (hlen : ws.length + 8 ≤ i) (hp : ws[p]? = some x) :
    entryAt m' (slot k (i - (ws.length + 8))) (UInt32.ofNat (8 + (ws.length - 1 - p))) = x := by
  have hlt : p < ws.length := (List.getElem?_eq_some_iff.1 hp).1
  have hword := h.word p x (by rwa [List.getElem?_append_left hlt])
  rw [entryAt_slot, ← hword]
  congr 1
  omega

/-- The registers come back. -/
theorem Pushed.gprs {g : Gprs} {e : UInt32} (h : Pushed k i (ws ++ g.words e) m m')
    (hlen : ws.length + 8 ≤ i) : popGprs m' (slot k (i - (ws.length + 8))) = g := by
  have hword : ∀ n x, n < 8 → (g.words e)[7 - n]? = some x →
      entryAt m' (slot k (i - (ws.length + 8))) (UInt32.ofNat n) = x := by
    intro n x hn hx
    have hw := h.word (ws.length + (7 - n)) x (by
      rw [List.getElem?_append_right (by omega), Nat.add_sub_cancel_left]
      exact hx)
    rw [entryAt_slot, ← hw]
    congr 1
    omega
  unfold popGprs
  obtain ⟨eax, ecx, edx, ebx, ebp, esi, edi⟩ := g
  rw [Gprs.mk.injEq]
  exact ⟨hword 7 _ (by omega) rfl, hword 6 _ (by omega) rfl, hword 5 _ (by omega) rfl,
    hword 4 _ (by omega) rfl, hword 2 _ (by omega) rfl, hword 1 _ (by omega) rfl,
    hword 0 _ (by omega) rfl⟩

end Slots

/-! ## The stubs -/

section Stubs

variable {s : Machine} {m m' : Mem} {k : UInt32} {i top b : Nat}

/-- A stub at slot `b`, with the stack in use from slot `top` on before: the frame is there, and
nothing else of the memory has changed. -/
structure Entered (s : Machine) (k : UInt32) (top b : Nat) (m : Mem) : Prop where
  eq : s.enterKernel =
    ⟨Sched.set { s.sched with vmm := s.sched.vmm.setMem m } s.sched.currentTask .esp (slot k b),
      { s.cpu.cli with cs := 0x08, esp := slot k b, ss := 0x10 }⟩
  off : ∀ a, addrToIndex a ≠ addrToIndex k → m a = s.mem a
  frame : popFrame m (slot k b) = s.cpu
  cs : stackWord m k (b + 9) = s.cpu.cs
  rest : ∀ j, j < 1024 → (j < b ∨ top ≤ j) → stackWord m k j = stackWord s.mem k j

theorem enterKernel_pushes (hk : k.toNat % 4096 = 0) (hcur : s.sched.currentTask ≠ 0)
    (hsp : (if s.cpu.ring3 then s.sched.esp0 else s.cpu.esp) = slot k i)
    (hlen : s.cpu.frame.length + 8 ≤ i) (hi : i ≤ 1024) :
    ∃ m e, Pushed k i (s.cpu.frame ++ s.cpu.gprs.words e) s.mem m ∧
      s.enterKernel =
        ⟨Sched.set { s.sched with vmm := s.sched.vmm.setMem m } s.sched.currentTask .esp
          (slot k (i - (s.cpu.frame.length + 8))),
          { s.cpu.cli with cs := 0x08, esp := slot k (i - (s.cpu.frame.length + 8)), ss := 0x10 }⟩ := by
  obtain ⟨m₁, hpush₁, h₁⟩ := pushWords_slot (m := s.mem) hk
    (show s.cpu.frame.length ≤ i by omega) hi
  have hwords : ∀ e, (s.cpu.gprs.words e).length = 8 := fun _ => rfl
  obtain ⟨m₂, hpush₂, h₂⟩ := pushWords_slot (m := m₁) hk
    (show (s.cpu.gprs.words (slot k (i - s.cpu.frame.length))).length ≤ i - s.cpu.frame.length by
      rw [hwords]
      omega) (by omega)
  refine ⟨m₂, _, h₁.append h₂ (by rw [hwords]; omega) hi, ?_⟩
  unfold Machine.enterKernel
  simp only [hsp, hpush₁, hpush₂, hwords, Nat.sub_sub]
  have hne : (s.setMem m₂).sched.currentTask ≠ 0 := hcur
  rw [if_neg hne]
  rfl

/-- An interrupt of a user program: the frame is at the top of the task's stack. -/
theorem enterKernel_ring3 (hk : k.toNat % 4096 = 0) (hcur : s.sched.currentTask ≠ 0)
    (hring : s.cpu.ring3 = true) (hesp0 : s.sched.esp0 = slot k 1024) :
    ∃ m, Entered s k 1024 1011 m := by
  have hframe : s.cpu.frame = [s.cpu.ss, s.cpu.esp, s.cpu.eflags, s.cpu.cs, s.cpu.eip] := by
    rw [Cpu.frame, if_pos hring]
  obtain ⟨m, e, hpush, heq⟩ := enterKernel_pushes (i := 1024) hk hcur (by rw [if_pos hring, hesp0])
    (by rw [hframe]; simp) (Nat.le_refl _)
  rw [hframe] at hpush heq
  have hcs : entryAt m (slot k 1011) 9 = s.cpu.cs := hpush.above (p := 3) (by simp) rfl
  have hring' : s.cpu.cs &&& 3 = 3 := of_decide_eq_true hring
  refine ⟨m, heq, hpush.off, ?_, ?_, fun j hj hout => hpush.rest j hj ?_⟩
  · have heip : entryAt m (slot k 1011) 8 = s.cpu.eip := hpush.above (p := 4) (by simp) rfl
    have hflags : entryAt m (slot k 1011) 10 = s.cpu.eflags :=
      hpush.above (p := 2) (by simp) rfl
    have hesp : entryAt m (slot k 1011) 11 = s.cpu.esp := hpush.above (p := 1) (by simp) rfl
    have hss : entryAt m (slot k 1011) 12 = s.cpu.ss := hpush.above (p := 0) (by simp) rfl
    have hgprs : popGprs m (slot k 1011) = s.cpu.gprs := hpush.gprs (by simp)
    simp only [popFrame, hgprs, heip, hcs, hflags, hesp, hss, hring', if_true]
  · rw [← hcs]
    exact (entryAt_slot m k 1011 9).symm
  · change j + 13 < 1024 ∨ 1024 ≤ j
    omega

/-- An interrupt of the kernel: three words and the registers below them. -/
theorem enterKernel_ring0 (hk : k.toNat % 4096 = 0) (hcur : s.sched.currentTask ≠ 0)
    (hcs : s.cpu.cs = 0x08) (hss : s.cpu.ss = 0x10) (hlow : 11 ≤ i) (hi : i ≤ 1024)
    (hesp : s.cpu.esp = slot k i) : ∃ m, Entered s k i (i - 11) m := by
  have hring : s.cpu.ring3 = false := by
    unfold Cpu.ring3
    rw [hcs]
    decide
  have hframe : s.cpu.frame = [s.cpu.eflags, s.cpu.cs, s.cpu.eip] := by
    rw [Cpu.frame, hring]
    rfl
  obtain ⟨m, e, hpush, heq⟩ := enterKernel_pushes (i := i) hk hcur
    (by rw [hring]; exact hesp) (by rw [hframe]; exact hlow) hi
  rw [hframe] at hpush heq
  have hcs' : entryAt m (slot k (i - 11)) 9 = s.cpu.cs := hpush.above (p := 1) hlow rfl
  refine ⟨m, heq, hpush.off, ?_, ?_, fun j hj hout => hpush.rest j hj ?_⟩
  · have heip : entryAt m (slot k (i - 11)) 8 = s.cpu.eip := hpush.above (p := 2) hlow rfl
    have hflags : entryAt m (slot k (i - 11)) 10 = s.cpu.eflags :=
      hpush.above (p := 0) hlow rfl
    have hgprs : popGprs m (slot k (i - 11)) = s.cpu.gprs := hpush.gprs hlow
    have hout : ¬ s.cpu.cs &&& 3 = 3 := of_decide_eq_false hring
    have hback : slot k (i - 11) + 44 = s.cpu.esp := by
      rw [hesp]
      have h := slot_add k (i - 11) 11
      rwa [Nat.sub_add_cancel hlow] at h
    simp only [popFrame, hgprs, heip, hcs', hflags, hout, if_false, hback, ← hss]
  · rw [← hcs']
    exact (entryAt_slot m k (i - 11) 9).symm
  · change j + 11 < i ∨ i ≤ j
    omega

/-- What `switch_to` pops is what its call pushed. -/
theorem popSwitch_pushSwitch {c : Cpu} (hk : k.toNat % 4096 = 0) (hcs : c.cs = 0x08)
    (hss : c.ss = 0x10) (hlow : 10 ≤ i) (hi : i ≤ 1024) (hesp : c.esp = slot k i) (m : Mem) :
    (pushSwitch c m).1 = slot k (i - 10) ∧
      (∀ a, addrToIndex a ≠ addrToIndex k → (pushSwitch c m).2 a = m a) ∧
      (∀ j, j < 1024 → (j < i - 10 ∨ i ≤ j) →
        stackWord (pushSwitch c m).2 k j = stackWord m k j) ∧
      ∀ flags, popSwitch flags (pushSwitch c m).2 (slot k (i - 10)) = { c with eflags := flags } := by
  obtain ⟨m₁, hpush₁, h₁⟩ := pushWords_slot (m := m) hk
    (show [c.eip, c.gprs.ebp].length ≤ i by simp; omega) hi
  have hlen : ∀ g : Gprs, ∀ e, (g.words e).length = 8 := fun _ _ => rfl
  obtain ⟨m₂, hpush₂, h₂⟩ := pushWords_slot (m := m₁) hk
    (show ({ c.gprs with ebp := slot k (i - 2) }.words (slot k (i - 2))).length ≤ i - 2 by
      rw [hlen]
      omega) (by omega)
  have heq : pushSwitch c m = (slot k (i - 10), m₂) := by
    unfold pushSwitch
    rw [hesp, hpush₁]
    simp only [List.length_cons, List.length_nil, Nat.zero_add, Nat.reduceAdd]
    rw [hpush₂, hlen, Nat.sub_sub]
  have hpush := h₁.append h₂ (by rw [hlen]; simp; omega) hi
  rw [heq]
  refine ⟨rfl, hpush.off, fun j hj hout => hpush.rest j hj ?_, fun flags => ?_⟩
  · rw [List.length_append, hlen]
    simp only [List.length_cons, List.length_nil]
    omega
  · have hgprs := hpush.gprs hlow
    have hebp : entryAt m₂ (slot k (i - 10)) 8 = c.gprs.ebp := hpush.above (p := 1) hlow rfl
    have heip : entryAt m₂ (slot k (i - 10)) 9 = c.eip := hpush.above (p := 0) hlow rfl
    have hback : slot k (i - 10) + 40 = c.esp := by
      rw [hesp]
      have h := slot_add k (i - 10) 10
      rwa [Nat.sub_add_cancel hlow] at h
    unfold popSwitch
    rw [show popGprs m₂ (slot k (i - 10)) = _ from hgprs, hebp, heip, hback, ← hcs, ← hss]

end Stubs

end HaoSys.Proc
