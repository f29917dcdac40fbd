import HaoSys.Irq.Pic

/-!
# Interrupts taken and finished

The CPU takes an interrupt in two acknowledge cycles, and the handler of
`isr_asm.asm` ends it with `pic_send_eoi`. A device may withdraw its request
before a cycle; then the chip answers with its line 7 and puts nothing into
service. The handlers of IRQ7 and IRQ15 look for that. For IRQ15 they leave out
the end of interrupt at the master, which has its line 2 in service all the
same: after one such interrupt the master is never idle again
(`idle_iff_no_spurious`, `after_spurious`).

Inside the acknowledge cycles lines are only withdrawn. A line that changes
while a handler runs is an event behind the interrupt: it changes requests, and
a handler looks at the lines in service only.
-/

namespace HaoSys.Irq

/-! ## Taking an interrupt -/

/-- The devices withdraw their requests. -/
def Pics.withdraw (p : Pics) (irqs : List Nat) : Pics :=
  irqs.foldl (fun p irq => p.setLine irq false) p

/-- The acknowledge cycles, with requests withdrawn before the first and before the second one; the
vector comes from the chip of the line. -/
def Pics.acknowledge (early late : List Nat) (p : Pics) : BitVec 8 × Pics :=
  let p := p.withdraw early
  match p.wired.next with
  | none => (p.master.base + 7, p)
  | some i =>
    let p := { p with master := p.master.ack i }
    if i = 2 then
      let p := p.withdraw late
      match p.slave.next with
      | none => (p.slave.base + 7, p)
      | some j => (p.slave.base + BitVec.ofNat 8 j, { p with slave := p.slave.ack j })
    else (p.master.base + BitVec.ofNat 8 i, p)

/-- `irq0_handler` to `irq15_handler`. The handlers of IRQ0, IRQ1 and IRQ12 send the end of
interrupt in C, `pit_tick_handler` before it calls `schedule`. -/
def irqHandler (n : Nat) (p : Pics) : Pics :=
  if n = 7 ∨ n = 15 then
    let (inService, p) := picIsInService n p
    if inService then picSendEoi n p else p
  else picSendEoi n p

/-- An interrupt that was taken: its number, and whether its line was in service then. -/
structure Taken where
  irq : Nat
  real : Bool
  deriving DecidableEq

/-- The CPU takes an interrupt, if there is a request, and runs its handler. The gates of IRQ0 to
IRQ15 are at 0x20. -/
def Pics.interrupt (early late : List Nat) (p : Pics) : Option Taken × Pics :=
  match p.wired.next with
  | none => (none, p)
  | some _ =>
    let (v, p) := p.acknowledge early late
    let n := (v - 0x20).toNat
    (some ⟨n, (p.chip n).isr.getLsbD (n % 8)⟩, irqHandler n p)

/-! ## Runs -/

/-- What may happen while interrupts are enabled. -/
inductive Event where
  | setLine (irq : Nat) (b : Bool)
  | mask (irq : Nat) (b : Bool)
  | interrupt (early late : List Nat)

def Event.step : Event → Pics → Option Taken × Pics
  | setLine irq b, p => (none, p.setLine irq b)
  | mask irq b, p => (none, picMaskIrq irq b p)
  | interrupt early late, p => p.interrupt early late

/-- The interrupts taken, and the controllers in the end. -/
def runEvents : List Event → Pics → List Taken × Pics
  | [], p => ([], p)
  | e :: es, p =>
    let (t, p) := e.step p
    let (ts, p) := runEvents es p
    (t.toList ++ ts, p)

/-! ## Chips that differ in their requests -/

/-- The same but for the requests and the register that is read. -/
structure Chip.Like (c c' : Chip) : Prop where
  isr : c'.isr = c.isr
  imr : c'.imr = c.imr
  base : c'.base = c.base
  icw : c'.icw = c.icw

structure Pics.Like (p p' : Pics) : Prop where
  master : p.master.Like p'.master
  slave : p.slave.Like p'.slave

theorem Chip.Like.refl (c : Chip) : c.Like c := ⟨rfl, rfl, rfl, rfl⟩

theorem Pics.Like.trans {p q r : Pics} (h : p.Like q) (h' : q.Like r) : p.Like r :=
  ⟨⟨h'.master.isr.trans h.master.isr, h'.master.imr.trans h.master.imr,
      h'.master.base.trans h.master.base, h'.master.icw.trans h.master.icw⟩,
    ⟨h'.slave.isr.trans h.slave.isr, h'.slave.imr.trans h.slave.imr,
      h'.slave.base.trans h.slave.base, h'.slave.icw.trans h.slave.icw⟩⟩

theorem Pics.like_onChip (p : Pics) (irq : Nat) {f : Chip → Chip} (hf : ∀ c : Chip, c.Like (f c)) :
    p.Like (p.onChip irq f) := by
  unfold Pics.onChip
  split
  · exact ⟨hf _, .refl _⟩
  · exact ⟨.refl _, hf _⟩

theorem Pics.like_setLine (p : Pics) (irq : Nat) (b : Bool) : p.Like (p.setLine irq b) :=
  p.like_onChip irq fun _ => ⟨rfl, rfl, rfl, rfl⟩

theorem Pics.like_withdraw (p : Pics) (irqs : List Nat) : p.Like (p.withdraw irqs) := by
  unfold withdraw
  induction irqs generalizing p with
  | nil => exact ⟨.refl _, .refl _⟩
  | cons irq irqs ih => exact (p.like_setLine irq false).trans (ih _)

theorem Pics.Like.ready {p q : Pics} (h : p.Like q) (hr : p.Ready) : q.Ready :=
  ⟨⟨h.master.base.trans hr.master.1, h.master.icw.trans hr.master.2⟩,
    ⟨h.slave.base.trans hr.slave.1, h.slave.icw.trans hr.slave.2⟩⟩

/-! ## The end of an interrupt -/

namespace Chip

theorem next_spec {c : Chip} {i : Nat} (h : c.next = some i) :
    i < 8 ∧ c.wants i = true ∧ ∀ j, j ≤ i → c.isr.getLsbD j = false := by
  unfold next at h
  split at h
  · cases h
  · next k hk =>
    obtain ⟨hor, as, bs, hsplit, hpre⟩ := List.find?_eq_some_iff_append.1 hk
    split at h
    · cases h
    · next hserved =>
      cases h
      have hlt : i < 8 := List.mem_range.1 (List.mem_of_find?_eq_some hk)
      refine ⟨hlt, ?_, fun j hj => ?_⟩
      · simpa [hserved] using hor
      · obtain rfl | hne := eq_or_ne j i
        · simpa using hserved
        · have hnone := List.find?_range_eq_some.1 hk |>.2.2 j (by omega)
          simp only [Bool.not_eq_true', Bool.or_eq_false_iff] at hnone
          exact hnone.1

theorem ack_isr (c : Chip) {i : Nat} (hi : i < 8) (j : Nat) :
    (c.ack i).isr.getLsbD j = if j = i then true else c.isr.getLsbD j :=
  getLsbD_putBit c.isr hi true j

/-- A line put into service and finished again leaves the lines behind it as they were. -/
theorem endOfInterrupt_ack {c : Chip} {i : Nat} (hi : i < 8)
    (hclear : ∀ j, j ≤ i → c.isr.getLsbD j = false) :
    (c.ack i).endOfInterrupt = { c with irr := putBit c.irr i false } := by
  have hfind : (List.range 8).find? (fun j => (c.ack i).isr.getLsbD j) = some i := by
    refine List.find?_range_eq_some.2 ⟨?_, List.mem_range.2 hi, fun j hj => ?_⟩
    · rw [ack_isr _ hi, if_pos rfl]
    · simp [ack_isr _ hi, hclear j (by omega), show j ≠ i by omega]
  have hisr : putBit (putBit c.isr i true) i false = c.isr := by
    refine BitVec.eq_of_getLsbD_eq fun j hj => ?_
    rw [getLsbD_putBit _ hi, getLsbD_putBit _ hi]
    split
    · next he => rw [he, hclear i (Nat.le_refl i)]
    · rfl
  unfold endOfInterrupt
  rw [hfind]
  simp only [ack, hisr]

end Chip

/-! ## One interrupt -/

namespace Pics

variable {p q r : Pics} {i j : Nat}

/-- The handler of a line of the master that is in service. -/
theorem irqHandler_master (hi : i < 8) (hclear : ∀ j, j ≤ i → q.master.isr.getLsbD j = false) :
    ∃ b, irqHandler i { q with master := q.master.ack i } =
      ⟨{ q.master with irr := putBit q.master.irr i false, readIsr := b }, q.slave⟩ := by
  have hend := Chip.endOfInterrupt_ack hi hclear
  unfold irqHandler
  by_cases h7 : i = 7 ∨ i = 15
  · obtain rfl : i = 7 := h7.resolve_right (by omega)
    have hserved : (q.master.ack 7).isr.getLsbD 7 = true := by
      rw [Chip.ack_isr _ hi, if_pos rfl]
    have hend' := Chip.endOfInterrupt_ack (c := { q.master with readIsr := true }) hi hclear
    simp only [true_or, if_true, picIsInService, onChip, chip, Chip.outCmd_readIsr, Chip.inCmd,
      if_pos hi, show 7 % 8 = 7 from rfl, hserved, picSendEoi, if_neg (show ¬ 7 ≥ 8 by omega),
      Chip.outCmd_eoi]
    exact ⟨true, congrArg (Pics.mk · q.slave) hend'⟩
  · rw [if_neg h7]
    simp only [picSendEoi, if_neg (show ¬ i ≥ 8 by omega), Chip.outCmd_eoi, hend]
    exact ⟨q.master.readIsr, rfl⟩

/-- The handler of a line of the slave, with line 2 of the master in service as well. -/
theorem irqHandler_slave (hj : j < 8) (hclear : ∀ k, k < 2 → r.master.isr.getLsbD k = false)
    (h2 : r.master.isr.getLsbD 2 = true) (hslave : ∀ k, k ≤ j → r.slave.isr.getLsbD k = false) :
    ∃ b, irqHandler (8 + j) { r with slave := r.slave.ack j } =
      ⟨{ r.master with isr := putBit r.master.isr 2 false },
        { r.slave with irr := putBit r.slave.irr j false, readIsr := b }⟩ := by
  have hend := Chip.endOfInterrupt_ack hj hslave
  have hmaster : r.master.endOfInterrupt = { r.master with isr := putBit r.master.isr 2 false } := by
    have hfind : (List.range 8).find? (fun k => r.master.isr.getLsbD k) = some 2 :=
      List.find?_range_eq_some.2 ⟨h2, by decide, fun k hk => by rw [hclear k hk]; rfl⟩
    unfold Chip.endOfInterrupt
    rw [hfind]
  unfold irqHandler
  by_cases h7 : 8 + j = 7 ∨ 8 + j = 15
  · obtain rfl : j = 7 := by omega
    have hserved : (r.slave.ack 7).isr.getLsbD 7 = true := by
      rw [Chip.ack_isr _ hj, if_pos rfl]
    have hend' := Chip.endOfInterrupt_ack (c := { r.slave with readIsr := true }) hj hslave
    simp only [show 8 + 7 = 15 from rfl, or_true, if_true, picIsInService, onChip, chip,
      Chip.outCmd_readIsr, Chip.inCmd, if_neg (show ¬ 15 < 8 by omega), show 15 % 8 = 7 from rfl,
      hserved, picSendEoi, if_pos (show 15 ≥ 8 by omega), Chip.outCmd_eoi, hmaster]
    exact ⟨true, congrArg (Pics.mk _ ·) hend'⟩
  · rw [if_neg h7]
    simp only [picSendEoi, if_pos (show 8 + j ≥ 8 by omega), Chip.outCmd_eoi, hend, hmaster]
    exact ⟨r.slave.readIsr, rfl⟩

/-- A line that was put into service and finished. -/
theorem putBit_done {v : BitVec 8} (hi : i < 8) (hclear : v.getLsbD i = false) :
    putBit (putBit v i true) i false = v := by
  refine BitVec.eq_of_getLsbD_eq fun k _ => ?_
  rw [getLsbD_putBit _ hi, getLsbD_putBit _ hi]
  split
  · next he => rw [he, hclear]
  · rfl

theorem like_irqHandler_master (hi : i < 8)
    (hclear : ∀ j, j ≤ i → q.master.isr.getLsbD j = false) :
    q.Like (irqHandler i { q with master := q.master.ack i }) := by
  obtain ⟨b, hrun⟩ := irqHandler_master hi hclear
  rw [hrun]
  exact ⟨⟨rfl, rfl, rfl, rfl⟩, .refl _⟩

theorem like_irqHandler_slave (hj : j < 8) (hmaster : ∀ k, k ≤ 2 → q.master.isr.getLsbD k = false)
    (hslave : ∀ k, k ≤ j → r.slave.isr.getLsbD k = false)
    (hlike : Pics.Like { q with master := q.master.ack 2 } r) :
    q.Like (irqHandler (8 + j) { r with slave := r.slave.ack j }) := by
  have hisr : ∀ k, r.master.isr.getLsbD k = if k = 2 then true else q.master.isr.getLsbD k := by
    intro k
    rw [hlike.master.isr]
    exact Chip.ack_isr _ (by decide) k
  obtain ⟨b, hrun⟩ := irqHandler_slave hj
    (fun k hk => by rw [hisr, if_neg (by omega), hmaster k (by omega)])
    (by rw [hisr, if_pos rfl]) hslave
  rw [hrun]
  refine ⟨⟨?_, hlike.master.imr, hlike.master.base, hlike.master.icw⟩,
    ⟨hlike.slave.isr, hlike.slave.imr, hlike.slave.base, hlike.slave.icw⟩⟩
  change putBit r.master.isr 2 false = q.master.isr
  rw [hlike.master.isr]
  exact putBit_done (by decide) (hmaster 2 (Nat.le_refl 2))

/-- The handlers of IRQ7 and IRQ15 leave the controllers alone if the line is not in service. -/
theorem irqHandler_spurious {n : Nat} (hn : n = 7 ∨ n = 15)
    (hclear : (p.chip n).isr.getLsbD 7 = false) : p.Like (irqHandler n p) := by
  have hmod : n % 8 = 7 := by omega
  have hlike := p.like_onChip n (f := fun c => c.outCmd 0x0B) fun _ => ⟨rfl, rfl, rfl, rfl⟩
  have hnot : (picIsInService n p).1 = false := by
    unfold chip at hclear
    simp only [picIsInService, hmod, chip, onChip, Chip.outCmd_readIsr, Chip.inCmd]
    split at hclear
    · next hlt => simpa only [if_pos hlt, if_true] using hclear
    · next hge => simpa only [if_neg hge, if_true] using hclear
  unfold irqHandler
  rw [if_pos hn]
  simp only [hnot]
  exact hlike

theorem vector_master : ∀ i < 8, ((0x20 : BitVec 8) + BitVec.ofNat 8 i - 0x20).toNat = i := by
  decide

theorem vector_slave : ∀ j < 8, ((0x28 : BitVec 8) + BitVec.ofNat 8 j - 0x20).toNat = 8 + j := by
  decide

/-- The interrupt taken leaves what was in service as it was. -/
def Served (p : Pics) (t : Option Taken) (p' : Pics) : Prop :=
  p.Like p' ∧ (t = none ∨ t = some ⟨7, false⟩ ∨ ∃ irq, t = some ⟨irq, true⟩ ∧ irq < 16 ∧
    ∀ k, k ≤ (if irq < 8 then irq else 2) → p.master.isr.getLsbD k = false)

/-- The slave had no request left: line 2 of the master stays in service. -/
def Stuck (p : Pics) (t : Option Taken) (p' : Pics) : Prop :=
  t = some ⟨15, false⟩ ∧ (∀ k, k ≤ 2 → p.master.isr.getLsbD k = false) ∧ p'.Ready ∧
    p'.master.isr = putBit p.master.isr 2 true ∧ p'.slave.isr = p.slave.isr

/-- **What one interrupt does.** -/
theorem interrupt_cases (hr : p.Ready) (h7 : p.master.isr.getLsbD 7 = false)
    (h15 : p.slave.isr.getLsbD 7 = false) (early late : List Nat) :
    p.Served (p.interrupt early late).1 (p.interrupt early late).2 ∨
      p.Stuck (p.interrupt early late).1 (p.interrupt early late).2 := by
  unfold interrupt
  cases hint : p.wired.next with
  | none => exact .inl ⟨⟨.refl _, .refl _⟩, .inl rfl⟩
  | some i₀ =>
    have hlike := p.like_withdraw early
    obtain ⟨⟨hbase, -⟩, ⟨hsbase, -⟩⟩ := hlike.ready hr
    unfold acknowledge
    generalize p.withdraw early = q at hlike hbase hsbase
    simp only
    cases hnext : q.wired.next with
    | none =>
      -- withdrawn before the first cycle
      have hv : q.master.base + 7 - 0x20 = 7 := by rw [hbase]; decide
      simp only [hv, show (7 : BitVec 8).toNat = 7 from rfl, show 7 % 8 = 7 from rfl]
      have hclear : (q.chip 7).isr.getLsbD 7 = false := hlike.master.isr ▸ h7
      refine .inl ⟨hlike.trans (irqHandler_spurious (.inl rfl) hclear), .inr (.inl ?_)⟩
      rw [hclear]
    | some i =>
      obtain ⟨hi, -, hclear⟩ := Chip.next_spec hnext
      have hclear : ∀ j, j ≤ i → q.master.isr.getLsbD j = false := hclear
      have hfree : ∀ k, k ≤ i → p.master.isr.getLsbD k = false := fun k hk => by
        rw [← hlike.master.isr]
        exact hclear k hk
      simp only
      by_cases h2 : i = 2
      · subst h2
        rw [if_pos rfl]
        have hlike2 := Pics.like_withdraw { q with master := q.master.ack 2 } late
        generalize Pics.withdraw { q with master := q.master.ack 2 } late = r at hlike2
        have hsr : r.slave.base = 0x28 := hlike2.slave.base.trans hsbase
        cases hslave : r.slave.next with
        | none =>
          -- withdrawn between the cycles
          have hv : r.slave.base + 7 - 0x20 = 15 := by rw [hsr]; decide
          have hrclear : (r.chip 15).isr.getLsbD 7 = false := by
            rw [show r.chip 15 = r.slave from rfl, hlike2.slave.isr, hlike.slave.isr]
            exact h15
          have hspurious := irqHandler_spurious (.inr rfl) hrclear
          simp only [hv, show (15 : BitVec 8).toNat = 15 from rfl, show 15 % 8 = 7 from rfl]
          have hready : Pics.Ready { q with master := q.master.ack 2 } :=
            ⟨(hlike.ready hr).master, (hlike.ready hr).slave⟩
          refine .inr ⟨by rw [hrclear], hfree, (hlike2.trans hspurious).ready hready, ?_, ?_⟩
          · rw [hspurious.master.isr, hlike2.master.isr, ← hlike.master.isr]
            rfl
          · rw [hspurious.slave.isr, hlike2.slave.isr, hlike.slave.isr]
        | some j =>
          obtain ⟨hj, -, hsclear⟩ := Chip.next_spec hslave
          have hv := vector_slave j hj
          have hmod : (8 + j) % 8 = j := by omega
          have hserved : (Pics.chip { r with slave := r.slave.ack j } (8 + j)).isr.getLsbD j = true := by
            unfold chip
            rw [if_neg (by omega), Chip.ack_isr _ hj, if_pos rfl]
          simp only [hsr, hv, hmod, hserved]
          refine .inl ⟨hlike.trans (like_irqHandler_slave hj hclear hsclear hlike2),
            .inr (.inr ⟨8 + j, rfl, by omega, ?_⟩)⟩
          rw [if_neg (by omega)]
          exact hfree
      · rw [if_neg h2]
        have hv : ((q.master.ack i).base + BitVec.ofNat 8 i - 0x20).toNat = i := by
          rw [show (q.master.ack i).base = 0x20 from hbase]
          exact vector_master i hi
        have hmod : i % 8 = i := Nat.mod_eq_of_lt hi
        have hserved : (Pics.chip { q with master := q.master.ack i } i).isr.getLsbD i = true := by
          unfold chip
          rw [if_pos hi, Chip.ack_isr _ hi, if_pos rfl]
        simp only [hv, hmod, hserved]
        refine .inl ⟨hlike.trans (like_irqHandler_master hi hclear), .inr (.inr ⟨i, rfl, by omega, ?_⟩)⟩
        rw [if_pos hi]
        exact hfree

end Pics

/-! ## Whole runs -/

section Runs

variable {p p' : Pics} {t : Option Taken} {es : List Event} {xs ys : List Taken}

theorem like_picMaskIrq (hr : p.Ready) (irq : Nat) (b : Bool) :
    (picMaskIrq irq b p).Ready ∧ (picMaskIrq irq b p).master.isr = p.master.isr ∧
      (picMaskIrq irq b p).slave.isr = p.slave.isr := by
  obtain ⟨⟨hbase, hicw⟩, ⟨hsbase, hsicw⟩⟩ := hr
  unfold picMaskIrq Pics.onChip
  split
  · beta_reduce
    rw [Chip.outData_mask hicw]
    exact ⟨⟨⟨hbase, hicw⟩, ⟨hsbase, hsicw⟩⟩, rfl, rfl⟩
  · beta_reduce
    rw [Chip.outData_mask hsicw]
    exact ⟨⟨⟨hbase, hicw⟩, ⟨hsbase, hsicw⟩⟩, rfl, rfl⟩

/-- Nothing is in service but, where `b` says so, line 2 of the master. -/
structure Between (b : Bool) (p : Pics) : Prop where
  ready : p.Ready
  master : p.master.isr = putBit 0 2 b
  slave : p.slave.isr = 0

/-- An interrupt that may be taken while line 2 of the master is in service. -/
def Taken.Early (t : Taken) : Prop := t.irq = 0 ∨ t.irq = 1 ∨ t = ⟨7, false⟩

/-- One step, without and with line 2 of the master in service. -/
theorem Event.step_between {b : Bool} (h : Between b p) (e : Event) :
    ((e.step p).1 = some ⟨15, false⟩ ∧ b = false ∧ Between true (e.step p).2) ∨
      ((e.step p).1 ≠ some ⟨15, false⟩ ∧ Between b (e.step p).2 ∧
        (b = true → ∀ t ∈ (e.step p).1, t.Early)) := by
  obtain ⟨hr, hm, hs⟩ := h
  cases e with
  | setLine irq v =>
    have hlike := p.like_setLine irq v
    exact .inr ⟨nofun, ⟨hlike.ready hr, hlike.master.isr.trans hm, hlike.slave.isr.trans hs⟩,
      fun _ => nofun⟩
  | mask irq v =>
    obtain ⟨hr', hm', hs'⟩ := like_picMaskIrq hr irq v
    exact .inr ⟨nofun, ⟨hr', hm'.trans hm, hs'.trans hs⟩, fun _ => nofun⟩
  | interrupt early late =>
    have h7 : p.master.isr.getLsbD 7 = false := by
      rw [hm, getLsbD_putBit _ (by decide), if_neg (by decide)]
      rfl
    have h15 : p.slave.isr.getLsbD 7 = false := by
      rw [hs]
      rfl
    obtain ⟨hlike, ht⟩ | ⟨ht, hclear, hr', hm', hs'⟩ := Pics.interrupt_cases hr h7 h15 early late
    · have hbetween : Between b (p.interrupt early late).2 :=
        ⟨hlike.ready hr, hlike.master.isr.trans hm, hlike.slave.isr.trans hs⟩
      change _ ∨ (p.interrupt early late).1 ≠ _ ∧ Between b (p.interrupt early late).2 ∧
        (b = true → ∀ t ∈ (p.interrupt early late).1, t.Early)
      obtain ht | ht | ⟨irq, ht, hirq, hfree⟩ := ht <;> rw [ht]
      · exact .inr ⟨nofun, hbetween, fun _ => nofun⟩
      · refine .inr ⟨by decide, hbetween, fun _ t hmem => ?_⟩
        cases hmem
        exact .inr (.inr rfl)
      · refine .inr ⟨by simp, hbetween, fun hb t hmem => ?_⟩
        cases hmem
        -- with line 2 in service only the lines before it come through
        have hlt : ¬ 2 ≤ (if irq < 8 then irq else 2) := fun hle => by
          have hserved := hfree 2 hle
          rw [hm, hb, getLsbD_putBit _ (by decide), if_pos rfl] at hserved
          cases hserved
        split at hlt
        · obtain h0 | h1 : irq = 0 ∨ irq = 1 := by omega
          · exact .inl h0
          · exact .inr (.inl h1)
        · omega
    · have hb : b = false := by
        have hserved := hclear 2 (Nat.le_refl 2)
        rwa [hm, getLsbD_putBit _ (by decide), if_pos rfl] at hserved
      subst hb
      have hmaster : (p.interrupt early late).2.master.isr = putBit 0 2 true := by
        rw [hm', hm]
        rfl
      exact .inl ⟨ht, rfl, hr', hmaster, hs'.trans hs⟩

/-- A run from where line 2 is in service. -/
theorem runEvents_blocked (es : List Event) (h : Between true p) :
    (∀ t ∈ (runEvents es p).1, t.Early) ∧ Between true (runEvents es p).2 := by
  induction es generalizing p with
  | nil => exact ⟨nofun, h⟩
  | cons e es ih =>
    obtain ⟨-, hb, -⟩ | ⟨-, hnext, hearly⟩ := e.step_between h
    · cases hb
    · obtain ⟨hrest, hend⟩ := ih hnext
      refine ⟨fun t ht => ?_, hend⟩
      obtain ht | ht := List.mem_append.1 ht
      · exact hearly rfl t (Option.mem_toList.1 ht)
      · exact hrest t ht

theorem Between.idle (h : Between false p) : p.Idle := ⟨h.master, h.slave⟩

theorem Between.not_idle (h : Between true p) : ¬ p.Idle := fun hi => by
  have := hi.1
  rw [h.master] at this
  exact absurd this (by decide)

theorem not_early_spurious : ¬ Taken.Early ⟨15, false⟩ := by
  rintro (h | h | h) <;> cases h

/-- A run from idle controllers: they are idle again if there was no spurious IRQ15, and after one
only lines 0 and 1 come through. -/
theorem runEvents_between (es : List Event) (h : Between false p) :
    (⟨15, false⟩ ∉ (runEvents es p).1 ∧ Between false (runEvents es p).2) ∨
      ∃ xs ys, (runEvents es p).1 = xs ++ ⟨15, false⟩ :: ys ∧ ⟨15, false⟩ ∉ xs ∧
        (∀ t ∈ ys, t.Early) ∧ Between true (runEvents es p).2 := by
  induction es generalizing p with
  | nil => exact .inl ⟨List.not_mem_nil, h⟩
  | cons e es ih =>
    obtain ⟨ht, -, hnext⟩ | ⟨ht, hnext, -⟩ := e.step_between h
    · obtain ⟨hrest, hend⟩ := runEvents_blocked es hnext
      refine .inr ⟨[], (runEvents es (e.step p).2).1, ?_, List.not_mem_nil, hrest, hend⟩
      change (e.step p).1.toList ++ _ = _
      rw [ht]
      rfl
    · have hnot : (⟨15, false⟩ : Taken) ∉ (e.step p).1.toList := fun hm =>
        ht (Option.mem_toList.1 hm)
      obtain ⟨hrest, hend⟩ | ⟨xs, ys, hsplit, hxs, hys, hend⟩ := ih hnext
      · refine .inl ⟨fun hm => ?_, hend⟩
        obtain hm | hm := List.mem_append.1 hm
        · exact hnot hm
        · exact hrest hm
      · refine .inr ⟨(e.step p).1.toList ++ xs, ys, ?_, fun hm => ?_, hys, hend⟩
        · change (e.step p).1.toList ++ (runEvents es (e.step p).2).1 = _
          rw [hsplit, List.append_assoc]
        · obtain hm | hm := List.mem_append.1 hm
          · exact hnot hm
          · exact hxs hm

theorem picInit_between (p : Pics) : Between false (picInit p) := by
  rw [picInit_eq]
  exact ⟨⟨⟨rfl, rfl⟩, ⟨rfl, rfl⟩⟩, rfl, rfl⟩

/-- **The controllers are idle after a run of interrupts**, whatever the devices do and whatever is
masked, exactly if no IRQ15 was spurious. -/
theorem idle_iff_no_spurious (p : Pics) (es : List Event) :
    (runEvents es (picInit p)).2.Idle ↔ ⟨15, false⟩ ∉ (runEvents es (picInit p)).1 := by
  obtain ⟨hnot, hend⟩ | ⟨xs, ys, hsplit, -, -, hend⟩ := runEvents_between es (picInit_between p)
  · exact iff_of_true hend.idle hnot
  · refine iff_of_false hend.not_idle fun hnot => hnot ?_
    rw [hsplit]
    simp

/-- **After a spurious IRQ15** no line but 0 and 1 is served any more: the mouse, at IRQ12, is not.
What else comes is a spurious IRQ7. -/
theorem after_spurious (p : Pics) (es : List Event) (xs ys : List Taken)
    (h : (runEvents es (picInit p)).1 = xs ++ ⟨15, false⟩ :: ys) : ∀ t ∈ ys, t.Early := by
  obtain ⟨hnot, -⟩ | ⟨xs', ys', hsplit, hxs', hys', -⟩ :=
    runEvents_between es (picInit_between p)
  · exact absurd (by rw [h]; simp) hnot
  · -- there was only one
    rw [hsplit] at h
    have hys : (⟨15, false⟩ : Taken) ∉ ys' := fun hm => not_early_spurious (hys' _ hm)
    obtain ⟨as, rfl, has⟩ | ⟨bs, rfl, hbs⟩ := List.append_eq_append_iff.1 h
    · cases as with
      | nil =>
        cases has
        exact hys'
      | cons a as =>
        cases has
        exact absurd (by simp) hys
    · cases bs with
      | nil =>
        cases hbs
        exact hys'
      | cons b bs =>
        cases hbs
        exact absurd (by simp) hxs'

/-- Controllers in no state in particular. -/
def blankPics : Pics := ⟨⟨0, 0, 0, 0, 0, false⟩, ⟨0, 0, 0, 0, 0, false⟩⟩

/-- The mouse requests and withdraws between the two cycles; later the timer comes through. -/
theorem after_spurious_timer : (⟨0, true⟩ : Taken).Early :=
  after_spurious blankPics
    [.mask 0 false, .setLine 12 true, .interrupt [] [12], .setLine 12 true, .setLine 0 true,
      .interrupt [] [], .interrupt [] []] [] [⟨0, true⟩] (by decide +kernel) _
    List.mem_cons_self

end Runs

end HaoSys.Irq
