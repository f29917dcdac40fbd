import Mathlib

/-!
# The interrupt controllers

Two 8259A in cascade, as `pic.c` drives them. A chip keeps the lines that
request (IRR), the lines in service (ISR) and the masked lines (IMR). The slave
requests through line 2 of the master. `pic_send_eoi`, `pic_mask_irq`,
`pic_is_in_service` and `pic_remap` are sequences of port accesses; the words
that initialise a chip come through its data port as well.
-/

namespace HaoSys.Irq

/-! ## Registers -/

/-- A bit set by `|= 1 << i`, or cleared by `&= ~(1 << i)`. -/
def putBit (v : BitVec 8) (i : Nat) (b : Bool) : BitVec 8 :=
  if b then v ||| (1#8 <<< i) else v &&& ~~~(1#8 <<< i)

theorem getLsbD_putBit (v : BitVec 8) {i : Nat} (hi : i < 8) (b : Bool) (j : Nat) :
    (putBit v i b).getLsbD j = if j = i then b else v.getLsbD j := by
  unfold putBit
  by_cases hj : j < 8
  · obtain rfl | hne := eq_or_ne j i
    · cases b <;> simp [hj]
    · obtain hlt | hgt := Nat.lt_or_gt_of_ne hne
      · cases b <;> simp [hj, hne, hlt]
      · have h0 : j - i ≠ 0 := by omega
        cases b <;> simp [hj, hne, Nat.not_lt.2 (Nat.le_of_lt hgt), h0]
  · have hne : j ≠ i := by omega
    rw [if_neg hne, BitVec.getLsbD_of_ge _ _ (Nat.not_lt.1 hj),
      BitVec.getLsbD_of_ge _ _ (Nat.not_lt.1 hj)]

/-- An 8259A. -/
structure Chip where
  irr : BitVec 8
  isr : BitVec 8
  imr : BitVec 8
  /-- The vector of line 0. -/
  base : BitVec 8
  /-- The initialisation word that the data port takes next; 0 for none. -/
  icw : Nat
  /-- The command port reads as the ISR, not as the IRR. -/
  readIsr : Bool

namespace Chip

/-- Line `i` requests and is not masked. -/
def wants (c : Chip) (i : Nat) : Bool := c.irr.getLsbD i && !c.imr.getLsbD i

/-- The line that the chip interrupts for: the first that wants to, unless one before it or itself is
in service. -/
def next (c : Chip) : Option Nat :=
  match (List.range 8).find? fun i => c.isr.getLsbD i || c.wants i with
  | none => none
  | some i => if c.isr.getLsbD i then none else some i

/-- The chip acknowledges line `i`. -/
def ack (c : Chip) (i : Nat) : Chip :=
  { c with irr := putBit c.irr i false, isr := putBit c.isr i true }

/-- The non-specific end of interrupt: the first line in service is done. -/
def endOfInterrupt (c : Chip) : Chip :=
  match (List.range 8).find? fun i => c.isr.getLsbD i with
  | none => c
  | some i => { c with isr := putBit c.isr i false }

/-- `outb` to the command port. Of the operation words there are the non-specific end of interrupt
and the choice of the register that is read. -/
def outCmd (c : Chip) (v : BitVec 8) : Chip :=
  if v.getLsbD 4 then ⟨0, 0, 0, c.base, 2, false⟩
  else if v.getLsbD 3 then if v.getLsbD 1 then { c with readIsr := v.getLsbD 0 } else c
  else if v >>> 5 = 1 then c.endOfInterrupt
  else c

/-- `outb` to the data port: an initialisation word, or the mask. -/
def outData (c : Chip) (v : BitVec 8) : Chip :=
  match c.icw with
  | 2 => { c with base := v &&& 0xF8, icw := 3 }
  | 3 => { c with icw := 4 }
  | 4 => { c with icw := 0 }
  | _ => { c with imr := v }

/-- `inb` from the command port. -/
def inCmd (c : Chip) : BitVec 8 := if c.readIsr then c.isr else c.irr

/-- `inb` from the data port. -/
def inData (c : Chip) : BitVec 8 := c.imr

/-- Outside the initialisation the data port is the mask. -/
theorem outData_mask {c : Chip} (h : c.icw = 0) (v : BitVec 8) :
    c.outData v = { c with imr := v } := by
  unfold outData
  split <;> simp_all

@[simp] theorem outCmd_eoi (c : Chip) : c.outCmd 0x20 = c.endOfInterrupt := rfl

@[simp] theorem outCmd_readIsr (c : Chip) : c.outCmd 0x0B = { c with readIsr := true } := rfl

end Chip

/-! ## The two chips -/

structure Pics where
  master : Chip
  slave : Chip

/-- What is done to the chip of a line. -/
def Pics.onChip (p : Pics) (irq : Nat) (f : Chip → Chip) : Pics :=
  if irq < 8 then { p with master := f p.master } else { p with slave := f p.slave }

/-- The chip of a line. -/
def Pics.chip (p : Pics) (irq : Nat) : Chip := if irq < 8 then p.master else p.slave

/-- The master with its line 2 at the output of the slave. -/
def Pics.wired (p : Pics) : Chip :=
  { p.master with irr := putBit p.master.irr 2 p.slave.next.isSome }

/-- A device raises its line, or withdraws the request before it is acknowledged. -/
def Pics.setLine (p : Pics) (irq : Nat) (b : Bool) : Pics :=
  p.onChip irq fun c => { c with irr := putBit c.irr (irq % 8) b }

/-! ## pic.c -/

/-- `pic_send_eoi`. -/
def picSendEoi (irq : Nat) (p : Pics) : Pics :=
  let p := if irq ≥ 8 then { p with slave := p.slave.outCmd 0x20 } else p
  { p with master := p.master.outCmd 0x20 }

/-- `pic_mask_irq`. -/
def picMaskIrq (irq : Nat) (mask : Bool) (p : Pics) : Pics :=
  p.onChip irq fun c => c.outData (putBit c.inData (irq % 8) mask)

/-- `pic_is_in_service`. -/
def picIsInService (irq : Nat) (p : Pics) : Bool × Pics :=
  let p := p.onChip irq fun c => c.outCmd 0x0B
  ((p.chip irq).inCmd.getLsbD (irq % 8), p)

/-- `pic_remap`. -/
def picRemap (offset1 offset2 : BitVec 8) (p : Pics) : Pics :=
  let mask1 := p.master.inData
  let mask2 := p.slave.inData
  let p : Pics := ⟨p.master.outCmd 0x11, p.slave.outCmd 0x11⟩
  let p : Pics := ⟨p.master.outData offset1, p.slave.outData offset2⟩
  let p : Pics := ⟨p.master.outData 0x04, p.slave.outData 0x02⟩
  let p : Pics := ⟨p.master.outData 0x01, p.slave.outData 0x01⟩
  ⟨p.master.outData mask1, p.slave.outData mask2⟩

/-- `pic_init`. -/
def picInit (p : Pics) : Pics :=
  let p := picRemap 0x20 0x28 p
  let p := (List.range 16).foldl (fun p i => picMaskIrq i true p) p
  picMaskIrq 12 false (picMaskIrq 2 false (picMaskIrq 1 false p))

/-! ## What the functions do -/

/-- The chips are set up as `pic_remap(0x20, 0x28)` leaves them. -/
structure Pics.Ready (p : Pics) : Prop where
  master : p.master.base = 0x20 ∧ p.master.icw = 0
  slave : p.slave.base = 0x28 ∧ p.slave.icw = 0

/-- No line is in service. -/
def Pics.Idle (p : Pics) : Prop := p.master.isr = 0 ∧ p.slave.isr = 0

/-- Whatever the chips were doing before, afterwards they are set up, idle and without requests, and
lines 1, 2 and 12 are open. -/
theorem picInit_eq (p : Pics) :
    picInit p = ⟨⟨0, 0, 0xF9, 0x20, 0, false⟩, ⟨0, 0, 0xEF, 0x28, 0, false⟩⟩ := by
  have hmask : ∀ v : BitVec 8, (List.range 8).foldl (fun v i => putBit v i true) v = 0xFF#8 := by
    decide +kernel
  have hmaster := hmask p.master.imr
  have hslave := hmask p.slave.imr
  simp only [show List.range 8 = [0, 1, 2, 3, 4, 5, 6, 7] from rfl, List.foldl_cons,
    List.foldl_nil] at hmaster hslave
  simp only [picInit, picRemap, picMaskIrq, Pics.onChip, Chip.outData, Chip.outCmd, Chip.inData,
    show List.range 16 = [0, 1, 2, 3, 4, 5, 6, 7, 8, 9, 10, 11, 12, 13, 14, 15] from rfl,
    List.foldl_cons, List.foldl_nil]
  simp [hmaster, hslave]
  decide

end HaoSys.Irq
