import HaoSys.Driver.Resync
import Mathlib.Algebra.BigOperators.Group.List.Basic

/-!
# Pointer motion (`driver/mouse.c`)

A PS/2 packet carries two movements of 9 bits. The position changes by the accumulated movement
divided by the sensitivity and the remainder stays in the accumulator. So
`sensitivity * position + accumulator` counts the movements, as long as no coordinate is clamped.
-/

namespace HaoSys.Driver

namespace Packet

/-- The movements, in two's complement: the sign bits are bits 4 and 5 of the first byte. -/
def moveX (p : Packet) : Int := (BitVec.ofBool (p.status &&& 0x10 ≠ 0) ++ p.dx.toBitVec).toInt

def moveY (p : Packet) : Int := (BitVec.ofBool (p.status &&& 0x20 ≠ 0) ++ p.dy.toBitVec).toInt

/-- The packet as `ps2_pkt` holds it. -/
def pkt (p : Packet) (j : Fin 3) : UInt8 := if j = 0 then p.status else if j = 1 then p.dx else p.dy

/-- No coordinate is clamped when the packet arrives at `m`. -/
def Free (p : Packet) (m : Mouse) : Prop :=
  (0 ≤ m.x + (m.accX + p.moveX).tdiv m.sensitivity ∧
    m.x + (m.accX + p.moveX).tdiv m.sensitivity < vgaWidth) ∧
  0 ≤ m.y - (m.accY + p.moveY).tdiv m.sensitivity ∧
    m.y - (m.accY + p.moveY).tdiv m.sensitivity < vgaHeight

end Packet

namespace Console

/-- No coordinate is clamped while the packets arrive. -/
def Unclamped : Console → List Packet → Prop
  | _, [] => True
  | s, p :: packets => p.Free s.mouse ∧ Unclamped (s.feedBytes p.bytes) packets

/-! ## One packet -/

theorem signExtend_eq_toInt (sign : Bool) (b : UInt8) :
    signExtend sign b = (BitVec.ofBool sign ++ b.toBitVec).toInt := by
  have hb : b.toBitVec.toNat < 2 ^ 8 := b.toBitVec.isLt
  have hnat : (BitVec.ofBool sign ++ b.toBitVec).toNat = sign.toNat * 2 ^ 8 + b.toNat := by
    rw [BitVec.toNat_append, ← Nat.shiftLeft_add_eq_or_of_lt hb, Nat.shiftLeft_eq,
      BitVec.toNat_ofBool]
    rfl
  have hlt : b.toNat < 256 := hb
  rw [BitVec.toInt_eq_toNat_cond, hnat]
  unfold signExtend
  cases sign with
  | false =>
    rw [if_neg (by decide), if_pos (by simp only [Bool.toNat_false]; omega)]
    simp only [Bool.toNat_false]
    omega
  | true =>
    rw [if_pos rfl, if_neg (by simp only [Bool.toNat_true]; omega)]
    simp only [Bool.toNat_true]
    omega

/-- Drawing the pointer leaves the motion alone. -/
theorem pointerDraw_motion (s : Console) (row col : Int) :
    (s.pointerDraw row col).mouse.sensitivity = s.mouse.sensitivity ∧
      (s.pointerDraw row col).mouse.x = s.mouse.x ∧
      (s.pointerDraw row col).mouse.y = s.mouse.y ∧
      (s.pointerDraw row col).mouse.accX = s.mouse.accX ∧
      (s.pointerDraw row col).mouse.accY = s.mouse.accY := by
  unfold pointerDraw
  split
  · exact ⟨rfl, rfl, rfl, rfl, rfl⟩
  · exact ⟨rfl, rfl, rfl, rfl, rfl⟩

theorem clampTo_of_inside {n x : Int} (h : 0 ≤ x ∧ x < n) : clampTo n x = x := by
  unfold clampTo
  rw [if_neg (by omega), if_neg (by omega)]

/-- What an unclamped movement does to one axis: the quotient moves, the remainder stays. -/
theorem axis_conserved (sens pos acc d : Int) :
    sens * (pos + (acc + d).tdiv sens) + (acc + d).tmod sens = sens * pos + acc + d := by
  have hdiv := Int.mul_tdiv_add_tmod (acc + d) sens
  rw [Int.mul_add]
  omega

/-- The third byte of a packet: the first two are in `ps2_pkt` by then. -/
theorem feedBytes_packet {s : Console} (hcycle : s.mouse.pktCycle = 0) (p : Packet) :
    s.feedBytes p.bytes =
      takePacket { s with mouse := { s.mouse with pkt := p.pkt, pktCycle := 3 } } := by
  have hpkt : (fun j : Fin 3 => if j.val = 2 then p.dy else if j.val = 1 then p.dx
      else if j.val = 0 then p.status else s.mouse.pkt j) = p.pkt := by
    funext j
    fin_cases j <;> rfl
  unfold feedBytes Packet.bytes mouseFeedByte
  simp only [List.foldl_cons, List.foldl_nil, hcycle]
  simp only [hpkt, Nat.reduceAdd, Nat.reduceEqDiff, ↓reduceIte]

/-- **A valid packet that is not clamped moves the pointer by what it carries.** -/
theorem feedBytes_conserves {s : Console} (hcycle : s.mouse.pktCycle = 0) {p : Packet}
    (hvalid : p.Valid) (hfree : p.Free s.mouse) :
    (s.feedBytes p.bytes).mouse.sensitivity = s.mouse.sensitivity ∧
      s.mouse.sensitivity * (s.feedBytes p.bytes).mouse.x + (s.feedBytes p.bytes).mouse.accX =
        s.mouse.sensitivity * s.mouse.x + s.mouse.accX + p.moveX ∧
      -(s.mouse.sensitivity * (s.feedBytes p.bytes).mouse.y) + (s.feedBytes p.bytes).mouse.accY =
        -(s.mouse.sensitivity * s.mouse.y) + s.mouse.accY + p.moveY := by
  obtain ⟨hx, hy⟩ := hfree
  have hdx : signExtend (p.pkt 0 &&& 0x10 ≠ 0) (p.pkt 1) = p.moveX := signExtend_eq_toInt _ _
  have hdy : signExtend (p.pkt 0 &&& 0x20 ≠ 0) (p.pkt 2) = p.moveY := signExtend_eq_toInt _ _
  have hhead : p.pkt 0 &&& 0x08 ≠ 0 := hvalid
  -- rows count downwards
  have hdown : s.mouse.y + -1 * (s.mouse.accY + p.moveY).tdiv s.mouse.sensitivity =
      s.mouse.y - (s.mouse.accY + p.moveY).tdiv s.mouse.sensitivity := by omega
  rw [feedBytes_packet hcycle]
  unfold takePacket
  simp only [hhead, hdx, hdy, ne_eq, not_false_eq_true, ↓reduceIte]
  unfold moveBy
  simp only [hdown, clampTo_of_inside hx, clampTo_of_inside hy]
  obtain ⟨hs, hpx, hpy, hax, hay⟩ := pointerDraw_motion
    { s with mouse := { s.mouse with
        pkt := p.pkt, pktCycle := 3, btn := p.pkt 0 &&& 0x07
        x := s.mouse.x + (s.mouse.accX + p.moveX).tdiv s.mouse.sensitivity
        y := s.mouse.y - (s.mouse.accY + p.moveY).tdiv s.mouse.sensitivity
        accX := (s.mouse.accX + p.moveX).tmod s.mouse.sensitivity
        accY := (s.mouse.accY + p.moveY).tmod s.mouse.sensitivity } }
    (s.mouse.y - (s.mouse.accY + p.moveY).tdiv s.mouse.sensitivity)
    (s.mouse.x + (s.mouse.accX + p.moveX).tdiv s.mouse.sensitivity)
  rw [hs, hpx, hpy, hax, hay]
  refine ⟨rfl, axis_conserved _ _ _ _, ?_⟩
  have hdiv := Int.mul_tdiv_add_tmod (s.mouse.accY + p.moveY) s.mouse.sensitivity
  simp only [Int.mul_sub]
  omega

/-! ## A run of packets -/

/-- **No movement is lost or invented** along a run of packets. -/
theorem run_conserves {s : Console} (hcycle : s.mouse.pktCycle = 0) {packets : List Packet}
    (hvalid : ∀ p ∈ packets, p.Valid) (hfree : s.Unclamped packets) :
    (s.feedBytes (packets.flatMap Packet.bytes)).mouse.sensitivity = s.mouse.sensitivity ∧
      s.mouse.sensitivity * (s.feedBytes (packets.flatMap Packet.bytes)).mouse.x +
          (s.feedBytes (packets.flatMap Packet.bytes)).mouse.accX =
        s.mouse.sensitivity * s.mouse.x + s.mouse.accX + (packets.map Packet.moveX).sum ∧
      -(s.mouse.sensitivity * (s.feedBytes (packets.flatMap Packet.bytes)).mouse.y) +
          (s.feedBytes (packets.flatMap Packet.bytes)).mouse.accY =
        -(s.mouse.sensitivity * s.mouse.y) + s.mouse.accY + (packets.map Packet.moveY).sum := by
  induction packets generalizing s with
  | nil =>
    rw [List.flatMap_nil, List.map_nil, List.map_nil, List.sum_nil, Int.add_zero, Int.add_zero]
    exact ⟨rfl, rfl, rfl⟩
  | cons p packets ih =>
    obtain ⟨hp, hrest⟩ := hfree
    obtain ⟨hs, hx, hy⟩ := feedBytes_conserves hcycle (hvalid p List.mem_cons_self) hp
    obtain ⟨hs', hx', hy'⟩ := ih (decoded_of_aligned hcycle (hvalid p List.mem_cons_self)).2
      (fun q hq => hvalid q (List.mem_cons_of_mem p hq)) hrest
    rw [List.flatMap_cons, feedBytes_append, List.map_cons, List.map_cons, List.sum_cons, List.sum_cons]
    rw [hs] at hs' hx' hy'
    exact ⟨hs', by omega, by omega⟩

end Console

/-- **Pointer motion.** After any run from boot the sensitivity and the pointer are in range, and
from there any packets that are valid and not clamped add up: `sensitivity * x + acc_x` grows by
the sum of their X movements, and `-sensitivity * y + acc_y` by that of their Y movements. -/
theorem pointer_motion (mem : Int → UInt16) (ops : List ConsoleOp) :
    let s := (Console.boot mem).run ops
    (1 ≤ s.mouse.sensitivity ∧ s.mouse.sensitivity ≤ 16) ∧
      (0 ≤ s.mouse.x ∧ s.mouse.x ≤ 79) ∧ (0 ≤ s.mouse.y ∧ s.mouse.y ≤ 24) ∧
      (0 ≤ s.mouse.pointerCol ∧ s.mouse.pointerCol ≤ 79) ∧
      (0 ≤ s.mouse.pointerRow ∧ s.mouse.pointerRow ≤ 24) ∧
      (s.mouse.pktCycle = 0 → ∀ packets : List Packet, (∀ p ∈ packets, p.Valid) →
        s.Unclamped packets →
        let t := s.feedBytes (packets.flatMap Packet.bytes)
        t.mouse.sensitivity = s.mouse.sensitivity ∧
          s.mouse.sensitivity * t.mouse.x + t.mouse.accX =
            s.mouse.sensitivity * s.mouse.x + s.mouse.accX + (packets.map Packet.moveX).sum ∧
          -(s.mouse.sensitivity * t.mouse.y) + t.mouse.accY =
            -(s.mouse.sensitivity * s.mouse.y) + s.mouse.accY +
              (packets.map Packet.moveY).sum) := by
  intro s
  have hok : s.Ok := Console.run_ok (Console.boot_ok mem) ops
  obtain ⟨-, ⟨hsens, -, ⟨hx, hy⟩, hrow, hcol⟩, -⟩ := hok
  have hw : vgaWidth = 80 := rfl
  have hh : vgaHeight = 25 := rfl
  refine ⟨hsens, ⟨hx.1, by omega⟩, ⟨hy.1, by omega⟩, ⟨hcol.1, by omega⟩, ⟨hrow.1, by omega⟩, ?_⟩
  intro hcycle packets hvalid hfree
  exact Console.run_conserves hcycle hvalid hfree

/-- Twenty to the right and five back: fifteen in all, at column 2 with 1 left to go. -/
theorem pointer_motion_back :
    8 * (((Console.boot fun _ => 0).run []).feedBytes
        ([⟨0x08, 20, 0⟩, ⟨0x18, 0xFB, 0⟩].flatMap Packet.bytes)).mouse.x +
      (((Console.boot fun _ => 0).run []).feedBytes
        ([⟨0x08, 20, 0⟩, ⟨0x18, 0xFB, 0⟩].flatMap Packet.bytes)).mouse.accX = 15 := by
  have hfree : ((Console.boot fun _ => 0).run []).Unclamped [⟨0x08, 20, 0⟩, ⟨0x18, 0xFB, 0⟩] := by
    refine ⟨?_, ?_, trivial⟩
    · unfold Packet.Free
      decide
    · unfold Packet.Free
      decide
  have hvalid : ∀ p ∈ [(⟨0x08, 20, 0⟩ : Packet), ⟨0x18, 0xFB, 0⟩], p.Valid := by
    simp only [List.mem_cons, List.not_mem_nil, or_false, forall_eq_or_imp, forall_eq, Packet.Valid]
    decide
  obtain ⟨-, -, -, -, -, hrun⟩ := pointer_motion (fun _ => 0) []
  obtain ⟨-, hx, -⟩ := hrun rfl _ hvalid hfree
  exact hx

end HaoSys.Driver
