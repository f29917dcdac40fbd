import HaoSys.Driver.Mouse

/-!
# The packets of the mouse stream

`mouse_feed_byte` counts to three and starts again, whatever the bytes are; the
validity bit only decides whether a collected packet is used. So the place in
the device's packets at which the assembler starts its own one never changes.
-/

namespace HaoSys.Driver

/-- The three bytes of a packet as the device sends it. -/
structure Packet where
  status : UInt8
  dx : UInt8
  dy : UInt8
  deriving DecidableEq, Repr

namespace Packet

/-- Bit 3 of the first byte is set. -/
def Valid (p : Packet) : Prop := p.status &&& 0x08 ≠ 0

instance (p : Packet) : Decidable p.Valid := inferInstanceAs (Decidable (_ ≠ _))

def bytes (p : Packet) : List UInt8 := [p.status, p.dx, p.dy]

end Packet

namespace Console

/-- `mouse_feed_byte` for each of the bytes. -/
def feedBytes (data : List UInt8) (s : Console) : Console := data.foldl (fun s b => s.mouseFeedByte b) s

/-- The first half of `mouse_feed_byte`: the byte is stored. -/
def storeByte (data : UInt8) (s : Console) : Console :=
  { s with mouse := { s.mouse with
    pkt := fun j => if j.val = s.mouse.pktCycle then data else s.mouse.pkt j
    pktCycle := s.mouse.pktCycle + 1 } }

/-- The packet in the buffer. -/
def packet (s : Console) : Packet := ⟨s.mouse.pkt 0, s.mouse.pkt 1, s.mouse.pkt 2⟩

/-- The packet that `mouse_feed_byte(data)` decodes: three bytes are there and the bit is set. -/
def decodes (s : Console) (data : UInt8) : Option Packet :=
  let s := s.storeByte data
  if s.mouse.pktCycle = 3 ∧ s.packet.Valid then some s.packet else none

/-- The packets decoded while the bytes are fed. -/
def decoded : List UInt8 → Console → List Packet
  | [], _ => []
  | b :: bs, s => (s.decodes b).toList ++ decoded bs (s.mouseFeedByte b)

/-- The movement and the buttons of a packet. -/
def movePacket (p : Packet) (s : Console) : Console :=
  s.moveBy (signExtend (p.status &&& 0x10 ≠ 0) p.dx) (signExtend (p.status &&& 0x20 ≠ 0) p.dy) (-1)
    p.status

def resetCycle (s : Console) : Console := { s with mouse := { s.mouse with pktCycle := 0 } }

section

variable (s : Console) (b : UInt8)

theorem takePacket_eq :
    s.takePacket = if s.packet.Valid then (s.movePacket s.packet).resetCycle else s.resetCycle := by
  unfold takePacket
  by_cases h : s.packet.Valid
  · rw [if_pos h]
    have h' : s.mouse.pkt 0 &&& 0x08 ≠ 0 := h
    simp only [if_pos h']
    rfl
  · rw [if_neg h]
    have h' : ¬ s.mouse.pkt 0 &&& 0x08 ≠ 0 := h
    simp only [if_neg h']
    rfl

theorem mouseFeedByte_eq :
    s.mouseFeedByte b =
      if s.mouse.pktCycle = 2 then (s.storeByte b).takePacket else s.storeByte b := by
  unfold mouseFeedByte
  by_cases h : s.mouse.pktCycle = 2
  · rw [if_pos h, if_pos (by simp [h])]
    rfl
  · rw [if_neg h, if_neg (by simpa using h)]
    rfl

theorem pkt_movePacket (p : Packet) : (s.movePacket p).mouse.pkt = s.mouse.pkt := by
  simp only [movePacket, moveBy, pointerDraw]
  split <;> rfl

theorem pkt_mouseFeedByte (j : Fin 3) :
    (s.mouseFeedByte b).mouse.pkt j = if j.val = s.mouse.pktCycle then b else s.mouse.pkt j := by
  rw [mouseFeedByte_eq]
  by_cases hc : s.mouse.pktCycle = 2
  · rw [if_pos hc, takePacket_eq]
    split
    · change (movePacket _ _).mouse.pkt j = _
      rw [pkt_movePacket]
      rfl
    · rfl
  · rw [if_neg hc]
    rfl

/-- The count goes round, whatever the byte is. -/
theorem pktCycle_mouseFeedByte :
    (s.mouseFeedByte b).mouse.pktCycle =
      if s.mouse.pktCycle = 2 then 0 else s.mouse.pktCycle + 1 := by
  rw [mouseFeedByte_eq]
  split
  · rfl
  · rfl

end

theorem decodes_of_ne {s : Console} {b : UInt8} (h : s.mouse.pktCycle ≠ 2) : s.decodes b = none :=
  if_neg fun hc => h (Nat.succ.inj hc.1)

/-! ## In step -/

/-- From the start of a packet its own three bytes are decoded. -/
theorem decoded_of_aligned {s : Console} (h : s.mouse.pktCycle = 0) {p : Packet} (hp : p.Valid) :
    decoded p.bytes s = [p] ∧ (s.feedBytes p.bytes).mouse.pktCycle = 0 := by
  have h1 : (s.mouseFeedByte p.status).mouse.pktCycle = 1 := by
    rw [pktCycle_mouseFeedByte, h]
    rfl
  have h2 : ((s.mouseFeedByte p.status).mouseFeedByte p.dx).mouse.pktCycle = 2 := by
    rw [pktCycle_mouseFeedByte, h1]
    rfl
  have hpkt : (((s.mouseFeedByte p.status).mouseFeedByte p.dx).storeByte p.dy).packet = p := by
    simp only [packet, storeByte, pkt_mouseFeedByte, h, h1, h2]
    rfl
  refine ⟨?_, ?_⟩
  · simp only [Packet.bytes, decoded]
    rw [decodes_of_ne (by rw [h]; decide), decodes_of_ne (by rw [h1]; decide), decodes, hpkt,
      if_pos ⟨by rw [storeByte, h2], hp⟩]
    rfl
  · change (((s.mouseFeedByte p.status).mouseFeedByte p.dx).mouseFeedByte p.dy).mouse.pktCycle = 0
    rw [pktCycle_mouseFeedByte, h2]
    rfl

/-! ## Out of step -/

/-- A packet without movement. -/
def still : Packet := ⟨0x08, 0, 0⟩

/-- The assembler is inside its own packet, and the status byte it holds is a movement byte. -/
def Astray (s : Console) : Prop :=
  s.mouse.pktCycle ≠ 0 ∧ (s.mouse.pktCycle ≤ 2 → s.mouse.pkt 0 = 0)

theorem astray_still {s : Console} (h : s.mouse.pktCycle ≠ 0) :
    (s.feedBytes still.bytes).Astray := by
  change (((s.mouseFeedByte 0x08).mouseFeedByte 0).mouseFeedByte 0).Astray
  simp only [Astray, pktCycle_mouseFeedByte, pkt_mouseFeedByte]
  generalize s.mouse.pktCycle = c at h ⊢
  obtain rfl | rfl | hc : c = 1 ∨ c = 2 ∨ 3 ≤ c := by omega
  · exact ⟨by decide, fun _ => rfl⟩
  · exact ⟨by decide, fun _ => rfl⟩
  · rw [if_neg (show ¬ c = 2 by omega), if_neg (show ¬ c + 1 = 2 by omega),
      if_neg (show ¬ c + 1 + 1 = 2 by omega)]
    exact ⟨by omega, fun hle => absurd hle (by omega)⟩

/-- Without a valid status byte in the buffer the third byte decodes nothing. -/
theorem decodes_of_stale {s : Console} {b : UInt8}
    (h : s.mouse.pktCycle = 2 → s.mouse.pkt 0 = 0) : s.decodes b = none := by
  by_cases hc : s.mouse.pktCycle = 2
  · refine if_neg fun hv => hv.2 ?_
    have hkeep : (s.storeByte b).mouse.pkt 0 = 0 := by
      simp only [storeByte, hc]
      exact h hc
    change (s.storeByte b).mouse.pkt 0 &&& 0x08 = 0
    rw [hkeep]
    rfl
  · exact decodes_of_ne hc

theorem Astray.decoded_still {s : Console} (h : s.Astray) : decoded still.bytes s = [] := by
  obtain ⟨hne, hpkt⟩ := h
  have h1 : s.decodes 0x08 = none := decodes_of_stale fun hc => hpkt hc.le
  have h2 : (s.mouseFeedByte 0x08).decodes 0 = none := by
    refine decodes_of_stale fun hc => ?_
    rw [pktCycle_mouseFeedByte] at hc
    rw [pkt_mouseFeedByte, if_neg fun e => hne e.symm]
    exact hpkt (by split at hc <;> omega)
  have h3 : ((s.mouseFeedByte 0x08).mouseFeedByte 0).decodes 0 = none := by
    -- the third byte would have to be the third of the assembler's own packet
    refine decodes_of_ne ?_
    rw [pktCycle_mouseFeedByte, pktCycle_mouseFeedByte]
    generalize s.mouse.pktCycle = c at hne ⊢
    split <;> split <;> omega
  simp only [still, Packet.bytes, decoded, h1, h2, h3]
  rfl

theorem feedBytes_append (s : Console) (bs cs : List UInt8) :
    s.feedBytes (bs ++ cs) = (s.feedBytes bs).feedBytes cs := List.foldl_append

theorem astray_stills {s : Console} (h : s.mouse.pktCycle ≠ 0) :
    ∀ n, (s.feedBytes ((List.replicate (n + 1) still).flatMap Packet.bytes)).Astray
  | 0 => astray_still h
  | n + 1 => by
    rw [List.replicate_succ', List.flatMap_append, feedBytes_append, List.flatMap_singleton]
    exact astray_still (astray_stills h n).1

/-- After some number of valid packets every further one is decoded from its own three bytes. -/
def Resynchronises (s : Console) : Prop :=
  ∃ n, ∀ ps : List Packet, (∀ p ∈ ps, p.Valid) → n ≤ ps.length → ∀ p : Packet, p.Valid →
    decoded p.bytes (s.feedBytes (ps.flatMap Packet.bytes)) = [p]

/-- Out of step, a pointer that rests is never seen again. -/
theorem not_resynchronises {s : Console} (h : s.mouse.pktCycle ≠ 0) : ¬ s.Resynchronises := by
  rintro ⟨n, hn⟩
  have hvalid : still.Valid := by decide
  have := hn (List.replicate (n + 1) still) (fun p hp => List.eq_of_mem_replicate hp ▸ hvalid)
    (by simp) still hvalid
  rw [(astray_stills h n).decoded_still] at this
  cases this

/-- The stream is decoded packet by packet, from some point on, exactly if the assembler starts in
step with the device. -/
theorem mouse_resynchronises_iff (s : Console) : s.Resynchronises ↔ s.mouse.pktCycle = 0 := by
  constructor
  · intro hs
    by_contra h
    exact not_resynchronises h hs
  · intro h
    refine ⟨0, fun ps hps _ p hp => (decoded_of_aligned ?_ hp).1⟩
    induction ps generalizing s with
    | nil => exact h
    | cons q ps ih =>
      rw [List.flatMap_cons, feedBytes_append]
      exact ih _ (decoded_of_aligned h (hps q List.mem_cons_self)).2
        (fun p hp => hps p (List.mem_cons_of_mem _ hp)) (Nat.zero_le _)

/-- One spurious byte after boot. -/
theorem spurious_byte_never_resynchronises :
    ¬ ((Console.boot fun _ => 0).mouseFeedByte 0xFF).Resynchronises := by
  refine not_resynchronises ?_
  rw [pktCycle_mouseFeedByte]
  decide

end Console

end HaoSys.Driver
