import HaoSys.Driver.Uhci

/-!
# The pool of transfer descriptors (`driver/usb_controller.c`)

A control or a bulk transfer takes two or three TDs and gives them back. Bulk
transfers do so on every exit. Control transfers do not where the pool is nearly
empty: with one TD left, or two and a data stage, they fail and keep them.
-/

namespace HaoSys.Driver

/-- A synchronous transfer. -/
inductive Transfer where
  | control (devAddr reqType request : UInt8) (value index : UInt16) (data : UInt32)
      (length : UInt16)
  | bulk (devAddr epOut epIn : UInt8) (cbw : UInt32) (cbwLen : UInt16) (data dataLen : UInt32)
      (dir : Bool) (csw : UInt32) (cswLen : UInt16)

namespace Transfer

def run (hw : Hw) (s : Uhci) : Transfer → Bool × Uhci
  | .control devAddr reqType request value index data length =>
    s.controlTransfer devAddr reqType request value index data length hw
  | .bulk devAddr epOut epIn cbw cbwLen data dataLen dir csw cswLen =>
    s.usbBulkBot devAddr epOut epIn cbw cbwLen data dataLen dir csw cswLen hw

/-- The transfer keeps TDs when so many are in use. -/
def Leaks (used : Nat) : Transfer → Prop
  | .control _ _ _ _ _ _ length => used = 63 ∨ used = 62 ∧ 0 < length
  | .bulk .. => False

end Transfer

namespace Uhci

/-! ## Small steps -/

theorem allocTd_of_lt {s : Uhci} (h : s.tdUsed < maxTds) :
    s.allocTd = (some s.tdUsed, { s with tdUsed := s.tdUsed + 1 }) := by
  unfold allocTd
  rw [if_neg (by omega)]

theorem allocTd_of_full {s : Uhci} (h : maxTds ≤ s.tdUsed) : s.allocTd = (none, s) := by
  unfold allocTd
  rw [if_pos h]

/-! ## What a transfer leaves -/

/-- The interrupt transfers and the first `n` TDs are kept, but for the status words, which are
the hardware's. -/
structure Keeps (n : Nat) (s t : Uhci) : Prop where
  intUrbs : t.intUrbs = s.intUrbs
  intUrbCount : t.intUrbCount = s.intUrbCount
  tds : ∀ i < n, (t.tdPool i).link = (s.tdPool i).link ∧
    (t.tdPool i).token = (s.tdPool i).token ∧ (t.tdPool i).buffer = (s.tdPool i).buffer

namespace Keeps

variable {n : Nat} {s t u : Uhci}

theorem refl (n : Nat) (s : Uhci) : Keeps n s s := ⟨rfl, rfl, fun _ _ => ⟨rfl, rfl, rfl⟩⟩

theorem trans (h : Keeps n s t) (h' : Keeps n t u) : Keeps n s u := by
  refine ⟨h'.intUrbs.trans h.intUrbs, h'.intUrbCount.trans h.intUrbCount, fun i hi => ?_⟩
  obtain ⟨hl, ht, hb⟩ := h.tds i hi
  obtain ⟨hl', ht', hb'⟩ := h'.tds i hi
  exact ⟨hl'.trans hl, ht'.trans ht, hb'.trans hb⟩

/-- A change of the other variables. -/
theorem of_pool (h : Keeps n s t) (hpool : u.tdPool = t.tdPool) (hurbs : u.intUrbs = t.intUrbs)
    (hcount : u.intUrbCount = t.intUrbCount) : Keeps n s u :=
  h.trans ⟨hurbs, hcount, fun i _ => by rw [hpool]; exact ⟨rfl, rfl, rfl⟩⟩

/-- A TD that is not among the first `n` is written. -/
theorem update {td : Nat} (h : Keeps n s t) (htd : n ≤ td) (x : Td) :
    Keeps n s { t with tdPool := Function.update t.tdPool td x } := by
  refine h.trans ⟨rfl, rfl, fun i hi => ?_⟩
  have hne : i ≠ td := by omega
  simp only [Function.update_of_ne hne, and_self]

theorem setupTd {td : Nat} (h : Keeps n s t) (htd : n ≤ td) (link : Link) (c k : UInt32)
    (b : Buffer) : Keeps n s (t.setupTd td link c k b) := h.update htd _

theorem setLink {td : Nat} (h : Keeps n s t) (htd : n ≤ td) (link : Link) :
    Keeps n s (t.setLink td link) := h.update htd _

theorem complete (h : Keeps n s t) (status : Nat → UInt32) : Keeps n s (t.complete status) :=
  h.trans ⟨rfl, rfl, fun _ _ => ⟨rfl, rfl, rfl⟩⟩

end Keeps

theorem runChain_spec {n td used : Nat} {el : Link} {hw : Hw} {s t : Uhci} (h : Keeps n s t) :
    Keeps n s (runChain td used el hw t).2 ∧ (runChain td used el hw t).2.elLink = el ∧
      (runChain td used el hw t).2.tdUsed = used := by
  have hwait := (h.of_pool (u := { t with elLink := .td td }) rfl rfl rfl).complete hw.status
  exact ⟨hwait.of_pool rfl rfl rfl, rfl, rfl⟩

/-- **A control transfer** gives its TDs back, but for two exits. -/
theorem controlTransfer_spec (devAddr reqType request : UInt8) (value index : UInt16)
    (data : UInt32) (length : UInt16) (hw : Hw) {s : Uhci} (hs : s.tdUsed ≤ maxTds) :
    Keeps s.tdUsed s (s.controlTransfer devAddr reqType request value index data length hw).2 ∧
      (s.controlTransfer devAddr reqType request value index data length hw).2.elLink = s.elLink ∧
      (s.controlTransfer devAddr reqType request value index data length hw).2.tdUsed =
        if s.tdUsed = 63 ∨ s.tdUsed = 62 ∧ 0 < length then maxTds else s.tdUsed := by
  have hmax : maxTds = 64 := rfl
  unfold controlTransfer
  rcases Nat.lt_or_ge s.tdUsed 64 with h1 | h1
  · have halloc := allocTd_of_lt h1
    rcases Nat.lt_or_ge (s.tdUsed + 1) 64 with h2 | h2
    · have halloc' := allocTd_of_lt (s := { s with tdUsed := s.tdUsed + 1 }) h2
      simp only [halloc, halloc']
      generalize hsetup : Uhci.setupTd s.tdUsed .zero 0 (token devAddr 0 0 7 tdTokenPidSetup)
        (.packet (setupPacket reqType request value index length))
        { s with tdUsed := s.tdUsed + 1 + 1 } = s'
      have hkeeps : Keeps s.tdUsed s s' := by
        have htaken := (Keeps.refl s.tdUsed s).of_pool
          (u := { s with tdUsed := s.tdUsed + 1 + 1 }) rfl rfl rfl
        exact hsetup ▸ htaken.setupTd (Nat.le_refl _) ..
      have hused : s'.tdUsed = s.tdUsed + 2 := hsetup ▸ rfl
      have hel : s'.elLink = s.elLink := hsetup ▸ rfl
      split
      · next hlength =>
        rcases Nat.lt_or_ge s'.tdUsed 64 with h3 | h3
        · have htaken := hkeeps.of_pool (u := { s' with tdUsed := s'.tdUsed + 1 }) rfl rfl rfl
          simp only [allocTd_of_lt h3]
          have hused' : (if s.tdUsed = 63 ∨ s.tdUsed = 62 ∧ 0 < length then maxTds else s.tdUsed)
              = s.tdUsed := if_neg (by omega)
          rw [hused']
          refine runChain_spec ?_
          exact (((htaken.setupTd (by omega) ..).setLink (by omega) _).setLink (by omega) _).setupTd
            (by omega) ..
        · simp only [allocTd_of_full h3]
          rw [if_pos (Or.inr ⟨by omega, hlength⟩)]
          exact ⟨hkeeps, hel, by omega⟩
      · next hlength =>
        have hused' : (if s.tdUsed = 63 ∨ s.tdUsed = 62 ∧ 0 < length then maxTds else s.tdUsed)
            = s.tdUsed := if_neg fun h => h.elim (by omega) fun h => hlength h.2
        rw [hused']
        exact runChain_spec ((hkeeps.setLink (Nat.le_refl _) _).setupTd (by omega) ..)
    · have halloc' := allocTd_of_full (s := { s with tdUsed := s.tdUsed + 1 }) h2
      have h63 : s.tdUsed = 63 := by omega
      simp only [halloc, halloc']
      rw [if_pos (Or.inl h63)]
      exact ⟨(Keeps.refl _ _).of_pool rfl rfl rfl, trivial, by omega⟩
  · have halloc := allocTd_of_full h1
    simp only [halloc]
    rw [if_neg (by omega)]
    exact ⟨Keeps.refl _ _, trivial, rfl⟩

/-- **A bulk transfer** gives its TDs back on every exit. -/
theorem usbBulkBot_spec (devAddr epOut epIn : UInt8) (cbw : UInt32) (cbwLen : UInt16)
    (data dataLen : UInt32) (dir : Bool) (csw : UInt32) (cswLen : UInt16) (hw : Hw) (s : Uhci) :
    Keeps s.tdUsed s
        (s.usbBulkBot devAddr epOut epIn cbw cbwLen data dataLen dir csw cswLen hw).2 ∧
      (s.usbBulkBot devAddr epOut epIn cbw cbwLen data dataLen dir csw cswLen hw).2.elLink =
        s.elLink ∧
      (s.usbBulkBot devAddr epOut epIn cbw cbwLen data dataLen dir csw cswLen hw).2.tdUsed =
        s.tdUsed := by
  unfold usbBulkBot
  rcases Nat.lt_or_ge s.tdUsed maxTds with h1 | h1
  · have halloc := allocTd_of_lt h1
    rcases Nat.lt_or_ge (s.tdUsed + 1) maxTds with h2 | h2
    · have halloc' := allocTd_of_lt (s := { s with tdUsed := s.tdUsed + 1 }) h2
      simp only [halloc, halloc']
      generalize hsetup : Uhci.setupTd s.tdUsed .zero 0
        (token devAddr epOut 0 (cbwLen.toUInt32 - 1) tdTokenPidOut) (.addr cbw)
        { s with tdUsed := s.tdUsed + 1 + 1 } = s'
      have hkeeps : Keeps s.tdUsed s s' := by
        have htaken := (Keeps.refl s.tdUsed s).of_pool
          (u := { s with tdUsed := s.tdUsed + 1 + 1 }) rfl rfl rfl
        exact hsetup ▸ htaken.setupTd (Nat.le_refl _) ..
      have hused : s'.tdUsed = s.tdUsed + 2 := hsetup ▸ rfl
      have hel : s'.elLink = s.elLink := hsetup ▸ rfl
      split
      · rcases Nat.lt_or_ge s'.tdUsed maxTds with h3 | h3
        · have htaken := hkeeps.of_pool (u := { s' with tdUsed := s'.tdUsed + 1 }) rfl rfl rfl
          simp only [allocTd_of_lt h3]
          refine runChain_spec ?_
          exact (((htaken.setupTd (by omega) ..).setupTd (by omega) ..).setLink (by omega) _).setLink
            (by omega) _
        · simp only [allocTd_of_full h3]
          exact ⟨hkeeps.of_pool rfl rfl rfl, hel, trivial⟩
      · exact runChain_spec ((hkeeps.setupTd (by omega) ..).setLink (by omega) _)
    · have halloc' := allocTd_of_full (s := { s with tdUsed := s.tdUsed + 1 }) h2
      simp only [halloc, halloc']
      exact ⟨Keeps.refl _ _, trivial, trivial⟩
  · have halloc := allocTd_of_full h1
    simp only [halloc]
    exact ⟨Keeps.refl _ _, trivial, trivial⟩

end Uhci

namespace Transfer

theorem run_spec (t : Transfer) (hw : Hw) {s : Uhci} (hs : s.tdUsed ≤ maxTds) :
    Uhci.Keeps s.tdUsed s (t.run hw s).2 ∧ (t.run hw s).2.elLink = s.elLink ∧
      ((t.Leaks s.tdUsed ∧ s.tdUsed < maxTds ∧ (t.run hw s).2.tdUsed = maxTds) ∨
        (¬ t.Leaks s.tdUsed ∧ (t.run hw s).2.tdUsed = s.tdUsed)) := by
  cases t with
  | control devAddr reqType request value index data length =>
    obtain ⟨hkeeps, hel, hused⟩ :=
      Uhci.controlTransfer_spec devAddr reqType request value index data length hw hs
    refine ⟨hkeeps, hel, ?_⟩
    by_cases h : s.tdUsed = 63 ∨ s.tdUsed = 62 ∧ 0 < length
    · rw [if_pos h] at hused
      have hmax : maxTds = 64 := rfl
      exact Or.inl ⟨h, by omega, hused⟩
    · rw [if_neg h] at hused
      exact Or.inr ⟨h, hused⟩
  | bulk devAddr epOut epIn cbw cbwLen data dataLen dir csw cswLen =>
    obtain ⟨hkeeps, hel, hused⟩ :=
      Uhci.usbBulkBot_spec devAddr epOut epIn cbw cbwLen data dataLen dir csw cswLen hw s
    exact ⟨hkeeps, hel, Or.inr ⟨id, hused⟩⟩

/-- With three TDs left nothing is kept. -/
theorem run_restores (t : Transfer) (hw : Hw) {s : Uhci} (hroom : s.tdUsed + 3 ≤ maxTds) :
    (t.run hw s).2.tdUsed = s.tdUsed ∧ (t.run hw s).2.elLink = s.elLink := by
  have hmax : maxTds = 64 := rfl
  have hs : s.tdUsed ≤ maxTds := by omega
  obtain ⟨-, hel, ⟨hleaks, -⟩ | ⟨-, hused⟩⟩ := t.run_spec hw hs
  · cases t with
    | control => exact absurd hleaks (by unfold Leaks; omega)
    | bulk => exact absurd hleaks id
  · exact ⟨hused, hel⟩

/-- Transfers one after the other, with what the hardware does during each. -/
def runAll (ts : List (Transfer × Hw)) (s : Uhci) : Uhci :=
  ts.foldl (fun s t => (t.1.run t.2 s).2) s

end Transfer

/-- **Descriptor accounting.** A transfer returns with the pool and the queue head as they were
unless it is a control transfer that finds one TD left, or two and has a data stage. So with three
TDs left no number of transfers, failed or not, takes any from the pool. -/
theorem transfer_restores_iff (t : Transfer) (hw : Hw) (s : Uhci) (hs : s.tdUsed ≤ maxTds) :
    ((t.run hw s).2.tdUsed = s.tdUsed ∧ (t.run hw s).2.elLink = s.elLink ↔
      ¬ t.Leaks s.tdUsed) ∧
    ∀ ts : List (Transfer × Hw), s.tdUsed + 3 ≤ maxTds →
      (Transfer.runAll ts s).tdUsed = s.tdUsed ∧ (Transfer.runAll ts s).elLink = s.elLink := by
  constructor
  · obtain ⟨-, hel, ⟨hleaks, hlt, hused⟩ | ⟨hkept, hused⟩⟩ := t.run_spec hw hs
    · exact iff_of_false (fun h => by omega) (not_not.mpr hleaks)
    · exact iff_of_true ⟨hused, hel⟩ hkept
  · intro ts hroom
    unfold Transfer.runAll
    induction ts generalizing s with
    | nil => exact ⟨rfl, rfl⟩
    | cons t ts ih =>
      obtain ⟨u, hw⟩ := t
      obtain ⟨hused, hel⟩ := Transfer.run_restores u hw hroom
      have hs' : (u.run hw s).2.tdUsed ≤ maxTds := by omega
      obtain ⟨hused', hel'⟩ := ih (u.run hw s).2 hs' (by omega)
      exact ⟨hused'.trans hused, hel'.trans hel⟩

/-- The first transfer after boot: the device descriptor is asked for, and no answer comes. -/
theorem transfer_restores_descriptor :
    ((Transfer.control 0 0x80 0x06 0x100 0 0x7000 8).run
        ⟨fun _ => tdCtrlActive, fun _ => tdCtrlActive, true⟩ (Uhci.boot default default)).2.tdUsed = 0 ∧
      ((Transfer.control 0 0x80 0x06 0x100 0 0x7000 8).run
        ⟨fun _ => tdCtrlActive, fun _ => tdCtrlActive, true⟩
        (Uhci.boot default default)).2.elLink = .terminate := by
  obtain ⟨hiff, -⟩ := transfer_restores_iff (.control 0 0x80 0x06 0x100 0 0x7000 8)
    ⟨fun _ => tdCtrlActive, fun _ => tdCtrlActive, true⟩ (Uhci.boot default default) (by decide)
  exact hiff.mpr (by unfold Transfer.Leaks; decide)

/-- With one TD left the transfer fails, and the pool is exhausted. -/
theorem last_descriptor_lost :
    ¬ ((Transfer.control 0 0x80 0x06 0x100 0 0x7000 8).run
      ⟨fun _ => tdCtrlActive, fun _ => tdCtrlActive, true⟩
      { Uhci.boot default default with tdUsed := 63 }).2.tdUsed = 63 := by
  decide

end HaoSys.Driver
