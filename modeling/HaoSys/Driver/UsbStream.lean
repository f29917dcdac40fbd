import HaoSys.Driver.UsbSchedule

/-!
# The data toggle of the keyboard (`driver/usb_controller.c`, `driver/usb_hid.c`)

A device advances its toggle when a report is delivered. The driver flips the
toggle of an entry whenever it submits its transfer again: from the callback, and
from `usb_poll` where the transfer failed. So the two agree as long as the number
of failures is even.

`Listening` is the invariant of the keyboard's entry: `Listening.step`. Whatever
else is submitted leaves the entry alone: `Untouched`.
-/

namespace HaoSys.Driver

/-- `usb_control_transfer`. -/
def Uhci.usbControlTransfer (hc : Bool) (devAddr reqType request : UInt8) (value index : UInt16)
    (data : UInt32) (length : UInt16) (hw : Hw) (s : Uhci) : Bool × Uhci :=
  s.submitUrb hc ⟨.control, devAddr, 0, if reqType &&& 0x80 ≠ 0 then 1 else 0, length, data, none,
    reqType, request, value, index⟩ hw

namespace UsbWorld

/-- `usb_keyboard_init` from where it has found a keyboard. The endpoint's address byte, the number
of the interface and the configuration value are those of its descriptors. -/
def usbKeyboardInit (addr epAddress iface config : UInt8) (hw : Nat → Hw) (w : UsbWorld) :
    UsbWorld :=
  let kb := { w.kb with present := true, hc := true, addr, ep := epAddress &&& 0x0F }
  let uhci := w.uhci
  let uhci := (uhci.usbControlTransfer kb.hc addr 0x00 0x09 config.toUInt16 0 0 0 (hw 0)).2
  let uhci := (uhci.usbControlTransfer kb.hc addr 0x21 0x0B 0 iface.toUInt16 0 0 (hw 1)).2
  let uhci := (uhci.usbControlTransfer kb.hc addr 0x21 0x0A 0 iface.toUInt16 0 0 (hw 2)).2
  let (ok, uhci) := uhci.submitUrb kb.hc kb.urb (hw 3)
  { w with uhci, kb := if ok then kb else { kb with present := false } }

/-- A state of a run from boot. -/
def Reached (w : UsbWorld) : Prop :=
  ∃ tdPool intUrbs mem kbReport reportBuf console es,
    w = (boot tdPool intUrbs mem kbReport reportBuf console).run es

/-- Bit 19 of a token. -/
def toggleBit (token : UInt32) : Bool := token.toBitVec.getLsbD 19

/-- The toggle of the transfer that entry `i` has submitted. -/
def nextToggle (i : Nat) (w : UsbWorld) : Bool :=
  toggleBit (w.uhci.tdPool (w.uhci.intUrbs i).td).token

/-- The status word of entry `i` where a poll finds its transfer finished. -/
def completed (i : Nat) (w : UsbWorld) : UsbEvent → Option UInt32
  | .poll hw =>
    let w := w.pollFrom hw i 0
    if (w.uhci.intUrbs i).active ∧ w.status i &&& tdCtrlActive = 0 then some (w.status i) else none
  | _ => none

def completions (i : Nat) (w : UsbWorld) : List UsbEvent → List UInt32
  | [] => []
  | e :: es => (w.completed i e).toList ++ completions i (w.step e) es

/-- The device: it advances its toggle once for each report that is delivered. -/
def deviceToggle (words : List UInt32) : Bool :=
  words.foldl (fun toggle status => if status &&& pollErrors = 0 then !toggle else toggle) false

def failures (words : List UInt32) : Nat := words.countP fun status => status &&& pollErrors ≠ 0

end UsbWorld

/-! ## The entry is left alone -/

namespace Uhci

/-- Entry `i`, the token of its TD and the endpoints of the entries before it are kept. -/
structure Untouched (i : Nat) (s t : Uhci) : Prop where
  count : s.intUrbCount ≤ t.intUrbCount
  entry : t.intUrbs i = s.intUrbs i
  token : (t.tdPool (s.intUrbs i).td).token = (s.tdPool (s.intUrbs i).td).token
  before : ∀ j < i, (t.intUrbs j).urb.devAddr = (s.intUrbs j).urb.devAddr ∧
    (t.intUrbs j).urb.endpoint = (s.intUrbs j).urb.endpoint

namespace Untouched

variable {i : Nat} {s t u : Uhci}

theorem refl (i : Nat) (s : Uhci) : Untouched i s s :=
  ⟨Nat.le_refl _, rfl, rfl, fun _ _ => ⟨rfl, rfl⟩⟩

theorem trans (h : Untouched i s t) (h' : Untouched i t u) : Untouched i s u := by
  refine ⟨Nat.le_trans h.count h'.count, h'.entry.trans h.entry, ?_, fun j hj => ?_⟩
  · have htoken := h'.token
    rw [h.entry] at htoken
    exact htoken.trans h.token
  · obtain ⟨hdev, hep⟩ := h.before j hj
    obtain ⟨hdev', hep'⟩ := h'.before j hj
    exact ⟨hdev'.trans hdev, hep'.trans hep⟩

/-- Another entry is changed, but for its endpoint. -/
theorem setIntUrb {j : Nat} (hji : j ≠ i) {iu : IntUrb}
    (hdev : iu.urb.devAddr = (s.intUrbs j).urb.devAddr)
    (hep : iu.urb.endpoint = (s.intUrbs j).urb.endpoint) :
    Untouched i s { s with intUrbs := Function.update s.intUrbs j iu } := by
  refine ⟨Nat.le_refl _, Function.update_of_ne hji.symm _ _, rfl, fun k _ => ?_⟩
  by_cases hkj : k = j
  · rw [hkj]
    simp only [Function.update_self]
    exact ⟨hdev, hep⟩
  · simp only [Function.update_of_ne hkj, and_self]

/-- Another TD is written. -/
theorem setTd {td : Nat} (htd : td ≠ (s.intUrbs i).td) (x : Td) (el : Link) :
    Untouched i s { s with tdPool := Function.update s.tdPool td x, elLink := el } :=
  ⟨Nat.le_refl _, rfl, by simp only [Function.update_of_ne htd.symm], fun _ _ => ⟨rfl, rfl⟩⟩

theorem of_keeps (h : s.Separate) (hi : i < s.intUrbCount) (hkeeps : Keeps s.tdUsed s t) :
    Untouched i s t := by
  refine ⟨Nat.le_of_eq hkeeps.intUrbCount.symm, by rw [hkeeps.intUrbs],
    (hkeeps.tds _ (h.used i hi)).2.1, fun j _ => ?_⟩
  rw [hkeeps.intUrbs]
  exact ⟨rfl, rfl⟩

/-- An entry that is active is not used again, and no other one has its TD. -/
theorem interruptTransfer (h : s.Separate) (hi : i < s.intUrbCount)
    (hactive : (s.intUrbs i).active = true) (hc : Bool) (devAddr ep : UInt8) (buffer : UInt32)
    (len : UInt16) (callback : Option Callback) (page : Bool) :
    Untouched i s (s.interruptTransfer hc devAddr ep buffer len callback page).2 := by
  have hfree : s.tdUsed ≠ (s.intUrbs i).td := (Nat.ne_of_lt (h.used i hi)).symm
  rcases s.interruptTransfer_cases hc devAddr ep buffer len callback page with
    ⟨k, hk, heq⟩ | ⟨-, -, -, -, heq⟩ | ⟨-, heq⟩ | ⟨-, -, -, -, heq⟩ <;> rw [heq]
  · obtain ⟨hlt, hstopped, -⟩ := reusable_some hk
    have hki : k ≠ i := by
      rintro rfl
      rw [hstopped] at hactive
      exact Bool.noConfusion hactive
    have htd : (s.intUrbs k).td ≠ (s.intUrbs i).td := fun heq => hki (h.apart k hlt i hi heq)
    have hwritten := setTd htd (armedTd (again buffer len callback (s.intUrbs k)))
      (.td (s.intUrbs k).td)
    exact hwritten.trans (setIntUrb hki rfl rfl)
  · have hwritten := setTd hfree (armedTd (first hc devAddr ep buffer len callback s.tdUsed))
      (.td s.tdUsed)
    refine hwritten.trans ⟨Nat.le_succ _, ?_, rfl, fun j hj => ?_⟩
    · exact Function.update_of_ne (Nat.ne_of_lt hi) _ _
    · have hne : j ≠ s.intUrbCount := by omega
      simp only [armed, Function.update_of_ne hne, and_self]
  · exact refl i s
  · exact setTd hfree _ _

theorem submitUrb (h : s.Separate) (hi : i < s.intUrbCount)
    (hactive : (s.intUrbs i).active = true) (hc : Bool) (urb : Urb) (hw : Hw) :
    Untouched i s (s.submitUrb hc urb hw).2 := by
  unfold Uhci.submitUrb
  split
  · exact refl i s
  · cases urb.type with
    | control =>
      obtain ⟨hkeeps, -, -⟩ := Transfer.run_spec
        (.control urb.devAddr urb.reqType urb.request urb.value urb.index urb.buffer urb.length)
        hw h.pool
      exact of_keeps h hi hkeeps
    | interrupt => exact interruptTransfer h hi hactive _ _ _ _ _ _ _
    | bulk => exact refl i s
    | iso => exact refl i s

end Untouched

end Uhci

/-! ## The keyboard's variables -/

/-- The keyboard is on the same endpoint. -/
structure UsbKeyboard.SamePort (kb kb' : UsbKeyboard) : Prop where
  present : kb'.present = kb.present
  hc : kb'.hc = kb.hc
  addr : kb'.addr = kb.addr
  ep : kb'.ep = kb.ep

namespace UsbKeyboard.SamePort

variable {kb kb' kb'' : UsbKeyboard}

theorem refl (kb : UsbKeyboard) : SamePort kb kb := ⟨rfl, rfl, rfl, rfl⟩

theorem trans (h : SamePort kb kb') (h' : SamePort kb' kb'') : SamePort kb kb'' :=
  ⟨h'.present.trans h.present, h'.hc.trans h.hc, h'.addr.trans h.addr, h'.ep.trans h.ep⟩

theorem push (c : UInt8) (kb : UsbKeyboard) : SamePort kb (kb.push c) := by
  unfold UsbKeyboard.push
  simp only
  split
  · exact ⟨rfl, rfl, rfl, rfl⟩
  · exact refl kb

/-- A report changes no variable of the endpoint. -/
theorem takeReport (r : List UInt8) (kb : UsbKeyboard) : SamePort kb (kb.takeReport r) := by
  have hkeys : ∀ (keys : List UInt8) (shift : Bool) (kb : UsbKeyboard), SamePort kb
      (keys.foldl (fun kb k =>
        if k ≠ 0 ∧ !hasKey kb.prev k then
          let c := map k shift
          if c ≠ 0 then kb.push c else kb
        else kb) kb) := by
    intro keys shift
    induction keys with
    | nil => exact refl
    | cons k keys ih =>
      intro kb
      refine trans ?_ (ih _)
      simp only
      split
      · split
        · exact push _ kb
        · exact refl kb
      · exact refl kb
  unfold UsbKeyboard.takeReport
  simp only
  split
  · obtain ⟨hpresent, hhc, haddr, hep⟩ := hkeys (r.drop 2)
      (decide (r.getD 0 0 &&& 0x02 ≠ 0 ∨ r.getD 0 0 &&& 0x20 ≠ 0)) kb
    exact ⟨hpresent, hhc, haddr, hep⟩
  · exact ⟨rfl, rfl, rfl, rfl⟩

end UsbKeyboard.SamePort

namespace UsbWorld

open UsbKeyboard (SamePort)

theorem samePort_pollEntry (hw : Hw) (j : Nat) (w : UsbWorld) :
    SamePort w.kb (w.pollEntry hw j).kb := by
  unfold pollEntry
  simp only
  split
  · exact SamePort.refl _
  · split
    · exact SamePort.refl _
    · split
      · split
        · exact SamePort.refl _
        · next callback _ =>
          cases callback with
          | keyboard =>
            simp only [runCallback, usbKbCallback]
            split
            · exact SamePort.takeReport _ w.kb
            · exact SamePort.takeReport _ w.kb
          | mouse =>
            simp only [runCallback, usbMouseUrbCallback]
            split
            · exact SamePort.refl _
            · split
              · split
                · exact SamePort.refl _
                · exact SamePort.refl _
              · exact SamePort.refl _
      · exact SamePort.refl _

end UsbWorld

/-! ## Submissions -/

namespace Uhci

/-- The first entry of an endpoint, stopped, is the one that a submission uses. -/
theorem submitUrb_stopped {s : Uhci} {i : Nat} (hi : i < s.intUrbCount)
    (hstopped : (s.intUrbs i).active = false) {urb : Urb} (htype : urb.type = .interrupt)
    (hdev : (s.intUrbs i).urb.devAddr = urb.devAddr)
    (hep : (s.intUrbs i).urb.endpoint = urb.endpoint)
    (hfirst : ∀ j < i, ¬ ((s.intUrbs j).urb.devAddr = urb.devAddr ∧
      (s.intUrbs j).urb.endpoint = urb.endpoint)) (hw : Hw) :
    s.submitUrb true urb hw =
      (true, s.armed i (again urb.buffer urb.length urb.callback (s.intUrbs i))) := by
  have hreuse : s.reusable urb.devAddr urb.endpoint = some i := by
    refine List.find?_range_eq_some.mpr ⟨by simp [hstopped, hdev, hep], List.mem_range.mpr hi, ?_⟩
    intro j hj
    simp only [Bool.and_assoc, Bool.not_and, Bool.or_eq_true, Bool.not_eq_true', Bool.not_not]
    by_cases hother : (s.intUrbs j).urb.devAddr = urb.devAddr
    · exact Or.inr (Or.inr (beq_eq_false_iff_ne.mpr fun heq => hfirst j hj ⟨hother, heq⟩))
    · exact Or.inr (Or.inl (beq_eq_false_iff_ne.mpr hother))
  unfold submitUrb
  simp only [Bool.not_true, Bool.false_eq_true, ↓reduceIte, htype]
  rcases s.interruptTransfer_cases true urb.devAddr urb.endpoint urb.buffer urb.length urb.callback
    hw.page with ⟨k, hk, heq⟩ | ⟨hnone, -⟩ | ⟨hunfit, -⟩ | ⟨hnone, -⟩
  · rw [hreuse] at hk
    rw [heq, Option.some.inj hk]
  · exact absurd (hreuse.symm.trans hnone) (Option.some_ne_none i)
  · exact absurd (Or.inl (by rw [hreuse]; exact Option.some_ne_none i)) hunfit
  · exact absurd (hreuse.symm.trans hnone) (Option.some_ne_none i)

theorem usbControlTransfer_spec {s : Uhci} (h : s.Separate) (hc : Bool)
    (devAddr reqType request : UInt8) (value index : UInt16) (data : UInt32) (length : UInt16)
    (hw : Hw) :
    (s.usbControlTransfer hc devAddr reqType request value index data length hw).2.intUrbs =
        s.intUrbs ∧
      (s.usbControlTransfer hc devAddr reqType request value index data length hw).2.intUrbCount =
        s.intUrbCount ∧
      (s.usbControlTransfer hc devAddr reqType request value index data length hw).2.Separate := by
  refine and_assoc.mp ⟨?_, h.submitUrb hc _ hw⟩
  unfold usbControlTransfer submitUrb
  split
  · exact ⟨rfl, rfl⟩
  · obtain ⟨hkeeps, -, -⟩ := Transfer.run_spec
      (.control devAddr reqType request value index data length) hw h.pool
    exact ⟨hkeeps.intUrbs, hkeeps.intUrbCount⟩

/-- A submission for a new endpoint, where it succeeds. -/
theorem submitUrb_first {s : Uhci} {urb : Urb} (htype : urb.type = .interrupt)
    (hnew : ∀ j < s.intUrbCount, ¬ ((s.intUrbs j).urb.devAddr = urb.devAddr ∧
      (s.intUrbs j).urb.endpoint = urb.endpoint)) {hw : Hw}
    (hok : (s.submitUrb true urb hw).1 = true) :
    (s.submitUrb true urb hw).2 =
      { s.armed s.intUrbCount (first true urb.devAddr urb.endpoint urb.buffer urb.length
          urb.callback s.tdUsed) with
        tdUsed := s.tdUsed + 1, intUrbCount := s.intUrbCount + 1 } := by
  unfold submitUrb at hok ⊢
  simp only [Bool.not_true, Bool.false_eq_true, ↓reduceIte, htype] at hok ⊢
  rcases s.interruptTransfer_cases true urb.devAddr urb.endpoint urb.buffer urb.length urb.callback
    hw.page with ⟨k, hk, -⟩ | ⟨-, -, -, -, heq⟩ | ⟨-, heq⟩ | ⟨-, -, -, -, heq⟩
  · obtain ⟨hlt, -, hdev, hep⟩ := reusable_some hk
    exact absurd ⟨hdev, hep⟩ (hnew k hlt)
  · rw [heq]
  · rw [heq] at hok
    exact Bool.noConfusion hok
  · rw [heq] at hok
    exact Bool.noConfusion hok

theorem toggleBit_token {devAddr ep : UInt8} (hep : ep < 16) (toggle : Bool) (field : UInt32) :
    UsbWorld.toggleBit (token devAddr ep (if toggle then 1 else 0) field tdTokenPidIn) = toggle := by
  have hdev : (devAddr.toUInt32 <<< 8).toBitVec.getLsbD 19 = false := by simp
  have hep' : (ep.toUInt32 <<< 15).toBitVec.getLsbD 19 = false := by
    have hlt : ep.toNat < 2 ^ 4 := UInt8.lt_iff_toNat_lt.mp hep
    have hbit : ep.toBitVec.getLsbD 4 = false := Nat.testBit_lt_two_pow hlt
    simpa using hbit
  have hfield : (field <<< 21).toBitVec.getLsbD 19 = false := by simp
  unfold UsbWorld.toggleBit token
  simp only [UInt32.toBitVec_or, BitVec.getLsbD_or, hdev, hep', hfield]
  cases toggle <;> decide

end Uhci

/-! ## One turn -/

namespace UsbWorld

open Uhci
open UsbKeyboard (SamePort)

/-- A finished entry that is handed to its callback. -/
def reported (status : UInt32) (iu : IntUrb) : IntUrb :=
  { iu with active := false, urb := { iu.urb with length := pollLength status } }

theorem stopped_reported (status : UInt32) (iu : IntUrb) : Stopped iu (reported status iu) :=
  ⟨rfl, rfl, rfl, rfl, rfl⟩

theorem pollEntry_waiting {w : UsbWorld} {i : Nat}
    (h : ¬ ((w.uhci.intUrbs i).active = true ∧ w.status i &&& tdCtrlActive = 0)) (hw : Hw) :
    w.pollEntry hw i = w := by
  unfold pollEntry
  simp only
  split
  · rfl
  · next hactive => exact if_pos fun hstatus => h ⟨by simpa using hactive, hstatus⟩

theorem pollEntry_reported {w : UsbWorld} {i : Nat} (hactive : (w.uhci.intUrbs i).active = true)
    (hstatus : w.status i &&& tdCtrlActive = 0) (herrors : w.status i &&& pollErrors = 0)
    {callback : Callback} (hcallback : (w.uhci.intUrbs i).urb.callback = some callback) (hw : Hw) :
    w.pollEntry hw i = runCallback callback (reported (w.status i) (w.uhci.intUrbs i)).urb hw
      (w.setIntUrb i (reported (w.status i) (w.uhci.intUrbs i))) := by
  unfold pollEntry
  simp only [hactive, hstatus, herrors, hcallback, setIntUrb_setIntUrb, reported, Bool.not_true,
    Bool.false_eq_true, ne_eq, not_true_eq_false, ↓reduceIte]

theorem pollEntry_failed {w : UsbWorld} {i : Nat} (hactive : (w.uhci.intUrbs i).active = true)
    (hstatus : w.status i &&& tdCtrlActive = 0) (herrors : w.status i &&& pollErrors ≠ 0) (hw : Hw) :
    w.pollEntry hw i =
      { w with uhci := ((w.setIntUrb i { w.uhci.intUrbs i with active := false }).uhci.submitUrb
          (w.uhci.intUrbs i).hc (resubmitted (w.uhci.intUrbs i).urb) hw).2 } := by
  unfold pollEntry
  simp only [hactive, hstatus, herrors, Bool.not_true, Bool.false_eq_true, ne_eq,
    not_true_eq_false, ↓reduceIte]
  rfl

/-- **What a turn does**: it hands a report on, or only the controller changes. -/
theorem pollEntry_cases (hw : Hw) (i : Nat) (w : UsbWorld) :
    (∃ callback, (w.uhci.intUrbs i).active = true ∧ w.status i &&& tdCtrlActive = 0 ∧
      w.status i &&& pollErrors = 0 ∧ (w.uhci.intUrbs i).urb.callback = some callback ∧
      w.pollEntry hw i = runCallback callback (reported (w.status i) (w.uhci.intUrbs i)).urb hw
        (w.setIntUrb i (reported (w.status i) (w.uhci.intUrbs i)))) ∨
      ∃ uhci, w.pollEntry hw i = { w with uhci } := by
  by_cases hfinished : (w.uhci.intUrbs i).active = true ∧ w.status i &&& tdCtrlActive = 0
  · obtain ⟨hactive, hstatus⟩ := hfinished
    by_cases herrors : w.status i &&& pollErrors = 0
    · cases hcallback : (w.uhci.intUrbs i).urb.callback with
      | none =>
        refine .inr ⟨(w.setIntUrb i { w.uhci.intUrbs i with active := false }).uhci, ?_⟩
        unfold pollEntry
        simp only [hactive, hstatus, herrors, hcallback, Bool.not_true, Bool.false_eq_true, ne_eq,
          not_true_eq_false, ↓reduceIte]
        rfl
      | some callback =>
        exact .inl ⟨callback, hactive, hstatus, herrors, rfl,
          pollEntry_reported hactive hstatus herrors hcallback hw⟩
    · exact .inr ⟨_, pollEntry_failed hactive hstatus herrors hw⟩
  · exact .inr ⟨w.uhci, pollEntry_waiting hfinished hw⟩

/-- The callback of a keyboard that is connected: it submits its transfer. -/
theorem usbKbCallback_connected {w : UsbWorld} (hpresent : w.kb.present = true)
    (hhc : w.kb.hc = true) (urb : Urb) (hw : Hw) :
    ∃ kb, SamePort w.kb kb ∧
      w.usbKbCallback urb hw = { w with kb, uhci := (w.uhci.submitUrb true kb.urb hw).2 } := by
  have hport := SamePort.takeReport (w.bytes urb.buffer 8) w.kb
  refine ⟨w.kb.takeReport (w.bytes urb.buffer 8), hport, ?_⟩
  unfold usbKbCallback
  simp only [hport.present, hport.hc, hpresent, hhc, and_self, ↓reduceIte]

/-- Entry `i` is the keyboard's, and the first of its endpoint: its transfer is submitted, with
this toggle. -/
structure Listening (i : Nat) (toggle : Bool) (w : UsbWorld) : Prop where
  separate : w.uhci.Separate
  lt : i < w.uhci.intUrbCount
  active : (w.uhci.intUrbs i).active = true
  hc : (w.uhci.intUrbs i).hc = true
  callback : (w.uhci.intUrbs i).urb.callback = some .keyboard
  devAddr : (w.uhci.intUrbs i).urb.devAddr = w.kb.addr
  endpoint : (w.uhci.intUrbs i).urb.endpoint = w.kb.ep
  first : ∀ j < i, ¬ ((w.uhci.intUrbs j).urb.devAddr = w.kb.addr ∧
    (w.uhci.intUrbs j).urb.endpoint = w.kb.ep)
  present : w.kb.present = true
  kbHc : w.kb.hc = true
  ep : w.kb.ep < 16
  dt : (w.uhci.intUrbs i).dt = toggle
  token : w.nextToggle i = toggle

namespace Listening

variable {i : Nat} {toggle : Bool} {w v : UsbWorld}

/-- The entry is left alone. -/
theorem of_untouched (h : Listening i toggle w) (hu : Untouched i w.uhci v.uhci)
    (hseparate : v.uhci.Separate) (hkb : SamePort w.kb v.kb) : Listening i toggle v := by
  obtain ⟨hpresent, hhc, haddr, hep⟩ := hkb
  have htoken := h.token
  unfold nextToggle at htoken
  constructor
  case separate => exact hseparate
  case lt => exact Nat.lt_of_lt_of_le h.lt hu.count
  case active => rw [hu.entry, h.active]
  case hc => rw [hu.entry, h.hc]
  case callback => rw [hu.entry, h.callback]
  case devAddr => rw [hu.entry, haddr, h.devAddr]
  case endpoint => rw [hu.entry, hep, h.endpoint]
  case first =>
    intro j hj
    obtain ⟨hdev, hend⟩ := hu.before j hj
    rw [haddr, hep, hdev, hend]
    exact h.first j hj
  case present => rw [hpresent, h.present]
  case kbHc => rw [hhc, h.kbHc]
  case ep => rw [hep]; exact h.ep
  case dt => rw [hu.entry, h.dt]
  case token =>
    unfold nextToggle
    rw [hu.entry, hu.token, htoken]

/-- The turn of another entry. -/
theorem pollEntry_other (h : Listening i toggle w) (hw : Hw) {j : Nat} (hji : j ≠ i) :
    Listening i toggle (w.pollEntry hw j) := by
  refine h.of_untouched ?_ (separate_pollEntry h.separate hw j) (samePort_pollEntry hw j w)
  rcases w.pollEntry_uhci hw j with heq | ⟨-, iu, hiu, hend⟩
  · rw [heq]
    exact Untouched.refl i w.uhci
  · have hstopped : Untouched i w.uhci (w.setIntUrb j iu).uhci :=
      Untouched.setIntUrb hji hiu.devAddr hiu.endpoint
    have hseparate := separate_setIntUrb h.separate hiu
    rcases hend with heq | ⟨hc, u, heq⟩ <;> rw [heq]
    · exact hstopped
    · refine hstopped.trans (Untouched.submitUrb hseparate h.lt ?_ hc u hw)
      rw [hstopped.entry, h.active]

/-- The entry is stopped, and its transfer is submitted again. -/
theorem rearmed (h : Listening i toggle w) {iu : IntUrb} (hiu : Stopped (w.uhci.intUrbs i) iu)
    (hhc : iu.hc = true) {urb : Urb} (htype : urb.type = .interrupt)
    (hdev : urb.devAddr = w.kb.addr) (hep : urb.endpoint = w.kb.ep)
    (hcallback : urb.callback = some .keyboard) (hw : Hw)
    (huhci : v.uhci = ((w.setIntUrb i iu).uhci.submitUrb true urb hw).2) (hkb : SamePort w.kb v.kb) :
    Listening i (!toggle) v := by
  have hseparate := separate_setIntUrb h.separate hiu
  have hself : (w.setIntUrb i iu).uhci.intUrbs i = iu := Function.update_self ..
  have hothers : ∀ j < i, (w.setIntUrb i iu).uhci.intUrbs j = w.uhci.intUrbs j := fun j hj =>
    Function.update_of_ne (Nat.ne_of_lt hj) _ _
  have hsubmit := submitUrb_stopped (s := (w.setIntUrb i iu).uhci) h.lt (by rw [hself, hiu.active])
    htype (by rw [hself, hiu.devAddr, h.devAddr, hdev])
    (by rw [hself, hiu.endpoint, h.endpoint, hep])
    (fun j hj => by rw [hothers j hj, hdev, hep]; exact h.first j hj) hw
  have hseparate' := hseparate.submitUrb true urb hw
  rw [hsubmit, hself] at huhci hseparate'
  have hentry : v.uhci.intUrbs i = again urb.buffer urb.length urb.callback iu := by
    rw [huhci]
    exact Function.update_self ..
  obtain ⟨hpresent, hkbHc, haddr, hkbEp⟩ := hkb
  have hdt : (again urb.buffer urb.length urb.callback iu).dt = !toggle := by
    simp only [again, hiu.dt, h.dt]
  constructor
  case separate => rw [huhci]; exact hseparate'
  case lt => rw [huhci]; exact h.lt
  case active => rw [hentry]; rfl
  case hc => rw [hentry]; exact hhc
  case callback => rw [hentry]; exact hcallback
  case devAddr => rw [hentry, haddr, ← h.devAddr, ← hiu.devAddr]; rfl
  case endpoint => rw [hentry, hkbEp, ← h.endpoint, ← hiu.endpoint]; rfl
  case first =>
    intro j hj
    have hold : v.uhci.intUrbs j = w.uhci.intUrbs j := by
      rw [huhci, ← hothers j hj]
      exact Function.update_of_ne (Nat.ne_of_lt hj) _ _
    rw [haddr, hkbEp, hold]
    exact h.first j hj
  case present => rw [hpresent, h.present]
  case kbHc => rw [hkbHc, h.kbHc]
  case ep => rw [hkbEp]; exact h.ep
  case dt => rw [hentry, hdt]
  case token =>
    have htd : v.uhci.tdPool (v.uhci.intUrbs i).td =
        armedTd (again urb.buffer urb.length urb.callback iu) := by
      rw [hentry, huhci]
      exact Function.update_self ..
    have hlt : (again urb.buffer urb.length urb.callback iu).urb.endpoint < 16 := by
      change iu.urb.endpoint < 16
      rw [hiu.endpoint, h.endpoint]
      exact h.ep
    unfold nextToggle
    rw [htd, armedTd, toggleBit_token hlt, hdt]

/-- **The entry's own turn**: a transfer that is not finished is left alone. A finished one is
submitted again, after a report by the callback, after a failure by the loop. -/
theorem pollEntry_self (h : Listening i toggle w) (hw : Hw) :
    Listening i (if w.status i &&& tdCtrlActive = 0 then !toggle else toggle)
      (w.pollEntry hw i) := by
  by_cases hfinished : w.status i &&& tdCtrlActive = 0
  · rw [if_pos hfinished]
    by_cases herrors : w.status i &&& pollErrors = 0
    · have hstopped := stopped_reported (w.status i) (w.uhci.intUrbs i)
      obtain ⟨kb, hkb, heq⟩ := usbKbCallback_connected
        (w := w.setIntUrb i (reported (w.status i) (w.uhci.intUrbs i))) h.present h.kbHc
        (reported (w.status i) (w.uhci.intUrbs i)).urb hw
      rw [pollEntry_reported h.active hfinished herrors h.callback, runCallback, heq]
      exact h.rearmed hstopped h.hc rfl hkb.addr hkb.ep rfl hw rfl hkb
    · have hstopped : Stopped (w.uhci.intUrbs i) { w.uhci.intUrbs i with active := false } :=
        ⟨rfl, rfl, rfl, rfl, rfl⟩
      have hdev : (resubmitted (w.uhci.intUrbs i).urb).devAddr = w.kb.addr := h.devAddr
      rw [pollEntry_failed h.active hfinished herrors, h.hc]
      exact h.rearmed hstopped h.hc rfl hdev h.endpoint h.callback hw rfl (SamePort.refl _)
  · rw [if_neg hfinished, pollEntry_waiting fun hboth => hfinished hboth.2]
    exact h

end Listening

/-! ## Runs -/

theorem pollFrom_end {w : UsbWorld} {k : Nat} (h : w.uhci.intUrbCount ≤ k) (hw : Nat → Hw)
    (n : Nat) : w.pollFrom hw n k = w := by
  cases n with
  | zero => rfl
  | succ n => exact if_neg (by omega)

theorem pollFrom_add (hw : Nat → Hw) (a b k : Nat) (w : UsbWorld) :
    w.pollFrom hw (a + b) k = (w.pollFrom hw a k).pollFrom hw b (k + a) := by
  induction a generalizing k w with
  | zero => rw [Nat.zero_add, Nat.add_zero, pollFrom]
  | succ a ih =>
    rcases Nat.lt_or_ge k w.uhci.intUrbCount with hlt | hge
    · have hsum : a + 1 + b = a + b + 1 := by omega
      have hnext : k + (a + 1) = k + 1 + a := by omega
      rw [hsum, pollFrom, if_pos hlt, ih, pollFrom, if_pos hlt, hnext]
    · rw [pollFrom_end hge, pollFrom_end hge, pollFrom_end (by omega)]

namespace Listening

variable {i : Nat} {toggle : Bool} {w : UsbWorld}

/-- The turns of other entries. -/
theorem pollFrom_others (h : Listening i toggle w) (hw : Nat → Hw) {n k : Nat}
    (hothers : i < k ∨ k + n ≤ i) : Listening i toggle (w.pollFrom hw n k) := by
  induction n generalizing k w with
  | zero => exact h
  | succ n ih =>
    unfold pollFrom
    split
    · exact ih (h.pollEntry_other (hw k) (by omega)) (by omega)
    · exact h

/-- **One poll** flips the toggle if and only if it finds the transfer finished. -/
theorem usbPoll (h : Listening i toggle w) (hw : Nat → Hw) :
    Listening i (if (w.completed i (.poll hw)).isSome then !toggle else toggle) (w.usbPoll hw) := by
  have hbefore : Listening i toggle (w.pollFrom hw i 0) :=
    h.pollFrom_others hw (Or.inr (by omega))
  have hfour : i < 4 := Nat.lt_of_lt_of_le h.lt h.separate.count
  have hsplit : w.usbPoll hw =
      ((w.pollFrom hw i 0).pollEntry (hw i) i).pollFrom hw (3 - i) (i + 1) := by
    have hfuel : 4 = i + (3 - i + 1) := by omega
    unfold UsbWorld.usbPoll
    rw [hfuel, pollFrom_add, Nat.zero_add, pollFrom, if_pos hbefore.lt]
  have hcompleted : (w.completed i (.poll hw)).isSome = true ↔
      (w.pollFrom hw i 0).status i &&& tdCtrlActive = 0 := by
    unfold completed
    simp only [hbefore.active, true_and]
    split <;> simp [*]
  have hself := hbefore.pollEntry_self (hw i)
  rw [hsplit]
  refine Listening.pollFrom_others ?_ hw (Or.inl (Nat.lt_succ_self i))
  by_cases hfinished : (w.pollFrom hw i 0).status i &&& tdCtrlActive = 0
  · rw [if_pos hfinished] at hself
    rwa [if_pos (hcompleted.mpr hfinished)]
  · rw [if_neg hfinished] at hself
    rwa [if_neg fun hsome => hfinished (hcompleted.mp hsome)]

/-- **One event.** -/
theorem step (h : Listening i toggle w) {e : UsbEvent} (he : ∀ kb mouse, e ≠ .setup kb mouse) :
    Listening i (if (w.completed i e).isSome then !toggle else toggle) (w.step e) := by
  cases e with
  | hardware status mem =>
    have hseparate := h.separate
    exact h.of_untouched ⟨Nat.le_refl _, rfl, rfl, fun _ _ => ⟨rfl, rfl⟩⟩
      ⟨hseparate.pool, hseparate.count, hseparate.used, hseparate.apart⟩ (SamePort.refl _)
  | submit hc urb hw =>
    exact h.of_untouched (Untouched.submitUrb h.separate h.lt h.active hc urb hw)
      (h.separate.submitUrb hc urb hw) (SamePort.refl _)
  | transfer t hw =>
    obtain ⟨hkeeps, -, -⟩ := t.run_spec hw h.separate.pool
    exact h.of_untouched (Untouched.of_keeps h.separate h.lt hkeeps) (h.separate.transfer t hw)
      (SamePort.refl _)
  | poll hw => exact h.usbPoll hw
  | setup kb mouse => exact absurd rfl (he kb mouse)

/-- **Every run**: one flip for each completion. -/
theorem run (h : Listening i toggle w) {es : List UsbEvent}
    (hes : ∀ kb mouse, .setup kb mouse ∉ es) :
    Listening i ((w.completions i es).foldl (fun toggle _ => !toggle) toggle) (w.run es) := by
  induction es generalizing toggle w with
  | nil => exact h
  | cons e es ih =>
    have hstep := h.step fun kb mouse heq => hes kb mouse (heq ▸ List.mem_cons_self)
    have hrun := ih hstep fun kb mouse hmem => hes kb mouse (List.mem_cons_of_mem _ hmem)
    unfold completions
    cases hcompleted : w.completed i e with
    | none =>
      rw [hcompleted] at hrun
      exact hrun
    | some status =>
      rw [hcompleted] at hrun
      exact hrun

end Listening

theorem completions_append (i : Nat) (w : UsbWorld) (es fs : List UsbEvent) :
    w.completions i (es ++ fs) = w.completions i es ++ (w.run es).completions i fs := by
  induction es generalizing w with
  | nil => rfl
  | cons e es ih =>
    rw [List.cons_append, completions, completions, ih, List.append_assoc]
    rfl

/-- A flip for each word against a flip for each report. -/
theorem toggles_eq_iff (words : List UInt32) (host device : Bool) :
    words.foldl (fun toggle _ => !toggle) host =
        words.foldl (fun toggle status => if status &&& pollErrors = 0 then !toggle else toggle)
          device ↔
      (host = device ↔ Even (failures words)) := by
  induction words generalizing host device with
  | nil => simp [failures]
  | cons status words ih =>
    rw [List.foldl_cons, List.foldl_cons, ih]
    unfold failures
    by_cases hok : status &&& pollErrors = 0
    · rw [if_pos hok, List.countP_cons_of_neg (by simpa using hok), Bool.not_inj_iff]
    · rw [if_neg hok, List.countP_cons_of_pos (by simpa using hok), Nat.even_add_one]
      cases host <;> cases device <;> simp

/-- An event completes one transfer at most. -/
theorem failures_take_succ (i : Nat) (w : UsbWorld) (es : List UsbEvent) (n : Nat) :
    failures (w.completions i (es.take (n + 1))) ≤ failures (w.completions i (es.take n)) + 1 := by
  rw [List.take_add_one, completions_append]
  unfold failures
  rw [List.countP_append]
  refine Nat.add_le_add_left ?_ _
  cases es[n]? with
  | none => exact Nat.zero_le _
  | some e =>
    refine Nat.le_trans List.countP_le_length ?_
    simp only [Option.toList_some, completions, List.append_nil]
    cases (w.run (es.take n)).completed i e <;> simp

/-- An even number of failures after every event is none. -/
theorem even_failures_iff (i : Nat) (w : UsbWorld) (es : List UsbEvent) :
    (∀ n, Even (failures (w.completions i (es.take n)))) ↔ failures (w.completions i es) = 0 := by
  constructor
  · intro heven
    have hnone : ∀ n, failures (w.completions i (es.take n)) = 0 := by
      intro n
      induction n with
      | zero => rfl
      | succ n ih =>
        have hle := w.failures_take_succ i es n
        obtain ⟨k, hk⟩ := heven (n + 1)
        omega
    rw [← hnone es.length, List.take_length]
  · intro hnone n
    have hsplit := w.completions_append i (es.take n) (es.drop n)
    rw [List.take_append_drop] at hsplit
    unfold failures at hnone ⊢
    rw [hsplit, List.countP_append] at hnone
    rw [Nat.eq_zero_of_add_eq_zero_right hnone]
    exact Even.zero

/-! ## The keyboard is started -/

theorem Reached.separate {w : UsbWorld} (h : w.Reached) : w.uhci.Separate := by
  obtain ⟨tdPool, intUrbs, mem, kbReport, reportBuf, console, es, rfl⟩ := h
  exact separate_run (separate_boot tdPool intUrbs) es

/-- The keyboard's first submission. -/
theorem listening_first {s : Uhci} (h : s.Separate) {kb : UsbKeyboard} (hpresent : kb.present = true)
    (hhc : kb.hc = true) (hep : kb.ep < 16)
    (hnew : ∀ j < s.intUrbCount, ¬ ((s.intUrbs j).urb.devAddr = kb.addr ∧
      (s.intUrbs j).urb.endpoint = kb.ep)) {hw : Hw}
    (hok : (s.submitUrb true kb.urb hw).1 = true) {v : UsbWorld}
    (huhci : v.uhci = (s.submitUrb true kb.urb hw).2) (hkb : v.kb = kb) :
    Listening s.intUrbCount false v := by
  have hseparate := h.submitUrb true kb.urb hw
  rw [submitUrb_first rfl hnew hok] at huhci hseparate
  have hentry : v.uhci.intUrbs s.intUrbCount =
      first true kb.addr kb.ep kb.report 8 (some .keyboard) s.tdUsed := by
    rw [huhci]
    exact Function.update_self ..
  constructor
  case separate => rw [huhci]; exact hseparate
  case lt => rw [huhci]; exact Nat.lt_succ_self _
  case active => rw [hentry]; rfl
  case hc => rw [hentry]; rfl
  case callback => rw [hentry]; rfl
  case devAddr => rw [hentry, hkb]; rfl
  case endpoint => rw [hentry, hkb]; rfl
  case first =>
    intro j hj
    have hold : v.uhci.intUrbs j = s.intUrbs j := by
      rw [huhci]
      exact Function.update_of_ne (Nat.ne_of_lt hj) _ _
    rw [hold, hkb]
    exact hnew j hj
  case present => rw [hkb, hpresent]
  case kbHc => rw [hkb, hhc]
  case ep => rw [hkb]; exact hep
  case dt => rw [hentry]; rfl
  case token =>
    have htd : v.uhci.tdPool (v.uhci.intUrbs s.intUrbCount).td =
        armedTd (first true kb.addr kb.ep kb.report 8 (some .keyboard) s.tdUsed) := by
      rw [hentry, huhci]
      exact Function.update_self ..
    unfold nextToggle
    rw [htd]
    exact toggleBit_token hep false _

theorem listening_init {w : UsbWorld} (h : w.uhci.Separate) (addr epAddress iface config : UInt8)
    (hw : Nat → Hw)
    (hnew : ∀ j < w.uhci.intUrbCount, ¬ ((w.uhci.intUrbs j).urb.devAddr = addr ∧
      (w.uhci.intUrbs j).urb.endpoint = epAddress &&& 0x0F))
    (hstarted : (w.usbKeyboardInit addr epAddress iface config hw).kb.present = true) :
    Listening w.uhci.intUrbCount false (w.usbKeyboardInit addr epAddress iface config hw) := by
  obtain ⟨hurbs, hcount, hseparate⟩ :=
    usbControlTransfer_spec h true addr 0x00 0x09 config.toUInt16 0 0 0 (hw 0)
  obtain ⟨hurbs', hcount', hseparate'⟩ :=
    usbControlTransfer_spec hseparate true addr 0x21 0x0B 0 iface.toUInt16 0 0 (hw 1)
  obtain ⟨hurbs'', hcount'', hseparate''⟩ :=
    usbControlTransfer_spec hseparate' true addr 0x21 0x0A 0 iface.toUInt16 0 0 (hw 2)
  rw [hurbs', hurbs] at hurbs''
  rw [hcount', hcount] at hcount''
  have hmask : epAddress &&& 0x0F < 16 :=
    UInt8.lt_of_le_of_lt UInt8.and_le_right (b := 0x0F) (by decide)
  unfold usbKeyboardInit at hstarted ⊢
  simp only at hstarted ⊢
  generalize (Uhci.usbControlTransfer true addr 0x21 0x0A 0 iface.toUInt16 0 0 (hw 2) _).2 = s at *
  split at hstarted
  · next hok =>
    rw [← hcount'']
    refine listening_first hseparate'' rfl rfl hmask ?_ hok rfl (if_pos hok)
    rw [hurbs'', hcount'']
    exact hnew
  · exact Bool.noConfusion hstarted

/-- **Where the toggles agree**: after an even number of failures, and after every event if there
is none. -/
theorem Listening.agrees_iff {i : Nat} {w : UsbWorld} (h : Listening i false w)
    {es : List UsbEvent} (hes : ∀ kb mouse, .setup kb mouse ∉ es) :
    ((w.run es).nextToggle i = deviceToggle (w.completions i es) ↔
        Even (failures (w.completions i es))) ∧
      ((∀ n, (w.run (es.take n)).nextToggle i = deviceToggle (w.completions i (es.take n))) ↔
        failures (w.completions i es) = 0) := by
  have hagrees : ∀ {fs : List UsbEvent}, (∀ kb mouse, .setup kb mouse ∉ fs) →
      ((w.run fs).nextToggle i = deviceToggle (w.completions i fs) ↔
        Even (failures (w.completions i fs))) := by
    intro fs hfs
    rw [(h.run hfs).token, deviceToggle, toggles_eq_iff]
    simp only [true_iff]
  refine ⟨hagrees hes, ?_⟩
  rw [← even_failures_iff]
  exact forall_congr' fun n => hagrees fun kb mouse hmem => hes kb mouse (List.mem_of_mem_take hmem)

end UsbWorld

/-- **The data toggle.** From a state that is reached, a keyboard on a new endpoint is started. After
any events, the toggle of the transfer that is submitted is the one that the device expects if and
only if an even number of its transfers has failed. So it is after each of the events if and only
if none has. -/
theorem toggle_agrees_iff (w : UsbWorld) (hreached : w.Reached) (addr epAddress iface config : UInt8)
    (hw : Nat → Hw)
    (hnew : ∀ j < w.uhci.intUrbCount, ¬ ((w.uhci.intUrbs j).urb.devAddr = addr ∧
      (w.uhci.intUrbs j).urb.endpoint = epAddress &&& 0x0F))
    (hstarted : (w.usbKeyboardInit addr epAddress iface config hw).kb.present = true)
    (es : List UsbEvent) (hes : ∀ kb mouse, .setup kb mouse ∉ es) :
    let i := w.uhci.intUrbCount
    let started := w.usbKeyboardInit addr epAddress iface config hw
    ((started.run es).nextToggle i = UsbWorld.deviceToggle (started.completions i es) ↔
        Even (UsbWorld.failures (started.completions i es))) ∧
      ((∀ n, (started.run (es.take n)).nextToggle i =
          UsbWorld.deviceToggle (started.completions i (es.take n))) ↔
        UsbWorld.failures (started.completions i es) = 0) :=
  (UsbWorld.listening_init hreached.separate addr epAddress iface config hw hnew hstarted).agrees_iff
    hes

/-- The first report is delivered. -/
theorem toggle_agrees_report :
    let w := UsbWorld.boot default default (fun _ => 0) 0x1000 0x2000 (Console.boot fun _ => 0)
    let hw : Nat → Hw := fun _ => ⟨fun _ => 0, fun _ => 0, true⟩
    let es := [.hardware (fun _ => 0x07) (fun _ => 0), .poll hw]
    ((w.usbKeyboardInit 1 0x81 0 1 hw).run es).nextToggle 0 =
      UsbWorld.deviceToggle ((w.usbKeyboardInit 1 0x81 0 1 hw).completions 0 es) := by
  intro w hw es
  have hreached : w.Reached := ⟨default, default, fun _ => 0, 0x1000, 0x2000, _, [], rfl⟩
  have hsetup : ∀ kb mouse, .setup kb mouse ∉ es := by simp [es]
  obtain ⟨hagrees, -⟩ := toggle_agrees_iff w hreached 1 0x81 0 1 hw
    (fun j hj => absurd hj (Nat.not_lt_zero j)) (by decide) es hsetup
  exact hagrees.mpr (by decide)

/-- The first transfer has a CRC error: the device still expects `DATA0`, the next TD has `DATA1`. -/
theorem crc_error_flips_toggle :
    let w := UsbWorld.boot default default (fun _ => 0) 0x1000 0x2000 (Console.boot fun _ => 0)
    let hw : Nat → Hw := fun _ => ⟨fun _ => 0, fun _ => 0, true⟩
    let es := [.hardware (fun _ => tdCtrlCrctimeo) (fun _ => 0), .poll hw]
    ¬ ((w.usbKeyboardInit 1 0x81 0 1 hw).run es).nextToggle 0 =
      UsbWorld.deviceToggle ((w.usbKeyboardInit 1 0x81 0 1 hw).completions 0 es) := by
  decide

end HaoSys.Driver
