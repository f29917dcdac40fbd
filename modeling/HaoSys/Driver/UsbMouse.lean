import HaoSys.Driver.UsbStream

/-!
# The connected USB mouse (`driver/mouse.c`, `driver/usb_controller.c`)

`usb_poll` takes the length of a report from bits 16 to 26 of the status word. The
controller writes its length to bits 0 to 10. In a word without `ACTIVE` and errors
bit 19 (`NAK`) and bits 24 to 26 are left of what is read, so a report counts as
shorter than 3 bytes, and the mouse as removed, if and only if these are clear.

A run is looked at through its turns of the loop of `usb_poll`: `turns`.
-/

namespace HaoSys.Driver

/-- A turn of the loop: entry `i` in world `w`. -/
structure Turn where
  hw : Hw
  i : Nat
  w : UsbWorld

/-- A finished transfer of the mouse: its status word, and the report that `usb_poll` hands on. -/
structure Delivery where
  status : UInt32
  report : List UInt8

/-- Bit 19 or one of bits 24 to 26 is set. -/
def Delivery.LooksLong (d : Delivery) : Prop := d.status >>> 16 &&& 0x708 ≠ 0

instance (d : Delivery) : Decidable d.LooksLong := inferInstanceAs (Decidable (_ ≠ _))

namespace Turn

def delivery (t : Turn) : Option Delivery :=
  let iu := t.w.uhci.intUrbs t.i
  let status := t.w.status t.i
  if iu.active ∧ iu.urb.callback = some .mouse ∧ status &&& tdCtrlActive = 0 then
    some ⟨status, t.w.bytes iu.urb.buffer (UsbWorld.pollLength status).toNat⟩
  else none

/-- The mouse's transfer can be submitted again. -/
def resubmits (t : Turn) : Bool :=
  let iu := t.w.uhci.intUrbs t.i
  match t.w.mouse.dev, t.w.mouse.epIn with
  | some dev, some epIn =>
    ((t.w.setIntUrb t.i (UsbWorld.reported (t.w.status t.i) iu)).uhci.submitUrb t.w.mouse.hc
      (UsbMouse.urb t.w.mouse.reportBuf dev epIn) t.hw).1
  | _, _ => true

/-- Where a transfer of the mouse is finished, it has no error, and where it is submitted again,
that succeeds. -/
def Healthy (t : Turn) : Prop :=
  ∀ d ∈ t.delivery, d.status &&& UsbWorld.pollErrors = 0 ∧
    (¬ UsbWorld.pollLength d.status < 3 → t.resubmits = true)

end Turn

instance (t : Turn) : Decidable t.Healthy :=
  inferInstanceAs (Decidable (∀ d ∈ t.delivery, _ ∧ (_ → _)))

namespace UsbWorld

/-- The turns of the loop. -/
def turnsFrom (hw : Nat → Hw) : Nat → Nat → UsbWorld → List Turn
  | 0, _, _ => []
  | fuel + 1, i, w =>
    if i < w.uhci.intUrbCount then
      ⟨hw i, i, w⟩ :: turnsFrom hw fuel (i + 1) (w.pollEntry (hw i) i)
    else []

def turnsOf (w : UsbWorld) : UsbEvent → List Turn
  | .poll hw => turnsFrom hw 4 0 w
  | _ => []

def turns (w : UsbWorld) : List UsbEvent → List Turn
  | [] => []
  | e :: es => w.turnsOf e ++ turns (w.step e) es

/-- The finished transfers of the mouse. -/
def deliveries (w : UsbWorld) (es : List UsbEvent) : List Delivery :=
  (w.turns es).filterMap Turn.delivery

/-- The USB mouse is there, and in use. -/
def Connected (w : UsbWorld) : Prop := w.mouse.present = true ∧ w.mouse.backend = .usb

instance (w : UsbWorld) : Decidable w.Connected := inferInstanceAs (Decidable (_ ∧ _))

/-- Each report is handed to `usb_process_report`. -/
def process (console : Console) (ds : List Delivery) : Console :=
  ds.foldl (fun console d => console.usbProcessReport d.report) console

/-! ## The length -/

theorem toNat_pollLength (status : UInt32) :
    (pollLength status).toNat = (status >>> 16).toNat &&& 0x7FF := by
  unfold pollLength
  rw [UInt32.toNat_toUInt16, UInt32.toNat_and]
  exact Nat.mod_eq_of_lt (Nat.lt_of_le_of_lt Nat.and_le_right (by decide))

/-- **The length that is read** in a word without error: bits 19 and 24 to 26 are left. -/
theorem pollLength_lt_three_iff {status : UInt32} (hactive : status &&& tdCtrlActive = 0)
    (herrors : status &&& pollErrors = 0) :
    pollLength status < 3 ↔ (status >>> 16) &&& 0x708 = 0 := by
  have hactive' : (status >>> 16).toNat &&& 0x80 = 0 := by
    have hshift := congrArg (fun word : UInt32 => (word >>> 16).toNat) hactive
    rwa [UInt32.shiftRight_and] at hshift
  have herrors' : (status >>> 16).toNat &&& 0x77 = 0 := by
    have hshift := congrArg (fun word : UInt32 => (word >>> 16).toNat) herrors
    rwa [UInt32.shiftRight_and] at hshift
  have hlength : (pollLength status).toNat = (status >>> 16).toNat &&& 0x708 := by
    have hmask : 0x7FF = 0x708 ||| 0x80 ||| 0x77 := by decide
    rw [toNat_pollLength, hmask, Nat.and_or_distrib_left, Nat.and_or_distrib_left, hactive',
      herrors', Nat.or_zero, Nat.or_zero]
  have hsub : (pollLength status).toNat &&& 0x708 = (pollLength status).toNat := by
    rw [hlength, Nat.and_assoc, Nat.and_self]
  have hzero : (status >>> 16) &&& 0x708 = 0 ↔ (pollLength status).toNat = 0 := by
    rw [← UInt32.toNat_inj, UInt32.toNat_and, hlength]
    rfl
  rw [UInt16.lt_iff_toNat_lt, hzero]
  generalize (pollLength status).toNat = n at hsub
  change n < 3 ↔ _
  refine ⟨fun hlt => ?_, by omega⟩
  -- 1 and 2 have none of the bits
  have hsmall : n = 0 ∨ n = 1 ∨ n = 2 := by omega
  rcases hsmall with rfl | rfl | rfl
  · rfl
  · exact absurd hsub (by decide)
  · exact absurd hsub (by decide)

/-! ## One turn -/

theorem usbKbCallback_mouse (urb : Urb) (hw : Hw) (w : UsbWorld) :
    (w.usbKbCallback urb hw).mouse = w.mouse ∧ (w.usbKbCallback urb hw).console = w.console := by
  unfold usbKbCallback
  simp only
  split
  · exact ⟨rfl, rfl⟩
  · exact ⟨rfl, rfl⟩

/-- A turn without a finished transfer of the mouse. -/
theorem pollEntry_quiet {t : Turn} (h : t.delivery = none) :
    (t.w.pollEntry t.hw t.i).mouse = t.w.mouse ∧ (t.w.pollEntry t.hw t.i).console = t.w.console := by
  rcases t.w.pollEntry_cases t.hw t.i with
    ⟨callback, hactive, hstatus, herrors, hcallback, heq⟩ | ⟨uhci, heq⟩
  · rw [heq]
    cases callback with
    | keyboard => exact usbKbCallback_mouse _ t.hw _
    | mouse =>
      unfold Turn.delivery at h
      simp only [hactive, hcallback, hstatus, and_self, ↓reduceIte, reduceCtorEq] at h
  · rw [heq]
    exact ⟨rfl, rfl⟩

/-- A finished transfer of the mouse: its entry, and what is handed on. -/
theorem delivery_eq_some {t : Turn} {d : Delivery} (h : t.delivery = some d) :
    (t.w.uhci.intUrbs t.i).active = true ∧ (t.w.uhci.intUrbs t.i).urb.callback = some .mouse ∧
      t.w.status t.i &&& tdCtrlActive = 0 ∧ d.status = t.w.status t.i ∧
      d.report = t.w.bytes (t.w.uhci.intUrbs t.i).urb.buffer (pollLength (t.w.status t.i)).toNat := by
  unfold Turn.delivery at h
  simp only at h
  split at h
  · next hfinished =>
    obtain rfl := Option.some.inj h
    exact ⟨hfinished.1, hfinished.2.1, hfinished.2.2, rfl, rfl⟩
  · exact absurd h.symm (Option.some_ne_none d)

theorem usbMouseUrbCallback_short {urb : Urb} (h : urb.length < 3) (hw : Hw) (w : UsbWorld) :
    w.usbMouseUrbCallback urb hw = { w with mouse := w.mouse.disconnect } := if_pos h

theorem disconnect_present (m : UsbMouse) : m.disconnect.present = false := by
  unfold UsbMouse.disconnect
  simp only
  split
  · split
    · rfl
    · rfl
  · rfl

/-- A mouse that is gone stays gone. -/
theorem usbMouseUrbCallback_gone {w : UsbWorld} (h : w.mouse.present = false) (urb : Urb) (hw : Hw) :
    (w.usbMouseUrbCallback urb hw).mouse.present = false := by
  by_cases hshort : urb.length < 3
  · rw [usbMouseUrbCallback_short hshort]
    exact disconnect_present w.mouse
  · unfold usbMouseUrbCallback
    rw [if_neg hshort]
    simp only [h]

theorem pollEntry_gone {t : Turn} (h : t.w.mouse.present = false) :
    (t.w.pollEntry t.hw t.i).mouse.present = false := by
  cases hdelivery : t.delivery with
  | none => rw [(pollEntry_quiet hdelivery).1, h]
  | some d =>
    obtain ⟨hactive, hcallback, hstatus, -⟩ := delivery_eq_some hdelivery
    by_cases herrors : t.w.status t.i &&& pollErrors = 0
    · rw [pollEntry_reported hactive hstatus herrors hcallback]
      refine usbMouseUrbCallback_gone ?_ _ t.hw
      exact h
    · rw [pollEntry_failed hactive hstatus herrors]
      exact h

/-- A report that is long enough is taken, and the mouse is kept where its transfer can be submitted
again. -/
theorem usbMouseUrbCallback_taken {w : UsbWorld} {urb : Urb} (hlength : ¬ urb.length < 3) {hw : Hw}
    (hok : ∀ dev epIn, w.mouse.dev = some dev → w.mouse.epIn = some epIn →
      (w.uhci.submitUrb w.mouse.hc (UsbMouse.urb w.mouse.reportBuf dev epIn) hw).1 = true) :
    (w.usbMouseUrbCallback urb hw).mouse = w.mouse ∧
      (w.usbMouseUrbCallback urb hw).console =
        w.console.usbProcessReport (w.bytes urb.buffer urb.length.toNat) := by
  unfold usbMouseUrbCallback
  rw [if_neg hlength]
  simp only
  split
  · next dev epIn _ hdev hepIn =>
    rw [hok dev epIn hdev hepIn]
    exact ⟨rfl, rfl⟩
  · exact ⟨rfl, rfl⟩

/-- **A turn with a finished transfer of the mouse**: the report is taken and the mouse kept, or it
is too short and the mouse is gone. -/
theorem pollEntry_delivery {t : Turn} (ht : t.Healthy) {d : Delivery} (h : t.delivery = some d) :
    (d.LooksLong ∧ (t.w.pollEntry t.hw t.i).mouse = t.w.mouse ∧
        (t.w.pollEntry t.hw t.i).console = t.w.console.usbProcessReport d.report) ∨
      (¬ d.LooksLong ∧ (t.w.pollEntry t.hw t.i).mouse.present = false) := by
  obtain ⟨herrors, hresubmits⟩ := ht d h
  obtain ⟨hactive, hcallback, hstatus, hword, hreport⟩ := delivery_eq_some h
  rw [hword] at herrors hresubmits
  have hlong : d.LooksLong ↔ ¬ pollLength (t.w.status t.i) < 3 := by
    rw [pollLength_lt_three_iff hstatus herrors, ← hword]
    rfl
  rw [pollEntry_reported hactive hstatus herrors hcallback, runCallback, hlong, hreport, not_not]
  by_cases hshort : pollLength (t.w.status t.i) < 3
  · refine Or.inr ⟨hshort, ?_⟩
    rw [usbMouseUrbCallback_short hshort]
    exact disconnect_present t.w.mouse
  · refine Or.inl ⟨hshort, ?_⟩
    refine usbMouseUrbCallback_taken hshort fun dev epIn hdev hepIn => ?_
    have hok := hresubmits hshort
    unfold Turn.resubmits at hok
    have hdev' : t.w.mouse.dev = some dev := hdev
    have hepIn' : t.w.mouse.epIn = some epIn := hepIn
    simp only [hdev', hepIn'] at hok
    exact hok

/-! ## Runs -/

theorem pollFrom_gone (hw : Nat → Hw) (fuel i : Nat) {w : UsbWorld}
    (h : w.mouse.present = false) : (w.pollFrom hw fuel i).mouse.present = false := by
  induction fuel generalizing i w with
  | zero => exact h
  | succ fuel ih =>
    unfold pollFrom
    split
    · exact ih (i + 1) (pollEntry_gone (t := ⟨hw i, i, w⟩) h)
    · exact h

/-- **One poll**: all reports are taken and the mouse is kept, or one looks too short and the mouse
is gone. -/
theorem pollFrom_mouse (hw : Nat → Hw) (fuel i : Nat) {w : UsbWorld}
    (hhealthy : ∀ t ∈ turnsFrom hw fuel i w, t.Healthy) :
    ((∀ d ∈ (turnsFrom hw fuel i w).filterMap Turn.delivery, d.LooksLong) ∧
        (w.pollFrom hw fuel i).mouse = w.mouse ∧
        (w.pollFrom hw fuel i).console =
          process w.console ((turnsFrom hw fuel i w).filterMap Turn.delivery)) ∨
      ((∃ d ∈ (turnsFrom hw fuel i w).filterMap Turn.delivery, ¬ d.LooksLong) ∧
        (w.pollFrom hw fuel i).mouse.present = false) := by
  induction fuel generalizing i w with
  | zero => exact Or.inl ⟨fun _ hd => absurd hd List.not_mem_nil, rfl, rfl⟩
  | succ fuel ih =>
    unfold pollFrom
    unfold turnsFrom at hhealthy ⊢
    by_cases hi : i < w.uhci.intUrbCount
    · simp only [if_pos hi] at hhealthy ⊢
      have hrest := ih (i + 1) fun t ht => hhealthy t (List.mem_cons_of_mem _ ht)
      have hfirst := hhealthy ⟨hw i, i, w⟩ List.mem_cons_self
      cases hdelivery : Turn.delivery ⟨hw i, i, w⟩ with
      | none =>
        obtain ⟨hmouse, hconsole⟩ := pollEntry_quiet hdelivery
        simp only [List.filterMap_cons_none hdelivery]
        rwa [hmouse, hconsole] at hrest
      | some d =>
        simp only [List.filterMap_cons_some hdelivery, List.forall_mem_cons]
        rcases pollEntry_delivery hfirst hdelivery with ⟨hlong, hmouse, hconsole⟩ | ⟨hshort, hgone⟩
        · rw [hmouse, hconsole] at hrest
          rcases hrest with ⟨hall, hkept, htaken⟩ | ⟨hsome, hgone⟩
          · exact Or.inl ⟨⟨hlong, hall⟩, hkept, htaken⟩
          · obtain ⟨d', hd', hshort⟩ := hsome
            exact Or.inr ⟨⟨d', List.mem_cons_of_mem _ hd', hshort⟩, hgone⟩
        · exact Or.inr ⟨⟨d, List.mem_cons_self, hshort⟩, pollFrom_gone hw fuel (i + 1) hgone⟩
    · simp only [if_neg hi]
      exact Or.inl ⟨fun _ hd => absurd hd List.not_mem_nil, trivial, rfl⟩

/-- **One event.** Initialization code leaves the mouse connected. -/
theorem step_mouse {w : UsbWorld} (h : w.Connected) {e : UsbEvent}
    (hsetup : ∀ kb mouse, e = .setup kb mouse → mouse.present = true ∧ mouse.backend = .usb)
    (hhealthy : ∀ t ∈ w.turnsOf e, t.Healthy) :
    ((∀ d ∈ (w.turnsOf e).filterMap Turn.delivery, d.LooksLong) ∧ (w.step e).Connected ∧
        (w.step e).console = process w.console ((w.turnsOf e).filterMap Turn.delivery)) ∨
      ((∃ d ∈ (w.turnsOf e).filterMap Turn.delivery, ¬ d.LooksLong) ∧ ¬ (w.step e).Connected) := by
  cases e with
  | hardware status mem => exact Or.inl ⟨fun _ hd => absurd hd List.not_mem_nil, h, rfl⟩
  | submit hc urb hw => exact Or.inl ⟨fun _ hd => absurd hd List.not_mem_nil, h, rfl⟩
  | transfer t hw => exact Or.inl ⟨fun _ hd => absurd hd List.not_mem_nil, h, rfl⟩
  | setup kb mouse =>
    exact Or.inl ⟨fun _ hd => absurd hd List.not_mem_nil, hsetup kb mouse rfl, rfl⟩
  | poll hw =>
    rcases pollFrom_mouse hw 4 0 hhealthy with ⟨hall, hkept, htaken⟩ | ⟨hsome, hgone⟩
    · refine Or.inl ⟨hall, ?_, htaken⟩
      unfold Connected at h ⊢
      rw [← hkept] at h
      exact h
    · refine Or.inr ⟨hsome, fun hconnected => ?_⟩
      exact Bool.noConfusion (hgone.symm.trans hconnected.1)

theorem deliveries_cons (w : UsbWorld) (e : UsbEvent) (es : List UsbEvent) :
    w.deliveries (e :: es) = (w.turnsOf e).filterMap Turn.delivery ++ (w.step e).deliveries es := by
  unfold deliveries
  rw [turns, List.filterMap_append]

theorem process_append (console : Console) (ds ds' : List Delivery) :
    process console (ds ++ ds') = process (process console ds) ds' := List.foldl_append ..

end UsbWorld

/-- **A healthy USB mouse.** In a run in which no transfer of the mouse fails, the mouse is
connected after every event, and every report has been handed on, if and only if every finished
transfer looks long enough: bit 19 or one of bits 24 to 26 of its status word is set. -/
theorem mouse_connected_iff (w : UsbWorld) (h : w.Connected) (es : List UsbEvent)
    (hsetup : ∀ kb mouse, .setup kb mouse ∈ es → mouse.present = true ∧ mouse.backend = .usb)
    (hhealthy : ∀ t ∈ w.turns es, t.Healthy) :
    (∀ n, (w.run (es.take n)).Connected ∧
      (w.run (es.take n)).console = UsbWorld.process w.console (w.deliveries (es.take n))) ↔
      ∀ d ∈ w.deliveries es, d.LooksLong := by
  induction es generalizing w with
  | nil =>
    refine iff_of_true (fun n => ?_) fun d hd => absurd hd List.not_mem_nil
    rw [List.take_nil]
    exact ⟨h, rfl⟩
  | cons e es ih =>
    have hstep := UsbWorld.step_mouse h
      (fun kb mouse heq => hsetup kb mouse (heq ▸ List.mem_cons_self))
      (fun t ht => hhealthy t (List.mem_append_left _ ht))
    rw [UsbWorld.deliveries_cons, List.forall_mem_append]
    rcases hstep with ⟨hall, hconnected, hconsole⟩ | ⟨⟨d, hd, hshort⟩, hgone⟩
    · rw [and_iff_right hall, ← ih (w.step e) hconnected
        (fun kb mouse hmem => hsetup kb mouse (List.mem_cons_of_mem _ hmem))
        (fun t ht => hhealthy t (List.mem_append_right _ ht))]
      constructor
      · intro hruns n
        obtain ⟨hconnected', hconsole'⟩ := hruns (n + 1)
        rw [List.take_succ_cons, UsbWorld.deliveries_cons, UsbWorld.process_append, ← hconsole]
          at hconsole'
        exact ⟨hconnected', hconsole'⟩
      · intro hruns n
        cases n with
        | zero => exact ⟨h, rfl⟩
        | succ n =>
          obtain ⟨hconnected', hconsole'⟩ := hruns n
          rw [List.take_succ_cons, UsbWorld.deliveries_cons, UsbWorld.process_append, ← hconsole]
          exact ⟨hconnected', hconsole'⟩
    · refine iff_of_false (fun hruns => hgone ?_) fun hlong => hshort (hlong.1 d hd)
      exact (hruns 1).1

/-- A mouse at address 2, with endpoint `0x81` and packets of 4 bytes, whose transfer is submitted. -/
def UsbWorld.mouseStarted (hw : Hw) : UsbWorld :=
  let w := boot default default (fun _ => 0) 0x1000 0x2000 (Console.boot fun _ => 0)
  w.run [.setup w.kb { w.mouse with
      present := true, dev := some 2, epIn := some (0x81, 4), hc := true, backend := .usb },
    .submit true (UsbMouse.urb 0x2000 2 (0x81, 4)) hw]

/-- A word with `NAK`. -/
theorem mouse_connected_nak :
    ((UsbWorld.mouseStarted ⟨fun _ => 0, fun _ => 0, true⟩).run
      [.hardware (fun _ => 0x00080002) (fun _ => 0),
        .poll fun _ => ⟨fun _ => 0, fun _ => 0, true⟩]).Connected := by
  have hiff := mouse_connected_iff (UsbWorld.mouseStarted ⟨fun _ => 0, fun _ => 0, true⟩) (by decide)
    [.hardware (fun _ => 0x00080002) (fun _ => 0), .poll fun _ => ⟨fun _ => 0, fun _ => 0, true⟩]
    (by simp) (by decide)
  exact (hiff.mpr (by decide) 2).1

/-- The first report comes, without any error: the mouse counts as removed. -/
theorem healthy_mouse_removed :
    let w := UsbWorld.mouseStarted ⟨fun _ => 0, fun _ => 0, true⟩
    let es := [.hardware (fun _ => 0x00000002) (fun _ => 0),
      .poll fun _ => ⟨fun _ => 0, fun _ => 0, true⟩]
    w.Connected ∧ (∀ t ∈ w.turns es, t.Healthy) ∧ ¬ (w.run es).Connected := by
  decide

end HaoSys.Driver
