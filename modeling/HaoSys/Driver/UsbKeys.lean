import HaoSys.Driver.UsbMouse
import HaoSys.Driver.UsbTyping

/-!
# The keyboard among the other transfers (`driver/usb_hid.c`, `driver/usb_controller.c`)

What is read from the keyboard in a run of polls, completions, submissions and control
transfers, of the mouse and of all other devices too, is what a queue gives that is fed
with the reports of the keyboard's finished transfers and nothing else.
-/

namespace HaoSys.Driver

namespace Turn

/-- The report of a finished transfer of the keyboard. One that failed has none. -/
def keyReport (t : Turn) : Option (List UInt8) :=
  let iu := t.w.uhci.intUrbs t.i
  let status := t.w.status t.i
  if iu.active ∧ iu.urb.callback = some .keyboard ∧ status &&& tdCtrlActive = 0 ∧
      status &&& UsbWorld.pollErrors = 0 then
    some (t.w.bytes iu.urb.buffer 8)
  else none

end Turn

def keyReports (ts : List Turn) : List TypeEvent := (ts.filterMap Turn.keyReport).map .report

/-- What happens to the world, or a reader that takes a character if there is one. -/
inductive KeyWorldEvent where
  | usb (e : UsbEvent)
  | read

/-! ## The queue -/

namespace Typing

theorem run_append (es es' : List TypeEvent) (t : Typing) :
    t.run (es ++ es') =
      ((run es' (t.run es).1).1, (t.run es).2 ++ (run es' (t.run es).1).2) := by
  induction es generalizing t with
  | nil => rfl
  | cons e es ih =>
    rw [List.cons_append, run_cons, run_cons, ih, List.append_assoc]

theorem step_report (r : List UInt8) (t : Typing) : (t.step (.report r)).2 = [] := by
  unfold step
  cases t.last <;> rfl

/-- Nothing is read from reports. -/
theorem run_keyReports (ts : List Turn) (t : Typing) : (t.run (keyReports ts)).2 = [] := by
  unfold keyReports
  generalize ts.filterMap Turn.keyReport = rs
  induction rs generalizing t with
  | nil => rfl
  | cons r rs ih => rw [List.map_cons, run_cons, step_report, List.nil_append, ih]

end Typing

namespace UsbWorld

/-- One event, and the characters that are read. -/
def keyStep (w : UsbWorld) : KeyWorldEvent → UsbWorld × List UInt8
  | .usb e => (w.step e, [])
  | .read =>
    let (kb, out) := w.kb.step .read
    ({ w with kb }, out)

def keyRun : List KeyWorldEvent → UsbWorld → UsbWorld × List UInt8
  | [], w => (w, [])
  | e :: es, w =>
    let (w', out) := w.keyStep e
    let (w'', outs) := keyRun es w'
    (w'', out ++ outs)

/-- What the run is to the keyboard. -/
def keyEvents : List KeyWorldEvent → UsbWorld → List TypeEvent
  | [], _ => []
  | .usb e :: es, w => keyReports (w.turnsOf e) ++ keyEvents es (w.step e)
  | .read :: es, w => .read :: keyEvents es (w.keyStep .read).1

/-! ## One turn -/

/-- A turn with a report of the keyboard. -/
theorem pollEntry_keyReport {t : Turn} {r : List UInt8} (h : t.keyReport = some r) :
    (t.w.pollEntry t.hw t.i).kb.typing = (t.w.kb.typing.step (.report r)).1 := by
  unfold Turn.keyReport at h
  simp only at h
  split at h
  · next hfinished =>
    obtain ⟨hactive, hcallback, hstatus, herrors⟩ := hfinished
    obtain rfl := Option.some.inj h
    rw [pollEntry_reported hactive hstatus herrors hcallback]
    exact usbKbCallback_typing _ t.hw _
  · exact absurd h.symm (Option.some_ne_none r)

theorem usbMouseUrbCallback_kb (urb : Urb) (hw : Hw) (w : UsbWorld) :
    (w.usbMouseUrbCallback urb hw).kb = w.kb := by
  unfold usbMouseUrbCallback
  split
  · rfl
  · simp only
    split
    · split
      · rfl
      · rfl
    · rfl

/-- Every other turn leaves the keyboard as it is. -/
theorem pollEntry_noReport {t : Turn} (h : t.keyReport = none) :
    (t.w.pollEntry t.hw t.i).kb = t.w.kb := by
  rcases t.w.pollEntry_cases t.hw t.i with
    ⟨callback, hactive, hstatus, herrors, hcallback, heq⟩ | ⟨uhci, heq⟩
  · rw [heq]
    cases callback with
    | keyboard =>
      unfold Turn.keyReport at h
      simp only [hactive, hcallback, hstatus, herrors, and_self, ↓reduceIte, reduceCtorEq] at h
    | mouse => exact usbMouseUrbCallback_kb _ t.hw _
  · rw [heq]

/-! ## Runs -/

/-- One poll takes the reports of its turns. -/
theorem pollFrom_typing (hw : Nat → Hw) (fuel i : Nat) (w : UsbWorld) :
    (w.pollFrom hw fuel i).kb.typing =
      (w.kb.typing.run (keyReports (turnsFrom hw fuel i w))).1 := by
  induction fuel generalizing i w with
  | zero => rfl
  | succ fuel ih =>
    unfold pollFrom turnsFrom
    by_cases hi : i < w.uhci.intUrbCount
    · rw [if_pos hi, if_pos hi, ih]
      unfold keyReports
      cases hreport : Turn.keyReport ⟨hw i, i, w⟩ with
      | none =>
        rw [List.filterMap_cons_none hreport]
        exact congrArg (fun kb : UsbKeyboard => (Typing.run _ kb.typing).1)
          (pollEntry_noReport hreport)
      | some r =>
        rw [List.filterMap_cons_some hreport, List.map_cons, Typing.run_cons]
        exact congrArg (fun t : Typing => (t.run _).1) (pollEntry_keyReport hreport)
    · rw [if_neg hi, if_neg hi]
      rfl

/-- One event of the world: nothing but polls feeds the queue. -/
theorem step_typing (w : UsbWorld) {e : UsbEvent} (hsetup : ∀ kb mouse, e ≠ .setup kb mouse) :
    (w.step e).kb.typing = (w.kb.typing.run (keyReports (w.turnsOf e))).1 := by
  cases e with
  | hardware status mem => rfl
  | submit hc urb hw => rfl
  | transfer t hw => rfl
  | poll hw => exact pollFrom_typing hw 4 0 w
  | setup kb mouse => exact absurd rfl (hsetup kb mouse)

end UsbWorld

/-- **The keyboard among the other transfers** is a queue of its reports. -/
theorem usb_keyboard_types {w : UsbWorld} {es : List KeyWorldEvent}
    (hsetup : ∀ kb mouse, .usb (.setup kb mouse) ∉ es) :
    (w.keyRun es).2 = (w.kb.typing.run (w.keyEvents es)).2 ∧
      (w.keyRun es).1.kb.typing = (w.kb.typing.run (w.keyEvents es)).1 := by
  induction es generalizing w with
  | nil => exact ⟨rfl, rfl⟩
  | cons e es ih =>
    have hrest : ∀ kb mouse, .usb (.setup kb mouse) ∉ es := fun kb mouse hmem =>
      hsetup kb mouse (List.mem_cons_of_mem _ hmem)
    cases e with
    | usb e =>
      have hstep := w.step_typing (e := e) fun kb mouse heq =>
        hsetup kb mouse (heq ▸ List.mem_cons_self)
      obtain ⟨hout, hend⟩ := ih (w := w.step e) hrest
      rw [hstep] at hout hend
      unfold UsbWorld.keyEvents
      rw [Typing.run_append, Typing.run_keyReports]
      exact ⟨hout, hend⟩
    | read =>
      obtain ⟨hstate, hread⟩ := w.kb.typing_read
      obtain ⟨hout, hend⟩ := ih (w := (w.keyStep .read).1) hrest
      have hkb : (w.keyStep .read).1.kb.typing = (w.kb.typing.step .read).1 := hstate
      rw [hkb] at hout hend
      unfold UsbWorld.keyEvents
      rw [Typing.run_cons]
      exact ⟨congrArg₂ (· ++ ·) hread hout, hend⟩

/-- Behind the first report, a transfer with a CRC error, and one with the report of a key. -/
theorem usb_keyboard_types_crc :
    let w := UsbWorld.boot default default (fun _ => 0) 0x1000 0x2000 (Console.boot fun _ => 0)
    let hw : Nat → Hw := fun _ => ⟨fun _ => 0, fun _ => 0, true⟩
    let keys : UInt32 → UInt8 := fun a => if a = 0x1002 then 0x04 else 0
    ((w.usbKeyboardInit 1 0x81 0 1 hw).keyRun [.usb (.hardware (fun _ => 0x07) (fun _ => 0)),
      .usb (.poll hw), .usb (.hardware (fun _ => tdCtrlCrctimeo) keys), .usb (.poll hw),
      .usb (.hardware (fun _ => 0x07) keys), .usb (.poll hw), .read, .read]).2 = [0x61] := by
  intro w hw keys
  exact (usb_keyboard_types (by simp)).1.trans (by decide)

end HaoSys.Driver
