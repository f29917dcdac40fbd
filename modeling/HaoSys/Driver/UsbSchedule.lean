import HaoSys.Driver.UsbHid

/-!
# The schedule of interrupt transfers (`driver/usb_controller.c`)

Every submission points the queue head to its own TD, and that TD ends the
chain. So a transfer that is still active when another one is submitted is no
longer in the schedule. As long as transfers are submitted one at a time, every
active transfer is: `scheduled`.
-/

namespace HaoSys.Driver

namespace Uhci

/-- The TD of one link pointer points to the other. -/
def Next (s : Uhci) (a b : Link) : Prop := ∃ i, a = .td i ∧ b = (s.tdPool i).link

/-- A TD that the controller finds from the queue head. -/
def Reaches (s : Uhci) (td : Nat) : Prop := Relation.ReflTransGen s.Next s.elLink (.td td)

/-- Every active interrupt transfer is in the schedule. -/
def AllScheduled (s : Uhci) : Prop :=
  ∀ i < s.intUrbCount, (s.intUrbs i).active = true → s.Reaches (s.intUrbs i).td

/-- No interrupt transfer is active. -/
def Idle (s : Uhci) : Prop := ∀ i < s.intUrbCount, (s.intUrbs i).active = false

/-- The submission finds an entry and a TD. -/
def Fits (devAddr ep : UInt8) (s : Uhci) : Prop :=
  s.reusable devAddr ep ≠ none ∨ s.intUrbCount < 4 ∧ s.tdUsed < maxTds

/-! ## What an interrupt transfer does -/

theorem reusable_some {s : Uhci} {devAddr ep : UInt8} {i : Nat}
    (h : s.reusable devAddr ep = some i) :
    i < s.intUrbCount ∧ (s.intUrbs i).active = false ∧ (s.intUrbs i).urb.devAddr = devAddr ∧
      (s.intUrbs i).urb.endpoint = ep := by
  unfold reusable at h
  have hmem := List.mem_of_find?_eq_some h
  have hpred := List.find?_some h
  rw [List.mem_range] at hmem
  simp only [Bool.and_eq_true, Bool.not_eq_true', beq_iff_eq] at hpred
  exact ⟨hmem, hpred.1.1, hpred.1.2, hpred.2⟩

/-- The TD that carries a transfer, at the end of its chain. -/
def armedTd (iu : IntUrb) : Td :=
  ⟨.terminate, tdCtrlIoc ||| tdCtrlActive,
    token iu.urb.devAddr iu.urb.endpoint (if iu.dt then 1 else 0) (iu.urb.length.toUInt32 - 1)
      tdTokenPidIn, .addr iu.urb.buffer⟩

/-- Entry `i` becomes `iu`, its TD is set up and the queue head points to it. -/
def armed (i : Nat) (iu : IntUrb) (s : Uhci) : Uhci :=
  { s with
    tdPool := Function.update s.tdPool iu.td (armedTd iu)
    elLink := .td iu.td
    intUrbs := Function.update s.intUrbs i iu }

/-- A finished transfer, submitted again. -/
def again (buffer : UInt32) (len : UInt16) (callback : Option Callback) (iu : IntUrb) : IntUrb :=
  { iu with
    dt := !iu.dt, active := true, urb := { iu.urb with buffer, length := len, callback } }

/-- The first transfer of an endpoint. -/
def first (hc : Bool) (devAddr ep : UInt8) (buffer : UInt32) (len : UInt16)
    (callback : Option Callback) (td : Nat) : IntUrb :=
  ⟨⟨.interrupt, devAddr, ep, 1, len, buffer, callback, 0, 0, 0, 0⟩, td, true, false, hc⟩

/-- **A submission**, by its outcomes: a finished transfer of the endpoint is used again, a new one
is made, nothing fits, or the page for a new one is missing. -/
theorem interruptTransfer_cases (hc : Bool) (devAddr ep : UInt8) (buffer : UInt32) (len : UInt16)
    (callback : Option Callback) (page : Bool) (s : Uhci) :
    (∃ i, s.reusable devAddr ep = some i ∧
      s.interruptTransfer hc devAddr ep buffer len callback page =
        (true, s.armed i (again buffer len callback (s.intUrbs i)))) ∨
    (s.reusable devAddr ep = none ∧ s.intUrbCount < 4 ∧ s.tdUsed < maxTds ∧ page = true ∧
      s.interruptTransfer hc devAddr ep buffer len callback page =
        (true, { s.armed s.intUrbCount (first hc devAddr ep buffer len callback s.tdUsed) with
          tdUsed := s.tdUsed + 1, intUrbCount := s.intUrbCount + 1 })) ∨
    (¬ s.Fits devAddr ep ∧
      s.interruptTransfer hc devAddr ep buffer len callback page = (false, s)) ∨
    (s.reusable devAddr ep = none ∧ s.intUrbCount < 4 ∧ s.tdUsed < maxTds ∧ page = false ∧
      s.interruptTransfer hc devAddr ep buffer len callback page =
        (false, { s with
          tdPool := Function.update s.tdPool s.tdUsed
            (armedTd (first hc devAddr ep buffer len callback s.tdUsed))
          elLink := .td s.tdUsed })) := by
  unfold interruptTransfer
  cases hreuse : s.reusable devAddr ep with
  | some i =>
    obtain ⟨-, -, hdev, hep⟩ := reusable_some hreuse
    refine Or.inl ⟨i, rfl, ?_⟩
    simp only [setupTd, armed, armedTd, again, hdev, hep]
  | none =>
    have hunfit : (4 ≤ s.intUrbCount ∨ maxTds ≤ s.tdUsed) → ¬ s.Fits devAddr ep := by
      rintro hfull (h | h)
      · exact h hreuse
      · omega
    simp only
    split
    · next hfull => exact Or.inr (Or.inr (Or.inl ⟨hunfit (Or.inl hfull), rfl⟩))
    · next hroom =>
      rcases Nat.lt_or_ge s.tdUsed maxTds with hfree | hfree
      · rw [allocTd_of_lt hfree]
        cases page with
        | true => exact Or.inr (Or.inl ⟨trivial, by omega, hfree, rfl, rfl⟩)
        | false =>
          refine Or.inr (Or.inr (Or.inr ⟨trivial, by omega, hfree, rfl, ?_⟩))
          simp only [Bool.not_false, ↓reduceIte, freeTd, setupTd, Nat.lt_succ_self, armedTd, first]
          rfl
      · rw [allocTd_of_full hfree]
        exact Or.inr (Or.inr (Or.inl ⟨hunfit (Or.inr hfree), rfl⟩))

/-! ## One transfer at a time -/

/-- At most one interrupt transfer is active, and the queue head points to it. -/
structure Tidy (s : Uhci) : Prop where
  pool : s.tdUsed ≤ maxTds
  head : ∀ i < s.intUrbCount, (s.intUrbs i).active = true → s.elLink = .td (s.intUrbs i).td
  one : ∀ i < s.intUrbCount, ∀ j < s.intUrbCount, (s.intUrbs i).active = true →
    (s.intUrbs j).active = true → i = j

theorem Tidy.allScheduled {s : Uhci} (h : s.Tidy) : s.AllScheduled := by
  intro i hi hactive
  unfold Reaches
  rw [h.head i hi hactive]

theorem Tidy.idle_of {s t : Uhci} (h : s.Tidy) {i : Nat} (hi : i < s.intUrbCount)
    (hactive : (s.intUrbs i).active = true) (hcount : t.intUrbCount = s.intUrbCount)
    (hstopped : (t.intUrbs i).active = false) (hothers : ∀ j ≠ i, t.intUrbs j = s.intUrbs j) :
    t.Idle := by
  intro j hj
  rw [hcount] at hj
  by_cases hji : j = i
  · rw [hji]
    exact hstopped
  · rw [hothers j hji]
    cases hj' : (s.intUrbs j).active with
    | false => rfl
    | true => exact absurd (h.one j hj i hi hj' hactive) hji

theorem Idle.tidy {s : Uhci} (h : s.Idle) (hpool : s.tdUsed ≤ maxTds) : s.Tidy := by
  refine ⟨hpool, fun i hi hactive => ?_, fun i hi j _ hactive _ => ?_⟩
  · rw [h i hi] at hactive
    exact Bool.noConfusion hactive
  · rw [h i hi] at hactive
    exact Bool.noConfusion hactive

/-- One transfer is armed where none was active. -/
theorem Idle.tidy_armed {s t : Uhci} (h : s.Idle) {i : Nat} (iu : IntUrb)
    (hpool : t.tdUsed ≤ maxTds) (hel : t.elLink = (s.armed i iu).elLink)
    (hurbs : t.intUrbs = (s.armed i iu).intUrbs)
    (hcount : ∀ j < t.intUrbCount, j = i ∨ j < s.intUrbCount) : t.Tidy := by
  have honly : ∀ j < t.intUrbCount, (t.intUrbs j).active = true → j = i := by
    intro j hj hactive
    rcases hcount j hj with hji | hlt
    · exact hji
    · by_contra hji
      rw [hurbs] at hactive
      simp only [armed, Function.update_of_ne hji, h j hlt, Bool.false_eq_true] at hactive
  refine ⟨hpool, fun j hj hactive => ?_, fun j hj k hk hactive hactive' => ?_⟩
  · rw [honly j hj hactive, hel, hurbs]
    simp only [armed, Function.update_self]
  · rw [honly j hj hactive, honly k hk hactive']

theorem Idle.tidy_interruptTransfer {s : Uhci} (h : s.Idle) (hpool : s.tdUsed ≤ maxTds) (hc : Bool)
    (devAddr ep : UInt8) (buffer : UInt32) (len : UInt16) (callback : Option Callback)
    (page : Bool) : (s.interruptTransfer hc devAddr ep buffer len callback page).2.Tidy := by
  rcases s.interruptTransfer_cases hc devAddr ep buffer len callback page with
    ⟨i, hi, heq⟩ | ⟨-, -, hfree, -, heq⟩ | ⟨-, heq⟩ | ⟨-, -, -, -, heq⟩ <;> rw [heq]
  · exact h.tidy_armed _ hpool rfl rfl fun j hj => Or.inr hj
  · refine h.tidy_armed _ hfree rfl rfl fun j hj => ?_
    simp only at hj
    omega
  · exact h.tidy hpool
  · exact Idle.tidy (fun i hi => h i hi) hpool

theorem interruptTransfer_unfit {hc : Bool} {devAddr ep : UInt8} {buffer : UInt32} {len : UInt16}
    {callback : Option Callback} {page : Bool} {s : Uhci} (h : ¬ s.Fits devAddr ep) :
    s.interruptTransfer hc devAddr ep buffer len callback page = (false, s) := by
  rcases s.interruptTransfer_cases hc devAddr ep buffer len callback page with
    ⟨i, hi, -⟩ | ⟨-, hcount, hfree, -⟩ | ⟨-, heq⟩ | ⟨-, hcount, hfree, -⟩
  · exact absurd (Or.inl (by rw [hi]; exact Option.some_ne_none i)) h
  · exact absurd (Or.inr ⟨hcount, hfree⟩) h
  · exact heq
  · exact absurd (Or.inr ⟨hcount, hfree⟩) h

/-- A submission that fails although there is a page changes nothing. -/
theorem interruptTransfer_failed {hc : Bool} {devAddr ep : UInt8} {buffer : UInt32} {len : UInt16}
    {callback : Option Callback} {s : Uhci}
    (h : (s.interruptTransfer hc devAddr ep buffer len callback true).1 = false) :
    (s.interruptTransfer hc devAddr ep buffer len callback true).2 = s := by
  rcases s.interruptTransfer_cases hc devAddr ep buffer len callback true with
    ⟨i, hi, heq⟩ | ⟨-, -, -, -, heq⟩ | ⟨-, heq⟩ | ⟨-, -, -, hpage, -⟩
  · rw [heq] at h
    exact Bool.noConfusion h
  · rw [heq] at h
    exact Bool.noConfusion h
  · rw [heq]
  · exact Bool.noConfusion hpage

theorem Keeps.tidy {s t : Uhci} (h : s.Tidy) (hkeeps : Keeps s.tdUsed s t)
    (hel : t.elLink = s.elLink) (hpool : t.tdUsed ≤ maxTds) : t.Tidy := by
  refine ⟨hpool, ?_, ?_⟩
  · rw [hkeeps.intUrbs, hkeeps.intUrbCount, hel]
    exact h.head
  · rw [hkeeps.intUrbs, hkeeps.intUrbCount]
    exact h.one

theorem Tidy.transfer {s : Uhci} (h : s.Tidy) (t : Transfer) (hw : Hw) : (t.run hw s).2.Tidy := by
  obtain ⟨hkeeps, hel, ⟨-, -, hused⟩ | ⟨-, hused⟩⟩ := t.run_spec hw h.pool
  · exact hkeeps.tidy h hel (by omega)
  · exact hkeeps.tidy h hel (by rw [hused]; exact h.pool)

/-! ## Each transfer has its own TD -/

/-- There are four entries at most, their TDs are in use, and no two share one. -/
structure Separate (s : Uhci) : Prop where
  pool : s.tdUsed ≤ maxTds
  count : s.intUrbCount ≤ 4
  used : ∀ i < s.intUrbCount, (s.intUrbs i).td < s.tdUsed
  apart : ∀ i < s.intUrbCount, ∀ j < s.intUrbCount, (s.intUrbs i).td = (s.intUrbs j).td → i = j

/-- The TDs of the entries stay what they are. -/
theorem Separate.of_tds {s t : Uhci} (h : s.Separate) (hcount : t.intUrbCount = s.intUrbCount)
    (htds : ∀ i, (t.intUrbs i).td = (s.intUrbs i).td) (hused : s.tdUsed ≤ t.tdUsed)
    (hpool : t.tdUsed ≤ maxTds) : t.Separate := by
  refine ⟨hpool, hcount ▸ h.count, ?_, ?_⟩
  · rw [hcount]
    intro i hi
    rw [htds]
    exact Nat.lt_of_lt_of_le (h.used i hi) hused
  · rw [hcount]
    intro i hi j hj heq
    rw [htds, htds] at heq
    exact h.apart i hi j hj heq

theorem Separate.interruptTransfer {s : Uhci} (h : s.Separate) (hc : Bool) (devAddr ep : UInt8)
    (buffer : UInt32) (len : UInt16) (callback : Option Callback) (page : Bool) :
    (s.interruptTransfer hc devAddr ep buffer len callback page).2.Separate := by
  rcases s.interruptTransfer_cases hc devAddr ep buffer len callback page with
    ⟨i, hi, heq⟩ | ⟨-, hroom, hfree, -, heq⟩ | ⟨-, heq⟩ | ⟨-, -, -, -, heq⟩ <;> rw [heq]
  · refine h.of_tds rfl (fun j => ?_) (Nat.le_refl _) h.pool
    by_cases hj : j = i
    · rw [hj]
      simp only [armed, Function.update_self, again]
    · simp only [armed, Function.update_of_ne hj]
  · have hold : ∀ j < s.intUrbCount, Function.update s.intUrbs s.intUrbCount
        (first hc devAddr ep buffer len callback s.tdUsed) j = s.intUrbs j := fun j hj =>
      Function.update_of_ne (by omega) _ _
    have hnew : (Function.update s.intUrbs s.intUrbCount
        (first hc devAddr ep buffer len callback s.tdUsed) s.intUrbCount).td = s.tdUsed := by
      rw [Function.update_self]
      rfl
    refine ⟨hfree, hroom, fun j hj => ?_, fun j hj k hk htd => ?_⟩
    · simp only [armed] at hj ⊢
      rcases Nat.lt_or_ge j s.intUrbCount with hlt | hge
      · rw [hold j hlt]
        exact Nat.lt_succ_of_lt (h.used j hlt)
      · have hj : j = s.intUrbCount := by omega
        rw [hj, hnew]
        exact Nat.lt_succ_self _
    · simp only [armed] at hj hk htd
      rcases Nat.lt_or_ge j s.intUrbCount with hlt | hge
      · rw [hold j hlt] at htd
        rcases Nat.lt_or_ge k s.intUrbCount with hlt' | hge'
        · rw [hold k hlt'] at htd
          exact h.apart j hlt k hlt' htd
        · have hk : k = s.intUrbCount := by omega
          rw [hk, hnew] at htd
          have := h.used j hlt
          omega
      · have hj : j = s.intUrbCount := by omega
        rw [hj, hnew] at htd
        rcases Nat.lt_or_ge k s.intUrbCount with hlt' | hge'
        · rw [hold k hlt'] at htd
          have := h.used k hlt'
          omega
        · omega
  · exact h
  · exact h.of_tds rfl (fun _ => rfl) (Nat.le_refl _) h.pool

theorem Separate.transfer {s : Uhci} (h : s.Separate) (t : Transfer) (hw : Hw) :
    (t.run hw s).2.Separate := by
  obtain ⟨hkeeps, -, hused⟩ := t.run_spec hw h.pool
  have hpool := h.pool
  exact h.of_tds hkeeps.intUrbCount (fun i => by rw [hkeeps.intUrbs]) (by omega) (by omega)

theorem Separate.submitUrb {s : Uhci} (h : s.Separate) (hc : Bool) (urb : Urb) (hw : Hw) :
    (s.submitUrb hc urb hw).2.Separate := by
  unfold Uhci.submitUrb
  split
  · exact h
  · cases urb.type with
    | control =>
      exact h.transfer
        (.control urb.devAddr urb.reqType urb.request urb.value urb.index urb.buffer urb.length) hw
    | interrupt => exact h.interruptTransfer _ _ _ _ _ _ _
    | bulk => exact h
    | iso => exact h

/-- A TD that ends its chain leads to itself only. -/
theorem reaches_armed {s t : Uhci} {i : Nat} {iu : IntUrb} (hel : t.elLink = (s.armed i iu).elLink)
    (hpool : t.tdPool = (s.armed i iu).tdPool) {td : Nat} (h : t.Reaches td) : td = iu.td := by
  have hend : ∀ {a b : Link}, t.Next a b → a = .td iu.td → b = .terminate := by
    rintro a b ⟨k, rfl, rfl⟩ hk
    obtain rfl := Link.td.inj hk
    rw [hpool]
    simp only [armed, Function.update_self, armedTd]
  unfold Reaches at h
  rw [hel] at h
  rcases Relation.ReflTransGen.cases_head h with heq | ⟨b, hstep, hrest⟩
  · exact (Link.td.inj heq).symm
  · rw [hend hstep rfl] at hrest
    rcases Relation.ReflTransGen.cases_head hrest with heq | ⟨c, ⟨k, hk, -⟩, -⟩
    · exact Link.noConfusion heq
    · exact Link.noConfusion hk

/-- Another transfer that is still in the schedule has the same TD. -/
theorem td_of_allScheduled {s t : Uhci} {i j : Nat} {iu : IntUrb} (hall : t.AllScheduled)
    (hel : t.elLink = (s.armed i iu).elLink) (hpool : t.tdPool = (s.armed i iu).tdPool)
    (hurbs : t.intUrbs = (s.armed i iu).intUrbs) (hj : j < t.intUrbCount) (hji : j ≠ i)
    (hactive : (s.intUrbs j).active = true) : (s.intUrbs j).td = iu.td := by
  have hkept : t.intUrbs j = s.intUrbs j := by
    rw [hurbs]
    exact Function.update_of_ne hji _ _
  have hreach := hall j hj (by rw [hkept]; exact hactive)
  rw [hkept] at hreach
  exact reaches_armed hel hpool hreach

/-- **A submission that succeeds** leaves every active transfer in the schedule if and only if none
was active before. -/
theorem Separate.allScheduled_iff {s : Uhci} (h : s.Separate) (hc : Bool) (devAddr ep : UInt8)
    (buffer : UInt32) (len : UInt16) (callback : Option Callback) (page : Bool)
    (hok : (s.interruptTransfer hc devAddr ep buffer len callback page).1 = true) :
    (s.interruptTransfer hc devAddr ep buffer len callback page).2.AllScheduled ↔ s.Idle := by
  refine ⟨fun hall j hj => ?_, fun hidle =>
    (hidle.tidy_interruptTransfer h.pool _ _ _ _ _ _ _).allScheduled⟩
  by_contra hactive
  rw [Bool.not_eq_false] at hactive
  rcases s.interruptTransfer_cases hc devAddr ep buffer len callback page with
    ⟨i, hi, heq⟩ | ⟨-, -, -, -, heq⟩ | ⟨-, heq⟩ | ⟨-, -, -, -, heq⟩
  · rw [heq] at hall
    obtain ⟨hlt, hstopped, -⟩ := reusable_some hi
    have hji : j ≠ i := by
      rintro rfl
      rw [hstopped] at hactive
      exact Bool.noConfusion hactive
    have htd := td_of_allScheduled hall rfl rfl rfl hj hji hactive
    exact hji (h.apart j hj i hlt htd)
  · rw [heq] at hall
    have hji : j ≠ s.intUrbCount := by omega
    have hlt : j < s.intUrbCount + 1 := by omega
    have htd := td_of_allScheduled hall rfl rfl rfl hlt hji hactive
    exact absurd (h.used j hj) (by rw [htd]; exact Nat.lt_irrefl _)
  · rw [heq] at hok
    exact Bool.noConfusion hok
  · rw [heq] at hok
    exact Bool.noConfusion hok

end Uhci

namespace UsbWorld

open Uhci

/-- A submission by a driver, where nothing is active. -/
theorem tidy_submitUrb {s : Uhci} (h : s.Idle) (hpool : s.tdUsed ≤ maxTds) (hc : Bool) (urb : Urb)
    (hw : Hw) : (s.submitUrb hc urb hw).2.Tidy := by
  unfold submitUrb
  split
  · exact h.tidy hpool
  · cases urb.type with
    | control =>
      exact (h.tidy hpool).transfer
        (.control urb.devAddr urb.reqType urb.request urb.value urb.index urb.buffer urb.length) hw
    | interrupt => exact h.tidy_interruptTransfer hpool _ _ _ _ _ _ _
    | bulk => exact h.tidy hpool
    | iso => exact h.tidy hpool

/-- The controller's side of a callback: it submits one transfer at most. -/
theorem runCallback_uhci (callback : Callback) (urb : Urb) (hw : Hw) (w : UsbWorld) :
    (w.runCallback callback urb hw).uhci = w.uhci ∨
      ∃ hc u, (w.runCallback callback urb hw).uhci = (w.uhci.submitUrb hc u hw).2 := by
  cases callback with
  | keyboard =>
    change (w.usbKbCallback urb hw).uhci = _ ∨ ∃ hc u, (w.usbKbCallback urb hw).uhci = _
    unfold usbKbCallback
    simp only
    split
    · exact Or.inr ⟨_, _, rfl⟩
    · exact Or.inl rfl
  | mouse =>
    change (w.usbMouseUrbCallback urb hw).uhci = _ ∨ ∃ hc u, (w.usbMouseUrbCallback urb hw).uhci = _
    unfold usbMouseUrbCallback
    simp only
    split
    · exact Or.inl rfl
    · split
      · split
        · exact Or.inr ⟨_, _, rfl⟩
        · exact Or.inr ⟨_, _, rfl⟩
      · exact Or.inl rfl

@[simp] theorem setIntUrb_setIntUrb (i : Nat) (a b : IntUrb) (w : UsbWorld) :
    (w.setIntUrb i a).setIntUrb i b = w.setIntUrb i b := by
  unfold setIntUrb
  simp only [Function.update_idem]

/-- A finished entry: no longer active, its length may be that of the report. -/
structure Stopped (iu iu' : IntUrb) : Prop where
  active : iu'.active = false
  td : iu'.td = iu.td
  dt : iu'.dt = iu.dt
  devAddr : iu'.urb.devAddr = iu.urb.devAddr
  endpoint : iu'.urb.endpoint = iu.urb.endpoint

/-- **The controller's side of a turn of `usb_poll`**: nothing, or an active entry is stopped and
at most one transfer is submitted. -/
theorem pollEntry_uhci (hw : Hw) (i : Nat) (w : UsbWorld) :
    (w.pollEntry hw i).uhci = w.uhci ∨
      (w.uhci.intUrbs i).active = true ∧ ∃ iu, Stopped (w.uhci.intUrbs i) iu ∧
        ((w.pollEntry hw i).uhci = (w.setIntUrb i iu).uhci ∨
          ∃ hc u, (w.pollEntry hw i).uhci = ((w.setIntUrb i iu).uhci.submitUrb hc u hw).2) := by
  unfold pollEntry
  simp only
  split
  · exact Or.inl rfl
  · next hactive =>
    split
    · exact Or.inl rfl
    · refine Or.inr ⟨by simpa using hactive, ?_⟩
      split
      · split
        · exact ⟨{ w.uhci.intUrbs i with active := false }, ⟨rfl, rfl, rfl, rfl, rfl⟩, Or.inl rfl⟩
        · next callback _ =>
          rw [setIntUrb_setIntUrb]
          refine ⟨{ w.uhci.intUrbs i with
            active := false
            urb := { (w.uhci.intUrbs i).urb with length := pollLength (w.status i) } },
            ⟨rfl, rfl, rfl, rfl, rfl⟩, ?_⟩
          exact runCallback_uhci callback _ hw _
      · exact ⟨{ w.uhci.intUrbs i with active := false }, ⟨rfl, rfl, rfl, rfl, rfl⟩,
          Or.inr ⟨_, _, rfl⟩⟩

theorem tidy_pollEntry {w : UsbWorld} (h : w.uhci.Tidy) (hw : Hw) {i : Nat}
    (hi : i < w.uhci.intUrbCount) : (w.pollEntry hw i).uhci.Tidy := by
  rcases w.pollEntry_uhci hw i with heq | ⟨hactive, iu, hiu, hend⟩
  · rw [heq]
    exact h
  · have hidle : (w.setIntUrb i iu).uhci.Idle := by
      refine h.idle_of hi hactive rfl ?_ fun j hj => Function.update_of_ne hj _ _
      change (Function.update w.uhci.intUrbs i iu i).active = false
      rw [Function.update_self]
      exact hiu.active
    rcases hend with heq | ⟨hc, u, heq⟩
    · rw [heq]
      exact hidle.tidy h.pool
    · rw [heq]
      exact tidy_submitUrb hidle h.pool hc u hw

theorem tidy_pollFrom {w : UsbWorld} (h : w.uhci.Tidy) (hw : Nat → Hw) (fuel i : Nat) :
    (w.pollFrom hw fuel i).uhci.Tidy := by
  induction fuel generalizing i w with
  | zero => exact h
  | succ fuel ih =>
    unfold pollFrom
    split
    · next hi => exact ih (tidy_pollEntry h (hw i) hi) (i + 1)
    · exact h

/-- What an event must meet: a driver submits an interrupt transfer only where no other one is
active, or none fits. -/
def OneAtATime (w : UsbWorld) : UsbEvent → Prop
  | .submit hc urb _ =>
    hc = true → urb.type = .interrupt → w.uhci.Fits urb.devAddr urb.endpoint → w.uhci.Idle
  | _ => True

/-- Each event of the run meets it. -/
def AllOneAtATime (w : UsbWorld) : List UsbEvent → Prop
  | [] => True
  | e :: es => w.OneAtATime e ∧ AllOneAtATime (w.step e) es

theorem tidy_step {w : UsbWorld} (h : w.uhci.Tidy) {e : UsbEvent} (he : w.OneAtATime e) :
    (w.step e).uhci.Tidy := by
  cases e with
  | hardware status mem => exact ⟨h.pool, h.head, h.one⟩
  | submit hc urb hw =>
    change (w.uhci.submitUrb hc urb hw).2.Tidy
    unfold submitUrb
    split
    · exact h
    · next hhc =>
      cases htype : urb.type with
      | control =>
        exact h.transfer
          (.control urb.devAddr urb.reqType urb.request urb.value urb.index urb.buffer urb.length) hw
      | interrupt =>
        by_cases hfits : w.uhci.Fits urb.devAddr urb.endpoint
        · exact (he (by simpa using hhc) htype hfits).tidy_interruptTransfer h.pool _ _ _ _ _ _ _
        · simp only
          rw [interruptTransfer_unfit hfits]
          exact h
      | bulk => exact h
      | iso => exact h
  | transfer t hw => exact h.transfer t hw
  | poll hw => exact tidy_pollFrom h hw 4 0
  | setup kb mouse => exact h

theorem tidy_run {w : UsbWorld} (h : w.uhci.Tidy) {es : List UsbEvent} (hes : w.AllOneAtATime es) :
    (w.run es).uhci.Tidy := by
  unfold run
  induction es generalizing w with
  | nil => exact h
  | cons e es ih => exact ih (tidy_step h hes.1) hes.2

/-! ## Every run -/

theorem separate_setIntUrb {w : UsbWorld} (h : w.uhci.Separate) {i : Nat} {iu : IntUrb}
    (hiu : Stopped (w.uhci.intUrbs i) iu) : (w.setIntUrb i iu).uhci.Separate := by
  refine h.of_tds rfl (fun j => ?_) (Nat.le_refl _) h.pool
  change (Function.update w.uhci.intUrbs i iu j).td = _
  by_cases hj : j = i
  · rw [hj, Function.update_self, hiu.td]
  · rw [Function.update_of_ne hj]

theorem separate_pollEntry {w : UsbWorld} (h : w.uhci.Separate) (hw : Hw) (i : Nat) :
    (w.pollEntry hw i).uhci.Separate := by
  rcases w.pollEntry_uhci hw i with heq | ⟨-, iu, hiu, hend⟩
  · rw [heq]
    exact h
  · have hstopped := separate_setIntUrb h hiu
    rcases hend with heq | ⟨hc, u, heq⟩ <;> rw [heq]
    · exact hstopped
    · exact hstopped.submitUrb hc u hw

theorem separate_pollFrom {w : UsbWorld} (h : w.uhci.Separate) (hw : Nat → Hw) (fuel i : Nat) :
    (w.pollFrom hw fuel i).uhci.Separate := by
  induction fuel generalizing i w with
  | zero => exact h
  | succ fuel ih =>
    unfold pollFrom
    split
    · exact ih (separate_pollEntry h (hw i) i) (i + 1)
    · exact h

theorem separate_step {w : UsbWorld} (h : w.uhci.Separate) (e : UsbEvent) :
    (w.step e).uhci.Separate := by
  cases e with
  | hardware status mem => exact ⟨h.pool, h.count, h.used, h.apart⟩
  | submit hc urb hw => exact h.submitUrb hc urb hw
  | transfer t hw => exact h.transfer t hw
  | poll hw => exact separate_pollFrom h hw 4 0
  | setup kb mouse => exact h

theorem separate_run {w : UsbWorld} (h : w.uhci.Separate) (es : List UsbEvent) :
    (w.run es).uhci.Separate := by
  unfold run
  induction es generalizing w with
  | nil => exact h
  | cons e es ih => exact ih (separate_step h e)

end UsbWorld

namespace Uhci

theorem separate_boot (pool : Nat → Td) (urbs : Nat → IntUrb) : (boot pool urbs).Separate :=
  ⟨Nat.zero_le _, Nat.zero_le _, fun _ hi => absurd hi (Nat.not_lt_zero _),
    fun _ hi => absurd hi (Nat.not_lt_zero _)⟩

theorem idle_boot (pool : Nat → Td) (urbs : Nat → IntUrb) : (boot pool urbs).Idle :=
  fun _ hi => absurd hi (Nat.not_lt_zero _)

end Uhci

/-- **Active interrupt transfers stay scheduled** in every run from boot in which transfers are
submitted one at a time. In every state of every run, a submission that fails changes nothing as
long as there is a page for it, and one that succeeds leaves all active transfers in the schedule
if and only if none was active before. -/
theorem interrupts_scheduled (pool : Nat → Td) (urbs : Nat → IntUrb) (mem : UInt32 → UInt8)
    (kbReport reportBuf : UInt32) (console : Console) (es : List UsbEvent) :
    let boot := UsbWorld.boot pool urbs mem kbReport reportBuf console
    (boot.AllOneAtATime es → (boot.run es).uhci.AllScheduled) ∧
      ∀ (hc : Bool) (devAddr ep : UInt8) (buffer : UInt32) (len : UInt16)
        (callback : Option Callback),
        (((boot.run es).uhci.interruptTransfer hc devAddr ep buffer len callback true).1 = false →
          ((boot.run es).uhci.interruptTransfer hc devAddr ep buffer len callback true).2.elLink =
              (boot.run es).uhci.elLink ∧
            ((boot.run es).uhci.interruptTransfer hc devAddr ep buffer len callback true).2.tdUsed =
              (boot.run es).uhci.tdUsed) ∧
        ∀ page,
          ((boot.run es).uhci.interruptTransfer hc devAddr ep buffer len callback page).1 = true →
          (((boot.run es).uhci.interruptTransfer hc devAddr ep buffer len callback
              page).2.AllScheduled ↔ (boot.run es).uhci.Idle) := by
  intro boot
  have hseparate : (boot.run es).uhci.Separate :=
    UsbWorld.separate_run (Uhci.separate_boot pool urbs) es
  refine ⟨fun hes => ?_, fun hc devAddr ep buffer len callback => ⟨fun hfail => ?_, fun page hok => ?_⟩⟩
  · exact (UsbWorld.tidy_run ((Uhci.idle_boot pool urbs).tidy (Nat.zero_le _)) hes).allScheduled
  · rw [Uhci.interruptTransfer_failed hfail]
    exact ⟨rfl, rfl⟩
  · exact hseparate.allScheduled_iff _ _ _ _ _ _ _ hok

/-- The keyboard is set up and submitted; a report comes in, then an error. Each time the transfer is
submitted again. -/
def keyboardEvents (w : UsbWorld) : List UsbEvent :=
  let hw : Hw := ⟨fun _ => 0, fun _ => 0, true⟩
  [.setup { w.kb with present := true, hc := true, addr := 1, ep := 1 } w.mouse,
    .submit true ⟨.interrupt, 1, 1, 1, 8, 0x1000, some .keyboard, 0, 0, 0, 0⟩ hw,
    .hardware (fun _ => 0x07) (fun _ => 0), .poll fun _ => hw,
    .hardware (fun _ => tdCtrlCrctimeo) (fun _ => 0), .poll fun _ => hw]

theorem interrupts_scheduled_keyboard :
    let boot := UsbWorld.boot default default (fun _ => 0) 0x1000 0x2000 (Console.boot fun _ => 0)
    (boot.run (keyboardEvents boot)).uhci.AllScheduled ∧
      ((boot.run (keyboardEvents boot)).uhci.intUrbs 0).active = true := by
  intro boot
  obtain ⟨hrun, -⟩ := interrupts_scheduled default default (fun _ => 0) 0x1000 0x2000
    (Console.boot fun _ => 0) (keyboardEvents boot)
  exact ⟨hrun ⟨trivial, fun _ _ _ => Uhci.idle_boot _ _, trivial, trivial, trivial, trivial, trivial⟩,
    by decide⟩

/-- Keyboard and mouse are both submitted: the keyboard is out of the schedule. And a submission
without a page for its URB leaves the queue head changed. -/
theorem second_endpoint_unscheduled :
    ¬ ((UsbWorld.boot default default (fun _ => 0) 0x1000 0x2000 (Console.boot fun _ => 0)).run
        [.submit true ⟨.interrupt, 1, 1, 1, 8, 0x1000, some .keyboard, 0, 0, 0, 0⟩
            ⟨fun _ => 0, fun _ => 0, true⟩,
          .submit true ⟨.interrupt, 2, 1, 1, 4, 0x2000, some .mouse, 0, 0, 0, 0⟩
            ⟨fun _ => 0, fun _ => 0, true⟩]).uhci.AllScheduled ∧
      ((Uhci.boot default default).interruptTransfer true 1 1 0x1000 8 none false).1 = false ∧
      ((Uhci.boot default default).interruptTransfer true 1 1 0x1000 8 none false).2.elLink ≠
        (Uhci.boot default default).elLink := by
  refine ⟨fun hall => ?_, by decide, by decide⟩
  have hseparate := UsbWorld.separate_run (w := UsbWorld.boot default default (fun _ => 0) 0x1000
    0x2000 (Console.boot fun _ => 0)) (Uhci.separate_boot _ _)
    [.submit true ⟨.interrupt, 1, 1, 1, 8, 0x1000, some .keyboard, 0, 0, 0, 0⟩
      ⟨fun _ => 0, fun _ => 0, true⟩]
  have hidle :=
    (hseparate.allScheduled_iff true 2 1 0x2000 4 (some .mouse) true (by decide)).mp hall
  exact absurd (hidle 0 (by decide)) (by decide)

end HaoSys.Driver
