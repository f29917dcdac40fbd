import HaoSys.Lib.Circular
import HaoSys.Driver.UsbHid

/-!
# Typing on a USB keyboard (`driver/usb_hid.c`)

A report lists the keys that are down. `usb_kb_callback` puts the characters of the
keys that the last report did not have into a ring, and `usb_keyboard_get_char`
takes them out again. `Typing` is the driver without the ring: a queue that drops
what comes behind its 31st character (`usb_keyboard_refines`). If every report shows
the keys that are down and the reader keeps up, every key types once, when it goes
down, and nothing else is typed (`usb_typing`).
-/

namespace HaoSys.Driver

open HaoSys.Lib

namespace UsbKeyboard

def usbKeyboardHasChar (kb : UsbKeyboard) : Bool := kb.head ≠ kb.tail

def usbKeyboardGetChar (kb : UsbKeyboard) : UInt8 × UsbKeyboard :=
  if kb.head = kb.tail then (0, kb)
  else (kb.buf kb.head, { kb with head := ⟨(kb.head.val + 1) % 32, Nat.mod_lt _ (Nat.succ_pos 31)⟩ })

/-- The characters in the ring, the oldest first. -/
def pending (kb : UsbKeyboard) : List UInt8 := ringList kb.buf kb.head kb.tail

end UsbKeyboard

/-- Left or right Shift in a report. -/
def shifted (r : List UInt8) : Bool := r.getD 0 0 &&& 0x02 ≠ 0 ∨ r.getD 0 0 &&& 0x20 ≠ 0

/-- The characters of the keys of `r` that `last` does not have, in the order of the slots. -/
def pressed (last r : List UInt8) : List UInt8 :=
  (((r.drop 2).filter fun k => k ≠ 0 ∧ !UsbKeyboard.hasKey last k).map
    fun k => UsbKeyboard.map k (shifted r)).filter (· ≠ 0)

/-! ## The queue -/

inductive TypeEvent where
  | report (r : List UInt8)
  | read

/-- The driver without its ring: the characters to be read, and the last report. -/
structure Typing where
  queue : List UInt8
  last : Option (List UInt8)

namespace Typing

def step (t : Typing) : TypeEvent → Typing × List UInt8
  | .report r =>
    match t.last with
    | none => (⟨t.queue, some r⟩, [])
    | some last => (⟨(t.queue ++ pressed last r).take 31, some r⟩, [])
  | .read => (⟨t.queue.tail, t.last⟩, t.queue.take 1)

def run : List TypeEvent → Typing → Typing × List UInt8
  | [], t => (t, [])
  | e :: es, t =>
    let (t', out) := t.step e
    let (t'', outs) := run es t'
    (t'', out ++ outs)

theorem run_cons (e : TypeEvent) (es : List TypeEvent) (t : Typing) :
    t.run (e :: es) =
      ((run es (t.step e).1).1, (t.step e).2 ++ (run es (t.step e).1).2) := rfl

end Typing

namespace UsbKeyboard

/-- A report, or a reader that takes a character if there is one. -/
def step (kb : UsbKeyboard) : TypeEvent → UsbKeyboard × List UInt8
  | .report r => (kb.takeReport r, [])
  | .read =>
    if kb.usbKeyboardHasChar then
      let (c, kb) := kb.usbKeyboardGetChar
      (kb, [c])
    else (kb, [])

def run : List TypeEvent → UsbKeyboard → UsbKeyboard × List UInt8
  | [], kb => (kb, [])
  | e :: es, kb =>
    let (kb', out) := kb.step e
    let (kb'', outs) := run es kb'
    (kb'', out ++ outs)

def typing (kb : UsbKeyboard) : Typing :=
  ⟨kb.pending, if kb.firstReport then none else some kb.prev⟩

section

variable {kb : UsbKeyboard} {c : UInt8} {last r : List UInt8}

theorem length_pending_le (kb : UsbKeyboard) : kb.pending.length ≤ 31 :=
  length_ringList.trans_le ringLength_le

theorem val_succ (i : Fin 32) : (i + 1).val = (i.val + 1) % (31 + 1) := rfl

/-- A character that finds no room is dropped. -/
theorem pending_push (c : UInt8) (kb : UsbKeyboard) :
    (kb.push c).pending = (kb.pending ++ [c]).take 31 := by
  have hfull : kb.tail + 1 = kb.head ↔ ringLength kb.head kb.tail = 31 :=
    ringLength_full (val_succ kb.tail)
  have hlen : kb.pending.length = ringLength kb.head kb.tail := length_ringList
  have hle := length_pending_le kb
  unfold push
  simp only
  split
  · next hroom =>
    have hne : kb.pending.length ≠ 31 := fun e => hroom (hfull.2 (hlen ▸ e))
    rw [List.take_of_length_le (by rw [List.length_append, List.length_singleton]; omega)]
    exact ringList_push (val_succ kb.tail) hroom
  · next hroom =>
    have h31 : kb.pending.length = 31 := hlen.trans (hfull.1 (not_not.1 hroom))
    rw [← h31, List.take_left]

theorem push_prev (c : UInt8) (kb : UsbKeyboard) :
    (kb.push c).prev = kb.prev ∧ (kb.push c).firstReport = kb.firstReport := by
  unfold push
  simp only
  split <;> exact ⟨rfl, rfl⟩

theorem take_take_append {q cs : List UInt8} (c : UInt8) (h : q.length ≤ 31) :
    ((q ++ [c]).take 31 ++ cs).take 31 = (q ++ c :: cs).take 31 := by
  rcases Nat.lt_or_ge q.length 31 with hlt | hge
  · have hroom : (q ++ [c]).length ≤ 31 := by
      rw [List.length_append, List.length_singleton]
      omega
    rw [List.take_of_length_le hroom, List.append_assoc]
    rfl
  · have h31 : q.length = 31 := by omega
    rw [← h31, List.take_left, List.take_left, List.take_left]

/-- What a report types, as one list. -/
theorem foldl_pressed (keys : List UInt8) (shift : Bool) (kb : UsbKeyboard) :
    let kb' := keys.foldl (fun kb k =>
      if k ≠ 0 ∧ !hasKey kb.prev k then
        let c := map k shift
        if c ≠ 0 then kb.push c else kb
      else kb) kb
    kb'.pending = (kb.pending ++ (((keys.filter fun k => k ≠ 0 ∧ !hasKey kb.prev k).map
      fun k => map k shift).filter (· ≠ 0))).take 31 ∧
      kb'.prev = kb.prev ∧ kb'.firstReport = kb.firstReport := by
  induction keys generalizing kb with
  | nil =>
    refine ⟨?_, rfl, rfl⟩
    rw [List.filter_nil, List.map_nil, List.filter_nil, List.append_nil,
      List.take_of_length_le (length_pending_le kb)]
    rfl
  | cons k keys ih =>
    rw [List.foldl_cons]
    by_cases hk : k ≠ 0 ∧ !hasKey kb.prev k
    · rw [if_pos hk, List.filter_cons_of_pos (by simpa using hk), List.map_cons]
      by_cases hc : map k shift ≠ 0
      · simp only [if_pos hc]
        obtain ⟨hpend, hprev, hfirst⟩ := ih (kb.push (map k shift))
        obtain ⟨hp, hf⟩ := push_prev (map k shift) kb
        rw [hp] at hpend hprev
        refine ⟨?_, hprev, hfirst.trans hf⟩
        rw [hpend, pending_push, take_take_append _ (length_pending_le kb),
          List.filter_cons_of_pos (by simpa using hc)]
      · simp only [if_neg hc]
        rw [List.filter_cons_of_neg (by simpa using hc)]
        exact ih kb
    · rw [if_neg hk, List.filter_cons_of_neg (by simpa using hk)]
      exact ih kb

/-- A report adds what it types to the queue. -/
theorem typing_takeReport (kb : UsbKeyboard) (r : List UInt8) :
    (kb.takeReport r).typing = (kb.typing.step (.report r)).1 := by
  cases hf : kb.firstReport with
  | true =>
    have htake : kb.takeReport r = { kb with firstReport := false, prev := r } := by
      unfold takeReport
      simp only [hf, Bool.not_true, Bool.false_eq_true, if_false]
    rw [htake]
    unfold typing Typing.step
    simp only [hf, if_true]
    rfl
  | false =>
    obtain ⟨hpend, -, hfirst⟩ := foldl_pressed (r.drop 2) (shifted r) kb
    have hlast : kb.typing.last = some kb.prev := by
      unfold typing
      rw [hf]
      rfl
    unfold takeReport
    simp only [hf, Bool.not_false, if_true]
    unfold Typing.step
    rw [hlast]
    refine congrArg₂ Typing.mk hpend ?_
    exact if_neg (by rw [← Bool.not_eq_true] at hf; exact fun e => hf (hfirst ▸ e))

/-- A reader takes the oldest character. -/
theorem typing_read (kb : UsbKeyboard) :
    (kb.step .read).1.typing = (kb.typing.step .read).1 ∧
      (kb.step .read).2 = (kb.typing.step .read).2 := by
  unfold step usbKeyboardHasChar usbKeyboardGetChar
  by_cases h : kb.head = kb.tail
  · have hnil : kb.pending = [] :=
      List.length_eq_zero_iff.1 (length_ringList.trans (ringLength_eq_zero.2 h))
    simp only [h, ne_eq, not_true_eq_false, decide_false, Bool.false_eq_true, if_false]
    unfold Typing.step typing
    simp only [hnil]
    exact ⟨rfl, rfl⟩
  · have hlt : (kb.head.val + 1) % 32 < 32 := Nat.mod_lt _ (Nat.succ_pos 31)
    have hval : (⟨(kb.head.val + 1) % 32, hlt⟩ : Fin 32).val = (kb.head.val + 1) % (31 + 1) := rfl
    have hpop : kb.pending =
        kb.buf kb.head :: pending { kb with head := ⟨(kb.head.val + 1) % 32, hlt⟩ } :=
      ringList_pop hval h
    simp only [h, ne_eq, not_false_eq_true, decide_true, if_true, if_false]
    unfold Typing.step typing
    simp only [hpop]
    exact ⟨rfl, rfl⟩

theorem typing_step (kb : UsbKeyboard) (e : TypeEvent) :
    (kb.step e).1.typing = (kb.typing.step e).1 ∧ (kb.step e).2 = (kb.typing.step e).2 := by
  cases e with
  | report r =>
    refine ⟨typing_takeReport kb r, ?_⟩
    unfold step Typing.step
    cases kb.typing.last <;> rfl
  | read => exact typing_read kb

end

end UsbKeyboard

/-- The callback of a finished transfer is such a report. -/
theorem UsbWorld.usbKbCallback_typing (urb : Urb) (hw : Hw) (w : UsbWorld) :
    (w.usbKbCallback urb hw).kb.typing =
      (w.kb.typing.step (.report (w.bytes urb.buffer 8))).1 := by
  rw [← UsbKeyboard.typing_takeReport]
  unfold usbKbCallback
  simp only
  split <;> rfl

/-- **The driver is the queue**: in every run of reports and reads. -/
theorem usb_keyboard_refines (kb : UsbKeyboard) (es : List TypeEvent) :
    (kb.run es).2 = (kb.typing.run es).2 ∧ (kb.run es).1.typing = (kb.typing.run es).1 := by
  induction es generalizing kb with
  | nil => exact ⟨rfl, rfl⟩
  | cons e es ih =>
    obtain ⟨hstate, hout⟩ := kb.typing_step e
    obtain ⟨houts, hend⟩ := ih (kb.step e).1
    rw [hstate] at houts hend
    exact ⟨congrArg₂ (· ++ ·) hout houts, hend⟩

/-! ## Keys that go down and up -/

/-- The keys that are down, and Shift. -/
structure Keys where
  down : List UInt8
  shift : Bool

inductive KeyEvent where
  | press (usage : UInt8)
  | release (usage : UInt8)
  | shift (down : Bool)

def KeyEvent.Allowed (k : Keys) : KeyEvent → Prop
  | press usage => usage ≠ 0 ∧ usage ∉ k.down
  | release usage => usage ∈ k.down
  | shift _ => True

def Keys.after (k : Keys) : KeyEvent → Keys
  | .press usage => { k with down := usage :: k.down }
  | .release usage => { k with down := k.down.erase usage }
  | .shift down => { k with shift := down }

/-- The character of a key that goes down. -/
def KeyEvent.typed (k : Keys) : KeyEvent → List UInt8
  | press usage => [UsbKeyboard.map usage k.shift].filter (· ≠ 0)
  | release _ => []
  | shift _ => []

/-- A report of the keys that are down, in any order, for which it has six slots. -/
structure Shows (k : Keys) (r : List UInt8) : Prop where
  length : r.length = 8
  slots : ((r.drop 2).filter (· ≠ 0)).Perm k.down
  shift : shifted r = k.shift

/-- A key event with the report behind it, or a read. -/
inductive Act where
  | key (e : KeyEvent) (r : List UInt8)
  | read

def Act.event : Act → TypeEvent
  | key _ r => .report r
  | read => .read

/-- Every report shows the keys that are down, and the `n` characters in the queue leave room. -/
def Legal : Keys → Nat → List Act → Prop
  | _, _, [] => True
  | k, n, .key e r :: as =>
    e.Allowed k ∧ Shows (k.after e) r ∧ n + (e.typed k).length ≤ 31 ∧
      Legal (k.after e) (n + (e.typed k).length) as
  | k, n, .read :: as => Legal k (n - 1) as

/-- What the keys type. -/
def typedBy : Keys → List Act → List UInt8
  | _, [] => []
  | k, .key e _ :: as => e.typed k ++ typedBy (k.after e) as
  | k, .read :: as => typedBy k as

section

variable {k : Keys} {e : KeyEvent} {last r : List UInt8} {n : Nat} {as : List Act}

theorem Shows.hasKey_iff (h : Shows k r) {u : UInt8} (hu : u ≠ 0) :
    UsbKeyboard.hasKey r u = true ↔ u ∈ k.down := by
  rw [← h.slots.mem_iff, List.mem_filter, UsbKeyboard.hasKey, List.contains_iff_mem]
  simp [hu]

/-- The keys of a report that the one before does not have. -/
theorem Shows.new_perm {k' : Keys} (hlast : Shows k last) (h : Shows k' r) :
    ((r.drop 2).filter fun u => u ≠ 0 ∧ !UsbKeyboard.hasKey last u).Perm
      (k'.down.filter fun u => u ∉ k.down) := by
  have hsplit : ((r.drop 2).filter fun u => u ≠ 0 ∧ !UsbKeyboard.hasKey last u) =
      ((r.drop 2).filter (· ≠ 0)).filter fun u => u ∉ k.down := by
    rw [List.filter_filter]
    refine List.filter_congr fun u _ => ?_
    by_cases hu : u = 0
    · simp [hu]
    · have := hlast.hasKey_iff hu
      cases hb : UsbKeyboard.hasKey last u <;> simp_all
  rw [hsplit]
  exact h.slots.filter _

/-- A report types the key that went down since the one before. -/
theorem Shows.pressed_eq (hlast : Shows k last) (he : e.Allowed k) (h : Shows (k.after e) r) :
    pressed last r = e.typed k := by
  have hperm := hlast.new_perm h
  unfold pressed
  rw [h.shift]
  cases e with
  | press u =>
    obtain ⟨-, hu⟩ := he
    have hnew : (k.after (.press u)).down.filter (fun u => u ∉ k.down) = [u] := by
      have hold : k.down.filter (fun u => u ∉ k.down) = [] :=
        List.filter_eq_nil_iff.2 fun v hv => by simp [hv]
      change (u :: k.down).filter _ = _
      rw [List.filter_cons_of_pos (by simpa using hu), hold]
    rw [hnew] at hperm
    rw [hperm.eq_singleton]
    rfl
  | release u =>
    have hnone : (k.after (.release u)).down.filter (fun u => u ∉ k.down) = [] :=
      List.filter_eq_nil_iff.2 fun v hv => by simp [List.mem_of_mem_erase hv]
    rw [hnone] at hperm
    rw [hperm.eq_nil]
    rfl
  | shift b =>
    have hnone : (k.after (.shift b)).down.filter (fun u => u ∉ k.down) = [] :=
      List.filter_eq_nil_iff.2 fun v (hv : v ∈ k.down) => by simp [hv]
    rw [hnone] at hperm
    rw [hperm.eq_nil]
    rfl

/-- The queue in such a run. -/
theorem Legal.run (h : Legal k n as) {t : Typing} (hlen : t.queue.length = n)
    (hlast : t.last = some last) (hshows : Shows k last) :
    (t.run (as.map Act.event)).2 ++ (t.run (as.map Act.event)).1.queue =
      t.queue ++ typedBy k as := by
  induction as generalizing k n t last with
  | nil => exact (List.append_nil _).symm
  | cons a as ih =>
    cases a with
    | key e r =>
      obtain ⟨he, hr, hroom, hlegal⟩ := h
      have htyped := hshows.pressed_eq he hr
      have hstep : t.step (.report r) = (⟨t.queue ++ e.typed k, some r⟩, []) := by
        unfold Typing.step
        simp only [hlast]
        rw [htyped, List.take_of_length_le (by rw [List.length_append]; omega)]
      have hlen' : (t.queue ++ e.typed k).length = n + (e.typed k).length := by
        rw [List.length_append, hlen]
      have hnext := ih hlegal (t := ⟨t.queue ++ e.typed k, some r⟩) hlen' rfl hr
      rw [List.map_cons, Act.event, Typing.run_cons, hstep]
      exact hnext.trans (List.append_assoc ..)
    | read =>
      have hlen' : (⟨t.queue.tail, t.last⟩ : Typing).queue.length = n - 1 := by
        rw [List.length_tail, hlen]
      have hnext := ih h (t := ⟨t.queue.tail, t.last⟩) hlen' hlast hshows
      rw [List.map_cons, Act.event, Typing.run_cons]
      change (t.queue.take 1 ++ _) ++ _ = t.queue ++ typedBy k as
      rw [List.append_assoc]
      refine (congrArg (t.queue.take 1 ++ ·) hnext).trans ?_
      rw [← List.append_assoc]
      cases t.queue <;> rfl

end

/-- **Every key types once, when it goes down**, and nothing else does. -/
theorem usb_typing {kb : UsbKeyboard} {k : Keys} {as : List Act} (hfirst : kb.firstReport = false)
    (hshows : Shows k kb.prev) (h : Legal k kb.pending.length as) :
    (kb.run (as.map Act.event)).2 ++ (kb.run (as.map Act.event)).1.pending =
      kb.pending ++ typedBy k as := by
  obtain ⟨hout, hend⟩ := usb_keyboard_refines kb (as.map Act.event)
  have hlast : kb.typing.last = some kb.prev := by
    unfold UsbKeyboard.typing
    rw [hfirst]
    rfl
  have hrun := h.run (t := kb.typing) rfl hlast hshows
  rw [← hout, ← hend] at hrun
  exact hrun

/-- Shift and a key go down and up, where the ring wraps. -/
theorem usb_typing_shifted :
    let kb : UsbKeyboard := ⟨true, true, 1, 1, 0, List.replicate 8 0, false, fun _ => 0, 31, 31⟩
    let as : List Act := [.key (.shift true) [0x02, 0, 0, 0, 0, 0, 0, 0],
      .key (.press 0x04) [0x02, 0, 0x04, 0, 0, 0, 0, 0],
      .key (.press 0x05) [0x02, 0, 0x05, 0x04, 0, 0, 0, 0], .read,
      .key (.release 0x04) [0x02, 0, 0x05, 0, 0, 0, 0, 0]]
    (kb.run (as.map Act.event)).2 ++ (kb.run (as.map Act.event)).1.pending = [0x41, 0x42] := by
  intro kb as
  have hnone : Shows ⟨[], false⟩ kb.prev := ⟨by decide, by decide, by decide⟩
  have hlegal : Legal ⟨[], false⟩ kb.pending.length as :=
    ⟨trivial, ⟨by decide, by decide, by decide⟩, by decide,
      ⟨by decide, by decide⟩, ⟨by decide, by decide, by decide⟩, by decide,
      ⟨by decide, by decide⟩, ⟨by decide, by decide, by decide⟩, by decide,
      (by decide : (0x04 : UInt8) ∈ [0x05, 0x04]), ⟨by decide, by decide, by decide⟩, by decide,
      trivial⟩
  exact (usb_typing rfl hnone hlegal).trans (by decide)

end HaoSys.Driver
