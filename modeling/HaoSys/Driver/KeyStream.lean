import HaoSys.Driver.Keyboard

/-!
# The two ways of reading a key

What both functions make of a stream is `decodeKeys` of its keyboard bytes, in
the order in which they come; the mouse bytes in between go to the mouse. A
call of either takes a prefix of that off (`Rest`), so the results of all calls
are the whole of it.
-/

namespace HaoSys.Driver

open Ps2

/-- The character of a scancode, arrows included; 0 is none. -/
def keyChar (sc : UInt8) (m : Modifiers) : UInt8 × Modifiers :=
  match if sc &&& 0x80 = 0 then arrowCode sc else none with
  | some c => (c, m)
  | none => ps2ScancodeToAscii sc m

/-- The characters of the scancodes, and the modifiers behind them. -/
def decodeKeys : Modifiers → List UInt8 → List UInt8 × Modifiers
  | m, [] => ([], m)
  | m, sc :: scs =>
    let (c, m) := keyChar sc m
    let (cs, m) := decodeKeys m scs
    (if c ≠ 0 then c :: cs else cs, m)

def PortByte.key? : PortByte → Option UInt8
  | key sc => some sc
  | mouse _ => none

def PortByte.mouse? : PortByte → Option UInt8
  | key _ => none
  | mouse data => some data

/-- The keyboard bytes to come. -/
def keysOf (port : List (Option PortByte)) : List UInt8 := port.reduceOption.filterMap PortByte.key?

/-- The mouse bytes to come. -/
def miceOf (port : List (Option PortByte)) : List UInt8 :=
  port.reduceOption.filterMap PortByte.mouse?

/-- No more than 63 keyboard bytes come between two looks that see nothing, `n` of which have been
read. -/
def DrainsFit : Nat → List (Option PortByte) → Prop
  | _, [] => True
  | _, none :: port => DrainsFit 0 port
  | n, some (.mouse _) :: port => DrainsFit n port
  | n, some (.key _) :: port => n < 63 ∧ DrainsFit (n + 1) port

/-- A character is never the result for none. -/
theorem keyChar_ne_noChar (sc : UInt8) (m : Modifiers) : (keyChar sc m).1 ≠ noChar := by
  obtain ⟨shift, caps⟩ := m
  revert shift caps sc
  refine forall_byte ?_
  decide +kernel

theorem keyChar_arrow {sc c : UInt8} {m : Modifiers}
    (h : (if sc &&& 0x80 = 0 then arrowCode sc else none) = some c) : keyChar sc m = (c, m) ∧ c ≠ 0 := by
  have hall : ∀ sc : UInt8, arrowCode sc ≠ some 0 := forall_byte (by decide +kernel)
  refine ⟨by rw [keyChar, h], ?_⟩
  rintro rfl
  split at h
  · exact hall sc h
  · cases h

theorem keyChar_plain {sc : UInt8} {m : Modifiers}
    (h : (if sc &&& 0x80 = 0 then arrowCode sc else none) = none) :
    keyChar sc m = ps2ScancodeToAscii sc m := by rw [keyChar, h]

/-! ## The ring -/

namespace Keyboard

variable {k : Keyboard}

theorem length_pending : k.pending.length = (k.ps2Tail - k.ps2Head).val := by simp [pending]

theorem pending_eq_nil : k.pending = [] ↔ k.ps2Head = k.ps2Tail := by
  rw [← List.length_eq_zero_iff, length_pending, Fin.ext_iff]
  have := k.ps2Head.isLt
  have := k.ps2Tail.isLt
  simp only [Fin.sub_def]
  omega

/-- A byte read from the ring is the oldest one. -/
theorem pending_dequeue (h : k.ps2Head ≠ k.ps2Tail) :
    k.pending = k.dequeue.1 :: k.dequeue.2.pending := by
  have hsize := size_dequeue h
  unfold pending dequeue
  simp only
  rw [← hsize, List.range_succ_eq_map, List.map_cons, List.map_map]
  refine congrArg₂ _ (congrArg _ (Fin.add_zero _)) (List.map_congr_left fun i _ => ?_)
  refine congrArg _ (Fin.ext ?_)
  simp only [Fin.add_def, Fin.ofNat, Fin.val_one]
  omega

/-- A byte put into the ring is the newest one, unless the ring is full. -/
theorem pending_enqueue (sc : UInt8) (h : k.pending.length < 63) :
    (k.enqueue sc).pending = k.pending ++ [sc] := by
  have hh := k.ps2Head.isLt
  have ht := k.ps2Tail.isLt
  have hlen : (k.ps2Tail - k.ps2Head).val < 63 := by rwa [length_pending] at h
  have hsize : (k.ps2Tail + 1 - k.ps2Head).val = (k.ps2Tail - k.ps2Head).val + 1 := by
    simp only [Fin.sub_def, Fin.add_def, Fin.val_one] at hlen ⊢
    omega
  have hroom : k.ps2Tail + 1 ≠ k.ps2Head := by
    rw [Ne, Fin.ext_iff]
    simp only [Fin.sub_def, Fin.add_def, Fin.val_one] at hlen ⊢
    omega
  unfold enqueue
  simp only [if_pos hroom]
  unfold pending
  simp only
  rw [hsize, List.range_succ, List.map_append, List.map_singleton]
  have hidx : ∀ i < 64, (k.ps2Head + Fin.ofNat 64 i).val = (k.ps2Head.val + i) % 64 := by
    intro i hi
    simp only [Fin.add_def, Fin.ofNat]
    omega
  refine congrArg₂ _ (List.map_congr_left fun i hi => ?_) (congrArg (fun c => [c]) ?_)
  · refine Function.update_of_ne (fun e => ?_) _ _
    have hi := List.mem_range.1 hi
    have := congrArg Fin.val e
    rw [hidx i (by omega)] at this
    simp only [Fin.sub_def] at hi hlen
    omega
  · rw [show k.ps2Head + Fin.ofNat 64 (k.ps2Tail - k.ps2Head).val = k.ps2Tail from Fin.ext (by
      rw [hidx _ (by omega)]
      simp only [Fin.sub_def]
      omega)]
    exact Function.update_self _ _ _

theorem mods_enqueue (sc : UInt8) : (k.enqueue sc).mods = k.mods := by
  simp only [enqueue]
  split <;> rfl

end Keyboard

/-! ## What is left of the stream -/

namespace Ps2

/-- The keyboard bytes to come, those in the ring first. -/
def keys (s : Ps2) : List UInt8 := s.kbd.pending ++ keysOf s.port

/-- What goes to the mouse in the end. -/
def mice (s : Ps2) : List UInt8 := s.fed ++ miceOf s.port

/-- The characters `cs` are the first of what `s` stands for, and `t` stands for the rest. -/
structure Rest (s : Ps2) (cs : List UInt8) (t : Ps2) : Prop where
  keys : decodeKeys s.kbd.mods s.keys =
    (cs ++ (decodeKeys t.kbd.mods t.keys).1, (decodeKeys t.kbd.mods t.keys).2)
  mice : s.mice = t.mice

variable {s t u : Ps2} {cs ds : List UInt8}

theorem Rest.refl (s : Ps2) : Rest s [] s := ⟨rfl, rfl⟩

theorem Rest.trans (h : Rest s cs t) (h' : Rest t ds u) : Rest s (cs ++ ds) u :=
  ⟨by rw [h.keys, h'.keys, List.append_assoc], h.mice.trans h'.mice⟩

/-- A scancode is taken off. -/
theorem Rest.take {sc : UInt8} (hkeys : s.keys = sc :: t.keys)
    (hmods : t.kbd.mods = (keyChar sc s.kbd.mods).2) (hmice : s.mice = t.mice) :
    Rest s (if (keyChar sc s.kbd.mods).1 ≠ 0 then [(keyChar sc s.kbd.mods).1] else []) t := by
  refine ⟨?_, hmice⟩
  rw [hkeys, decodeKeys, hmods]
  simp only
  split
  · rfl
  · rfl

theorem keys_dequeue (h : s.kbd.ps2Head ≠ s.kbd.ps2Tail) (mods : Modifiers) :
    s.keys = s.kbd.dequeue.1 :: keys { s with kbd := { s.kbd.dequeue.2 with mods } } := by
  rw [keys, s.kbd.pending_dequeue h]
  rfl

theorem keys_of_empty (h : s.kbd.ps2Head = s.kbd.ps2Tail) : s.keys = keysOf s.port := by
  rw [keys, Keyboard.pending_eq_nil.2 h]
  rfl

/-! ## The blocking call -/

theorem drain_spec (kbd : Keyboard) (fed : List UInt8) (port : List (Option PortByte))
    (h : DrainsFit kbd.pending.length port) :
    (drain kbd fed port).keys = kbd.pending ++ keysOf port ∧
      (drain kbd fed port).mice = fed ++ miceOf port ∧ (drain kbd fed port).kbd.mods = kbd.mods ∧
      DrainsFit 0 (drain kbd fed port).port := by
  induction port generalizing kbd fed with
  | nil => exact ⟨rfl, rfl, rfl, trivial⟩
  | cons b port ih =>
    rcases b with _ | sc | data
    · exact ⟨rfl, rfl, rfl, h⟩
    · obtain ⟨hroom, hfit⟩ := h
      have hp := kbd.pending_enqueue sc hroom
      obtain ⟨hk, hm, hmods, hf⟩ := ih (kbd.enqueue sc) fed (by
        rw [hp, List.length_append]
        exact hfit)
      refine ⟨?_, hm, hmods.trans (kbd.mods_enqueue sc), hf⟩
      rw [drain, hk, hp, List.append_assoc]
      rfl
    · obtain ⟨hk, hm, hmods, hf⟩ := ih kbd (fed ++ [data]) h
      refine ⟨hk, ?_, hmods, hf⟩
      rw [drain, hm, List.append_assoc]
      rfl

theorem waitForData_spec {port : List (Option PortByte)} (h : DrainsFit 0 port) :
    keysOf (waitForData port) = keysOf port ∧ miceOf (waitForData port) = miceOf port ∧
      DrainsFit 0 (waitForData port) := by
  induction port with
  | nil => exact ⟨rfl, rfl, trivial⟩
  | cons b port ih =>
    rcases b with _ | b
    · exact ih h
    · exact ⟨rfl, rfl, h⟩

/-- What a call of `keyboard_get_char` returns: a character and what is left behind it, or no
character and nothing is left. -/
def Reads (s : Ps2) : Option UInt8 × Ps2 → Prop
  | (some c, t) => Rest s [c] t ∧ t.keys.length < s.keys.length ∧ DrainsFit 0 t.port
  | (none, t) => Rest s [] t ∧ t.kbd.pending = [] ∧ t.port = []

theorem Rest.reads (h : Rest s [] t) (hle : t.keys.length ≤ s.keys.length) :
    ∀ {r}, Reads t r → Reads s r
  | (some _, _), hr => ⟨h.trans hr.1, hr.2.1.trans_le hle, hr.2.2⟩
  | (none, _), hr => ⟨h.trans hr.1, hr.2⟩

theorem keyboardGetChar_reads (s : Ps2) (h : DrainsFit 0 s.port) : s.Reads s.keyboardGetChar := by
  fun_induction keyboardGetChar s with
  | case1 s hne sc kbd c harrow =>
    -- an arrow key
    simp only [dite_eq_ite] at harrow
    obtain ⟨hchar, hc⟩ := keyChar_arrow (m := s.kbd.mods) harrow
    have hkeys := keys_dequeue hne s.kbd.mods
    have hrest := Rest.take hkeys (by rw [hchar]) rfl
    rw [hchar, if_pos hc] at hrest
    exact ⟨hrest, by rw [hkeys]; exact Nat.lt_succ_self _, h⟩
  | case2 s hne sc kbd hplain c mods hascii hc =>
    simp only [dite_eq_ite] at hplain
    have hchar : keyChar sc s.kbd.mods = (c, mods) := (keyChar_plain hplain).trans hascii
    have hkeys := keys_dequeue hne mods
    have hrest := Rest.take hkeys (by rw [hchar]) rfl
    rw [hchar, if_pos hc] at hrest
    exact ⟨hrest, by rw [hkeys]; exact Nat.lt_succ_self _, h⟩
  | case3 s hne sc kbd hplain c mods hascii hc ih =>
    -- no character: the next scancode
    simp only [dite_eq_ite] at hplain
    have hchar : keyChar sc s.kbd.mods = (c, mods) := (keyChar_plain hplain).trans hascii
    have hkeys := keys_dequeue hne mods
    have hrest := Rest.take hkeys (by rw [hchar]) rfl
    rw [hchar, if_neg hc] at hrest
    exact hrest.reads (by rw [hkeys]; exact Nat.le_succ _) (ih h)
  | case4 s hne hwait =>
    obtain ⟨hk, hm, -⟩ := waitForData_spec h
    rw [hwait] at hk hm
    have hempty := not_not.1 hne
    refine ⟨⟨?_, ?_⟩, Keyboard.pending_eq_nil.2 hempty, rfl⟩
    · rw [keys_of_empty hempty, ← hk, keys_of_empty (s := ⟨s.kbd, [], s.fed⟩) hempty]
      rfl
    · rw [mice, mice, ← hm]
  | case5 s hne b port hwait ih =>
    -- the controller is read empty
    obtain ⟨hk, hm, hf⟩ := waitForData_spec h
    have hempty := not_not.1 hne
    have hnil := Keyboard.pending_eq_nil.2 hempty
    rw [hwait] at hk hm hf
    obtain ⟨hkeys, hmice, hmods, hfit⟩ := drain_spec s.kbd s.fed (b :: port)
      (by rw [hnil]; exact hf)
    rw [hnil, List.nil_append, hk, ← keys_of_empty hempty] at hkeys
    have hrest : Rest s [] (drain s.kbd s.fed (b :: port)) :=
      ⟨by rw [hmods, hkeys]; rfl, by rw [hmice, hm]; rfl⟩
    exact hrest.reads (by rw [hkeys]) (ih hfit)

/-- What all calls make of the stream: its characters, the modifiers behind it and what the mouse
got. -/
structure Done (s : Ps2) (cs : List UInt8) (t : Ps2) : Prop where
  chars : cs = (decodeKeys s.kbd.mods s.keys).1
  mods : t.kbd.mods = (decodeKeys s.kbd.mods s.keys).2
  fed : t.fed = s.mice

theorem Rest.done (h : Rest s cs t) (hp : t.kbd.pending = []) (hport : t.port = []) :
    Done s cs t := by
  have hkeys : t.keys = [] := by
    rw [Ps2.keys, hp, hport]
    rfl
  have hdecode := h.keys
  rw [hkeys] at hdecode
  refine ⟨by rw [hdecode]; exact (List.append_nil cs).symm, by rw [hdecode]; rfl, ?_⟩
  rw [h.mice, Ps2.mice, hport]
  exact (List.append_nil _).symm

theorem Rest.done_trans (h : Rest s cs t) (h' : Done t ds u) : Done s (cs ++ ds) u :=
  ⟨by rw [h.keys, h'.chars], by rw [h.keys, h'.mods], by rw [h'.fed, h.mice]⟩

theorem getChars_done {n : Nat} (h : DrainsFit 0 s.port) (hn : s.keys.length < n) :
    Done s (s.getChars n).1 (s.getChars n).2 := by
  induction n generalizing s with
  | zero => exact absurd hn (Nat.not_lt_zero _)
  | succ n ih =>
    have hr := s.keyboardGetChar_reads h
    rw [getChars]
    generalize s.keyboardGetChar = r at hr
    obtain ⟨_ | c, t⟩ := r
    · exact hr.1.done hr.2.1 hr.2.2
    · exact hr.1.done_trans (ih hr.2.2 (by have := hr.2.1; omega))

/-! ## The call that does not wait -/

/-- The calls that are needed: one for each byte in the ring and each look. -/
def calls (s : Ps2) : Nat := s.kbd.pending.length + s.port.length

/-- What is left once `sc` has been taken and decoded, and what that gives. -/
theorem Rest.take_nb {sc : UInt8} (hkeys : s.keys = sc :: t.keys)
    (hmods : t.kbd.mods = (keyChar sc s.kbd.mods).2) (hmice : s.mice = t.mice) {c : UInt8}
    (hc : c = if (keyChar sc s.kbd.mods).1 ≠ 0 then (keyChar sc s.kbd.mods).1 else noChar) :
    Rest s ([c].filter (· ≠ noChar)) t := by
  have hrest := Rest.take hkeys hmods hmice
  have hne := keyChar_ne_noChar sc s.kbd.mods
  by_cases h0 : (keyChar sc s.kbd.mods).1 ≠ 0
  · rw [if_pos h0] at hrest hc
    rw [hc, List.filter_cons_of_pos (by simpa using hne)]
    exact hrest
  · rw [if_neg h0] at hrest hc
    rw [hc]
    exact hrest

/-- One call takes a byte of the ring, or one look. -/
theorem keyboardGetCharNb_rest (s : Ps2) :
    Rest s ([s.keyboardGetCharNb.1].filter (· ≠ noChar)) s.keyboardGetCharNb.2 ∧
      s.keyboardGetCharNb.2.calls = s.calls - 1 := by
  unfold keyboardGetCharNb
  by_cases hne : s.kbd.ps2Head ≠ s.kbd.ps2Tail
  · rw [if_pos hne]
    have hcalls : ∀ mods, calls { s with kbd := { s.kbd.dequeue.2 with mods } } = s.calls - 1 := by
      intro mods
      rw [calls, calls, s.kbd.pending_dequeue hne, List.length_cons]
      change s.kbd.dequeue.2.pending.length + s.port.length = _
      omega
    simp only
    split
    · next c harrow =>
      obtain ⟨hchar, hc⟩ := keyChar_arrow (m := s.kbd.mods) harrow
      exact ⟨Rest.take_nb (keys_dequeue hne s.kbd.mods) (by rw [hchar]) rfl
        (by rw [hchar, if_pos hc]), hcalls s.kbd.mods⟩
    · next hplain =>
      have hchar := keyChar_plain (m := s.kbd.mods) hplain
      exact ⟨Rest.take_nb (keys_dequeue hne _) (by rw [hchar]; rfl) rfl
        (by rw [hchar]; rfl), hcalls _⟩
  · rw [if_neg hne]
    have hempty := not_not.1 hne
    have hnil := Keyboard.pending_eq_nil.2 hempty
    obtain ⟨kbd, port, fed⟩ := s
    have hcalls : ∀ b port' (s : Ps2), port = b :: port' → s.kbd.pending = [] → s.port = port' →
        s.calls = calls ⟨kbd, port, fed⟩ - 1 := by
      rintro b port' s rfl hs rfl
      rw [calls, calls, hs, hnil]
      simp
    rcases port with _ | ⟨_ | sc | data, port⟩
    · exact ⟨.refl _, by rw [calls, hnil]; rfl⟩
    · exact ⟨⟨rfl, rfl⟩, hcalls _ _ _ rfl hnil rfl⟩
    · have hkeys : ∀ mods, keys ⟨kbd, some (.key sc) :: port, fed⟩ =
          sc :: keys ⟨{ kbd with mods }, port, fed⟩ := fun mods => by
        rw [keys_of_empty hempty, keys_of_empty (s := ⟨{ kbd with mods }, port, fed⟩) hempty]
        rfl
      simp only
      split
      · next c harrow =>
        obtain ⟨hchar, hc⟩ := keyChar_arrow (m := kbd.mods) harrow
        exact ⟨Rest.take_nb (hkeys kbd.mods) (by rw [hchar]) rfl (by rw [hchar, if_pos hc]),
          hcalls _ _ _ rfl hnil rfl⟩
      · next hplain =>
        have hchar := keyChar_plain (m := kbd.mods) hplain
        exact ⟨Rest.take_nb (hkeys _) (by rw [hchar]) rfl (by rw [hchar]),
          hcalls _ _ _ rfl hnil rfl⟩
    · refine ⟨⟨rfl, ?_⟩, hcalls _ _ _ rfl hnil rfl⟩
      change fed ++ miceOf (some (.mouse data) :: port) = (fed ++ [data]) ++ miceOf port
      rw [List.append_assoc]
      rfl

theorem getCharsNb_done {n : Nat} (hn : s.calls ≤ n) :
    Done s ((s.getCharsNb n).1.filter (· ≠ noChar)) (s.getCharsNb n).2 := by
  induction n generalizing s with
  | zero =>
    have hzero : s.kbd.pending.length + s.port.length = 0 := Nat.le_zero.1 hn
    exact (Rest.refl s).done (List.length_eq_zero_iff.1 (by omega))
      (List.length_eq_zero_iff.1 (by omega))
  | succ n ih =>
    obtain ⟨hrest, hcalls⟩ := s.keyboardGetCharNb_rest
    have := hrest.done_trans (ih (by rw [hcalls]; omega))
    rwa [← List.filter_append] at this

end Ps2

/-! ## Agreement -/

/-- Blocking and non-blocking reads make the same of a stream of bytes, whenever the bytes come. -/
theorem key_reads_agree {s t : Ps2} (hkbd : s.kbd = t.kbd) (hfed : s.fed = t.fed)
    (hport : s.port.reduceOption = t.port.reduceOption) (hdrain : DrainsFit 0 s.port) :
    ∃ n₀ m₀, ∀ n ≥ n₀, ∀ m ≥ m₀,
      (s.getChars n).1 = (t.getCharsNb m).1.filter (· ≠ noChar) ∧
      (s.getChars n).2.kbd.mods = (t.getCharsNb m).2.kbd.mods ∧
      (s.getChars n).2.fed = (t.getCharsNb m).2.fed := by
  refine ⟨s.keys.length + 1, t.calls, fun n hn m hm => ?_⟩
  have hs := getChars_done hdrain (n := n) (by omega)
  have ht := getCharsNb_done hm
  have hkeys : s.keys = t.keys := by rw [Ps2.keys, Ps2.keys, hkbd, keysOf, keysOf, hport]
  have hmice : s.mice = t.mice := by rw [Ps2.mice, Ps2.mice, hfed, miceOf, miceOf, hport]
  refine ⟨?_, ?_, ?_⟩
  · rw [hs.chars, ht.chars, hkbd, hkeys]
  · rw [hs.mods, ht.mods, hkbd, hkeys]
  · rw [hs.fed, ht.fed, hmice]

def idleKeyboard : Keyboard := ⟨⟨false, false⟩, fun _ => 0, 0, 0⟩

/-- Shift and A with a mouse byte in between, and an arrow, all at once. -/
def burst : Ps2 :=
  ⟨idleKeyboard, [none, some (.key 0x2A), some (.mouse 0x08), some (.key 0x1E), some (.key 0x48)], []⟩

/-- The same bytes one after the other. -/
def trickle : Ps2 :=
  ⟨idleKeyboard, [some (.key 0x2A), none, some (.mouse 0x08), none, none, some (.key 0x1E), none,
    some (.key 0x48)], []⟩

theorem key_reads_agree_burst :
    ∃ n₀ m₀, ∀ n ≥ n₀, ∀ m ≥ m₀,
      (burst.getChars n).1 = (trickle.getCharsNb m).1.filter (· ≠ noChar) ∧
      (burst.getChars n).2.kbd.mods = (trickle.getCharsNb m).2.kbd.mods ∧
      (burst.getChars n).2.fed = (trickle.getCharsNb m).2.fed :=
  key_reads_agree rfl rfl rfl (by simp [burst, DrainsFit])

end HaoSys.Driver
