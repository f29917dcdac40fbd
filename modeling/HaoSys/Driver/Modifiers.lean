import HaoSys.Driver.Keyboard

/-!
# Tracking the modifier keys

Both Shift keys share one flag, and the release of either clears it. So the
flag is right as long as neither is released while the other is held.
-/

namespace HaoSys.Driver

def leftShift : UInt8 := 0x2A

def rightShift : UInt8 := 0x36

/-- The break code of a key. -/
def breakCode (key : UInt8) : UInt8 := key ||| 0x80

/-- Whether a key is held after the scancodes: it has been pressed and not released since. -/
def held (key : UInt8) (scs : List UInt8) : Bool :=
  scs.foldl (fun h sc => if sc = key then true else if sc = breakCode key then false else h) false

/-- The number of presses of Caps Lock. -/
def capsPresses (scs : List UInt8) : Nat := scs.count 0x3A

/-- A key with a letter on it. -/
def IsLetterKey (sc : UInt8) : Prop := isLower (normalMap.getD sc.toNat 0)

namespace Modifiers

def atRest : Modifiers := ⟨false, false⟩

/-- The modifiers after the scancodes, from `keyboard_init` on. -/
def after (scs : List UInt8) : Modifiers := scs.foldl (fun m sc => (ps2ScancodeToAscii sc m).2) atRest

end Modifiers

/-- The modifiers after the scancodes are those of the keys, and the letters follow them. -/
structure Tracked (scs : List UInt8) : Prop where
  shift : (Modifiers.after scs).shiftPressed = (held leftShift scs || held rightShift scs)
  caps : (Modifiers.after scs).capsLock = decide (capsPresses scs % 2 = 1)
  letters : ∀ sc, IsLetterKey sc →
    isUpper (ps2ScancodeToAscii sc (Modifiers.after scs)).1 =
      ((held leftShift scs || held rightShift scs) ^^ decide (capsPresses scs % 2 = 1))

/-- The next scancode releases one Shift key while the other is held. -/
def ReleasesOneShift (scs : List UInt8) (sc : UInt8) : Prop :=
  sc = breakCode leftShift ∧ held rightShift scs ∨ sc = breakCode rightShift ∧ held leftShift scs

section

variable {scs : List UInt8} {sc key : UInt8}

@[simp] theorem held_concat : held key (scs ++ [sc]) =
    if sc = key then true else if sc = breakCode key then false else held key scs := by
  rw [held, List.foldl_concat]
  rfl

@[simp] theorem Modifiers.after_concat :
    after (scs ++ [sc]) = (ps2ScancodeToAscii sc (after scs)).2 := by
  rw [after, List.foldl_concat]
  rfl

/-- What a scancode does to the modifiers. -/
theorem ps2ScancodeToAscii_mods (m : Modifiers) (sc : UInt8) :
    (ps2ScancodeToAscii sc m).2 =
      ⟨if sc = leftShift ∨ sc = rightShift then true
        else if sc = breakCode leftShift ∨ sc = breakCode rightShift then false
        else m.shiftPressed,
      if sc = 0x3A then !m.capsLock else m.capsLock⟩ := by
  obtain ⟨shift, caps⟩ := m
  revert shift caps sc
  refine forall_byte ?_
  decide +kernel

/-- A letter key is upper case if exactly one of the two modifiers is on. -/
theorem letter_case (m : Modifiers) (h : IsLetterKey sc) :
    isUpper (ps2ScancodeToAscii sc m).1 = (m.shiftPressed ^^ m.capsLock) := by
  have hall : ∀ sc : UInt8, ∀ shift caps, isLower (normalMap.getD sc.toNat 0) →
      isUpper (ps2ScancodeToAscii sc ⟨shift, caps⟩).1 = (shift ^^ caps) :=
    forall_byte (by decide +kernel)
  exact hall sc _ _ h

/-! ## One scancode -/

/-- The four codes of the Shift keys are different. -/
theorem shift_codes : [leftShift, rightShift, breakCode leftShift, breakCode rightShift].Nodup := by
  decide

/-- The flag stays right unless one of two held keys is released. -/
theorem shift_step
    (h : (Modifiers.after scs).shiftPressed = (held leftShift scs || held rightShift scs))
    (hsc : ¬ ReleasesOneShift scs sc) :
    (Modifiers.after (scs ++ [sc])).shiftPressed =
      (held leftShift (scs ++ [sc]) || held rightShift (scs ++ [sc])) := by
  simp only [Modifiers.after_concat, ps2ScancodeToAscii_mods, held_concat]
  have hcodes := shift_codes
  simp only [List.nodup_cons, List.mem_cons, List.not_mem_nil, or_false, not_or] at hcodes
  obtain ⟨⟨hlr, hlb, hlb'⟩, ⟨hrb, hrb'⟩, hbb, -⟩ := hcodes
  unfold ReleasesOneShift at hsc
  by_cases hl : sc = leftShift
  · simp [hl]
  by_cases hr : sc = rightShift
  · simp [hr]
  by_cases hbl : sc = breakCode leftShift
  · -- the left key goes up, so the right one is not held
    have hfree : held rightShift scs = false := by simpa [hbl, hbb] using hsc
    simp [hbl, hfree, hbb, Ne.symm hlb, Ne.symm hrb]
  by_cases hbr : sc = breakCode rightShift
  · have hfree : held leftShift scs = false := by simpa [hbr, Ne.symm hbb] using hsc
    simp [hbr, hfree, Ne.symm hbb, Ne.symm hlb', Ne.symm hrb']
  · simp [hl, hr, hbl, hbr, h]

theorem capsPresses_concat :
    capsPresses (scs ++ [sc]) = capsPresses scs + if sc = 0x3A then 1 else 0 := by
  simp [capsPresses, List.count_singleton]

/-- The flag of Caps Lock counts the presses modulo two. -/
theorem caps_step (h : (Modifiers.after scs).capsLock = decide (capsPresses scs % 2 = 1)) :
    (Modifiers.after (scs ++ [sc])).capsLock = decide (capsPresses (scs ++ [sc]) % 2 = 1) := by
  rw [Modifiers.after_concat, ps2ScancodeToAscii_mods, capsPresses_concat, h]
  generalize capsPresses scs = n
  by_cases hsc : sc = 0x3A
  · simp only [if_pos hsc, ← decide_not]
    exact decide_eq_decide.2 (by omega)
  · simp only [if_neg hsc, Nat.add_zero]

theorem Tracked.of_flags
    (hs : (Modifiers.after scs).shiftPressed = (held leftShift scs || held rightShift scs))
    (hc : (Modifiers.after scs).capsLock = decide (capsPresses scs % 2 = 1)) : Tracked scs :=
  ⟨hs, hc, fun _ h => by rw [letter_case _ h, hs, hc]⟩

/-- One Shift key released while the other is held: the flag is wrong. -/
theorem not_tracked_of_release (h : ReleasesOneShift scs sc) : ¬ Tracked (scs ++ [sc]) := by
  intro ht
  have hcodes := shift_codes
  simp only [List.nodup_cons, List.mem_cons, List.not_mem_nil, or_false, not_or] at hcodes
  obtain ⟨⟨-, hlb, hlb'⟩, ⟨hrb, hrb'⟩, hbb, -⟩ := hcodes
  have hshift := ht.shift
  simp only [Modifiers.after_concat, ps2ScancodeToAscii_mods, held_concat] at hshift
  rcases h with ⟨rfl, hheld⟩ | ⟨rfl, hheld⟩
  · simp [hheld, Ne.symm hlb, Ne.symm hrb, hbb] at hshift
  · simp [hheld, Ne.symm hlb', Ne.symm hrb', Ne.symm hbb] at hshift

/-- The modifiers follow the keys after every scancode exactly if no Shift key is released while
the other one is held. -/
theorem modifiers_tracked_iff (scs : List UInt8) :
    (∀ pre, pre <+: scs → Tracked pre) ↔
      ∀ pre sc, pre ++ [sc] <+: scs → ¬ ReleasesOneShift pre sc := by
  constructor
  · intro h pre sc hpre hrel
    exact not_tracked_of_release hrel (h _ hpre)
  · intro h pre hpre
    suffices hflags : (Modifiers.after pre).shiftPressed = (held leftShift pre || held rightShift pre) ∧
        (Modifiers.after pre).capsLock = decide (capsPresses pre % 2 = 1) from
      .of_flags hflags.1 hflags.2
    induction pre using List.reverseRecOn with
    | nil => exact ⟨rfl, rfl⟩
    | append_singleton pre sc ih =>
      obtain ⟨hs, hc⟩ := ih ((List.prefix_append pre [sc]).trans hpre)
      exact ⟨shift_step hs (h pre sc hpre), caps_step hc⟩

/-- Left and right Shift down, left Shift up: the right one is still held, the flag is not set. -/
theorem right_shift_forgotten : ¬ Tracked [0x2A, 0x36, 0xAA] := by
  intro h
  have := h.shift
  revert this
  decide

end

end HaoSys.Driver
