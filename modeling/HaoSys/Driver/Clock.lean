import HaoSys.Driver.Rtc

/-!
# Reading the clock (`driver/rtc.c`)

`rtc_get_epoch` reads six registers one after the other, in the order the
compiler chooses, and the clock may advance between two reads. Here an order is
a list of registers and `wait r` counts the ticks right before the read of `r`.

A tick *tears* the reading when it changes a register that has been read and
one that is yet to be read. Without such a tick the result is the time at which
the seconds were read.
-/

namespace HaoSys.Driver

open HaoSys.Lib.Calendar

/-! ## The hardware -/

inductive Reg where
  | seconds
  | minutes
  | hours
  | day
  | month
  | year
  deriving DecidableEq

structure Clock where
  date : Date
  hour : Nat
  minute : Nat
  second : Nat
  deriving DecidableEq

def toBcd (n : Nat) : UInt8 := UInt8.ofNat (n / 10 * 16 + n % 10)

namespace Clock

structure Valid (c : Clock) : Prop where
  date : c.date.Valid
  hour : c.hour < 24
  minute : c.minute < 60
  second : c.second < 60

def tick (c : Clock) : Clock :=
  if c.second < 59 then { c with second := c.second + 1 }
  else if c.minute < 59 then { c with minute := c.minute + 1, second := 0 }
  else if c.hour < 23 then { c with hour := c.hour + 1, minute := 0, second := 0 }
  else ⟨c.date.next, 0, 0, 0⟩

/-- What a register counts. The year has two digits. -/
def field (c : Clock) : Reg → Nat
  | .seconds => c.second
  | .minutes => c.minute
  | .hours => c.hour
  | .day => c.date.day
  | .month => c.date.month
  | .year => (c.date.year % 100).toNat

/-- `rtc_read_reg`, outside of an update. -/
def rtcReadReg (c : Clock) (r : Reg) : UInt8 := toBcd (c.field r)

/-- The seconds since 1970. -/
def epoch (c : Clock) : Int :=
  c.date.dayNumber 1970 * 86400 + c.hour * 3600 + c.minute * 60 + c.second

end Clock

/-! ## The driver -/

def bcdToBin (v : UInt8) : UInt8 := (v &&& 0x0F : UInt8) + (v >>> 4) * 10

/-- The sum of `rtc_get_epoch` over what the getters returned. -/
def epochOf (v : Reg → UInt8) : UInt32 :=
  let d := (daysFromCivil (2000 + (v .year).toUInt32.toInt32) (v .month).toUInt32
    (v .day).toUInt32).toUInt64.toUInt32
  d * 86400 + (v .hours).toUInt32 * 3600 + (v .minutes).toUInt32 * 60 + (v .seconds).toUInt32

/-- The reads in turn, each after the ticks that come before it. -/
def readRegs (wait : Reg → Nat) : List Reg → (Reg → UInt8) → Clock → (Reg → UInt8) × Clock
  | [], v, c => (v, c)
  | r :: rest, v, c =>
    let c := Clock.tick^[wait r] c
    readRegs wait rest (Function.update v r (bcdToBin (c.rtcReadReg r))) c

/-- The order of the six reads, and the ticks before each. -/
structure Reading where
  order : List Reg
  wait : Reg → Nat
  nodup : order.Nodup
  complete : ∀ r, r ∈ order

/-- `rtc_get_epoch`: its result and the clock at the last read. -/
def rtcGetEpoch (p : Reading) (c : Clock) : UInt32 × Clock :=
  let (v, c) := readRegs p.wait p.order (fun _ => 0) c
  (epochOf v, c)

/-- The driver's variables and the clock. -/
structure Rtc where
  clock : Clock
  bootEpoch : UInt32
  bootEpochSet : Bool

def rtcInit (p : Reading) (s : Rtc) : Rtc :=
  let (epoch, clock) := rtcGetEpoch p s.clock
  ⟨clock, epoch, true⟩

/-- `rtc_get_uptime`. The first reading is only made where no boot time is set. -/
def rtcGetUptime (p q : Reading) (s : Rtc) : UInt32 × Rtc :=
  let s := if !s.bootEpochSet then rtcInit p s else s
  let (epoch, clock) := rtcGetEpoch q s.clock
  (epoch - s.bootEpoch, { s with clock })

/-! ## Torn readings -/

/-- The tick at `c` changes register `r`. -/
def Clock.Changes (c : Clock) (r : Reg) : Prop := c.tick.rtcReadReg r ≠ c.rtcReadReg r

/-- No tick changes a register of `done` and one that is yet to be read. -/
def Untorn (wait : Reg → Nat) : List Reg → List Reg → Clock → Prop
  | _, [], _ => True
  | done, r :: rest, c =>
    (∀ k < wait r, (∀ q ∈ done, ¬ (Clock.tick^[k] c).Changes q) ∨
      ∀ q ∈ r :: rest, ¬ (Clock.tick^[k] c).Changes q) ∧
    Untorn wait (r :: done) rest (Clock.tick^[wait r] c)

/-- The years that two digits tell apart. -/
def Clock.InCentury (c : Clock) : Prop := 2000 ≤ c.date.year ∧ c.date.year ≤ 2099

instance (c : Clock) (r : Reg) : Decidable (c.Changes r) := inferInstanceAs (Decidable (_ ≠ _))

instance (c : Clock) : Decidable c.InCentury := inferInstanceAs (Decidable (_ ∧ _))

instance decidableUntorn (wait : Reg → Nat) :
    ∀ done rest c, Decidable (Untorn wait done rest c)
  | _, [], _ => .isTrue trivial
  | done, r :: rest, c =>
    have := decidableUntorn wait (r :: done) rest (Clock.tick^[wait r] c)
    inferInstanceAs (Decidable (_ ∧ _))

namespace Reading

/-- The clock at the first read. -/
def first (p : Reading) (c : Clock) : Clock := Clock.tick^[((p.order.map p.wait).headD 0)] c

/-- The clock at the last read. -/
def last (p : Reading) (c : Clock) : Clock := (rtcGetEpoch p c).2

/-- The ticks between the first read and the last. -/
def ticks (p : Reading) : Nat := (p.order.tail.map p.wait).sum

/-- The reading shows one time, of this century. -/
def Whole (p : Reading) (c : Clock) : Prop :=
  (p.first c).InCentury ∧ Untorn p.wait [] p.order c

instance (p : Reading) (c : Clock) : Decidable (p.Whole c) := inferInstanceAs (Decidable (_ ∧ _))

/-- The result lies between the times of the first read and of the last. -/
def Between (p : Reading) (c : Clock) : Prop :=
  (p.first c).epoch ≤ (rtcGetEpoch p c).1.toNat ∧ ((rtcGetEpoch p c).1.toNat : Int) ≤ (p.last c).epoch

end Reading

/-! ## The clock -/

theorem bcdToBin_toBcd {n : Nat} (h : n < 100) : (bcdToBin (toBcd n)).toNat = n := by
  have hall : ∀ k : Fin 100, (bcdToBin (toBcd k)).toNat = k := by decide
  exact hall ⟨n, h⟩

namespace Clock

theorem field_lt {c : Clock} (h : c.Valid) (r : Reg) : c.field r < 100 := by
  obtain ⟨⟨hmonth, hday⟩, hh, hm, hs⟩ := h
  have := (monthDays_bounds c.date.year c.date.month).2
  cases r with
  | year =>
    unfold field
    simp only
    omega
  | _ =>
    simp only [field]
    omega

/-- What the getter of a register returns. -/
theorem bcdToBin_rtcReadReg {c : Clock} (h : c.Valid) (r : Reg) :
    (bcdToBin (c.rtcReadReg r)).toNat = c.field r := bcdToBin_toBcd (field_lt h r)

theorem valid_tick {c : Clock} (h : c.Valid) : c.tick.Valid := by
  obtain ⟨hd, hh, hm, hs⟩ := h
  unfold tick
  split
  · exact ⟨hd, hh, hm, by simp only; omega⟩
  · split
    · exact ⟨hd, hh, by simp only; omega, by simp only; omega⟩
    · split
      · exact ⟨hd, by simp only; omega, by simp only; omega, by simp only; omega⟩
      · exact ⟨Date.valid_next hd, by simp only; omega, by simp only; omega, by simp only; omega⟩

/-- **A tick is a second.** -/
theorem epoch_tick {c : Clock} (h : c.Valid) : c.tick.epoch = c.epoch + 1 := by
  obtain ⟨hd, hh, hm, hs⟩ := h
  unfold tick epoch
  split
  · simp only
    omega
  · split
    · simp only
      omega
    · split
      · simp only
        omega
      · simp only
        rw [Date.dayNumber_next 1970 hd]
        omega

theorem valid_ticks {c : Clock} (h : c.Valid) (n : Nat) : (tick^[n] c).Valid := by
  induction n with
  | zero => exact h
  | succ n ih =>
    rw [Function.iterate_succ_apply']
    exact valid_tick ih

theorem epoch_ticks {c : Clock} (h : c.Valid) (n : Nat) : (tick^[n] c).epoch = c.epoch + n := by
  induction n with
  | zero => exact (Int.add_zero _).symm
  | succ n ih =>
    rw [Function.iterate_succ_apply', epoch_tick (valid_ticks h n), ih]
    omega

theorem changes_iff {c : Clock} (h : c.Valid) (r : Reg) :
    c.Changes r ↔ c.tick.field r ≠ c.field r := by
  unfold Changes
  rw [not_iff_not]
  constructor
  · intro heq
    rw [← bcdToBin_rtcReadReg h, ← bcdToBin_rtcReadReg (valid_tick h), heq]
  · intro heq
    unfold rtcReadReg
    rw [heq]

end Clock

/-! ## What the sum of `rtc_get_epoch` is -/

/-- The time that six counts stand for, with the century of the driver. -/
def timeOf (f : Reg → Nat) : Int :=
  (⟨2000 + f .year, f .month, f .day⟩ : Date).dayNumber 1970 * 86400 + f .hours * 3600 +
    f .minutes * 60 + f .seconds

/-- Counts as the registers of some times hold them; the day may not exist in the month. -/
structure Counts (f : Reg → Nat) : Prop where
  seconds : f .seconds < 60
  minutes : f .minutes < 60
  hours : f .hours < 24
  day : 1 ≤ f .day ∧ f .day ≤ 31
  month : 1 ≤ f .month ∧ f .month ≤ 12
  year : f .year < 100

theorem Clock.counts {c : Clock} (h : c.Valid) : Counts c.field := by
  obtain ⟨⟨hmonth, hday⟩, hh, hm, hs⟩ := id h
  have := (monthDays_bounds c.date.year c.date.month).2
  exact ⟨hs, hm, hh, ⟨hday.1, by simp only [field]; omega⟩, hmonth, field_lt h .year⟩

theorem Clock.timeOf_field {c : Clock} (hcentury : c.InCentury) : timeOf c.field = c.epoch := by
  obtain ⟨h0, h99⟩ := hcentury
  have hyear : (2000 : Int) + ((c.date.year % 100).toNat : Int) = c.date.year := by omega
  unfold timeOf Clock.epoch Clock.field
  simp only [hyear]

/-- The days from 2000 to 2099. -/
theorem dayNumber_bounds {n m d : Nat} (hn : n < 100) (hm : 1 ≤ m ∧ m ≤ 12) (hd : 1 ≤ d ∧ d ≤ 31) :
    10957 ≤ (⟨2000 + n, m, d⟩ : Date).dayNumber 1970 ∧
      (⟨2000 + n, m, d⟩ : Date).dayNumber 1970 ≤ 47481 := by
  rw [dayNumber_march _ hm]
  unfold leapYears marchYear marchMonth
  split <;> omega

theorem toInt_rtcYear (b : UInt8) : (2000 + b.toUInt32.toInt32).toInt = 2000 + b.toNat := by
  have hb := b.toNat_lt
  have hwide : b.toUInt32.toBitVec.toNat = b.toNat := UInt8.toNat_toUInt32 b
  have hint : b.toUInt32.toInt32.toInt = b.toNat := by
    change b.toUInt32.toBitVec.toInt = b.toNat
    rw [BitVec.toInt_eq_toNat_of_lt (by omega), hwide]
  have hc : (2000 : Int32).toInt = 2000 := rfl
  rw [Int32.toInt_add, hint, hc, Int.bmod_eq_of_le (by omega) (by omega)]

theorem toNat_toUInt64 {a : Int64} (h : 0 ≤ a.toInt) : (a.toUInt64.toNat : Int) = a.toInt := by
  have hle : (0 : Int64) ≤ a := Int64.le_iff_toInt_le.mpr h
  rw [Int64.toNat_toUInt64_of_le hle]
  exact Int.toNat_of_nonneg h

/-- **The sum does not wrap.** -/
theorem epochOf_eq {v : Reg → UInt8} (h : Counts fun r => (v r).toNat) :
    ((epochOf v).toNat : Int) = timeOf fun r => (v r).toNat := by
  obtain ⟨hs, hmin, hh, hd, hm, hy⟩ := h
  have hbounds := dayNumber_bounds hy hm hd
  have hfits : YearFits (2000 + (v .year).toUInt32.toInt32) (v .month).toUInt32 := by
    unfold YearFits
    rw [toInt_rtcYear]
    split <;> omega
  have hdays := toInt_daysFromCivil (y := 2000 + (v .year).toUInt32.toInt32)
    (m := (v .month).toUInt32) (d := (v .day).toUInt32)
    (by rw [UInt8.toNat_toUInt32]; exact hm) (by rw [UInt8.toNat_toUInt32]; exact hd) hfits
  rw [toInt_rtcYear, UInt8.toNat_toUInt32, UInt8.toNat_toUInt32] at hdays
  unfold epochOf timeOf
  simp only
  generalize daysFromCivil (2000 + (v .year).toUInt32.toInt32) (v .month).toUInt32
    (v .day).toUInt32 = days at hdays
  generalize (⟨2000 + (v .year).toNat, (v .month).toNat, (v .day).toNat⟩ : Date).dayNumber 1970
    = number at hdays hbounds
  have hday : (days.toUInt64.toUInt32.toNat : Int) = number := by
    have h64 := toNat_toUInt64 (a := days) (by omega)
    rw [UInt64.toNat_toUInt32, Nat.mod_eq_of_lt (by omega), h64, hdays]
  have h86400 : (86400 : UInt32).toNat = 86400 := rfl
  have h3600 : (3600 : UInt32).toNat = 3600 := rfl
  have h60 : (60 : UInt32).toNat = 60 := rfl
  have hp : (days.toUInt64.toUInt32 * 86400).toNat = days.toUInt64.toUInt32.toNat * 86400 := by
    rw [UInt32.toNat_mul, h86400, Nat.mod_eq_of_lt (by omega)]
  have hq : ((v .hours).toUInt32 * 3600).toNat = (v .hours).toNat * 3600 := by
    rw [UInt32.toNat_mul, h3600, UInt8.toNat_toUInt32, Nat.mod_eq_of_lt (by omega)]
  have hr : ((v .minutes).toUInt32 * 60).toNat = (v .minutes).toNat * 60 := by
    rw [UInt32.toNat_mul, h60, UInt8.toNat_toUInt32, Nat.mod_eq_of_lt (by omega)]
  rw [UInt32.toNat_add, UInt32.toNat_add, UInt32.toNat_add, hp, hq, hr, UInt8.toNat_toUInt32]
  omega

/-! ## A reading without a torn tick -/

/-- The two-digit years only miss a tick that changes every register. -/
theorem Clock.inCentury_tick {c : Clock} (h : c.Valid) :
    (c.tick.InCentury ↔ c.InCentury) ∨ ∀ r, c.Changes r := by
  obtain ⟨⟨hmonth, hday⟩, hh, hm, hs⟩ := id h
  by_cases hyear : c.tick.date.year = c.date.year
  · left
    unfold InCentury
    rw [hyear]
  · right
    intro r
    rw [changes_iff h]
    unfold tick at hyear ⊢
    split at hyear
    · exact absurd rfl hyear
    split at hyear
    · exact absurd rfl hyear
    split at hyear
    · exact absurd rfl hyear
    next h1 h2 h3 =>
    rw [if_neg h1, if_neg h2, if_neg h3]
    unfold Date.next at hyear ⊢
    split at hyear
    · exact absurd rfl hyear
    split at hyear
    · exact absurd rfl hyear
    next h4 h5 =>
    rw [if_neg h4, if_neg h5]
    have hdec : c.date.month = 12 := by omega
    rw [hdec] at h4
    have : monthDays c.date.year 12 = 31 := rfl
    cases r with
    | year =>
      unfold field
      simp only
      omega
    | _ =>
      simp only [field]
      omega

/-- Seconds change with every tick. -/
theorem Clock.changes_seconds {c : Clock} (h : c.Valid) : c.Changes .seconds := by
  have hs := h.second
  rw [changes_iff h]
  change c.tick.second ≠ c.second
  unfold tick
  split
  · exact Nat.succ_ne_self c.second
  · have hzero : (0 : Nat) ≠ c.second := by omega
    split
    · exact hzero
    · split <;> exact hzero

theorem Clock.rtcReadReg_of_not_changes {c : Clock} {r : Reg} (h : ¬ c.Changes r) :
    c.tick.rtcReadReg r = c.rtcReadReg r := not_not.mp h

/-- A register that no tick of the wait changes. -/
theorem Clock.rtcReadReg_ticks {c : Clock} {r : Reg} {n : Nat}
    (h : ∀ k < n, ¬ (tick^[k] c).Changes r) : (tick^[n] c).rtcReadReg r = c.rtcReadReg r := by
  induction n with
  | zero => rfl
  | succ n ih =>
    rw [Function.iterate_succ_apply', rtcReadReg_of_not_changes (h n (Nat.lt_succ_self n)),
      ih fun k hk => h k (Nat.lt_succ_of_lt hk)]

/-- A century is not left while some registers are read and some are not. -/
theorem Clock.inCentury_ticks {c : Clock} (h : c.Valid) {n : Nat}
    (hkept : ∀ k < n, ∃ r, ¬ (tick^[k] c).Changes r) :
    (tick^[n] c).InCentury ↔ c.InCentury := by
  induction n with
  | zero => exact Iff.rfl
  | succ n ih =>
    rw [Function.iterate_succ_apply', ← ih fun k hk => hkept k (Nat.lt_succ_of_lt hk)]
    obtain ⟨r, hr⟩ := hkept n (Nat.lt_succ_self n)
    exact (inCentury_tick (valid_ticks h n)).resolve_right fun hall => hr (hall r)

/-- Behind the read of the seconds, no register that is still to be read changes. -/
theorem readRegs_late {wait : Reg → Nat} {s : Clock} {done rest : List Reg} {v : Reg → UInt8}
    {c : Clock} (hc : c.Valid) (hseconds : .seconds ∈ done) (h : Untorn wait done rest c)
    (hdone : ∀ q ∈ done, v q = bcdToBin (s.rtcReadReg q))
    (hrest : ∀ q ∈ rest, c.rtcReadReg q = s.rtcReadReg q) :
    ∀ q, q ∈ done ∨ q ∈ rest → (readRegs wait rest v c).1 q = bcdToBin (s.rtcReadReg q) := by
  induction rest generalizing done v c with
  | nil =>
    rintro q (hq | hq)
    · exact hdone q hq
    · exact absurd hq List.not_mem_nil
  | cons r rest ih =>
    obtain ⟨htick, huntorn⟩ := h
    have hkept : ∀ q ∈ r :: rest, (Clock.tick^[wait r] c).rtcReadReg q = s.rtcReadReg q := by
      intro q hq
      rw [← hrest q hq]
      refine Clock.rtcReadReg_ticks fun k hk => ?_
      rcases htick k hk with hold | hnew
      · exact absurd (Clock.changes_seconds (Clock.valid_ticks hc k)) (hold _ hseconds)
      · exact hnew q hq
    intro q hq
    refine ih (Clock.valid_ticks hc _) (List.mem_cons_of_mem r hseconds) huntorn ?_
      (fun q hq => hkept q (List.mem_cons_of_mem r hq)) q ?_
    · intro q hq
      by_cases hqr : q = r
      · rw [hqr, Function.update_self, hkept r List.mem_cons_self]
      · rw [Function.update_of_ne hqr]
        exact hdone q ((List.mem_cons.mp hq).resolve_left hqr)
    · rcases hq with hq | hq
      · exact Or.inl (List.mem_cons_of_mem r hq)
      · rcases List.mem_cons.mp hq with rfl | hq
        · exact Or.inl List.mem_cons_self
        · exact Or.inr hq

/-- The ticks up to the read of `q`. -/
def ticksTo (wait : Reg → Nat) (q : Reg) : List Reg → Nat
  | [] => 0
  | r :: rest => wait r + if r = q then 0 else ticksTo wait q rest

/-- Up to the read of the seconds, no register that has been read changes. -/
theorem readRegs_early {wait : Reg → Nat} {done rest : List Reg} {v : Reg → UInt8} {c : Clock}
    (hc : c.Valid) (hseconds : .seconds ∈ rest) (h : Untorn wait done rest c)
    (hdone : ∀ q ∈ done, v q = bcdToBin (c.rtcReadReg q)) :
    ∀ q, q ∈ done ∨ q ∈ rest → (readRegs wait rest v c).1 q =
      bcdToBin ((Clock.tick^[ticksTo wait .seconds rest] c).rtcReadReg q) := by
  induction rest generalizing done v c with
  | nil => exact absurd hseconds List.not_mem_nil
  | cons r rest ih =>
    obtain ⟨htick, huntorn⟩ := h
    have hkept : ∀ q ∈ done, (Clock.tick^[wait r] c).rtcReadReg q = c.rtcReadReg q := by
      intro q hq
      refine Clock.rtcReadReg_ticks fun k hk => ?_
      rcases htick k hk with hold | hnew
      · exact hold q hq
      · exact absurd (Clock.changes_seconds (Clock.valid_ticks hc k)) (hnew _ hseconds)
    have hnext : ∀ q ∈ r :: done,
        Function.update v r (bcdToBin ((Clock.tick^[wait r] c).rtcReadReg r)) q =
          bcdToBin ((Clock.tick^[wait r] c).rtcReadReg q) := by
      intro q hq
      by_cases hqr : q = r
      · rw [hqr, Function.update_self]
      · have hq := (List.mem_cons.mp hq).resolve_left hqr
        rw [Function.update_of_ne hqr, hkept q hq]
        exact hdone q hq
    have hmem : ∀ q, q ∈ done ∨ q ∈ r :: rest → q ∈ r :: done ∨ q ∈ rest := by
      rintro q (hq | hq)
      · exact Or.inl (List.mem_cons_of_mem r hq)
      · rcases List.mem_cons.mp hq with rfl | hq
        · exact Or.inl List.mem_cons_self
        · exact Or.inr hq
    intro q hq
    unfold ticksTo
    by_cases hr : r = .seconds
    · rw [if_pos hr, Nat.add_zero]
      exact readRegs_late (Clock.valid_ticks hc _) (hr ▸ List.mem_cons_self) huntorn hnext
        (fun _ _ => rfl) q (hmem q hq)
    · rw [if_neg hr, Nat.add_comm, Function.iterate_add_apply]
      exact ih (Clock.valid_ticks hc _)
        ((List.mem_cons.mp hseconds).resolve_left (Ne.symm hr)) huntorn hnext q (hmem q hq)

theorem untorn_inCentury {wait : Reg → Nat} {done rest : List Reg} {c : Clock} (hc : c.Valid)
    (hne : done ≠ []) (h : Untorn wait done rest c) :
    (Clock.tick^[ticksTo wait .seconds rest] c).InCentury ↔ c.InCentury := by
  induction rest generalizing done c with
  | nil => exact Iff.rfl
  | cons r rest ih =>
    obtain ⟨htick, huntorn⟩ := h
    obtain ⟨q, hq⟩ := List.exists_mem_of_ne_nil done hne
    have hwait : (Clock.tick^[wait r] c).InCentury ↔ c.InCentury := by
      refine Clock.inCentury_ticks hc fun k hk => ?_
      rcases htick k hk with hold | hnew
      · exact ⟨q, hold q hq⟩
      · exact ⟨r, hnew r List.mem_cons_self⟩
    unfold ticksTo
    split
    · exact hwait
    · rw [Nat.add_comm, Function.iterate_add_apply,
        ih (Clock.valid_ticks hc _) (List.cons_ne_nil r done) huntorn]
      exact hwait

theorem readRegs_clock (wait : Reg → Nat) (rest : List Reg) (v : Reg → UInt8) (c : Clock) :
    (readRegs wait rest v c).2 = Clock.tick^[(rest.map wait).sum] c := by
  induction rest generalizing v c with
  | nil => rfl
  | cons r rest ih =>
    rw [List.map_cons, List.sum_cons, Nat.add_comm, Function.iterate_add_apply]
    exact ih _ _

theorem ticksTo_le (wait : Reg → Nat) (q : Reg) (rest : List Reg) :
    ticksTo wait q rest ≤ (rest.map wait).sum := by
  induction rest with
  | nil => exact Nat.le_refl 0
  | cons r rest ih =>
    rw [List.map_cons, List.sum_cons]
    unfold ticksTo
    split <;> omega

namespace Reading

/-- A reading starts with some register. -/
theorem order_cons (p : Reading) : ∃ r rest, p.order = r :: rest := by
  cases h : p.order with
  | nil => exact absurd (h ▸ p.complete .seconds) List.not_mem_nil
  | cons r rest => exact ⟨r, rest, rfl⟩

theorem last_eq (p : Reading) (c : Clock) : p.last c = Clock.tick^[p.ticks] (p.first c) := by
  obtain ⟨r, rest, horder⟩ := p.order_cons
  have hsum : (p.order.map p.wait).sum = p.ticks + (p.order.map p.wait).headD 0 := by
    unfold ticks
    rw [horder, List.map_cons, List.sum_cons, List.tail_cons, List.headD_cons, Nat.add_comm]
  unfold first
  rw [← Function.iterate_add_apply, ← hsum]
  exact readRegs_clock p.wait p.order _ c

/-- The clock when the seconds are read. -/
def atSeconds (p : Reading) (c : Clock) : Clock := Clock.tick^[ticksTo p.wait .seconds p.order] c

/-- The seconds are read between the first read and the last. -/
theorem atSeconds_eq (p : Reading) (c : Clock) :
    ∃ n ≤ p.ticks, p.atSeconds c = Clock.tick^[n] (p.first c) := by
  obtain ⟨r, rest, horder⟩ := p.order_cons
  have hle := ticksTo_le p.wait .seconds rest
  unfold atSeconds first ticks
  rw [horder, List.map_cons, List.headD_cons, List.tail_cons]
  unfold ticksTo
  split
  · exact ⟨0, Nat.zero_le _, by rw [Nat.add_zero, Function.iterate_zero, id]⟩
  · exact ⟨ticksTo p.wait .seconds rest, hle, by rw [Nat.add_comm, Function.iterate_add_apply]⟩

theorem inCentury_atSeconds {p : Reading} {c : Clock} (hc : c.Valid) (h : p.Whole c) :
    (p.atSeconds c).InCentury := by
  obtain ⟨r, rest, horder⟩ := p.order_cons
  obtain ⟨hfirst, huntorn⟩ := h
  unfold first at hfirst
  unfold atSeconds
  rw [horder] at huntorn hfirst ⊢
  rw [List.map_cons, List.headD_cons] at hfirst
  unfold ticksTo
  split
  · exact hfirst
  · rw [Nat.add_comm, Function.iterate_add_apply,
      untorn_inCentury (Clock.valid_ticks hc _) (List.cons_ne_nil r []) huntorn.2]
    exact hfirst

/-- **A whole reading is the time at which the seconds were read.** -/
theorem whole_epoch {p : Reading} {c : Clock} (hc : c.Valid) (h : p.Whole c) :
    ((rtcGetEpoch p c).1.toNat : Int) = (p.atSeconds c).epoch := by
  have hvalid : (p.atSeconds c).Valid := Clock.valid_ticks hc _
  have hread := readRegs_early (v := fun _ => 0) hc (p.complete .seconds) h.2
    fun q hq => absurd hq List.not_mem_nil
  have hfields : (fun q => ((readRegs p.wait p.order (fun _ => 0) c).1 q).toNat) =
      (p.atSeconds c).field := by
    funext q
    rw [hread q (Or.inr (p.complete q))]
    exact Clock.bcdToBin_rtcReadReg hvalid q
  have hcounts := Clock.counts hvalid
  rw [← hfields] at hcounts
  change ((epochOf (readRegs p.wait p.order (fun _ => 0) c).1).toNat : Int) = _
  rw [epochOf_eq hcounts, hfields, Clock.timeOf_field (inCentury_atSeconds hc h)]

theorem between_of_whole {p : Reading} {c : Clock} (hc : c.Valid) (h : p.Whole c) :
    p.Between c := by
  obtain ⟨n, hn, hat⟩ := p.atSeconds_eq c
  have hfirst : (p.first c).Valid := Clock.valid_ticks hc _
  have hepoch := whole_epoch hc h
  rw [hat, Clock.epoch_ticks hfirst] at hepoch
  unfold Between
  rw [p.last_eq, Clock.epoch_ticks hfirst]
  omega

end Reading

end HaoSys.Driver
