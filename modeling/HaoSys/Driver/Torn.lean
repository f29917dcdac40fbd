import HaoSys.Driver.Clock

/-!
# Torn readings (`driver/rtc.c`)

With at most one tick between the first read and the last, a reading shows the
time before the tick, the time after it, or a time outside of both. It is
outside exactly when the tick tears it: `between_iff`. The uptime never
decreases along readings that are not torn.
-/

namespace HaoSys.Driver

open HaoSys.Lib.Calendar

/-! ## A mixture of two times -/

/-- The fields of a date and of the next one, mixed: only the two dates themselves have their
numbers. -/
theorem date_mixed {d e : Date} (hd : d.Valid) (he : e = d ∨ e = d.next) {y m n : Nat}
    (hm : m = d.month ∨ m = d.next.month) (hn : n = d.day ∨ n = d.next.day)
    (hnumber : (⟨2000 + y, m, n⟩ : Date).dayNumber 1970 = e.dayNumber 1970) :
    2000 + (y : Int) = e.year ∧ m = e.month ∧ n = e.day := by
  have hnext := Date.valid_next hd
  have hbound : ∀ {d : Date}, d.Valid → 1 ≤ d.day ∧ d.day ≤ 31 := fun h =>
    ⟨h.day.1, Nat.le_trans h.day.2 (monthDays_bounds _ _).2⟩
  have hevalid : e.Valid := by
    rcases he with rfl | rfl
    · exact hd
    · exact hnext
  have hm12 : 1 ≤ m ∧ m ≤ 12 := by
    rcases hm with rfl | rfl
    · exact hd.month
    · exact hnext.month
  have hn31 : 1 ≤ n ∧ n ≤ 31 := by
    rcases hn with rfl | rfl
    · exact hbound hd
    · exact hbound hnext
  have hyear : 2000 + (y : Int) = e.year :=
    Date.year_eq hm12 hn31 hevalid.month (hbound hevalid) hnumber
  refine ⟨hyear, ?_⟩
  -- within one year only the months and days are left
  unfold Date.dayNumber at hnumber
  simp only [hyear] at hnumber
  obtain ⟨hmonth, hday⟩ := hd
  unfold Date.next at he hm hn
  split at he
  · next h =>
    rw [if_pos h] at hm hn
    simp only at hm hn
    rcases he with rfl | rfl
    · rcases hm with rfl | rfl <;> exact ⟨rfl, by omega⟩
    · rcases hm with rfl | rfl <;> exact ⟨rfl, by simp only at hnumber ⊢; omega⟩
  · next h =>
    rw [if_neg h] at hm hn
    split at he
    · next h12 =>
      rw [if_pos h12] at hm hn
      simp only at hm hn
      have hsucc := daysBeforeMonth_succ d.year hmonth.1
      rcases he with rfl | rfl
      · rcases hm with rfl | rfl
        · exact ⟨rfl, by omega⟩
        · omega
      · simp only at hnumber ⊢
        rcases hm with rfl | rfl
        · omega
        · exact ⟨rfl, by omega⟩
    · next h12 =>
      rw [if_neg h12] at hm hn
      simp only at hm hn
      have hdec : d.month = 12 := by omega
      have hlast : ∀ y, 334 ≤ daysBeforeMonth y 12 := fun y => by
        rw [daysBeforeMonth_march y ⟨by omega, by omega⟩]
        omega
      have hjan : ∀ y, daysBeforeMonth y 1 = 0 := daysBeforeMonth_one
      rw [hdec] at hm
      rcases he with rfl | rfl
      · have := hlast e.year
        rw [hdec] at hnumber ⊢
        rcases hm with rfl | rfl
        · exact ⟨rfl, by omega⟩
        · rw [hjan] at hnumber
          omega
      · have := hlast (d.year + 1)
        simp only at hnumber ⊢
        rw [hjan] at hnumber
        rcases hm with rfl | rfl
        · omega
        · rw [hjan] at hnumber
          exact ⟨rfl, by omega⟩

theorem Clock.date_tick (c : Clock) : c.tick.date = c.date ∨ c.tick.date = c.date.next := by
  unfold tick
  split
  · exact Or.inl rfl
  · split
    · exact Or.inl rfl
    · split
      · exact Or.inl rfl
      · exact Or.inr rfl

theorem Counts.mixed {f g h : Reg → Nat} (hf : Counts f) (hg : Counts g)
    (hmixed : ∀ r, h r = f r ∨ h r = g r) : Counts h := by
  have hpick : ∀ r (P : Nat → Prop), P (f r) → P (g r) → P (h r) := by
    intro r P hP hP'
    rcases hmixed r with he | he <;> rw [he]
    · exact hP
    · exact hP'
  exact ⟨hpick _ (· < 60) hf.seconds hg.seconds, hpick _ (· < 60) hf.minutes hg.minutes,
    hpick _ (· < 24) hf.hours hg.hours, hpick _ (fun n => 1 ≤ n ∧ n ≤ 31) hf.day hg.day,
    hpick _ (fun n => 1 ≤ n ∧ n ≤ 12) hf.month hg.month, hpick _ (· < 100) hf.year hg.year⟩

/-- **The fields of a time and of the next second, mixed.** Only the two times themselves have
their epochs. -/
theorem timeOf_mixed {c s : Clock} (hc : c.Valid) (hs : s = c ∨ s = c.tick) {f : Reg → Nat}
    (hf : ∀ r, f r = c.field r ∨ f r = c.tick.field r) (h : timeOf f = s.epoch) :
    s.InCentury ∧ ∀ r, f r = s.field r := by
  obtain ⟨hsec, hmin, hhour, -, -, hyear⟩ :=
    (Clock.counts hc).mixed (Clock.counts (Clock.valid_tick hc)) hf
  have hsvalid : s.Valid := by
    rcases hs with rfl | rfl
    · exact hc
    · exact Clock.valid_tick hc
  -- the days and the seconds of the day are those of `s`
  obtain ⟨-, hs24, hs60, hs60'⟩ := id hsvalid
  unfold timeOf Clock.epoch at h
  have hnumber : (⟨2000 + (f .year : Int), f .month, f .day⟩ : Date).dayNumber 1970 =
      s.date.dayNumber 1970 := by omega
  have hdate : ∀ g : Date → Nat, (c.tick.date = c.date ∨ c.tick.date = c.date.next) →
      ∀ {n}, (n = g c.date ∨ n = g c.tick.date) → n = g c.date ∨ n = g c.date.next := by
    rintro g (he | he) n hn
    · rw [he] at hn
      exact Or.inl (hn.elim id id)
    · rw [he] at hn
      exact hn
  have hsdate : s.date = c.date ∨ s.date = c.date.next := by
    rcases hs with rfl | rfl
    · exact Or.inl rfl
    · exact c.date_tick
  obtain ⟨hy, hm, hd⟩ := date_mixed hc.date hsdate
    (hdate Date.month c.date_tick (hf .month)) (hdate Date.day c.date_tick (hf .day)) hnumber
  refine ⟨⟨by omega, by omega⟩, fun r => ?_⟩
  cases r with
  | seconds =>
    change f .seconds = s.second
    omega
  | minutes =>
    change f .minutes = s.minute
    omega
  | hours =>
    change f .hours = s.hour
    omega
  | day => exact hd
  | month => exact hm
  | year =>
    change f .year = (s.date.year % 100).toNat
    omega

/-! ## One tick -/

/-- The value of each register is that at its read. -/
theorem readRegs_value {wait : Reg → Nat} {rest : List Reg} (hnodup : rest.Nodup)
    (v : Reg → UInt8) (c : Clock) {q : Reg} (hq : q ∈ rest) :
    (readRegs wait rest v c).1 q =
      bcdToBin ((Clock.tick^[ticksTo wait q rest] c).rtcReadReg q) := by
  have hkept : ∀ (rest : List Reg) (v : Reg → UInt8) (c : Clock), q ∉ rest →
      (readRegs wait rest v c).1 q = v q := by
    intro rest
    induction rest with
    | nil => exact fun _ _ _ => rfl
    | cons r rest ih =>
      intro v c hq
      rw [List.mem_cons, not_or] at hq
      exact (ih _ _ hq.2).trans (Function.update_of_ne hq.1 _ _)
  induction rest generalizing v c with
  | nil => exact absurd hq List.not_mem_nil
  | cons r rest ih =>
    obtain ⟨hr, hnodup⟩ := List.nodup_cons.mp hnodup
    unfold ticksTo
    by_cases hrq : r = q
    · rw [if_pos hrq, Nat.add_zero]
      exact (hkept rest _ _ (hrq ▸ hr)).trans (hrq ▸ Function.update_self ..)
    · rw [if_neg hrq, Nat.add_comm, Function.iterate_add_apply]
      exact ih hnodup _ _ ((List.mem_cons.mp hq).resolve_left (Ne.symm hrq))

/-- Nothing is torn where no tick comes. -/
theorem untorn_quiet {wait : Reg → Nat} {rest : List Reg} (h : (rest.map wait).sum = 0)
    (done : List Reg) (c : Clock) : Untorn wait done rest c := by
  induction rest generalizing done c with
  | nil => trivial
  | cons r rest ih =>
    rw [List.map_cons, List.sum_cons] at h
    exact ⟨fun k hk => absurd hk (by omega), ih (by omega) _ _⟩

theorem ticksTo_quiet {wait : Reg → Nat} {rest : List Reg} (h : (rest.map wait).sum = 0)
    (q : Reg) : ticksTo wait q rest = 0 := by
  have := ticksTo_le wait q rest
  omega

/-- A tick that shows in no register read behind it does not tear. -/
theorem untorn_old {wait : Reg → Nat} {rest : List Reg} (hnodup : rest.Nodup)
    (hone : (rest.map wait).sum ≤ 1) (done : List Reg) (c : Clock)
    (h : ∀ q ∈ rest, (Clock.tick^[ticksTo wait q rest] c).rtcReadReg q = c.rtcReadReg q) :
    Untorn wait done rest c := by
  induction rest generalizing done c with
  | nil => trivial
  | cons r rest ih =>
    obtain ⟨hr, hnodup⟩ := List.nodup_cons.mp hnodup
    rw [List.map_cons, List.sum_cons] at hone
    rcases Nat.eq_zero_or_pos (wait r) with hwait | hwait
    · refine ⟨fun k hk => absurd hk (by omega), ?_⟩
      rw [hwait]
      refine ih hnodup (by omega) _ _ fun q hq => ?_
      have hrq : r ≠ q := fun he => hr (he ▸ hq)
      have hq' := h q (List.mem_cons_of_mem r hq)
      unfold ticksTo at hq'
      rwa [hwait, if_neg hrq, Nat.zero_add] at hq'
    · have hwait1 : wait r = 1 := by omega
      refine ⟨fun k hk => Or.inr fun q hq => ?_, untorn_quiet (by omega) _ _⟩
      have hk0 : k = 0 := by omega
      have hq' := h q hq
      unfold ticksTo at hq'
      rw [ticksTo_quiet (by omega), hwait1, ite_self] at hq'
      rw [hk0]
      exact not_not.mpr hq'

/-- A tick that changes no register read before it does not tear. -/
theorem untorn_new {wait : Reg → Nat} {rest : List Reg} (hnodup : rest.Nodup)
    (hone : (rest.map wait).sum = 1) {done : List Reg} {c : Clock}
    (hdone : ∀ q ∈ done, ¬ c.Changes q)
    (h : ∀ q ∈ rest, (Clock.tick^[ticksTo wait q rest] c).rtcReadReg q = c.tick.rtcReadReg q) :
    Untorn wait done rest c := by
  induction rest generalizing done c with
  | nil => trivial
  | cons r rest ih =>
    obtain ⟨hr, hnodup⟩ := List.nodup_cons.mp hnodup
    rw [List.map_cons, List.sum_cons] at hone
    rcases Nat.eq_zero_or_pos (wait r) with hwait | hwait
    · have hold : ¬ c.Changes r := by
        have hr' := h r List.mem_cons_self
        unfold ticksTo at hr'
        rw [hwait, if_pos rfl] at hr'
        exact not_not.mpr hr'.symm
      refine ⟨fun k hk => absurd hk (by omega), ?_⟩
      rw [hwait]
      refine ih hnodup (by omega) ?_ fun q hq => ?_
      · intro q hq
        rcases List.mem_cons.mp hq with rfl | hq
        · exact hold
        · exact hdone q hq
      · have hrq : r ≠ q := fun he => hr (he ▸ hq)
        have hq' := h q (List.mem_cons_of_mem r hq)
        unfold ticksTo at hq'
        rwa [hwait, if_neg hrq, Nat.zero_add] at hq'
    · refine ⟨fun k hk => Or.inl fun q hq => ?_, untorn_quiet (by omega) _ _⟩
      have hk0 : k = 0 := by omega
      rw [hk0]
      exact hdone q hq

namespace Reading

/-- The counts that a reading takes: of the first register at once, of the others after the
ticks before them. -/
theorem values (p : Reading) {c : Clock} (hc : c.Valid) {r : Reg} {rest : List Reg}
    (horder : p.order = r :: rest) :
    ((readRegs p.wait p.order (fun _ => 0) c).1 r).toNat = (p.first c).field r ∧
      ∀ q ∈ rest, ((readRegs p.wait p.order (fun _ => 0) c).1 q).toNat =
        (Clock.tick^[ticksTo p.wait q rest] (p.first c)).field q := by
  have hnodup := p.nodup
  rw [horder] at hnodup
  have hr := (List.nodup_cons.mp hnodup).1
  unfold first
  rw [horder, List.map_cons, List.headD_cons]
  constructor
  · rw [readRegs_value hnodup _ _ List.mem_cons_self,
      Clock.bcdToBin_rtcReadReg (Clock.valid_ticks hc _)]
    unfold ticksTo
    rw [if_pos rfl, Nat.add_zero]
  · intro q hq
    have hrq : r ≠ q := fun he => hr (he ▸ hq)
    rw [readRegs_value hnodup _ _ (List.mem_cons_of_mem r hq),
      Clock.bcdToBin_rtcReadReg (Clock.valid_ticks hc _)]
    rw [← Function.iterate_add_apply, Nat.add_comm]
    conv_lhs => unfold ticksTo
    rw [if_neg hrq]

/-- **One tick at most**: the result lies between the times of the first read and of the last if
and only if the tick does not tear the reading, in this century. -/
theorem between_iff (p : Reading) {c : Clock} (hc : c.Valid) (hone : p.ticks ≤ 1) :
    p.Between c ↔ p.Whole c := by
  refine ⟨fun ⟨hlo, hhi⟩ => ?_, between_of_whole hc⟩
  obtain ⟨r, rest, horder⟩ := p.order_cons
  have hfirst : (p.first c).Valid := Clock.valid_ticks hc _
  obtain ⟨hfr, hfrest⟩ := p.values hc horder
  have hnodup := p.nodup
  rw [horder] at hnodup
  obtain ⟨hr, hnodup⟩ := List.nodup_cons.mp hnodup
  have hticks : p.ticks = (rest.map p.wait).sum := by
    unfold ticks
    rw [horder, List.tail_cons]
  have hmixed : ∀ q, ((readRegs p.wait p.order (fun _ => 0) c).1 q).toNat = (p.first c).field q ∨
      ((readRegs p.wait p.order (fun _ => 0) c).1 q).toNat = (p.first c).tick.field q := by
    intro q
    have hq := p.complete q
    rw [horder] at hq
    rcases List.mem_cons.mp hq with rfl | hq
    · exact Or.inl hfr
    · have hle := ticksTo_le p.wait q rest
      rw [hfrest q hq]
      have h01 : ticksTo p.wait q rest = 0 ∨ ticksTo p.wait q rest = 1 := by omega
      rcases h01 with h | h <;> rw [h]
      · exact Or.inl rfl
      · exact Or.inr rfl
  have hresult : ((rtcGetEpoch p c).1.toNat : Int) =
      timeOf fun q => ((readRegs p.wait p.order (fun _ => 0) c).1 q).toNat :=
    epochOf_eq ((Clock.counts hfirst).mixed (Clock.counts (Clock.valid_tick hfirst)) hmixed)
  -- the first read has nothing before it to tear
  have hstart : Untorn p.wait [r] rest (p.first c) → Untorn p.wait [] p.order c := by
    intro h
    unfold first at h
    rw [horder] at h ⊢
    exact ⟨fun _ _ => Or.inl fun q hq => absurd hq List.not_mem_nil, h⟩
  rw [last_eq, Clock.epoch_ticks hfirst] at hhi
  have hcases : timeOf (fun q => ((readRegs p.wait p.order (fun _ => 0) c).1 q).toNat) =
      (p.first c).epoch ∨ p.ticks = 1 ∧
      timeOf (fun q => ((readRegs p.wait p.order (fun _ => 0) c).1 q).toNat) =
        (p.first c).tick.epoch := by
    rw [← hresult, Clock.epoch_tick hfirst]
    omega
  rcases hcases with hold | ⟨htick, hnew⟩
  · obtain ⟨hcentury, hsame⟩ := timeOf_mixed hfirst (Or.inl rfl) hmixed hold
    refine ⟨hcentury, hstart (untorn_old hnodup (by omega) _ _ fun q hq => ?_)⟩
    unfold Clock.rtcReadReg
    rw [← hfrest q hq, hsame q]
  · obtain ⟨hcentury, hsame⟩ := timeOf_mixed hfirst (Or.inr rfl) hmixed hnew
    have hkept : ¬ (p.first c).Changes r := by
      rw [Clock.changes_iff hfirst, not_not, ← hfr, hsame r]
    refine ⟨?_, hstart (untorn_new hnodup (by omega) ?_ fun q hq => ?_)⟩
    · exact ((Clock.inCentury_tick hfirst).resolve_right fun hall => hkept (hall r)).mp hcentury
    · intro q hq
      rw [List.mem_singleton.mp hq]
      exact hkept
    · unfold Clock.rtcReadReg
      rw [← hfrest q hq, hsame q]

end Reading

/-! ## The uptime -/

/-- The results of consecutive calls of `rtc_get_uptime`, each with its two readings. -/
def uptimes : List (Reading × Reading) → Rtc → List UInt32
  | [], _ => []
  | (p, q) :: calls, s => (rtcGetUptime p q s).1 :: uptimes calls (rtcGetUptime p q s).2

/-- With a boot time: `rtc_get_uptime` takes it where `rtc_init` has not. -/
def Rtc.started (p : Reading) (s : Rtc) : Rtc := if !s.bootEpochSet then rtcInit p s else s

/-- The readings that the calls make are whole. -/
def WholeCalls : List (Reading × Reading) → Rtc → Prop
  | [], _ => True
  | (p, q) :: calls, s =>
    (s.bootEpochSet = false → p.Whole s.clock) ∧ q.Whole (s.started p).clock ∧
      WholeCalls calls (rtcGetUptime p q s).2

/-- The driver after boot, with `rtc_init` if it has been called. -/
def Rtc.boot (init : Option Reading) (c : Clock) : Rtc :=
  match init with
  | none => ⟨c, 0, false⟩
  | some p => rtcInit p ⟨c, 0, false⟩

/-- The boot time is in the past. -/
structure Rtc.Ok (s : Rtc) : Prop where
  clock : s.clock.Valid
  past : s.bootEpochSet = true → (s.bootEpoch.toNat : Int) ≤ s.clock.epoch

namespace Rtc

theorem valid_last (p : Reading) {c : Clock} (hc : c.Valid) : (p.last c).Valid := by
  rw [p.last_eq]
  exact Clock.valid_ticks (Clock.valid_ticks hc _) _

/-- The clock at the first read is not earlier than at the call. -/
theorem epoch_le_first (p : Reading) {c : Clock} (hc : c.Valid) : c.epoch ≤ (p.first c).epoch := by
  unfold Reading.first
  rw [Clock.epoch_ticks hc]
  omega

theorem ok_rtcInit {p : Reading} {s : Rtc} (h : s.clock.Valid) (hp : p.Whole s.clock) :
    (rtcInit p s).Ok :=
  ⟨valid_last p h, fun _ => (Reading.between_of_whole h hp).2⟩

theorem ok_started {p : Reading} {s : Rtc} (h : s.Ok)
    (hp : s.bootEpochSet = false → p.Whole s.clock) :
    (s.started p).Ok ∧ (s.started p).bootEpochSet = true := by
  unfold started
  cases hset : s.bootEpochSet with
  | false => exact ⟨ok_rtcInit h.clock (hp hset), rfl⟩
  | true => exact ⟨h, hset⟩

/-- One call: with the boot time it makes an epoch between those of its start and its end. -/
theorem rtcGetUptime_spec {p q : Reading} {s : Rtc} (h : (s.started p).Ok)
    (hset : (s.started p).bootEpochSet = true) (hq : q.Whole (s.started p).clock) :
    (rtcGetUptime p q s).2.Ok ∧ (rtcGetUptime p q s).2.bootEpochSet = true ∧
      (rtcGetUptime p q s).2.bootEpoch = (s.started p).bootEpoch ∧
      (s.started p).clock.epoch ≤
        (s.started p).bootEpoch.toNat + (rtcGetUptime p q s).1.toNat ∧
      ((s.started p).bootEpoch.toNat + (rtcGetUptime p q s).1.toNat : Int) ≤
        (rtcGetUptime p q s).2.clock.epoch := by
  obtain ⟨hlo, hhi⟩ := Reading.between_of_whole h.clock hq
  have hstart := epoch_le_first q h.clock
  have hpast := h.past hset
  have hsub : ((rtcGetUptime p q s).1.toNat : Int) =
      (rtcGetEpoch q (s.started p).clock).1.toNat - (s.started p).bootEpoch.toNat := by
    have hle : (s.started p).bootEpoch ≤ (rtcGetEpoch q (s.started p).clock).1 :=
      UInt32.le_iff_toNat_le.mpr (by omega)
    change (((rtcGetEpoch q (s.started p).clock).1 - (s.started p).bootEpoch).toNat : Int) = _
    have := UInt32.le_iff_toNat_le.mp hle
    rw [UInt32.toNat_sub_of_le _ _ hle]
    omega
  have hclock : (rtcGetUptime p q s).2.clock = q.last (s.started p).clock := rfl
  refine ⟨⟨valid_last q h.clock, fun _ => ?_⟩, hset, rfl, by omega, by rw [hclock]; omega⟩
  rw [hclock]
  change ((s.started p).bootEpoch.toNat : Int) ≤ _
  omega

/-- All later uptimes count on from the clock. -/
theorem clock_le_uptimes {s : Rtc} (h : s.Ok) (hset : s.bootEpochSet = true)
    {calls : List (Reading × Reading)} (hcalls : WholeCalls calls s) :
    ∀ u ∈ uptimes calls s, s.clock.epoch ≤ s.bootEpoch.toNat + u.toNat := by
  induction calls generalizing s with
  | nil => exact fun u hu => absurd hu List.not_mem_nil
  | cons call calls ih =>
    obtain ⟨p, q⟩ := call
    obtain ⟨-, hq, hrest⟩ := hcalls
    have hstarted : s.started p = s := by
      unfold started
      rw [hset]
      rfl
    rw [hstarted] at hq
    obtain ⟨hok, hset', hboot, hlo, hhi⟩ :=
      rtcGetUptime_spec (p := p) (hstarted.symm ▸ h) (hstarted.symm ▸ hset) (hstarted.symm ▸ hq)
    rw [hstarted] at hboot hlo hhi
    intro u hu
    rcases List.mem_cons.mp hu with rfl | hu
    · exact hlo
    · have := ih hok hset' hrest u hu
      rw [hboot] at this
      omega

/-- **The uptime never decreases** along calls whose readings are whole. -/
theorem uptimes_pairwise {s : Rtc} (h : s.Ok) {calls : List (Reading × Reading)}
    (hcalls : WholeCalls calls s) : (uptimes calls s).Pairwise (· ≤ ·) := by
  induction calls generalizing s with
  | nil => exact List.Pairwise.nil
  | cons call calls ih =>
    obtain ⟨p, q⟩ := call
    obtain ⟨hp, hq, hrest⟩ := hcalls
    obtain ⟨hstarted, hset⟩ := ok_started h hp
    obtain ⟨hok, hset', hboot, -, hhi⟩ := rtcGetUptime_spec hstarted hset hq
    refine List.Pairwise.cons (fun u hu => ?_) (ih hok hrest)
    have := clock_le_uptimes hok hset' hrest u hu
    rw [hboot] at this
    exact UInt32.le_iff_toNat_le.mpr (by omega)

end Rtc

/-- **Consistent clock reads.** Where no tick changes a register that has been read and one that
is yet to be read, in the years 2000 to 2099, the result lies between the times of the first read
and of the last; with at most one tick among the reads, only there. Along such readings from boot
the uptime never decreases. -/
theorem rtcGetEpoch_between (p : Reading) (c : Clock) (hc : c.Valid) :
    (p.Whole c → p.Between c) ∧ (p.ticks ≤ 1 → (p.Between c ↔ p.Whole c)) ∧
      ∀ (init : Option Reading) (calls : List (Reading × Reading)),
        (∀ q ∈ init, q.Whole c) → WholeCalls calls (Rtc.boot init c) →
        (uptimes calls (Rtc.boot init c)).Pairwise (· ≤ ·) := by
  refine ⟨Reading.between_of_whole hc, p.between_iff hc, fun init calls hinit hcalls => ?_⟩
  refine Rtc.uptimes_pairwise ?_ hcalls
  cases init with
  | none => exact ⟨hc, fun h => Bool.noConfusion h⟩
  | some q => exact Rtc.ok_rtcInit hc (hinit q rfl)

/-- From the year down to the seconds. -/
def Reading.downwards (wait : Reg → Nat) : Reading where
  order := [.year, .month, .day, .hours, .minutes, .seconds]
  wait := wait
  nodup := by decide
  complete r := by cases r <;> decide

/-- A tick in front of the seconds, at eight o'clock and ten seconds. -/
theorem rtcGetEpoch_between_ten :
    (Reading.downwards fun r => if r = .seconds then 1 else 0).Between
      ⟨⟨2026, 1, 1⟩, 8, 0, 10⟩ := by
  obtain ⟨hwhole, -, -⟩ := rtcGetEpoch_between
    (Reading.downwards fun r => if r = .seconds then 1 else 0) ⟨⟨2026, 1, 1⟩, 8, 0, 10⟩
    ⟨⟨by decide, by decide⟩, by decide, by decide, by decide⟩
  exact hwhole (by decide)

/-- One second before one o'clock the hours are read, then the clock ticks: the result is midnight,
an hour too early. -/
theorem torn_at_one :
    ¬ (Reading.downwards fun r => if r = .minutes then 1 else 0).Between
      ⟨⟨2026, 1, 1⟩, 0, 59, 59⟩ := by
  rw [Reading.between_iff _ ⟨⟨by decide, by decide⟩, by decide, by decide, by decide⟩ (by decide)]
  decide

end HaoSys.Driver
