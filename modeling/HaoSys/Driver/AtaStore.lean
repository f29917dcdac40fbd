import HaoSys.Driver.AtaCommand

/-!
# The ATA driver as a store (`driver/ata.c`)

A run of calls after `ata_init` is a history of a store whose keys are the
sectors of the two drives, by the low 28 bits of the sector number. It is
fail-stop: after one call on a detected drive has failed, every call fails and
the media stay as they are, because the ERR of that command is still in the
status that the next call looks at first.
-/

namespace HaoSys.Driver

open HaoSys.Lib HaoSys.Fs Channel

/-- A call of the driver; a read says what is in the buffer before. -/
inductive AtaCall where
  | read (d : Drive) (lba : UInt32) (buffer : Sector)
  | write (d : Drive) (lba : UInt32) (buffer : Sector)

namespace AtaCall

def drive : AtaCall → Drive
  | read d _ _ => d
  | write d _ _ => d

def lba : AtaCall → UInt32
  | read _ lba _ => lba
  | write _ lba _ => lba

/-- What the call means to the store. -/
def request : AtaCall → Request (Drive × Nat) Sector
  | read d lba _ => .read (d, sectorKey lba)
  | write d lba buffer => .write (d, sectorKey lba) buffer

/-- The call, with what it returns: on success a read's buffer. -/
def run (s : Ata) : AtaCall → Reply Sector × Ata
  | read d lba buffer =>
    let (ok, buffer, s) := s.readSector d lba buffer
    (if ok then .got buffer else .failed, s)
  | write d lba buffer =>
    let (ok, s) := s.writeSector d lba buffer
    (if ok then .done else .failed, s)

end AtaCall

namespace Ata

/-- The sectors of both drives. -/
def contents (s : Ata) (k : Drive × Nat) : Sector := s.chan.medium k.1 k.2

/-- The replies to a list of calls. -/
def serve (s : Ata) (calls : List AtaCall) : List (Reply Sector) × Ata :=
  answerAll (fun q s => q.run s) calls s

/-- Between calls: no drive is busy, and a detected drive is there. -/
structure Sound (s : Ata) : Prop where
  quiet : s.chan.Quiet
  prompt : s.chan.Prompt
  detected : ∀ d, s.detected d = true → s.chan.connected d = true

end Ata

section Call

variable {s : Ata} {q : AtaCall}

theorem run_undetected (h : s.detected q.drive = false) : q.run s = (.failed, s) := by
  cases q with
  | read d lba buffer =>
    have h' : s.detected d = false := h
    simp [AtaCall.run, Ata.readSector, h']
  | write d lba buffer =>
    have h' : s.detected d = false := h
    simp [AtaCall.run, Ata.writeSector, h']

/-- Once ERR is in the status, a call sends nothing. -/
theorem run_latched (hs : s.Sound) (hl : s.chan.Latched) : q.run s = (.failed, s) := by
  cases hd : s.detected q.drive with
  | false => exact run_undetected hd
  | true =>
    cases q with
    | read d lba buffer =>
      have h' : s.detected d = true := hd
      simp [AtaCall.run, Ata.readSector, h', read_latched hs.quiet hl]
    | write d lba buffer =>
      have h' : s.detected d = true := hd
      simp [AtaCall.run, Ata.writeSector, h', write_latched hs.quiet hl]

/-- The channel after a command, with the drives as they were. -/
theorem sound_after {c : Channel} {e : Bool} (hs : s.Sound) (hq : c.Quiet)
    (hr : c.responses = s.chan.responses) (hi : c.identify = s.chan.identify)
    (hc : c.connected = s.chan.connected) :
    ({ s with chan := c.taken (.idle e) } : Ata).Sound := by
  refine ⟨hq.taken e, ⟨fun n => ?_, fun n => ?_, fun d => ?_⟩, fun d hd => ?_⟩
  · have h : c.responses n = s.chan.responses n := congrFun hr n
    exact h ▸ hs.prompt.delay n
  · have h : c.responses n = s.chan.responses n := congrFun hr n
    exact h ▸ hs.prompt.finish n
  · have h : c.identify d = s.chan.identify d := congrFun hi d
    exact h ▸ hs.prompt.identify d
  · have h : c.connected d = s.chan.connected d := congrFun hc d
    exact h ▸ hs.detected d hd

theorem latched_taken {c : Channel} (hc : c.connected c.selected = true) :
    (c.taken (.idle true)).Latched := ⟨hc, phase_setPhase _⟩

theorem not_latched_taken (c : Channel) : ¬ (c.taken (.idle false)).Latched := by
  intro h
  have hp : (c.taken (.idle false)).phase c.selected = .idle false := phase_setPhase _
  have h' : (c.taken (.idle false)).phase c.selected = .idle true := h.2
  rw [hp] at h'
  cases h'

/-- What one call does, with reply `a` and state `t` afterwards. -/
structure Outcome (s : Ata) (q : AtaCall) (a : Reply Sector) (t : Ata) : Prop where
  sound : t.Sound
  detected : t.detected = s.detected
  serves : Serves s.contents q.request a t.contents
  stopped : s.detected q.drive = true → a = .failed → t.chan.Latched

/-- A call that fails and changes nothing. -/
theorem outcome_same (hs : s.Sound) (hl : s.detected q.drive = true → s.chan.Latched) :
    Outcome s q .failed s := by
  refine ⟨hs, rfl, ?_, fun hd _ => hl hd⟩
  cases q with
  | read d lba buffer => exact .readFailed _
  | write d lba buffer => exact .writeFailed fun _ _ => rfl

/-- The state after a command that leaves the drive idle. -/
def Ata.after (s : Ata) (d : Drive) (lba : UInt32) (e : Bool) : Ata :=
  { s with chan := (setLba (Ata.selector d) lba s.chan).taken (.idle e) }

/-- The state after a command that changes a sector. -/
def Ata.afterWrite (s : Ata) (d : Drive) (lba : UInt32) (x : Sector) (e : Bool) : Ata :=
  { s with chan :=
    ((setLba (Ata.selector d) lba s.chan).setSector d (sectorKey lba) x).taken (.idle e) }

section Commands

variable {d : Drive} {lba : UInt32} {buffer : Sector} (hs : s.Sound) (hl : ¬ s.chan.Latched)
  (hd : s.detected d = true)
include hs hl hd

theorem run_read_rejected (hr : s.chan.Rejects d lba) :
    (AtaCall.read d lba buffer).run s = (.failed, s.after d lba true) := by
  simp [AtaCall.run, Ata.readSector, hd, read_rejected hs.quiet hs.prompt hl (hs.detected d hd) hr,
    Ata.after]

theorem run_read_ok (hr : ¬ s.chan.Rejects d lba) :
    (AtaCall.read d lba buffer).run s =
      (.got (s.contents (d, sectorKey lba)), s.after d lba false) := by
  simp [AtaCall.run, Ata.readSector, hd, read_ok hs.quiet hs.prompt hl (hs.detected d hd) hr,
    Ata.contents, Ata.after]

theorem run_write_rejected (hr : s.chan.Rejects d lba) :
    (AtaCall.write d lba buffer).run s = (.failed, s.after d lba true) := by
  simp [AtaCall.run, Ata.writeSector, hd,
    write_rejected hs.quiet hs.prompt hl (hs.detected d hd) hr, Ata.after]

theorem run_write_stored (hr : ¬ s.chan.Rejects d lba) (hst : s.chan.response.stores = true) :
    (AtaCall.write d lba buffer).run s = (.done, s.afterWrite d lba buffer false) := by
  simp [AtaCall.run, Ata.writeSector, hd, write_taken hs.quiet hs.prompt hl (hs.detected d hd) hr,
    Ata.afterWrite, hst]

theorem run_write_torn (hr : ¬ s.chan.Rejects d lba) (hst : s.chan.response.stores = false) :
    (AtaCall.write d lba buffer).run s =
      (.failed, s.afterWrite d lba s.chan.response.torn true) := by
  simp [AtaCall.run, Ata.writeSector, hd, write_taken hs.quiet hs.prompt hl (hs.detected d hd) hr,
    Ata.afterWrite, hst]

omit hl hd in
theorem sound_after_command (e : Bool) : (s.after d lba e).Sound :=
  sound_after hs (quiet_setLba hs.quiet) rfl rfl rfl

omit hl hd in
theorem sound_after_write (x : Sector) (e : Bool) : (s.afterWrite d lba x e).Sound :=
  have hq : (setLba (Ata.selector d) lba s.chan).Quiet := quiet_setLba hs.quiet
  sound_after hs ⟨hq.idle, hq.busy⟩ rfl rfl rfl

omit hl in
theorem latched_after : (s.after d lba true).chan.Latched :=
  latched_taken (connected_setLba (hs.detected d hd))

omit hl in
theorem latched_after_write (x : Sector) : (s.afterWrite d lba x true).chan.Latched :=
  have hc : (setLba (Ata.selector d) lba s.chan).connected
      (setLba (Ata.selector d) lba s.chan).selected = true := connected_setLba (hs.detected d hd)
  latched_taken (c := (setLba (Ata.selector d) lba s.chan).setSector d (sectorKey lba) x) hc

omit hs hl hd in
theorem contents_afterWrite (x : Sector) (e : Bool) (j : Drive × Nat) :
    (s.afterWrite d lba x e).contents j = if j = (d, sectorKey lba) then x else s.contents j := by
  have hmedium : (s.afterWrite d lba x e).contents j = Function.update s.chan.medium d
      (Function.update (s.chan.medium d) (sectorKey lba) x) j.1 j.2 := rfl
  rw [hmedium]
  obtain ⟨d', i⟩ := j
  by_cases he : d' = d
  · subst he
    rw [Function.update_self]
    by_cases hi : i = sectorKey lba
    · subst hi
      rw [Function.update_self, if_pos rfl]
    · rw [Function.update_of_ne hi, if_neg fun h => hi (Prod.mk.inj h).2]
      rfl
  · rw [Function.update_of_ne he, if_neg fun h => he (Prod.mk.inj h).1]
    rfl

theorem read_outcome :
    Outcome s (.read d lba buffer) ((AtaCall.read d lba buffer).run s).1
      ((AtaCall.read d lba buffer).run s).2 := by
  by_cases hr : s.chan.Rejects d lba
  · rw [run_read_rejected hs hl hd hr]
    exact ⟨sound_after_command hs true, rfl, .readFailed _, fun _ _ => latched_after hs hd⟩
  · rw [run_read_ok hs hl hd hr]
    exact ⟨sound_after_command hs false, rfl, .read _, fun _ h => by cases h⟩

theorem write_outcome :
    Outcome s (.write d lba buffer) ((AtaCall.write d lba buffer).run s).1
      ((AtaCall.write d lba buffer).run s).2 := by
  by_cases hr : s.chan.Rejects d lba
  · rw [run_write_rejected hs hl hd hr]
    exact ⟨sound_after_command hs true, rfl, .writeFailed fun _ _ => rfl,
      fun _ _ => latched_after hs hd⟩
  · cases hst : s.chan.response.stores with
    | false =>
      rw [run_write_torn hs hl hd hr hst]
      refine ⟨sound_after_write hs _ true, rfl, .writeFailed fun j hj => ?_,
        fun _ _ => latched_after_write hs hd _⟩
      rw [contents_afterWrite, if_neg hj]
    | true =>
      rw [run_write_stored hs hl hd hr hst]
      refine ⟨sound_after_write hs _ false, rfl, .write ?_ fun j hj => ?_, fun _ h => by cases h⟩
      · rw [contents_afterWrite, if_pos rfl]
      · rw [contents_afterWrite, if_neg hj]

end Commands

/-- **One call.** -/
theorem run_outcome (hs : s.Sound) : Outcome s q (q.run s).1 (q.run s).2 := by
  cases hd : s.detected q.drive with
  | false =>
    rw [run_undetected hd]
    exact outcome_same hs fun h => by rw [hd] at h; cases h
  | true =>
    by_cases hl : s.chan.Latched
    · rw [run_latched hs hl]
      exact outcome_same hs fun _ => hl
    · cases q with
      | read d lba buffer => exact read_outcome hs hl hd
      | write d lba buffer => exact write_outcome hs hl hd

/-- The drive is there, has the sector, accepts the command and stores what it brings. -/
structure AtaCall.Fine (q : AtaCall) (s : Ata) : Prop where
  detected : s.detected q.drive = true
  sector : sectorKey q.lba < s.chan.capacity q.drive
  accepts : s.chan.response.accepts = true
  stores : s.chan.response.stores = true

theorem run_fine (hs : s.Sound) (hl : ¬ s.chan.Latched) (hf : q.Fine s) :
    (q.run s).1 ≠ .failed ∧ ¬ (q.run s).2.chan.Latched ∧
      (q.run s).2.chan.accepted = s.chan.accepted + 1 ∧
      (q.run s).2.chan.responses = s.chan.responses ∧
      (q.run s).2.chan.capacity = s.chan.capacity := by
  cases q with
  | read d lba buffer =>
    have hr : ¬ s.chan.Rejects d lba := not_not.2 ⟨hf.accepts, hf.sector⟩
    have hd : s.detected d = true := hf.detected
    rw [run_read_ok hs hl hd hr]
    exact ⟨fun h => (by cases h), not_latched_taken _, rfl, rfl, rfl⟩
  | write d lba buffer =>
    have hr : ¬ s.chan.Rejects d lba := not_not.2 ⟨hf.accepts, hf.sector⟩
    have hd : s.detected d = true := hf.detected
    rw [run_write_stored hs hl hd hr hf.stores]
    exact ⟨fun h => (by cases h), not_latched_taken _, rfl, rfl, rfl⟩

end Call

/-! ## Runs -/

namespace Ata

theorem serve_nil (s : Ata) : (s.serve []).2 = s := rfl

theorem serve_keeps {s : Ata} (hs : s.Sound) (calls : List AtaCall) :
    (s.serve calls).2.Sound ∧ (s.serve calls).2.detected = s.detected := by
  refine answerAll_keeps (I := fun t : Ata => t.Sound ∧ t.detected = s.detected)
    (fun q t h => ?_) calls ⟨hs, rfl⟩
  have hout := run_outcome (q := q) h.1
  exact ⟨hout.sound, hout.detected.trans h.2⟩

/-- Once ERR is in the status, nothing is sent any more. -/
theorem serve_latched {s : Ata} (hs : s.Sound) (hl : s.chan.Latched) (calls : List AtaCall) :
    s.serve calls = (List.replicate calls.length .failed, s) := by
  induction calls with
  | nil => rfl
  | cons q qs ih =>
    unfold serve at ih ⊢
    rw [answerAll, run_latched hs hl]
    simp only
    rw [ih]
    rfl

/-- Without a rejected command nothing fails. -/
theorem serve_fine {s : Ata} (hs : s.Sound) (hl : ¬ s.chan.Latched)
    (hw : ∀ n, s.chan.accepted ≤ n →
      (s.chan.responses n).accepts = true ∧ (s.chan.responses n).stores = true)
    (calls : List AtaCall) (hcalls : ∀ q ∈ calls, s.detected q.drive = true ∧
      sectorKey q.lba < s.chan.capacity q.drive) : ∀ a ∈ (s.serve calls).1, a ≠ .failed := by
  induction calls generalizing s with
  | nil => exact fun a ha => absurd ha List.not_mem_nil
  | cons q qs ih =>
    obtain ⟨hd, hk⟩ := hcalls q List.mem_cons_self
    have hnow := hw s.chan.accepted (Nat.le_refl _)
    obtain ⟨hok, hl', hacc, hresp, hcap⟩ := run_fine hs hl ⟨hd, hk, hnow.1, hnow.2⟩
    have hout := run_outcome (q := q) hs
    have hrest : ∀ a ∈ ((q.run s).2.serve qs).1, a ≠ .failed := by
      refine ih hout.sound hl' (fun n hn => ?_) fun r hr => ?_
      · rw [hresp]
        exact hw n (by omega)
      · rw [hout.detected, hcap]
        exact hcalls r (List.mem_cons_of_mem _ hr)
    intro a ha
    rcases List.mem_cons.1 ha with rfl | ha
    · exact hok
    · exact hrest a ha

end Ata

/-! ## From the start -/

section Init

variable {c : Channel} (hq : c.Quiet) (hpr : c.Prompt)
include hq hpr

/-- What an IDENTIFY leaves: the drives are quiet, and no medium has changed. -/
theorem identify_keeps (d : Drive) :
    (ataIdentify (Ata.selector d) c).2.2.Quiet ∧ (ataIdentify (Ata.selector d) c).2.2.Prompt ∧
      (ataIdentify (Ata.selector d) c).2.2.connected = c.connected ∧
      (ataIdentify (Ata.selector d) c).2.2.medium = c.medium ∧
      ((ataIdentify (Ata.selector d) c).1 = true → c.connected d = true) := by
  have hset : (setTask 0 0 0 0 (Ata.selector d) c).Quiet := ⟨hq.idle, hq.busy⟩
  have hprompt : c.Prompt := hpr
  by_cases hl : c.Latched
  · rw [identify_latched hq hl]
    exact ⟨hq, hpr, rfl, rfl, fun h => by cases h⟩
  · cases hc : c.connected d with
    | false =>
      rw [identify_absent hq hl hc]
      exact ⟨hset, ⟨hpr.delay, hpr.finish, hpr.identify⟩, rfl, rfl, fun h => by cases h⟩
    | true =>
      cases hr : c.response.accepts with
      | false =>
        rw [identify_rejected hq hpr hl hc hr]
        exact ⟨hset.taken true, ⟨hpr.delay, hpr.finish, hpr.identify⟩, rfl, rfl, fun _ => rfl⟩
      | true =>
        rw [identify_ok hq hpr hl hc hr]
        exact ⟨hset.taken false, ⟨hpr.delay, hpr.finish, hpr.identify⟩, rfl, rfl, fun _ => rfl⟩

omit hq hpr in
theorem init_eq (c : Channel) :
    ataInit c =
      ((ataIdentify (Ata.selector .master) c).1,
        ⟨(ataIdentify (Ata.selector .master) c).1,
          (ataIdentify (Ata.selector .master) c).2.1.getD 0,
          (ataIdentify (Ata.selector .slave) (ataIdentify (Ata.selector .master) c).2.2).1,
          (ataIdentify (Ata.selector .slave)
            (ataIdentify (Ata.selector .master) c).2.2).2.1.getD 0,
          (ataIdentify (Ata.selector .slave)
            (ataIdentify (Ata.selector .master) c).2.2).2.2⟩) := by
  have hm : driveMaster = Ata.selector .master := rfl
  have hs : driveSlave = Ata.selector .slave := rfl
  unfold ataInit
  rw [hm, hs]

theorem init_spec :
    (ataInit c).2.Sound ∧ (ataInit c).2.contents = fun k => c.medium k.1 k.2 := by
  obtain ⟨hq1, hpr1, hc1, hm1, hd1⟩ := identify_keeps hq hpr .master
  obtain ⟨hq2, hpr2, hc2, hm2, hd2⟩ := identify_keeps hq1 hpr1 .slave
  rw [init_eq]
  refine ⟨⟨hq2, hpr2, fun d hd => ?_⟩, ?_⟩
  · rw [hc2, hc1]
    cases d with
    | master => exact hd1 hd
    | slave => exact hc1 ▸ hd2 hd
  · unfold Ata.contents
    rw [hm2, hm1]

/-- Two drives that identify themselves are detected. -/
theorem init_detects (hl : ¬ c.Latched) (hc : ∀ d, c.connected d = true)
    (ha : c.response.accepts = true) (ha' : (c.responses (c.accepted + 1)).accepts = true) :
    (∀ d, (ataInit c).2.detected d = true) ∧ ¬ (ataInit c).2.chan.Latched ∧
      (ataInit c).2.chan.accepted = c.accepted + 2 ∧
      (ataInit c).2.chan.responses = c.responses ∧
      (ataInit c).2.chan.capacity = c.capacity := by
  have hmaster := identify_ok hq hpr hl (hc .master) ha
  obtain ⟨hq1, hpr1, hc1, -, -⟩ := identify_keeps hq hpr .master
  rw [hmaster] at hq1 hpr1
  have hslave := identify_ok (d := .slave) hq1 hpr1 (not_latched_taken _) (hc .slave) ha'
  rw [init_eq, hmaster]
  simp only
  rw [hslave]
  refine ⟨fun d => ?_, not_latched_taken _, rfl, rfl, rfl⟩
  cases d <;> rfl

/-- **Every run is a history** of a store with a sector at each of 2²⁸ numbers of each drive: a read
returns what the last write of that number left, and drives and numbers do not interfere. -/
theorem ata_run_history (calls : List AtaCall) :
    History Serves (fun k => c.medium k.1 k.2)
        ((calls.map AtaCall.request).zip ((ataInit c).2.serve calls).1)
        ((ataInit c).2.serve calls).2.contents ∧
      ReadsBack ((calls.map AtaCall.request).zip ((ataInit c).2.serve calls).1) := by
  obtain ⟨hs, hcontents⟩ := init_spec hq hpr
  rw [← hcontents]
  have hhistory := History.of_step (R := Serves)
    (fun _ q s h => (run_outcome (s := s) (q := q) h).sound)
    (fun _ q s h => (run_outcome (s := s) (q := q) h).serves) calls hs
  exact ⟨hhistory, hhistory.readsBack⟩

/-- Two drives of sixteen sectors. -/
def twoDrives (responses : Nat → Response) : Channel :=
  ⟨0, 0, 0, 0, 0, fun _ => true, fun _ => 16, fun _ => List.replicate 256 1, fun _ _ => Sector.zero,
    fun _ => .idle false, fun _ => 0, responses, 0⟩

/-- A drive that carries out its commands. -/
def willing : Response := ⟨3, 2, true, true, Sector.zero⟩

omit hq hpr in
theorem twoDrives_quiet (responses : Nat → Response) : (twoDrives responses).Quiet :=
  ⟨fun _ => ⟨false, rfl⟩, fun _ => rfl⟩

omit hq hpr in
theorem twoDrives_prompt {responses : Nat → Response}
    (h : ∀ n, (responses n).delay < ataPolls ∧ (responses n).finish < ataPolls) :
    (twoDrives responses).Prompt :=
  ⟨fun n => (h n).1, fun n => (h n).2, fun _ => List.length_replicate⟩

omit hq hpr in
theorem willing_prompt : willing.delay < ataPolls ∧ willing.finish < ataPolls := by decide

omit hq hpr in
theorem twoDrives_clear (responses : Nat → Response) : ¬ (twoDrives responses).Latched := by
  intro h
  have hp : (twoDrives responses).phase (twoDrives responses).selected = .idle false := rfl
  have h2 := h.2
  rw [hp] at h2
  cases h2

/-- The second number has the same low 28 bits. -/
def aliasedCalls : List AtaCall :=
  [.write .slave 5 (fun _ => 7), .read .slave (5 + 2 ^ 28) Sector.zero]

omit hq hpr in
theorem ata_run_history_aliased :
    History Serves (fun _ => Sector.zero)
        ((aliasedCalls.map AtaCall.request).zip
          ((ataInit (twoDrives fun _ => willing)).2.serve aliasedCalls).1)
        ((ataInit (twoDrives fun _ => willing)).2.serve aliasedCalls).2.contents ∧
      ReadsBack ((aliasedCalls.map AtaCall.request).zip
        ((ataInit (twoDrives fun _ => willing)).2.serve aliasedCalls).1) :=
  ata_run_history (twoDrives_quiet _) (twoDrives_prompt fun _ => willing_prompt) _

/-- **The driver is fail-stop**: once a call on a detected drive has failed, every later call fails,
on either drive, and nothing changes any more. -/
theorem ata_fail_stop (before : List AtaCall) (q : AtaCall)
    (hd : (ataInit c).2.detected q.drive = true)
    (hfail : (q.run ((ataInit c).2.serve before).2).1 = .failed) (later : List AtaCall) :
    (q.run ((ataInit c).2.serve before).2).2.serve later =
      (List.replicate later.length .failed, (q.run ((ataInit c).2.serve before).2).2) := by
  have hs := (init_spec hq hpr).1
  obtain ⟨hbefore, hsame⟩ := Ata.serve_keeps hs before
  have hout := run_outcome (q := q) hbefore
  have hlatched := hout.stopped (by rw [hsame]; exact hd) hfail
  exact Ata.serve_latched hout.sound hlatched later

omit hq hpr in
theorem ata_fail_stop_beyond :
    (((AtaCall.read .master 16 Sector.zero).run
        ((ataInit (twoDrives fun _ => willing)).2.serve []).2).2.serve
        [.read .slave 3 Sector.zero]).1 = [.failed] := by
  have hq := twoDrives_quiet fun _ => willing
  have hpr := twoDrives_prompt fun _ => willing_prompt
  obtain ⟨hd, hl, -, -, hcap⟩ := init_detects hq hpr (twoDrives_clear _) (fun _ => rfl) rfl rfl
  have hreject : (ataInit (twoDrives fun _ => willing)).2.chan.Rejects .master 16 := by
    rintro ⟨-, hk⟩
    rw [hcap] at hk
    exact absurd hk (by decide)
  have hfail : ((AtaCall.read .master 16 Sector.zero).run
      ((ataInit (twoDrives fun _ => willing)).2.serve []).2).1 = .failed := by
    rw [Ata.serve_nil, run_read_rejected (init_spec hq hpr).1 hl (hd .master) hreject]
  rw [ata_fail_stop hq hpr [] (.read .master 16 Sector.zero) (hd _) hfail
    [.read .slave 3 Sector.zero]]
  rfl

/-- A connected slave that rejects its IDENTIFY is the last drive selected, with its ERR in the
status. -/
theorem init_latched (hl : ¬ c.Latched) (hm : c.connected .master = true)
    (ha : c.response.accepts = true) (hslave : c.connected .slave = true)
    (hreject : (c.responses (c.accepted + 1)).accepts = false) : (ataInit c).2.chan.Latched := by
  have hmaster := identify_ok hq hpr hl hm ha
  obtain ⟨hq1, hpr1, hc1, -, -⟩ := identify_keeps hq hpr .master
  have hclear : ¬ (ataIdentify (Ata.selector .master) c).2.2.Latched := by
    rw [hmaster]
    exact not_latched_taken _
  have hresp : (ataIdentify (Ata.selector .master) c).2.2.response =
      c.responses (c.accepted + 1) := by
    rw [hmaster]
    rfl
  have hchan : (ataInit c).2.chan = (ataIdentify (Ata.selector .slave)
      (ataIdentify (Ata.selector .master) c).2.2).2.2 := by rw [init_eq]
  rw [hchan, identify_rejected hq1 hpr1 hclear (by rw [hc1]; exact hslave) (hresp ▸ hreject)]
  refine latched_taken ?_
  rw [selected_setTask]
  exact (congrFun hc1 .slave).trans hslave

/-- **When the driver works**: a detected master serves every call if and only if no slave is there
that rejects its IDENTIFY. The ERR of such a slave makes every call fail. -/
theorem ata_usable_iff (hl : ¬ c.Latched) (hm : c.connected .master = true)
    (ha : c.response.accepts = true) (hcap : 0 < (ataInit c).2.chan.capacity .master)
    (hw : ∀ n, (ataInit c).2.chan.accepted ≤ n →
      ((ataInit c).2.chan.responses n).accepts = true ∧
        ((ataInit c).2.chan.responses n).stores = true) :
    ((∀ calls : List AtaCall, (∀ q ∈ calls, (ataInit c).2.detected q.drive = true ∧
        sectorKey q.lba < (ataInit c).2.chan.capacity q.drive) →
      ∀ a ∈ ((ataInit c).2.serve calls).1, a ≠ .failed) ↔
    (c.connected .slave = true → (c.responses (c.accepted + 1)).accepts = true)) ∧
    (c.connected .slave = true → (c.responses (c.accepted + 1)).accepts = false →
      ∀ calls : List AtaCall, ((ataInit c).2.serve calls).1 =
        List.replicate calls.length .failed) := by
  have hs := (init_spec hq hpr).1
  have hmaster := identify_ok hq hpr hl hm ha
  have hdetected : (ataInit c).2.detected .master = true := by
    rw [init_eq, hmaster]
    rfl
  have hall : c.connected .slave = true → (c.responses (c.accepted + 1)).accepts = false →
      ∀ calls : List AtaCall, ((ataInit c).2.serve calls).1 =
        List.replicate calls.length .failed := fun hslave hreject calls => by
    rw [Ata.serve_latched hs (init_latched hq hpr hl hm ha hslave hreject)]
  refine ⟨⟨fun hserves hslave => ?_, fun hslave calls hcalls => ?_⟩, hall⟩
  · by_contra hreject
    have hone := hserves [.read .master 0 Sector.zero]
      (fun q hqm => by
        rw [List.mem_singleton] at hqm
        subst hqm
        exact ⟨hdetected, hcap⟩)
    rw [hall hslave (by simpa using hreject)] at hone
    exact hone .failed (by simp) rfl
  · obtain ⟨hq1, hpr1, hc1, -, -⟩ := identify_keeps hq hpr .master
    have hclear : ¬ (ataIdentify (Ata.selector .master) c).2.2.Latched := by
      rw [hmaster]
      exact not_latched_taken _
    have hresp : (ataIdentify (Ata.selector .master) c).2.2.response =
        c.responses (c.accepted + 1) := by
      rw [hmaster]
      rfl
    refine Ata.serve_fine hs ?_ hw calls hcalls
    rw [show (ataInit c).2.chan = (ataIdentify (Ata.selector .slave)
      (ataIdentify (Ata.selector .master) c).2.2).2.2 by rw [init_eq]]
    cases hc : (ataIdentify (Ata.selector .master) c).2.2.connected .slave with
    | false =>
      rw [identify_absent hq1 hclear hc]
      intro h
      have hconn := h.1
      rw [selected_setTask] at hconn
      exact absurd (hc.symm.trans hconn) Bool.false_ne_true
    | true =>
      have hacc := hslave ((congrFun hc1 .slave).symm.trans hc)
      rw [identify_ok hq1 hpr1 hclear hc (hresp ▸ hacc)]
      exact not_latched_taken _

omit hq hpr in
theorem ata_usable_iff_two :
    ((∀ calls : List AtaCall, (∀ q ∈ calls,
        (ataInit (twoDrives fun _ => willing)).2.detected q.drive = true ∧ sectorKey q.lba <
          (ataInit (twoDrives fun _ => willing)).2.chan.capacity q.drive) →
      ∀ a ∈ ((ataInit (twoDrives fun _ => willing)).2.serve calls).1, a ≠ .failed) ↔
    ((twoDrives fun _ => willing).connected .slave = true → willing.accepts = true)) ∧
    ((twoDrives fun _ => willing).connected .slave = true → willing.accepts = false →
      ∀ calls : List AtaCall, ((ataInit (twoDrives fun _ => willing)).2.serve calls).1 =
        List.replicate calls.length .failed) := by
  have hq := twoDrives_quiet fun _ => willing
  have hpr := twoDrives_prompt fun _ => willing_prompt
  obtain ⟨-, -, -, hresp, hcap⟩ := init_detects hq hpr (twoDrives_clear _) (fun _ => rfl) rfl rfl
  refine ata_usable_iff hq hpr (twoDrives_clear _) rfl rfl ?_ fun n _ => ?_
  · rw [hcap]
    decide
  · rw [hresp]
    exact ⟨rfl, rfl⟩

end Init

end HaoSys.Driver
