import HaoSys.Driver.Ata

/-!
# Commands on the ATA channel (`driver/ata.c`)

On a channel that answers within the polls of the wait loops (`Prompt`), a call
of the driver runs one command to its end: `read_ok`, `read_rejected`,
`write_taken` and their companions give the result and the channel afterwards.
Both drives are then idle again (`Quiet`). The first look at the status is
before the drive is selected, so it shows the drive of the last command; ERR
there ends the call (`read_latched`, `write_latched`).
-/

namespace HaoSys.Driver

open HaoSys.Lib HaoSys.Fs

/-! ## Words and bytes -/

theorem sectorWords_length (s : Sector) : (sectorWords s).length = 256 := by
  unfold sectorWords
  rw [List.length_map, List.length_range]

/-- The words of a sector make the sector. -/
theorem ofWords_sectorWords (s : Sector) : ofWords (sectorWords s) = s := by
  funext k
  have hk := k.isLt
  have hhalf : k.val / 2 < 256 := by omega
  have hword : (sectorWords s).getD (k.val / 2) 0 = s.get16 (2 * (k.val / 2)) := by
    unfold sectorWords
    rw [List.getD_eq_getElem?_getD, List.getElem?_map, List.getElem?_range hhalf]
    rfl
  have hself : s.get k.val = s k := dif_pos hk
  unfold ofWords
  rw [hword, ← hself]
  unfold Sector.get16
  have h0 := (s.get (2 * (k.val / 2))).toNat_lt
  have h1 := (s.get (2 * (k.val / 2) + 1)).toNat_lt
  apply UInt8.toNat_inj.1
  rw [byte_toNat, le16_toNat]
  rcases Nat.mod_two_eq_zero_or_one k.val with hpar | hpar
  · have heq : 2 * (k.val / 2) = k.val := by omega
    rw [hpar, heq, Nat.pow_zero, Nat.div_one]
    rw [heq] at h0
    omega
  · have heq : 2 * (k.val / 2) + 1 = k.val := by omega
    rw [hpar, heq, Nat.pow_one]
    rw [heq] at h1
    omega

/-! ## The registers -/

/-- The sector that the driver addresses: the four highest bits are lost. -/
def sectorKey (lba : UInt32) : Nat := lba.toNat % 2 ^ 28

theorem toNat_lba_byte (lba k : UInt32) (hk : k.toNat < 32) :
    ((lba >>> k) &&& 0xFF).toUInt8.toNat = lba.toNat / 2 ^ k.toNat % 256 := by
  have hmask : (0xFF : UInt32).toNat = 2 ^ 8 - 1 := rfl
  rw [UInt32.toNat_toUInt8, UInt32.toNat_and, UInt32.toNat_shiftRight, hmask,
    Nat.and_two_pow_sub_one_eq_mod, Nat.shiftRight_eq_div_pow, Nat.mod_eq_of_lt hk]
  omega

/-- The device register: the selector with the four highest bits of the sector number. -/
theorem device_bits (d : Drive) (lba : UInt32) :
    (Ata.selector d ||| ((lba >>> 24) &&& 0x0F).toUInt8) &&& 0x10 =
        (if d = .master then 0 else 0x10) ∧
      ((Ata.selector d ||| ((lba >>> 24) &&& 0x0F).toUInt8) &&& 0x0F).toNat =
        lba.toNat / 2 ^ 24 % 16 := by
  have hmask : (0x0F : UInt32).toNat = 2 ^ 4 - 1 := rfl
  have h24 : (24 : UInt32).toNat = 24 := rfl
  have hnib : ((lba >>> 24) &&& 0x0F).toUInt8 = UInt8.ofNat (lba.toNat / 2 ^ 24 % 16) := by
    apply UInt8.toNat_inj.1
    rw [UInt32.toNat_toUInt8, UInt32.toNat_and, UInt32.toNat_shiftRight, hmask, h24,
      Nat.and_two_pow_sub_one_eq_mod, Nat.shiftRight_eq_div_pow, UInt8.toNat_ofNat']
  have hall : ∀ n, n < 16 → ∀ d : Drive,
      (Ata.selector d ||| UInt8.ofNat n) &&& 0x10 = (if d = .master then 0 else 0x10) ∧
        ((Ata.selector d ||| UInt8.ofNat n) &&& 0x0F).toNat = n := by
    intro n hn d
    cases d <;> (revert n; decide)
  rw [hnib]
  exact hall _ (Nat.mod_lt _ (by decide)) d

namespace Channel

variable {c : Channel} {d : Drive}

theorem selected_setLba (d : Drive) (lba : UInt32) (c : Channel) :
    (setLba (Ata.selector d) lba c).selected = d := by
  have h := (device_bits d lba).1
  unfold selected setLba setTask
  simp only [h]
  cases d <;> rfl

theorem lba_setLba (d : Drive) (lba : UInt32) (c : Channel) :
    (setLba (Ata.selector d) lba c).lba = sectorKey lba := by
  have hlt := lba.toNat_lt
  have hlow := toNat_lba_byte lba 0 (by decide)
  have hmid := toNat_lba_byte lba 8 (by decide)
  have hhigh := toNat_lba_byte lba 16 (by decide)
  have htop := (device_bits d lba).2
  have h0 : lba >>> 0 = lba := by
    apply UInt32.toNat_inj.1
    rw [UInt32.toNat_shiftRight]
    rfl
  have e0 : (0 : UInt32).toNat = 0 := rfl
  have e8 : (8 : UInt32).toNat = 8 := rfl
  have e16 : (16 : UInt32).toNat = 16 := rfl
  rw [h0, e0] at hlow
  rw [e8] at hmid
  rw [e16] at hhigh
  unfold Channel.lba setLba setTask sectorKey
  simp only [hlow, hmid, hhigh, htop]
  omega

theorem count_setLba (d : Drive) (lba : UInt32) (c : Channel) :
    (setLba (Ata.selector d) lba c).count = 1 := rfl

/-! ## Looks at the status -/

@[simp] theorem selected_setBusy (n : Nat) : (c.setBusy d n).selected = c.selected := rfl
@[simp] theorem selected_setPhase (p : Phase) : (c.setPhase d p).selected = c.selected := rfl
@[simp] theorem connected_setBusy (n : Nat) : (c.setBusy d n).connected = c.connected := rfl
@[simp] theorem connected_setPhase (p : Phase) : (c.setPhase d p).connected = c.connected := rfl
@[simp] theorem phase_setBusy (n : Nat) : (c.setBusy d n).phase = c.phase := rfl
@[simp] theorem busy_setPhase (p : Phase) : (c.setPhase d p).busy = c.busy := rfl

@[simp] theorem busy_setBusy (n : Nat) : (c.setBusy d n).busy d = n := Function.update_self ..

@[simp] theorem phase_setPhase (p : Phase) : (c.setPhase d p).phase d = p :=
  Function.update_self ..

@[simp] theorem setBusy_setBusy (n m : Nat) : (c.setBusy d n).setBusy d m = c.setBusy d m := by
  unfold setBusy
  simp only [Function.update_idem]

@[simp] theorem setPhase_setPhase (p q : Phase) :
    (c.setPhase d p).setPhase d q = c.setPhase d q := by
  unfold setPhase
  simp only [Function.update_idem]

theorem setSector_setPhase (e : Drive) (k : Nat) (x : Sector) (p : Phase) :
    (c.setPhase d p).setSector e k x = (c.setSector e k x).setPhase d p := rfl

theorem setBusy_self {n : Nat} (h : c.busy d = n) : c.setBusy d n = c := by
  unfold setBusy
  rw [← h, Function.update_eq_self]

theorem status_busy {n : Nat} (hc : c.connected c.selected = true)
    (hb : c.busy c.selected = n + 1) : c.status = (0x80, c.setBusy c.selected n) := by
  unfold status
  rw [hc, hb]
  rfl

theorem status_idle {e : Bool} (hc : c.connected c.selected = true)
    (hb : c.busy c.selected = 0) (hp : c.phase c.selected = .idle e) :
    c.status = (if e then 0x51 else 0x50, c) := by
  unfold status
  rw [hc, hb, hp]
  rfl

/-- The drive waits for the host to move data. -/
def Transfers (c : Channel) : Prop := ∀ e, c.phase c.selected ≠ .idle e

theorem status_transfer (hc : c.connected c.selected = true) (hb : c.busy c.selected = 0)
    (hp : c.Transfers) : c.status = (0x58, c) := by
  unfold status
  rw [hc, hb]
  unfold Transfers at hp
  cases h : c.phase c.selected with
  | idle e => exact absurd h (hp e)
  | dataIn => rfl
  | dataOut => rfl

theorem status_absent (hc : c.connected c.selected = false) : c.status = (0, c) := by
  unfold status
  rw [hc]
  rfl

/-- The drive selected last is there and shows ERR. -/
def Latched (c : Channel) : Prop :=
  c.connected c.selected = true ∧ c.phase c.selected = .idle true

end Channel

open Channel

variable {c : Channel} {d : Drive} {n : Nat}

/-- While the drive is busy, the loop goes on. -/
theorem pollReady_busy (hc : c.connected c.selected = true) {b : Nat}
    (hb : c.busy c.selected = b) :
    pollReady (n + b) c = pollReady n (c.setBusy c.selected 0) := by
  induction b generalizing c with
  | zero => rw [setBusy_self hb, Nat.add_zero]
  | succ b ih =>
    rw [← Nat.add_assoc, pollReady, status_busy hc hb]
    simp only [show (0x80 : UInt8) &&& 0x80 ≠ 0 by decide, if_false]
    rw [ih (by simpa using hc) (by simp)]
    simp

theorem pollReady_idle {e : Bool} (hc : c.connected c.selected = true)
    (hb : c.busy c.selected = 0) (hp : c.phase c.selected = .idle e) :
    pollReady (n + 1) c = (!e, c) := by
  rw [pollReady, status_idle hc hb hp]
  cases e <;> rfl

theorem pollReady_absent (hc : c.connected c.selected = false) : pollReady (n + 1) c = (true, c) := by
  rw [pollReady, status_absent hc]
  rfl

theorem pollDrq_busy (hc : c.connected c.selected = true) {b : Nat}
    (hb : c.busy c.selected = b) :
    pollDrq (n + b) c = pollDrq n (c.setBusy c.selected 0) := by
  induction b generalizing c with
  | zero => rw [setBusy_self hb, Nat.add_zero]
  | succ b ih =>
    rw [← Nat.add_assoc, pollDrq, status_busy hc hb]
    simp only
    rw [ih (by simpa using hc) (by simp)]
    simp

theorem pollDrq_err (hc : c.connected c.selected = true) (hb : c.busy c.selected = 0)
    (hp : c.phase c.selected = .idle true) : pollDrq (n + 1) c = (false, c) := by
  rw [pollDrq, status_idle hc hb hp]
  rfl

theorem pollDrq_transfer (hc : c.connected c.selected = true) (hb : c.busy c.selected = 0)
    (hp : c.Transfers) : pollDrq (n + 1) c = (true, c) := by
  rw [pollDrq, status_transfer hc hb hp]
  rfl

/-- No drive: the loop runs to its end. -/
theorem pollDrq_absent (hc : c.connected c.selected = false) : pollDrq n c = (false, c) := by
  induction n with
  | zero => rfl
  | succ n ih =>
    rw [pollDrq, status_absent hc]
    simpa using ih

theorem waitDrq_absent (hc : c.connected c.selected = false) : waitDrq c = (false, c) :=
  pollDrq_absent hc

/-! ## The words of a sector -/

theorem inWords_all {words : List UInt16} {f : Nat} (hne : words ≠ [])
    (hp : c.phase c.selected = .dataIn words f) :
    inWords words.length c =
      (words, (c.setPhase c.selected (.idle false)).setBusy c.selected f) := by
  induction words generalizing c with
  | nil => exact absurd rfl hne
  | cons w words ih =>
    have hread : c.readData = if words = [] then
        (w, (c.setPhase c.selected (.idle false)).setBusy c.selected f)
        else (w, c.setPhase c.selected (.dataIn words f)) := by
      unfold readData
      rw [hp]
    simp only [List.length_cons, inWords, hread]
    by_cases hlast : words = []
    · subst hlast
      rfl
    · rw [if_neg hlast]
      simp only
      rw [ih hlast (by simp), selected_setPhase, setPhase_setPhase]

theorem outWords_all {ws words : List UInt16} {k : Nat} {r : Response} (hne : ws ≠ [])
    (hlen : words.length + ws.length = 256)
    (hp : c.phase c.selected = .dataOut k 1 words r) :
    ws.foldl writeData c =
      ((c.setSector c.selected k (if r.stores then ofWords (words ++ ws) else r.torn)).setPhase
        c.selected (.idle !r.stores)).setBusy c.selected r.finish := by
  induction ws generalizing c words with
  | nil => exact absurd rfl hne
  | cons w ws ih =>
    rw [List.foldl_cons]
    rw [List.length_cons] at hlen
    by_cases hlast : ws = []
    · subst hlast
      simp only [List.length_nil] at hlen
      unfold writeData
      rw [hp]
      simp only
      rw [if_neg (by omega), if_neg (by omega)]
      rfl
    · have hpos := List.length_pos_of_ne_nil hlast
      have hstep : c.writeData w = c.setPhase c.selected (.dataOut k 1 (words ++ [w]) r) := by
        unfold writeData
        rw [hp]
        simp only
        rw [if_pos (by omega)]
      have hlen' : (words ++ [w]).length + ws.length = 256 := by
        rw [List.length_append, List.length_singleton]
        omega
      rw [hstep, ih hlast hlen' (phase_setPhase _), selected_setPhase, setSector_setPhase,
        setPhase_setPhase, List.append_assoc, List.singleton_append]

/-! ## One command -/

/-- Every command is answered within the polls of the wait loops. -/
structure Channel.Prompt (c : Channel) : Prop where
  delay : ∀ n, (c.responses n).delay < ataPolls
  finish : ∀ n, (c.responses n).finish < ataPolls
  identify : ∀ d, (c.identify d).length = 256

/-- No drive is busy or in a transfer. -/
structure Channel.Quiet (c : Channel) : Prop where
  idle : ∀ d, ∃ e, c.phase d = .idle e
  busy : ∀ d, c.busy d = 0

/-- The selected drive has taken a command and is in phase `p`. -/
def Channel.taken (p : Phase) (c : Channel) : Channel :=
  { c.setPhase c.selected p with accepted := c.accepted + 1 }

/-- The response to the next command. -/
def Channel.response (c : Channel) : Response := c.responses c.accepted

theorem Channel.Quiet.taken (h : c.Quiet) (e : Bool) : (c.taken (.idle e)).Quiet := by
  refine ⟨fun d => ?_, h.busy⟩
  by_cases hd : d = c.selected
  · subst hd
    exact ⟨e, Function.update_self ..⟩
  · obtain ⟨e', he'⟩ := h.idle d
    exact ⟨e', (Function.update_of_ne hd ..).trans he'⟩

theorem waitBsy_latched (hq : c.Quiet) (hl : c.Latched) : waitBsy c = (false, c) :=
  pollReady_idle (n := 99999) hl.1 (hq.busy _) hl.2

theorem waitBsy_clear (hq : c.Quiet) (hl : ¬ c.Latched) : waitBsy c = (true, c) := by
  obtain ⟨e, he⟩ := hq.idle c.selected
  cases hc : c.connected c.selected with
  | false => exact pollReady_absent (n := 99999) hc
  | true =>
    cases e with
    | true => exact absurd ⟨hc, he⟩ hl
    | false => exact pollReady_idle (n := 99999) hc (hq.busy _) he

section Command

variable {cmd : UInt8} {p : Phase}

theorem command_absent (hc : c.connected c.selected = false) : c.command cmd = c := by
  unfold command
  rw [if_neg fun h => by rw [hc] at h; exact absurd h.1 Bool.false_ne_true]

theorem command_quiet (hq : c.Quiet) (hc : c.connected c.selected = true)
    (hp : (if c.response.accepts then c.start cmd c.response else .idle true) = p) :
    c.command cmd = (c.taken p).setBusy c.selected c.response.delay := by
  obtain ⟨e, he⟩ := hq.idle c.selected
  subst hp
  unfold command
  rw [if_pos ⟨hc, hq.busy _⟩, he]
  rfl

/-- The wait for data, once the drive is no longer busy. -/
theorem waitDrq_command (hq : c.Quiet) (hpr : c.Prompt) (hc : c.connected c.selected = true)
    (hp : (if c.response.accepts then c.start cmd c.response else .idle true) = p) :
    ∃ n, waitDrq (c.command cmd) = pollDrq (n + 1) (c.taken p) := by
  have hdelay : c.response.delay < ataPolls := hpr.delay _
  obtain ⟨n, hn⟩ : ∃ n, ataPolls = (n + 1) + c.response.delay :=
    ⟨ataPolls - c.response.delay - 1, by omega⟩
  refine ⟨n, ?_⟩
  have hbusy : (c.taken p).busy c.selected = 0 := hq.busy _
  rw [command_quiet hq hc hp]
  unfold waitDrq
  rw [hn, pollDrq_busy (c := (c.taken p).setBusy c.selected c.response.delay) hc (busy_setBusy _),
    selected_setBusy]
  have hsel : (c.taken p).selected = c.selected := rfl
  rw [hsel, setBusy_setBusy, setBusy_self hbusy]

theorem waitDrq_rejected (hq : c.Quiet) (hpr : c.Prompt) (hc : c.connected c.selected = true)
    (hp : (if c.response.accepts then c.start cmd c.response else .idle true) = .idle true) :
    waitDrq (c.command cmd) = (false, c.taken (.idle true)) := by
  obtain ⟨n, hn⟩ := waitDrq_command hq hpr hc hp
  rw [hn]
  exact pollDrq_err hc (hq.busy _) (phase_setPhase _)

theorem waitDrq_transfer (hq : c.Quiet) (hpr : c.Prompt) (hc : c.connected c.selected = true)
    (hp : (if c.response.accepts then c.start cmd c.response else .idle true) = p)
    (ht : ∀ e, p ≠ .idle e) : waitDrq (c.command cmd) = (true, c.taken p) := by
  obtain ⟨n, hn⟩ := waitDrq_command hq hpr hc hp
  rw [hn]
  refine pollDrq_transfer hc (hq.busy _) fun e he => ht e ?_
  rw [← he]
  exact (phase_setPhase _).symm

/-- The wait for the end, after the last word. -/
theorem waitComplete_after {e : Bool} {f : Nat} (hq : c.Quiet)
    (hc : c.connected c.selected = true) (hf : f < ataPolls) :
    waitComplete (((c.taken p).setPhase c.selected (.idle e)).setBusy c.selected f) =
      (!e, c.taken (.idle e)) := by
  obtain ⟨n, hn⟩ : ∃ n, ataPolls = (n + 1) + f := ⟨ataPolls - f - 1, by omega⟩
  have hsame : (c.taken p).setPhase c.selected (.idle e) = c.taken (.idle e) := by
    have := setPhase_setPhase (c := c) (d := c.selected) p (.idle e)
    unfold Channel.taken
    rw [← this]
    rfl
  have hbusy : (c.taken (.idle e)).busy c.selected = 0 := hq.busy _
  unfold waitComplete
  rw [hn, hsame, pollReady_busy (c := (c.taken (.idle e)).setBusy c.selected f) hc (busy_setBusy _),
    selected_setBusy]
  have hsel : (c.taken (.idle e)).selected = c.selected := rfl
  rw [hsel, setBusy_setBusy, setBusy_self hbusy]
  exact pollReady_idle hc (hq.busy _) (phase_setPhase _)

/-- The drive sends its words and finishes. -/
theorem receive {words : List UInt16} {f : Nat} (hq : c.Quiet)
    (hc : c.connected c.selected = true) (hlen : words.length = 256) (hf : f < ataPolls) :
    ∃ c', inWords 256 (c.taken (.dataIn words f)) = (words, c') ∧
      waitComplete c' = (true, c.taken (.idle false)) := by
  have hne : words ≠ [] := fun h => by simp [h] at hlen
  have hin := inWords_all (c := c.taken (.dataIn words f)) hne (phase_setPhase _)
  rw [hlen] at hin
  exact ⟨_, hin, waitComplete_after hq hc hf⟩

/-- The drive takes a sector and finishes. -/
theorem send {k : Nat} {r : Response} (hq : c.Quiet) (hc : c.connected c.selected = true)
    (buffer : Sector) (hf : r.finish < ataPolls) :
    waitComplete ((sectorWords buffer).foldl writeData (c.taken (.dataOut k 1 [] r))) =
      (r.stores, (c.setSector c.selected k (if r.stores then buffer else r.torn)).taken
        (.idle !r.stores)) := by
  have hlen := sectorWords_length buffer
  have hne : sectorWords buffer ≠ [] := fun h => by simp [h] at hlen
  have hout := outWords_all (c := c.taken (.dataOut k 1 [] r)) hne
    (by rw [List.length_nil, Nat.zero_add]; exact hlen) (phase_setPhase _)
  rw [List.nil_append, ofWords_sectorWords] at hout
  rw [hout]
  have hdone := waitComplete_after (c := c.setSector c.selected k
    (if r.stores then buffer else r.torn)) (p := .dataOut k 1 [] r) (e := !r.stores)
    ⟨hq.idle, hq.busy⟩ hc hf
  rwa [Bool.not_not] at hdone

end Command

/-! ## One call -/

section Call

variable {lba : UInt32} {buffer : Sector}

/-- The call was rejected: by the drive, or because it has no such sector. -/
def Channel.Rejects (d : Drive) (lba : UInt32) (c : Channel) : Prop :=
  ¬ (c.response.accepts = true ∧ sectorKey lba < c.capacity d)

/-- What the drive does on a command for the sector in the registers. -/
theorem start_setLba (d : Drive) (lba : UInt32) (c : Channel) (cmd : UInt8) (r : Response)
    (hcmd : cmd ≠ 0xEC) :
    (setLba (Ata.selector d) lba c).start cmd r =
      if sectorKey lba < c.capacity d then
        if cmd = 0x20 then .dataIn (sectorWords (c.medium d (sectorKey lba))) r.finish
        else if cmd = 0x30 then .dataOut (sectorKey lba) 1 [] r
        else .idle true
      else .idle true := by
  have hmedium : (setLba (Ata.selector d) lba c).medium = c.medium := rfl
  have hcap : (setLba (Ata.selector d) lba c).capacity = c.capacity := rfl
  unfold Channel.start
  rw [if_neg hcmd, selected_setLba, lba_setLba, count_setLba, hmedium, hcap, List.range_one,
    List.flatMap_singleton, Nat.add_zero]
  rfl

/-- A command that the drive rejects leaves ERR. -/
theorem phase_rejected {cmd : UInt8} (hcmd : cmd ≠ 0xEC) (hr : c.Rejects d lba) :
    (if (setLba (Ata.selector d) lba c).response.accepts then
      (setLba (Ata.selector d) lba c).start cmd (setLba (Ata.selector d) lba c).response
      else .idle true) = .idle true := by
  rw [start_setLba d lba c cmd _ hcmd]
  by_cases ha : c.response.accepts = true
  · rw [if_neg fun hk => hr ⟨ha, hk⟩, ite_self]
  · exact if_neg ha

theorem connected_setLba (hc : c.connected d = true) :
    (setLba (Ata.selector d) lba c).connected (setLba (Ata.selector d) lba c).selected = true := by
  rw [selected_setLba]
  exact hc

variable (hq : c.Quiet) (hpr : c.Prompt)
include hq

theorem quiet_setLba : (setLba (Ata.selector d) lba c).Quiet := ⟨hq.idle, hq.busy⟩

theorem read_latched (hl : c.Latched) (select : UInt8) :
    ataReadSectorDev select lba buffer c = (false, buffer, c) := by
  unfold ataReadSectorDev
  rw [waitBsy_latched hq hl]

theorem write_latched (hl : c.Latched) (select : UInt8) :
    ataWriteSectorDev select lba buffer c = (false, c) := by
  unfold ataWriteSectorDev
  rw [waitBsy_latched hq hl]

include hpr

omit hq in
theorem prompt_setLba : (setLba (Ata.selector d) lba c).Prompt :=
  ⟨hpr.delay, hpr.finish, hpr.identify⟩

/-- A read that the drive rejects. -/
theorem read_rejected (hl : ¬ c.Latched) (hc : c.connected d = true) (hr : c.Rejects d lba) :
    ataReadSectorDev (Ata.selector d) lba buffer c =
      (false, buffer, (setLba (Ata.selector d) lba c).taken (.idle true)) := by
  unfold ataReadSectorDev
  rw [waitBsy_clear hq hl]
  simp only
  rw [waitDrq_rejected (quiet_setLba hq) (prompt_setLba hpr) (connected_setLba hc)
    (phase_rejected (by decide) hr)]

/-- A read that the drive carries out. -/
theorem read_ok (hl : ¬ c.Latched) (hc : c.connected d = true) (hr : ¬ c.Rejects d lba) :
    ataReadSectorDev (Ata.selector d) lba buffer c =
      (true, c.medium d (sectorKey lba), (setLba (Ata.selector d) lba c).taken (.idle false)) := by
  obtain ⟨ha, hk⟩ := not_not.1 hr
  have hp : (if (setLba (Ata.selector d) lba c).response.accepts then
      (setLba (Ata.selector d) lba c).start 0x20 (setLba (Ata.selector d) lba c).response
      else .idle true) = .dataIn (sectorWords (c.medium d (sectorKey lba))) c.response.finish := by
    rw [start_setLba d lba c 0x20 _ (by decide), if_pos hk]
    exact if_pos ha
  have hconn : (setLba (Ata.selector d) lba c).connected
      (setLba (Ata.selector d) lba c).selected = true := connected_setLba hc
  have hquiet : (setLba (Ata.selector d) lba c).Quiet := quiet_setLba hq
  obtain ⟨c', hin, hdone⟩ := receive hquiet hconn
    (sectorWords_length (c.medium d (sectorKey lba))) (hpr.finish c.accepted)
  unfold ataReadSectorDev
  rw [waitBsy_clear hq hl]
  simp only
  rw [waitDrq_transfer (quiet_setLba hq) (prompt_setLba hpr) hconn hp fun e he => Phase.noConfusion he]
  simp only
  have hin' : inWords 256 ((setLba (Ata.selector d) lba c).taken
      (.dataIn (sectorWords (c.medium d (sectorKey lba))) c.response.finish)) =
      (sectorWords (c.medium d (sectorKey lba)), c') := hin
  rw [hin', ofWords_sectorWords]
  simp only
  rw [hdone]

/-- A write that the drive rejects. -/
theorem write_rejected (hl : ¬ c.Latched) (hc : c.connected d = true) (hr : c.Rejects d lba) :
    ataWriteSectorDev (Ata.selector d) lba buffer c =
      (false, (setLba (Ata.selector d) lba c).taken (.idle true)) := by
  unfold ataWriteSectorDev
  rw [waitBsy_clear hq hl]
  simp only
  rw [waitDrq_rejected (quiet_setLba hq) (prompt_setLba hpr) (connected_setLba hc)
    (phase_rejected (by decide) hr)]

/-- A write that the drive takes: its result is whether the sector was stored. -/
theorem write_taken (hl : ¬ c.Latched) (hc : c.connected d = true) (hr : ¬ c.Rejects d lba) :
    ataWriteSectorDev (Ata.selector d) lba buffer c =
      (c.response.stores, ((setLba (Ata.selector d) lba c).setSector d (sectorKey lba)
        (if c.response.stores then buffer else c.response.torn)).taken
        (.idle !c.response.stores)) := by
  obtain ⟨ha, hk⟩ := not_not.1 hr
  have hp : (if (setLba (Ata.selector d) lba c).response.accepts then
      (setLba (Ata.selector d) lba c).start 0x30 (setLba (Ata.selector d) lba c).response
      else .idle true) = .dataOut (sectorKey lba) 1 [] c.response := by
    rw [start_setLba d lba c 0x30 _ (by decide), if_pos hk]
    exact if_pos ha
  have hconn : (setLba (Ata.selector d) lba c).connected
      (setLba (Ata.selector d) lba c).selected = true := connected_setLba hc
  have hquiet : (setLba (Ata.selector d) lba c).Quiet := quiet_setLba hq
  have hdone := send (k := sectorKey lba) (r := c.response)
    hquiet hconn buffer (hpr.finish c.accepted)
  rw [selected_setLba] at hdone
  unfold ataWriteSectorDev
  rw [waitBsy_clear hq hl]
  simp only
  rw [waitDrq_transfer (quiet_setLba hq) (prompt_setLba hpr) hconn hp fun e he => Phase.noConfusion he]
  simp only
  exact hdone

end Call

/-! ## Detection -/

section Identify

variable (hq : c.Quiet) (hpr : c.Prompt)

theorem selected_setTask (d : Drive) (c : Channel) :
    (setTask 0 0 0 0 (Ata.selector d) c).selected = d := by
  have h : Ata.selector d &&& 0x10 = if d = .master then 0 else 0x10 := by cases d <;> decide
  unfold selected setTask
  simp only [h]
  cases d <;> rfl

include hq

theorem identify_latched (hl : c.Latched) (select : UInt8) :
    ataIdentify select c = (false, none, c) := by
  unfold ataIdentify
  rw [waitBsy_latched hq hl]

theorem identify_absent (hl : ¬ c.Latched) (hc : c.connected d = false) :
    ataIdentify (Ata.selector d) c = (false, none, setTask 0 0 0 0 (Ata.selector d) c) := by
  have hc' : (setTask 0 0 0 0 (Ata.selector d) c).connected
      (setTask 0 0 0 0 (Ata.selector d) c).selected = false := by
    rw [selected_setTask]
    exact hc
  unfold ataIdentify
  rw [waitBsy_clear hq hl]
  simp only
  rw [command_absent hc', waitDrq_absent hc']

include hpr

theorem identify_rejected (hl : ¬ c.Latched) (hc : c.connected d = true)
    (hr : c.response.accepts = false) :
    ataIdentify (Ata.selector d) c =
      (false, none, (setTask 0 0 0 0 (Ata.selector d) c).taken (.idle true)) := by
  have hp : (if (setTask 0 0 0 0 (Ata.selector d) c).response.accepts then
      (setTask 0 0 0 0 (Ata.selector d) c).start 0xEC
        (setTask 0 0 0 0 (Ata.selector d) c).response
      else .idle true) = .idle true := if_neg (Bool.eq_false_iff.1 hr)
  have hc' : (setTask 0 0 0 0 (Ata.selector d) c).connected
      (setTask 0 0 0 0 (Ata.selector d) c).selected = true := by
    rw [selected_setTask]
    exact hc
  unfold ataIdentify
  rw [waitBsy_clear hq hl]
  simp only
  have hq' : (setTask 0 0 0 0 (Ata.selector d) c).Quiet := ⟨hq.idle, hq.busy⟩
  rw [waitDrq_rejected hq' ⟨hpr.delay, hpr.finish, hpr.identify⟩ hc' hp]

theorem identify_ok (hl : ¬ c.Latched) (hc : c.connected d = true)
    (hr : c.response.accepts = true) :
    ataIdentify (Ata.selector d) c =
      (true, some (identifySectors (c.identify d)),
        (setTask 0 0 0 0 (Ata.selector d) c).taken (.idle false)) := by
  have hp : (if (setTask 0 0 0 0 (Ata.selector d) c).response.accepts then
      (setTask 0 0 0 0 (Ata.selector d) c).start 0xEC
        (setTask 0 0 0 0 (Ata.selector d) c).response
      else .idle true) = .dataIn (c.identify d) c.response.finish := by
    have hstart : (setTask 0 0 0 0 (Ata.selector d) c).start 0xEC
        (setTask 0 0 0 0 (Ata.selector d) c).response =
        .dataIn (c.identify d) c.response.finish := by
      unfold Channel.start
      rw [if_pos rfl, selected_setTask]
      rfl
    rw [hstart]
    exact if_pos hr
  have hc' : (setTask 0 0 0 0 (Ata.selector d) c).connected
      (setTask 0 0 0 0 (Ata.selector d) c).selected = true := by
    rw [selected_setTask]
    exact hc
  have hq' : (setTask 0 0 0 0 (Ata.selector d) c).Quiet := ⟨hq.idle, hq.busy⟩
  obtain ⟨c', hin, hdone⟩ := receive hq' hc' (hpr.identify d) (hpr.finish c.accepted)
  have hin' : inWords 256 ((setTask 0 0 0 0 (Ata.selector d) c).taken
      (.dataIn (c.identify d) c.response.finish)) = (c.identify d, c') := hin
  unfold ataIdentify
  rw [waitBsy_clear hq hl]
  simp only
  rw [waitDrq_transfer hq' ⟨hpr.delay, hpr.finish, hpr.identify⟩ hc' hp
    fun e he => Phase.noConfusion he]
  simp only
  rw [hin']
  simp only
  rw [hdone]

end Identify

end HaoSys.Driver
