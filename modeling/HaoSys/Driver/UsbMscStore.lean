import HaoSys.Driver.UsbMsc

/-!
# USB mass storage as a store (`driver/usb_mass_storage.c`)

Every attempt carries a tag of its own, so a CSW that the driver takes is the
device's answer to that very attempt (`attempt_answer`), however late or stale
the others are that the buffer shows. A command whose first attempts are lost or
cut short is sent again, up to three times; a read or a write of one block may
be carried out more than once without harm. So a run of calls is a history of a
store, as long as the tags do not wrap and the device leaves out no bytes of a
command that it reports as successful: the driver does not look at the residue.
-/

namespace HaoSys.Driver

open HaoSys.Lib
open MscDevice (Answer)

/-! ## Wrappers -/

/-- The device reads the wrapper that the driver sends. -/
theorem Cbw.ofBytes_bytes {c : Cbw} (hs : c.signature = cbwSignature) (hl : c.cb.length = 16) :
    Cbw.ofBytes c.bytes = some c := by
  obtain ⟨signature, tag, len, flags, lun, cbLength, cb⟩ := c
  simp only at hs hl
  simp only [Cbw.bytes, le32Bytes, List.cons_append, List.nil_append, Cbw.ofBytes, le32_byte]
  rw [if_pos ⟨hs, hl⟩]

theorem toUInt8_shiftRight (v k : UInt32) (hk : k.toNat < 32) :
    (v >>> k).toUInt8 = UInt8.ofNat (v.toNat / 2 ^ k.toNat) := by
  apply UInt8.toNat_inj.1
  rw [UInt32.toNat_toUInt8, UInt32.toNat_shiftRight, Nat.shiftRight_eq_div_pow,
    Nat.mod_eq_of_lt hk, UInt8.toNat_ofNat']

/-- The four bytes of a block number, the highest first, make the number again. -/
theorem le32_block (lba : UInt32) :
    le32 lba.toUInt8 (lba >>> 8).toUInt8 (lba >>> 16).toUInt8 (lba >>> 24).toUInt8 = lba := by
  have h0 : lba.toUInt8 = byte lba.toNat 0 := by
    apply UInt8.toNat_inj.1
    rw [UInt32.toNat_toUInt8, byte_toNat, Nat.pow_zero, Nat.div_one]
  rw [toUInt8_shiftRight lba 8 (by decide), toUInt8_shiftRight lba 16 (by decide),
    toUInt8_shiftRight lba 24 (by decide), h0]
  exact le32_byte lba

theorem ofBlock_read (lba : UInt32) :
    Scsi.ofBlock (Msc.block10 0x28 lba ++ List.replicate (16 - (Msc.block10 0x28 lba).length) 0) =
      some (.read lba 1) := by
  have h : (le16 1 0).toNat = 1 := by decide
  simp [Msc.block10, Scsi.ofBlock, le32_block, h]

theorem ofBlock_write (lba : UInt32) :
    Scsi.ofBlock (Msc.block10 0x2A lba ++ List.replicate (16 - (Msc.block10 0x2A lba).length) 0) =
      some (.write lba 1) := by
  have h : (le16 1 0).toNat = 1 := by decide
  simp [Msc.block10, Scsi.ofBlock, le32_block, h]

namespace MscDevice

variable {d : MscDevice} {e : Ending} {out : List UInt8} {tag len : UInt32} {dir : Bool}
  {cb : List UInt8} {cmd : Scsi}

/-- What the device does on a wrapper of the driver. -/
theorem exec_wrap (hcb : cb.length ≤ 16)
    (hcmd : Scsi.ofBlock (cb ++ List.replicate (16 - cb.length) 0) = some cmd) :
    d.exec e (Msc.wrap tag len dir cb).bytes out =
      if !d.agrees (Msc.wrap tag len dir cb) cmd then (some ⟨tag, 2, none⟩, d)
      else
        match d.want cmd with
        | none => (some ⟨tag, 1, none⟩, d)
        | some want =>
          if e.status = 0 then (some ⟨tag, 0, some want⟩, d.written true e out cmd)
          else (some ⟨tag, e.status, none⟩, d.written false e out cmd) := by
  have hlen : (Msc.wrap tag len dir cb).cb.length = 16 := by
    have h : (Msc.wrap tag len dir cb).cb = cb ++ List.replicate (16 - cb.length) 0 := rfl
    rw [h, List.length_append, List.length_replicate]
    omega
  unfold exec
  rw [Cbw.ofBytes_bytes rfl hlen]
  have hblock : Scsi.ofBlock (Msc.wrap tag len dir cb).cb = some cmd := hcmd
  simp only
  rw [hblock]
  rfl

/-- Every answer carries the tag of its wrapper. -/
theorem exec_tag {a : Answer} (hcb : cb.length ≤ 16)
    (hcmd : Scsi.ofBlock (cb ++ List.replicate (16 - cb.length) 0) = some cmd)
    (h : (d.exec e (Msc.wrap tag len dir cb).bytes out).1 = some a) : a.tag = tag := by
  rw [exec_wrap hcb hcmd] at h
  split at h
  · cases h
    rfl
  · split at h
    · cases h
      rfl
    · split at h
      · cases h
        rfl
      · cases h
        rfl

/-- A command that only reads leaves the device as it is. -/
theorem exec_read_device (hcb : cb.length ≤ 16)
    (hcmd : Scsi.ofBlock (cb ++ List.replicate (16 - cb.length) 0) = some cmd)
    (hread : cmd.toHost = true) : (d.exec e (Msc.wrap tag len dir cb).bytes out).2 = d := by
  have hwritten : ∀ ok, d.written ok e out cmd = d := by
    intro ok
    cases cmd with
    | write => cases hread
    | _ => rfl
  rw [exec_wrap hcb hcmd]
  split
  · rfl
  · split
    · rfl
    · split
      · exact hwritten true
      · exact hwritten false

/-- A success comes with the data of the command. -/
theorem exec_success {a : Answer} (hcb : cb.length ≤ 16)
    (hcmd : Scsi.ofBlock (cb ++ List.replicate (16 - cb.length) 0) = some cmd)
    (h : (d.exec e (Msc.wrap tag len dir cb).bytes out).1 = some a) (ha : a.status = 0) :
    d.agrees (Msc.wrap tag len dir cb) cmd = true ∧
      (∃ want, d.want cmd = some want ∧ a.data = some want) ∧
      (d.exec e (Msc.wrap tag len dir cb).bytes out).2 = d.written true e out cmd := by
  rw [exec_wrap hcb hcmd] at h ⊢
  cases hagree : d.agrees (Msc.wrap tag len dir cb) cmd with
  | false =>
    rw [hagree] at h
    have h2 : (2 : UInt8) ≠ 0 := by decide
    cases h
    exact absurd ha h2
  | true =>
    rw [hagree] at h
    simp only [Bool.not_true, Bool.false_eq_true, if_false] at h ⊢
    cases hwant : d.want cmd with
    | none =>
      rw [hwant] at h
      have h1 : (1 : UInt8) ≠ 0 := by decide
      cases h
      exact absurd ha h1
    | some want =>
      rw [hwant] at h
      by_cases hs : e.status = 0
      · simp only [if_pos hs] at h ⊢
        cases h
        exact ⟨trivial, ⟨want, rfl, rfl⟩, trivial⟩
      · simp only [if_neg hs] at h
        cases h
        exact absurd ha hs

theorem want_read {lba : UInt32} {data : List UInt8} (h : d.want (.read lba 1) = some data) :
    data = d.medium lba := by
  have hwant : d.want (.read lba 1) =
      if lba.toNat + 1 ≤ d.lastLba.toNat + 1 then
        some ((List.range 1).flatMap fun i => d.medium (lba + UInt32.ofNat i))
      else none := rfl
  have h0 : lba + UInt32.ofNat 0 = lba := UInt32.add_zero lba
  rw [hwant] at h
  split at h
  · rw [List.range_one, List.flatMap_singleton, h0] at h
    exact (Option.some.inj h).symm
  · cases h

/-- A write of one block changes no other. -/
theorem written_others (ok : Bool) {lba l : UInt32} (hl : l ≠ lba) :
    (d.written ok e out (.write lba 1)).medium l = d.medium l := by
  have hne : ¬ (l - lba).toNat < 1 := by
    intro h
    have h0 : l - lba = 0 := UInt32.toNat_inj.1 (by
      rw [Nat.lt_one_iff.1 h]
      rfl)
    exact hl (by rw [← UInt32.sub_add_cancel l lba, h0, UInt32.zero_add])
  exact if_neg hne

theorem exec_write_others {lba l : UInt32} (hl : l ≠ lba) (hcb : cb.length ≤ 16)
    (hcmd : Scsi.ofBlock (cb ++ List.replicate (16 - cb.length) 0) = some (.write lba 1)) :
    (d.exec e (Msc.wrap tag len dir cb).bytes out).2.medium l = d.medium l := by
  rw [exec_wrap hcb hcmd]
  split
  · rfl
  · split
    · rfl
    · split
      · exact written_others true hl
      · exact written_others false hl

end MscDevice

/-! ## One attempt -/

namespace Msc

variable {s : Msc} {cb data : List UInt8} {dir : Bool} {addr len : UInt32} {cmd : Scsi} {n : Nat}

/-- Nothing that the CSW's buffer may show has a tag that is still to come, and there are `n` more
tags. -/
structure Fresh (n : Nat) (s : Msc) : Prop where
  room : s.cbwTag.toNat + n < 2 ^ 32
  old : ∀ c ∈ s.sent, c.signature = cswSignature → c.tag.toNat < s.cbwTag.toNat

theorem Fresh.le {m : Nat} (h : Fresh n s) (hm : m ≤ n) : Fresh m s :=
  ⟨by have := h.room; omega, h.old⟩

/-- The CSW that the driver takes is the device's own. -/
theorem takeCsw_own {f : Fate} {tag : UInt32} {csw : Option Csw} {sent : List Csw} {c : Csw}
    (hold : ∀ c ∈ sent, c.signature = cswSignature → c.tag ≠ tag)
    (h : takeCsw f tag csw sent = some c) : csw = some c := by
  have hc := List.find?_some h
  rw [Bool.and_eq_true, beq_iff_eq, beq_iff_eq] at hc
  obtain ⟨i, -, hi⟩ := List.mem_filterMap.1 (List.mem_of_find?_eq_some h)
  unfold look at hi
  split at hi
  · exact hi
  · exact absurd hc.2 (hold c (List.mem_of_getElem? hi) hc.1)

/-- What the device does in an attempt. -/
def answered (cb : List UInt8) (dir : Bool) (len : UInt32) (data : List UInt8) (s : Msc) :
    Option Answer × MscDevice :=
  if (s.fates s.attempts).delivered then
    s.device.exec (s.fates s.attempts).ending (wrap s.cbwTag len dir cb).bytes data
  else (none, s.device)

theorem attempt_device : (attempt cb dir addr len data s).2.2.device =
    (answered cb dir len data s).2 := rfl

theorem attempt_data : (attempt cb dir addr len data s).2.1 =
    if dir then
      match (answered cb dir len data s).1.bind Answer.data with
      | some want => arrives want data (s.fates s.attempts).ending.residue
      | none => (s.fates s.attempts).scribble
    else data := rfl

/-- The answers of the device carry the tag of the attempt. -/
theorem answered_tag {a : Answer} (hcb : cb.length ≤ 16)
    (hcmd : Scsi.ofBlock (cb ++ List.replicate (16 - cb.length) 0) = some cmd)
    (h : (answered cb dir len data s).1 = some a) : a.tag = s.cbwTag := by
  unfold answered at h
  split at h
  · exact MscDevice.exec_tag hcb hcmd h
  · cases h

theorem attempt_fresh (hf : Fresh (n + 1) s) (hcb : cb.length ≤ 16)
    (hcmd : Scsi.ofBlock (cb ++ List.replicate (16 - cb.length) 0) = some cmd) :
    Fresh n (attempt cb dir addr len data s).2.2 := by
  have hroom := hf.room
  have htag : (attempt cb dir addr len data s).2.2.cbwTag.toNat = s.cbwTag.toNat + 1 := by
    have h : (attempt cb dir addr len data s).2.2.cbwTag = s.cbwTag + 1 := rfl
    have h1 : (1 : UInt32).toNat = 1 := rfl
    rw [h, UInt32.toNat_add, h1, Nat.mod_eq_of_lt (by omega)]
  have hsent : (attempt cb dir addr len data s).2.2.sent =
      ((answered cb dir len data s).1.map fun a =>
        (⟨cswSignature, a.tag, (s.fates s.attempts).ending.residue, a.status⟩ : Csw)).toList ++
        s.sent := rfl
  refine ⟨by omega, fun c hc hsig => ?_⟩
  rw [hsent, List.mem_append, Option.mem_toList, Option.map_eq_some_iff] at hc
  rw [htag]
  rcases hc with ⟨a, ha, rfl⟩ | hc
  · have := answered_tag hcb hcmd ha
    simp only [this]
    omega
  · have := hf.old c hc hsig
    omega

/-- **A status that the driver takes is the device's answer to this attempt.** -/
theorem attempt_answer {status : UInt8} (hf : Fresh (n + 1) s)
    (h : (attempt cb dir addr len data s).1 = some status) :
    ∃ a, (answered cb dir len data s).1 = some a ∧ a.status = status := by
  have htaken : (attempt cb dir addr len data s).1 =
      (if (s.uhci.usbBulkBot s.addr s.epOut s.epIn s.cbwAddr 31 addr len dir s.cswAddr 13
          (s.fates s.attempts).hw).1 then
        takeCsw (s.fates s.attempts) s.cbwTag ((answered cb dir len data s).1.map fun a =>
          (⟨cswSignature, a.tag, (s.fates s.attempts).ending.residue, a.status⟩ : Csw)) s.sent
        else none).map Csw.status := rfl
  rw [htaken] at h
  obtain ⟨c, hc, rfl⟩ := Option.map_eq_some_iff.1 h
  split at hc
  · have hown := takeCsw_own (fun c hc hsig heq => by
      have := hf.old c hc hsig
      rw [heq] at this
      exact absurd this (Nat.lt_irrefl _)) hc
    obtain ⟨a, ha, rfl⟩ := Option.map_eq_some_iff.1 hown
    exact ⟨a, ha, rfl⟩
  · cases hc

/-! ## The attempts of a command -/

variable (cb dir addr len) in
/-- What every attempt keeps and no reset touches is kept by the loop; a result of 0 comes from an
attempt that ended with status 0. -/
theorem tries_inv {I : Nat → List UInt8 → Msc → Prop} {Q : List UInt8 → Msc → Prop}
    (hstep : ∀ m data s, I (m + 1) data s →
      I m (attempt cb dir addr len data s).2.1 (attempt cb dir addr len data s).2.2 ∧
        ((attempt cb dir addr len data s).1 = some 0 →
          Q (attempt cb dir addr len data s).2.1 (attempt cb dir addr len data s).2.2))
    (hreset : ∀ m data s f, I m data s → I m data (botReset f s)) :
    ∀ (k m : Nat) (data : List UInt8) (s : Msc), I (m + k) data s →
      (∃ j, m ≤ j ∧ I j (tries cb dir addr len k data s).2.1 (tries cb dir addr len k data s).2.2) ∧
        ((tries cb dir addr len k data s).1 = true →
          Q (tries cb dir addr len k data s).2.1 (tries cb dir addr len k data s).2.2) := by
  intro k
  induction k with
  | zero => exact fun m data s h => ⟨⟨m, Nat.le_refl m, h⟩, fun hfalse => by cases hfalse⟩
  | succ k ih =>
    intro m data s h
    obtain ⟨hnext, hdone⟩ := hstep (m + k) data s h
    unfold tries
    generalize hr : attempt cb dir addr len data s = r at hnext hdone ⊢
    obtain ⟨status, data', t⟩ := r
    cases status with
    | some status =>
      refine ⟨⟨m + k, by omega, hnext⟩, fun hok => hdone ?_⟩
      rw [of_decide_eq_true hok]
    | none => exact ih m data' _ (hreset _ _ _ _ hnext)

/-- A command reported as successful has moved all its bytes. -/
def Whole (s : Msc) : Prop := ∀ k, (s.fates k).ending.residue = 0

/-! ## Commands -/

/-- The run from `s` to `t` has kept the variables that no command changes. -/
structure Same (s t : Msc) : Prop where
  fates : t.fates = s.fates
  sectorSize : t.sectorSize = s.sectorSize

theorem botCommand_eq (hp : s.present = true) :
    botCommand cb dir addr len data s = tries cb dir addr len 3 data s := by
  unfold botCommand
  rw [hp]
  rfl

theorem agrees_moves {d : MscDevice} {tag : UInt32}
    (h : d.agrees (wrap tag len dir cb) cmd = true) : d.moves cmd = len.toNat := by
  unfold MscDevice.agrees at h
  rw [decide_eq_true_eq] at h
  exact h.1.symm

section Command

variable (hcb : cb.length ≤ 16)
  (hcmd : Scsi.ofBlock (cb ++ List.replicate (16 - cb.length) 0) = some cmd)
include hcb hcmd

/-- The answer with status 0: the command was carried out. -/
theorem answered_success {a : Answer} (ha : (answered cb dir len data s).1 = some a)
    (hstatus : a.status = 0) :
    s.device.moves cmd = len.toNat ∧ (∃ want, s.device.want cmd = some want ∧ a.data = some want) ∧
      (answered cb dir len data s).2 =
        s.device.written true (s.fates s.attempts).ending data cmd := by
  unfold answered at ha ⊢
  split at ha
  · next hdelivered =>
    obtain ⟨hagree, hdata, hdev⟩ := MscDevice.exec_success hcb hcmd ha hstatus
    rw [if_pos hdelivered]
    exact ⟨agrees_moves hagree, hdata, hdev⟩
  · cases ha

variable (data addr len) in
theorem attempt_read (hf : Fresh (n + 1) s) (hw : s.Whole) (hread : cmd.toHost = true) :
    (attempt cb true addr len data s).2.2.device = s.device ∧
      ((attempt cb true addr len data s).1 = some 0 → s.device.moves cmd = len.toNat ∧
        s.device.want cmd = some (attempt cb true addr len data s).2.1) := by
  have hdevice : (answered cb true len data s).2 = s.device := by
    unfold answered
    split
    · exact MscDevice.exec_read_device hcb hcmd hread
    · rfl
  refine ⟨hdevice, fun hok => ?_⟩
  obtain ⟨a, ha, hstatus⟩ := attempt_answer hf hok
  obtain ⟨hmoves, ⟨want, hwant, hdata⟩, -⟩ := answered_success hcb hcmd ha hstatus
  have hall : arrives want data (s.fates s.attempts).ending.residue = want := if_pos (hw _)
  rw [attempt_data, ha, if_pos rfl, Option.bind_some, hdata, hwant]
  exact ⟨hmoves, congrArg some hall.symm⟩

variable (data addr len) in
/-- A command that only reads: the device stays as it is, and a result of 0 comes with the data. -/
theorem botCommand_read (hp : s.present = true) (hf : Fresh (n + 3) s) (hw : s.Whole)
    (hread : cmd.toHost = true) :
    Fresh n (botCommand cb true addr len data s).2.2 ∧
      Same s (botCommand cb true addr len data s).2.2 ∧
      (botCommand cb true addr len data s).2.2.device = s.device ∧
      ((botCommand cb true addr len data s).1 = true → s.device.moves cmd = len.toNat ∧
        s.device.want cmd = some (botCommand cb true addr len data s).2.1) := by
  have hinv := tries_inv cb true addr len
    (I := fun m _ t => Fresh m t ∧ Same s t ∧ t.device = s.device)
    (Q := fun data _ => s.device.moves cmd = len.toNat ∧ s.device.want cmd = some data)
    (fun m data t h => by
      obtain ⟨hft, hsame, hdev⟩ := h
      have hwt : t.Whole := fun k => hsame.fates ▸ hw k
      obtain ⟨hdevice, hdone⟩ := attempt_read data addr len hcb hcmd hft hwt hread
      rw [hdev] at hdevice hdone
      exact ⟨⟨attempt_fresh hft hcb hcmd, ⟨hsame.fates, hsame.sectorSize⟩, hdevice⟩, hdone⟩)
    (fun m data t f h => ⟨⟨h.1.room, h.1.old⟩, ⟨h.2.1.fates, h.2.1.sectorSize⟩, h.2.2⟩)
    3 n data s ⟨hf, ⟨rfl, rfl⟩, rfl⟩
  rw [botCommand_eq hp]
  obtain ⟨⟨j, hj, hft, hsame, hdev⟩, hdone⟩ := hinv
  exact ⟨hft.le hj, hsame, hdev, hdone⟩

end Command

variable (addr) in
/-- A write of one block: no other block changes, and a result of 0 stores the data. -/
theorem attempt_write (lba : UInt32) (hf : Fresh (n + 1) s) (hw : s.Whole)
    (hlen : data.length = len.toNat) :
    (∀ l, l ≠ lba →
      (attempt (block10 0x2A lba) false addr len data s).2.2.device.medium l =
        s.device.medium l) ∧
      ((attempt (block10 0x2A lba) false addr len data s).1 = some 0 →
        (attempt (block10 0x2A lba) false addr len data s).2.2.device.medium lba = data) := by
  have hcb : (block10 0x2A lba).length ≤ 16 := by
    have : (block10 0x2A lba).length = 10 := rfl
    omega
  have hcmd := ofBlock_write lba
  rw [attempt_device]
  refine ⟨fun l hl => ?_, fun hok => ?_⟩
  · unfold answered
    split
    · exact MscDevice.exec_write_others hl hcb hcmd
    · rfl
  · obtain ⟨a, ha, hstatus⟩ := attempt_answer hf hok
    obtain ⟨hmoves, -, hdev⟩ := answered_success hcb hcmd ha hstatus
    have hsize : s.device.blockSize.toNat * 1 = len.toNat := hmoves
    have hstored : (s.device.written true (s.fates s.attempts).ending data (.write lba 1)).medium lba =
        arrives ((data.drop (0 * s.device.blockSize.toNat)).take s.device.blockSize.toNat)
          (s.device.medium (lba + UInt32.ofNat 0)) (s.fates s.attempts).ending.residue := by
      have hself : lba - lba = 0 := UInt32.sub_self lba
      have h0 : (0 : UInt32).toNat = 0 := rfl
      unfold MscDevice.written MscDevice.store
      simp only [hself, h0]
      rfl
    have hall : arrives data (s.device.medium (lba + UInt32.ofNat 0))
        (s.fates s.attempts).ending.residue = data := if_pos (hw _)
    rw [hdev, hstored, Nat.zero_mul, List.drop_zero, List.take_of_length_le (by omega), hall]

variable (addr) in
theorem botCommand_write (lba : UInt32) (hp : s.present = true) (hf : Fresh (n + 3) s)
    (hw : s.Whole) (hlen : data.length = len.toNat) :
    Fresh n (botCommand (block10 0x2A lba) false addr len data s).2.2 ∧
      Same s (botCommand (block10 0x2A lba) false addr len data s).2.2 ∧
      (∀ l, l ≠ lba → (botCommand (block10 0x2A lba) false addr len data s).2.2.device.medium l =
        s.device.medium l) ∧
      ((botCommand (block10 0x2A lba) false addr len data s).1 = true →
        (botCommand (block10 0x2A lba) false addr len data s).2.2.device.medium lba = data) := by
  have hcb : (block10 0x2A lba).length ≤ 16 := by
    have : (block10 0x2A lba).length = 10 := rfl
    omega
  have hinv := tries_inv (block10 0x2A lba) false addr len
    (I := fun m data' t => Fresh m t ∧ Same s t ∧ data' = data ∧
      ∀ l, l ≠ lba → t.device.medium l = s.device.medium l)
    (Q := fun _ t => t.device.medium lba = data)
    (fun m data' t h => by
      obtain ⟨hft, hsame, rfl, hothers⟩ := h
      have hwt : t.Whole := fun k => hsame.fates ▸ hw k
      obtain ⟨hkept, hdone⟩ := attempt_write addr lba hft hwt hlen
      exact ⟨⟨attempt_fresh hft hcb (ofBlock_write lba), ⟨hsame.fates, hsame.sectorSize⟩, rfl,
        fun l hl => (hkept l hl).trans (hothers l hl)⟩, hdone⟩)
    (fun m data t f h =>
      ⟨⟨h.1.room, h.1.old⟩, ⟨h.2.1.fates, h.2.1.sectorSize⟩, h.2.2.1, h.2.2.2⟩)
    3 n data s ⟨hf, ⟨rfl, rfl⟩, rfl, fun _ _ => rfl⟩
  rw [botCommand_eq hp]
  obtain ⟨⟨j, hj, hft, hsame, -, hothers⟩, hdone⟩ := hinv
  exact ⟨hft.le hj, hsame, hothers, hdone⟩

end Msc

/-! ## Runs -/

/-- A call of the driver; `mem` gives the bytes at the buffer. -/
inductive MscCall where
  | read (lba buf : UInt32) (mem : Nat → UInt8)
  | write (lba buf : UInt32) (mem : Nat → UInt8)

/-- The first `size` bytes of a buffer. -/
def bytesAt (mem : Nat → UInt8) (size : UInt32) : List UInt8 := (List.range size.toNat).map mem

namespace MscCall

/-- What the call means to a store of blocks of `size` bytes. -/
def request (size : UInt32) : MscCall → Request UInt32 (List UInt8)
  | read lba _ _ => .read lba
  | write lba _ mem => .write lba (bytesAt mem size)

def run (s : Msc) : MscCall → Reply (List UInt8) × Msc
  | read lba buf mem =>
    match s.usbMscReadSector lba buf (bytesAt mem s.sectorSize) with
    | (true, data, s) => (.got data, s)
    | (false, _, s) => (.failed, s)
  | write lba buf mem =>
    match s.usbMscWriteSector lba buf (bytesAt mem s.sectorSize) with
    | (true, s) => (.done, s)
    | (false, s) => (.failed, s)

end MscCall

namespace Msc

variable {s : Msc} {n : Nat}

/-- Between calls: tags for `n` more calls, and blocks of `size` bytes. -/
structure Sound (size : UInt32) (n : Nat) (s : Msc) : Prop where
  fresh : Fresh (3 * n) s
  whole : s.Whole
  sectorSize : s.sectorSize = size

theorem Sound.next {size : UInt32} {t : Msc} (h : Sound size (n + 1) s) (hf : Fresh (3 * n) t)
    (hsame : Same s t) : Sound size n t :=
  ⟨hf, fun k => hsame.fates ▸ h.whole k, hsame.sectorSize.trans h.sectorSize⟩

theorem run_read {size : UInt32} (h : Sound size (n + 1) s) (lba buf : UInt32)
    (mem : Nat → UInt8) :
    Sound size n ((MscCall.read lba buf mem).run s).2 ∧
      Serves s.device.medium ((MscCall.read lba buf mem).request size)
        ((MscCall.read lba buf mem).run s).1 ((MscCall.read lba buf mem).run s).2.device.medium := by
  have hcb : (block10 0x28 lba).length ≤ 16 := by
    have : (block10 0x28 lba).length = 10 := rfl
    omega
  unfold MscCall.run usbMscReadSector
  cases hp : s.present with
  | false => exact ⟨h.next (h.fresh.le (by omega)) ⟨rfl, rfl⟩, .readFailed lba⟩
  | true =>
    obtain ⟨hf, hsame, hdev, hdone⟩ := botCommand_read (n := 3 * n)
      (bytesAt mem s.sectorSize) buf s.sectorSize hcb (ofBlock_read lba) hp h.fresh h.whole rfl
    simp only [Bool.not_true, Bool.false_eq_true, if_false]
    generalize botCommand (block10 0x28 lba) true buf s.sectorSize (bytesAt mem s.sectorSize) s = r
      at hf hsame hdev hdone ⊢
    obtain ⟨ok, data, t⟩ := r
    cases ok with
    | false =>
      refine ⟨h.next hf hsame, ?_⟩
      rw [hdev]
      exact .readFailed lba
    | true =>
      obtain ⟨-, hwant⟩ := hdone rfl
      have hdata : data = s.device.medium lba := MscDevice.want_read hwant
      refine ⟨h.next hf hsame, ?_⟩
      simp only
      rw [hdev, hdata]
      exact .read lba

theorem run_write {size : UInt32} (h : Sound size (n + 1) s) (lba buf : UInt32)
    (mem : Nat → UInt8) :
    Sound size n ((MscCall.write lba buf mem).run s).2 ∧
      Serves s.device.medium ((MscCall.write lba buf mem).request size)
        ((MscCall.write lba buf mem).run s).1
        ((MscCall.write lba buf mem).run s).2.device.medium := by
  unfold MscCall.run usbMscWriteSector
  cases hp : s.present with
  | false => exact ⟨h.next (h.fresh.le (by omega)) ⟨rfl, rfl⟩, .writeFailed fun _ _ => rfl⟩
  | true =>
    have hlen : (bytesAt mem s.sectorSize).length = s.sectorSize.toNat := by
      unfold bytesAt
      rw [List.length_map, List.length_range]
    obtain ⟨hf, hsame, hothers, hdone⟩ := botCommand_write (n := 3 * n) buf lba hp h.fresh
      h.whole hlen
    simp only [Bool.not_true, Bool.false_eq_true, if_false]
    generalize botCommand (block10 0x2A lba) false buf s.sectorSize (bytesAt mem s.sectorSize) s = r
      at hf hsame hothers hdone ⊢
    obtain ⟨ok, data, t⟩ := r
    cases ok with
    | false => exact ⟨h.next hf hsame, .writeFailed hothers⟩
    | true =>
      have hsize : bytesAt mem s.sectorSize = bytesAt mem size := by rw [h.sectorSize]
      exact ⟨h.next hf hsame, .write ((hdone rfl).trans hsize) hothers⟩

/-- A run of calls is a history. -/
theorem run_history (calls : List MscCall) (hf : Fresh (3 * calls.length) s) (hw : s.Whole) :
    History Serves s.device.medium
      ((calls.map (MscCall.request s.sectorSize)).zip
        (answerAll (fun q s => MscCall.run s q) calls s).1)
      (answerAll (fun q s => MscCall.run s q) calls s).2.device.medium := by
  refine History.of_step (v := fun s : Msc => s.device.medium)
    (I := Sound s.sectorSize) (fun n q t h => ?_) (fun n q t h => ?_) calls ⟨hf, hw, rfl⟩
  · cases q with
    | read lba buf mem => exact (run_read h lba buf mem).1
    | write lba buf mem => exact (run_write h lba buf mem).1
  · cases q with
    | read lba buf mem => exact (run_read h lba buf mem).2
    | write lba buf mem => exact (run_write h lba buf mem).2

/-- **Every run is a history** of a store of blocks: with tags for three attempts a call, and a
device that never leaves bytes out of a successful command, a read returns what the last write of
its block left, whatever attempts were lost, repeated, cut short or answered late. -/
theorem usb_msc_run_history (calls : List MscCall) (hf : Fresh (3 * calls.length) s)
    (hw : s.Whole) :
    History Serves s.device.medium
        ((calls.map (MscCall.request s.sectorSize)).zip
          (answerAll (fun q s => MscCall.run s q) calls s).1)
        (answerAll (fun q s => MscCall.run s q) calls s).2.device.medium ∧
      ReadsBack ((calls.map (MscCall.request s.sectorSize)).zip
        (answerAll (fun q s => MscCall.run s q) calls s).1) :=
  ⟨run_history calls hf hw, (run_history calls hf hw).readsBack⟩

/-- A stick of eight blocks that loses the first CBW and is late with every CSW. -/
def lossyStick : Msc where
  present := true
  addr := 2
  epIn := 1
  epOut := 2
  sectorCount := 8
  sectorSize := 512
  cbwTag := 1
  cbwAddr := 0x9000
  cswAddr := 0x9100
  uhci := Uhci.boot default default
  device := ⟨512, 7, fun _ => List.replicate 512 0, []⟩
  sent := []
  fates := fun n => ⟨⟨fun _ => 0, fun _ => 0, true⟩, fun _ => ⟨fun _ => 0, fun _ => 0, true⟩,
    n ≠ 0, ⟨0, 0, []⟩, some 150, fun i => i, []⟩
  attempts := 0

/-- A block is written and read. -/
def lossyCalls : List MscCall := [.write 3 0x8000 (fun _ => 7), .read 3 0x8000 (fun _ => 0)]

theorem usb_msc_run_history_lossy :
    History Serves (fun _ => List.replicate 512 0)
        ((lossyCalls.map (MscCall.request 512)).zip
          (answerAll (fun q s => MscCall.run s q) lossyCalls lossyStick).1)
        (answerAll (fun q s => MscCall.run s q) lossyCalls lossyStick).2.device.medium ∧
      ReadsBack ((lossyCalls.map (MscCall.request 512)).zip
        (answerAll (fun q s => MscCall.run s q) lossyCalls lossyStick).1) :=
  usb_msc_run_history (s := lossyStick) _
    ⟨by decide, fun c hc => absurd hc List.not_mem_nil⟩ fun _ => rfl

/-! ## The size of a block -/

/-- The driver has another size of a block than the device: the command has no effect. -/
theorem botCommand_disagrees {cb : List UInt8} (data : List UInt8) (dir : Bool) (addr : UInt32)
    {len : UInt32} {cmd : Scsi}
    (hp : s.present = true) (hf : Fresh (n + 3) s) (hcb : cb.length ≤ 16)
    (hcmd : Scsi.ofBlock (cb ++ List.replicate (16 - cb.length) 0) = some cmd)
    (hlen : s.device.moves cmd ≠ len.toNat) :
    Fresh n (botCommand cb dir addr len data s).2.2 ∧
      Same s (botCommand cb dir addr len data s).2.2 ∧
      (botCommand cb dir addr len data s).2.2.device = s.device ∧
      (botCommand cb dir addr len data s).1 = false := by
  have hinv := tries_inv cb dir addr len
    (I := fun m _ t => Fresh m t ∧ Same s t ∧ t.device = s.device) (Q := fun _ _ => False)
    (fun m data t h => by
      obtain ⟨hft, hsame, hdev⟩ := h
      have hdevice : (answered cb dir len data t).2 = s.device := by
        unfold answered
        split
        · rw [hdev, MscDevice.exec_wrap hcb hcmd, if_pos]
          rw [Bool.not_eq_true']
          exact Bool.eq_false_iff.2 fun h => hlen (agrees_moves h)
        · exact hdev
      refine ⟨⟨attempt_fresh hft hcb hcmd, ⟨hsame.fates, hsame.sectorSize⟩, hdevice⟩, fun hok => ?_⟩
      obtain ⟨a, ha, hstatus⟩ := attempt_answer hft hok
      have hmoves := (answered_success hcb hcmd ha hstatus).1
      rw [hdev] at hmoves
      exact hlen hmoves)
    (fun m data t f h => ⟨⟨h.1.room, h.1.old⟩, ⟨h.2.1.fates, h.2.1.sectorSize⟩, h.2.2⟩)
    3 n data s ⟨hf, ⟨rfl, rfl⟩, rfl⟩
  rw [botCommand_eq hp]
  obtain ⟨⟨j, hj, hft, hsame, hdev⟩, hdone⟩ := hinv
  exact ⟨hft.le hj, hsame, hdev, Bool.eq_false_iff.2 hdone⟩

theorem run_disagrees (hf : Fresh (3 * (n + 1)) s) (hsize : s.sectorSize ≠ s.device.blockSize)
    (q : MscCall) :
    (q.run s).1 = .failed ∧ Fresh (3 * n) (q.run s).2 ∧ Same s (q.run s).2 ∧
      (q.run s).2.device = s.device := by
  have hne : s.device.blockSize.toNat * 1 ≠ s.sectorSize.toNat := by
    rw [Nat.mul_one]
    exact fun h => hsize (UInt32.toNat_inj.1 h.symm)
  cases hp : s.present with
  | false =>
    cases q with
    | read lba buf mem =>
      simp only [MscCall.run, usbMscReadSector, hp, Bool.not_false, if_true]
      exact ⟨trivial, hf.le (by omega), ⟨rfl, rfl⟩, trivial⟩
    | write lba buf mem =>
      simp only [MscCall.run, usbMscWriteSector, hp, Bool.not_false, if_true]
      exact ⟨trivial, hf.le (by omega), ⟨rfl, rfl⟩, trivial⟩
  | true =>
    cases q with
    | read lba buf mem =>
      have hcb : (block10 0x28 lba).length ≤ 16 := by
        have : (block10 0x28 lba).length = 10 := rfl
        omega
      obtain ⟨hft, hsame, hdev, hfail⟩ := botCommand_disagrees (n := 3 * n)
        (bytesAt mem s.sectorSize) true buf hp hf hcb (ofBlock_read lba) hne
      simp only [MscCall.run, usbMscReadSector, hp, Bool.not_true, Bool.false_eq_true, if_false]
      generalize botCommand (block10 0x28 lba) true buf s.sectorSize (bytesAt mem s.sectorSize) s = r
        at hft hsame hdev hfail ⊢
      obtain ⟨ok, data, t⟩ := r
      cases ok with
      | false => exact ⟨rfl, hft, hsame, hdev⟩
      | true => cases hfail
    | write lba buf mem =>
      have hcb : (block10 0x2A lba).length ≤ 16 := by
        have : (block10 0x2A lba).length = 10 := rfl
        omega
      obtain ⟨hft, hsame, hdev, hfail⟩ := botCommand_disagrees (n := 3 * n)
        (bytesAt mem s.sectorSize) false buf hp hf hcb (ofBlock_write lba) hne
      simp only [MscCall.run, usbMscWriteSector, hp, Bool.not_true, Bool.false_eq_true, if_false]
      generalize botCommand (block10 0x2A lba) false buf s.sectorSize (bytesAt mem s.sectorSize) s = r
        at hft hsame hdev hfail ⊢
      obtain ⟨ok, data, t⟩ := r
      cases ok with
      | false => exact ⟨rfl, hft, hsame, hdev⟩
      | true => cases hfail

theorem answers_disagree (calls : List MscCall) (hf : Fresh (3 * calls.length) s)
    (hsize : s.sectorSize ≠ s.device.blockSize) :
    (answerAll (fun q s => MscCall.run s q) calls s).1 = List.replicate calls.length .failed ∧
      (answerAll (fun q s => MscCall.run s q) calls s).2.device = s.device := by
  induction calls generalizing s with
  | nil => exact ⟨rfl, rfl⟩
  | cons q qs ih =>
    obtain ⟨hreply, hft, hsame, hdev⟩ := run_disagrees (n := qs.length) hf hsize q
    obtain ⟨hreplies, hdev'⟩ := ih hft (by rw [hsame.sectorSize, hdev]; exact hsize)
    simp only [answerAll, List.length_cons, List.replicate_succ]
    exact ⟨by rw [hreply, hreplies], hdev'.trans hdev⟩

/-- What the driver takes from the answer to READ CAPACITY. -/
theorem readCapacity_spec (addr : UInt32) (hp : s.present = true) (hf : Fresh (n + 3) s)
    (hw : s.Whole) :
    Fresh n (s.readCapacity addr).2 ∧ (s.readCapacity addr).2.Whole ∧
      (s.readCapacity addr).2.device = s.device ∧
      ((s.readCapacity addr).1 = true →
        (s.readCapacity addr).2.sectorSize = s.device.blockSize ∧
          (s.readCapacity addr).2.sectorCount = s.device.lastLba + 1) := by
  have hcmd : Scsi.ofBlock ([0x25, 0, 0, 0, 0, 0, 0, 0, 0, 0] ++
      List.replicate (16 - ([0x25, 0, 0, 0, 0, 0, 0, 0, 0, 0] : List UInt8).length) 0) =
      some .readCapacity := by decide
  obtain ⟨hft, hsame, hdev, hdone⟩ := botCommand_read (n := n) (List.replicate 8 0)
    addr 8 (by decide) hcmd hp hf hw rfl
  unfold readCapacity
  generalize botCommand [0x25, 0, 0, 0, 0, 0, 0, 0, 0, 0] true addr 8 (List.replicate 8 0) s = r
    at hft hsame hdev hdone ⊢
  obtain ⟨ok, data, t⟩ := r
  have hwhole : t.Whole := fun k => hsame.fates ▸ hw k
  cases ok with
  | false => exact ⟨hft, hwhole, hdev, fun h => by cases h⟩
  | true =>
    obtain ⟨-, hwant⟩ := hdone rfl
    have hdata : data =
        (le32Bytes s.device.lastLba).reverse ++ (le32Bytes s.device.blockSize).reverse :=
      (Option.some.inj hwant).symm
    have hlast := le32_byte s.device.lastLba
    have hblock := le32_byte s.device.blockSize
    refine ⟨⟨hft.room, hft.old⟩, hwhole, hdev, fun _ => ?_⟩
    subst hdata
    exact ⟨hblock, congrArg (· + 1) hlast⟩

/-- **The size of a block**: READ CAPACITY makes the sizes of the driver and the device agree, and
the calls after it are a history of blocks of that size. Where the sizes differ, as after a READ
CAPACITY that failed, no call succeeds and the device, which compares the length in the wrapper with
its own, never changes. -/
theorem usb_msc_block_size (addr : UInt32) (calls : List MscCall) (hp : s.present = true)
    (hf : Fresh (3 * calls.length + 3) s) (hw : s.Whole) :
    ((s.readCapacity addr).1 = true →
      (s.readCapacity addr).2.sectorSize = s.device.blockSize ∧
        (s.readCapacity addr).2.sectorCount = s.device.lastLba + 1 ∧
        History Serves s.device.medium
          ((calls.map (MscCall.request s.device.blockSize)).zip
            (answerAll (fun q s => MscCall.run s q) calls (s.readCapacity addr).2).1)
          (answerAll (fun q s => MscCall.run s q) calls
            (s.readCapacity addr).2).2.device.medium) ∧
    ((s.readCapacity addr).2.sectorSize ≠ s.device.blockSize →
      (answerAll (fun q s => MscCall.run s q) calls (s.readCapacity addr).2).1 =
        List.replicate calls.length .failed ∧
      (answerAll (fun q s => MscCall.run s q) calls (s.readCapacity addr).2).2.device =
        s.device) := by
  obtain ⟨hft, hwt, hdev, hdone⟩ := readCapacity_spec addr hp hf hw
  refine ⟨fun hok => ?_, fun hsize => ?_⟩
  · obtain ⟨hsize, hcount⟩ := hdone hok
    have hhistory := run_history calls hft hwt
    rw [hsize, hdev] at hhistory
    exact ⟨hsize, hcount, hhistory⟩
  · rw [← hdev] at hsize
    obtain ⟨hreplies, hdev'⟩ := answers_disagree calls hft hsize
    exact ⟨hreplies, hdev'.trans hdev⟩

theorem usb_msc_block_size_lossy :
    (lossyStick.readCapacity 0x8000).2.sectorSize = 512 ∧
      (lossyStick.readCapacity 0x8000).2.sectorCount = 8 ∧
      History Serves (fun _ => List.replicate 512 0)
        ((lossyCalls.map (MscCall.request 512)).zip
          (answerAll (fun q s => MscCall.run s q) lossyCalls (lossyStick.readCapacity 0x8000).2).1)
        (answerAll (fun q s => MscCall.run s q) lossyCalls
          (lossyStick.readCapacity 0x8000).2).2.device.medium :=
  (usb_msc_block_size (s := lossyStick) 0x8000 lossyCalls rfl
    ⟨by decide, fun c hc => absurd hc List.not_mem_nil⟩ fun _ => rfl).1 rfl

end Msc

end HaoSys.Driver
