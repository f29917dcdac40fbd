import HaoSys.Syscall.Credentials

/-!
# What `sys_write` reads (`syscall/syscall.c`)

The scan for the NUL tests the next page where its index is a multiple of
4096, and the index ends below 4096: the page behind the first one is never
tested. `sysWriteReads` are the addresses that a call reads, in their order,
with the value of `eax`.
-/

namespace HaoSys.Syscall

open HaoSys.Lib HaoSys.Mm HaoSys.Fs HaoSys.Driver

namespace System

/-- The scan from index `i` on, over `n` bytes at most: the addresses it reads, and whether it has
met the NUL. -/
def writeScan (s : System) (str : UInt32) : Nat → UInt32 → List UInt32 × Bool
  | 0, _ => ([], false)
  | n + 1, i =>
    if (i > 0 ∧ i &&& 0xFFF = 0) ∧ !s.kernel.accessible (str + i) then ([], false)
    else if s.user (str + i) = 0 then ([str + i], true)
    else
      let (reads, terminated) := s.writeScan str n (i + 1)
      ((str + i) :: reads, terminated)

/-- The bytes that `vga_write` reads of a string at `a`, `n` at most. -/
def vgaWriteReads (s : System) : Nat → UInt32 → List UInt32
  | 0, _ => []
  | n + 1, a => if s.user a = 0 then [a] else a :: s.vgaWriteReads n (a + 1)

/-- The addresses that `sys_write` reads, and what it returns. -/
def sysWriteReads (s : System) (str : UInt32) : List UInt32 × UInt32 :=
  if str = 0 then ([], sysError)
  else if !s.kernel.accessible str then ([], sysError)
  else
    let (reads, terminated) := s.writeScan str 4096 0
    if !terminated then (reads, sysError) else (reads ++ s.vgaWriteReads (2 ^ 32) str, 0)

variable {s : System} {str a : UInt32} {i n : Nat}

/-! ## Pages -/

/-- Addresses of one page are accessible alike. -/
theorem accessible_same_page {v : Vmm} {k : Nat} (h : a.toNat % 4096 + k < 4096) :
    v.vmmIsUserAccessible (a + UInt32.ofNat k) = v.vmmIsUserAccessible a := by
  have ha := a.toNat_lt
  have hadd : (a + UInt32.ofNat k).toNat = a.toNat + k := by
    rw [UInt32.toNat_add, UInt32.toNat_ofNat']
    omega
  have hpd : pdIndex (a + UInt32.ofNat k) = pdIndex a := by
    apply UInt32.toNat_inj.1
    unfold pdIndex
    rw [UInt32.toNat_shiftRight, UInt32.toNat_shiftRight, hadd, Nat.shiftRight_eq_div_pow,
      Nat.shiftRight_eq_div_pow, show UInt32.toNat 22 % 32 = 22 from rfl]
    omega
  have hpt : ptIndex (a + UInt32.ofNat k) = ptIndex a := by
    have hshift : (a + UInt32.ofNat k) >>> 12 = a >>> 12 := by
      apply UInt32.toNat_inj.1
      rw [UInt32.toNat_shiftRight, UInt32.toNat_shiftRight, hadd, Nat.shiftRight_eq_div_pow,
        Nat.shiftRight_eq_div_pow, show UInt32.toNat 12 % 32 = 12 from rfl]
      omega
    unfold ptIndex
    rw [hshift]
  unfold Vmm.vmmIsUserAccessible
  rw [hpd, hpt]

/-- The index never gets to a page boundary. -/
theorem index_not_boundary (hi : i < 4096) :
    ¬ (UInt32.ofNat i > 0 ∧ UInt32.ofNat i &&& 0xFFF = 0) := by
  rintro ⟨hpos, hz⟩
  have hpos := UInt32.lt_iff_toNat_lt.1 hpos
  have hz := congrArg UInt32.toNat hz
  rw [UInt32.toNat_and, UInt32.toNat_ofNat', show UInt32.toNat 0xFFF = 2 ^ 12 - 1 from rfl,
    Nat.and_two_pow_sub_one_eq_mod, UInt32.toNat_zero] at hz
  rw [UInt32.toNat_ofNat', UInt32.toNat_zero] at hpos
  omega

/-! ## The addresses -/

/-- Byte `j` of the string is read by a walk that starts at byte `i`: no NUL comes before. -/
def Unended (s : System) (str : UInt32) (i j : Nat) : Prop :=
  ∀ l, i ≤ l → l < j → s.user (str + UInt32.ofNat l) ≠ 0

theorem ofNat_add_one (i : Nat) : UInt32.ofNat i + 1 = UInt32.ofNat (i + 1) := by
  rw [UInt32.ofNat_add]
  rfl

theorem mem_writeScan (hn : i + n = 4096) : a ∈ (s.writeScan str n (UInt32.ofNat i)).1 ↔
    ∃ j, i ≤ j ∧ j < 4096 ∧ a = str + UInt32.ofNat j ∧ s.Unended str i j := by
  induction n generalizing i with
  | zero =>
    refine iff_of_false (by simp [writeScan]) ?_
    rintro ⟨j, hij, hj, -⟩
    omega
  | succ n ih =>
    rw [writeScan, if_neg fun h => index_not_boundary (by omega) h.1]
    by_cases hz : s.user (str + UInt32.ofNat i) = 0
    · rw [if_pos hz, List.mem_singleton]
      constructor
      · rintro rfl
        exact ⟨i, Nat.le_refl i, by omega, rfl, fun l h1 h2 => by omega⟩
      · rintro ⟨j, hij, hj, rfl, hu⟩
        rcases Nat.eq_or_lt_of_le hij with rfl | hlt
        · rfl
        · exact absurd hz (hu i (Nat.le_refl i) hlt)
    · rw [if_neg hz, ofNat_add_one]
      simp only [List.mem_cons, ih (show i + 1 + n = 4096 by omega)]
      constructor
      · rintro (rfl | ⟨j, hij, hj, rfl, hu⟩)
        · exact ⟨i, Nat.le_refl i, by omega, rfl, fun l h1 h2 => by omega⟩
        · refine ⟨j, by omega, hj, rfl, fun l h1 h2 => ?_⟩
          rcases Nat.eq_or_lt_of_le h1 with rfl | hlt
          · exact hz
          · exact hu l hlt h2
      · rintro ⟨j, hij, hj, rfl, hu⟩
        rcases Nat.eq_or_lt_of_le hij with rfl | hlt
        · exact .inl rfl
        · exact .inr ⟨j, hlt, hj, rfl, fun l h1 h2 => hu l (by omega) h2⟩

/-- The scan has met a NUL. -/
theorem writeScan_terminated (hn : i + n = 4096) :
    (s.writeScan str n (UInt32.ofNat i)).2 = true ↔
      ∃ j, i ≤ j ∧ j < 4096 ∧ s.user (str + UInt32.ofNat j) = 0 := by
  induction n generalizing i with
  | zero =>
    refine iff_of_false (by simp [writeScan]) ?_
    rintro ⟨j, hij, hj, -⟩
    omega
  | succ n ih =>
    rw [writeScan, if_neg fun h => index_not_boundary (by omega) h.1]
    by_cases hz : s.user (str + UInt32.ofNat i) = 0
    · rw [if_pos hz]
      exact iff_of_true rfl ⟨i, Nat.le_refl i, by omega, hz⟩
    · rw [if_neg hz, ofNat_add_one]
      simp only [ih (show i + 1 + n = 4096 by omega)]
      constructor
      · rintro ⟨j, hij, hj, h0⟩
        exact ⟨j, by omega, hj, h0⟩
      · rintro ⟨j, hij, hj, h0⟩
        refine ⟨j, ?_, hj, h0⟩
        rcases Nat.eq_or_lt_of_le hij with rfl | hlt
        · exact absurd h0 hz
        · exact hlt

/-- `vga_write` reads no byte behind a NUL. -/
theorem mem_vgaWriteReads (h : a ∈ s.vgaWriteReads n (str + UInt32.ofNat i)) :
    ∃ j, i ≤ j ∧ a = str + UInt32.ofNat j ∧ s.Unended str i j := by
  induction n generalizing i with
  | zero => cases h
  | succ n ih =>
    have hself : ∃ j, i ≤ j ∧ str + UInt32.ofNat i = str + UInt32.ofNat j ∧ s.Unended str i j :=
      ⟨i, Nat.le_refl i, rfl, fun l h1 h2 => by omega⟩
    rw [vgaWriteReads] at h
    split at h
    · rw [List.mem_singleton.1 h]
      exact hself
    · next hz =>
      rcases List.mem_cons.1 h with rfl | h
      · exact hself
      · rw [UInt32.add_assoc, ofNat_add_one] at h
        obtain ⟨j, hij, rfl, hu⟩ := ih h
        refine ⟨j, by omega, rfl, fun l h1 h2 => ?_⟩
        rcases Nat.eq_or_lt_of_le h1 with rfl | hlt
        · exact hz
        · exact hu l hlt h2

/-- The call reads the bytes up to the NUL, or 4096 of them. -/
theorem mem_sysWriteReads (h0 : str ≠ 0) (hacc : s.kernel.accessible str = true) :
    a ∈ (s.sysWriteReads str).1 ↔
      ∃ j, j < 4096 ∧ a = str + UInt32.ofNat j ∧ s.Unended str 0 j := by
  have hscan : a ∈ (s.writeScan str 4096 (UInt32.ofNat 0)).1 ↔ _ :=
    mem_writeScan (show 0 + 4096 = 4096 from rfl)
  have hterm : (s.writeScan str 4096 (UInt32.ofNat 0)).2 = true ↔ _ :=
    writeScan_terminated (show 0 + 4096 = 4096 from rfl)
  simp only [Nat.zero_le, true_and, show UInt32.ofNat 0 = 0 from rfl] at hscan hterm
  unfold sysWriteReads
  rw [if_neg h0, if_neg (by simp [hacc])]
  simp only
  split
  · exact hscan
  · next ht =>
    obtain ⟨j₀, hj₀, hz⟩ := hterm.1 (by simpa using ht)
    rw [List.mem_append, hscan]
    refine or_iff_left_of_imp fun hv => ?_
    rw [show str = str + UInt32.ofNat 0 by simp] at hv
    obtain ⟨j, -, rfl, hu⟩ := mem_vgaWriteReads hv
    have hle : j ≤ j₀ := by
      by_contra hlt
      exact hu j₀ (Nat.zero_le _) (by omega) hz
    exact ⟨j, by omega, rfl, hu⟩

/-- **Every byte that is read is accessible** exactly when the call is refused at once, or the
string does not get to a second page, or that page is accessible too. -/
theorem sys_write_reads_iff (s : System) (str : UInt32) :
    (∀ a ∈ (s.sysWriteReads str).1, s.kernel.accessible a = true) ↔
      str = 0 ∨ s.kernel.accessible str = false ∨ str.toNat % 4096 = 0 ∨
        (∃ j < 4096 - str.toNat % 4096, s.user (str + UInt32.ofNat j) = 0) ∨
        s.kernel.accessible (str + UInt32.ofNat (4096 - str.toNat % 4096)) = true := by
  by_cases h0 : str = 0
  · refine iff_of_true (fun a ha => ?_) (.inl h0)
    unfold sysWriteReads at ha
    rw [if_pos h0] at ha
    cases ha
  cases hacc : s.kernel.accessible str with
  | false =>
    refine iff_of_true (fun a ha => ?_) (.inr (.inl rfl))
    unfold sysWriteReads at ha
    rw [if_neg h0, if_pos (by simp [hacc])] at ha
    cases ha
  | true =>
    have hmod := Nat.mod_lt str.toNat (show 0 < 4096 by omega)
    simp only [mem_sysWriteReads h0 hacc, h0, Bool.true_eq_false, false_or]
    constructor
    · intro h
      by_contra hno
      rw [not_or, not_or] at hno
      obtain ⟨haligned, hnul, hnext⟩ := hno
      refine hnext (h _ ⟨4096 - str.toNat % 4096, by omega, rfl, fun l _ hl hz => ?_⟩)
      exact hnul ⟨l, hl, hz⟩
    · rintro h a ⟨j, hj, rfl, hu⟩
      rcases Nat.lt_or_ge j (4096 - str.toNat % 4096) with hin | hout
      · exact (accessible_same_page (by omega)).trans hacc
      · obtain haligned | ⟨l, hl, hz⟩ | hnext := h
        · omega
        · exact absurd hz (hu l (Nat.zero_le l) (by omega))
        · -- the rest of the string is on the second page
          have hsplit : str + UInt32.ofNat j = str + UInt32.ofNat (4096 - str.toNat % 4096) +
              UInt32.ofNat (j - (4096 - str.toNat % 4096)) := by
            rw [UInt32.add_assoc, ← UInt32.ofNat_add, Nat.add_sub_cancel' hout]
          rw [hsplit]
          refine (accessible_same_page ?_).trans hnext
          have hstr := str.toNat_lt
          rw [UInt32.toNat_add, UInt32.toNat_ofNat']
          omega

/-! ## The call and its reads -/

theorem stringAt_length_eq (m : UInt32 → UInt8) (n : Nat) (a : UInt32) :
    (Kernel.stringAt m n a).length = n ↔ ∀ j < n, m (a + UInt32.ofNat j) ≠ 0 := by
  induction n generalizing a with
  | zero => exact iff_of_true rfl nofun
  | succ n ih =>
    rw [Kernel.stringAt]
    by_cases hz : m a = 0
    · rw [if_pos hz]
      refine iff_of_false (by simp) fun h => h 0 (Nat.succ_pos n) ?_
      simpa using hz
    · rw [if_neg hz, List.length_cons, Nat.succ_inj, ih]
      constructor
      · intro h j hj
        cases j with
        | zero => simpa using hz
        | succ j =>
          rw [← ofNat_add_one, UInt32.add_comm (UInt32.ofNat j), ← UInt32.add_assoc]
          exact h j (by omega)
      · intro h j hj
        have := h (j + 1) (by omega)
        rwa [← ofNat_add_one, UInt32.add_comm (UInt32.ofNat j), ← UInt32.add_assoc] at this

/-- The addresses are those of the call: both return the same. -/
theorem sysWrite_eax (s : System) (str : UInt32) :
    ∃ t, s.sysWrite str = .ok (some (s.sysWriteReads str).2, t) := by
  have hterm : (s.writeScan str 4096 (UInt32.ofNat 0)).2 = true ↔ _ :=
    writeScan_terminated (show 0 + 4096 = 4096 from rfl)
  simp only [Nat.zero_le, true_and, show UInt32.ofNat 0 = 0 from rfl] at hterm
  have hlen := stringAt_length_eq s.user 4096 str
  unfold sysWrite sysWriteReads
  split
  · exact ⟨_, rfl⟩
  split
  · exact ⟨_, rfl⟩
  simp only
  by_cases hnul : ∃ j < 4096, s.user (str + UInt32.ofNat j) = 0
  · rw [if_neg (fun h => by
      obtain ⟨j, hj, hz⟩ := hnul
      exact hlen.1 h j hj hz), hterm.2 hnul]
    exact ⟨_, rfl⟩
  · have hf : (s.writeScan str 4096 0).2 = false := by
      simpa using mt hterm.1 hnul
    rw [if_pos (hlen.2 fun j hj hz => hnul ⟨j, hj, hz⟩), hf]
    exact ⟨_, rfl⟩

/-- Page tables at 0x3000 and 0x4000: page 1 is the user's, page 2 the kernel's. -/
def twoPages : Vmm := ⟨⟨fun a =>
  if a = 0x3000 then 7 else if a = 0x3001 then 0x40
  else if a = 0x4004 then 7 else if a = 0x4005 then 0x10
  else if a = 0x4008 then 3 else if a = 0x4009 then 0x20 else 0, 0, 0, 0, 0, 0⟩, 0x3000, 0x3000⟩

/-- A string that runs from the last byte of page 1 into page 2. -/
def crossingSystem : System :=
  { bootSystem with vmm := twoPages, user := fun a => if a < 0x2001 then 0x41 else 0 }

/-- The call reads a byte of the kernel's page. -/
theorem sys_write_reads_kernel_page :
    ¬ ∀ (s : System) (str : UInt32), ∀ a ∈ (s.sysWriteReads str).1,
      s.kernel.accessible a = true := by
  intro h
  have hpage : crossingSystem.kernel.accessible 0x1FFF = true := by decide +kernel
  have hread : (0x2000 : UInt32) ∈ (crossingSystem.sysWriteReads 0x1FFF).1 := by
    refine (mem_sysWriteReads (by decide) hpage).2 ⟨1, by omega, by decide, fun l _ hl => ?_⟩
    obtain rfl : l = 0 := by omega
    decide
  have hout : crossingSystem.kernel.accessible 0x2000 = false := by decide +kernel
  rw [h crossingSystem 0x1FFF _ hread] at hout
  cases hout

end System

end HaoSys.Syscall
