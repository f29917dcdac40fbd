import HaoSys.Fs.Creation
import HaoSys.Syscall.Overwrite
import HaoSys.Syscall.WriteScan

/-!
# The callers' buffers

Five calls read or write a data buffer of the caller. They check its first byte and
one near its end, each on its own page; the pages between are not looked at, nor are
the last bytes of a directory entry or of the third word of the mouse. How many bytes
a call touches depends on the volume, up to a size that its arguments give
(`BufferCall.size`), and some volume makes it touch all of them.
-/

namespace HaoSys.Syscall

open HaoSys.Lib HaoSys.Mm HaoSys.Fs Prog DirSlot

/-! ## Buffers and pages -/

/-- Every page that begins inside the `n` bytes at `buf`, behind the first of them, is
accessible. -/
def Spans (v : Vmm) (buf : UInt32) (n : Nat) : Prop :=
  ∀ j, 0 < j → j < n → (buf + UInt32.ofNat j).toNat % 4096 = 0 →
    v.vmmIsUserAccessible (buf + UInt32.ofNat j) = true

/-- Every one of the `n` bytes at `buf` is accessible. -/
def Accessible (v : Vmm) (buf : UInt32) (n : Nat) : Prop :=
  ∀ j, j < n → v.vmmIsUserAccessible (buf + UInt32.ofNat j) = true

section Pages

variable {v : Vmm} {buf : UInt32} {n m : Nat}

theorem Accessible.zero : Accessible v buf 0 := fun j hj => absurd hj (Nat.not_lt_zero j)

theorem Spans.zero : Spans v buf 0 := fun j _ hj => absurd hj (Nat.not_lt_zero j)

theorem Accessible.mono (h : Accessible v buf n) (hm : m ≤ n) : Accessible v buf m :=
  fun j hj => h j (by omega)

/-- With the first byte, the pages decide. -/
theorem spans_iff (hbuf : v.vmmIsUserAccessible buf = true) :
    Spans v buf n ↔ Accessible v buf n := by
  refine ⟨fun h j => ?_, fun h j _ hj _ => h j hj⟩
  induction j with
  | zero =>
    intro _
    rwa [show buf + UInt32.ofNat 0 = buf from UInt32.add_zero buf]
  | succ j ih =>
    intro hj
    by_cases hpage : (buf + UInt32.ofNat (j + 1)).toNat % 4096 = 0
    · exact h (j + 1) (Nat.succ_pos j) hj hpage
    · -- it lies on the page of the byte before it
      have hsplit : buf + UInt32.ofNat (j + 1) = buf + UInt32.ofNat j + UInt32.ofNat 1 := by
        rw [UInt32.add_assoc, ← UInt32.ofNat_add]
      rw [hsplit] at hpage ⊢
      refine (System.accessible_same_page ?_).trans (ih (by omega))
      have hlt := (buf + UInt32.ofNat j).toNat_lt
      rw [UInt32.toNat_add, show (UInt32.ofNat 1).toNat = 1 from rfl] at hpage
      omega

end Pages

/-! ## The calls -/

/-- The calls with a data buffer, and their arguments. -/
inductive BufferCall where
  | readFile (filename buf maxSize : UInt32)
  | readFileOff (filename offset buf maxSize : UInt32)
  | writeFile (filename data size : UInt32)
  | list (path buf max : UInt32)
  | getmouse (buf : UInt32)

namespace BufferCall

def run (fuel : Nat) (k : Kernel) : BufferCall → Except Fault SysResult
  | readFile filename buf maxSize => sysReadFile fuel k filename buf maxSize
  | readFileOff filename offset buf maxSize => sysReadFileOff fuel k filename offset buf maxSize
  | writeFile filename data size => sysWriteFile fuel k filename data size
  | list path buf max => sysList fuel k path buf max
  | getmouse buf => sysGetmouse k buf

/-- The data buffer. -/
def buf : BufferCall → UInt32
  | readFile _ buf _ => buf
  | readFileOff _ _ buf _ => buf
  | writeFile _ data _ => data
  | list _ buf _ => buf
  | getmouse buf => buf

/-- How many bytes of it the call may touch. A file has fewer than 2³² bytes. -/
def size : BufferCall → Nat
  | readFile _ _ maxSize => maxSize.toNat
  | readFileOff _ offset _ maxSize => min maxSize.toNat (2 ^ 32 - 1 - offset.toNat)
  | writeFile _ _ size => size.toNat
  | list _ _ max => 32 * max.toNat
  | getmouse _ => 12

/-- What the checks that the two reading calls share refuse. -/
def RefusedRead (v : Vmm) (filename buf maxSize : UInt32) : Prop :=
  filename = 0 ∨ buf = 0 ∨ v.vmmIsUserAccessible filename = false ∨ maxSize = 0 ∨
    v.vmmIsUserAccessible buf = false ∨ v.vmmIsUserAccessible (buf + maxSize - 1) = false

/-- What the checks on the arguments refuse. -/
def Refused (v : Vmm) : BufferCall → Prop
  | readFile filename buf maxSize => RefusedRead v filename buf maxSize
  | readFileOff filename _ buf maxSize => RefusedRead v filename buf maxSize
  | writeFile filename data size => filename = 0 ∨ data = 0 ∨
      v.vmmIsUserAccessible filename = false ∨ size > 65536 ∨ v.vmmIsUserAccessible data = false ∨
      size > 0 ∧ v.vmmIsUserAccessible (data + size - 1) = false
  | list path buf max => buf = 0 ∨ max = 0 ∨ path ≠ 0 ∧ v.vmmIsUserAccessible path = false ∨
      v.vmmIsUserAccessible buf = false ∨ v.vmmIsUserAccessible (buf + (max - 1) * 32) = false
  | getmouse buf => buf = 0 ∨ v.vmmIsUserAccessible buf = false ∨
      v.vmmIsUserAccessible (buf + 8) = false

/-- Whatever a call that returns has found in memory and on the volumes, and whoever has made it,
every byte that it touched is accessible. -/
def Safe (v : Vmm) (q : BufferCall) : Prop :=
  ∀ fuel k r, k.vmm = v → q.run fuel k = .ok r → Accessible v q.buf r.touched

end BufferCall

/-! ## The checks -/

section Checks

variable {v : Vmm} {fuel : Nat} {k : Kernel} {q : BufferCall}

theorem readFileWith_refused {filename buf maxSize : UInt32}
    (load : FatFs → Dirent → FatM (List UInt8))
    (h : BufferCall.RefusedRead k.vmm filename buf maxSize) :
    readFileWith fuel k filename buf maxSize load = k.refuse := by
  unfold BufferCall.RefusedRead at h
  unfold readFileWith Kernel.accessible
  split; · rfl
  split; · rfl
  split; · rfl
  split; · rfl
  split; · rfl
  simp_all

/-- A refused call touches nothing. -/
theorem BufferCall.run_refused (h : q.Refused k.vmm) : q.run fuel k = k.refuse := by
  cases q with
  | readFile filename buf maxSize => exact readFileWith_refused _ h
  | readFileOff filename offset buf maxSize => exact readFileWith_refused _ h
  | writeFile filename data size =>
    unfold BufferCall.Refused at h
    unfold BufferCall.run sysWriteFile Kernel.accessible
    simp only at h ⊢
    split; · rfl
    split; · rfl
    split; · rfl
    split; · rfl
    split; · rfl
    simp_all
  | list path buf max =>
    unfold BufferCall.Refused at h
    unfold BufferCall.run sysList Kernel.accessible
    simp only at h ⊢
    split; · rfl
    split; · rfl
    split; · rfl
    split; · rfl
    simp_all
  | getmouse buf =>
    unfold BufferCall.Refused at h
    unfold BufferCall.run sysGetmouse Kernel.accessible
    simp only at h ⊢
    split; · rfl
    split; · rfl
    split; · rfl
    simp_all

/-- The checks look at the first byte. -/
theorem BufferCall.first_accessible (h : ¬ q.Refused v) : v.vmmIsUserAccessible q.buf = true := by
  cases q with
  | readFile | readFileOff =>
    simp only [BufferCall.Refused, BufferCall.RefusedRead, not_or, Bool.not_eq_false] at h
    exact h.2.2.2.2.1
  | writeFile =>
    simp only [BufferCall.Refused, not_or, Bool.not_eq_false] at h
    exact h.2.2.2.2.1
  | list =>
    simp only [BufferCall.Refused, not_or, Bool.not_eq_false] at h
    exact h.2.2.2.1
  | getmouse =>
    simp only [BufferCall.Refused, not_or, Bool.not_eq_false] at h
    exact h.2.1

end Checks

/-! ## No call touches more -/

/-- Whatever `x` returns has `Q`. -/
def Returns {α : Type} (x : FatM α) (Q : α → Prop) : Prop :=
  Triple (fun _ => True) (fun _ => True) x fun a _ => Q a

namespace Returns

variable {α β : Type} {x y : FatM α} {Q R : α → Prop}

theorem of_ok {s t : FatState} {a : α} (h : Returns x Q) (hx : x s = .ok (a, t)) : Q a :=
  Triple.of_ok h trivial hx

theorem pure {a : α} (h : Q a) : Returns (Pure.pure a) Q := Triple.pure fun _ _ => h

theorem fault (e : Fault) : Returns (Prog.fault e : FatM α) Q := Triple.fault trivial

theorem any (x : FatM α) : Returns x fun _ => True := by
  intro s _
  split <;> trivial

theorem bind {f : α → FatM β} {R : β → Prop} (hx : Returns x Q) (hf : ∀ a, Q a → Returns (f a) R) :
    Returns (x >>= f) R :=
  Triple.bind hx fun a s hQ => hf a hQ s trivial

theorem after {f : α → FatM β} {R : β → Prop} (hf : ∀ a, Returns (f a) R) : Returns (x >>= f) R :=
  bind (any x) fun a _ => hf a

theorem ite {c : Prop} [Decidable c] (h1 : c → Returns x Q) (h2 : ¬ c → Returns y Q) :
    Returns (if c then x else y) Q := Triple.ite h1 h2

theorem bufRead (o w : Nat) (f : Sector → α) :
    Returns (Fs.bufRead o w f) fun a => ∃ b, a = f b := by
  intro s _
  by_cases h : o + w ≤ 512 <;> simp [Fs.bufRead, h]

end Returns

section Bounds

variable {fs : FatFs} {fuel n : Nat} {lba c remaining skip : UInt32} {acc : List UInt8}

/-- A copy loop has appended to `acc` what is missing from `remaining`. -/
def Copied (acc : List UInt8) (remaining : UInt32) (acc' : List UInt8) (remaining' : UInt32) :
    Prop :=
  acc'.length + remaining'.toNat = acc.length + remaining.toNat

/-- A copy of at most what remains. -/
theorem Copied.step {copy remaining' : UInt32} {bytes acc' : List UInt8}
    (h : Copied (acc ++ bytes) (remaining - copy) acc' remaining')
    (hlen : bytes.length = copy.toNat) (hle : copy ≤ remaining) :
    Copied acc remaining acc' remaining' := by
  have hle' := UInt32.le_iff_toNat_le.1 hle
  unfold Copied at h ⊢
  rw [List.length_append, hlen, UInt32.toNat_sub_of_le _ _ hle] at h
  omega

theorem copy_le (a b : UInt32) : (if a < b then a else b) ≤ a := by
  split
  · exact UInt32.le_refl a
  · next h => exact UInt32.not_lt.1 h

theorem returns_loadSectors : Returns (loadSectors fs n lba acc remaining) fun r =>
    Copied acc remaining r.2.1 r.2.2 := by
  induction n generalizing lba acc remaining with
  | zero => exact .pure rfl
  | succ n ih =>
    unfold loadSectors
    refine .ite (fun _ => ?_) fun _ => .pure rfl
    refine .after fun ok => .ite (fun _ => ?_) fun _ => .pure rfl
    refine .bind (.bufRead _ _ _) fun bytes hbytes => ?_
    obtain ⟨b, hb⟩ := hbytes
    refine Triple.conseq ih (fun _ h => h) fun r _ hr => ?_
    exact hr.step (by rw [hb, List.length_map, List.length_range]) (copy_le _ _)

theorem returns_loadClusters : Returns (loadClusters fs fuel c acc remaining) fun bytes =>
    bytes.length ≤ acc.length + remaining.toNat := by
  induction fuel generalizing c acc remaining with
  | zero => exact .fault _
  | succ fuel ih =>
    unfold loadClusters
    refine .ite (fun _ => ?_) fun _ => .pure (Nat.le_add_right _ _)
    refine .bind returns_loadSectors fun r hcopied => ?_
    obtain ⟨ok, acc', remaining'⟩ := r
    have hle : acc'.length + remaining'.toNat ≤ acc.length + remaining.toNat := Nat.le_of_eq hcopied
    refine .ite (fun _ => .after fun next => .ite (fun _ => .pure (by omega)) fun _ => ?_)
      fun _ => .pure (by omega)
    exact Triple.conseq ih (fun _ h => h) fun _ _ hlen => hlen.trans hle

/-- **`fat_load_file`** fills no more than it is given. -/
theorem returns_fatLoadFile (e : Dirent) (maxSize : UInt32) :
    Returns (fatLoadFile fuel fs e maxSize) fun bytes => bytes.length ≤ maxSize.toNat := by
  unfold fatLoadFile
  refine .ite (fun _ => .pure (Nat.zero_le _)) fun _ => ?_
  refine .ite (fun _ => .pure (Nat.zero_le _)) fun _ => ?_
  refine Triple.conseq returns_loadClusters (fun _ h => h) fun bytes _ hlen => ?_
  rw [List.length_nil, Nat.zero_add] at hlen
  refine hlen.trans (UInt32.le_iff_toNat_le.1 ?_)
  split
  · exact UInt32.le_refl _
  · next h => exact UInt32.not_lt.1 h

theorem returns_loadOffSectors : Returns (loadOffSectors fs n lba acc remaining skip) fun r =>
    Copied acc remaining r.2.1 r.2.2.1 := by
  induction n generalizing lba acc remaining skip with
  | zero => exact .pure rfl
  | succ n ih =>
    unfold loadOffSectors
    refine .ite (fun _ => ?_) fun _ => .pure rfl
    refine .after fun ok => .ite (fun _ => ?_) fun _ => .pure rfl
    refine .ite (fun _ => ih) fun _ => ?_
    refine .bind (.bufRead _ _ _) fun bytes hbytes => ?_
    obtain ⟨b, hb⟩ := hbytes
    refine Triple.conseq ih (fun _ h => h) fun r _ hr => ?_
    exact hr.step (by rw [hb, List.length_map, List.length_range]) (copy_le _ _)

theorem returns_loadOffClusters :
    Returns (loadOffClusters fs fuel c acc remaining skip) fun bytes =>
      bytes.length ≤ acc.length + remaining.toNat := by
  induction fuel generalizing c acc remaining skip with
  | zero => exact .fault _
  | succ fuel ih =>
    unfold loadOffClusters
    refine .ite (fun _ => ?_) fun _ => .pure (Nat.le_add_right _ _)
    refine .bind returns_loadOffSectors fun r hcopied => ?_
    obtain ⟨ok, acc', remaining', skip'⟩ := r
    have hle : acc'.length + remaining'.toNat ≤ acc.length + remaining.toNat := Nat.le_of_eq hcopied
    refine .ite (fun _ => .after fun next => .ite (fun _ => .pure (by omega)) fun _ => ?_)
      fun _ => .pure (by omega)
    exact Triple.conseq ih (fun _ h => h) fun _ _ hlen => hlen.trans hle

/-- **`fat_load_file_off`**: nor more than a file can have behind the offset. -/
theorem returns_fatLoadFileOff (e : Dirent) (offset maxSize : UInt32) :
    Returns (fatLoadFileOff fuel fs e offset maxSize) fun bytes =>
      bytes.length ≤ min maxSize.toNat (2 ^ 32 - 1 - offset.toNat) := by
  unfold fatLoadFileOff
  refine .ite (fun _ => .pure (Nat.zero_le _)) fun hin => ?_
  refine .ite (fun _ => .pure (Nat.zero_le _)) fun _ => ?_
  refine Triple.conseq returns_loadOffClusters (fun _ h => h) fun bytes _ hlen => ?_
  rw [List.length_nil, Nat.zero_add] at hlen
  have hlt : offset < e.fileSize := UInt32.not_le.1 fun h => hin (.inr (.inr h))
  have hsub := UInt32.toNat_sub_of_le _ _ (UInt32.le_of_lt hlt)
  have hsize := e.fileSize.toNat_lt
  split at hlen
  · next hmin =>
    have hmin := UInt32.lt_iff_toNat_lt.1 hmin
    omega
  · next hmin =>
    have hmin := UInt32.not_lt.1 hmin
    have hmin := UInt32.le_iff_toNat_le.1 hmin
    omega

/-! ### Writing and listing -/

/-- **`fat_write_file`** takes no more than its data. -/
theorem returns_fatWriteFileImpl (sub : Option (List UInt8)) (data : List UInt8) :
    Returns (fatWriteFileImpl fuel fs sub data) fun r => r.2 ≤ data.length := by
  unfold fatWriteFileImpl
  refine .ite (fun _ => .pure (Nat.zero_le _)) fun _ => .after fun r => ?_
  refine .ite (fun _ => .pure (Nat.zero_le _)) fun _ => .after fun maxC => .after fun target => ?_
  cases target with
  | none => exact .pure (Nat.zero_le _)
  | some target =>
    refine .after fun needed => .after fun a => .ite (fun _ => ?_) fun _ => ?_
    · exact .after fun _ => .pure (Nat.zero_le _)
    · refine .after fun _ => .after fun _ => .after fun r => ?_
      exact .ite (fun _ => .after fun _ => .pure (Nat.sub_le ..))
        fun _ => .after fun _ => .pure (Nat.sub_le ..)

theorem returns_writeFileAt (cr : Creds) (sub : Option (List UInt8)) (data : List UInt8) :
    Returns (writeFileAt fuel cr sub data fs) fun r => r.2 ≤ data.length := by
  unfold writeFileAt
  refine .after fun o => ?_
  cases o with
  | some entry =>
    refine .ite (fun _ => ?_) fun _ => .pure (Nat.zero_le _)
    refine .bind (returns_fatWriteFileImpl sub data) fun r hle => ?_
    exact .ite (fun _ => .after fun _ => .pure hle) fun _ => .pure hle
  | none =>
    refine .after fun granted => .ite (fun _ => ?_) fun _ => .pure (Nat.zero_le _)
    refine .bind (returns_fatWriteFileImpl sub data) fun r hle => ?_
    exact .ite (fun _ => .after fun _ => .pure hle) fun _ => .pure hle

variable {max : UInt32} {es : List Dirent}

theorem returns_readDirEntries {i : Nat} (h : es.length ≤ max.toNat) :
    Returns (readDirEntries max n i es) fun r => r.2.length ≤ max.toNat := by
  induction n generalizing i es with
  | zero => exact .pure h
  | succ n ih =>
    unfold readDirEntries
    refine .ite (fun hlt => .after fun e => ?_) fun _ => .pure h
    refine .ite (fun _ => .pure h) fun _ => .ite (fun _ => ih h) fun _ => ih ?_
    rw [List.length_append]
    exact hlt

theorem returns_readDirSectors (h : es.length ≤ max.toNat) :
    Returns (readDirSectors fs max n lba es) fun r => r.2.length ≤ max.toNat := by
  induction n generalizing lba es with
  | zero => exact .pure h
  | succ n ih =>
    unfold readDirSectors
    refine .after fun ok => .ite (fun _ => ?_) fun _ => .pure h
    exact .bind (returns_readDirEntries h) fun r hr => .ite (fun _ => .pure hr) fun _ => ih hr

theorem returns_readDirClusters (h : es.length ≤ max.toNat) :
    Returns (readDirClusters fs max fuel c es) fun r => r.length ≤ max.toNat := by
  induction fuel generalizing c es with
  | zero => exact .fault _
  | succ fuel ih =>
    unfold readDirClusters
    refine .ite (fun _ => .pure h) fun _ => ?_
    refine .bind (returns_readDirSectors h) fun r hr => .ite (fun _ => .pure hr) fun _ => ?_
    exact .after fun next => .ite (fun _ => .pure hr) fun _ => ih hr

/-- **`fat_read_dir`** fills no more entries than it is given. -/
theorem returns_fatReadDir :
    Returns (fatReadDir fuel fs c max) fun es => es.length ≤ max.toNat := by
  unfold fatReadDir
  exact .ite (fun _ => .pure (Nat.zero_le _)) fun _ => returns_readDirClusters (Nat.zero_le _)

theorem returns_listAt (cr : Creds) (sub : Option (List UInt8)) :
    Returns (listAt fuel cr sub max fs) fun r => ∀ es, r = some es → es.length ≤ max.toNat := by
  unfold listAt
  have hread : ∀ de, Returns (if sysCheckEntry cr de 4 then do
        let dirCluster ← fatOpenDir fuel fs sub
        if dirCluster = 0xFFFFFFFF then pure none
        else
          let entries ← fatReadDir fuel fs dirCluster max
          pure (some entries)
      else pure none) fun r => ∀ es, r = some es → es.length ≤ max.toNat := by
    intro de
    refine .ite (fun _ => .after fun dir => .ite (fun _ => .pure ?_) fun _ => ?_)
      fun _ => .pure ?_
    · intro es h
      cases h
    · refine .bind returns_fatReadDir fun es hle => .pure fun es' h => ?_
      cases h
      exact hle
    · intro es h
      cases h
  have hrest : ∀ es : List Dirent, (none : Option (List Dirent)) = some es →
      es.length ≤ max.toNat := by
    intro es h
    cases h
  refine .ite (fun _ => .after fun o => ?_) fun _ => .after fun o => ?_
  all_goals
    cases o with
    | none => exact .pure hrest
    | some de => exact hread de

end Bounds

section Touched

variable {fuel n : Nat} {k : Kernel} {r : SysResult} {max : UInt32}

theorem returns_run {α : Type} {vfs vfs' : Vfs} {i : Fin 8} {x : FatFs → FatM α} {Q : α → Prop}
    {o : Option α} (hx : ∀ fs, Returns (x fs) Q) (h : vfs.run i x = .ok (o, vfs')) :
    ∀ a, o = some a → Q a := by
  intro a ha
  unfold Vfs.run at h
  cases hm : vfs.mounts i with
  | none =>
    simp only [hm] at h
    cases h
    cases ha
  | some m =>
    simp only [hm] at h
    cases hrun : x m.fs ⟨m.buf, vfs.disks m.dev⟩ with
    | error e =>
      rw [hrun] at h
      cases h
    | ok p =>
      rw [hrun] at h
      cases h
      cases ha
      exact (hx m.fs).of_ok hrun

theorem refuse_touched (h : k.refuse = .ok r) : r.touched ≤ n := by
  cases h
  exact Nat.zero_le n

theorem returns_readFileAt {cr : Creds} {sub : Option (List UInt8)} {fs : FatFs}
    {load : FatFs → Dirent → FatM (List UInt8)}
    (hload : ∀ fs e, Returns (load fs e) fun bytes => bytes.length ≤ n) :
    Returns (readFileAt fuel cr sub load fs) fun r =>
      ∀ bytes, r = some bytes → bytes.length ≤ n := by
  unfold readFileAt
  refine .after fun o => ?_
  cases o with
  | none =>
    refine .pure fun bytes h => ?_
    cases h
  | some entry =>
    refine .ite (fun _ => ?_) fun _ => .pure fun bytes h => ?_
    · refine .bind (hload fs entry) fun bytes hle => .pure fun bytes' h => ?_
      cases h
      exact hle
    · cases h

theorem readFileWith_touched {filename buf maxSize : UInt32}
    {load : FatFs → Dirent → FatM (List UInt8)}
    (hload : ∀ fs e, Returns (load fs e) fun bytes => bytes.length ≤ n)
    (h : readFileWith fuel k filename buf maxSize load = .ok r) : r.touched ≤ n := by
  unfold readFileWith at h
  repeat' split at h
  all_goals first | exact refuse_touched h | skip
  next i sub hres =>
    cases hrun : k.vfs.run i (readFileAt fuel k.creds sub load) with
    | error e =>
      rw [hrun] at h
      cases h
    | ok p =>
      obtain ⟨o, vfs⟩ := p
      have hlen := returns_run (fun fs => returns_readFileAt hload) hrun
      rw [hrun] at h
      cases hjoin : o.join with
      | none =>
        simp only [bind, Except.bind, hjoin] at h
        cases h
        exact Nat.zero_le n
      | some bytes =>
        simp only [bind, Except.bind, hjoin] at h
        cases h
        exact hlen (some bytes) (Option.join_eq_some_iff.1 hjoin) bytes rfl

theorem sysWriteFile_touched {filename data size : UInt32}
    (h : sysWriteFile fuel k filename data size = .ok r) : r.touched ≤ size.toNat := by
  unfold sysWriteFile at h
  repeat' split at h
  all_goals first | exact refuse_touched h | skip
  next i sub hres =>
    cases hrun : k.vfs.run i (writeFileAt fuel k.creds sub (k.bytesAt data size.toNat)) with
    | error e =>
      rw [hrun] at h
      cases h
    | ok p =>
      obtain ⟨o, vfs⟩ := p
      have hlen := returns_run (fun fs => returns_writeFileAt k.creds sub _) hrun
      rw [Kernel.bytesAt, List.length_map, List.length_range] at hlen
      rw [hrun] at h
      cases h
      cases o with
      | none => exact Nat.zero_le _
      | some taken => exact hlen taken rfl

theorem length_withVirtual {es : List Dirent} (h : es.length ≤ max.toNat) :
    (withVirtual es max).length ≤ max.toNat := by
  have hsigned : signed max ≤ max.toNat := by
    unfold signed
    split <;> omega
  -- each of the two is put in only below the signed bound
  have hadd : ∀ (es : List Dirent) (d : Dirent), es.length ≤ max.toNat →
      (if (es.length : Int) < signed max then es ++ [d] else es).length ≤ max.toNat := by
    intro es d hes
    split
    · next hlt =>
      rw [List.length_append, List.length_singleton]
      omega
    · exact hes
  exact hadd _ _ (hadd es _ h)

theorem ite_length_le {p : Prop} [Decidable p] {es es' : List Dirent} (h : es.length ≤ n)
    (h' : es'.length ≤ n) : (if p then es else es').length ≤ n := by
  split
  · exact h
  · exact h'

theorem sysList_touched {path buf : UInt32}
    (h : sysList fuel k path buf max = .ok r) : r.touched ≤ 32 * max.toNat := by
  unfold sysList at h
  dsimp only at h
  generalize (if path = 0 then none else some (k.path path)) = p at h
  split at h; · exact refuse_touched h
  split at h; · exact refuse_touched h
  split at h; · exact refuse_touched h
  split at h; · exact refuse_touched h
  split at h
  · cases h
    exact Nat.mul_le_mul_left 32 (List.length_take_le _ _)
  split at h
  · cases h
    exact Nat.mul_le_mul_left 32 (List.length_take_le _ _)
  cases hres : k.vfs.vfsResolve p with
  | none =>
    rw [hres] at h
    exact refuse_touched h
  | some found =>
    obtain ⟨i, sub⟩ := found
    rw [hres] at h
    cases hrun : k.vfs.run i (listAt fuel k.creds sub max) with
    | error e =>
      simp only [hrun] at h
      cases h
    | ok result =>
      obtain ⟨o, vfs⟩ := result
      have hlen := returns_run (fun fs => returns_listAt k.creds sub) hrun
      cases hjoin : o.join with
      | none =>
        simp only [hrun, bind, Except.bind, hjoin] at h
        cases h
        exact Nat.zero_le _
      | some entries =>
        simp only [hrun, bind, Except.bind, hjoin] at h
        have hle := hlen (some entries) (Option.join_eq_some_iff.1 hjoin) entries rfl
        cases h
        exact Nat.mul_le_mul_left 32 (ite_length_le (length_withVirtual hle) hle)

theorem sysGetmouse_touched {buf : UInt32} (h : sysGetmouse k buf = .ok r) : r.touched ≤ 12 := by
  unfold sysGetmouse at h
  repeat' split at h
  all_goals first | exact refuse_touched h | skip
  next => cases h; exact Nat.le_refl 12

/-- **No call touches more than its size.** -/
theorem BufferCall.run_touched {q : BufferCall} (h : q.run fuel k = .ok r) :
    r.touched ≤ q.size := by
  cases q with
  | readFile filename buf maxSize =>
    exact readFileWith_touched (fun _ e => returns_fatLoadFile e maxSize) h
  | readFileOff filename offset buf maxSize =>
    exact readFileWith_touched (fun _ e => returns_fatLoadFileOff e offset maxSize) h
  | writeFile filename data size => exact sysWriteFile_touched h
  | list path buf max => exact sysList_touched h
  | getmouse buf => exact sysGetmouse_touched h

end Touched

end HaoSys.Syscall
