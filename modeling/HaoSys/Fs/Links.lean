import HaoSys.Fs.Reader
import HaoSys.Fs.Total

/-!
# Following the FAT on any device

`read_fat_entry` returns a value for every number on every device with 512-byte
sectors: the number may lie outside the FAT, and a sector that cannot be read
gives the value the driver puts in its place. `FatFs.next` is this value, and
`FatFs.intact` the sectors that a loop gets through before a read fails.
-/

namespace HaoSys.Fs

open HaoSys.Lib Prog

variable {fs : FatFs} {d : Disk}

namespace FatFs

/-- What `read_fat_entry` returns. -/
def next (fs : FatFs) (d : Disk) (c : UInt32) : UInt32 := (evalOn (readFatEntry fs c) d).getD 0

theorem next_reads (h : fs.bytesPerSector = 512) (c : UInt32) :
    Reads (readFatEntry fs c) d (fs.next d c) := by
  obtain ⟨v, t, hrun, -⟩ := (total_readFatEntry h c).run ⟨Sector.zero, d⟩
  have heval : evalOn (readFatEntry fs c) d = some v := by
    unfold evalOn
    rw [hrun]
  have hreads := reads_of_evalOn (readOnly_readFatEntry fs c) heval
  rw [next, heval]
  exact hreads

theorem next_of_reads (h : fs.bytesPerSector = 512) {c v : UInt32}
    (hr : Reads (readFatEntry fs c) d v) : fs.next d c = v := (next_reads h c).unique hr

/-- The sectors before the first one that cannot be read. -/
def intact (fs : FatFs) (d : Disk) (ls : List UInt32) : List UInt32 :=
  ls.takeWhile fun l => d.readable (fs.baseLba + l)

theorem intact_cons_of_readable {l : UInt32} (h : d.readable (fs.baseLba + l) = true)
    (ls : List UInt32) : fs.intact d (l :: ls) = l :: fs.intact d ls := by
  unfold intact
  rw [List.takeWhile_cons, if_pos h]

theorem intact_cons_of_not {l : UInt32} (h : ¬ d.readable (fs.baseLba + l) = true)
    (ls : List UInt32) : fs.intact d (l :: ls) = [] := by
  unfold intact
  rw [List.takeWhile_cons, if_neg h]

theorem intact_eq_self (h : ∀ a, d.readable a = true) (ls : List UInt32) : fs.intact d ls = ls :=
  List.takeWhile_eq_self_iff.2 fun _ _ => h _

end FatFs

end HaoSys.Fs
