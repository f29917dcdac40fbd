import HaoSys.Fs.FileStore
import HaoSys.Lib.Store
import HaoSys.Syscall.Retained

/-!
# The file system as a store

To its callers the FAT driver is a store of files. What a path was last written
with is what is read under it, however many other files were read and written
in the meantime, and a write that is refused leaves every file alone. The files
are any family of regular files, or of files yet to be made, on a FAT16 volume
with FATs for every number, in directories with room for one more name for each
call (`Shelf`).
-/

namespace HaoSys.Syscall

open HaoSys.Lib HaoSys.Fs HaoSys.Fs.FatFs HaoSys.Fs.DirSlot Prog

variable {κ : Type} {fs : FatFs} {d : Disk} {fuel n : Nat} {D : DirPlace → Prop}
  {files : κ → FilePath} {fc : κ → List UInt32} {m : κ → Option (List UInt8)}

/-! ## Calls -/

/-- A call of a client. -/
inductive FileCall (κ : Type) where
  | load (k : κ)
  | save (k : κ) (data : List UInt8)

/-- What the call means to the store. -/
def FileCall.request : FileCall κ → Request κ (Option (List UInt8))
  | load k => .read k
  | save k data => .write k (some data)

def FileCall.run (fuel : Nat) (fs : FatFs) (files : κ → FilePath) :
    FileCall κ → FatM (Reply (Option (List UInt8)))
  | load k => do
    let v ← readFile fuel fs (files k).path
    pure (.got v)
  | save k data => do
    let ok ← fatWriteFile fuel fs (some (files k).path) data
    pure (if ok then .done else .failed)

end HaoSys.Syscall
