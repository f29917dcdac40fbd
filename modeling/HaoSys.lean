import HaoSys.Lib.Follows
import HaoSys.Lib.Loop
import HaoSys.Lib.LittleEndian
import HaoSys.Lib.Sharing
import HaoSys.Lib.Best
import HaoSys.Lib.First
import HaoSys.Lib.Prog
import HaoSys.Lib.Store
import HaoSys.Mm.Memory
import HaoSys.Mm.Strncpy
import HaoSys.Mm.Pmm
import HaoSys.Mm.PmmBits
import HaoSys.Mm.PmmInv
import HaoSys.Mm.PmmInit
import HaoSys.Mm.PmmRun
import HaoSys.Mm.PmmContiguous
import HaoSys.Mm.PmmPageZero
import HaoSys.Mm.Vmm
import HaoSys.Mm.VmmEntries
import HaoSys.Mm.VmmInv
import HaoSys.Mm.VmmSteps
import HaoSys.Mm.VmmIsolation
import HaoSys.Mm.VmmLaws
import HaoSys.Mm.VmmIdentity
import HaoSys.Mm.VmmDestroy
import HaoSys.Mm.VmmFrame
import HaoSys.Proc.Task
import HaoSys.Proc.TaskInv
import HaoSys.Proc.Create
import HaoSys.Proc.Load
import HaoSys.Proc.Reap
import HaoSys.Proc.Schedule
import HaoSys.Proc.Run
import HaoSys.Proc.Trace
import HaoSys.Proc.Misreap
import HaoSys.Proc.Lifetime
import HaoSys.Proc.Rotation
import HaoSys.Proc.Life
import HaoSys.Proc.Shell
import HaoSys.Proc.ShellExits
import HaoSys.Proc.ShellBounds
import HaoSys.Fs.Disk
import HaoSys.Fs.Fat
import HaoSys.Fs.Total
import HaoSys.Fs.Reader
import HaoSys.Fs.Links
import HaoSys.Fs.Path
import HaoSys.Fs.Name83
import HaoSys.Fs.Safety
import HaoSys.Fs.Volume
import HaoSys.Fs.Dir
import HaoSys.Fs.Collide
import HaoSys.Fs.Mount
import HaoSys.Fs.FatArea
import HaoSys.Fs.Mirror
import HaoSys.Fs.Layout
import HaoSys.Fs.Alloc
import HaoSys.Fs.File
import HaoSys.Fs.Slice
import HaoSys.Fs.Fill
import HaoSys.Fs.Create
import HaoSys.Fs.Shield
import HaoSys.Fs.OpenDir
import HaoSys.Fs.Walk
import HaoSys.Fs.Listing
import HaoSys.Fs.Lookup
import HaoSys.Fs.Rollback
import HaoSys.Fs.Vacancy
import HaoSys.Fs.Extend
import HaoSys.Fs.Mkdir
import HaoSys.Fs.Store
import HaoSys.Fs.History
import HaoSys.Fs.Change
import HaoSys.Fs.Stray
import HaoSys.Fs.MountUsable
import HaoSys.Fs.MetaChange
import HaoSys.Fs.Remove
import HaoSys.Fs.Creation
import HaoSys.Fs.Vfs
import HaoSys.Fs.Probe
import HaoSys.Fs.ProbeMount
import HaoSys.Fs.MountTable
import HaoSys.Fs.MountFailure
import HaoSys.Fs.MountMap
import HaoSys.Fs.MountPoint
import HaoSys.Fs.Saves
import HaoSys.Fs.Shelf
import HaoSys.Fs.FileStore
import HaoSys.Syscall.Syscall
import HaoSys.Syscall.Machine
import HaoSys.Syscall.Permission
import HaoSys.Syscall.Retained
import HaoSys.Syscall.Overwrite
import HaoSys.Syscall.LongPath
import HaoSys.Syscall.Meta
import HaoSys.Syscall.Ownership
import HaoSys.Syscall.Confidential
import HaoSys.Syscall.Dispatch
import HaoSys.Syscall.Credentials
import HaoSys.Syscall.WriteScan
import HaoSys.Syscall.FullBuffers
import HaoSys.Syscall.FileHistory
import HaoSys.Driver.Vga
import HaoSys.Driver.Mouse
import HaoSys.Driver.Motion
import HaoSys.Driver.Protect
import HaoSys.Driver.Linear
import HaoSys.Driver.Resync
import HaoSys.Driver.Keyboard
import HaoSys.Driver.Modifiers
import HaoSys.Driver.KeyStream
import HaoSys.Lib.Calendar
import HaoSys.Driver.Rtc
import HaoSys.Driver.Clock
import HaoSys.Driver.Torn
import HaoSys.Driver.Uhci
import HaoSys.Driver.UhciPool
import HaoSys.Driver.UsbHid
import HaoSys.Driver.UsbSchedule
import HaoSys.Driver.UsbStream
import HaoSys.Driver.UsbMouse
import HaoSys.Lib.Circular
import HaoSys.Driver.UsbTyping
import HaoSys.Driver.UsbKeys
import HaoSys.Lib.Walk
import HaoSys.Driver.UsbDescriptors
import HaoSys.Driver.UsbMsc
import HaoSys.Driver.UsbMscStore
import HaoSys.Driver.Ata
import HaoSys.Driver.AtaCommand
import HaoSys.Driver.AtaStore
import HaoSys.Irq.Console
import HaoSys.Irq.Fat
import HaoSys.User.Readline
import HaoSys.User.Editor
import HaoSys.User.Display
import HaoSys.User.ResolvePath
import HaoSys.User.CanonicalPath
import HaoSys.User.Number
import HaoSys.Boot.Stage2
import HaoSys.Irq.Pic
import HaoSys.Irq.Deliver
import HaoSys.Irq.Queue
import HaoSys.Proc.Cpu
import HaoSys.Proc.Frames
import HaoSys.Proc.Untouched
import HaoSys.Proc.Contexts
import HaoSys.Proc.Fresh
import HaoSys.Proc.Stopped
import HaoSys.Proc.Steps
import HaoSys.Proc.Progress
import HaoSys.Proc.Preempt
import HaoSys.Proc.Program
import HaoSys.Proc.Transparent
import HaoSys.Proc.Intact
import HaoSys.Proc.StaleStack
