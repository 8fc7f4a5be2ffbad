import Certikos.FileSys.Chunks
import Certikos.FileSys.FullDisk
import Certikos.FileSys.PoolRuns
import Certikos.FileSys.ReferenceRuns
import Certikos.Fs.Transaction
import Certikos.Ipc.Leak
import Certikos.Ipc.Transfer
import Certikos.Memory.Accounts
import Certikos.Memory.Load
import Certikos.Memory.Normalise
import Certikos.Memory.Tables
import Certikos.Mkfs.Contents
import Certikos.Mkfs.FreeBlocks
import Certikos.Shell.Printfmt
import Certikos.Shell.Copy
import Certikos.Thread.SchedRun
import Certikos.Trap.Dispatch
import Certikos.Trap.Fault
import Certikos.Trap.Idle
import Certikos.Trap.Indices
import Certikos.Trap.Nesting
import Certikos.Trap.Pause
import Certikos.Trap.Pending
import Certikos.Trap.Readline
import Certikos.Trap.Sigaction
import Certikos.Trap.Spawn
