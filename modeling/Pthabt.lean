import Pthabt.Hook.NextStep
import Pthabt.Hook.CallsReturn
import Pthabt.Nvme.Progress
import Pthabt.Hook.FilesRefinement
import Pthabt.Nvme.BringUp
import Pthabt.Zpoline.EnterSyscall
import Pthabt.Zpoline.WholeProgram
import Pthabt.Zpoline.Simulation
import Pthabt.Zpoline.Maps
import Pthabt.Zpoline.Rewrite
import Pthabt.Zpoline.SyscallHook
import Pthabt.Zpoline.AsmHook
import Pthabt.Lib.Calls
import Pthabt.Zpoline.Trampoline
import Pthabt.Lib.X86
import Pthabt.Myfs.Exhaustion
import Pthabt.Myfs.FreeRing
import Pthabt.Myfs.Paths
import Pthabt.Myfs.Reopen
import Pthabt.Hook.FileSize
import Pthabt.Hook.FdRange
import Pthabt.Hook.Isolation
import Pthabt.Hook.OpenedFlag
import Pthabt.Hook.FilePosition
import Pthabt.Nvme.Completion
import Pthabt.Nvme.CheckSound
import Pthabt.Nvme.SubmissionTail
import Pthabt.Hook.ReadAfterWrite
import Pthabt.Mylib.LazyInit
import Pthabt.Mylib.MyFifo
import Pthabt.Pthread.MutexMap
import Pthabt.IoUring.Batch
import Pthabt.IoUring.Identifiers
import Pthabt.Helper.HandOff
import Pthabt.Hook.WriteWaits
import Pthabt.Hook.ReadCount
import Pthabt.Hook.ReadDelivers
import Pthabt.Hook.WriteChanges
import Pthabt.IoUring.Results
import Pthabt.Hook.HookedNames
import Pthabt.Nvme.DriveIds
import Pthabt.Hook.PolledWait
import Pthabt.Myfs.LbaFrame
import Pthabt.Mylib.KeyTable
import Pthabt.Myfs.UsedBlocks
import Pthabt.Mylib.Once
import Pthabt.Pthread.CondMap
import Pthabt.Hook.LoopCounter
import Pthabt.Nvme.Registration
import Pthabt.Hlpatch.RightInsn
