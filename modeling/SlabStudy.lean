import SlabStudy.Library.Runs
import SlabStudy.Library.SlotTable
import SlabStudy.Library.CyclicScan
import SlabStudy.Library.Ledger
import SlabStudy.Library.Writes
import SlabStudy.Library.Ownership
import SlabStudy.Xv6.Machine
import SlabStudy.Xv6.PhysMem
import SlabStudy.Xv6.PageTable
import SlabStudy.Xv6.Mapping
import SlabStudy.Xv6.Dealloc
import SlabStudy.Xv6.Alloc
import SlabStudy.Xv6.Setup
import SlabStudy.Xv6.CopyUvm
import SlabStudy.Xv6.Proc
import SlabStudy.Xv6.Sched
import SlabStudy.Xv6.System
import SlabStudy.Xv6.Invariant
import SlabStudy.Xv6.Preserve
import SlabStudy.Xv6.Forking
import SlabStudy.Xv6.Exiting
import SlabStudy.Xv6.Reachable
import SlabStudy.Xv6.Dispatch
import SlabStudy.Xv6.Boot
import SlabStudy.Xv6.Fork
import SlabStudy.Xv6.Rounds
import SlabStudy.Xv6.Effects
import SlabStudy.Xv6.Waiting
import SlabStudy.Xv6.Lookup
import SlabStudy.Xv6.StackFault
import SlabStudy.Xv6.Growproc
import SlabStudy.Xv6.Inherit
import SlabStudy.Xv6.Delivery
import SlabStudy.Xv6.Fetch
import SlabStudy.Xv6.Block
import SlabStudy.Xv6.Log
import SlabStudy.Xv6.LogOps
import SlabStudy.Xv6.LogCapacity
import SlabStudy.Xv6.GroupCommit
import SlabStudy.Xv6.Inode
import SlabStudy.Xv6.Ownership
import SlabStudy.Xv6.FileContent
import SlabStudy.Xv6.InodeCache
import SlabStudy.Xv6.Directory
import SlabStudy.Xv6.PathWalk
import SlabStudy.Xv6.PathLookup
import SlabStudy.Xv6.DirRecord
import SlabStudy.Xv6.DirOps
import SlabStudy.Xv6.InodeRefs
import SlabStudy.Xv6.InodePaths
import SlabStudy.Xv6.OpenCall
import SlabStudy.Xv6.CallResults
import SlabStudy.Xv6.SelfLock
import SlabStudy.Xv6.FsImage
import SlabStudy.Library.WriteAt
import SlabStudy.Xv6.DirTree
import SlabStudy.Xv6.LinkCounts
import SlabStudy.Xv6.Removal
import SlabStudy.Xv6.CpuOwnership
import SlabStudy.Xv6.Exec
import SlabStudy.Xv6.KernelMap
import SlabStudy.Library.Ring
import SlabStudy.Xv6.ExecEffects
import SlabStudy.Xv6.Pipe
import SlabStudy.Xv6.PipeWakeup
import SlabStudy.Xv6.SharedWrite
import SlabStudy.Xv6.Mkfs
import SlabStudy.Xv6.MkfsImage
import SlabStudy.Xv6.MkfsRoot
import SlabStudy.Xv6.MkfsMain
import SlabStudy.Xv6.MkfsRead
import SlabStudy.Library.Linked
import SlabStudy.Xv6.Bio
import SlabStudy.Xv6.BufferCache
import SlabStudy.Xv6.BufferCoherence
import SlabStudy.Xv6.SharedInodes
import SlabStudy.Xv6.InodeCoherence
import SlabStudy.Xv6.InodeRuns
import SlabStudy.Dropbox.PutExchange
import SlabStudy.Xv6.Console
import SlabStudy.Xv6.LineDiscipline
import SlabStudy.Library.Chain
import SlabStudy.Xv6.Ide
import SlabStudy.Xv6.IdeQueue
import SlabStudy.Xv6.IdeRefinement
import SlabStudy.Library.Traced
import SlabStudy.Xv6.WriteBudget
import SlabStudy.Xv6.Umalloc
import SlabStudy.Xv6.UmallocHeap
import SlabStudy.Xv6.UmallocRuns
import SlabStudy.Xv6.Shell
import SlabStudy.Xv6.ShellTokens
import SlabStudy.Xv6.ShellGrammar
import SlabStudy.Xv6.ShellLine
import SlabStudy.Xv6.OpenFailure
import SlabStudy.Xv6.FileWrite
import SlabStudy.Xv6.PageJump
import SlabStudy.Library.Deposit
import SlabStudy.Xv6.CopyOut
import SlabStudy.Xv6.UmallocList
import SlabStudy.Xv6.Priority
import SlabStudy.Xv6.StatusStore
import SlabStudy.Xv6.UserReads
import SlabStudy.Xv6.ExecCall
import SlabStudy.Xv6.UserBytes
import SlabStudy.Xv6.ExecHeap
import SlabStudy.Xv6.ExecArgs
import SlabStudy.Xv6.ExecImage
import SlabStudy.Xv6.HeapStack
import SlabStudy.Library.Pattern
import SlabStudy.Xv6.GrepMatch
import SlabStudy.Library.CString
import SlabStudy.Library.Lines
import SlabStudy.Xv6.GrepLines
import SlabStudy.FileSharing.SendFile
import SlabStudy.Chat.SocketList
import SlabStudy.DShell.HandOff
import SlabStudy.Dropbox.Metadata
import SlabStudy.Dropbox.Versions
import SlabStudy.Dropbox.Transfer
import SlabStudy.Dropbox.Requests
import SlabStudy.Dropbox.Inotify
import SlabStudy.Xv6.Memmove
import SlabStudy.Xv6.Mp
import SlabStudy.Xv6.Interrupts
import SlabStudy.Library.Holder
import SlabStudy.Xv6.SleepLock
import SlabStudy.Xv6.BootMemory
import SlabStudy.Xv6.PipePages
import SlabStudy.Xv6.MachinePages
import SlabStudy.Xv6.PagePlaces
import SlabStudy.Xv6.LogCrash
import SlabStudy.Library.ByteMemory
import SlabStudy.Library.X86
import SlabStudy.Xv6.TrapFrame
import SlabStudy.Xv6.KernelThreads
import SlabStudy.Xv6.ThreadInvariant
import SlabStudy.Xv6.ThreadRuns
import SlabStudy.Xv6.ContextSwitch
import SlabStudy.Xv6.AssemblyProgress
import SlabStudy.Xv6.ForkReturn
import SlabStudy.Xv6.NewThread
import SlabStudy.Xv6.TrapReturn
import SlabStudy.Library.Scripts
import SlabStudy.Xv6.ShellRun
import SlabStudy.Xv6.ShellWiring
import SlabStudy.Xv6.ShellSession
import SlabStudy.Xv6.ShellPipes
import SlabStudy.Xv6.ShellPrompt
import SlabStudy.Xv6.Printing
import SlabStudy.Xv6.CgaScreen
