import JackOS.Base.Outcome
import JackOS.Base.Transition
import JackOS.Base.Cut
import JackOS.Base.Bytes
import JackOS.Base.Ledger
import JackOS.Base.LinkedList
import JackOS.Base.Ring
import JackOS.Base.Pointwise
import JackOS.Base.Words
import JackOS.Lib.Bitmap
import JackOS.Lib.BitmapFit
import JackOS.Lib.BitmapScan32
import JackOS.Lib.List
import JackOS.Lib.String
import JackOS.Lib.Stdio
import JackOS.Lib.Print
import JackOS.Fs.State
import JackOS.Fs.Inode
import JackOS.Fs.File
import JackOS.Fs.InodeStore
import JackOS.Fs.Blocks
import JackOS.Fs.Contents
import JackOS.Fs.FileMap
import JackOS.Fs.FileWrite
import JackOS.Fs.FileAppend
import JackOS.Fs.SizeGuard
import JackOS.Fs.FileRead
import JackOS.Fs.Dir
import JackOS.Fs.Format
import JackOS.Fs.Path
import JackOS.Fs.PathParse
import JackOS.Fs.Syscall
import JackOS.Fs.Frame
import JackOS.Fs.Descriptors
import JackOS.Fs.FormatLayout
import JackOS.Fs.WriteLock
import JackOS.Fs.Position
import JackOS.Fs.FdCheck
import JackOS.Fs.RefBalance
import JackOS.Fs.Getcwd
import JackOS.Fs.OpenCut
import JackOS.Fs.OpenTurns
import JackOS.Fs.RefCount
import JackOS.Fs.OpenCount
import JackOS.Fs.InodeRelease
import JackOS.Fs.Entries
import JackOS.Fs.DirRead
import JackOS.Fs.Tree
import JackOS.Fs.Search
import JackOS.Fs.DirName
import JackOS.Fs.Install
import JackOS.Fs.DirAdd
import JackOS.Fs.DirDelete
import JackOS.Fs.Removal
import JackOS.Fs.NameTree
import JackOS.Fs.Volume
import JackOS.Fs.DirGrow
import JackOS.Fs.Making
import JackOS.Fs.DirMake
import JackOS.Fs.MakeCalls
import JackOS.Fs.RemoveCalls
import JackOS.Fs.EntryCut
import JackOS.Fs.RmdirClean
import JackOS.Base.Simulation
import JackOS.Fs.NameCalls
import JackOS.Fs.TreeCalls
import JackOS.Userprog.Fork
import JackOS.Userprog.ForkStart
import JackOS.Userprog.ForkCopy
import JackOS.Userprog.ForkFail
import JackOS.Userprog.ForkRelease
import JackOS.Userprog.UserPages
import JackOS.Userprog.Exhaustion
import JackOS.Userprog.SegmentLoad
import JackOS.Userprog.FdTable
import JackOS.Userprog.FdTableInv
import JackOS.Userprog.FdTableSafe
import JackOS.Kernel.Memory
import JackOS.Kernel.Arena
import JackOS.Kernel.ArenaCalls
import JackOS.Kernel.Heap
import JackOS.Kernel.HeapSafe
import JackOS.Kernel.Paging
import JackOS.Kernel.PagingSpec
import JackOS.Kernel.KernelPages
import JackOS.Kernel.PageTable
import JackOS.Kernel.PageRuns
import JackOS.Kernel.MemPool
import JackOS.Thread.Sched
import JackOS.Thread.SchedInv
import JackOS.Thread.SchedSafe
import JackOS.Thread.Mutex
import JackOS.Device.IoQueue
import JackOS.Device.IoQueueRun
import JackOS.Device.IoQueueFifo
import JackOS.Shell.Pipe
import JackOS.Shell.WashPath
import JackOS.Fs.PathLoop
import JackOS.Shell.CmdSplit
import JackOS.Shell.Readline
import JackOS.Shell.Echo
import JackOS.Device.Ide
import JackOS.Device.IdeHandshake
import JackOS.Device.IdeTransfer
import JackOS.Device.BusyWait
import JackOS.Device.Partition
import JackOS.Device.PartitionChain
import JackOS.Device.PartitionInit
import JackOS.Userprog.ProcTree
import JackOS.Userprog.ProcTreeInv
import JackOS.Userprog.ProcTreeSafe
import JackOS.Shell.BuiltinCmd
import JackOS.Shell.MkdirCmd
import JackOS.Device.Keyboard
import JackOS.Device.Console
import JackOS.Shell.TypedLine
