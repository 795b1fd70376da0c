import Nachos.Lib.Transition
import Nachos.Lib.Queues
import Nachos.Machine.Machine
import Nachos.Threads.Synch
import Nachos.Threads.Scheduler
import Nachos.Threads.SchedulerInv
import Nachos.Threads.ContextSwitch
import Nachos.Threads.Ptable
import Nachos.Lib.Forest
import Nachos.Threads.PtableInv
import Nachos.Threads.JoinExit
import Nachos.Threads.SlotReuse
import Nachos.Lib.Bytes
import Nachos.Machine.Translate
import Nachos.Userprog.AddrSpace
import Nachos.Userprog.Isolation
import Nachos.Lib.CInt
import Nachos.Userprog.Loader
import Nachos.Filesys.OpenFile
import Nachos.Filesys.Directory
import Nachos.Filesys.FileSystem
import Nachos.Filesys.Accounting
import Nachos.Lib.SortedList
import Nachos.Machine.Interrupt
import Nachos.Machine.InterruptOrder
import Nachos.Threads.CriticalSection
import Nachos.Threads.Destroy
import Nachos.Threads.Stable
import Nachos.Threads.SynchConsole
import Nachos.Filesys.Stub
import Nachos.Machine.Decode
import Nachos.Machine.MipsSim
import Nachos.Threads.ExecUpdate
import Nachos.Userprog.CreateCall
import Nachos.Userprog.FileCalls
import Nachos.Userprog.InputCalls
import Nachos.Bin.Coff2noff
import Nachos.Filesys.Handles
import Nachos.Lib.Tagged
import Nachos.Network.Post
import Nachos.Userprog.PrintCalls
import Nachos.Userprog.PrintDongbo
import Nachos.Threads.ExecRun
import Nachos.Filesys.Allocation
import Nachos.Filesys.CreateFile
import Nachos.Filesys.FlatFile
import Nachos.Filesys.Position
import Nachos.Lib.Checked
import Nachos.Lib.Decimal
import Nachos.Userprog.ConsoleLines
import Nachos.Userprog.EchoCalls
import Nachos.Userprog.IntCalls
import Nachos.Userprog.KernelBuffers
import Nachos.Lib.Chain
import Nachos.Machine.Arithmetic
import Nachos.Machine.Devices
import Nachos.Machine.Disk
import Nachos.Machine.Mult
import Nachos.Test.Voinuoc
import Nachos.Threads.List
import Nachos.Threads.SemaphoreValues
import Nachos.Userprog.BitSet
import Nachos.Userprog.UserStrings
import Nachos.Userprog.VirtualMemory
import Nachos.Machine.DelayedLoads
import Nachos.Threads.LoadRegisters
import Nachos.Filesys.SynchDisk
import Nachos.Lib.Refinement
import Nachos.Filesys.DiskWrites
import Nachos.Filesys.FileStore
import Nachos.Filesys.StoreRefinement
import Nachos.Lib.I386
import Nachos.Threads.Switch
import Nachos.Threads.KernelStacks
import Nachos.Userprog.UserCode
import Nachos.Test.Start
import Nachos.Lib.Progress
import Nachos.Test.Sinhvien
import Nachos.Test.Main
import Nachos.Threads.JoinQueue
import Nachos.Threads.JoinProgress
import Nachos.Lib.Fifo
import Nachos.Threads.DispatchOrder
