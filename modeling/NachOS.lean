import NachOS.Lib.Run
import NachOS.Lib.Bytes
import NachOS.Machine.Hardware
import NachOS.Userprog.BitMap
import NachOS.Userprog.MemorySwap
import NachOS.Userprog.InvertedPageTable
import NachOS.Userprog.AddrSpace
import NachOS.Machine.Translate
import NachOS.VM.Steps
import NachOS.VM.Agreement
import NachOS.VM.Mapping
import NachOS.VM.FrameRange
import NachOS.VM.Progress
import NachOS.Lib.LazyMemory
import NachOS.VM.Transparency
import NachOS.Userprog.MemorySwapTheorems
import NachOS.VM.Ownership
import NachOS.Threads.UserThreads
import NachOS.VM.Switching
import NachOS.Threads.Kernel
import NachOS.Threads.Semaphores
import NachOS.Threads.Locks
import NachOS.Lib.Placement
import NachOS.Threads.Scheduling
import NachOS.Threads.Conditions
import NachOS.Threads.SynchList
import NachOS.Userprog.OpenFilesTable
import NachOS.NoVM.AddrSpace
import NachOS.Userprog.BitMapTheorems
import NachOS.NoVM.Frames
import NachOS.NoVM.FrameSharing
import NachOS.NoVM.TableSharing
import NachOS.NoVM.PhysicalFrames
import NachOS.NoVM.Lifetimes
import NachOS.VM.Untouched
import NachOS.VM.ForkSharing
import NachOS.Filesys.FileHeader
import NachOS.Filesys.OpenFile
import NachOS.Filesys.FileSystem
import NachOS.Filesys.OpenFileTheorems
import NachOS.Filesys.DirectoryTheorems
import NachOS.Filesys.FileHeaderTheorems
import NachOS.Filesys.Consistency
import NachOS.Filesys.Contents
import NachOS.NoVM.FlatMemory
import NachOS.NoVM.EagerLoader
import NachOS.Bin.Coff2noff
import NachOS.Threads.Reclamation
import NachOS.Machine.Mips
import NachOS.Machine.Crashes
import NachOS.Machine.LoadDelay
import NachOS.VM.LazyLoader
import NachOS.VM.Bookkeeping
import NachOS.VM.Eviction
import NachOS.VM.Bounds
import NachOS.VM.DirtyBits
import NachOS.VM.Queues
import NachOS.VM.LeastUsed
import NachOS.NoVM.Construction
import NachOS.Filesys.DirectoryMap
import NachOS.Filesys.CreateRemove
import NachOS.Filesys.ByteArray
import NachOS.Threads.Destroy
import NachOS.Userprog.Sockets
import NachOS.Userprog.SystemCallTheorems
import NachOS.Filesys.SynchDisk
import NachOS.Lib.DoubleWords
import NachOS.Machine.Multiply
import NachOS.Machine.IntegerInstructions
import NachOS.Machine.RegisterFile
import NachOS.Machine.TranslationModes
import NachOS.Lib.Chains
import NachOS.Lib.KeyedQueue
import NachOS.Threads.Lists
import NachOS.Machine.Interrupt
import NachOS.Machine.Console
import NachOS.Userprog.BitMapWords
import NachOS.VM.SecondChance
import NachOS.Machine.DiskLatency
import NachOS.Threads.DiningPh
import NachOS.Network.Packets
import NachOS.Network.PostOffice
import NachOS.Network.Delivery
import NachOS.Lib.FileStore
import NachOS.Filesys.OpenFiles
import NachOS.Machine.Devices
import NachOS.Machine.DeviceInterrupts
import NachOS.Lib.Turns
import NachOS.Machine.Lockstep
import NachOS.Machine.UserProcess
import NachOS.NoVM.TimeSharing
import NachOS.Bin.Programs
import NachOS.NoVM.Exec
import NachOS.NoVM.Multiprogramming
import NachOS.Network.Sending
import NachOS.Network.Machines
import NachOS.Network.MailTest
import NachOS.Threads.Levels
import NachOS.Lib.Costs
import NachOS.Threads.Work
import NachOS.Threads.Notifications
import NachOS.Userprog.ConsoleTest
