import FudanOS.Library.Runs
import FudanOS.Library.LittleEndian
import FudanOS.Library.RedoLog
import FudanOS.Fs.Defines
import FudanOS.Fs.LogSections
import FudanOS.Fs.Eviction
import FudanOS.Fs.LogReservation
import FudanOS.Fs.LogArea
import FudanOS.Fs.BlockCache
import FudanOS.Fs.CacheRefinement
import FudanOS.Fs.LogCommit
import FudanOS.Fs.CacheClient
import FudanOS.Fs.BlockStore
import FudanOS.Fs.CrashAtomicity
import FudanOS.Fs.EndOpDurability
import FudanOS.Fs.ConcurrentCache
import FudanOS.Fs.CacheOwnership
import FudanOS.Kernel.Heap
import FudanOS.Kernel.HeapTiling
import FudanOS.Kernel.HeapSafety
import FudanOS.Fs.BlockExclusion
import FudanOS.Fs.ExclusiveBlocks
import FudanOS.Fs.BlockBitmap
import FudanOS.Fs.InodeLayout
import FudanOS.Fs.InodeLayer
import FudanOS.Library.Ownership
import FudanOS.Fs.BlockOwnership
import FudanOS.Fs.InodeSpecs
import FudanOS.Fs.FileContents
import FudanOS.Fs.FileSpecs
import FudanOS.Fs.Directory
import FudanOS.Fs.InodeTable
import FudanOS.Fs.InodeRuns
import FudanOS.Fs.ByteArrays
import FudanOS.Kernel.Sem
import FudanOS.Kernel.SemRuns
import FudanOS.Kernel.Sched
import FudanOS.Kernel.KillSafety
import FudanOS.Kernel.ProcTree
import FudanOS.Kernel.ProcTreeRuns
import FudanOS.Common.RbTree
import FudanOS.Common.RbStored
import FudanOS.Common.RbInsert
import FudanOS.Common.RbErase
import FudanOS.Common.RbRuns
import FudanOS.Fs.Names
import FudanOS.Kernel.SysFile
import FudanOS.Fs.InodeRefs
import FudanOS.Kernel.FileRefs
import FudanOS.Kernel.FileRuns
import FudanOS.Common.Queue
import FudanOS.Kernel.Pages
import FudanOS.Fs.Pipe
import FudanOS.Kernel.Console
import FudanOS.Kernel.ConsoleReaders
import FudanOS.Fs.InodeLifetime
import FudanOS.Aarch64.Mmu
import FudanOS.Kernel.PageTable
import FudanOS.User.Mkfs
import FudanOS.User.MkfsAppend
import FudanOS.User.MkfsImage
import FudanOS.User.MkfsHoles
import FudanOS.Kernel.ProcMemory
import FudanOS.Kernel.ProcPages
import FudanOS.Kernel.ProcMemoryRuns
import FudanOS.Fs.BitmapRuns
import FudanOS.Fs.DirectoryMap
import FudanOS.Driver.VirtioBlk
import FudanOS.Driver.VirtioRuns
import FudanOS.Fs.PathWalk
import FudanOS.Fs.InodeMemory
import FudanOS.Kernel.InodeAgreement
import FudanOS.Kernel.InodeAgreementRuns
import FudanOS.Fs.LruCache
import FudanOS.Kernel.Pids
import FudanOS.Kernel.PageBytes
import FudanOS.Kernel.PageShadow
import FudanOS.Kernel.StaleBytes
import FudanOS.Fs.PipeCalls
import FudanOS.Kernel.FileCalls
import FudanOS.Kernel.Writev
import FudanOS.Kernel.FileWrites
import FudanOS.Fs.InodeSizes
import FudanOS.Kernel.FileOffsets
import FudanOS.Kernel.Paging
import FudanOS.Kernel.Sbrk
import FudanOS.Kernel.PageFaults
import FudanOS.Kernel.Sections
import FudanOS.Kernel.UserWriteable
import FudanOS.Kernel.TableTree
import FudanOS.Kernel.FreePgdir
import FudanOS.Kernel.CopyOnWrite
import FudanOS.Common.Memmove
import FudanOS.Common.ListNodes
import FudanOS.Common.Format
import FudanOS.User.Shell
import FudanOS.User.ShellGrammar
import FudanOS.User.ShellTokens
import FudanOS.User.ShellParser
import FudanOS.Kernel.ConsoleKill
import FudanOS.Library.Views
import FudanOS.Kernel.UserMemory
import FudanOS.Kernel.Copyout
import FudanOS.Kernel.ExecStack
import FudanOS.Kernel.StackSize
import FudanOS.Kernel.ElfLoad
import FudanOS.Kernel.AddressSpaces
import FudanOS.Kernel.ForkCopy
import FudanOS.Kernel.Timers
