import Xv6.LogCrash
import Xv6.LogAdmission
import Xv6.SysfileCore
import Xv6.SmallPersist
import Xv6.SmallFree
import Xv6.WriteReservation
import Xv6.RefCounts
import Xv6.DirMap
import Xv6.InodeCache
import Xv6.Kinds
import Xv6.LinkCounts
import Xv6.LinkFailure
import Xv6.PipeSleep
import Xv6.ProcKill
import Xv6.VmIsolated
import Xv6.VmLife
import Xv6.Resolve
import Xv6.VmCopyout
import Xv6.FileCount
import Xv6.Balance
import Xv6.SharedWrite
import Xv6.Lifetime
import Xv6.WaitSleep
import Xv6.SleepLock
import Xv6.SchedExclusion
import Xv6.SyscallCount
import Xv6.ConsoleInput
import Xv6.BufferList
import Xv6.HeapRuns
import Xv6.Arguments
import Xv6.OpenFailure
import Xv6.SmallAlike
import Xv6.HeapWords
import Xv6.DiskQueue
import Xv6.Mp
import Xv6.InodeTable
import Xv6.Allocator
import Xv6.Grep
import Xv6.VmMappages
import Xv6.Memmove
import Xv6.LogHistory
import Xv6.SpinLock
import Xv6.VmBoot
