import UserOS.Fragment.Blocks
import UserOS.MyVm.Addresses
import UserOS.MyVm.AtomicPut
import UserOS.MyVm.Bitmaps
import UserOS.MyVm.Blocks
import UserOS.MyVm.Exhaustion
import UserOS.MyVm.FirstFit
import UserOS.MyVm.Locking
import UserOS.MyVm.Lru
import UserOS.MyVm.MatMult
import UserOS.MyVm.Release
import UserOS.MyVm.TlbList
import UserOS.Rufs.Creation
import UserOS.Rufs.Histories
import UserOS.Rufs.Indices
import UserOS.Rufs.Remount
import UserOS.Rufs.Removals
import UserOS.Rufs.SizeFields
import UserOS.Rufs.Sizes
import UserOS.Worker.Averages
import UserOS.Worker.Benchmarks
import UserOS.Worker.Boost
import UserOS.Worker.Join
import UserOS.Worker.JoinValue
import UserOS.Worker.MlfqOrder
import UserOS.Worker.Mutex
import UserOS.Worker.OneJoiner
import UserOS.Worker.Priorities
import UserOS.Worker.QueueList
import UserOS.Worker.RoundRobin
import UserOS.Worker.Threads
import UserOS.Worker.WaitLists
import UserOS.Worker.Wakeup
