import RtThread.Mem.PoolBlocks
import RtThread.Mem.Accounting
import RtThread.Memheap.HeapsRun
import RtThread.Slab.HeapRun
import RtThread.Slab.LockBalance
import RtThread.Kernel.Dispatch
import RtThread.Kernel.Udelay
import RtThread.KService.Memory
import RtThread.KService.Strings
import RtThread.KService.Numerals
import RtThread.KService.MallocAlign
import RtThread.Ipc.PrioOrder
import RtThread.Ipc.MutexOwner
import RtThread.Ipc.SemaphoreTokens
import RtThread.Ipc.MailboxWakeup
import RtThread.Ipc.EventRun
import RtThread.Ipc.MessageQueueDeque
import RtThread.Ipc.Mempool
import RtThread.Timer.Firing
import RtThread.Timer.Soft
import RtThread.Dfs.FdRun
import RtThread.Dfs.FileCalls
import RtThread.Dfs.Poll
import RtThread.Drivers.Spi
import RtThread.Drivers.Uart
import RtThread.Drivers.Ethernet
import RtThread.Finsh.StackDiscipline
import RtThread.Finsh.Evaluation
import RtThread.Finsh.Escapes
import RtThread.Finsh.Parentheses
import RtThread.Finsh.ShellInput
import RtThread.Finsh.Symbols
import RtThread.Drivers.Completion
import RtThread.Drivers.SerialDmaRx
import RtThread.Drivers.SerialDmaTx
import RtThread.Drivers.SerialOpen
import RtThread.Littlefs.Flash
import RtThread.Rtc
