import NaiLongKernel.Memory.Forest
import NaiLongKernel.Memory.OutOfPages
import NaiLongKernel.Task.LockDiscipline
import NaiLongKernel.Task.IdleSlot
import NaiLongKernel.Task.ThreadLinks
import NaiLongKernel.Task.Family
import NaiLongKernel.Task.Frames
import NaiLongKernel.Task.RoundRobin
import NaiLongKernel.Task.Alarms
import NaiLongKernel.Task.Affinity
import NaiLongKernel.Task.WaitLoop
import NaiLongKernel.Task.TickRefinement
import NaiLongKernel.Task.MutexWakeup
import NaiLongKernel.Task.QueueStatistics
import NaiLongKernel.Task.ElfLoader
import NaiLongKernel.Sync.SpinLock
import NaiLongKernel.Sync.InitGuard
import NaiLongKernel.Driver.ApicTimer
import NaiLongKernel.Driver.IoApic
import NaiLongKernel.Driver.GicFields
import NaiLongKernel.Driver.Plic
import NaiLongKernel.Arch.TimerInterrupt
import NaiLongKernel.Arch.SystemCalls
import NaiLongKernel.Container.MapMoves
import NaiLongKernel.Libcxx.AtExit
import NaiLongKernel.Libc.Strings
import NaiLongKernel.Libc.Strtod
import NaiLongKernel.Fdt.PropertyBounds
