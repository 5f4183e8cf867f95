import NaiLongKernel.Memory.Mapping
import NaiLongKernel.Task.Lifecycle

/-!
# The operations of the task manager

All public operations as one type, so that runs of any number of cores can be written
down. A new task is allocated by the caller of `AddTask`, and `Wait` is one pass. The
page directories that tasks come with are set up in between: a page is allocated and
cleared, and `MapPage` and its like are called on a directory.
-/
namespace NaiLongKernel.Task

open Foundation Memory Locking

inductive SysOp where
  | initCurrentCore (c : CoreId) (idleTask : Ptr)
  | addTask (c : CoreId) (task : Ptr) (block : TaskControlBlock)
  | clone (c : CoreId) (flags : BitVec 64) (child : Option Ptr)
  | schedule (c : CoreId)
  | tickUpdate (c : CoreId)
  | sleep (c : CoreId) (ms : BitVec 64)
  | block (c : CoreId) (r : ResourceId)
  | wakeup (c : CoreId) (r : ResourceId)
  | exit (c : CoreId) (exitCode : BitVec 32)
  | wait (c : CoreId) (pid : Pid) (noHang untraced : Bool) (order : List (Pid × Ptr))
  | findTask (c : CoreId) (pid : Pid)
  | allocPage (c : CoreId)
  | vmCall (c : CoreId) (pageDir : Addr) (call : VmCall)

namespace SysOp

/-- The core that executes the operation. -/
def core : SysOp → CoreId
  | initCurrentCore c _ => c
  | addTask c _ _ => c
  | clone c _ _ => c
  | schedule c => c
  | tickUpdate c => c
  | sleep c _ => c
  | block c _ => c
  | wakeup c _ => c
  | exit c _ => c
  | wait c _ _ _ _ => c
  | findTask c _ => c
  | allocPage c => c
  | vmCall c _ _ => c

variable (P : Platform) {M : Type → Type} [Monad M] [Locking M]

def exec : SysOp → M Unit
  | initCurrentCore c idleTask => Task.initCurrentCore c idleTask
  | addTask c task t => do
    run (modify (Kernel.setTask task t))
    Task.addTask P c task
  | clone c flags child => do
    let _ ← Task.clone P c flags child
  | schedule c => Task.schedule c
  | tickUpdate c => Task.tickUpdate P c
  | sleep c ms => Task.sleep P c ms
  | block c r => Task.block c r
  | wakeup c r => Task.wakeup c r
  | exit c exitCode => Task.exit c exitCode
  | wait c pid noHang untraced order => do
    let _ ← waitPass c pid noHang untraced order
  | findTask _ pid => do
    let _ ← Task.findTask pid
  | allocPage _ => run do
    let _ ← runVm (allocTable P.allocator)
  | vmCall _ pageDir call => run do
    let _ ← runVm (call.exec P.allocator pageDir)

end SysOp

end NaiLongKernel.Task
