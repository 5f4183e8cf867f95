import NaiLongKernel.Foundation.Outcome
import NaiLongKernel.Foundation.PriorityHeap
import NaiLongKernel.Memory.VirtualMemory
import NaiLongKernel.Task.Scheduler

/-!
# The state of the task manager

Control blocks live in a heap; everything else refers to them by pointer. A program
on this state reads and writes through the pointers, so that the use of a deleted
control block and a second `delete` are faults of their own. Each `delete` is
recorded with the state of the cores at that moment.

The operations are written over a monad `M` that runs such programs and takes locks.
In `KernelM` every lock is granted.
-/
namespace NaiLongKernel.Task

open Foundation Memory

inductive LockId where
  | sched (core : CoreId)
  | taskTable
  | kernelLog
deriving DecidableEq, Repr

/-- Why a core never returns from an operation. -/
inductive Fault where
  | assertFailed (message : String)
  /-- `LockGuard` could not take the lock and loops. -/
  | lockHang (lock : LockId)
  /-- The lock is held by another core that does not run. -/
  | spinning (lock : LockId)
  /-- A search loop does not end. -/
  | diverges
  /-- `Schedule` found nothing to run. -/
  | parked
  | useAfterFree (task : Ptr)
  | doubleDelete (task : Ptr)
deriving DecidableEq, Repr

structure CpuSchedData where
  schedulers : SchedPolicy → Option Scheduler := fun _ => none
  sleepingTasks : List Ptr := []
  blockedTasks : ResourceId → Option (List Ptr) := fun _ => none
  localTick : BitVec 64 := 0
  idleTime : BitVec 64 := 0
  totalSchedules : BitVec 64 := 0

structure PerCpu where
  runningTask : Option Ptr := none
  idleTask : Option Ptr := none
deriving DecidableEq, Repr

/-- A `delete`, with the state of the cores when it happened. -/
structure Deletion where
  task : Ptr
  perCpu : CoreId → PerCpu
  cpuSchedulers : CoreId → CpuSchedData

structure Kernel where
  tasks : Ptr → Option TaskControlBlock := fun _ => none
  cpuSchedulers : CoreId → CpuSchedData := fun _ => {}
  perCpu : CoreId → PerCpu := fun _ => {}
  /-- The entries of `task_table_`, by pid. -/
  taskTable : List (Pid × Ptr) := []
  pidAllocator : BitVec 64 := 1
  bootDone : Bool := false
  vm : Vm := ⟨fun _ _ => 0, [], 0, [], []⟩
  deletions : List Deletion := []

/-- What the task manager is built with. -/
structure Platform where
  heap : HeapAlgorithms Ptr
  /-- `NAILONG_KERNEL_TICK`, in Hz. -/
  tick : BitVec 64
  tick_pos : tick ≠ 0
  /-- `NAILONG_KERNEL_MAX_CORE_COUNT`. -/
  maxCoreCount : ℕ
  allocator : Allocator
  /-- Whether the status assertion of `AddTask` is made. -/
  checkStatus : Bool

/-- The values of the build presets. -/
def presetPlatform (checkStatus : Bool) : Platform where
  heap := sortingHeap Ptr
  tick := 1000
  tick_pos := by decide
  maxCoreCount := 4
  allocator := pageSequence
  checkStatus := checkStatus

abbrev KernelM := EStateM Fault Kernel

namespace Kernel

def setTask (p : Ptr) (t : TaskControlBlock) (k : Kernel) : Kernel :=
  { k with tasks := Function.update k.tasks p (some t) }

def setSched (c : CoreId) (d : CpuSchedData) (k : Kernel) : Kernel :=
  { k with cpuSchedulers := Function.update k.cpuSchedulers c d }

def setCpu (c : CoreId) (d : PerCpu) (k : Kernel) : Kernel :=
  { k with perCpu := Function.update k.perCpu c d }

def running (k : Kernel) (c : CoreId) : Option Ptr := (k.perCpu c).runningTask

def idle (k : Kernel) (c : CoreId) : Option Ptr := (k.perCpu c).idleTask

/-- The order of `sleeping_tasks`: `WakeTickCompare`. -/
def wakeTick (k : Kernel) (p : Ptr) : BitVec 64 :=
  match k.tasks p with
  | some t => t.schedInfo.wakeTick
  | none => 0

def wakesLater (k : Kernel) (a b : Ptr) : Bool := decide (k.wakeTick b < k.wakeTick a)

def lookup (k : Kernel) (pid : Pid) : Option Ptr := (k.taskTable.find? (·.1 == pid)).map (·.2)

end Kernel

/-- `task_table_[pid] = task`. -/
def tableSet (pid : Pid) (task : Ptr) (table : List (Pid × Ptr)) : List (Pid × Ptr) :=
  table.filter (·.1 != pid) ++ [(pid, task)]

def tableErase (pid : Pid) (table : List (Pid × Ptr)) : List (Pid × Ptr) :=
  table.filter (·.1 != pid)

def readTask (p : Ptr) : KernelM TaskControlBlock := fun k =>
  match k.tasks p with
  | some t => .ok t k
  | none => .error (.useAfterFree p) k

def updateTask (p : Ptr) (f : TaskControlBlock → TaskControlBlock) : KernelM Unit := fun k =>
  match k.tasks p with
  | some t => .ok () (k.setTask p (f t))
  | none => .error (.useAfterFree p) k

def assertMsg (condition : Bool) (message : String) : KernelM Unit :=
  if condition then pure () else throw (.assertFailed message)

def modifySched (c : CoreId) (f : CpuSchedData → CpuSchedData) : KernelM Unit :=
  modify fun k => k.setSched c (f (k.cpuSchedulers c))

def CpuSchedData.setScheduler (policy : SchedPolicy) (s : Scheduler) (d : CpuSchedData) :
    CpuSchedData :=
  { d with schedulers := Function.update d.schedulers policy (some s) }

def CpuSchedData.setBlocked (r : ResourceId) (tasks : Option (List Ptr)) (d : CpuSchedData) :
    CpuSchedData :=
  { d with blockedTasks := Function.update d.blockedTasks r tasks }

/-- The current task, which must not be null. -/
def currentTask (c : CoreId) (message : String) : KernelM Ptr := do
  match (← get).running c with
  | some p => return p
  | none => throw (.assertFailed message)

/-- The current task, which must be running. -/
def runningTask (c : CoreId) (noTask notRunning : String) : KernelM Ptr := do
  let current ← currentTask c noTask
  let t ← readTask current
  assertMsg (t.status == .kRunning) notRunning
  return current

/-- What a scheduler does to the task, if it touches it. -/
def touchTask (p : Ptr) : Option (TaskControlBlock → TaskControlBlock) → KernelM Unit
  | some f => updateTask p f
  | none => pure ()

/-- `scheduler->Enqueue(task)` when the policy has a scheduler. -/
def enqueueTask (c : CoreId) (policy : SchedPolicy) (p : Ptr) : KernelM Unit := do
  match ((← get).cpuSchedulers c).schedulers policy with
  | none => pure ()
  | some s =>
    touchTask p s.onEnqueue
    modifySched c (·.setScheduler policy (s.enqueue p))

/-- Programs of the task manager, with the locks they take. -/
class Locking (M : Type → Type) where
  run : {α : Type} → KernelM α → M α
  /-- `SpinLock::Lock`, with whether it succeeded. -/
  lock : LockId → M Bool
  unlock : LockId → M Unit

instance : Locking KernelM where
  run x := x
  lock _ := pure true
  unlock _ := pure ()

section Locks

variable {M : Type → Type} [Monad M] [Locking M]

open Locking

/-- A block under a `LockGuard`, which loops when the lock fails. -/
def lockGuard {α : Type} (l : LockId) (body : M α) : M α := do
  if ← lock l then
    let a ← body
    unlock l
    return a
  else
    run (throw (.lockHang l))

/-- A message of the kernel log. -/
def klog : M Unit := lockGuard .kernelLog (pure ())

end Locks

section Granted

variable {α : Type}

@[simp] theorem run_kernelM (x : KernelM α) : (Locking.run x : KernelM α) = x := rfl

@[simp] theorem lock_kernelM (l : LockId) : (Locking.lock l : KernelM Bool) = pure true := rfl

@[simp] theorem unlock_kernelM (l : LockId) : (Locking.unlock l : KernelM Unit) = pure () := rfl

@[simp] theorem lockGuard_kernelM (l : LockId) (body : KernelM α) : lockGuard l body = body := by
  simp [lockGuard]

@[simp] theorem klog_kernelM : (klog : KernelM Unit) = pure () := lockGuard_kernelM _ _

end Granted

section Rules

variable {k : Kernel} {p : Ptr} {t : TaskControlBlock} {E : Fault → Kernel → Prop}

theorem readTask_eq (h : k.tasks p = some t) : readTask p k = .ok t k := by simp [readTask, h]

theorem updateTask_eq (h : k.tasks p = some t) (f : TaskControlBlock → TaskControlBlock) :
    updateTask p f k = .ok () (k.setTask p (f t)) := by simp [updateTask, h]

theorem wp_readTask {Q : TaskControlBlock → Kernel → Prop} (h : k.tasks p = some t) :
    wp (readTask p) Q E k ↔ Q t k := wp_of_ok (readTask_eq h)

theorem wp_readTask_none {Q : TaskControlBlock → Kernel → Prop} (h : k.tasks p = none) :
    wp (readTask p) Q E k ↔ E (.useAfterFree p) k :=
  wp_of_error (by simp [readTask, h])

theorem wp_updateTask {Q : Unit → Kernel → Prop} {f : TaskControlBlock → TaskControlBlock}
    (h : k.tasks p = some t) : wp (updateTask p f) Q E k ↔ Q () (k.setTask p (f t)) :=
  wp_of_ok (updateTask_eq h f)

theorem wp_updateTask_none {Q : Unit → Kernel → Prop} {f : TaskControlBlock → TaskControlBlock}
    (h : k.tasks p = none) : wp (updateTask p f) Q E k ↔ E (.useAfterFree p) k :=
  wp_of_error (by simp [updateTask, h])

theorem wp_assertMsg {Q : Unit → Kernel → Prop} {b : Bool} {message : String} :
    wp (assertMsg b message) Q E k ↔ if b then Q () k else E (.assertFailed message) k := by
  simp [assertMsg]

theorem wp_modifySched {Q : Unit → Kernel → Prop} {c : CoreId} {f : CpuSchedData → CpuSchedData} :
    wp (modifySched c f) Q E k ↔ Q () (k.setSched c (f (k.cpuSchedulers c))) := wp_modify _ _

theorem wp_currentTask {Q : Ptr → Kernel → Prop} {c : CoreId} {message : String} :
    wp (currentTask c message) Q E k ↔
      match k.running c with
      | some p => Q p k
      | none => E (.assertFailed message) k := by
  simp only [currentTask, wp_bind, wp_get]
  cases k.running c with
  | none => exact wp_throw _
  | some p => exact wp_pure _

end Rules

section Fields

variable (k : Kernel) (p : Ptr) (t : TaskControlBlock) (c : CoreId) (d : CpuSchedData) (u : PerCpu)

namespace Kernel

@[simp] theorem tasks_setTask_self : (k.setTask p t).tasks p = some t := Function.update_self _ _ _

theorem tasks_setTask_ne {q : Ptr} (h : q ≠ p) : (k.setTask p t).tasks q = k.tasks q :=
  Function.update_of_ne h _ _

@[simp] theorem cpuSchedulers_setTask : (k.setTask p t).cpuSchedulers = k.cpuSchedulers := rfl

@[simp] theorem perCpu_setTask : (k.setTask p t).perCpu = k.perCpu := rfl

@[simp] theorem running_setTask : (k.setTask p t).running = k.running := rfl

@[simp] theorem idle_setTask : (k.setTask p t).idle = k.idle := rfl

@[simp] theorem tasks_setSched : (k.setSched c d).tasks = k.tasks := rfl

@[simp] theorem cpuSchedulers_setSched_self : (k.setSched c d).cpuSchedulers c = d :=
  Function.update_self _ _ _

theorem cpuSchedulers_setSched_ne {c' : CoreId} (h : c' ≠ c) :
    (k.setSched c d).cpuSchedulers c' = k.cpuSchedulers c' := Function.update_of_ne h _ _

@[simp] theorem running_setSched : (k.setSched c d).running = k.running := rfl

@[simp] theorem idle_setSched : (k.setSched c d).idle = k.idle := rfl

@[simp] theorem wakesLater_setSched : (k.setSched c d).wakesLater = k.wakesLater := rfl

@[simp] theorem tasks_setCpu : (k.setCpu c u).tasks = k.tasks := rfl

@[simp] theorem cpuSchedulers_setCpu : (k.setCpu c u).cpuSchedulers = k.cpuSchedulers := rfl

@[simp] theorem running_setCpu_self : (k.setCpu c u).running c = u.runningTask := by
  simp [running, setCpu]

theorem running_setCpu_ne {c' : CoreId} (h : c' ≠ c) : (k.setCpu c u).running c' = k.running c' := by
  simp [running, setCpu, h]

@[simp] theorem idle_setCpu_self : (k.setCpu c u).idle c = u.idleTask := by
  simp [idle, setCpu]

theorem idle_setCpu_ne {c' : CoreId} (h : c' ≠ c) : (k.setCpu c u).idle c' = k.idle c' := by
  simp [idle, setCpu, h]

end Kernel

@[simp] theorem schedulers_setScheduler_self (policy : SchedPolicy) (s : Scheduler) :
    (d.setScheduler policy s).schedulers policy = some s := Function.update_self _ _ _

theorem schedulers_setScheduler_ne {policy policy' : SchedPolicy} (s : Scheduler)
    (h : policy' ≠ policy) : (d.setScheduler policy s).schedulers policy' = d.schedulers policy' :=
  Function.update_of_ne h _ _

@[simp] theorem blockedTasks_setBlocked_self (r : ResourceId) (l : Option (List Ptr)) :
    (d.setBlocked r l).blockedTasks r = l := Function.update_self _ _ _

theorem blockedTasks_setBlocked_ne {r r' : ResourceId} (l : Option (List Ptr)) (h : r' ≠ r) :
    (d.setBlocked r l).blockedTasks r' = d.blockedTasks r' := Function.update_of_ne h _ _

end Fields

/-- A block that is there comes from one that was, when blocks stay and none is new. -/
theorem exists_before {o o' : Option TaskControlBlock}
    {R : TaskControlBlock → TaskControlBlock → Prop}
    (hsame : ∀ u, o = some u → ∃ u', o' = some u' ∧ R u u') (hfree : o = none → o' = none)
    {u' : TaskControlBlock} (hu' : o' = some u') : ∃ u, o = some u ∧ R u u' := by
  cases o with
  | none => cases (hfree rfl).symm.trans hu'
  | some u =>
    obtain ⟨v, hv, hR⟩ := hsame u rfl
    obtain rfl := Option.mem_unique hu' hv
    exact ⟨u, rfl, hR⟩

end NaiLongKernel.Task
