import NaiLongKernel.Task.Kernel

/-!
# Scheduling operations

`InitCurrentCore`, `AddTask`, `Schedule`, `TickUpdate`, `Sleep`, `Block` and `Wakeup`.
The part of an operation that runs under the lock of the core is a program on the
kernel state; the operation takes the locks around it. What `switch_to` does to the
saved contexts is left to the machine that models them: here it only touches the
two control blocks.
-/
namespace NaiLongKernel.Task

open Foundation Locking

variable (P : Platform)

/-- The control block that `InitCurrentCore` creates. -/
def idleTaskBlock : TaskControlBlock :=
  { name := "Idle", status := .kReady, policy := .kIdle
    schedInfo := { priority := 2147483647, basePriority := 2147483647 } }

/-- The schedulers of a core that `InitCurrentCore` makes. -/
def initSchedulers : SchedPolicy → Option Scheduler
  | .kRealTime => some (.fifo [] {})
  | .kNormal => some (.roundRobin [] {})
  | .kIdle => some (.idle none {})

/-- `InitCurrentCore` with the new idle task at `idleTask`. -/
def initBody (c : CoreId) (idleTask : Ptr) : KernelM Unit := do
  if (((← get).cpuSchedulers c).schedulers .kNormal).isNone then
    modifySched c fun d => { d with schedulers := initSchedulers }
  modify (Kernel.setTask idleTask idleTaskBlock)
  enqueueTask c .kIdle idleTask
  modify fun k => k.setCpu c { runningTask := some idleTask, idleTask := some idleTask }

/-- `current` is put back into its queue when it can still run. -/
def requeueCurrent (c : CoreId) (current : Ptr) : KernelM Unit := do
  let t ← readTask current
  if t.status = .kRunning then
    updateTask current (·.setStatus .kReady)
    match ((← get).cpuSchedulers c).schedulers t.policy with
    | none => pure ()
    | some s =>
      modifySched c (·.setScheduler t.policy s.onPreempted)
      touchTask current s.onExpired
      if s.onTimeSliceExpired then
        enqueueTask c t.policy current

/-- The inner loop of the search: picks until a ready task comes. Each pick from a
queue shortens it; an idle scheduler returns the same task again. -/
def searchQueue (c : CoreId) (policy : SchedPolicy) : (fuel : ℕ) → KernelM (Option Ptr)
  | 0 => throw .diverges
  | fuel+1 => do
    match ((← get).cpuSchedulers c).schedulers policy with
    | none => return none
    | some s =>
      if s.isEmpty then
        return none
      modifySched c (·.setScheduler policy s.pickNext.2)
      match s.pickNext.1 with
      | none => return none
      | some cand =>
        if (← readTask cand).status = .kReady then
          return some cand
        searchQueue c policy fuel

def searchPolicies (c : CoreId) : List SchedPolicy → KernelM (Option Ptr)
  | [] => return none
  | policy :: rest => do
    let fuel := match ((← get).cpuSchedulers c).schedulers policy with
      | some s => s.queue.length + 1
      | none => 1
    match ← searchQueue c policy fuel with
    | some next => return some next
    | none => searchPolicies c rest

/-- The next task: the first ready one by policy, then `current`, then the idle task. -/
def chooseNext (c : CoreId) (current : Ptr) : KernelM (Option Ptr) := do
  match ← searchPolicies c [.kRealTime, .kNormal, .kIdle] with
  | some next => return some next
  | none =>
    if (← readTask current).status = .kReady then
      return some current
    match (← get).idle c with
    | some idleTask =>
      updateTask idleTask (·.setStatus .kReady)
      return some idleTask
    | none =>
      modifySched c fun d => { d with idleTime := d.idleTime + 1 }
      return none

def leaveCurrent (c : CoreId) (current next : Ptr) : KernelM Ptr := do
  if current = next ∧ (← readTask current).status ≠ .kReady then
    match (← get).idle c with
    | some idleTask =>
      assertMsg (idleTask != current) "Schedule: need idle while current is not runnable"
      updateTask idleTask (·.setStatus .kReady)
      return idleTask
    | none => throw (.assertFailed "Schedule: need idle while current is not runnable")
  else
    return next

/-- `next` becomes the running task. -/
def dispatch (c : CoreId) (current next : Ptr) : KernelM Bool := do
  let mustLeave := (← readTask current).status != .kReady
  assertMsg ((← readTask next).status == .kReady) "Schedule: next task must be kReady"
  assertMsg (!mustLeave || current != next) "Schedule: must switch away from non-ready current"
  updateTask next fun t =>
    { t with
      status := .kRunning
      schedInfo := { t.schedInfo with
        timeSliceRemaining := t.schedInfo.timeSliceDefault
        contextSwitches := t.schedInfo.contextSwitches + 1 } }
  modifySched c fun d => { d with totalSchedules := d.totalSchedules + 1 }
  modify fun k => k.setCpu c { k.perCpu c with runningTask := some next }
  return mustLeave

/-- `Schedule` under the lock: the old and the new task and whether the old one cannot
run, or nothing when the core parks. -/
def scheduleBody (c : CoreId) : KernelM (Option (Ptr × Ptr × Bool)) := do
  let current ← currentTask c "Schedule: No current task to schedule"
  requeueCurrent c current
  match ← chooseNext c current with
  | none => return none
  | some next =>
    let next ← leaveCurrent c current next
    let mustLeave ← dispatch c current next
    return some (current, next, mustLeave)

/-- `Schedule` after the lock: the context of the boot code is saved once, aside. -/
def switchTask (current next : Ptr) (mustLeave : Bool) : KernelM Unit := do
  if (← get).bootDone then
    if current ≠ next then
      let _ ← readTask current
      let _ ← readTask next
    else
      assertMsg (!mustLeave) "Schedule: refused no-op while current was not runnable"
  else
    modify fun k => { k with bootDone := true }
    let _ ← readTask next

/-- The sleepers that are due become ready; with whether there were any. -/
def wakeSleepers (c : CoreId) : (fuel : ℕ) → KernelM Bool
  | 0 => throw .diverges
  | fuel+1 => do
    let k ← get
    match (k.cpuSchedulers c).sleepingTasks with
    | [] => return false
    | task :: _ =>
      let t ← readTask task
      if (k.cpuSchedulers c).localTick < t.schedInfo.wakeTick then
        return false
      modifySched c fun d => { d with
        sleepingTasks := P.heap.pop k.wakesLater d.sleepingTasks }
      updateTask task (·.setStatus .kReady)
      if k.running c ≠ some task then
        enqueueTask c t.policy task
      let _ ← wakeSleepers c fuel
      return true

/-- The running task is charged for the tick; with whether it must give way. -/
def chargeTick (c : CoreId) (needPreempt : Bool) : KernelM Bool := do
  match (← get).running c with
  | none => return needPreempt
  | some current =>
    if (← readTask current).status = .kRunning then
      updateTask current fun t =>
        { t with schedInfo := { t.schedInfo with
            totalRuntime := t.schedInfo.totalRuntime + 1
            timeSliceRemaining := if 0 < t.schedInfo.timeSliceRemaining
              then t.schedInfo.timeSliceRemaining - 1 else t.schedInfo.timeSliceRemaining } }
      let t ← readTask current
      let onTick := match ((← get).cpuSchedulers c).schedulers t.policy with
        | some s => s.onTick t
        | none => false
      return needPreempt || onTick || t.schedInfo.timeSliceRemaining == 0
    else
      return needPreempt

/-- `TickUpdate` under the lock, with whether to schedule. -/
def tickBody (c : CoreId) : KernelM Bool := do
  modifySched c fun d => { d with localTick := d.localTick + 1 }
  let needPreempt ← wakeSleepers P c (((← get).cpuSchedulers c).sleepingTasks.length + 1)
  chargeTick c needPreempt

/-- Milliseconds in ticks, rounded up in 64 bits, at least one. -/
def sleepTicks (ms : BitVec 64) : BitVec 64 :=
  let ticks := (ms * P.tick + 1000 - 1) / 1000
  if ticks = 0 then 1 else ticks

/-- `Sleep` under the lock. -/
def sleepBody (c : CoreId) (current : Ptr) (ms : BitVec 64) : KernelM Unit := do
  let wake := ((← get).cpuSchedulers c).localTick + sleepTicks P ms
  updateTask current (·.setWakeTick wake)
  let t ← readTask current
  match ((← get).cpuSchedulers c).schedulers t.policy with
  | some s => modifySched c (·.setScheduler t.policy (s.dequeue current))
  | none => pure ()
  updateTask current (·.setStatus .kSleeping)
  let k ← get
  modifySched c fun d => { d with
    sleepingTasks := P.heap.push k.wakesLater d.sleepingTasks current }

/-- `Block` under the lock. -/
def blockBody (c : CoreId) (current : Ptr) (r : ResourceId) : KernelM Unit := do
  updateTask current fun t => { t with status := .kBlocked, blockedOn := r }
  modifySched c fun d => d.setBlocked r (some ((d.blockedTasks r).getD [] ++ [current]))

/-- The loop of `Wakeup` over the tasks waiting on `r`. -/
def wakeAll (c : CoreId) (r : ResourceId) : List Ptr → KernelM Unit
  | [] => pure ()
  | task :: rest => do
    modifySched c (·.setBlocked r (some rest))
    let t ← readTask task
    assertMsg (t.status == .kBlocked) "Wakeup: task status must be kBlocked"
    assertMsg (t.blockedOn == r) "Wakeup: task blocked_on must match resource_id"
    updateTask task fun t => { t with status := .kReady, blockedOn := ⟨0⟩ }
    assertMsg (((← get).cpuSchedulers c).schedulers t.policy).isSome
      "Wakeup: scheduler must not be null"
    enqueueTask c t.policy task
    wakeAll c r rest

/-- `Wakeup` under the lock. -/
def wakeupBody (c : CoreId) (r : ResourceId) : KernelM Unit := do
  match ((← get).cpuSchedulers c).blockedTasks r with
  | none => pure ()
  | some waiting =>
    wakeAll c r waiting
    modifySched c (·.setBlocked r none)

/-- `AddTask` before the task table: the pid and the thread group. -/
def assignPid (p : Ptr) : KernelM Pid := do
  if (← readTask p).pid = 0 then
    let pid := (← get).pidAllocator
    modify fun k => { k with pidAllocator := k.pidAllocator + 1 }
    updateTask p fun t => { t with pid := pid }
  let pid := (← readTask p).pid
  if (← readTask p).tgid = 0 then
    updateTask p fun t => { t with tgid := pid }
  return pid

def targetCore (c : CoreId) (affinity : BitVec 64) : CoreId :=
  if affinity = BitVec.allOnes 64 then c
  else ((List.range P.maxCoreCount).find? (fun i => affinity &&& (1#64 <<< i) != 0)).getD c

section Operations

variable {M : Type → Type} [Monad M] [Locking M]

def initCurrentCore (c : CoreId) (idleTask : Ptr) : M Unit :=
  lockGuard (.sched c) (run (initBody c idleTask))

def schedule (c : CoreId) : M Unit := do
  let _ ← lock (.sched c)
  match ← run (scheduleBody c) with
  | none =>
    unlock (.sched c)
    run (throw .parked)
  | some (current, next, mustLeave) =>
    unlock (.sched c)
    run (switchTask current next mustLeave)

def tickUpdate (c : CoreId) : M Unit := do
  if ← lockGuard (.sched c) (run (tickBody P c)) then
    schedule c

def sleep (c : CoreId) (ms : BitVec 64) : M Unit := do
  let current ← run (runningTask c "Sleep: No current task to sleep"
    "Sleep: current task status must be kRunning")
  if ms = 0 then
    schedule c
  else
    lockGuard (.sched c) (run (sleepBody P c current ms))
    schedule c

def block (c : CoreId) (r : ResourceId) : M Unit := do
  let current ← run (runningTask c "Block: No current task to block"
    "Block: current task status must be kRunning")
  lockGuard (.sched c) do
    run (blockBody c current r)
    klog
  schedule c

def wakeup (c : CoreId) (r : ResourceId) : M Unit :=
  lockGuard (.sched c) do
    run (wakeupBody c r)
    klog

def addTask (c : CoreId) (task : Ptr) : M Unit := do
  (if P.checkStatus then
    run do assertMsg ((← readTask task).status == .kUnInit) "AddTask: task status must be kUnInit"
    else pure ())
  let pid ← run (assignPid task)
  lockGuard .taskTable (run (modify fun k => { k with taskTable := tableSet pid task k.taskTable }))
  run (updateTask task (·.setStatus .kReady))
  let t ← run (readTask task)
  let target := targetCore P c t.cpuAffinity
  let _ ← lock (.sched target)
  run (enqueueTask target t.policy task)
  unlock (.sched target)

end Operations

end NaiLongKernel.Task
