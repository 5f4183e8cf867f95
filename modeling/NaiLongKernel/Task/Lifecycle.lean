import NaiLongKernel.Task.Manager

/-!
# Creation and end of tasks

`Clone`, `Exit`, `Wait`, the reaping of tasks and the thread-group lists they keep.
`Wait` is one pass of its loop: it returns or blocks, and starts again when woken.
The order in which it walks the task table is an argument.
-/
namespace NaiLongKernel.Task

open Foundation Memory Locking

variable (P : Platform)

/-- A write through a pointer that may be null. -/
def updateIf (p : Option Ptr) (f : TaskControlBlock → TaskControlBlock) : KernelM Unit :=
  match p with
  | some q => updateTask q f
  | none => pure ()

/-- `child->JoinThreadGroup(leader)`. -/
def joinThreadGroup (child leader : Ptr) : KernelM Unit := do
  if leader = child then
    return
  let l ← readTask leader
  updateTask child fun t => { t with tgid := l.tgid }
  if l.threadGroupNext.isSome then
    updateTask child fun t => { t with threadGroupNext := l.threadGroupNext }
    updateIf l.threadGroupNext fun t => { t with threadGroupPrev := some child }
  updateTask leader fun t => { t with threadGroupNext := some child }
  updateTask child fun t => { t with threadGroupPrev := some leader }

def leaveThreadGroup (p : Ptr) : KernelM Unit := do
  let t ← readTask p
  updateIf t.threadGroupPrev fun u => { u with threadGroupNext := t.threadGroupNext }
  -- read again: the neighbour may be the task itself
  let t ← readTask p
  updateIf t.threadGroupNext fun u => { u with threadGroupPrev := t.threadGroupPrev }
  updateTask p fun t => { t with threadGroupPrev := none, threadGroupNext := none }

/-- What the destructor gives back: the kernel stack and the page table, whose pages
are freed unless it was shared when the task was cloned. -/
def releaseMemory (t : TaskControlBlock) (vm : Vm) : Vm :=
  let vm := match t.kernelStack with
    | some stack => vm.alignedFree stack false
    | none => vm
  match t.pageTable with
  | some root => destroyPageDirectory root (!CloneFlags.has t.cloneFlags CloneFlags.kCloneVm) vm
  | none => vm

/-- `delete task`. -/
def deleteTask (p : Ptr) : KernelM Unit := do
  match (← get).tasks p with
  | none => throw (.doubleDelete p)
  | some _ =>
    leaveThreadGroup p
    let t ← readTask p
    modify fun k => { k with
      vm := releaseMemory t k.vm
      tasks := Function.update k.tasks p none
      deletions := ⟨p, k.perCpu, k.cpuSchedulers⟩ :: k.deletions }

/-- Whether a child matches the pid argument of `Wait`; pids are unsigned, so every
value other than 0 and -1 is a pid. -/
def pidMatches (pid : Pid) (current task : TaskControlBlock) : Bool :=
  let isChild := task.parentPid == current.pid
  if pid = -1 then isChild
  else if pid = 0 then isChild && task.pgid == current.pgid
  else isChild && task.pid == pid

def isDead (t : TaskControlBlock) : Bool := t.status == .kZombie || t.status == .kExited

theorem isDead_eq_false_iff {t : TaskControlBlock} :
    isDead t = false ↔ t.status ≠ .kZombie ∧ t.status ≠ .kExited := by
  simp [isDead]

theorem isDead_of_running {t : TaskControlBlock} (h : t.status = .kRunning) : isDead t = false := by
  simp [isDead_eq_false_iff, h]

theorem isDead_of_ready {t : TaskControlBlock} (h : t.status = .kReady) : isDead t = false := by
  simp [isDead_eq_false_iff, h]

/-- What one walk over the task table finds. -/
inductive WaitScan where
  | exited (task : Ptr)
  | stopped (pid : Pid)
  | nothing
deriving DecidableEq, Repr

def scanChildren (pid : Pid) (untraced : Bool) (current : Ptr) :
    List (Pid × Ptr) → KernelM WaitScan
  | [] => return .nothing
  | (_, task) :: rest => do
    let t ← readTask task
    if pidMatches pid (← readTask current) t then
      if isDead t then
        return .exited task
      if untraced && t.status == .kBlocked then
        return .stopped t.pid
    scanChildren pid untraced current rest

/-- How a pass of `Wait` ends. -/
inductive WaitResult where
  | reaped (pid : Pid) (exitCode : BitVec 32)
  | stopped (pid : Pid)
  /-- Nothing to report and `no_hang` is set. -/
  | noChange
  /-- The caller has blocked. -/
  | blocked
deriving DecidableEq, Repr

def kInitPid : Pid := 1

/-- Missing flags that a thread needs are added. -/
def completeFlags (flags : BitVec 64) : BitVec 64 :=
  open CloneFlags in
  if has flags kCloneThread && (!has flags kCloneVm || !has flags kCloneFiles ||
      !has flags kCloneSighand) then
    flags ||| (kCloneVm ||| kCloneFiles ||| kCloneSighand)
  else flags

def childBlock (flags : BitVec 64) (newPid : Pid) (parent : TaskControlBlock) :
    TaskControlBlock :=
  { pid := newPid
    name := parent.name
    status := .kReady
    policy := parent.policy
    schedInfo := parent.schedInfo
    parentPid := if CloneFlags.has flags CloneFlags.kCloneParent then parent.parentPid
      else parent.pid
    tgid := if CloneFlags.has flags CloneFlags.kCloneThread then parent.tgid else newPid
    pgid := parent.pgid
    sid := parent.sid
    cloneFlags := flags }

/-- A program of the memory manager as a step of the kernel: an error code is a value. -/
def runVm {α : Type} (x : VmM α) : KernelM (Except ErrorCode α) := fun k =>
  match x k.vm with
  | .ok a vm => .ok (.ok a) { k with vm := vm }
  | .error (.unexpected code) vm => .ok (.error code) { k with vm := vm }
  | .error (.assertFailed message) vm => .error (.assertFailed message) { k with vm := vm }

/-- The page table of the child: the parent's, a clone of it, or none. -/
def childPageTable (flags : BitVec 64) (parent : TaskControlBlock) :
    VmM (Option Addr) := do
  if CloneFlags.has flags CloneFlags.kCloneVm then
    return parent.pageTable
  else
    match parent.pageTable with
    | some root => return some (← clonePageDirectory P.allocator root true)
    | none => return none

section Operations

variable {M : Type → Type} [Monad M] [Locking M]

def destroyTask (p : Ptr) : M Unit := do
  run (deleteTask p)
  klog

def reapTask (p : Ptr) : M Unit := do
  let t ← run (readTask p)
  if isDead t then
    lockGuard .taskTable
      (run (modify fun k => { k with taskTable := tableErase t.pid k.taskTable }))
    destroyTask p
    -- the message prints the pid of the deleted task
    let _ ← run (readTask p)
    klog
  else
    klog

def reparent (parent : Pid) : List (Pid × Ptr) → M Unit
  | [] => pure ()
  | (_, task) :: rest => do
    let t ← run (readTask task)
    if t.parentPid = parent then
      run (updateTask task fun t => { t with parentPid := kInitPid })
      klog
    -- the loop compares with the parent's pid, which it does not change
    reparent parent rest

def reparentChildren (parent : Ptr) : M Unit := do
  let t ← run (readTask parent)
  let table ← run (do return (← get).taskTable)
  lockGuard .taskTable (reparent t.pid table)

/-- The part of `Exit` about the thread group and the children of the task. -/
def leaveFamily (current : Ptr) : M Unit := do
  let t ← run (readTask current)
  (if t.isThreadGroupLeader && t.hasOtherThreads then klog else pure ())
  run (leaveThreadGroup current)
  (if t.isThreadGroupLeader then reparentChildren current else pure ())

/-- The part of `Exit` about the parent: the task waits for it as a zombie, and without a
parent is reaped at once. -/
def settleExit (c : CoreId) (current : Ptr) : M Unit := do
  let parentPid := (← run (readTask current)).parentPid
  if parentPid ≠ 0 then
    run (updateTask current (·.setStatus .kZombie))
    wakeup c (ResourceId.make .kChildExit parentPid)
    klog
  else
    run (updateTask current (·.setStatus .kExited))
    reapTask current

def exit (c : CoreId) (exitCode : BitVec 32) : M Unit := do
  let current ← run (runningTask c "Exit: No current task to exit"
    "Exit: current task status must be kRunning")
  lockGuard (.sched c) do
    run (updateTask current fun t => { t with exitCode := exitCode })
    leaveFamily current
    settleExit c current
  -- control does not come back to the task
  schedule c

/-- The part of `Wait` after the scan has found an ended child. -/
def reapChild (current target : Ptr) : M WaitResult := do
  let t ← run (readTask target)
  let parent ← run (readTask current)
  run (assertMsg (isDead t) "Wait: target task must be kZombie or kExited")
  run (assertMsg (t.parentPid == parent.pid) "Wait: target parent_pid must match current pid")
  lockGuard .taskTable (run do
    assertMsg ((← get).lookup t.pid).isSome "Wait: target must exist in task_table"
    modify fun k => { k with taskTable := tableErase t.pid k.taskTable })
  destroyTask target
  klog
  return .reaped t.pid t.exitCode

def waitPass (c : CoreId) (pid : Pid) (noHang untraced : Bool) (order : List (Pid × Ptr)) :
    M WaitResult := do
  let current ← run (runningTask c "Wait: No current task"
    "Wait: current task status must be kRunning")
  match ← lockGuard .taskTable (run (scanChildren pid untraced current order)) with
  | .stopped child => return .stopped child
  | .exited target => reapChild current target
  | .nothing =>
    if noHang then
      return .noChange
    else
      let parent ← run (readTask current)
      block c (ResourceId.make .kChildExit parent.pid)
      return .blocked

def findTask (pid : Pid) : M (Option Ptr) :=
  lockGuard .taskTable (run (do return (← get).lookup pid))

def joinParentGroup (child parent : Ptr) : M Unit := do
  let t ← run (readTask parent)
  if t.isThreadGroupLeader then
    run (joinThreadGroup child parent)
  else
    match ← findTask t.tgid with
    | some leader => run (joinThreadGroup child leader)
    | none =>
      klog
      run (updateTask child fun u => { u with tgid := t.tgid })

/-- The end of `Clone`: the child is entered in the task table and added. -/
def publishChild (c : CoreId) (newPid : Pid) (child : Ptr) : M (Except ErrorCode Pid) := do
  lockGuard .taskTable (run do
    assertMsg ((← get).lookup newPid).isNone "Clone: new_pid must not exist in task_table"
    modify fun k => { k with taskTable := tableSet newPid child k.taskTable })
  addTask P c child
  klog
  return .ok newPid

/-- The end of a `Clone` that got no kernel stack. -/
def abandonChild (flags : BitVec 64) (pageTable : Option Addr) (child : Ptr) :
    M (Except ErrorCode Pid) := do
  klog
  run (modify fun k => match pageTable with
    | some root =>
      if CloneFlags.has flags CloneFlags.kCloneVm then k
      else { k with vm := destroyPageDirectory root false k.vm }
    | none => k)
  destroyTask child
  return .error .kTaskKernelStackAllocationFailed

/-- `Clone` once the child exists: its memory, then its publication. -/
def cloneChild (c : CoreId) (flags : BitVec 64) (newPid : Pid) (parent child : Ptr) :
    M (Except ErrorCode Pid) := do
  let t ← run (readTask parent)
  match ← run (runVm (childPageTable P flags t)) with
  | .error _ =>
    klog
    destroyTask child
    return .error .kTaskPageTableCloneFailed
  | .ok pageTable =>
    run (updateTask child fun u => { u with pageTable := pageTable })
    klog
    match ← run (runVm (alignedAlloc P.allocator)) with
    | .ok (some stack) =>
      run (updateTask child fun u => { u with kernelStack := some stack })
      publishChild P c newPid child
    | _ => abandonChild flags pageTable child

/-- `Clone` with the new control block at `child`, or none when `new` fails. -/
def clone (c : CoreId) (flags : BitVec 64) (child : Option Ptr) : M (Except ErrorCode Pid) := do
  match ← run (do return (← get).running c) with
  | none =>
    klog
    return .error .kTaskNoCurrentTask
  | some parent =>
    let flags' := completeFlags flags
    (if flags' ≠ flags then klog else pure ())
    let newPid ← run do
      let pid := (← get).pidAllocator
      modify fun k => { k with pidAllocator := k.pidAllocator + 1 }
      return pid
    if newPid = 0 then
      klog
      return .error .kTaskPidAllocationFailed
    else
      match child with
      | none =>
        klog
        return .error .kTaskAllocationFailed
      | some child =>
        let t ← run (readTask parent)
        run (modify (Kernel.setTask child (childBlock flags' newPid t)))
        (if CloneFlags.has flags' CloneFlags.kCloneThread then joinParentGroup child parent
          else pure ())
        -- files, signal handlers and file system are only logged
        klog
        cloneChild P c flags' newPid parent child

end Operations

end NaiLongKernel.Task
