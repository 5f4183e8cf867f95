import NaiLongKernel.Arch.SyscallClone
import NaiLongKernel.Task.ChildWait

/-!
# System calls

The dispatcher of the system calls on riscv64, for any number and any arguments, and the calls
that it makes. What `sys_write` prints is not kept, and the integers that a program shares with
the kernel are those at the TID pointers. Every call is at most one operation of the task
manager, so that programs reach no other states of the kernel; a futex is a resource to block on.
-/
namespace NaiLongKernel.Arch

open Foundation Memory NaiLongKernel.Task

def SYSCALL_WRITE : BitVec 64 := 64
def SYSCALL_EXIT : BitVec 64 := 93
def SYSCALL_YIELD : BitVec 64 := 124
def SYSCALL_GETTID : BitVec 64 := 178
def SYSCALL_SET_TID_ADDRESS : BitVec 64 := 96
def SYSCALL_FUTEX : BitVec 64 := 98

def FUTEX_WAIT : BitVec 32 := 0
def FUTEX_WAKE : BitVec 32 := 1

def futexId (uaddr : Addr) : ResourceId := ResourceId.make .kFutex uaddr

section Calls

variable (P : Platform) (c : CoreId)

def sysWrite (fd : BitVec 32) (len : BitVec 64) : BitVec 32 :=
  if fd = 1 ∨ fd = 2 then len.setWidth 32 else -1

def sysExit (code : BitVec 32) : TrapM (BitVec 32) := do
  -- the message prints the pid of the task
  let _ ← runKernel do readTask (← currentTask c "sys_exit: no current task")
  runKernel (exit c code)
  return 0

def sysYield : TrapM (BitVec 32) := do
  runKernel (schedule c)
  return 0

def sysGettid : TrapM (BitVec 32) := do
  match (← get).kernel.running c with
  | none => return -1
  | some current => return (← runKernel (readTask current)).pid.setWidth 32

/-- The pointer is not kept. -/
def sysSetTidAddress (_tidptr : Addr) : TrapM (BitVec 32) := sysGettid c

/-- The timeout, the second address and `val3` are not used; `FUTEX_REQUEUE` is refused like an
operation that does not exist. -/
def sysFutex (uaddr : Addr) (op val : BitVec 32) : TrapM (BitVec 32) := do
  if op &&& 0x7F = FUTEX_WAIT then
    if (← get).tid uaddr = val then
      runKernel (block c (futexId uaddr))
    return 0
  else if op &&& 0x7F = FUTEX_WAKE then
    runKernel (wakeup c (futexId uaddr))
    return val
  else
    return -1

def syscallDispatcher (child : Option Ptr) (id : BitVec 64) (args : Fin 6 → BitVec 64) :
    TrapM (BitVec 32) :=
  if id = SYSCALL_WRITE then return sysWrite ((args 0).setWidth 32) (args 2)
  else if id = SYSCALL_EXIT then sysExit c ((args 0).setWidth 32)
  else if id = SYSCALL_YIELD then sysYield c
  else if id = SYSCALL_CLONE then sysClone P c child ⟨args 0, args 1, args 2, args 3, args 4⟩
  else if id = SYSCALL_FORK then sysClone P c child {}
  else if id = SYSCALL_GETTID then sysGettid c
  else if id = SYSCALL_SET_TID_ADDRESS then sysSetTidAddress c (args 0)
  else if id = SYSCALL_FUTEX then sysFutex c (args 0) ((args 1).setWidth 32) ((args 2).setWidth 32)
  else return -1

end Calls

variable {P : Platform} {c : CoreId} {m m' : TrapMachine} {p : Ptr}

/-- The states that tasks which exit with care reach. -/
abbrev CarefulRun (P : Platform) : Kernel → Prop := SysRun P fun k op => op.Careful k

/-- Nothing has been done, or one operation of the task manager. -/
def AtMostOne (P : Platform) (k k' : Kernel) : Prop :=
  k' = k ∨ ∃ op : SysOp, op.Enabled k ∧ op.Careful k ∧ (op.exec P : KernelM Unit) k = .ok () k'

theorem CarefulRun.after {k k' : Kernel} (h : CarefulRun P k) (hone : AtMostOne P k k') :
    CarefulRun P k' := by
  rcases hone with rfl | ⟨op, hen, hcare, hexec⟩
  · exact h
  · exact h.step op hen hcare hexec

/-- The call, if it returns, is at most one operation. -/
abbrev Stays (P : Platform) {α : Type} (x : TrapM α) (m : TrapMachine) : Prop :=
  wp x (fun _ m' => AtMostOne P m.kernel m'.kernel) (fun _ _ => True) m

theorem stays_op {α : Type} {x : KernelM α} (op : SysOp)
    (hx : ∀ {k a k'}, x k = .ok a k' → (op.exec P : KernelM Unit) k = .ok () k')
    (hen : op.Enabled m.kernel) (hcare : op.Careful m.kernel) :
    Stays P (runKernel x) m := by
  rw [Stays, wp_runKernel]
  cases hk : x m.kernel with
  | ok a k => exact (wp_of_ok hk).mpr (Or.inr ⟨op, hen, hcare, hx hk⟩)
  | error e k => exact (wp_of_error hk).mpr trivial

theorem stays_sysClone {child : Option Ptr}
    (hchild : ∀ p, child = some p → m.kernel.tasks p = none) (args : CloneArgs) :
    Stays P (sysClone P c child args) m := by
  simp only [sysClone, cloneTask, wp_bind, wp_get]
  split
  · exact (wp_pure _).mpr (Or.inl rfl)
  · rw [wp_bind, wp_bind]
    refine (stays_op (P := P) (.clone c args.flags child) ?_ hchild trivial).imp ?_
    · intro k a k' hk
      simp [SysOp.exec, bind, EStateM.bind, hk]
      rfl
    · intro r m₁ h₁
      cases r with
      | error e => simpa using h₁
      | ok newPid =>
        cases child with
        | none => simpa using h₁
        | some p =>
          -- what follows writes frames and TIDs only
          simp only [wp_bind, wp_get]
          split <;> simp only [wp_bind, wp_modify, wp_pure] <;> exact h₁

theorem stays_sysFutex (hcaller : SysOp.Caller c m.kernel) (uaddr : Addr)
    (op val : BitVec 32) : Stays P (sysFutex c uaddr op val) m := by
  simp only [sysFutex, wp_ite, wp_bind, wp_get, wp_pure]
  split
  · split
    · exact stays_op (.block c _) id hcaller trivial
    · exact Or.inl rfl
  · split
    · exact stays_op (.wakeup c _) id trivial trivial
    · exact Or.inl rfl

/-- A system call with any number and arguments, made by a task that exits with care only, does
at most one operation of the task manager, and so leads to a state that operations reach. -/
theorem system_calls_stay_reachable {child : Option Ptr} {number : BitVec 64}
    {args : Fin 6 → BitVec 64} {r : BitVec 32} (h : CarefulRun P m.kernel) (hcaller : SysOp.Caller c m.kernel)
    (hchild : ∀ p, child = some p → m.kernel.tasks p = none)
    (hexit : number = SYSCALL_EXIT → (SysOp.exit c ((args 0).setWidth 32)).Careful m.kernel)
    (hcall : syscallDispatcher P c child number args m = .ok r m') :
    CarefulRun P m'.kernel ∧ AtMostOne P m.kernel m'.kernel := by
  suffices hwp : Stays P (syscallDispatcher P c child number args) m from
    ⟨h.after (hwp.of_ok hcall), hwp.of_ok hcall⟩
  have hgettid : Stays P (sysGettid c) m := by
    simp only [sysGettid, wp_bind, wp_get]
    split
    · exact (wp_pure _).mpr (Or.inl rfl)
    · rw [wp_bind, wp_runKernel]
      exact wp_readTask_tolerant fun _ _ => (wp_pure _).mpr (Or.inl rfl)
  obtain ⟨p, hrun, hidle⟩ := id hcaller
  rw [syscallDispatcher]
  split_ifs with h₁ h₂ h₃ h₄ h₅ h₆ h₇ h₈
  · exact (wp_pure _).mpr (Or.inl rfl)
  · rw [Stays, sysExit, wp_bind, wp_runKernel, wp_bind, wp_currentTask, hrun]
    refine wp_readTask_tolerant fun _ _ => ?_
    rw [wp_bind]
    exact (stays_op (.exit c _) id hcaller (hexit h₂)).imp fun _ _ hm => (wp_pure _).mpr hm
  · simp only [sysYield, wp_bind, wp_pure]
    exact stays_op (.schedule c) id ⟨p, hrun⟩ trivial
  · exact stays_sysClone hchild _
  · exact stays_sysClone hchild _
  · exact hgettid
  · exact hgettid
  · exact stays_sysFutex hcaller _ _ _
  · exact (wp_pure _).mpr (Or.inl rfl)

/-- The first task waits on the futex at 0. -/
theorem futex_wait_stays_reachable :
    ∃ k m',
      syscallDispatcher (presetPlatform true) 0 none SYSCALL_FUTEX (fun _ => 0) (calling k) = .ok 0 m' ∧
      CarefulRun (presetPlatform true) m'.kernel ∧ AtMostOne (presetPlatform true) k m'.kernel := by
  obtain ⟨k, hk, hcaller, hwp⟩ := SysRun.exists_careful (P := presetPlatform true) firstTask
    (S := fun k => SysOp.Caller 0 k ∧
      wp (syscallDispatcher (presetPlatform true) 0 none SYSCALL_FUTEX fun _ => 0)
        (fun r _ => r = 0) (fun _ _ => False) (calling k)) (by decide +kernel)
  obtain ⟨_, m', hcall, rfl⟩ := hwp.returns
  exact ⟨k, m', hcall, system_calls_stay_reachable (m := calling k) hk hcaller
    (fun _ h => by cases h) (fun h => absurd h (by decide)) hcall⟩

section Futex

variable {W : ResourceId → Set Ptr}

/-- The tasks that wait on each futex after a call of `sys_futex` by `p`. -/
def futexWaiters (m : TrapMachine) (p : Ptr) (uaddr : Addr) (op val : BitVec 32)
    (W : ResourceId → Set Ptr) : ResourceId → Set Ptr :=
  if op &&& 0x7F = FUTEX_WAIT then
    if m.tid uaddr = val then Function.update W (futexId uaddr) (insert p (W (futexId uaddr))) else W
  else if op &&& 0x7F = FUTEX_WAKE then Function.update W (futexId uaddr) ∅
  else W

/-- Runs of one core beside the tasks that wait on each futex: programs write to their memory and
call `sys_futex`, which a tick does not interrupt, and the core does anything else but exit, wait
for a child or block on a futex. -/
inductive FutexRun (P : Platform) (c : CoreId) : TrapMachine → (ResourceId → Set Ptr) → Prop where
  | start {m : TrapMachine} : m.kernel = {} → FutexRun P c m fun _ => ∅
  | write {m : TrapMachine} {W} (tid : Addr → BitVec 32) : FutexRun P c m W →
      FutexRun P c { m with tid := tid } W
  | op {m : TrapMachine} {W k} (op : SysOp) : FutexRun P c m W → op.OnCore P c →
      op.Enabled m.kernel → (∀ uaddr, op ≠ .block c (futexId uaddr)) →
      (op.exec P : KernelM Unit) m.kernel = .ok () k → FutexRun P c { m with kernel := k } W
  | futex {m m' : TrapMachine} {W p r} (uaddr : Addr) (op val : BitVec 32) : FutexRun P c m W →
      m.kernel.running c = some p → m.kernel.idle c ≠ some p →
      sysFutex c uaddr op val m = .ok r m' → FutexRun P c m' (futexWaiters m p uaddr op val W)

theorem wp_sysFutex_waiters {r : ResourceId} (h : AtRest c m.kernel) (hl : Life m.kernel)
    (P : Platform) (hp : m.kernel.running c = some p) (hidle : m.kernel.idle c ≠ some p)
    (hW : ∀ q, m.kernel.BlockedOn r q → q ∈ W r) (uaddr : Addr) (op val : BitVec 32) :
    wp (sysFutex c uaddr op val) (fun _ m' => AtRest c m'.kernel ∧
      ∀ q, m'.kernel.BlockedOn r q → q ∈ futexWaiters m p uaddr op val W r) (fun _ _ => True) m := by
  simp only [sysFutex, futexWaiters, wp_ite, wp_bind, wp_get, wp_pure, wp_runKernel]
  split
  · split
    · have hblock : (SysOp.block c (futexId uaddr)).OnCore P c := rfl
      refine (hblock.wp_exec ⟨p, hp, hidle⟩ h hl r).imp fun _ _ hk => ⟨hk.1, fun q hq => ?_⟩
      rcases hk.2 q hq with hold | ⟨hrun, hop⟩
      · by_cases hr : r = futexId uaddr
        · subst hr
          simpa using Or.inr (hW q hold)
        · simpa [hr] using hW q hold
      · obtain rfl := Option.mem_unique hp hrun
        obtain rfl : futexId uaddr = r := by injection hop
        simp
    · exact ⟨h, hW⟩
  · split
    · by_cases hr : r = futexId uaddr
      · subst hr
        exact h.wp_wakeup.imp fun _ _ hk => ⟨hk.1, fun q hq => (hk.2 q hq).elim⟩
      · have hwake : (SysOp.wakeup c (futexId uaddr)).OnCore P c := rfl
        refine (hwake.wp_exec trivial h hl r).imp fun _ _ hk => ⟨hk.1, fun q hq => ?_⟩
        rcases hk.2 q hq with hold | ⟨-, hop⟩
        · simpa [hr] using hW q hold
        · cases hop
    · exact ⟨h, hW⟩

/-- A task that sleeps on a futex has called `FUTEX_WAIT` when the word had the expected value, and
`FUTEX_WAKE` has not been called there since. -/
theorem futex_sleepers_wait (h : FutexRun P c m W) :
    AtRest c m.kernel ∧ CarefulRun P m.kernel ∧
      ∀ uaddr q, m.kernel.BlockedOn (futexId uaddr) q → q ∈ W (futexId uaddr) := by
  induction h with
  | start hm =>
    rw [hm]
    exact ⟨AtRest.empty c, .start, fun _ _ ⟨_, ht, _⟩ => by cases ht⟩
  | write tid _ ih => exact ih
  | op op _ hop hen hne hk ih =>
    obtain ⟨hrest, hrun, hW⟩ := ih
    obtain ⟨-, -, hl⟩ := hrun.invariant
    have hexec := fun r => (hop.wp_exec hen hrest hl r).of_ok hk
    refine ⟨(hexec (futexId 0)).1, hrun.step op hen hop.careful hk, fun uaddr q hq => ?_⟩
    rcases (hexec (futexId uaddr)).2 q hq with hold | ⟨-, heq⟩
    · exact hW uaddr q hold
    · exact absurd heq (hne uaddr)
  | futex uaddr op val _ hp hidle hcall ih =>
    obtain ⟨hrest, hrun, hW⟩ := ih
    obtain ⟨-, -, hl⟩ := hrun.invariant
    have hcalled := fun a => (wp_sysFutex_waiters hrest hl P hp hidle (hW a) uaddr op val).of_ok hcall
    exact ⟨(hcalled 0).1, hrun.after ((stays_sysFutex ⟨_, hp, hidle⟩ uaddr op val).of_ok hcall),
      fun a => (hcalled a).2⟩

theorem futex_sleepers_wait_example :
    ∃ m W, FutexRun (presetPlatform true) 0 m W ∧ m.kernel.BlockedOn (futexId 0) 1 ∧
      1 ∈ W (futexId 0) := by
  have h₀ := FutexRun.start (P := presetPlatform true) (c := 0) (m := calling {}) rfl
  have h₁ := h₀.op (.initCurrentCore 0 0) rfl ⟨⟨rfl, rfl, fun _ => rfl⟩, rfl⟩ nofun rfl
  have h₂ := h₁.op (.addTask 0 1 {}) ⟨rfl, rfl⟩ ⟨rfl, rfl, rfl, rfl⟩ nofun rfl
  have h₃ := h₂.op (.schedule 0) rfl ⟨0, rfl⟩ nofun rfl
  have h₄ := h₃.futex 0 0 0 (p := 1) rfl (by decide) rfl
  exact ⟨_, _, h₄, ⟨_, rfl, rfl, rfl⟩, (futex_sleepers_wait h₄).2.2 0 1 ⟨_, rfl, rfl, rfl⟩⟩

end Futex

end NaiLongKernel.Arch
