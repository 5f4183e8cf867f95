import NaiLongKernel.Foundation.Reached
import NaiLongKernel.Task.Hosted

/-!
# Waiting for children

`Wait` and `Exit` on one core, one step at a time. `Wait` looks for an ended child under the
lock of the task table; it takes the child out of the table and deletes it, or enters the
queue of its own pid and schedules. `Exit` makes the task a zombie and wakes the queue of its
parent's pid under the lock of the core, and schedules. Ticks come between any two steps.
-/
namespace NaiLongKernel.Task

open Foundation

variable {P : Platform} {c : CoreId} {k k' : Kernel} {p q : Ptr} {pid : Pid}

structure WaitArgs where
  pid : Pid
  noHang : Bool
  untraced : Bool
deriving DecidableEq, Repr

/-- The next step of a task in `Wait`. -/
inductive WaitStage where
  | scanning
  | found (target : Ptr)
  /-- The asserts are passed, and what the call will return has been read. -/
  | reaping (target : Ptr) (result : WaitResult)
  | deleting (target : Ptr) (result : WaitResult)
  | blocking
  /-- The task is in the queue and about to schedule. -/
  | registered
  | resuming
deriving DecidableEq, Repr

inductive WaitPc where
  /-- In neither call, with what the last `Wait` has returned. -/
  | outside (returned : Option WaitResult)
  | inWait (args : WaitArgs) (stage : WaitStage)
  /-- In `Exit`, about to schedule. -/
  | leaving
deriving DecidableEq, Repr

/-- What a parent with this pid waits for. -/
def childExit (pid : Pid) : ResourceId := ResourceId.make .kChildExit pid

/-- One step of task `p` in `Wait` or at the end of `Exit`; `order` is the order in which the
scan meets the entries of the table. -/
def WaitPc.advance (c : CoreId) (order : List (Pid × Ptr)) (p : Ptr) : WaitPc → KernelM WaitPc
  | .outside returned => return .outside returned
  | .inWait a .scanning => do
    match ← scanChildren a.pid a.untraced p order with
    | .exited target => return .inWait a (.found target)
    | .stopped child => return .outside (some (.stopped child))
    | .nothing => return if a.noHang then .outside (some .noChange) else .inWait a .blocking
  | .inWait a (.found target) => do
    let t ← readTask target
    let parent ← readTask p
    assertMsg (isDead t) "Wait: target task must be kZombie or kExited"
    assertMsg (t.parentPid == parent.pid) "Wait: target parent_pid must match current pid"
    return .inWait a (.reaping target (.reaped t.pid t.exitCode))
  | .inWait a (.reaping target result) => do
    let t ← readTask target
    assertMsg ((← get).lookup t.pid).isSome "Wait: target must exist in task_table"
    modify fun k => { k with taskTable := tableErase t.pid k.taskTable }
    return .inWait a (.deleting target result)
  | .inWait _ (.deleting target result) => do
    deleteTask target
    return .outside (some result)
  | .inWait a .blocking => do
    let parent ← readTask p
    register c (childExit parent.pid)
    return .inWait a .registered
  | .inWait a .registered => do
    schedule c
    return .inWait a .resuming
  | .inWait a .resuming => return .inWait a .scanning
  | .leaving => do
    schedule c
    return .leaving

def WaitPc.isOutside : WaitPc → Bool
  | .outside _ => true
  | _ => false

/-- The place after a whole pass of `Wait`. -/
def WaitResult.place (a : WaitArgs) : WaitResult → WaitPc
  | .blocked => .inWait a .scanning
  | r => .outside (some r)

theorem WaitResult.place_injective (a : WaitArgs) : Function.Injective (WaitResult.place a) := by
  intro r r' h
  cases r <;> cases r' <;> first | rfl | (cases h; rfl) | cases h

theorem wp_waitPass_steps (a : WaitArgs) (order : List (Pid × Ptr)) {Q : WaitPc → Kernel → Prop}
    {E : Fault → Kernel → Prop} :
    wp (waitPass c a.pid a.noHang a.untraced order : KernelM WaitResult)
        (fun r k' => Q (r.place a) k') E k ↔
      wp (runningTask c "Wait: No current task" "Wait: current task status must be kRunning")
        (fun p => wp (WaitPc.advance c order p (.inWait a .scanning)) (fun pc₁ =>
          wp (pc₁.advance c order p) (fun pc₂ => wp (pc₂.advance c order p) (fun pc₃ =>
            wp (pc₃.advance c order p) Q E) E) E) E) E k := by
  simp only [waitPass, run_kernelM, lockGuard_kernelM, wp_bind]
  apply wp_congr
  intro p k₁
  simp only [WaitPc.advance, wp_bind]
  apply wp_congr
  intro scan k₂
  cases scan with
  | exited target =>
    simp only [reapChild, destroyTask, run_kernelM, lockGuard_kernelM, klog_kernelM, wp_bind, wp_pure,
      wp_get, wp_modify, wp_assertMsg, WaitResult.place]
    -- the child is read again before it is taken out of the table
    cases ht : k₂.tasks target with
    | none => simp only [wp_readTask_none ht]
    | some t =>
      cases hp : k₂.tasks p with
      | none => simp only [wp_readTask ht, wp_readTask_none hp]
      | some parent => simp only [wp_readTask ht, wp_readTask hp]
  | stopped child => simp [WaitResult.place]
  | nothing =>
    cases a.noHang with
    | true => simp [WaitResult.place]
    | false => simp [WaitResult.place, wp_block_iff, childExit]

/-- A pass of `Wait` returns what four steps from the scan on leave as the result, or blocks
where they come back to the scan. -/
theorem wp_waitPass_iff (a : WaitArgs) (order : List (Pid × Ptr)) {Q : WaitResult → Kernel → Prop}
    {E : Fault → Kernel → Prop} :
    wp (waitPass c a.pid a.noHang a.untraced order : KernelM WaitResult) Q E k ↔
      wp (runningTask c "Wait: No current task" "Wait: current task status must be kRunning")
        (fun p => wp (WaitPc.advance c order p (.inWait a .scanning)) (fun pc₁ =>
          wp (pc₁.advance c order p) (fun pc₂ => wp (pc₂.advance c order p) (fun pc₃ =>
            wp (pc₃.advance c order p) (fun pc k' => ∃ r, r.place a = pc ∧ Q r k') E) E) E) E) E k := by
  rw [← wp_waitPass_steps]
  simp only [(WaitResult.place_injective a).eq_iff, exists_eq_left]

section Kin

/-- The fields that decide whose child a task is. -/
structure SameKin (t t' : TaskControlBlock) : Prop where
  pid : t'.pid = t.pid
  pgid : t'.pgid = t.pgid
  parentPid : t'.parentPid = t.parentPid

variable {t t' u u' : TaskControlBlock}

theorem SameTask.kin (h : SameTask t t') : SameKin t t' := by
  constructor <;> rw [h.fields]

theorem Regrouped.kin (h : Regrouped t t') : SameKin t t' := by
  rw [Regrouped] at h
  constructor <;> rw [h]

theorem SameKin.refl (t : TaskControlBlock) : SameKin t t := ⟨rfl, rfl, rfl⟩

theorem SameKin.pidMatches (h : SameKin u u') (hpid : t'.pid = t.pid) (hpgid : t'.pgid = t.pgid)
    (pid : Pid) : pidMatches pid t' u' = pidMatches pid t u := by
  simp only [Task.pidMatches, hpid, hpgid, h.pid, h.pgid, h.parentPid]

/-- The table has an ended child of `p` that its `Wait` for `pid` is for. -/
def Kernel.Unreaped (k : Kernel) (pid : Pid) (p : Ptr) : Prop :=
  ∃ t, k.tasks p = some t ∧ ∃ e ∈ k.taskTable, ∃ u, k.tasks e.2 = some u ∧
    pidMatches pid t u = true ∧ isDead u = true

/-- The parent waits for such a child although there is one. -/
def Kernel.Misses (k : Kernel) (pid : Pid) (p : Ptr) : Prop :=
  k.BlockedOn (childExit (k.pidOf p)) p ∧ k.Unreaped pid p

/-- No task has ended since `k`, and nobody has got another parent. -/
structure Ages (k k' : Kernel) : Prop where
  back : ∀ q u', k'.tasks q = some u' → k.tasks q = none ∧ isDead u' = false ∨
    ∃ u, k.tasks q = some u ∧ SameKin u u' ∧ isDead u' = isDead u
  table : ∀ e ∈ k'.taskTable, e ∈ k.taskTable ∨ k.tasks e.2 = none

theorem Kernel.pidOf_eq (ht : k.tasks p = some t) : k.pidOf p = t.pid := by rw [Kernel.pidOf, ht]

theorem Ages.unreaped (h : Ages k k') (ht : k.tasks p = some t) (hm : k'.Unreaped pid p) :
    k.Unreaped pid p := by
  obtain ⟨t', ht', e, he, u', hu', hmatch, hdead⟩ := hm
  rcases h.back p t' ht' with ⟨hnone, -⟩ | ⟨v, hv, hkin, -⟩
  · cases hnone.symm.trans ht
  rcases h.back e.2 u' hu' with ⟨-, halive⟩ | ⟨u, hu, hkin', hdead'⟩
  · cases halive.symm.trans hdead
  have hmem : e ∈ k.taskTable := by
    rcases h.table e he with hmem | hnone
    · exact hmem
    · cases hnone.symm.trans hu
  refine ⟨v, hv, e, hmem, u, hu, ?_, hdead'.symm.trans hdead⟩
  rwa [← hkin'.pidMatches hkin.pid hkin.pgid]

theorem Ages.misses (h : Ages k k') (hm : k'.Misses pid p)
    (hb : ∀ r, k'.BlockedOn r p → k.BlockedOn r p) : k.Misses pid p := by
  obtain ⟨hblocked, hunreaped⟩ := hm
  have hold := hb _ hblocked
  obtain ⟨t', ht', -⟩ := hblocked
  obtain ⟨t, ht⟩ : ∃ t, k.tasks p = some t := hold.imp (fun _ h => h.1)
  have hpid : k'.pidOf p = k.pidOf p := by
    rcases h.back p t' ht' with ⟨hnone, -⟩ | ⟨v, hv, hkin, -⟩
    · cases hnone.symm.trans ht
    · rw [Kernel.pidOf_eq ht', Kernel.pidOf_eq hv, hkin.pid]
  rw [hpid] at hold
  exact ⟨hold, h.unreaped ht hunreaped⟩

theorem Persists.ages (h : Persists k k') : Ages k k' := by
  refine ⟨?_, ?_⟩
  · intro q u' hu'
    obtain ⟨u, hu, hs⟩ := h.back hu'
    exact Or.inr ⟨u, hu, hs.kin, hs.dead⟩
  · intro e he
    rw [h.taskTable] at he
    exact Or.inl he

theorem Ages.of_new (hp : k.tasks p = none)
    (hnew : ∀ u', k'.tasks p = some u' → isDead u' = false)
    (hsame : ∀ q, q ≠ p → ∀ u, k.tasks q = some u → ∃ u', k'.tasks q = some u' ∧ Regrouped u u')
    (hfree : ∀ q, q ≠ p → k.tasks q = none → k'.tasks q = none)
    (htable : ∀ e ∈ k'.taskTable, e ∈ k.taskTable ∨ e.2 = p) : Ages k k' := by
  refine ⟨?_, ?_⟩
  · intro q u' hu'
    by_cases hq : q = p
    · subst hq
      exact Or.inl ⟨hp, hnew u' hu'⟩
    · obtain ⟨u, hu, hreg⟩ := exists_before (hsame q hq) (hfree q hq) hu'
      exact Or.inr ⟨u, hu, hreg.kin, hreg.profile.isDead⟩
  · intro e he
    refine (htable e he).imp_right ?_
    intro heq
    rw [heq, hp]

theorem mem_of_mem_tableSet {table : List (Pid × Ptr)} {e : Pid × Ptr}
    (he : e ∈ tableSet pid p table) : e ∈ table ∨ e.2 = p := by
  rcases List.mem_append.mp he with hold | hnew
  · exact Or.inl (List.mem_of_mem_filter hold)
  · rw [List.mem_singleton.mp hnew]
    exact Or.inr rfl

theorem Deleted.ages (h : Deleted p t k k') : Ages k k' := by
  refine ⟨?_, ?_⟩
  · intro q u' hu'
    obtain ⟨u, hu, hreg⟩ := h.back hu'
    exact Or.inr ⟨u, hu, hreg.kin, hreg.profile.isDead⟩
  · intro e he
    rw [h.taskTable] at he
    exact Or.inl he

theorem Ages.of_subset (htasks : k'.tasks = k.tasks) (htable : k'.taskTable ⊆ k.taskTable) :
    Ages k k' := by
  refine ⟨?_, fun e he => Or.inl (htable he)⟩
  intro q u' hu'
  rw [htasks] at hu'
  exact Or.inr ⟨u', hu', SameKin.refl u', rfl⟩

theorem Ages.of_eq (htasks : k'.tasks = k.tasks) (htable : k'.taskTable = k.taskTable) : Ages k k' :=
  Ages.of_subset htasks (htable ▸ List.Subset.refl _)

variable {loc loc' : Ptr → Option Slot} {B : Set CoreId} {target : CoreId}

theorem Initialised.ages (h : Initialised B c p k loc k') (hp : k.tasks p = none) : Ages k k' := by
  obtain ⟨t, ht, hready, -⟩ := h.task
  apply Ages.of_new hp
  · intro u' hu'
    rw [Option.mem_unique hu' ht]
    exact isDead_of_ready hready
  · intro q hq u hu
    exact ⟨u, (h.tasks_ne q hq).trans hu, Regrouped.refl u⟩
  · intro q hq hu
    exact (h.tasks_ne q hq).trans hu
  · intro e he
    rw [h.taskTable] at he
    exact Or.inl he

theorem Added.ages (h : Added B target p t (k.setTask p t) loc k' loc') (hp : k.tasks p = none) :
    Ages k k' := by
  obtain ⟨t', ht', hready, -⟩ := h.task
  have htasks : ∀ q, q ≠ p → k'.tasks q = k.tasks q :=
    fun q hq => (h.tasks_ne q hq).trans (k.tasks_setTask_ne p t hq)
  apply Ages.of_new hp
  · intro u' hu'
    rw [Option.mem_unique hu' ht']
    exact isDead_of_ready hready
  · intro q hq u hu
    exact ⟨u, (htasks q hq).trans hu, Regrouped.refl u⟩
  · intro q hq hu
    exact (htasks q hq).trans hu
  · intro e he
    rw [h.taskTable] at he
    exact mem_of_mem_tableSet he

theorem Cloned.ages (h : Cloned c p u k loc k' loc') (hp : k.tasks p = none) : Ages k k' := by
  obtain ⟨u', hu', hready, -⟩ := h.block
  apply Ages.of_new hp _ h.same h.free
  · intro e he
    rw [h.taskTable] at he
    exact mem_of_mem_tableSet he
  · intro v hv
    rw [Option.mem_unique hv hu']
    exact isDead_of_ready hready

theorem SysOp.OnCore.careful {op : SysOp} (hop : op.OnCore P c) : op.Careful k := by
  cases op with
  | exit c' exitCode => exact hop.elim
  | _ => trivial

theorem SysOp.Effect.ages {op : SysOp} (h : op.Effect P k k') (hop : op.OnCore P c)
    (hen : op.Enabled k) : Ages k k' := by
  cases h.outcome with
  | initialised hi => exact hi.ages hen.2
  | added ha => exact ha.ages hen.1
  | cloned hq _ _ hcl _ => exact hcl.ages (hen _ hq)
  | departed | reaped => exact hop.elim
  | persists hp => exact hp.ages
  | rest => exact Ages.of_eq rfl rfl

end Kin

/-- The kernel and the places of its tasks in `Wait` and `Exit`. -/
structure WaitMachine where
  kernel : Kernel
  place : Ptr → WaitPc

inductive WaitAction where
  | op (op : SysOp)
  /-- The running task calls `Wait`. -/
  | wait (args : WaitArgs)
  /-- The running task calls `Exit`, up to its call of `Schedule`. -/
  | exit (exitCode : BitVec 32)
  /-- The running task makes the next step of the call that it is in. -/
  | next (order : List (Pid × Ptr))

/-- The control block that the operation creates. -/
def SysOp.newborn : SysOp → Option Ptr
  | initCurrentCore _ idleTask => some idleTask
  | addTask _ task _ => some task
  | clone _ _ child => child
  | _ => none

namespace WaitMachine

/-- Task `p` runs a program that tells where it is afterwards. -/
def move (m : WaitMachine) (p : Ptr) (x : KernelM WaitPc) : Option WaitMachine :=
  match x m.kernel with
  | .ok pc k => some ⟨k, Function.update m.place p pc⟩
  | .error _ _ => none

def step (P : Platform) (c : CoreId) (m : WaitMachine) : WaitAction → Option WaitMachine
  | .op op =>
    match (op.exec P : KernelM Unit) m.kernel with
    | .ok _ k => some ⟨k, fun p => if op.newborn = some p then .outside none else m.place p⟩
    | .error _ _ => none
  | .wait a => (m.kernel.running c).bind fun p => m.move p do
      let _ ← runningTask c "Wait: No current task" "Wait: current task status must be kRunning"
      return .inWait a .scanning
  | .exit exitCode => (m.kernel.running c).bind fun p => m.move p do
      depart c exitCode
      return .leaving
  | .next order => (m.kernel.running c).bind fun p => m.move p ((m.place p).advance c order p)

/-- Operations are called outside `Wait` and `Exit`, and ticks come at any time. -/
def Enabled (P : Platform) (c : CoreId) (m : WaitMachine) : WaitAction → Prop
  | .op op => op.Enabled m.kernel ∧ op.OnCore P c ∧ ∀ p, m.kernel.running c = some p →
      (m.place p).isOutside = true ∨ op = .tickUpdate c
  | .wait _ => ∀ p, m.kernel.running c = some p →
      m.kernel.idle c ≠ some p ∧ (m.place p).isOutside = true
  | .exit _ => ∀ p, m.kernel.running c = some p →
      m.kernel.idle c ≠ some p ∧ (m.place p).isOutside = true
  | .next order => order.Perm m.kernel.taskTable ∧
      ∀ p, m.kernel.running c = some p → m.kernel.idle c ≠ some p

/-- A task in `Wait` is blocked for the children of the init task and would take the task with
block `u` for one. -/
def InitAwaits (m : WaitMachine) (u : TaskControlBlock) : Prop :=
  ∃ q a s v, m.place q = .inWait a s ∧ m.kernel.BlockedOn (childExit kInitPid) q ∧
    m.kernel.tasks q = some v ∧ v.pid = kInitPid ∧
    pidMatches a.pid v { u with parentPid := kInitPid } = true

/-- When a task enters the queue in `Wait` there is no ended child for it. A task that exits
has a parent, and no idle scheduler holds it; if it hands an ended child that the init task
is blocked for to the init task, its own parent is the init task. A child that `Wait` deletes
has ended and is not in the table. -/
def Heeded (c : CoreId) (m : WaitMachine) : WaitAction → Prop
  | .op _ => True
  | .wait _ => True
  | .exit _ => ∀ p t, m.kernel.running c = some p → m.kernel.tasks p = some t →
      m.kernel.exitParent p t ≠ 0 ∧ (∀ c', m.kernel.held c' ≠ some p) ∧
      (m.kernel.exitParent p t = kInitPid ∨ t.isThreadGroupLeader = false ∨
        ∀ e ∈ m.kernel.taskTable, ∀ u, m.kernel.tasks e.2 = some u → u.parentPid = t.pid →
          isDead u = true → ¬ m.InitAwaits u)
  | .next _ => ∀ p a, m.kernel.running c = some p →
      (m.place p = .inWait a .blocking → ¬ m.kernel.Unreaped a.pid p) ∧
      ∀ target result, m.place p = .inWait a (.deleting target result) →
        (∃ u, m.kernel.tasks target = some u ∧ isDead u = true) ∧
        ∀ e ∈ m.kernel.taskTable, e.2 ≠ target

def booted : WaitMachine := ⟨{}, fun _ => .outside none⟩

/-- The states that the machine reaches by actions that `A` admits. -/
abbrev Run (P : Platform) (c : CoreId) (A : WaitMachine → WaitAction → Prop) : WaitMachine → Prop :=
  Reached (step P c) (fun m a => m.Enabled P c a ∧ A m a) booted

variable {m m' : WaitMachine}

theorem move_eq_some {x : KernelM WaitPc} : m.move p x = some m' ↔
    ∃ pc k, x m.kernel = .ok pc k ∧ m' = ⟨k, Function.update m.place p pc⟩ := by
  unfold move
  cases hx : x m.kernel with
  | ok pc k => simp [eq_comm]
  | error e k => simp

/-- The last step of a call, after which the task does not run on by itself. -/
def Ending (m : WaitMachine) (p : Ptr) : Prop :=
  m.place p = .leaving ∨ ∃ a, m.place p = .inWait a .registered

theorem not_ending_of_outside (h : (m.place p).isOutside = true) : ¬ m.Ending p := by
  rintro (he | ⟨_, he⟩) <;> rw [he] at h <;> cases h

structure Sound (c : CoreId) (m : WaitMachine) : Prop where
  life : Life m.kernel
  rest : AtRest c m.kernel ∨ ∃ p, Leaving c p m.kernel ∧ m.Ending p
  kept : ∀ p a s, m.place p = .inWait a s → ¬ m.kernel.Misses a.pid p

namespace Sound

theorem atRest (h : Sound c m) (hrun : m.kernel.running c = some p) (hp : ¬ m.Ending p) :
    AtRest c m.kernel := by
  rcases h.rest with hrest | ⟨q, hleave, hend⟩
  · exact hrest
  · obtain rfl := Option.mem_unique hrun hleave.1
    exact absurd hend hp

theorem not_misses (h : AtRest c k) (hrun : k.running c = some p) : ¬ k.Misses pid p :=
  fun hm => h.not_blockedOn hrun hm.1

theorem update {pc : WaitPc} (h : Sound c m) (hlife : Life k)
    (hrest : AtRest c k ∨ Leaving c p k ∧ (pc = .leaving ∨ ∃ a, pc = .inWait a .registered))
    (hages : Ages m.kernel k) (hblocked : ∀ q, q ≠ p → ∀ r, k.BlockedOn r q → m.kernel.BlockedOn r q)
    (hself : ∀ a s, pc = .inWait a s → ¬ k.Misses a.pid p) :
    Sound c ⟨k, Function.update m.place p pc⟩ := by
  refine ⟨hlife, ?_, ?_⟩
  · refine hrest.imp_right ?_
    rintro ⟨hleave, hend⟩
    refine ⟨p, hleave, ?_⟩
    simpa [Ending] using hend
  · intro q a s (hq : Function.update m.place p pc q = .inWait a s)
    by_cases hqp : q = p
    · subst hqp
      rw [Function.update_self] at hq
      exact hself a s hq
    · rw [Function.update_of_ne hqp] at hq
      exact fun hm => h.kept q a s hq (hages.misses hm (hblocked q hqp))

theorem keep {pc : WaitPc} (h : Sound c m) (hrest : AtRest c m.kernel)
    (hrun : m.kernel.running c = some p) : Sound c ⟨m.kernel, Function.update m.place p pc⟩ :=
  h.update h.life (Or.inl hrest) (Ages.of_eq rfl rfl) (fun _ _ _ hb => hb)
    (fun _ _ _ => not_misses hrest hrun)

theorem op {o : SysOp} (h : Sound c m) (hen : m.Enabled P c (.op o))
    (hstep : m.step P c (.op o) = some m') : Sound c m' := by
  obtain ⟨hop, hcore, hplace⟩ := hen
  have hstep' : ∃ k, (o.exec P : KernelM Unit) m.kernel = .ok () k ∧
      m' = ⟨k, fun p => if o.newborn = some p then .outside none else m.place p⟩ := by
    simp only [step] at hstep
    split at hstep
    · rename_i k hk
      exact ⟨k, hk, (Option.some.inj hstep).symm⟩
    · cases hstep
  obtain ⟨k, hk, rfl⟩ := hstep'
  -- who is in `Wait` has been there before
  have place_old : ∀ q a s, (if o.newborn = some q then .outside none else m.place q) = WaitPc.inWait a s →
      m.place q = .inWait a s := by
    intro q a s hq
    split at hq
    · cases hq
    · exact hq
  rcases h.rest with hrest | ⟨p, hleave, hend⟩
  · obtain ⟨loc, hst, -⟩ := id hrest
    obtain ⟨-, hlife, heff⟩ := SysOp.effect_of_exec hst h.life hop hcore.careful hk
    refine ⟨hlife, Or.inl ((hcore.wp_exec hop hrest h.life ⟨0⟩).of_ok hk).1, ?_⟩
    intro q a s hq hm
    apply h.kept q a s (place_old q a s hq)
    apply (heff.ages hcore hop).misses hm
    intro r hb
    refine (((hcore.wp_exec hop hrest h.life r).of_ok hk).2 q hb).resolve_right ?_
    rintro ⟨hrun, rfl⟩
    rcases hplace q hrun with hout | htick
    · rw [place_old q a s hq] at hout
      cases hout
    · cases htick
  · obtain rfl : o = .tickUpdate c := by
      exact (hplace p hleave.1).resolve_left fun hout => not_ending_of_outside hout hend
    have hwp := fun r => (hleave.wp_tickUpdate r P).of_ok hk
    obtain ⟨hrest, hp, -⟩ := hwp ⟨0⟩
    refine ⟨h.life.persists hp, hrest.imp_right (fun hl => ⟨p, hl, hend⟩), ?_⟩
    intro q a s hq hm
    exact h.kept q a s hq (hp.ages.misses hm (fun r hb => (hwp r).2.2 q hb))

theorem wait {a : WaitArgs} (h : Sound c m) (hen : m.Enabled P c (.wait a))
    (hstep : m.step P c (.wait a) = some m') : Sound c m' := by
  obtain ⟨p, hrun, hmove⟩ := Option.bind_eq_some_iff.mp hstep
  obtain ⟨pc, k, hk, rfl⟩ := move_eq_some.mp hmove
  obtain ⟨hidle, hout⟩ := hen p hrun
  have hrest := h.atRest hrun (not_ending_of_outside hout)
  obtain ⟨loc, hst, -⟩ := id hrest
  have hwp : wp (do
      let _ ← runningTask c "Wait: No current task" "Wait: current task status must be kRunning"
      return WaitPc.inWait a .scanning) (fun _ k => k = m.kernel) (fun _ _ => False) m.kernel := by
    rw [wp_bind]
    apply Closed.wp_runningTask hst hrun hidle
    rw [wp_pure]
  obtain rfl := hwp.of_ok hk
  exact h.keep hrest hrun

theorem wp_schedule (h : Sound c m) (hrun : m.kernel.running c = some p) :
    wp (schedule c : KernelM Unit) (fun _ k => AtRest c k ∧ Persists m.kernel k ∧
      ∀ r q, k.BlockedOn r q → m.kernel.BlockedOn r q) (fun _ _ => True) m.kernel := by
  have hwp : ∀ r : ResourceId, wp (schedule c : KernelM Unit) (fun _ k => AtRest c k ∧
      Persists m.kernel k ∧ ∀ q, k.BlockedOn r q → m.kernel.BlockedOn r q) (fun _ _ => True)
      m.kernel := by
    intro r
    rcases h.rest with hrest | ⟨q, hleave, -⟩
    · exact hrest.wp_schedule r hrun
    · exact hleave.wp_schedule r
  have : Nonempty ResourceId := ⟨⟨0⟩⟩
  apply (wp_forall hwp).imp _
  exact fun _ k hk => ⟨(hk ⟨0⟩).1, (hk ⟨0⟩).2.1, fun r => (hk r).2.2⟩

theorem not_misses_departed {k₁ k₂ : Kernel} {loc loc₂ : Ptr → Option Slot} {t : TaskControlBlock}
    {a : WaitArgs} {s : WaitStage} (h : Sound c m) (ht : m.kernel.tasks p = some t)
    (hheed : m.kernel.exitParent p t = kInitPid ∨ t.isThreadGroupLeader = false ∨
      ∀ e ∈ m.kernel.taskTable, ∀ u, m.kernel.tasks e.2 = some u → u.parentPid = t.pid →
        isDead u = true → ¬ m.InitAwaits u)
    (hd : Departed p t m.kernel k₁) (hst₁ : Stable {c} k₁ loc) (hst₂ : Stable {c} k₂ loc₂)
    (hh₂ : Hosted c k₂ loc₂)
    (ha : Awakened (.blocked c (childExit (m.kernel.exitParent p t))) k₁ loc k₂ loc₂)
    (hleft : ∀ q, loc₂ q ≠ some (.blocked c (childExit (m.kernel.exitParent p t))))
    (hq : m.place q = .inWait a s) : ¬ k₂.Misses a.pid q := by
  rintro ⟨hblocked, v₂, hv₂, e, he, u₂, hu₂, hmatch, hdead⟩
  set parent := m.kernel.exitParent p t
  rw [Kernel.pidOf_eq hv₂] at hblocked
  have hloc₂ := hh₂.loc_of_blockedOn hst₂.toPlaced hblocked
  -- the children of its pid have not been announced
  have hpid : v₂.pid ≠ parent := by
    intro heq
    rw [heq] at hloc₂
    exact hleft q hloc₂
  have hloc : loc q = some (.blocked c (childExit v₂.pid)) := by
    rcases ha.moved q with hsame | ⟨-, w, -, hhome⟩
    · rw [← hsame, hloc₂]
    · rw [hhome] at hloc₂
      cases Kernel.ready_of_home hloc₂
  -- it was blocked before, with the same pid
  obtain ⟨v₁, hv₁, hst, hr⟩ := hst₁.toPlaced.blockedOn_of_loc hloc
  obtain ⟨v, hv, hve⟩ := hd.back hv₁
  have hkin : SameKin v₁ v₂ := by
    obtain ⟨w, hw, hs⟩ := ha.persists.back hv₂
    obtain rfl := Option.mem_unique hv₁ hw
    exact hs.kin
  have hvpid : v₂.pid = v.pid := by rw [hkin.pid, hve]
  have hvpgid : v₂.pgid = v.pgid := by rw [hkin.pgid, hve]
  have hwas : m.kernel.BlockedOn (childExit v.pid) q := by
    rw [hve] at hst hr
    by_cases hqp : q = p
    · simp [hqp] at hst
    · simp only [if_neg hqp] at hst
      exact ⟨v, hv, hst, hvpid ▸ hr⟩
  have hunreaped : ¬ m.kernel.Unreaped a.pid q := by
    intro hu
    refine h.kept q a s hq ⟨?_, hu⟩
    rwa [Kernel.pidOf_eq hv]
  -- the child is the exiting task, an old child, or one that has come to the init task
  obtain ⟨u₁, hu₁, hs⟩ := ha.persists.back hu₂
  obtain ⟨u, hu, hue⟩ := hd.back hu₁
  rw [ha.persists.taskTable, hd.taskTable] at he
  have hchild : u₂.parentPid = m.kernel.inherited t e.2 u := by rw [hs.kin.parentPid, hue]
  have hparent := parent_of_pidMatches hmatch
  by_cases hep : e.2 = p
  · rw [hep, ht] at hu
    obtain rfl := Option.some.inj hu
    rw [hep] at hchild
    exact hpid (hparent.symm.trans hchild)
  · have hdead' : isDead u = true := by
      rw [← hdead, hs.dead, hue, if_neg hep]
      rfl
    have hmatch' : pidMatches a.pid v { u with parentPid := m.kernel.inherited t e.2 u } = true := by
      have hkin' : SameKin { u with parentPid := m.kernel.inherited t e.2 u } u₂ :=
        ⟨by rw [hs.kin.pid, hue], by rw [hs.kin.pgid, hue], hchild⟩
      rwa [← hkin'.pidMatches hvpid hvpgid]
    rcases m.kernel.inherited_eq_or t e.2 u with hkeep | ⟨hinit, hleader, hkid⟩
    · rw [hkeep] at hmatch'
      exact hunreaped ⟨v, hv, e, he, u, hu, hmatch', hdead'⟩
    · have hvinit : v.pid = kInitPid := by rw [← hvpid, ← hparent, hchild, hinit]
      rcases hheed with hfather | hnot | hnone
      · exact hpid (hvpid.trans (hvinit.trans hfather.symm))
      · cases hleader.symm.trans hnot
      · rw [hinit] at hmatch'
        exact hnone e he u hu hkid hdead' ⟨q, a, s, v, hq, hvinit ▸ hwas, hv, hvinit, hmatch'⟩

theorem exit {exitCode : BitVec 32} (h : Sound c m) (hen : m.Enabled P c (.exit exitCode))
    (hheed : m.Heeded c (.exit exitCode)) (hstep : m.step P c (.exit exitCode) = some m') :
    Sound c m' := by
  obtain ⟨p, hrun, hmove⟩ := Option.bind_eq_some_iff.mp hstep
  obtain ⟨pc, k, hk, rfl⟩ := move_eq_some.mp hmove
  obtain ⟨hidle, hout⟩ := hen p hrun
  obtain ⟨loc, hst, hh⟩ : AtRest c m.kernel :=
    h.atRest hrun (not_ending_of_outside hout)
  obtain ⟨t, ht, -⟩ := hst.runs c p hrun
  obtain ⟨hpar, hheld, hinit⟩ := hheed p t hrun ht
  have hwp : wp (do
      depart c exitCode
      return WaitPc.leaving) (fun pc k => Sound c ⟨k, Function.update m.place p pc⟩)
      (fun _ _ => True) m.kernel := by
    rw [wp_bind]
    apply wp_depart hst h.life.grouped h.life.entries hrun hidle hheld ht hpar exitCode
      (fun _ _ _ _ => trivial)
    intro k₁ k₂ loc₂ hd hst₁ hst₂ ha hleft hrun₂ hloc₂
    have hh₂ := (hh.departed hd).awakened rfl ha
    rw [wp_pure]
    refine ⟨(h.life.departed hd).persists ha.persists, Or.inr ⟨p, ?_, ?_⟩, ?_⟩
    · obtain ⟨t₁, ht₁, -, hzombie⟩ := hd.self ht
      have hnot : loc p ≠ some (.blocked c (childExit (m.kernel.exitParent p t))) := by
        rw [hst.loc_running (Set.notMem_empty c) hrun]
        exact nofun
      refine ⟨hrun₂, loc₂, t₁, hst₂, hh₂, (ha.only.tasks p hnot).trans ht₁, ?_, ?_⟩
      · rw [hzombie]
        exact nofun
      · rw [hloc₂]
        exact nofun
    · exact Or.inl (Function.update_self p _ _)
    · intro q a s (hq : Function.update m.place p WaitPc.leaving q = .inWait a s)
      by_cases hqp : q = p
      · rw [hqp, Function.update_self] at hq
        cases hq
      · rw [Function.update_of_ne hqp] at hq
        exact h.not_misses_departed ht hinit hd hst₁ hst₂ hh₂ ha hleft hq
  exact hwp.of_ok hk

theorem wp_scan (h : Sound c m) {t : TaskControlBlock} (ht : m.kernel.tasks p = some t)
    {order : List (Pid × Ptr)} (horder : order.Perm m.kernel.taskTable) (pid : Pid)
    (untraced : Bool) :
    wp (scanChildren pid untraced p order) (fun _ k => k = m.kernel) (fun _ _ => False) m.kernel := by
  apply wp_scanChildren pid untraced ht order
  · intro e he
    exact (h.life.entries e (horder.mem_iff.mp he)).imp (fun _ hu => hu.1)
  · exact fun _ _ _ _ _ _ => rfl
  · exact fun _ _ => rfl
  · exact fun _ => rfl

theorem wp_delete {target : Ptr} {u : TaskControlBlock} (h : Sound c m) (hrest : AtRest c m.kernel)
    (hu : m.kernel.tasks target = some u) (hdead : isDead u = true)
    (hgone : ∀ e ∈ m.kernel.taskTable, e.2 ≠ target) :
    wp (deleteTask target) (fun _ k => Life k ∧ AtRest c k ∧ Ages m.kernel k ∧
      ∀ r q, k.BlockedOn r q → m.kernel.BlockedOn r q) (fun _ _ => False) m.kernel := by
  obtain ⟨loc, hst, hh⟩ := hrest
  apply wp_deleteTask hst h.life.grouped (hst.unused_of_dead hu hdead) hu
  intro k hst' hd
  refine ⟨h.life.deleted hst hu hdead hgone hd, ⟨loc, hst', hh.deleted hd⟩, hd.ages, ?_⟩
  rintro r q ⟨v', hv', hblocked, hr⟩
  obtain ⟨v, hv, hreg⟩ := hd.back hv'
  exact ⟨v, hv, hreg.profile.status.symm.trans hblocked, hreg.profile.blockedOn.symm.trans hr⟩

theorem wp_inWait {a : WaitArgs} {stage : WaitStage} {order : List (Pid × Ptr)} (h : Sound c m)
    (hrun : m.kernel.running c = some p) (hidle : m.kernel.idle c ≠ some p)
    (horder : order.Perm m.kernel.taskTable) (hp : m.place p = .inWait a stage)
    (hheed : m.Heeded c (.next order)) :
    wp (WaitPc.advance c order p (.inWait a stage))
      (fun pc k => Sound c ⟨k, Function.update m.place p pc⟩) (fun _ _ => True) m.kernel := by
  obtain ⟨hchild, htarget⟩ := hheed p a hrun
  by_cases hregistered : stage = .registered
  · -- the task may have been woken before it schedules
    subst hregistered
    rw [WaitPc.advance, wp_bind]
    apply (h.wp_schedule hrun).imp _
    rintro _ k ⟨hrest, hpers, hblocked⟩
    rw [wp_pure]
    apply h.update (h.life.persists hpers) (Or.inl hrest) hpers.ages (fun q _ r => hblocked r q)
    rintro _ _ ⟨⟩ hm
    exact h.kept p a .registered hp (hpers.ages.misses hm (fun r => hblocked r p))
  have hrest : AtRest c m.kernel := by
    apply h.atRest hrun
    rintro (he | ⟨b, he⟩)
    · cases hp.symm.trans he
    · cases hp.symm.trans he
      exact hregistered rfl
  obtain ⟨loc, hst, -⟩ := id hrest
  obtain ⟨t, ht, -⟩ := hst.runs c p hrun
  cases stage with
  | scanning =>
    rw [WaitPc.advance, wp_bind]
    apply wp_mono (h.wp_scan ht horder a.pid a.untraced) _ (fun _ _ he => he.elim)
    rintro scan k rfl
    cases scan <;> rw [wp_pure] <;> exact h.keep hrest hrun
  | found target =>
    simp only [WaitPc.advance, wp_bind, wp_assertMsg, wp_pure]
    apply wp_readTask_tolerant
    intro u _
    rw [wp_readTask ht]
    split
    · split
      · exact h.keep hrest hrun
      · trivial
    · trivial
  | reaping target result =>
    simp only [WaitPc.advance, wp_bind, wp_assertMsg, wp_pure, wp_get, wp_modify]
    apply wp_readTask_tolerant
    intro u _
    split
    · have hrest' : AtRest c { m.kernel with taskTable := tableErase u.pid m.kernel.taskTable } :=
        hrest.congr rfl rfl rfl
      apply h.update (h.life.erased u.pid) (Or.inl hrest')
      · exact Ages.of_subset rfl (List.filter_subset_self _)
      · exact fun _ _ _ hb => hb
      · exact fun _ _ _ => not_misses hrest' hrun
    · trivial
  | deleting target result =>
    obtain ⟨⟨u, hu, hdead⟩, hgone⟩ := htarget target result hp
    rw [WaitPc.advance, wp_bind]
    apply wp_mono (h.wp_delete hrest hu hdead hgone) _ (fun _ _ he => he.elim)
    rintro _ k ⟨hlife, hrest', hages, hblocked⟩
    rw [wp_pure]
    exact h.update hlife (Or.inl hrest') hages (fun q _ r => hblocked r q) (by simp)
  | blocking =>
    simp only [WaitPc.advance, wp_bind, wp_readTask ht, wp_pure]
    apply wp_mono (hrest.wp_register hrun hidle) _ (fun _ _ he => he.elim)
    rintro _ k ⟨hreg, hpers, hblocked⟩
    apply h.update (h.life.persists hpers) (Or.inr ⟨hreg.leaving, Or.inr ⟨a, rfl⟩⟩) hpers.ages
    · exact fun q hq r hb => (hblocked r q hb).resolve_right hq
    · rintro _ _ ⟨⟩ hm
      exact hchild hp (hpers.ages.unreaped ht hm.2)
  | registered => exact absurd rfl hregistered
  | resuming =>
    rw [WaitPc.advance, wp_pure]
    exact h.keep hrest hrun

theorem next {order : List (Pid × Ptr)} (h : Sound c m) (hen : m.Enabled P c (.next order))
    (hheed : m.Heeded c (.next order)) (hstep : m.step P c (.next order) = some m') :
    Sound c m' := by
  obtain ⟨p, hrun, hmove⟩ := Option.bind_eq_some_iff.mp hstep
  obtain ⟨pc, k, hk, rfl⟩ := move_eq_some.mp hmove
  obtain ⟨horder, hidle⟩ := hen
  cases hp : m.place p with
  | inWait a stage =>
    rw [hp] at hk
    exact (h.wp_inWait hrun (hidle p hrun) horder hp hheed).of_ok hk
  | outside returned =>
    rw [hp] at hk
    cases hk
    exact h.keep (h.atRest hrun (not_ending_of_outside (by rw [hp]; rfl))) hrun
  | leaving =>
    have hwp : wp (WaitPc.advance c order p .leaving)
        (fun pc k => Sound c ⟨k, Function.update m.place p pc⟩) (fun _ _ => True) m.kernel := by
      rw [WaitPc.advance, wp_bind]
      apply (h.wp_schedule hrun).imp _
      rintro _ k ⟨hrest, hpers, hblocked⟩
      rw [wp_pure]
      exact h.update (h.life.persists hpers) (Or.inl hrest) hpers.ages (fun q _ r => hblocked r q) nofun
    rw [hp] at hk
    exact hwp.of_ok hk

end Sound

theorem Run.sound (h : Run P c (fun m a => m.Heeded c a) m) : Sound c m := by
  apply h.invariant
  · exact ⟨Life.empty, Or.inl (AtRest.empty c), nofun⟩
  · rintro m a m' hm ⟨hen, hheed⟩ hstep
    cases a with
    | op o => exact hm.op hen hstep
    | wait a => exact hm.wait hen hstep
    | exit exitCode => exact hm.exit hen hheed hstep
    | next order => exact hm.next hen hheed hstep

/-- No lost wakeup between `Wait` and `Exit`: in every run whose steps meet the condition, a
task that is blocked in `Wait` for the exit of its children has no ended child in the table
that the call is for. -/
theorem no_child_missed (h : Run P c (fun m a => m.Heeded c a) m) {a : WaitArgs} {s : WaitStage}
    {t : TaskControlBlock} (hp : m.place p = .inWait a s) (ht : m.kernel.tasks p = some t)
    (hblocked : m.kernel.BlockedOn (ResourceId.make .kChildExit t.pid) p) :
    ∀ e ∈ m.kernel.taskTable, ∀ u, m.kernel.tasks e.2 = some u → pidMatches a.pid t u = true →
      u.status ≠ .kZombie ∧ u.status ≠ .kExited := by
  intro e he u hu hmatch
  rw [← isDead_eq_false_iff, Bool.eq_false_iff]
  intro hdead
  apply (Run.sound h).kept p a s hp
  refine ⟨?_, t, ht, e, he, u, hu, hmatch, hdead⟩
  rw [Kernel.pidOf_eq ht]
  exact hblocked

section Replay

instance (c : CoreId) : (op : SysOp) → Decidable (op = .tickUpdate c)
  | .tickUpdate c' => decidable_of_iff (c' = c) (by simp)
  | .initCurrentCore _ _ | .addTask _ _ _ | .clone _ _ _ | .schedule _ | .sleep _ _ | .block _ _
  | .wakeup _ _ | .exit _ _ | .wait _ _ _ _ _ | .findTask _ _ | .allocPage _ | .vmCall _ _ _ =>
    isFalse nofun

instance (P : Platform) (c : CoreId) : (op : SysOp) → Decidable (op.OnCore P c)
  | .initCurrentCore c' _ | .clone c' _ _ | .schedule c' | .tickUpdate c' | .sleep c' _ | .block c' _
  | .wakeup c' _ | .findTask c' _ | .allocPage c' | .vmCall c' _ _ =>
    inferInstanceAs (Decidable (c' = c))
  | .addTask c' _ t => inferInstanceAs (Decidable (c' = c ∧ targetCore P c t.cpuAffinity = c))
  | .exit _ _ | .wait _ _ _ _ _ => inferInstanceAs (Decidable False)

instance (P : Platform) (c : CoreId) (m : WaitMachine) : (a : WaitAction) → Decidable (m.Enabled P c a)
  | .op op => inferInstanceAs (Decidable (op.Enabled m.kernel ∧ op.OnCore P c ∧
      ∀ p ∈ m.kernel.running c, (m.place p).isOutside = true ∨ op = .tickUpdate c))
  | .wait _ | .exit _ => inferInstanceAs (Decidable (∀ p ∈ m.kernel.running c,
      m.kernel.idle c ≠ some p ∧ (m.place p).isOutside = true))
  | .next order => inferInstanceAs (Decidable (order.Perm m.kernel.taskTable ∧
      ∀ p ∈ m.kernel.running c, m.kernel.idle c ≠ some p))

instance (k : Kernel) (pid : Pid) (p : Ptr) : Decidable (k.Unreaped pid p) :=
  inferInstanceAs (Decidable (∃ t ∈ k.tasks p, ∃ e ∈ k.taskTable, ∃ u ∈ k.tasks e.2,
    pidMatches pid t u = true ∧ isDead u = true))

/-- What the next step of a task in `Wait` asks of the table. -/
def StageHeeded (k : Kernel) (p : Ptr) : WaitPc → Prop
  | .inWait a .blocking => ¬ k.Unreaped a.pid p
  | .inWait _ (.deleting target _) => (∃ u ∈ k.tasks target, isDead u = true) ∧
      ∀ e ∈ k.taskTable, e.2 ≠ target
  | _ => True

instance (k : Kernel) (p : Ptr) : (pc : WaitPc) → Decidable (StageHeeded k p pc)
  | .inWait a .blocking => inferInstanceAs (Decidable (¬ k.Unreaped a.pid p))
  | .inWait _ (.deleting target _) => inferInstanceAs (Decidable
      ((∃ u ∈ k.tasks target, isDead u = true) ∧ ∀ e ∈ k.taskTable, e.2 ≠ target))
  | .inWait _ .scanning | .inWait _ (.found _) | .inWait _ (.reaping _ _) | .inWait _ .registered
  | .inWait _ .resuming | .outside _ | .leaving => inferInstanceAs (Decidable True)

/-- The condition on the steps, for the exits of children of the init task. -/
def Heeds (c : CoreId) (m : WaitMachine) : WaitAction → Bool
  | .op _ | .wait _ => true
  | .exit _ => decide (∀ p ∈ m.kernel.running c, ∀ t ∈ m.kernel.tasks p,
      m.kernel.exitParent p t = kInitPid ∧ t.policy ≠ .kIdle)
  | .next _ => decide (∀ p ∈ m.kernel.running c, StageHeeded m.kernel p (m.place p))

theorem Run.heeded {a : WaitAction} (h : Run P c (fun m a => m.Heeded c a) m)
    (hen : m.Enabled P c a) (hc : m.Heeds c a = true) : m.Heeded c a := by
  cases a with
  | op | wait => trivial
  | exit exitCode =>
    intro p t hrun ht
    obtain ⟨hpar, hpol⟩ := of_decide_eq_true hc p hrun t ht
    obtain ⟨-, hout⟩ := hen p hrun
    obtain ⟨loc, hst, -⟩ : AtRest c m.kernel :=
      (Run.sound h).atRest hrun (not_ending_of_outside hout)
    refine ⟨?_, hst.not_held ht hpol, Or.inl hpar⟩
    rw [hpar]
    decide
  | next order =>
    intro p a hrun
    have hstage := of_decide_eq_true hc p hrun
    constructor
    · intro hp
      rwa [hp] at hstage
    · intro target result hp
      rwa [hp] at hstage

def shortSlice (parentPid : Pid) : TaskControlBlock :=
  { parentPid := parentPid, schedInfo := { timeSliceDefault := 1 } }

/-- Core 0 is initialised and given the init task and two children, and the init task runs. -/
def threeTasks : List WaitAction :=
  [.op (.initCurrentCore 0 0), .op (.addTask 0 1 (shortSlice 0)), .op (.addTask 0 2 (shortSlice 1)),
    .op (.addTask 0 3 (shortSlice 1)), .op (.schedule 0)]

/-- The init task is blocked in `Wait` for any child, and child 3 lives. -/
def Waiting (m : WaitMachine) : Prop :=
  m.place 1 = .inWait ⟨-1, false, false⟩ .resuming ∧ m.kernel.taskTable = [(1, 1), (3, 3)] ∧
    ∃ t ∈ m.kernel.tasks 1, m.kernel.BlockedOn (ResourceId.make .kChildExit t.pid) 1

instance (m : WaitMachine) : Decidable m.Waiting := by
  unfold Waiting
  infer_instance

/-- The init task blocks, child 2 exits and is reaped, and the init task blocks again. -/
theorem no_child_missed_example :
    ∃ m t, Run (presetPlatform true) 0 (fun m a => m.Heeded 0 a) m ∧ m.Waiting ∧
      m.kernel.tasks 1 = some t ∧
      ∀ e ∈ m.kernel.taskTable, ∀ u, m.kernel.tasks e.2 = some u → pidMatches (-1) t u = true →
        u.status ≠ .kZombie ∧ u.status ≠ .kExited := by
  have hrun : ∃ m, Run (presetPlatform true) 0 (fun m a => m.Heeded 0 a) m ∧ m.Waiting := by
    apply Reached.exists_replay .start
      (fun m a => decide (m.Enabled (presetPlatform true) 0 a) && m.Heeds 0 a) _
      (threeTasks ++ .wait ⟨-1, false, false⟩ :: List.replicate 3 (.next [(1, 1), (2, 2), (3, 3)]) ++
        .exit 7 :: .next [(1, 1), (2, 2), (3, 3)] :: .op (.tickUpdate 0) ::
        List.replicate 4 (.next [(1, 1), (2, 2), (3, 3)]) ++ .next [(1, 1), (3, 3)] ::
        .wait ⟨-1, false, false⟩ :: List.replicate 3 (.next [(1, 1), (3, 3)]))
    · decide +kernel
    · intro m a hm hc
      rw [Bool.and_eq_true, decide_eq_true_eq] at hc
      exact ⟨hc.1, Run.heeded hm hc.1 hc.2⟩
  obtain ⟨m, hm, hwait⟩ := hrun
  obtain ⟨hp, -, t, ht, hblocked⟩ := id hwait
  exact ⟨m, t, hm, hwait, ht, no_child_missed hm hp ht hblocked⟩

/-- The init task is blocked in `Wait` for any child, and child 2 is a zombie. -/
def Overslept (m : WaitMachine) : Prop :=
  m.place 1 = .inWait ⟨-1, false, false⟩ .resuming ∧ (2, 2) ∈ m.kernel.taskTable ∧
    ∃ t ∈ m.kernel.tasks 1, m.kernel.BlockedOn (ResourceId.make .kChildExit t.pid) 1 ∧
      ∃ u ∈ m.kernel.tasks 2, pidMatches (-1) t u = true ∧ u.status = .kZombie

instance (m : WaitMachine) : Decidable m.Overslept := by
  unfold Overslept
  infer_instance

/-- A tick comes between the scan of the init task and its registration. Child 2 exits and
wakes nobody; then the init task blocks. -/
theorem tick_before_registration_loses_child :
    ∃ m, Run (presetPlatform true) 0 (fun _ _ => True) m ∧ m.Overslept := by
  apply Reached.exists_replay .start (fun m a => decide (m.Enabled (presetPlatform true) 0 a)) _
    (threeTasks ++ [.wait ⟨-1, false, false⟩, .next [(1, 1), (2, 2), (3, 3)], .op (.tickUpdate 0),
      .exit 7, .next [(1, 1), (2, 2), (3, 3)], .op (.tickUpdate 0),
      .next [(1, 1), (2, 2), (3, 3)], .next [(1, 1), (2, 2), (3, 3)]])
  · decide +kernel
  · exact fun m a _ hc => ⟨of_decide_eq_true hc, trivial⟩

end Replay

end WaitMachine

end NaiLongKernel.Task
