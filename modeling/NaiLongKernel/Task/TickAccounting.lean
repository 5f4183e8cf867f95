import NaiLongKernel.Foundation.Reached
import NaiLongKernel.Task.Kernel
import NaiLongKernel.Task.CfsScheduler

/-!
# What a tick charges

`TickUpdate` and `Schedule` of one core over the interface `SchedulerBase`, with any
implementation installed for each policy. A member function of a scheduler reads and writes
the scheduler and the control blocks, but not the run times, which `TickUpdate` counts. The
calls of `OnTick` are counted beside them.
-/
namespace NaiLongKernel.Task

open Foundation

abbrev Tasks := Ptr → TaskControlBlock

/-- A member function of a scheduler with members `σ`. -/
structure Method (σ α : Type) where
  run : σ → Tasks → α × σ × Tasks
  runtime : ∀ s ts p, ((run s ts).2.2 p).schedInfo.totalRuntime = (ts p).schedInfo.totalRuntime

def Method.skip {σ α : Type} (a : α) : Method σ α := ⟨fun s ts => (a, s, ts), fun _ _ _ => rfl⟩

/-- The virtual functions that `TickUpdate` and `Schedule` call, with their default bodies. -/
structure SchedulerBase (σ : Type) where
  enqueue : Ptr → Method σ Unit
  pickNext : Method σ (Option Ptr)
  isEmpty : σ → Bool
  onTick : Ptr → Method σ Bool := fun _ => .skip false
  onTimeSliceExpired : Ptr → Method σ Bool := fun _ => .skip true
  onPreempted : Ptr → Method σ Unit := fun _ => .skip ()
  onScheduled : Ptr → Method σ Unit := fun _ => .skip ()

/-- `Enqueue` leaves the status of the tasks alone. -/
def SchedulerBase.KeepsStatus {σ : Type} (b : SchedulerBase σ) : Prop :=
  ∀ q s ts p, (((b.enqueue q).run s ts).2.2 p).status = (ts p).status

structure TickCore (σ : Type) where
  tasks : Tasks
  runningTask : Option Ptr
  idleTask : Option Ptr
  localTick : BitVec 64
  sleepingTasks : List Ptr
  /-- The scheduler that is installed for a policy, with its members. -/
  schedulers : SchedPolicy → Option (SchedulerBase σ × σ)
  /-- How often `OnTick` has been called for a task. -/
  onTickCalls : Ptr → ℕ

abbrev TickM (σ : Type) := EStateM Fault (TickCore σ)

namespace TickCore

variable {σ α : Type}

def setTask (p : Ptr) (f : TaskControlBlock → TaskControlBlock) (m : TickCore σ) : TickCore σ :=
  { m with tasks := Function.update m.tasks p (f (m.tasks p)) }

/-- A call of a member function of the scheduler that is installed for the policy, if any. -/
def call (policy : SchedPolicy) (f : SchedulerBase σ → Method σ α) : TickM σ (Option α) := do
  let m ← get
  match m.schedulers policy with
  | none => return none
  | some (b, s) =>
    let r := (f b).run s m.tasks
    modify fun m => { m with
      tasks := r.2.2
      schedulers := Function.update m.schedulers policy (some (b, r.2.1)) }
    return some r.1

/-- `IsEmpty`, or nothing without a scheduler. -/
def isEmpty? (policy : SchedPolicy) (m : TickCore σ) : Option Bool :=
  (m.schedulers policy).map fun (b, s) => b.isEmpty s

def wakesLater (m : TickCore σ) (a b : Ptr) : Bool :=
  decide ((m.tasks b).schedInfo.wakeTick < (m.tasks a).schedInfo.wakeTick)

variable (H : HeapAlgorithms Ptr)

/-- The loop over the sleepers that are due; with whether there were any. -/
def wakeSleepers : (fuel : ℕ) → TickM σ Bool
  | 0 => throw .diverges
  | fuel+1 => do
    let m ← get
    match m.sleepingTasks with
    | [] => return false
    | task :: _ =>
      if m.localTick < (m.tasks task).schedInfo.wakeTick then
        return false
      modify fun m => { m with sleepingTasks := H.pop m.wakesLater m.sleepingTasks }
      modify (setTask task (·.setStatus .kReady))
      if m.runningTask ≠ some task then
        let _ ← call (m.tasks task).policy (·.enqueue task)
      let _ ← wakeSleepers fuel
      return true

/-- `need_preempt || scheduler->OnTick(current)`: a task that must give way in any case is
not shown to the scheduler. -/
def onTick (current : Ptr) (needPreempt : Bool) : TickM σ Bool := do
  let m ← get
  match m.schedulers (m.tasks current).policy with
  | none => return needPreempt
  | some _ =>
    if needPreempt then
      return true
    modify fun m => { m with
      onTickCalls := Function.update m.onTickCalls current (m.onTickCalls current + 1) }
    return (← call (m.tasks current).policy (·.onTick current)).getD false

/-- The running task is charged for the tick; with whether it must give way. -/
def chargeTick (needPreempt : Bool) : TickM σ Bool := do
  let m ← get
  match m.runningTask with
  | none => return needPreempt
  | some current =>
    if (m.tasks current).status = .kRunning then
      modify (setTask current (·.charged))
      let needPreempt ← onTick current needPreempt
      return needPreempt || ((← get).tasks current).schedInfo.timeSliceRemaining == 0
    else
      return needPreempt

/-- `TickUpdate` under the lock, with whether to schedule. -/
def tickBody : TickM σ Bool := do
  modify fun m => { m with localTick := m.localTick + 1 }
  let needPreempt ← wakeSleepers H ((← get).sleepingTasks.length + 1)
  chargeTick needPreempt

/-- `current` is put back into its queue when it can still run. -/
def requeueCurrent (current : Ptr) : TickM σ Unit := do
  let t := (← get).tasks current
  if t.status = .kRunning then
    modify (setTask current (·.setStatus .kReady))
    let _ ← call t.policy (·.onPreempted current)
    if (← call t.policy (·.onTimeSliceExpired current)) = some true then
      let _ ← call t.policy (·.enqueue current)

/-- The inner loop of the search; a scheduler may offer tasks without end. -/
def searchQueue (policy : SchedPolicy) : (fuel : ℕ) → TickM σ (Option Ptr)
  | 0 => throw .diverges
  | fuel+1 => do
    if (← get).isEmpty? policy = some false then
      match ← call policy (·.pickNext) with
      | some (some cand) =>
        if ((← get).tasks cand).status = .kReady then
          return some cand
        searchQueue policy fuel
      | _ => return none
    else
      return none

def searchPolicies (fuel : ℕ) : List SchedPolicy → TickM σ (Option Ptr)
  | [] => return none
  | policy :: rest => do
    match ← searchQueue policy fuel with
    | some next => return some next
    | none => searchPolicies fuel rest

def useIdle (idleTask : Ptr) : TickM σ Ptr := do
  modify (setTask idleTask (·.setStatus .kReady))
  return idleTask

def chooseNext (fuel : ℕ) (current : Ptr) : TickM σ Ptr := do
  match ← searchPolicies fuel [.kRealTime, .kNormal, .kIdle] with
  | some next => return next
  | none =>
    if ((← get).tasks current).status = .kReady then
      return current
    match (← get).idleTask with
    | some idleTask => useIdle idleTask
    | none => throw .parked

def leaveCurrent (current next : Ptr) : TickM σ Ptr := do
  if current = next ∧ ((← get).tasks current).status ≠ .kReady then
    match (← get).idleTask with
    | some idleTask =>
      if idleTask ≠ current then
        useIdle idleTask
      else
        throw (.assertFailed "Schedule: need idle while current is not runnable")
    | none => throw (.assertFailed "Schedule: need idle while current is not runnable")
  else
    return next

/-- `next` becomes the running task. -/
def dispatch (current next : Ptr) : TickM σ Unit := do
  if ((← get).tasks next).status ≠ .kReady then
    throw (.assertFailed "Schedule: next task must be kReady")
  if ((← get).tasks current).status ≠ .kReady ∧ current = next then
    throw (.assertFailed "Schedule: must switch away from non-ready current")
  modify (setTask next fun t =>
    { t with
      status := .kRunning
      schedInfo := { t.schedInfo with
        timeSliceRemaining := t.schedInfo.timeSliceDefault
        contextSwitches := t.schedInfo.contextSwitches + 1 } })
  let _ ← call ((← get).tasks next).policy (·.onScheduled next)
  modify fun m => { m with runningTask := some next }

/-- `Schedule`, with at most `fuel` picks from each scheduler. -/
def schedule (fuel : ℕ) : TickM σ Unit := do
  match (← get).runningTask with
  | none => throw (.assertFailed "Schedule: No current task to schedule")
  | some current =>
    requeueCurrent current
    let next ← chooseNext fuel current
    let next ← leaveCurrent current next
    dispatch current next

def tickUpdate (fuel : ℕ) : TickM σ Unit := do
  if ← tickBody H then
    schedule fuel

def accounts (m : TickCore σ) : (Ptr → BitVec 64) × (Ptr → ℕ) :=
  (fun p => (m.tasks p).schedInfo.totalRuntime, m.onTickCalls)

variable {m m' m'' : TickCore σ} {p : Ptr}

theorem accounts_setTask {f : TaskControlBlock → TaskControlBlock}
    (hf : ∀ t, (f t).schedInfo.totalRuntime = t.schedInfo.totalRuntime) (p : Ptr) (m : TickCore σ) :
    (m.setTask p f).accounts = m.accounts := by
  simp only [accounts, setTask, Prod.mk.injEq, and_true]
  funext q
  by_cases hq : q = p
  · rw [hq, Function.update_self, hf]
  · rw [Function.update_of_ne hq]

def called (policy : SchedPolicy) (b : SchedulerBase σ) (r : α × σ × Tasks) (m : TickCore σ) :
    TickCore σ :=
  { m with
    tasks := r.2.2
    schedulers := Function.update m.schedulers policy (some (b, r.2.1)) }

theorem wp_call {policy : SchedPolicy} {f : SchedulerBase σ → Method σ α}
    {Q : Option α → TickCore σ → Prop} {E : Fault → TickCore σ → Prop}
    (hnone : m.schedulers policy = none → Q none m)
    (hsome : ∀ b s, m.schedulers policy = some (b, s) →
      Q (some ((f b).run s m.tasks).1) (m.called policy b ((f b).run s m.tasks))) :
    wp (call policy f) Q E m := by
  simp only [call, wp_bind, wp_get]
  cases h : m.schedulers policy with
  | none => exact (wp_pure _).mpr (hnone h)
  | some x => exact (wp_bind _ _ _).mpr ((wp_modify _ _).mpr ((wp_pure _).mpr (hsome x.1 x.2 h)))

/-- The program neither counts run time nor calls `OnTick`. -/
abbrev Uncharged (x : TickM σ α) : Prop := Keeps accounts x

namespace Uncharged

theorem setTask {f : TaskControlBlock → TaskControlBlock}
    (hf : ∀ t, (f t).schedInfo.totalRuntime = t.schedInfo.totalRuntime) (p : Ptr) :
    Uncharged (modify (TickCore.setTask p f) : TickM σ PUnit) :=
  Keeps.modify (accounts_setTask hf p)

theorem setStatus (st : TaskStatus) (p : Ptr) :
    Uncharged (modify (TickCore.setTask p (·.setStatus st)) : TickM σ PUnit) :=
  setTask (f := (·.setStatus st)) (fun _ => rfl) p

theorem call (policy : SchedPolicy) (f : SchedulerBase σ → Method σ α) :
    Uncharged (call policy f) := by
  intro m
  apply wp_call
  · exact fun _ => rfl
  · intro b s _
    simp only [accounts, called, Prod.mk.injEq, and_true]
    exact funext ((f b).runtime s m.tasks)

theorem wakeSleepers (fuel : ℕ) : Uncharged (wakeSleepers H fuel : TickM σ Bool) := by
  induction fuel with
  | zero => exact Keeps.throw _
  | succ fuel ih =>
    refine Keeps.bind Keeps.get (fun m => ?_)
    cases m.sleepingTasks with
    | nil => exact Keeps.pure _
    | cons task rest =>
      have hrest : Uncharged (do
          let _ ← TickCore.wakeSleepers H fuel
          return true : TickM σ Bool) := Keeps.bind ih (fun _ => Keeps.pure _)
      refine Keeps.ite (Keeps.pure _) ?_
      refine Keeps.bind (Keeps.modify fun _ => rfl) (fun _ => ?_)
      refine Keeps.bind (setStatus _ task) (fun _ => ?_)
      exact Keeps.ite (Keeps.bind (call _ _) (fun _ => hrest)) hrest

theorem requeueCurrent (current : Ptr) : Uncharged (requeueCurrent current : TickM σ Unit) := by
  refine Keeps.bind Keeps.get (fun m => Keeps.ite ?_ (Keeps.pure _))
  refine Keeps.bind (setStatus _ current) (fun _ => ?_)
  refine Keeps.bind (call _ _) (fun _ => Keeps.bind (call _ _) (fun b => ?_))
  exact Keeps.ite (Keeps.bind (call _ _) (fun _ => Keeps.pure _)) (Keeps.pure _)

theorem searchQueue (policy : SchedPolicy) (fuel : ℕ) :
    Uncharged (searchQueue policy fuel : TickM σ (Option Ptr)) := by
  induction fuel with
  | zero => exact Keeps.throw _
  | succ fuel ih =>
    refine Keeps.bind Keeps.get (fun m => Keeps.ite ?_ (Keeps.pure _))
    refine Keeps.bind (call _ _) (fun r => ?_)
    rcases r with _ | _ | cand
    · exact Keeps.pure _
    · exact Keeps.pure _
    · exact Keeps.bind Keeps.get (fun m => Keeps.ite (Keeps.pure _) ih)

theorem searchPolicies (fuel : ℕ) (policies : List SchedPolicy) :
    Uncharged (searchPolicies fuel policies : TickM σ (Option Ptr)) := by
  induction policies with
  | nil => exact Keeps.pure _
  | cons policy rest ih =>
    refine Keeps.bind (searchQueue policy fuel) (fun r => ?_)
    cases r with
    | none => exact ih
    | some next => exact Keeps.pure _

theorem useIdle (idleTask : Ptr) : Uncharged (useIdle idleTask : TickM σ Ptr) :=
  Keeps.bind (setStatus _ idleTask) (fun _ => Keeps.pure _)

theorem chooseNext (fuel : ℕ) (current : Ptr) :
    Uncharged (chooseNext fuel current : TickM σ Ptr) := by
  refine Keeps.bind (searchPolicies fuel _) (fun r => ?_)
  cases r with
  | some next => exact Keeps.pure _
  | none =>
    refine Keeps.bind Keeps.get (fun m => Keeps.ite (Keeps.pure _) ?_)
    refine Keeps.bind Keeps.get (fun m => ?_)
    cases m.idleTask with
    | none => exact Keeps.throw _
    | some idleTask => exact useIdle idleTask

theorem leaveCurrent (current next : Ptr) : Uncharged (leaveCurrent current next : TickM σ Ptr) := by
  refine Keeps.bind Keeps.get (fun m => Keeps.ite ?_ (Keeps.pure _))
  refine Keeps.bind Keeps.get (fun m => ?_)
  cases m.idleTask with
  | none => exact Keeps.throw _
  | some idleTask => exact Keeps.ite (useIdle idleTask) (Keeps.throw _)

theorem dispatch (current next : Ptr) : Uncharged (dispatch current next : TickM σ Unit) := by
  have hrest : Uncharged (do
      modify (TickCore.setTask next fun t =>
        { t with
          status := .kRunning
          schedInfo := { t.schedInfo with
            timeSliceRemaining := t.schedInfo.timeSliceDefault
            contextSwitches := t.schedInfo.contextSwitches + 1 } })
      let _ ← TickCore.call ((← get).tasks next).policy (·.onScheduled next)
      modify fun m => { m with runningTask := some next } : TickM σ Unit) := by
    refine Keeps.bind (setTask ?_ next) (fun _ => Keeps.bind Keeps.get (fun m => ?_))
    · exact fun _ => rfl
    · exact Keeps.bind (call _ _) (fun _ => Keeps.modify fun _ => rfl)
  refine Keeps.bind Keeps.get (fun m => Keeps.ite (Keeps.bind (Keeps.throw _) fun _ => ?_) ?_)
  all_goals
    refine Keeps.bind Keeps.get (fun m => Keeps.ite (Keeps.bind (Keeps.throw _) fun _ => hrest) hrest)

theorem schedule (fuel : ℕ) : Uncharged (schedule fuel : TickM σ Unit) := by
  refine Keeps.bind Keeps.get (fun m => ?_)
  cases m.runningTask with
  | none => exact Keeps.throw _
  | some current =>
    refine Keeps.bind (requeueCurrent current) (fun _ => ?_)
    refine Keeps.bind (chooseNext fuel current) (fun next => ?_)
    exact Keeps.bind (leaveCurrent current next) (fun next => dispatch current next)

end Uncharged

/-- As many calls of `OnTick` as ticks of run time, for every task. -/
def Balanced (m m' : TickCore σ) : Prop :=
  ∀ p, ∃ n, (m'.tasks p).schedInfo.totalRuntime =
      (m.tasks p).schedInfo.totalRuntime + BitVec.ofNat 64 n ∧
    m'.onTickCalls p = m.onTickCalls p + n

namespace Balanced

theorem of_accounts (h : m'.accounts = m.accounts) : m.Balanced m' := by
  obtain ⟨hruntime, hcalls⟩ := Prod.mk.inj h
  intro p
  refine ⟨0, ?_, ?_⟩
  · rw [BitVec.add_zero]
    exact congrFun hruntime p
  · exact congrFun hcalls p

theorem trans (h : m.Balanced m') (h' : m'.Balanced m'') : m.Balanced m'' := by
  intro p
  obtain ⟨n, hruntime, hcalls⟩ := h p
  obtain ⟨n', hruntime', hcalls'⟩ := h' p
  refine ⟨n + n', ?_, ?_⟩
  · rw [hruntime', hruntime, BitVec.ofNat_add, BitVec.add_assoc]
  · rw [hcalls', hcalls, Nat.add_assoc]

end Balanced

def NoneDue (m : TickCore σ) : Prop :=
  ∀ p, m.sleepingTasks.head? = some p → m.localTick + 1 < (m.tasks p).schedInfo.wakeTick

def NotRunning (m : TickCore σ) : Prop :=
  ∀ p, m.runningTask = some p → (m.tasks p).status ≠ .kRunning ∧
    ∀ policy b s, m.schedulers policy = some (b, s) → b.KeepsStatus

theorem wp_wakeSleepers_none {n : ℕ} (h : ∀ p, m.sleepingTasks.head? = some p →
    m.localTick < (m.tasks p).schedInfo.wakeTick) :
    wp (wakeSleepers H (n + 1)) (fun b m' => b = false ∧ m' = m) (fun _ _ => True) m := by
  simp only [wakeSleepers, wp_bind, wp_get]
  cases hl : m.sleepingTasks with
  | nil => exact (wp_pure _).mpr ⟨rfl, rfl⟩
  | cons p rest =>
    have hlt := h p (by rw [hl]; rfl)
    simp only [if_pos hlt]
    exact (wp_pure _).mpr ⟨rfl, rfl⟩

namespace NotRunning

theorem setReady (h : m.NotRunning) (task : Ptr) :
    (m.setTask task (·.setStatus .kReady)).NotRunning := by
  intro p hp
  obtain ⟨hst, hkeeps⟩ := h p hp
  refine ⟨?_, hkeeps⟩
  by_cases hpt : p = task
  · subst hpt
    simp [setTask, TaskControlBlock.setStatus]
  · simpa [setTask, Function.update_of_ne hpt] using hst

theorem enqueued (h : m.NotRunning) {policy : SchedPolicy} {b : SchedulerBase σ} {s : σ}
    (hb : m.schedulers policy = some (b, s)) (task : Ptr) :
    (m.called policy b ((b.enqueue task).run s m.tasks)).NotRunning := by
  intro p hp
  obtain ⟨hst, hkeeps⟩ := h p hp
  constructor
  · change (((b.enqueue task).run s m.tasks).2.2 p).status ≠ _
    rw [hkeeps policy b s hb]
    exact hst
  · intro policy' b' s' hb'
    by_cases hpol : policy' = policy
    · simp only [called, hpol, Function.update_self, Option.some.injEq, Prod.mk.injEq] at hb'
      exact hb'.1 ▸ hkeeps policy b s hb
    · simp only [called, Function.update_of_ne hpol] at hb'
      exact hkeeps policy' b' s' hb'

theorem wp_wakeSleepers (h : m.NotRunning) (fuel : ℕ) :
    wp (wakeSleepers H fuel) (fun _ m' => m'.NotRunning) (fun _ _ => True) m := by
  induction fuel generalizing m with
  | zero => exact (wp_throw _).mpr trivial
  | succ fuel ih =>
    simp only [wakeSleepers, wp_bind, wp_get]
    cases m.sleepingTasks with
    | nil => exact (wp_pure _).mpr h
    | cons task rest =>
      have hready := (show NotRunning { m with sleepingTasks := H.pop m.wakesLater m.sleepingTasks }
        from h).setReady task
      simp only [wp_ite, wp_pure, wp_bind, wp_modify]
      split
      · exact h
      · split
        · apply wp_call
          · exact fun _ => ih hready
          · exact fun b s hb => ih (hready.enqueued hb task)
        · exact ih hready

end NotRunning

theorem wp_chargeTick_none (h : ∀ p, m.runningTask = some p → (m.tasks p).status ≠ .kRunning)
    (b : Bool) : wp (chargeTick b) (fun _ m' => m' = m) (fun _ _ => True) m := by
  simp only [chargeTick, wp_bind, wp_get]
  cases hrun : m.runningTask with
  | none => exact (wp_pure _).mpr rfl
  | some p =>
    simp only [if_neg (h p hrun)]
    exact (wp_pure _).mpr rfl

theorem wp_onTick {b : SchedulerBase σ} {s : σ} {E : Fault → TickCore σ → Prop}
    (hb : m.schedulers (m.tasks p).policy = some (b, s)) :
    wp (onTick p false) (fun _ m' => m'.tasks = ((b.onTick p).run s m.tasks).2.2 ∧
      m'.onTickCalls = Function.update m.onTickCalls p (m.onTickCalls p + 1)) E m := by
  simp only [onTick, wp_bind, wp_get, hb, Bool.false_eq_true, if_false, wp_modify, wp_pure]
  apply wp_call
  · intro hno
    cases hno.symm.trans hb
  · intro b' s' hb'
    obtain ⟨rfl, rfl⟩ := Prod.mk.inj (Option.mem_unique hb' hb)
    exact ⟨rfl, rfl⟩

theorem wp_tickBody_charged {b : SchedulerBase σ} {s : σ} (hnone : m.NoneDue)
    (hrun : m.runningTask = some p) (hst : (m.tasks p).status = .kRunning)
    (hb : m.schedulers (m.tasks p).policy = some (b, s)) :
    wp (tickBody H) (fun _ m' =>
      m'.tasks = ((b.onTick p).run s (Function.update m.tasks p (m.tasks p).charged)).2.2 ∧
      m'.onTickCalls = Function.update m.onTickCalls p (m.onTickCalls p + 1)) (fun _ _ => True) m := by
  simp only [tickBody, wp_bind, wp_modify, wp_get]
  refine wp_mono (wp_wakeSleepers_none (H := H) hnone) ?_ (fun _ _ he => he)
  rintro _ _ ⟨rfl, rfl⟩
  set m₁ : TickCore σ := { m with localTick := m.localTick + 1 } with hm₁
  have hrun₁ : m₁.runningTask = some p := hrun
  have hst₁ : (m₁.tasks p).status = .kRunning := hst
  have hb₁ : (m₁.setTask p (·.charged)).schedulers ((m₁.setTask p (·.charged)).tasks p).policy =
      some (b, s) := by
    simp only [setTask, Function.update_self]
    exact hb
  simp only [chargeTick, wp_bind, wp_get, hrun₁, if_pos hst₁, wp_modify]
  exact (wp_onTick hb₁).imp (fun _ _ hm => (wp_pure _).mpr hm)

/-- Every policy of a running task has a scheduler; and no sleeper is due, or no task will be
charged. -/
structure Chargeable (m : TickCore σ) : Prop where
  installed : ∀ p, m.runningTask = some p → (m.schedulers (m.tasks p).policy).isSome = true
  quiet : m.NoneDue ∨ m.NotRunning

namespace Chargeable

theorem wp_tickBody (h : m.Chargeable) :
    wp (tickBody H) (fun _ m' => m.Balanced m') (fun _ _ => True) m := by
  by_cases hcharge : ∃ p, m.runningTask = some p ∧ (m.tasks p).status = .kRunning
  · obtain ⟨p, hrun, hst⟩ := hcharge
    have hnone : m.NoneDue := h.quiet.resolve_right (fun hnot => (hnot p hrun).1 hst)
    obtain ⟨⟨b, s⟩, hb⟩ := Option.isSome_iff_exists.mp (h.installed p hrun)
    refine (wp_tickBody_charged H hnone hrun hst hb).imp ?_
    rintro _ m' ⟨htasks, hcalls⟩ q
    have hruntime := (b.onTick p).runtime s (Function.update m.tasks p (m.tasks p).charged) q
    rw [← htasks] at hruntime
    rw [hruntime, hcalls]
    by_cases hq : q = p
    · rw [hq, Function.update_self, Function.update_self]
      exact ⟨1, rfl, rfl⟩
    · rw [Function.update_of_ne hq, Function.update_of_ne hq]
      exact ⟨0, (BitVec.add_zero _).symm, rfl⟩
  · -- no task is charged
    have hidle : ∀ p, m.runningTask = some p → (m.tasks p).status ≠ .kRunning :=
      fun p hrun hst => hcharge ⟨p, hrun, hst⟩
    set m₁ : TickCore σ := { m with localTick := m.localTick + 1 }
    have hwake : wp (wakeSleepers H (m₁.sleepingTasks.length + 1)) (fun _ m₂ =>
        m₂.accounts = m₁.accounts ∧ ∀ p, m₂.runningTask = some p → (m₂.tasks p).status ≠ .kRunning)
        (fun _ _ => True) m₁ := by
      rcases h.quiet with hnone | hnot
      · refine (wp_wakeSleepers_none (m := m₁) H hnone).imp ?_
        rintro _ _ ⟨-, rfl⟩
        exact ⟨rfl, hidle⟩
      · have hnot₁ : m₁.NotRunning := hnot
        refine wp_mono (wp_and (Uncharged.wakeSleepers H _ m₁) (hnot₁.wp_wakeSleepers H _)) ?_
          (fun _ _ _ => trivial)
        rintro _ m₂ ⟨haccounts, hnot₂⟩
        exact ⟨haccounts, fun p hp => (hnot₂ p hp).1⟩
    simp only [tickBody, wp_bind, wp_modify, wp_get]
    refine hwake.imp ?_
    rintro b m₂ ⟨haccounts, hidle₂⟩
    refine (wp_chargeTick_none hidle₂ b).imp ?_
    rintro _ _ rfl
    exact Balanced.of_accounts haccounts

theorem wp_tickUpdate (h : m.Chargeable) (fuel : ℕ) :
    wp (tickUpdate H fuel) (fun _ m' => m.Balanced m') (fun _ _ => True) m := by
  simp only [tickUpdate, wp_bind]
  refine (h.wp_tickBody H).imp ?_
  intro b m₁ h₁
  rw [wp_ite, wp_pure]
  split
  · refine (Uncharged.schedule fuel m₁).imp ?_
    intro _ m₂ h₂
    exact h₁.trans (Balanced.of_accounts h₂)
  · exact h₁

end Chargeable

end TickCore

/-- What happens on the core: a tick, or anything else that neither counts run time nor calls
`OnTick`. -/
inductive TickAction (σ : Type) where
  | tick (fuel : ℕ)
  | other (program : TickM σ Unit) (uncharged : TickCore.Uncharged program)

namespace TickCore

variable {σ : Type} (H : HeapAlgorithms Ptr)

def runProgram (x : TickM σ Unit) (m : TickCore σ) : Option (TickCore σ) :=
  match x m with
  | .ok _ m' => some m'
  | .error _ _ => none

def step (m : TickCore σ) : TickAction σ → Option (TickCore σ)
  | .tick fuel => m.runProgram (tickUpdate H fuel)
  | .other program _ => m.runProgram program

/-- Every tick comes in a state in which the running task will be charged for all of it. -/
def TicksChargeable (m : TickCore σ) (a : TickAction σ) : Prop := ∀ fuel, a = .tick fuel → m.Chargeable

variable {m m' : TickCore σ}

theorem ok_of_runProgram {x : TickM σ Unit} (h : m.runProgram x = some m') : x m = .ok () m' := by
  unfold runProgram at h
  split at h
  · rename_i heq
    cases h
    exact heq
  · cases h

theorem balanced_step {a : TickAction σ} (hcharge : m.TicksChargeable a) (h : m.step H a = some m') :
    m.Balanced m' := by
  cases a with
  | tick fuel => exact ((hcharge fuel rfl).wp_tickUpdate H fuel).of_ok (ok_of_runProgram h)
  | other program hx => exact Balanced.of_accounts ((hx m).of_ok (ok_of_runProgram h))

end TickCore

namespace CfsScheduler

variable {α τ : Type} (H : HeapAlgorithms Ptr)

/-- A member function of `CfsScheduler`, which writes the members `cfs` of the tasks. -/
def method (f : CfsState → α × CfsState) : Method (CfsScheduler × τ) α where
  run s ts :=
    let r := f ⟨fun p => (ts p).cfs, s.1⟩
    (r.1, (r.2.sched, s.2), fun p => { ts p with cfs := r.2.cfs p })
  runtime _ _ _ := rfl

def onPreempted (s : CfsState) : CfsState :=
  { s with sched := { s.sched with stats := { s.sched.stats with
      totalPreemptions := s.sched.stats.totalPreemptions + 1 } } }

/-- `CfsScheduler` beside other schedulers with members `τ`. -/
def base : SchedulerBase (CfsScheduler × τ) where
  enqueue task := method fun s => ((), enqueue H task s)
  pickNext := method (pickNext H)
  isEmpty s := s.1.readyQueue.isEmpty
  onTick current := method (onTick current)
  onPreempted _ := method fun s => ((), onPreempted s)

theorem vruntime_onTick (p : Ptr) (s : CfsScheduler × τ) (ts : Tasks) :
    (((((base H).onTick p).run s ts).2.2 p).cfs).vruntime = (ts p).cfs.vruntime + delta (ts p).cfs.weight := by
  change ((onTick p ⟨fun q => (ts q).cfs, s.1⟩).2.cfs p).vruntime = _
  rw [cfs_onTick, Function.update_self]

end CfsScheduler

/-- In every run in which no sleeper is due on a tick on which a task runs, the scheduler of a
task is called for every tick of its run time. Then `CfsScheduler` charges `delta` for the tick. -/
theorem runtime_shown_to_scheduler (H : HeapAlgorithms Ptr) :
    (∀ {σ : Type} {m₀ m : TickCore σ}, Reached (TickCore.step H) TickCore.TicksChargeable m₀ m → m₀.Balanced m) ∧
    ∀ {τ : Type} {m m' : TickCore (CfsScheduler × τ)} {s : CfsScheduler × τ} {p : Ptr} {b : Bool},
      m.Chargeable → m.runningTask = some p → (m.tasks p).status = .kRunning →
      m.schedulers (m.tasks p).policy = some (CfsScheduler.base H, s) →
      TickCore.tickBody H m = .ok b m' →
      (m'.tasks p).schedInfo.totalRuntime = (m.tasks p).schedInfo.totalRuntime + 1 ∧
        (m'.tasks p).cfs.vruntime = (m.tasks p).cfs.vruntime + CfsScheduler.delta (m.tasks p).cfs.weight := by
  constructor
  · intro σ m₀ m h
    refine h.invariant (TickCore.Balanced.of_accounts rfl) ?_
    intro m₁ a m₂ h₁ hcharge hs
    exact h₁.trans (TickCore.balanced_step H hcharge hs)
  · intro τ m m' s p b h hrun hst hb hm
    have hnone : m.NoneDue := h.quiet.resolve_right (fun hnot => (hnot p hrun).1 hst)
    obtain ⟨htasks, -⟩ := (TickCore.wp_tickBody_charged H hnone hrun hst hb).of_ok hm
    rw [htasks]
    constructor
    · rw [((CfsScheduler.base H).onTick p).runtime, Function.update_self]
      rfl
    · rw [CfsScheduler.vruntime_onTick, Function.update_self]
      rfl

/-- Task 1 runs under `CfsScheduler`, and task 2 sleeps until tick `wake`. -/
def cfsCore (wake : BitVec 64) : TickCore (CfsScheduler × Unit) where
  tasks p :=
    if p = 1 then { status := .kRunning, cfs := { vruntime := 5, weight := 1024 } }
    else { status := .kSleeping, schedInfo := { wakeTick := wake }, cfs := { vruntime := 5, weight := 1024 } }
  runningTask := some 1
  idleTask := none
  localTick := 0
  sleepingTasks := [2]
  schedulers
    | .kNormal => some (CfsScheduler.base (presetPlatform true).heap, ({}, ()))
    | _ => none
  onTickCalls _ := 0

theorem cfsCore_chargeable : (cfsCore 2).Chargeable := by
  refine ⟨?_, Or.inl ?_⟩
  · rintro p ⟨⟩
    rfl
  · rintro p ⟨⟩
    decide

/-- The sleeper is not due on the first tick. -/
theorem runtime_shown_to_scheduler_example :
    (∃ m, Reached (TickCore.step (presetPlatform true).heap) TickCore.TicksChargeable (cfsCore 2) m ∧
      (m.tasks 1).schedInfo.totalRuntime = 1 ∧ m.onTickCalls 1 = 1 ∧ (cfsCore 2).Balanced m) ∧
    ∃ b m', TickCore.tickBody (presetPlatform true).heap (cfsCore 2) = .ok b m' ∧
      (m'.tasks 1).cfs.vruntime = 1005 := by
  obtain ⟨hrun, htick⟩ := runtime_shown_to_scheduler (presetPlatform true).heap
  constructor
  · obtain ⟨m, hm⟩ : ∃ m, (cfsCore 2).step (presetPlatform true).heap (.tick 1) = some m := ⟨_, rfl⟩
    have hreached : Reached (TickCore.step (presetPlatform true).heap) TickCore.TicksChargeable
        (cfsCore 2) m := Reached.start.step _ (fun _ _ => cfsCore_chargeable) hm
    cases hm
    exact ⟨_, hreached, rfl, rfl, hrun hreached⟩
  · have hbody : ∃ b m', TickCore.tickBody (presetPlatform true).heap (cfsCore 2) = .ok b m' :=
      exists_of_returned (by decide +kernel)
    obtain ⟨b, m', hm'⟩ := hbody
    exact ⟨b, m', hm', (htick cfsCore_chargeable rfl rfl rfl hm').2⟩

/-- The sleeper is due on the first tick: task 1 has run for a tick, and its `vruntime` is as
before. -/
theorem runtime_hidden_from_scheduler :
    ∃ m, Reached (TickCore.step (presetPlatform true).heap) (fun _ _ => True) (cfsCore 1) m ∧
      (m.tasks 1).schedInfo.totalRuntime = 1 ∧ m.onTickCalls 1 = 0 ∧ (m.tasks 1).cfs.vruntime = 5 ∧
      ¬ (cfsCore 1).Balanced m := by
  refine ⟨_, Reached.start.step (.tick 2) trivial rfl, rfl, rfl, rfl, fun hbalanced => ?_⟩
  obtain ⟨n, hruntime, hcalls⟩ := hbalanced 1
  obtain rfl : n = 0 := by
    have hzero : (0 : ℕ) = 0 + n := hcalls
    omega
  exact absurd hruntime (by decide)

end NaiLongKernel.Task
