import NaiLongKernel.Task.Scheduling

/-!
# The running task

Only `Schedule` changes what a core runs: the other programs leave it as it is, in any
state of the kernel. A running task that is alone in the queues of its policy and of those
searched before it is picked again.
-/
namespace NaiLongKernel.Task

open Foundation

variable {α β : Type} {k k' : Kernel} {c : CoreId} {p : Ptr} {t : TaskControlBlock}

section Keeping

variable {γ : Type} {f : Kernel → γ}

theorem keeps_readTask (p : Ptr) : Keeps f (readTask p) := by
  intro k
  cases ht : k.tasks p with
  | none => exact (wp_readTask_none ht).mpr trivial
  | some t => exact (wp_readTask ht).mpr rfl

theorem keeps_assertMsg (b : Bool) (message : String) : Keeps f (assertMsg b message) :=
  Keeps.ite (Keeps.pure _) (Keeps.throw _)

theorem keeps_currentTask (c : CoreId) (message : String) : Keeps f (currentTask c message) := by
  refine Keeps.bind Keeps.get (fun k => ?_)
  cases k.running c with
  | none => exact Keeps.throw _
  | some p => exact Keeps.pure _

theorem keeps_runningTask (c : CoreId) (noTask notRunning : String) :
    Keeps f (runningTask c noTask notRunning) :=
  Keeps.bind (keeps_currentTask c noTask) fun p => Keeps.bind (keeps_readTask p) fun _ =>
    Keeps.bind (keeps_assertMsg _ _) fun _ => Keeps.pure _

/-- What depends neither on the queues of ready and blocked tasks, nor on the table, nor on
the control blocks but for their wake ticks. -/
structure Aloof (f : Kernel → γ) : Prop where
  setTask : ∀ {k p t t'}, k.tasks p = some t →
    t'.schedInfo.wakeTick = t.schedInfo.wakeTick → f (k.setTask p t') = f k
  setSched : ∀ {k c d}, d.sleepingTasks = (k.cpuSchedulers c).sleepingTasks →
    d.localTick = (k.cpuSchedulers c).localTick → f (k.setSched c d) = f k
  table : ∀ k pid table, f { k with pidAllocator := pid, taskTable := table } = f k

namespace Aloof

theorem updateTask (hf : Aloof f) (p : Ptr) {g : TaskControlBlock → TaskControlBlock}
    (hg : ∀ t, (g t).schedInfo.wakeTick = t.schedInfo.wakeTick) : Keeps f (updateTask p g) := by
  intro k
  cases ht : k.tasks p with
  | none => exact (wp_updateTask_none ht).mpr trivial
  | some t => exact (wp_updateTask ht).mpr (hf.setTask ht (hg t))

theorem setStatus (hf : Aloof f) (p : Ptr) (st : TaskStatus) :
    Keeps f (Task.updateTask p (·.setStatus st)) := hf.updateTask p fun _ => rfl

theorem modifySched (hf : Aloof f) (c : CoreId) {g : CpuSchedData → CpuSchedData}
    (hs : ∀ d, (g d).sleepingTasks = d.sleepingTasks) (ht : ∀ d, (g d).localTick = d.localTick) :
    Keeps f (modifySched c g) :=
  fun _ => wp_modifySched.mpr (hf.setSched (hs _) (ht _))

theorem setScheduler (hf : Aloof f) (c : CoreId) (policy : SchedPolicy) (s : Scheduler) :
    Keeps f (Task.modifySched c (·.setScheduler policy s)) :=
  hf.modifySched c (fun _ => rfl) (fun _ => rfl)

theorem touchTask (hf : Aloof f) (p : Ptr) {g : Option (TaskControlBlock → TaskControlBlock)}
    (hg : g = none ∨ g = some TaskControlBlock.resetSlice) : Keeps f (touchTask p g) := by
  rcases hg with rfl | rfl
  · exact Keeps.pure _
  · exact hf.updateTask p fun _ => rfl

theorem enqueueTask (hf : Aloof f) (c : CoreId) (policy : SchedPolicy) (p : Ptr) :
    Keeps f (enqueueTask c policy p) := by
  refine Keeps.bind Keeps.get (fun k => ?_)
  cases (k.cpuSchedulers c).schedulers policy with
  | none => exact Keeps.pure _
  | some s =>
    exact Keeps.bind (hf.touchTask p s.onEnqueue_cases) (fun _ => hf.setScheduler c policy _)

theorem blockBody (hf : Aloof f) (c : CoreId) (p : Ptr) (r : ResourceId) :
    Keeps f (blockBody c p r) :=
  Keeps.bind (hf.updateTask p fun _ => rfl)
    (fun _ => hf.modifySched c (fun _ => rfl) (fun _ => rfl))

theorem chargeTick (hf : Aloof f) (c : CoreId) (b : Bool) : Keeps f (chargeTick c b) := by
  refine Keeps.bind Keeps.get (fun k => ?_)
  cases k.running c with
  | none => exact Keeps.pure _
  | some p =>
    refine Keeps.bind (keeps_readTask p) (fun t => Keeps.ite ?_ (Keeps.pure _))
    refine Keeps.bind (hf.updateTask p fun _ => rfl) (fun _ => ?_)
    exact Keeps.bind (keeps_readTask p) (fun _ => Keeps.bind Keeps.get (fun _ => Keeps.pure _))

theorem requeueCurrent (hf : Aloof f) (c : CoreId) (p : Ptr) : Keeps f (requeueCurrent c p) := by
  refine Keeps.bind (keeps_readTask p) (fun t => Keeps.ite ?_ (Keeps.pure _))
  refine Keeps.bind (hf.setStatus p _) (fun _ => Keeps.bind Keeps.get (fun k => ?_))
  cases (k.cpuSchedulers c).schedulers t.policy with
  | none => exact Keeps.pure _
  | some s =>
    refine Keeps.bind (hf.setScheduler c _ _) (fun _ => ?_)
    refine Keeps.bind (hf.touchTask p s.onExpired_cases) (fun _ => ?_)
    exact Keeps.ite (hf.enqueueTask c _ p) (Keeps.pure _)

theorem searchQueue (hf : Aloof f) (c : CoreId) (policy : SchedPolicy) (fuel : ℕ) :
    Keeps f (searchQueue c policy fuel) := by
  induction fuel with
  | zero => exact Keeps.throw _
  | succ fuel ih =>
    refine Keeps.bind Keeps.get (fun k => ?_)
    cases (k.cpuSchedulers c).schedulers policy with
    | none => exact Keeps.pure _
    | some s =>
      refine Keeps.ite (Keeps.pure _) (Keeps.bind (hf.setScheduler c _ _) (fun _ => ?_))
      cases s.pickNext.1 with
      | none => exact Keeps.pure _
      | some cand => exact Keeps.bind (keeps_readTask cand) (fun t => Keeps.ite (Keeps.pure _) ih)

theorem searchPolicies (hf : Aloof f) (c : CoreId) (policies : List SchedPolicy) :
    Keeps f (searchPolicies c policies) := by
  induction policies with
  | nil => exact Keeps.pure _
  | cons policy rest ih =>
    refine Keeps.bind Keeps.get (fun k => Keeps.bind (hf.searchQueue c policy _) (fun next => ?_))
    cases next with
    | none => exact ih
    | some next => exact Keeps.pure _

theorem useIdle (hf : Aloof f) (i : Ptr) :
    Keeps f (do Task.updateTask i (·.setStatus .kReady); return i) :=
  Keeps.bind (hf.setStatus i _) (fun _ => Keeps.pure _)

theorem chooseNext (hf : Aloof f) (c : CoreId) (p : Ptr) : Keeps f (chooseNext c p) := by
  refine Keeps.bind (hf.searchPolicies c _) (fun next => ?_)
  cases next with
  | some next => exact Keeps.pure _
  | none =>
    refine Keeps.bind (keeps_readTask p) (fun t => Keeps.ite (Keeps.pure _) ?_)
    refine Keeps.bind Keeps.get (fun k => ?_)
    cases k.idle c with
    | some i => exact Keeps.bind (hf.setStatus i _) (fun _ => Keeps.pure _)
    | none =>
      exact Keeps.bind (hf.modifySched c (fun _ => rfl) (fun _ => rfl)) (fun _ => Keeps.pure _)

theorem leaveCurrent (hf : Aloof f) (c : CoreId) (current next : Ptr) :
    Keeps f (leaveCurrent c current next) := by
  refine Keeps.bind (keeps_readTask current) (fun t => Keeps.ite ?_ (Keeps.pure _))
  refine Keeps.bind Keeps.get (fun k => ?_)
  cases k.idle c with
  | some i => exact Keeps.bind (keeps_assertMsg _ _) (fun _ => hf.useIdle i)
  | none => exact Keeps.throw _

theorem assignPid (hf : Aloof f) (p : Ptr) : Keeps f (assignPid p) := by
  have hrest : Keeps f (do
      let pid := (← readTask p).pid
      if (← readTask p).tgid = 0 then
        Task.updateTask p fun t => { t with tgid := pid }
      return pid) := by
    refine Keeps.bind (keeps_readTask p) (fun t => Keeps.bind (keeps_readTask p) (fun _ => ?_))
    exact Keeps.ite (Keeps.bind (hf.updateTask p fun _ => rfl) (fun _ => Keeps.pure _)) (Keeps.pure _)
  refine Keeps.bind (keeps_readTask p) (fun t => Keeps.ite ?_ hrest)
  refine Keeps.bind Keeps.get (fun k => Keeps.bind (Keeps.modify fun k => ?_) (fun _ => ?_))
  · exact hf.table k _ k.taskTable
  · exact Keeps.bind (hf.updateTask p fun _ => rfl) (fun _ => hrest)

theorem addTask (hf : Aloof f) (P : Platform) (c : CoreId) (p : Ptr) :
    Keeps f (addTask P c p : KernelM Unit) := by
  simp only [Task.addTask, lockGuard_kernelM, run_kernelM, lock_kernelM, unlock_kernelM]
  refine Keeps.bind (Keeps.ite ?_ (Keeps.pure _)) (fun _ => ?_)
  · exact Keeps.bind (keeps_readTask p) (fun _ => keeps_assertMsg _ _)
  refine Keeps.bind (hf.assignPid p) (fun pid => Keeps.bind (Keeps.modify fun k => ?_) (fun _ => ?_))
  · exact hf.table k k.pidAllocator _
  refine Keeps.bind (hf.setStatus p _) (fun _ => Keeps.bind (keeps_readTask p) (fun t => ?_))
  refine Keeps.bind (Keeps.pure _) (fun _ => ?_)
  exact Keeps.bind (hf.enqueueTask _ _ p) (fun _ => Keeps.pure _)

end Aloof

end Keeping

/-- The program does not change what the cores run. -/
def Leaves (x : KernelM α) : Prop :=
  ∀ k, wp x (fun _ k' => k'.perCpu = k.perCpu) (fun _ _ => True) k

theorem aloof_perCpu : Aloof Kernel.perCpu := ⟨fun _ _ => rfl, fun _ _ => rfl, fun _ _ _ => rfl⟩

namespace Leaves

theorem updateTask (p : Ptr) (g : TaskControlBlock → TaskControlBlock) :
    Keeps Kernel.perCpu (updateTask p g) := by
  intro k
  cases ht : k.tasks p with
  | none => exact (wp_updateTask_none ht).mpr trivial
  | some t => exact (wp_updateTask ht).mpr rfl

theorem modifySched (c : CoreId) (g : CpuSchedData → CpuSchedData) :
    Keeps Kernel.perCpu (modifySched c g) :=
  fun _ => wp_modifySched.mpr rfl

theorem sleepBody (P : Platform) (c : CoreId) (p : Ptr) (ms : BitVec 64) :
    Leaves (sleepBody P c p ms) := by
  refine Keeps.bind Keeps.get (fun k => Keeps.bind (updateTask _ _) (fun _ => ?_))
  refine Keeps.bind (keeps_readTask p) (fun t => Keeps.bind Keeps.get (fun k => ?_))
  have hrest : Keeps Kernel.perCpu (do
      Task.updateTask p (·.setStatus .kSleeping)
      let k ← get
      Task.modifySched c fun d => { d with
        sleepingTasks := P.heap.push k.wakesLater d.sleepingTasks p }) :=
    Keeps.bind (updateTask _ _) (fun _ => Keeps.bind Keeps.get (fun _ => modifySched _ _))
  cases (k.cpuSchedulers c).schedulers t.policy with
  | none => exact hrest
  | some s => exact Keeps.bind (modifySched _ _) (fun _ => hrest)

theorem wakeSleepers (P : Platform) (c : CoreId) (fuel : ℕ) : Leaves (wakeSleepers P c fuel) := by
  induction fuel with
  | zero => exact Keeps.throw _
  | succ fuel ih =>
    refine Keeps.bind Keeps.get (fun k => ?_)
    cases (k.cpuSchedulers c).sleepingTasks with
    | nil => exact Keeps.pure _
    | cons task rest =>
      have hrest : Keeps Kernel.perCpu (do
          let _ ← Task.wakeSleepers P c fuel
          return true) := Keeps.bind ih (fun _ => Keeps.pure _)
      refine Keeps.bind (keeps_readTask task) (fun t => Keeps.ite (Keeps.pure _) ?_)
      refine Keeps.bind (modifySched _ _) (fun _ => Keeps.bind (updateTask _ _) (fun _ => ?_))
      exact Keeps.ite (Keeps.bind (aloof_perCpu.enqueueTask _ _ _) (fun _ => hrest)) hrest

theorem tickBody (P : Platform) (c : CoreId) : Leaves (tickBody P c) :=
  Keeps.bind (modifySched _ _) (fun _ => Keeps.bind Keeps.get
    (fun _ => Keeps.bind (wakeSleepers P c _) (fun b => aloof_perCpu.chargeTick c b)))

end Leaves

theorem wp_dispatch_running (c : CoreId) (current next : Ptr) (k : Kernel) :
    wp (dispatch c current next) (fun _ k' => k'.running c = some next) (fun _ _ => True) k := by
  simp only [dispatch, wp_bind]
  refine (keeps_readTask (f := id) current k).imp (fun t k₁ _ => ?_)
  refine (keeps_readTask (f := id) next k₁).imp (fun u k₂ _ => ?_)
  refine (keeps_assertMsg (f := id) _ _ k₂).imp (fun _ k₃ _ => ?_)
  refine (keeps_assertMsg (f := id) _ _ k₃).imp (fun _ k₄ _ => ?_)
  refine (Leaves.updateTask next _ k₄).imp (fun _ k₅ _ => ?_)
  rw [wp_modifySched, wp_modify, wp_pure]
  exact Kernel.running_setCpu_self _ _ _

theorem wp_scheduleBody_running (c : CoreId) (k : Kernel) :
    wp (scheduleBody c) (fun r k' => match r with
      | none => k'.running c = k.running c
      | some (current, next, _) => k.running c = some current ∧ k'.running c = some next)
      (fun _ _ => True) k := by
  simp only [scheduleBody, wp_bind, wp_currentTask]
  cases hrun : k.running c with
  | none => trivial
  | some current =>
    refine (aloof_perCpu.requeueCurrent c current k).imp (fun _ k₁ h₁ => ?_)
    refine (aloof_perCpu.chooseNext c current k₁).imp (fun next k₂ h₂ => ?_)
    cases next with
    | none =>
      rw [wp_pure]
      change (k₂.perCpu c).runningTask = _
      rw [h₂, h₁]
      exact hrun
    | some next =>
      simp only [wp_bind]
      refine (aloof_perCpu.leaveCurrent c current next k₂).imp (fun next k₃ _ => ?_)
      refine (wp_dispatch_running c current next k₃).imp (fun b k₄ h₄ => ?_)
      rw [wp_pure]
      exact ⟨rfl, h₄⟩

/-- The policies that `Schedule` searches first. -/
def SchedPolicy.searchedBefore : SchedPolicy → List SchedPolicy
  | .kRealTime => []
  | .kNormal => [.kRealTime]
  | .kIdle => [.kRealTime, .kNormal]

/-- The running task `p` can run on, and no task of its policy or of one searched first is
queued. -/
def Kernel.Alone (k : Kernel) (c : CoreId) (p : Ptr) : Prop :=
  ∃ t s, k.tasks p = some t ∧ t.status = .kRunning ∧
    (k.cpuSchedulers c).schedulers t.policy = some s ∧ s.queue = [] ∧
    (s.isIdle = true → s.held = some p) ∧
    ∀ policy ∈ t.policy.searchedBefore, ∀ s', (k.cpuSchedulers c).schedulers policy = some s' →
      s'.isEmpty = true

/-- `p` is ready and the first that the search comes to. -/
structure FirstReady (c : CoreId) (policy : SchedPolicy) (p : Ptr) (k : Kernel) : Prop where
  ready : ∃ t, k.tasks p = some t ∧ t.status = .kReady
  first : ∃ s, (k.cpuSchedulers c).schedulers policy = some s ∧ s.isEmpty = false ∧
    s.pickNext.1 = some p
  before : ∀ policy' ∈ policy.searchedBefore, ∀ s, (k.cpuSchedulers c).schedulers policy' = some s →
    s.isEmpty = true

theorem SchedPolicy.not_mem_searchedBefore (policy : SchedPolicy) :
    policy ∉ policy.searchedBefore := by cases policy <;> decide

namespace FirstReady

variable {policy : SchedPolicy}

theorem setScheduler {s : Scheduler} (ht : k.tasks p = some t) (hready : t.status = .kReady)
    (hs : s.isEmpty = false) (hp : s.pickNext.1 = some p)
    (hbefore : ∀ policy' ∈ policy.searchedBefore, ∀ s,
      (k.cpuSchedulers c).schedulers policy' = some s → s.isEmpty = true) :
    FirstReady c policy p (k.setSched c ((k.cpuSchedulers c).setScheduler policy s)) := by
  refine ⟨⟨t, ht, hready⟩, ⟨s, ?_, hs, hp⟩, ?_⟩
  · rw [Kernel.cpuSchedulers_setSched_self, schedulers_setScheduler_self]
  · intro policy' hpol s' hs'
    have hne : policy' ≠ policy := fun he => policy.not_mem_searchedBefore (he ▸ hpol)
    rw [Kernel.cpuSchedulers_setSched_self, schedulers_setScheduler_ne _ _ hne] at hs'
    exact hbefore policy' hpol s' hs'

theorem setTask (h : FirstReady c policy p k) {t' : TaskControlBlock} (ht' : t'.status = .kReady) :
    FirstReady c policy p (k.setTask p t') :=
  ⟨⟨t', k.tasks_setTask_self p t', ht'⟩, h.first, h.before⟩

end FirstReady

theorem wp_enqueueTask_first {policy : SchedPolicy} {s : Scheduler} (ht : k.tasks p = some t)
    (hready : t.status = .kReady) (hs : (k.cpuSchedulers c).schedulers policy = some s)
    (hq : s.queue = []) (hidle : s.isIdle = false)
    (hbefore : ∀ policy' ∈ policy.searchedBefore, ∀ s,
      (k.cpuSchedulers c).schedulers policy' = some s → s.isEmpty = true) :
    wp (enqueueTask c policy p) (fun _ k' => FirstReady c policy p k') (fun _ _ => True) k := by
  have hqueue : (s.enqueue p).queue = [p] := by rw [Scheduler.queue_enqueue hidle, hq]; rfl
  have hne : (s.enqueue p).isEmpty = false :=
    Scheduler.isEmpty_eq_false_iff.mpr (Or.inl (by rw [hqueue]; exact List.cons_ne_nil _ _))
  have hpick : (s.enqueue p).pickNext.1 = some p := by
    rcases Scheduler.pickNext_cases hne with ⟨q, rest, -, hq', hp, -⟩ | ⟨q, hi, -⟩
    · rw [hqueue] at hq'
      cases hq'
      exact hp
    · rw [Scheduler.isIdle_enqueue, hidle] at hi
      cases hi
  simp only [enqueueTask, wp_bind, wp_get, hs]
  refine wp_touchTask ht s.onEnqueue_cases ?_ ?_
  · exact wp_modifySched.mpr (FirstReady.setScheduler ht hready hne hpick hbefore)
  · exact wp_modifySched.mpr (FirstReady.setScheduler (k.tasks_setTask_self p _) hready hne hpick
      hbefore)

theorem wp_requeueCurrent_alone (h : k.Alone c p) :
    wp (requeueCurrent c p) (fun _ k' => ∃ policy, FirstReady c policy p k') (fun _ _ => True) k := by
  rcases h with ⟨t, s, ht, hst, hs, hq, hheld, hbefore⟩
  simp only [requeueCurrent, wp_bind, wp_readTask ht, wp_ite, if_pos hst, wp_updateTask ht, wp_get,
    Kernel.cpuSchedulers_setTask, hs, wp_modifySched, wp_pure]
  set k₁ : Kernel := (k.setTask p (t.setStatus .kReady)).setSched c
    ((k.cpuSchedulers c).setScheduler t.policy s.onPreempted) with hk₁
  have ht₁ : k₁.tasks p = some (t.setStatus .kReady) := k.tasks_setTask_self p _
  have hs₁ : (k₁.cpuSchedulers c).schedulers t.policy = some s.onPreempted := by
    rw [hk₁, Kernel.cpuSchedulers_setSched_self, schedulers_setScheduler_self]
  have hbefore₁ : ∀ policy' ∈ t.policy.searchedBefore, ∀ s',
      (k₁.cpuSchedulers c).schedulers policy' = some s' → s'.isEmpty = true := by
    intro policy' hpol s' hs'
    have hne : policy' ≠ t.policy := fun he => t.policy.not_mem_searchedBefore (he ▸ hpol)
    rw [hk₁, Kernel.cpuSchedulers_setSched_self, schedulers_setScheduler_ne _ _ hne] at hs'
    exact hbefore policy' hpol s' hs'
  rw [s.onTimeSliceExpired_eq]
  cases hi : s.isIdle with
  | true =>
    -- an idle scheduler has kept the task
    have hne : s.onPreempted.isEmpty = false :=
      Scheduler.isEmpty_eq_false_iff.mpr (Or.inr (by simp [s.held_onPreempted, hheld hi]))
    have hpick : s.onPreempted.pickNext.1 = some p := by
      rcases Scheduler.pickNext_cases hne with ⟨q, rest, hi', -⟩ | ⟨q, -, hq', hp, -⟩
      · rw [s.isIdle_onPreempted, hi] at hi'
        cases hi'
      · rw [s.held_onPreempted, hheld hi] at hq'
        cases hq'
        exact hp
    have hfirst : FirstReady c t.policy p k₁ :=
      ⟨⟨_, ht₁, rfl⟩, ⟨s.onPreempted, hs₁, hne, hpick⟩, hbefore₁⟩
    refine wp_touchTask ht₁ s.onExpired_cases ?_ ?_
    · exact ⟨t.policy, hfirst⟩
    · exact ⟨t.policy, hfirst.setTask rfl⟩
  | false =>
    have hqueue : s.onPreempted.queue = [] := by rw [s.queue_onPreempted, hq]
    have hidle : s.onPreempted.isIdle = false := by rw [s.isIdle_onPreempted, hi]
    have henq : ∀ {k₂ t₂}, k₂.cpuSchedulers = k₁.cpuSchedulers → k₂.tasks p = some t₂ →
        t₂.status = .kReady → wp (enqueueTask c t.policy p)
          (fun _ k' => ∃ policy, FirstReady c policy p k') (fun _ _ => True) k₂ := by
      intro k₂ t₂ hc ht₂ hr₂
      refine (wp_enqueueTask_first ht₂ hr₂ (by rw [hc, hs₁]) hqueue hidle
        (by rw [hc]; exact hbefore₁)).imp (fun _ _ hf => ⟨t.policy, hf⟩)
    refine wp_touchTask ht₁ s.onExpired_cases ?_ ?_
    · exact henq rfl ht₁ rfl
    · exact henq rfl (k₁.tasks_setTask_self p _) rfl

theorem wp_searchPolicies_empty {policy : SchedPolicy} {rest : List SchedPolicy}
    {Q : Option Ptr → Kernel → Prop} {E : Fault → Kernel → Prop}
    (h : ∀ s, (k.cpuSchedulers c).schedulers policy = some s → s.isEmpty = true) :
    wp (searchPolicies c (policy :: rest)) Q E k ↔ wp (searchPolicies c rest) Q E k := by
  simp only [searchPolicies, wp_bind, wp_get]
  cases hs : (k.cpuSchedulers c).schedulers policy with
  | none => simp only [searchQueue, wp_bind, wp_get, hs, wp_pure]
  | some s => simp only [searchQueue, wp_bind, wp_get, hs, h s hs, if_true, wp_pure]

theorem FirstReady.wp_search {policy : SchedPolicy} (h : FirstReady c policy p k)
    (rest : List SchedPolicy) :
    wp (searchPolicies c (policy :: rest))
      (fun r k' => r = some p ∧ k'.tasks = k.tasks) (fun _ _ => True) k := by
  rcases h.ready with ⟨t, ht, hready⟩
  rcases h.first with ⟨s, hs, hne, hp⟩
  simp only [searchPolicies, wp_bind, wp_get, hs]
  rw [wp_searchQueue_pick hs hne hp ht, if_pos hready, wp_pure]
  exact ⟨rfl, rfl⟩

theorem FirstReady.wp_searchPolicies {policy : SchedPolicy} (h : FirstReady c policy p k) :
    wp (searchPolicies c [.kRealTime, .kNormal, .kIdle])
      (fun r k' => r = some p ∧ k'.tasks = k.tasks) (fun _ _ => True) k := by
  cases policy with
  | kRealTime => exact h.wp_search _
  | kNormal =>
    rw [wp_searchPolicies_empty (h.before _ (by decide))]
    exact h.wp_search _
  | kIdle =>
    rw [wp_searchPolicies_empty (h.before _ (by decide)),
      wp_searchPolicies_empty (h.before _ (by decide))]
    exact h.wp_search _

/-- `Schedule` picks a running task again that is alone. -/
theorem wp_scheduleBody_alone (hrun : k.running c = some p) (h : k.Alone c p) :
    wp (scheduleBody c) (fun r _ => ∃ b, r = some (p, p, b)) (fun _ _ => True) k := by
  simp only [scheduleBody, wp_bind, wp_currentTask, hrun]
  refine (wp_requeueCurrent_alone h).imp ?_
  rintro _ k₁ ⟨policy, hfirst⟩
  rcases hfirst.ready with ⟨t, ht, hready⟩
  rw [chooseNext, wp_bind]
  refine hfirst.wp_searchPolicies.imp ?_
  rintro _ k₂ ⟨rfl, htasks⟩
  have ht₂ : k₂.tasks p = some t := by rw [htasks, ht]
  simp only [wp_pure, wp_bind, leaveCurrent, wp_readTask ht₂, wp_ite, hready, ne_eq, not_true_eq_false,
    and_false, if_false]
  exact (wp_dispatch_running c p p k₂).imp (fun b _ _ => ⟨b, rfl⟩)

section Tick

variable {P : Platform}

theorem Kernel.Alone.congr {t' : TaskControlBlock} (h : k.Alone c p) (ht : k.tasks p = some t)
    (ht' : k'.tasks p = some t') (hstatus : t'.status = t.status) (hpolicy : t'.policy = t.policy)
    (hs : (k'.cpuSchedulers c).schedulers = (k.cpuSchedulers c).schedulers) : k'.Alone c p := by
  rcases h with ⟨u, s, hu, hst, hsched, hq, hheld, hbefore⟩
  obtain rfl := Option.mem_unique ht hu
  refine ⟨t', s, ht', hstatus.trans hst, ?_, hq, hheld, ?_⟩
  · rw [hs, hpolicy]
    exact hsched
  · rw [hs, hpolicy]
    exact hbefore

/-- A tick now wakes no sleeper, and the running task has time left or is alone. -/
def Kernel.TickStays (k : Kernel) (c : CoreId) : Prop :=
  (∀ p t, (k.cpuSchedulers c).sleepingTasks.head? = some p → k.tasks p = some t →
    (k.cpuSchedulers c).localTick + 1 < t.schedInfo.wakeTick) ∧
  ∀ p t, k.running c = some p → k.tasks p = some t → t.status = .kRunning →
    1 < t.schedInfo.timeSliceRemaining ∨ k.Alone c p

theorem wp_wakeSleepers_none {n : ℕ} (h : ∀ p t, (k.cpuSchedulers c).sleepingTasks.head? = some p →
    k.tasks p = some t → (k.cpuSchedulers c).localTick < t.schedInfo.wakeTick) :
    wp (wakeSleepers P c (n + 1)) (fun b k' => b = false ∧ k' = k) (fun _ _ => True) k := by
  rw [wakeSleepers, wp_bind, wp_get]
  cases hl : (k.cpuSchedulers c).sleepingTasks with
  | nil => exact (wp_pure _).mpr ⟨rfl, rfl⟩
  | cons p rest =>
    cases ht : k.tasks p with
    | none => exact (wp_bind _ _ _).mpr ((wp_readTask_none ht).mpr trivial)
    | some t =>
      have hlt := h p t (by rw [hl]; rfl) ht
      simp only [wp_bind, wp_readTask ht, if_pos hlt]
      exact (wp_pure _).mpr ⟨rfl, rfl⟩

/-- `TickUpdate` calls `Schedule` only for a task that will be picked again. -/
theorem wp_tickBody_stays (h : k.TickStays c) :
    wp (tickBody P c) (fun b k' => b = true → ∃ p, k'.running c = some p ∧ k'.Alone c p)
      (fun _ _ => True) k := by
  rw [tickBody, wp_bind, wp_modifySched, wp_bind, wp_get, wp_bind]
  set k₁ : Kernel := k.setSched c { k.cpuSchedulers c with localTick := (k.cpuSchedulers c).localTick + 1 }
    with hk₁
  have hs₁ : (k₁.cpuSchedulers c).schedulers = (k.cpuSchedulers c).schedulers := by
    rw [hk₁, Kernel.cpuSchedulers_setSched_self]
  refine (wp_wakeSleepers_none ?_).imp ?_
  · intro p t
    rw [hk₁, Kernel.cpuSchedulers_setSched_self, Kernel.tasks_setSched]
    exact h.1 p t
  rintro _ _ ⟨rfl, rfl⟩
  rw [chargeTick, wp_bind, wp_get]
  cases hrun : k₁.running c with
  | none => exact (wp_pure _).mpr nofun
  | some p =>
    cases ht : k₁.tasks p with
    | none => exact (wp_bind _ _ _).mpr ((wp_readTask_none ht).mpr trivial)
    | some t =>
      simp only [wp_bind, wp_readTask ht]
      by_cases hst : t.status = .kRunning
      · simp only [if_pos hst, wp_bind, wp_updateTask ht, wp_readTask (Kernel.tasks_setTask_self _ _ _),
          wp_get, wp_pure]
        intro hb
        have halone : k.Alone c p := by
          refine (h.2 p t hrun ht hst).resolve_left (fun hlt => ?_)
          have hleft : (if 0#64 < t.schedInfo.timeSliceRemaining then
              t.schedInfo.timeSliceRemaining - 1#64 else t.schedInfo.timeSliceRemaining) ≠ 0#64 := by
            split <;> bv_omega
          revert hb
          cases (k₁.setTask p _ |>.cpuSchedulers c).schedulers t.policy <;>
            simp [Scheduler.onTick, hleft]
        exact ⟨p, hrun, halone.congr ht (Kernel.tasks_setTask_self _ _ _) rfl rfl hs₁⟩
      · rw [if_neg hst]
        exact (wp_pure _).mpr nofun

end Tick

end NaiLongKernel.Task
