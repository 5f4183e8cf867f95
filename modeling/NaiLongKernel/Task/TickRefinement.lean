import NaiLongKernel.Task.BootContext
import NaiLongKernel.Task.TickAccounting

/-!
# The ticks of the task manager

A core of the task manager, shown as a core of the tick accounting that has the installed
schedulers behind the interface. When `TickUpdate` or `Schedule` of the task manager returns,
the same call on what the core shows returns as well, with what the core shows afterwards.
-/
namespace NaiLongKernel.Task

open Foundation

variable {α β α' β' : Type} {c : CoreId} {k : Kernel} {n : Ptr → ℕ} {p : Ptr}
variable {t : TaskControlBlock} {policy : SchedPolicy} {s : Scheduler}

/-- The control blocks after a scheduler has touched the task, if it does. -/
def touched (p : Ptr) : Option (TaskControlBlock → TaskControlBlock) → Tasks → Tasks
  | some f, ts => Function.update ts p (f (ts p))
  | none, ts => ts

theorem totalRuntime_touched {f : Option (TaskControlBlock → TaskControlBlock)}
    (hf : f = none ∨ f = some TaskControlBlock.resetSlice) (ts : Tasks) (q : Ptr) :
    (touched p f ts q).schedInfo.totalRuntime = (ts q).schedInfo.totalRuntime := by
  rcases hf with rfl | rfl
  · rfl
  · by_cases hq : q = p
    · rw [touched, hq, Function.update_self]
      rfl
    · rw [touched, Function.update_of_ne hq]

/-- The installed schedulers behind the interface. -/
def installed : SchedulerBase Scheduler where
  enqueue p := ⟨fun s ts => ((), s.enqueue p, touched p s.onEnqueue ts),
    fun s ts q => totalRuntime_touched s.onEnqueue_cases ts q⟩
  pickNext := ⟨fun s ts => (s.pickNext.1, s.pickNext.2, ts), fun _ _ _ => rfl⟩
  isEmpty := Scheduler.isEmpty
  onTick p := ⟨fun s ts => (s.onTick (ts p), s, ts), fun _ _ _ => rfl⟩
  onTimeSliceExpired p := ⟨fun s ts => (s.onTimeSliceExpired, s, touched p s.onExpired ts),
    fun s ts q => totalRuntime_touched s.onExpired_cases ts q⟩
  onPreempted _ := ⟨fun s ts => ((), s.onPreempted, ts), fun _ _ _ => rfl⟩

/-- What core `c` shows, after `n` calls of `OnTick`. -/
@[simps] def Kernel.tickCore (c : CoreId) (n : Ptr → ℕ) (k : Kernel) : TickCore Scheduler where
  tasks p := (k.tasks p).getD {}
  runningTask := k.running c
  idleTask := k.idle c
  localTick := (k.cpuSchedulers c).localTick
  sleepingTasks := (k.cpuSchedulers c).sleepingTasks
  schedulers policy := ((k.cpuSchedulers c).schedulers policy).map fun s => (installed, s)
  onTickCalls := n

/-- When the program of the kernel returns, the other one returns with enough fuel, and what
core `c` shows has become what it shows afterwards. -/
def Mirrors (c : CoreId) (R : α → β → Prop) (x : KernelM α) (y : ℕ → TickM Scheduler β)
    (n : Ptr → ℕ) (k : Kernel) : Prop :=
  wp x (fun a k' => ∃ b n' N, R a b ∧
    ∀ fuel, N ≤ fuel → y fuel (k.tickCore c n) = .ok b (k'.tickCore c n')) (fun _ _ => True) k

/-- The same, and both return the same. -/
abbrev Copies (c : CoreId) (x : KernelM α) (y : ℕ → TickM Scheduler α) := Mirrors c (· = ·) x y

namespace Mirrors

variable {R : α → β → Prop} {S : α' → β' → Prop} {x : KernelM α} {y : ℕ → TickM Scheduler β}

protected theorem pure {a : α} {b : β} (h : R a b) : Mirrors c R (pure a) (fun _ => pure b) n k :=
  (wp_pure _).mpr ⟨b, n, 0, h, fun _ _ => rfl⟩

protected theorem bind {f : α → KernelM α'} {g : β → ℕ → TickM Scheduler β'}
    (hx : Mirrors c R x y n k) (hf : ∀ a b k₁ n₁, R a b → Mirrors c S (f a) (g b) n₁ k₁) :
    Mirrors c S (x >>= f) (fun fuel => y fuel >>= fun b => g b fuel) n k := by
  rw [Mirrors, wp_bind]
  refine hx.imp ?_
  rintro a k₁ ⟨b, n₁, N, hR, hy⟩
  refine (hf a b k₁ n₁ hR).imp ?_
  rintro a' k₂ ⟨b', n₂, N', hS, hg⟩
  refine ⟨b', n₂, max N N', hS, fun fuel hfuel => ?_⟩
  simp only [bind, EStateM.bind, hy fuel (le_of_max_le_left hfuel), hg fuel (le_of_max_le_right hfuel)]

/-- Both programs start with a step whose outcome is known. -/
theorem step {k' : Kernel} {n' : Ptr → ℕ} {a : α} {b : β} {f : α → KernelM α'}
    {y₀ : TickM Scheduler β} {g : β → ℕ → TickM Scheduler β'} (hx : x k = .ok a k')
    (hy : y₀ (k.tickCore c n) = .ok b (k'.tickCore c n')) (h : Mirrors c S (f a) (g b) n' k') :
    Mirrors c S (x >>= f) (fun fuel => y₀ >>= fun b => g b fuel) n k := by
  rw [Mirrors, wp_bind, wp_of_ok hx]
  refine wp.imp h ?_
  rintro a' k₂ ⟨b', n₂, N, hS, hg⟩
  refine ⟨b', n₂, N, hS, fun fuel hfuel => ?_⟩
  simp only [bind, EStateM.bind, hy, hg fuel hfuel]

theorem succ (h : Mirrors c R x (fun fuel => y (fuel + 1)) n k) : Mirrors c R x y n k := by
  refine wp.imp h ?_
  rintro a k' ⟨b, n', N, hR, hy⟩
  refine ⟨b, n', N + 1, hR, fun fuel hfuel => ?_⟩
  obtain ⟨fuel, rfl⟩ := Nat.exists_eq_add_of_le' (Nat.one_le_of_lt hfuel)
  exact hy fuel (Nat.le_of_succ_le_succ hfuel)

theorem get_left {f : Kernel → KernelM α} :
    Mirrors c R (get >>= f) y n k ↔ Mirrors c R (f k) y n k := by
  rw [Mirrors, wp_bind, wp_get]
  rfl

theorem get_right {g : TickCore Scheduler → ℕ → TickM Scheduler β} :
    Mirrors c R x (fun fuel => get >>= fun m => g m fuel) n k ↔
      Mirrors c R x (g (k.tickCore c n)) n k := Iff.rfl

/-- The kernel reads a control block, which must be there. -/
theorem read {f : TaskControlBlock → KernelM α}
    (h : ∀ t, (k.tickCore c n).tasks p = t → Mirrors c R (f t) y n k) :
    Mirrors c R (readTask p >>= f) y n k := by
  rw [Mirrors, wp_bind]
  cases ht : k.tasks p with
  | none => exact (wp_readTask_none ht).mpr trivial
  | some t => exact (wp_readTask ht).mpr (h t (by rw [Kernel.tickCore_tasks, ht]; rfl))

theorem assert {b : Bool} {message : String} {f : Unit → KernelM α}
    (h : b = true → Mirrors c R (f ()) y n k) : Mirrors c R (assertMsg b message >>= f) y n k := by
  rw [Mirrors, wp_bind, wp_assertMsg]
  split
  · exact h ‹_›
  · trivial

end Mirrors

section Writes

theorem Kernel.tickCore_setTask (ht : k.tasks p = some t) (f : TaskControlBlock → TaskControlBlock) :
    (k.setTask p (f t)).tickCore c n = (k.tickCore c n).setTask p f := by
  have htasks : (fun q => ((k.setTask p (f t)).tasks q).getD {}) =
      Function.update (fun q => (k.tasks q).getD {}) p (f ((k.tasks p).getD {})) := by
    funext q
    by_cases hq : q = p
    · rw [hq, k.tasks_setTask_self, Function.update_self, ht]
      rfl
    · rw [k.tasks_setTask_ne p _ hq, Function.update_of_ne hq]
  rw [TickCore.setTask, tickCore, htasks]
  rfl

theorem copies_updateTask (p : Ptr) (f : TaskControlBlock → TaskControlBlock) :
    Copies c (updateTask p f) (fun _ => modify (TickCore.setTask p f)) n k := by
  cases ht : k.tasks p with
  | none => exact (wp_updateTask_none ht).mpr trivial
  | some t =>
    refine (wp_updateTask ht).mpr ⟨(), n, 0, rfl, fun _ _ => ?_⟩
    rw [Kernel.tickCore_setTask ht]
    rfl

theorem copies_modifySched {g : CpuSchedData → CpuSchedData}
    {h : TickCore Scheduler → TickCore Scheduler}
    (hg : (k.setSched c (g (k.cpuSchedulers c))).tickCore c n = h (k.tickCore c n)) :
    Copies c (modifySched c g) (fun _ => modify h) n k := by
  refine wp_modifySched.mpr ⟨(), n, 0, rfl, fun _ _ => ?_⟩
  rw [hg]
  rfl

theorem Kernel.tickCore_setScheduler (s : Scheduler) :
    (k.setSched c ((k.cpuSchedulers c).setScheduler policy s)).tickCore c n =
      { k.tickCore c n with
        schedulers := Function.update (k.tickCore c n).schedulers policy (some (installed, s)) } := by
  simp only [tickCore, cpuSchedulers_setSched_self, CpuSchedData.setScheduler]
  congr 1
  funext q
  by_cases hq : q = policy
  · simp [hq]
  · simp [hq]

theorem wp_touchTask_tickCore (g : Option (TaskControlBlock → TaskControlBlock)) :
    wp (touchTask p g) (fun _ k' => k'.tickCore c n =
      { k.tickCore c n with tasks := touched p g (k.tickCore c n).tasks }) (fun _ _ => True) k := by
  cases g with
  | none => exact (wp_pure _).mpr rfl
  | some f =>
    cases ht : k.tasks p with
    | none => exact (wp_updateTask_none ht).mpr trivial
    | some t => exact (wp_updateTask ht).mpr (Kernel.tickCore_setTask ht f)

end Writes

section Calls

theorem call_none (hs : (k.cpuSchedulers c).schedulers policy = none)
    (f : SchedulerBase Scheduler → Method Scheduler β) :
    TickCore.call policy f (k.tickCore c n) = .ok none (k.tickCore c n) := by
  simp [TickCore.call, get_eq, bind, EStateM.bind, pure, EStateM.pure, hs]

theorem call_some (hs : (k.cpuSchedulers c).schedulers policy = some s)
    (f : SchedulerBase Scheduler → Method Scheduler β) :
    TickCore.call policy f (k.tickCore c n) =
      .ok (some ((f installed).run s (k.tickCore c n).tasks).1)
        ((k.tickCore c n).called policy installed ((f installed).run s (k.tickCore c n).tasks)) := by
  simp only [TickCore.call, get_eq, bind, EStateM.bind, Kernel.tickCore_schedulers, hs, Option.map_some]
  rfl

theorem call_same (hs : (k.cpuSchedulers c).schedulers policy = some s)
    (f : SchedulerBase Scheduler → Method Scheduler β) {b : β} {ts : Tasks}
    (hf : (f installed).run s (k.tickCore c n).tasks = (b, s, ts)) :
    TickCore.call policy f (k.tickCore c n) = .ok (some b) { k.tickCore c n with tasks := ts } := by
  rw [call_some hs f, hf, TickCore.called, Function.update_eq_self_iff.mpr (by simp [hs])]

/-- A member function that changes nothing. -/
theorem call_keeps (f : SchedulerBase Scheduler → Method Scheduler β) (policy : SchedPolicy) {b : β}
    (hf : ∀ s ts, (f installed).run s ts = (b, s, ts)) : ∃ r, r.getD b = b ∧
      TickCore.call policy f (k.tickCore c n) = .ok r (k.tickCore c n) := by
  cases hs : (k.cpuSchedulers c).schedulers policy with
  | none => exact ⟨none, rfl, call_none hs f⟩
  | some s => exact ⟨some b, rfl, call_same hs f (hf s _)⟩

theorem call_setScheduler (hs : (k.cpuSchedulers c).schedulers policy = some s)
    (f : SchedulerBase Scheduler → Method Scheduler β) {b : β} {s' : Scheduler}
    (hf : ∀ ts, (f installed).run s ts = (b, s', ts)) :
    TickCore.call policy f (k.tickCore c n) =
      .ok (some b) ((k.setSched c ((k.cpuSchedulers c).setScheduler policy s')).tickCore c n) := by
  rw [call_some hs f, hf, Kernel.tickCore_setScheduler]
  rfl

theorem mirrors_enqueueTask (policy : SchedPolicy) (p : Ptr) :
    Mirrors c (fun _ _ => True) (enqueueTask c policy p)
      (fun _ => TickCore.call policy (·.enqueue p)) n k := by
  rw [enqueueTask, Mirrors.get_left]
  cases hs : (k.cpuSchedulers c).schedulers policy with
  | none => exact (wp_pure _).mpr ⟨none, n, 0, trivial, fun _ _ => call_none hs _⟩
  | some s =>
    rw [Mirrors, wp_bind]
    refine (wp_touchTask_tickCore (c := c) (n := n) s.onEnqueue).imp fun _ k₁ hcore => ?_
    refine wp_modifySched.mpr ⟨some (), n, 0, trivial, fun _ _ => (call_some hs _).trans ?_⟩
    rw [Kernel.tickCore_setScheduler, hcore]
    rfl

theorem mirrors_expired (hs : (k.cpuSchedulers c).schedulers policy = some s) (p : Ptr) :
    Mirrors c (fun _ r => r = some s.onTimeSliceExpired) (touchTask p s.onExpired)
      (fun _ => TickCore.call policy (·.onTimeSliceExpired p)) n k := by
  refine (wp_touchTask_tickCore (c := c) (n := n) s.onExpired).imp fun _ k₁ hcore => ?_
  exact ⟨some s.onTimeSliceExpired, n, 0, rfl, fun _ _ => hcore ▸ call_same hs _ rfl⟩

end Calls

theorem copies_requeueCurrent (p : Ptr) :
    Copies c (requeueCurrent c p) (fun _ => TickCore.requeueCurrent p) n k := by
  refine .read fun t ht => ?_
  simp only [TickCore.requeueCurrent, Mirrors.get_right, ht]
  split
  · refine .bind (copies_updateTask p _) fun _ _ k₁ n₁ _ => ?_
    rw [Mirrors.get_left]
    cases hs : (k₁.cpuSchedulers c).schedulers t.policy with
    | none =>
      refine (wp_pure _).mpr ⟨(), n₁, 0, trivial, fun _ _ => ?_⟩
      simp [bind, EStateM.bind, call_none hs, pure, EStateM.pure]
    | some s =>
      -- neither answer depends on what `OnPreempted` counts
      have hsame : s.onPreempted.onExpired = s.onExpired ∧
          s.onPreempted.onTimeSliceExpired = s.onTimeSliceExpired := by cases s <;> exact ⟨rfl, rfl⟩
      refine .step rfl (call_setScheduler hs (·.onPreempted p) fun _ => rfl) ?_
      rw [← hsame.1, ← hsame.2]
      refine .bind (mirrors_expired (by simp [CpuSchedData.setScheduler]) p) ?_
      rintro _ _ k₃ n₃ rfl
      simp only [Option.some.injEq]
      split
      · rw [← bind_pure (enqueueTask c t.policy p)]
        exact .bind (mirrors_enqueueTask t.policy p) fun _ _ _ _ _ => .pure trivial
      · exact .pure trivial
  · exact .pure trivial

theorem copies_searchQueue (policy : SchedPolicy) (m : ℕ) :
    Copies c (searchQueue c policy m) (TickCore.searchQueue policy) n k := by
  induction m generalizing n k with
  | zero => exact (wp_throw _).mpr trivial
  | succ m ih =>
    refine .succ ?_
    simp only [searchQueue, TickCore.searchQueue, Mirrors.get_left, Mirrors.get_right,
      TickCore.isEmpty?, Kernel.tickCore_schedulers]
    cases hs : (k.cpuSchedulers c).schedulers policy with
    | none => exact .pure rfl
    | some s =>
      simp only [Option.map_some, Option.some.injEq, installed]
      cases s.isEmpty with
      | true => exact .pure rfl
      | false =>
        refine .step rfl (call_setScheduler hs (·.pickNext) fun _ => rfl) ?_
        cases s.pickNext.1 with
        | none => exact .pure rfl
        | some cand =>
          refine .read fun t ht => ?_
          simp only [Mirrors.get_right, ht]
          split
          · exact .pure rfl
          · exact ih

theorem copies_searchPolicies (policies : List SchedPolicy) :
    Copies c (searchPolicies c policies) (fun fuel => TickCore.searchPolicies fuel policies) n k := by
  induction policies generalizing n k with
  | nil => exact .pure rfl
  | cons policy rest ih =>
    simp only [searchPolicies, Mirrors.get_left]
    refine .bind (copies_searchQueue policy _) ?_
    rintro next _ k₁ n₁ rfl
    cases next with
    | none => exact ih
    | some next => exact .pure rfl

theorem copies_useIdle (i : Ptr) : Copies c (do updateTask i (·.setStatus .kReady); return i)
    (fun _ => TickCore.useIdle i) n k :=
  .bind (copies_updateTask i _) fun _ _ _ _ _ => .pure rfl

/-- The choice of `Schedule`, which parks the core when there is nothing to run. -/
def chosenTask (c : CoreId) (current : Ptr) : KernelM Ptr := do
  match ← chooseNext c current with
  | some next => return next
  | none => throw .parked

theorem copies_chosenTask (p : Ptr) :
    Copies c (chosenTask c p) (fun fuel => TickCore.chooseNext fuel p) n k := by
  simp only [chosenTask, chooseNext, bind_assoc]
  refine .bind (copies_searchPolicies _) ?_
  rintro next _ k₁ n₁ rfl
  cases next with
  | some next => exact .pure rfl
  | none =>
    simp only [bind_assoc]
    refine .read fun t ht => ?_
    simp only [Mirrors.get_right, ht]
    by_cases hready : t.status = .kReady
    · simp only [hready, if_true]
      exact .pure rfl
    · simp only [hready, if_false, bind_assoc, Mirrors.get_left, Mirrors.get_right,
        Kernel.tickCore_idleTask]
      cases k₁.idle c with
      | some i =>
        simp only [bind_assoc, pure_bind]
        exact copies_useIdle i
      | none => simp [Mirrors, wp_modifySched]

theorem copies_leaveCurrent (current next : Ptr) :
    Copies c (leaveCurrent c current next) (fun _ => TickCore.leaveCurrent current next) n k := by
  refine .read fun t ht => ?_
  simp only [TickCore.leaveCurrent, Mirrors.get_right, ht]
  split
  · simp only [Mirrors.get_left, Mirrors.get_right, Kernel.tickCore_idleTask]
    cases k.idle c with
    | none => exact (wp_throw _).mpr trivial
    | some i =>
      refine .assert fun hi => ?_
      simp only [bne_iff_ne.mp hi, ne_eq, not_false_eq_true, if_true]
      exact copies_useIdle i
  · exact .pure rfl

theorem mirrors_dispatch (current next : Ptr) :
    Mirrors c (fun _ _ => True) (dispatch c current next)
      (fun _ => TickCore.dispatch current next) n k := by
  refine .read fun t ht => .read fun u hu => .assert fun hready => .assert fun hleave => ?_
  have hstay : ¬(t.status ≠ .kReady ∧ current = next) := by simpa [imp_iff_not_or] using hleave
  simp only [TickCore.dispatch, Mirrors.get_right, ht, hu, beq_iff_eq.mp hready, hstay, ne_eq,
    not_true_eq_false, if_false]
  refine .bind (copies_updateTask next _) fun _ _ k₁ n₁ _ => ?_
  simp only [Mirrors, wp_bind, wp_modifySched, wp_modify, wp_pure]
  obtain ⟨r, -, hcall⟩ := call_keeps (c := c) (k := k₁) (n := n₁) (·.onScheduled next)
    ((k₁.tickCore c n₁).tasks next).policy fun _ _ => rfl
  refine ⟨(), n₁, 0, trivial, fun _ _ => ?_⟩
  simp only [bind, EStateM.bind, get_eq, hcall]
  simp [modify_eq, Kernel.tickCore, Kernel.running, Kernel.idle, Kernel.setCpu, Kernel.setSched]

theorem mirrors_switchTask (current next : Ptr) (mustLeave : Bool) :
    Mirrors c (fun _ _ => True) (switchTask current next mustLeave) (fun _ => pure ()) n k := by
  refine (BootMachine.wp_switchTask_kernel current next mustLeave k).imp ?_
  rintro _ k' ⟨rfl, -⟩
  exact ⟨(), n, 0, trivial, fun _ _ => rfl⟩

theorem schedule_eq (c : CoreId) : (schedule c : KernelM Unit) = (do
    let current ← currentTask c "Schedule: No current task to schedule"
    requeueCurrent c current
    let next ← chosenTask c current
    let next ← leaveCurrent c current next
    let mustLeave ← dispatch c current next
    switchTask current next mustLeave) := by
  simp only [schedule, scheduleBody, chosenTask, lock_kernelM, unlock_kernelM, run_kernelM, bind_assoc,
    pure_bind]
  refine bind_congr fun current => bind_congr fun _ => bind_congr fun next => ?_
  cases next with
  | none => rfl
  | some next => simp only [bind_assoc, pure_bind]

theorem copies_schedule : Copies c (schedule c : KernelM Unit) TickCore.schedule n k := by
  rw [schedule_eq, Copies, Mirrors, wp_bind, wp_currentTask]
  cases hrun : k.running c with
  | none => trivial
  | some current =>
    change Copies c _ (fun fuel => TickCore.schedule fuel) n k
    simp only [TickCore.schedule, Mirrors.get_right, Kernel.tickCore_runningTask, hrun]
    refine .bind (copies_requeueCurrent current) fun _ _ k₁ n₁ _ => ?_
    refine .bind (copies_chosenTask current) ?_
    rintro next _ k₂ n₂ rfl
    refine .bind (copies_leaveCurrent current next) ?_
    rintro next _ k₃ n₃ rfl
    rw [← bind_pure (TickCore.dispatch current next)]
    exact .bind (mirrors_dispatch current next) fun _ _ _ _ _ => mirrors_switchTask _ _ _

theorem Kernel.wakesLater_tickCore : (k.tickCore c n).wakesLater = k.wakesLater := by
  have hwake : ∀ q, ((k.tickCore c n).tasks q).schedInfo.wakeTick = k.wakeTick q := by
    intro q
    rw [tickCore_tasks, wakeTick]
    cases k.tasks q <;> rfl
  funext a b
  rw [TickCore.wakesLater, hwake, hwake]
  rfl

theorem copies_wakeSleepers (P : Platform) (m : ℕ) :
    Copies c (wakeSleepers P c m) (fun _ => TickCore.wakeSleepers P.heap m) n k := by
  induction m generalizing n k with
  | zero => exact (wp_throw _).mpr trivial
  | succ m ih =>
    simp only [wakeSleepers, TickCore.wakeSleepers, Mirrors.get_left, Mirrors.get_right,
      Kernel.tickCore_sleepingTasks]
    cases (k.cpuSchedulers c).sleepingTasks with
    | nil => exact .pure rfl
    | cons task rest =>
      refine .read fun t ht => ?_
      simp only [ht, Kernel.tickCore_localTick, Kernel.tickCore_runningTask]
      split
      · exact .pure rfl
      · refine .bind (copies_modifySched ?_) fun _ _ k₁ n₁ _ => ?_
        · rw [Kernel.wakesLater_tickCore]
          simp [Kernel.tickCore]
        refine .bind (copies_updateTask task _) fun _ _ k₂ n₂ _ => ?_
        have hrest : ∀ k₃ n₃, Copies c (do let _ ← wakeSleepers P c m; return true)
            (fun _ => do let _ ← TickCore.wakeSleepers P.heap m; return true) n₃ k₃ :=
          fun k₃ n₃ => .bind ih fun _ _ _ _ _ => .pure rfl
        split
        · exact .bind (mirrors_enqueueTask t.policy task) fun _ _ k₃ n₃ _ => hrest k₃ n₃
        · exact hrest k₂ n₂

theorem onTick_tickCore (p : Ptr) (needPreempt : Bool) : ∃ n',
    TickCore.onTick p needPreempt (k.tickCore c n) = .ok needPreempt (k.tickCore c n') := by
  cases hs : (k.tickCore c n).schedulers ((k.tickCore c n).tasks p).policy with
  | none => exact ⟨n, by simp only [TickCore.onTick, get_eq, bind, EStateM.bind, hs]; rfl⟩
  | some b =>
    cases needPreempt with
    | true => exact ⟨n, by simp only [TickCore.onTick, get_eq, bind, EStateM.bind, hs]; rfl⟩
    | false =>
      obtain ⟨r, hr, hcall⟩ := call_keeps (c := c) (k := k) (n := Function.update n p (n p + 1))
        (·.onTick p) ((k.tickCore c n).tasks p).policy fun _ _ => rfl
      have hcount : (modify fun m => { m with
          onTickCalls := Function.update m.onTickCalls p (m.onTickCalls p + 1) } :
          TickM Scheduler PUnit) (k.tickCore c n) =
        .ok () (k.tickCore c (Function.update n p (n p + 1))) := rfl
      refine ⟨Function.update n p (n p + 1), ?_⟩
      simp only [TickCore.onTick, get_eq, bind, EStateM.bind, hs, Bool.false_eq_true, if_false, hcount,
        hcall, hr, pure, EStateM.pure]

theorem copies_chargeTick (needPreempt : Bool) :
    Copies c (chargeTick c needPreempt) (fun _ => TickCore.chargeTick needPreempt) n k := by
  simp only [chargeTick, TickCore.chargeTick, Mirrors.get_left, Mirrors.get_right,
    Kernel.tickCore_runningTask]
  cases k.running c with
  | none => exact .pure rfl
  | some p =>
    refine .read fun t ht => ?_
    simp only [ht]
    split
    · refine .bind (copies_updateTask p _) fun _ _ k₁ n₁ _ => .read fun t₁ ht₁ => ?_
      obtain ⟨n₂, hon⟩ := onTick_tickCore (c := c) (k := k₁) (n := n₁) p needPreempt
      rw [Mirrors.get_left]
      refine (wp_pure _).mpr ⟨_, n₂, 0, rfl, fun _ _ => ?_⟩
      have ht₂ : (k₁.tickCore c n₂).tasks p = t₁ := ht₁
      simp only [bind, EStateM.bind, hon, get_eq, pure, EStateM.pure, ht₂]
      cases (k₁.cpuSchedulers c).schedulers t₁.policy <;> simp [Scheduler.onTick]
    · exact .pure rfl

/-- `TickUpdate` of the task manager is that of the tick accounting on what the core shows. -/
theorem copies_tickUpdate (P : Platform) :
    Copies c (tickUpdate P c : KernelM Unit) (TickCore.tickUpdate P.heap) n k := by
  have hbody : Copies c (tickBody P c) (fun _ => TickCore.tickBody P.heap) n k := by
    refine .bind (copies_modifySched (by simp [Kernel.tickCore])) fun _ _ k₁ n₁ _ => ?_
    simp only [Mirrors.get_left, Mirrors.get_right]
    refine .bind (copies_wakeSleepers P _) ?_
    rintro b _ k₂ n₂ rfl
    exact copies_chargeTick b
  simp only [tickUpdate, lockGuard_kernelM, run_kernelM]
  refine .bind (g := fun b fuel => if b then TickCore.schedule fuel else pure ()) hbody ?_
  rintro b _ k₁ n₁ rfl
  cases b with
  | false => exact .pure rfl
  | true => exact copies_schedule

end NaiLongKernel.Task
