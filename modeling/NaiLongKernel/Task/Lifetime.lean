import NaiLongKernel.Task.Effects

/-!
# The lifetime of control blocks

Runs of all cores with all operations. Control blocks are deleted by `Wait`, by a `Clone`
that fails, and by an `Exit` without a parent. In the last case the control block is that
of the running task; and a task in an idle scheduler stays there when it exits. Runs
without these two delete only control blocks that nothing refers to.
-/
namespace NaiLongKernel.Task

open Foundation Memory

/-- When the control block was deleted no core ran it and no queue held it. -/
structure Deletion.Safe (d : Deletion) : Prop where
  running : ∀ c, (d.perCpu c).runningTask ≠ some d.task
  ready : ∀ c policy s, (d.cpuSchedulers c).schedulers policy = some s →
    d.task ∉ s.queue ∧ s.held ≠ some d.task
  sleeping : ∀ c, d.task ∉ (d.cpuSchedulers c).sleepingTasks
  blocked : ∀ c r, d.task ∉ ((d.cpuSchedulers c).blockedTasks r).getD []

/-- Table entries and thread groups lead to tasks, and deletions have been safe. -/
structure Life (k : Kernel) : Prop where
  entries : ∀ e ∈ k.taskTable, ∃ t, k.tasks e.2 = some t ∧ t.pid = e.1
  grouped : k.Grouped
  safe : ∀ d ∈ k.deletions, d.Safe

variable {k k' : Kernel} {loc loc' : Ptr → Option Slot} {p : Ptr} {t : TaskControlBlock}
  {c : CoreId} {B : Set CoreId}

theorem Unused.safe (hu : Unused k loc p) (h : Placed k loc) :
    Deletion.Safe ⟨p, k.perCpu, k.cpuSchedulers⟩ where
  running := hu.running
  ready c policy s hs := by
    refine ⟨?_, ?_⟩
    · have hq := h.located.not_mem hu.queues (.ready c policy)
      rwa [Kernel.slot_ready hs] at hq
    · by_cases hp : policy = .kIdle
      · subst hp
        have hh := hu.held c
        rwa [Kernel.held_eq hs] at hh
      · have hi : s.isIdle = false := by
          rw [← Bool.not_eq_true, h.kinds c policy s hs]
          exact hp
        rw [Scheduler.held_of_not_isIdle hi]
        exact nofun
  sleeping c := h.located.not_mem hu.queues (.sleeping c)
  blocked c r := h.located.not_mem hu.queues (.blocked c r)

namespace Life

theorem persists (h : Life k) (hp : Persists k k') : Life k' :=
  ⟨hp.entered h.entries, hp.grouped h.grouped, by rw [hp.deletions]; exact h.safe⟩

theorem departed (h : Life k) (hd : Departed p t k k') : Life k' :=
  ⟨hd.entered h.entries, hd.grouped, by rw [hd.deletions]; exact h.safe⟩

theorem safe_cons (h : Life k) (hst : Stable ∅ k loc) (hu : Unused k loc p) :
    ∀ d ∈ (⟨p, k.perCpu, k.cpuSchedulers⟩ : Deletion) :: k.deletions, d.Safe := by
  intro d hd
  rcases List.mem_cons.mp hd with rfl | hold
  · exact hu.safe hst.toPlaced
  · exact h.safe d hold

theorem deleted (h : Life k) (hst : Stable ∅ k loc) (ht : k.tasks p = some t) (hdead : isDead t = true)
    (hout : ∀ e ∈ k.taskTable, e.2 ≠ p) (hd : Deleted p t k k') : Life k' := by
  refine ⟨?_, hd.grouped h.grouped, ?_⟩
  · intro e he
    rw [hd.taskTable] at he
    obtain ⟨u, hu, hpid⟩ := h.entries e he
    obtain ⟨u', hu', hreg⟩ := hd.same e.2 (hout e he) u hu
    exact ⟨u', hu', hreg.profile.pid.trans hpid⟩
  · rw [hd.deletions]
    exact h.safe_cons hst (hst.unused_of_dead ht hdead)

theorem erased (h : Life k) (pid : Pid) : Life { k with taskTable := tableErase pid k.taskTable } :=
  ⟨fun e he => h.entries e (List.mem_of_mem_filter he), h.grouped, h.safe⟩

theorem reaped (h : Life k) (hst : Stable ∅ k loc) (hr : Reaped p t k k') : Life k' := by
  obtain ⟨hdead, ht, hd⟩ := hr
  refine (h.erased t.pid).deleted (hst.congr rfl rfl rfl) ht hdead ?_ hd
  -- the erased entry was the only one of the task
  intro e he heq
  obtain ⟨hmem, hne⟩ := List.mem_filter.mp he
  obtain ⟨u, hu, hpid⟩ := h.entries e hmem
  rw [heq, ht] at hu
  rw [← hpid, ← Option.some.inj hu, bne_self_eq_false] at hne
  cases hne

theorem abandoned (h : Life k) (hst : Stable ∅ k loc) (hp : k.tasks p = none) (vm : Memory.Vm) :
    Life (k.abandoned p vm) :=
  ⟨h.entries, h.grouped, h.safe_cons hst (hst.unused_of_none hp)⟩

theorem entries_tableSet (h : Life k) {pid : Pid} {u : TaskControlBlock} (hp : k.tasks p = none)
    (hu : k'.tasks p = some u) (hpid : u.pid = pid)
    (hsame : ∀ q, q ≠ p → ∀ v, k.tasks q = some v → ∃ v', k'.tasks q = some v' ∧ v'.pid = v.pid)
    (htable : k'.taskTable = tableSet pid p k.taskTable) : k'.Entered := by
  intro e he
  rw [htable] at he
  rcases List.mem_append.mp he with hold | hnew
  · obtain ⟨v, hv, hvp⟩ := h.entries e (List.mem_of_mem_filter hold)
    have hep : e.2 ≠ p := by
      intro heq
      rw [heq, hp] at hv
      cases hv
    obtain ⟨v', hv', hvp'⟩ := hsame e.2 hep v hv
    exact ⟨v', hv', hvp'.trans hvp⟩
  · rw [List.mem_singleton.mp hnew]
    exact ⟨u, hu, hpid⟩

theorem cloned {u : TaskControlBlock} (h : Life k) (hp : k.tasks p = none)
    (hcl : Cloned c p u k loc k' loc') : Life k' := by
  obtain ⟨u', hu', -, he⟩ := hcl.block
  refine ⟨h.entries_tableSet hp hu' (by rw [he]) ?_ hcl.taskTable, hcl.grouped, ?_⟩
  · intro q hq v hv
    obtain ⟨v', hv', hr⟩ := hcl.same q hq v hv
    exact ⟨v', hv', hr.profile.pid⟩
  · rw [hcl.deletions]
    exact h.safe

theorem added {target : CoreId} (h : Life k) (hp : k.tasks p = none)
    (hn : t.threadGroupNext = none) (hpr : t.threadGroupPrev = none)
    (ha : Added B target p t (k.setTask p t) loc k' loc') : Life k' := by
  obtain ⟨t', ht', -, hsame⟩ := ha.task
  have hself := k.tasks_setTask_self p t
  have htasks : ∀ q, q ≠ p → k'.tasks q = (k.setTask p t).tasks q := ha.tasks_ne
  have hnext : k'.next = (k.setTask p t).next := by
    funext q
    by_cases hq : q = p
    · rw [hq, Kernel.next_eq ht', Kernel.next_eq hself, hsame.fields]
      rfl
    · rw [Kernel.next, Kernel.next, htasks q hq]
  have hprev : k'.prev = (k.setTask p t).prev := by
    funext q
    by_cases hq : q = p
    · rw [hq, Kernel.prev_eq ht', Kernel.prev_eq hself, hsame.fields]
      rfl
    · rw [Kernel.prev, Kernel.prev, htasks q hq]
  refine ⟨h.entries_tableSet hp ht' hsame.pid ?_ ha.taskTable, ?_, ?_⟩
  · intro q hq v hv
    exact ⟨v, (htasks q hq).trans ((k.tasks_setTask_ne p t hq).trans hv), rfl⟩
  · rw [Kernel.Grouped, hnext, hprev]
    exact h.grouped.alloc hp hn hpr
  · rw [ha.deletions]
    exact h.safe

theorem initialised (h : Life k) (hp : k.tasks p = none) (hi : Initialised B c p k loc k') :
    Life k' := by
  obtain ⟨t, ht, -, hsame⟩ := hi.task
  have htasks : k'.tasks = (k.setTask p t).tasks := by
    funext q
    by_cases hq : q = p
    · rw [hq, ht, k.tasks_setTask_self]
    · rw [hi.tasks_ne q hq, k.tasks_setTask_ne p t hq]
  refine ⟨?_, ?_, ?_⟩
  · intro e he
    rw [hi.taskTable] at he
    obtain ⟨u, hu, hpid⟩ := h.entries e he
    have hep : e.2 ≠ p := by
      intro heq
      rw [heq, hp] at hu
      cases hu
    exact ⟨u, (hi.tasks_ne e.2 hep).trans hu, hpid⟩
  · rw [Kernel.Grouped, Kernel.next_congr htasks, Kernel.prev_congr htasks]
    exact h.grouped.alloc hp (by rw [hsame.fields]; rfl) (by rw [hsame.fields]; rfl)
  · rw [hi.deletions]
    exact h.safe

end Life

namespace SysOp

/-- The core runs a task that is not its idle thread. -/
def Caller (c : CoreId) (k : Kernel) : Prop := ∃ p, k.running c = some p ∧ k.idle c ≠ some p

/-- When the operation is called: cores are initialised once and before other operations,
new control blocks are fresh, and idle threads only pause. -/
def Enabled (k : Kernel) : SysOp → Prop
  | initCurrentCore c idleTask => k.Uninitialised c ∧ k.tasks idleTask = none
  | addTask _ task t => k.tasks task = none ∧ t.status = .kUnInit ∧ t.threadGroupNext = none ∧
      t.threadGroupPrev = none
  | clone _ _ child => ∀ p, child = some p → k.tasks p = none
  | schedule c => ∃ p, k.running c = some p
  | tickUpdate c => ∃ p, k.running c = some p
  | sleep c _ => Caller c k
  | block c _ => Caller c k
  | wakeup _ _ => True
  | exit c _ => Caller c k
  | wait c _ _ _ order => Caller c k ∧ order.Perm k.taskTable
  | findTask _ _ => True
  | allocPage _ => True
  | vmCall _ _ _ => True

/-- A task exits only when it has a parent and no idle scheduler holds it. -/
def Careful (k : Kernel) : SysOp → Prop
  | exit c _ => ∀ p t, k.running c = some p → k.tasks p = some t →
      k.exitParent p t ≠ 0 ∧ ∀ c', k.held c' ≠ some p
  | _ => True

end SysOp

/-- The states that the operations allowed by `A` reach. -/
inductive SysRun (P : Platform) (A : Kernel → SysOp → Prop) : Kernel → Prop where
  | start : SysRun P A {}
  | step {k k' : Kernel} (op : SysOp) : SysRun P A k → op.Enabled k → A k op →
      (op.exec P : KernelM Unit) k = .ok () k' → SysRun P A k'

variable {P : Platform}

/-- What the operation has done when it returns. -/
def SysOp.Effect (P : Platform) (k k' : Kernel) : SysOp → Prop
  | initCurrentCore c idleTask => ∃ loc, Initialised ∅ c idleTask k loc k'
  | addTask c task t => ∃ loc loc',
      Added ∅ (targetCore P c t.cpuAffinity) task t (k.setTask task t) loc k' loc'
  | clone c flags child => ∃ r loc loc', CloneEffect P c (completeFlags flags) child k loc r k' loc'
  | exit c _ => ∃ p t k₁, k.running c = some p ∧ k.tasks p = some t ∧ Departed p t k k₁ ∧ Persists k₁ k'
  | wait c pid _ _ _ => Persists k k' ∨ ∃ q u, k.WaitedFor c pid u ∧ Reaped q u k k'
  | allocPage _ => ∃ r, runVm (allocTable P.allocator) k = .ok r k'
  | vmCall _ pageDir call => ∃ r, runVm (call.exec P.allocator pageDir) k = .ok r k'
  | _ => Persists k k'

theorem SysOp.wp_exec (op : SysOp) (h : Stable ∅ k loc) (hl : Life k) (hen : op.Enabled k)
    (hcare : op.Careful k) :
    wp (op.exec P : KernelM Unit) (fun _ k' => (∃ loc', Stable ∅ k' loc') ∧ op.Effect P k k')
      (Failed k) k := by
  have hclosed := Persists.closed k op.core
  have done : ∀ k', (∃ loc', Stable ∅ k' loc' ∧ Persists k k') →
      (∃ loc', Stable ∅ k' loc') ∧ Persists k k' := by
    rintro k' ⟨loc', h', hp⟩
    exact ⟨⟨loc', h'⟩, hp⟩
  have memory : ∀ {α : Type} (x : VmM α), wp (runVm x)
      (fun _ k' => (∃ loc', Stable ∅ k' loc') ∧ ∃ r, runVm x k = .ok r k') (Failed k) k := by
    intro α x
    refine wp_runVm ?_ ?_ (fun _ _ _ => ⟨trivial, rfl⟩)
    · intro a vm hx
      exact ⟨⟨loc, h.congr rfl rfl rfl⟩, .ok a, by rw [runVm, hx]⟩
    · intro code vm hx
      exact ⟨⟨loc, h.congr rfl rfl rfl⟩, .error code, by rw [runVm, hx]⟩
  cases op with
  | initCurrentCore c i =>
    rw [SysOp.exec, Task.initCurrentCore, lockGuard_kernelM, run_kernelM]
    refine (wp_initBody h hen.2 hen.1).imp ?_
    intro _ k' hi
    exact ⟨⟨loc, hi.stable⟩, loc, hi⟩
  | addTask c task t =>
    have hu := h.unused_of_none hen.1
    have h₀ : Stable ∅ (k.setTask task t) loc := h.updateUnused hu (some t) rfl rfl rfl
    simp only [SysOp.exec, run_kernelM, wp_bind, wp_modify]
    refine wp_addTask P h₀ (hu.congr rfl rfl) (k.tasks_setTask_self task t)
      (fun _ _ => ⟨trivial, rfl⟩) ?_
    intro k' loc' ha
    exact ⟨⟨loc', ha.stable⟩, loc, loc', ha⟩
  | clone c flags child =>
    simp only [SysOp.exec, wp_bind, wp_pure]
    refine wp_mono (wp_clone P h hl.grouped hl.entries flags child hen) ?_ ?_
    · rintro r k' ⟨loc', he⟩
      exact ⟨he.stable h, r, loc, loc', he⟩
    · rintro e k' ⟨message, _, _, rfl, -, -, -, hdel⟩
      exact ⟨trivial, hdel⟩
  | findTask c pid =>
    simp only [SysOp.exec, Task.findTask, lockGuard_kernelM, run_kernelM, wp_bind, wp_get, wp_pure]
    exact done k ⟨loc, h, Persists.refl k⟩
  | schedule c =>
    rcases hen with ⟨p, hrun⟩
    exact (hclosed.wp_schedule_stable h (Persists.refl k) hrun).imp (fun _ => done)
  | tickUpdate c =>
    rcases hen with ⟨p, hrun⟩
    exact (hclosed.wp_tickUpdate P h (Persists.refl k) hrun).imp (fun _ => done)
  | sleep c ms =>
    rcases hen with ⟨p, hrun, hidle⟩
    exact (hclosed.wp_sleep P h (Persists.refl k) hrun hidle trivial ms).imp (fun _ => done)
  | block c r =>
    rcases hen with ⟨p, hrun, hidle⟩
    exact (hclosed.wp_block h (Persists.refl k) hrun hidle r trivial).imp (fun _ => done)
  | wakeup c r =>
    refine (hclosed.wp_wakeup h (Persists.refl k) r).imp ?_
    rintro _ k' ⟨loc', h', hp, -⟩
    exact done k' ⟨loc', h', hp⟩
  | exit c exitCode =>
    rcases hen with ⟨p, hrun, hidle⟩
    rcases h.runs c p hrun with ⟨t, ht, -⟩
    rcases hcare p t hrun ht with ⟨hpar, hheld⟩
    refine (wp_exit h hl.grouped hl.entries hrun hidle hheld ht hpar exitCode).imp ?_
    rintro _ k' ⟨h', k₁, hd, hp⟩
    exact ⟨h', p, t, k₁, hrun, ht, hd, hp⟩
  | wait c pid noHang untraced order =>
    rcases hen with ⟨⟨p, hrun, hidle⟩, horder⟩
    simp only [SysOp.exec, wp_bind, wp_pure]
    obtain ⟨t, ht, -⟩ := h.runs c p hrun
    refine wp_mono (wp_waitPass h hl.grouped hl.entries hrun hidle ht pid noHang untraced horder) ?_
      (fun _ _ hfail => hfail.1)
    rintro r k' ⟨h', hpassed⟩
    refine ⟨h', hpassed.persists_or_reaped.imp_right ?_⟩
    rintro ⟨q, u, hmatch, hreaped⟩
    exact ⟨q, u, ⟨p, t, hrun, ht, hmatch⟩, hreaped⟩
  | allocPage | vmCall =>
    simp only [SysOp.exec, run_kernelM, wp_bind, wp_pure]
    exact memory _

theorem Life.effect {op : SysOp} (hl : Life k) (h : Stable ∅ k loc) (hen : op.Enabled k)
    (he : op.Effect P k k') : Life k' := by
  cases op with
  | initCurrentCore c i =>
    obtain ⟨_, hi⟩ := he
    exact hl.initialised hen.2 hi
  | addTask c task t =>
    obtain ⟨_, _, ha⟩ := he
    exact hl.added hen.1 hen.2.2.1 hen.2.2.2 ha
  | clone c flags child =>
    obtain ⟨r, _, _, he⟩ := he
    cases he with
    | noTask => exact hl
    | noPid | noBlock => exact ⟨hl.entries, hl.grouped, hl.safe⟩
    | noTable hq => exact hl.abandoned h (hen _ hq) _
    | noStack hq => exact hl.abandoned h (hen _ hq) _
    | cloned _ hq _ _ _ _ hcl _ _ => exact hl.cloned (hen _ hq) hcl
  | exit c exitCode =>
    obtain ⟨p, t, k₁, -, -, hd, hp⟩ := he
    exact (hl.departed hd).persists hp
  | wait c pid noHang untraced order =>
    rcases he with hp | ⟨q, u, -, hr⟩
    · exact hl.persists hp
    · exact hl.reaped h hr
  | allocPage | vmCall =>
    obtain ⟨r, hr⟩ := he
    rw [runVm_rest hr]
    exact ⟨hl.entries, hl.grouped, hl.safe⟩
  | findTask | schedule | tickUpdate | sleep | block | wakeup => exact hl.persists he

/-- What becomes of the tasks when the operation returns. -/
inductive SysOp.Outcome (P : Platform) (k : Kernel) : SysOp → Kernel → Prop
  | initialised {c : CoreId} {i : Ptr} {loc : Ptr → Option Slot} {k' : Kernel} :
      Initialised ∅ c i k loc k' → Outcome P k (.initCurrentCore c i) k'
  | added {c : CoreId} {p : Ptr} {t : TaskControlBlock} {loc loc' : Ptr → Option Slot} {k' : Kernel} :
      Added ∅ (targetCore P c t.cpuAffinity) p t (k.setTask p t) loc k' loc' →
      Outcome P k (.addTask c p t) k'
  | cloned {c : CoreId} {flags : BitVec 64} {child : Option Ptr} {q parent : Ptr} {t : TaskControlBlock}
      {pageTable : Option Addr} {stack : Addr} {loc loc' : Ptr → Option Slot} {k' : Kernel} :
      child = some q → k.running c = some parent → k.tasks parent = some t →
      Cloned c q { k.childOf (completeFlags flags) t with
        pageTable := pageTable, kernelStack := some stack } k loc k' loc' →
      k.JoinedBehind q (k.joinTarget (completeFlags flags) parent t) k' →
      Outcome P k (.clone c flags child) k'
  | departed {c : CoreId} {exitCode : BitVec 32} {p : Ptr} {t : TaskControlBlock} {k₁ k' : Kernel} :
      k.running c = some p → k.tasks p = some t → Departed p t k k₁ → Persists k₁ k' →
      Outcome P k (.exit c exitCode) k'
  | reaped {c : CoreId} {pid : Pid} {noHang untraced : Bool} {order : List (Pid × Ptr)} {q : Ptr}
      {u : TaskControlBlock} {k' : Kernel} : k.WaitedFor c pid u → Reaped q u k k' →
      Outcome P k (.wait c pid noHang untraced order) k'
  | persists {op : SysOp} {k' : Kernel} : Persists k k' → Outcome P k op k'
  | rest {op : SysOp} (vm : Vm) (pidAllocator : Pid) (deletions : List Deletion) : Outcome P k op
      { k with vm := vm, pidAllocator := pidAllocator, deletions := deletions }

theorem SysOp.Effect.outcome {op : SysOp} (he : op.Effect P k k') : op.Outcome P k k' := by
  cases op with
  | initCurrentCore c i =>
    obtain ⟨_, hi⟩ := he
    exact .initialised hi
  | addTask c task t =>
    obtain ⟨_, _, ha⟩ := he
    exact .added ha
  | clone c flags child =>
    obtain ⟨r, _, _, he⟩ := he
    cases he with
    | noTask | noPid | noBlock | noTable | noStack => exact .rest _ _ _
    | cloned _ hq hrun ht _ _ hcl hj _ => exact .cloned hq hrun ht hcl hj
  | exit c exitCode =>
    obtain ⟨p, t, k₁, hrun, ht, hd, hp⟩ := he
    exact .departed hrun ht hd hp
  | wait c pid noHang untraced order =>
    rcases he with hp | ⟨q, u, hw, hr⟩
    · exact .persists hp
    · exact .reaped hw hr
  | allocPage | vmCall =>
    obtain ⟨r, hr⟩ := he
    rw [runVm_rest hr]
    exact .rest _ _ _
  | findTask | schedule | tickUpdate | sleep | block | wakeup => exact .persists he

theorem SysOp.effect_of_exec {op : SysOp} (h : Stable ∅ k loc) (hl : Life k) (hen : op.Enabled k)
    (hcare : op.Careful k) (hexec : (op.exec P : KernelM Unit) k = .ok () k') :
    (∃ loc', Stable ∅ k' loc') ∧ Life k' ∧ op.Effect P k k' := by
  obtain ⟨h', he⟩ := (op.wp_exec h hl hen hcare).of_ok hexec
  exact ⟨h', hl.effect h hen he, he⟩

theorem Life.empty : Life {} := ⟨nofun, fun p q => by simp [Kernel.next, Kernel.prev], nofun⟩

/-- What the states reached imply of the operations allowed in them may be used. -/
theorem SysRun.mono_of_reached {A A' : Kernel → SysOp → Prop} (h : SysRun P A k)
    (hA : ∀ k op, SysRun P A k → A k op → A' k op) : SysRun P A' k := by
  induction h with
  | start => exact .start
  | step op hrun hen hok hexec ih => exact ih.step op hen (hA _ op hrun hok) hexec

theorem SysRun.mono {A A' : Kernel → SysOp → Prop} (h : SysRun P A k)
    (hA : ∀ k op, A k op → A' k op) : SysRun P A' k :=
  h.mono_of_reached fun k op _ => hA k op

theorem SysRun.invariant (h : SysRun P (fun k op => op.Careful k) k) :
    ∃ loc, Stable ∅ k loc ∧ Life k := by
  induction h with
  | start => exact ⟨_, Stable.empty, Life.empty⟩
  | step op _ hen hcare hexec ih =>
    rcases ih with ⟨loc, hst, hl⟩
    obtain ⟨⟨loc', h'⟩, hl', -⟩ := SysOp.effect_of_exec hst hl hen hcare hexec
    exact ⟨loc', h', hl'⟩

/-- The invariant rule for careful runs: what the effects of the allowed operations keep. -/
theorem SysRun.induction {A : Kernel → SysOp → Prop} {I : Kernel → Prop}
    (hcare : ∀ k op, A k op → op.Careful k) (hstart : I {})
    (hstep : ∀ k loc op k', Stable ∅ k loc → Life k → I k → op.Enabled k → A k op →
      op.Effect P k k' → I k') (h : SysRun P A k) : I k := by
  induction h with
  | start => exact hstart
  | step op hrun hen hok hexec ih =>
    obtain ⟨loc, hst, hl⟩ := (hrun.mono hcare).invariant
    obtain ⟨-, -, he⟩ := SysOp.effect_of_exec hst hl hen (hcare _ op hok) hexec
    exact hstep _ loc op _ hst hl ih hen hok he

section Replay

instance (k : Kernel) (c : CoreId) : Decidable (k.Uninitialised c) :=
  decidable_of_iff (k.running c = none ∧ k.idle c = none ∧
      ∀ policy ∈ [SchedPolicy.kRealTime, .kNormal, .kIdle],
        ((k.cpuSchedulers c).schedulers policy).isNone = true)
    ⟨fun h => ⟨h.1, h.2.1, fun policy => Option.isNone_iff_eq_none.mp
        (h.2.2 policy (by cases policy <;> simp))⟩,
      fun h => ⟨h.running, h.idle, fun policy _ => Option.isNone_iff_eq_none.mpr (h.schedulers policy)⟩⟩

instance (c : CoreId) (k : Kernel) : Decidable (SysOp.Caller c k) :=
  inferInstanceAs (Decidable (∃ p ∈ k.running c, k.idle c ≠ some p))

instance (k : Kernel) : (op : SysOp) → Decidable (op.Enabled k)
  | .initCurrentCore c i => inferInstanceAs (Decidable (k.Uninitialised c ∧ k.tasks i = none))
  | .addTask _ p t => inferInstanceAs (Decidable (k.tasks p = none ∧ t.status = .kUnInit ∧
      t.threadGroupNext = none ∧ t.threadGroupPrev = none))
  | .clone _ _ child => inferInstanceAs (Decidable (∀ p ∈ child, k.tasks p = none))
  | .schedule _ => decidable_of_iff _ Option.isSome_iff_exists
  | .tickUpdate _ => decidable_of_iff _ Option.isSome_iff_exists
  | .sleep c _ => inferInstanceAs (Decidable (SysOp.Caller c k))
  | .block c _ => inferInstanceAs (Decidable (SysOp.Caller c k))
  | .wakeup _ _ => inferInstanceAs (Decidable True)
  | .exit c _ => inferInstanceAs (Decidable (SysOp.Caller c k))
  | .wait c _ _ _ order => inferInstanceAs (Decidable (SysOp.Caller c k ∧ order.Perm k.taskTable))
  | .findTask _ _ | .allocPage _ | .vmCall _ _ _ => inferInstanceAs (Decidable True)

/-- A task that exits has a parent and is not of the idle policy. -/
def SysOp.Settled (k : Kernel) : SysOp → Prop
  | exit c _ => ∀ p ∈ k.running c, ∀ t ∈ k.tasks p, k.exitParent p t ≠ 0 ∧ t.policy ≠ .kIdle
  | _ => True

instance (k : Kernel) : (op : SysOp) → Decidable (op.Settled k)
  | .exit c _ => inferInstanceAs (Decidable (∀ p ∈ k.running c, ∀ t ∈ k.tasks p,
      k.exitParent p t ≠ 0 ∧ t.policy ≠ .kIdle))
  | .initCurrentCore _ _ | .addTask _ _ _ | .clone _ _ _ | .schedule _ | .tickUpdate _ | .sleep _ _
  | .block _ _ | .wakeup _ _ | .wait _ _ _ _ _ | .findTask _ _ | .allocPage _ | .vmCall _ _ _ =>
    inferInstanceAs (Decidable True)

theorem SysOp.Settled.careful {op : SysOp} (h : op.Settled k) (hst : Stable ∅ k loc) :
    op.Careful k := by
  cases op with
  | exit c exitCode =>
    intro p t hrun ht
    obtain ⟨hpar, hpol⟩ := h p hrun t ht
    exact ⟨hpar, hst.not_held ht hpol⟩
  | _ => trivial

/-- The state after an operation that returns. -/
def SysOp.next (P : Platform) (k : Kernel) (op : SysOp) : Option Kernel :=
  match (op.exec P : KernelM Unit) k with
  | .ok _ k' => some k'
  | .error _ _ => none

theorem SysOp.next_eq_some {op : SysOp} :
    op.next P k = some k' ↔ (op.exec P : KernelM Unit) k = .ok () k' := by
  unfold SysOp.next
  cases hx : (op.exec P : KernelM Unit) k with
  | ok a k₁ => simp [eq_comm]
  | error e k₁ => simp

/-- A list of operations is run, as long as they are enabled and allowed and return. -/
def SysOp.replay (P : Platform) (R : Kernel → SysOp → Prop) [∀ k op, Decidable (R k op)] (k : Kernel)
    (l : List SysOp) : Option Kernel :=
  l.foldlM (fun k op => if op.Enabled k ∧ op.Settled k ∧ R k op then op.next P k else none) k

theorem SysRun.replay {R : Kernel → SysOp → Prop} [∀ k op, Decidable (R k op)] {l : List SysOp}
    (h : SysRun P (fun k op => op.Careful k ∧ R k op) k) (hl : SysOp.replay P R k l = some k') :
    SysRun P (fun k op => op.Careful k ∧ R k op) k' := by
  induction l generalizing k with
  | nil =>
    cases hl
    exact h
  | cons op rest ih =>
    rw [SysOp.replay, List.foldlM_cons] at hl
    obtain ⟨k₁, hk₁, hrest⟩ := Option.bind_eq_some_iff.mp hl
    split at hk₁
    · rename_i hok
      obtain ⟨loc, hst, -⟩ := (h.mono (fun _ _ hA => hA.1)).invariant
      rw [SysOp.next_eq_some] at hk₁
      exact ih (h.step op hok.1 ⟨hok.2.1.careful hst, hok.2.2⟩ hk₁) hrest
    · cases hk₁

theorem SysRun.exists_replay (R : Kernel → SysOp → Prop) [∀ k op, Decidable (R k op)]
    (l : List SysOp) {S : Kernel → Prop} [DecidablePred S]
    (hl : (SysOp.replay P R {} l).any (fun k => decide (S k)) = true) :
    ∃ k, SysRun P (fun k op => op.Careful k ∧ R k op) k ∧ S k := by
  cases hk : SysOp.replay P R {} l with
  | none =>
    rw [hk] at hl
    cases hl
  | some k =>
    rw [hk] at hl
    exact ⟨k, SysRun.replay .start hk, of_decide_eq_true hl⟩

theorem SysRun.exists_careful (l : List SysOp) {S : Kernel → Prop} [DecidablePred S]
    (hl : (SysOp.replay P (fun _ _ => True) {} l).any (fun k => decide (S k)) = true) :
    ∃ k, SysRun P (fun k op => op.Careful k) k ∧ S k := by
  obtain ⟨k, hk, hS⟩ := SysRun.exists_replay _ l hl
  exact ⟨k, hk.mono (fun _ _ hA => hA.1), hS⟩

end Replay

/-- In every run whose exits are careful, control blocks are deleted only when no core
runs them and no queue or idle scheduler has them, and no operation uses a deleted one or
deletes it again, whether the operation returns or not. -/
theorem control_blocks_deleted_unused (h : SysRun P (fun k op => op.Careful k) k) :
    (∀ d ∈ k.deletions, d.Safe) ∧ ∀ op : SysOp, op.Enabled k → op.Careful k →
      (∀ k', (op.exec P : KernelM Unit) k = .ok () k' → ∀ d ∈ k'.deletions, d.Safe) ∧
      ∀ e k', (op.exec P : KernelM Unit) k = .error e k' → e.Harmless ∧ ∀ d ∈ k'.deletions, d.Safe := by
  rcases h.invariant with ⟨loc, hst, hl⟩
  refine ⟨hl.safe, ?_⟩
  intro op hen hcare
  refine ⟨?_, ?_⟩
  · intro k' hexec
    obtain ⟨-, hl', -⟩ := SysOp.effect_of_exec hst hl hen hcare hexec
    exact hl'.safe
  · intro e k' hexec
    obtain ⟨hharmless, hdel⟩ := (op.wp_exec hst hl hen hcare).of_error hexec
    rw [hdel]
    exact ⟨hharmless, hl.safe⟩

theorem control_blocks_deleted_unused_example :
    ∃ k, SysRun (presetPlatform true) (fun k op => op.Careful k) k ∧ k.deletions.length = 1 ∧
      ∀ d ∈ k.deletions, d.Safe := by
  have h₀ := SysRun.start (P := presetPlatform true) (A := fun k op => op.Careful k)
  have h₁ := h₀.step (.initCurrentCore 0 0) ⟨⟨rfl, rfl, fun _ => rfl⟩, rfl⟩ trivial rfl
  have h₂ := h₁.step (.addTask 0 1 {}) ⟨rfl, rfl, rfl, rfl⟩ trivial rfl
  have h₃ := h₂.step (.addTask 0 2 { parentPid := 1 }) ⟨rfl, rfl, rfl, rfl⟩ trivial rfl
  have h₄ := h₃.step (.schedule 0) ⟨0, rfl⟩ trivial rfl
  have h₅ := h₄.step (.wait 0 2 false false [(1, 1), (2, 2)]) ⟨⟨1, rfl, nofun⟩, List.Perm.refl _⟩
    trivial rfl
  have h₆ := h₅.step (.exit 0 7) ⟨2, rfl, nofun⟩ ?_ rfl
  · have h₇ := h₆.step (.wait 0 2 false false [(1, 1), (2, 2)]) ⟨⟨1, rfl, nofun⟩, List.Perm.refl _⟩
      trivial rfl
    exact ⟨_, h₇, rfl, (control_blocks_deleted_unused h₇).1⟩
  · rintro p t hp ht
    obtain rfl : 2 = p := Option.some.inj hp
    rcases h₅.invariant with ⟨loc, hst, -⟩
    obtain rfl := Option.some.inj ht
    exact ⟨(by decide : (1 : Pid) ≠ 0), hst.not_held ht nofun⟩

/-- A task without a parent exits: its control block is deleted while the core runs it, and
then read. -/
theorem exit_without_parent_deletes_running :
    ∃ k, SysRun (presetPlatform true) (fun _ _ => True) k ∧ (SysOp.exit 0 0).Enabled k ∧
      ∃ k', ((SysOp.exit 0 0).exec (presetPlatform true) : KernelM Unit) k =
          .error (.useAfterFree 1) k' ∧
        ∃ d ∈ k'.deletions, ¬ d.Safe := by
  have h₀ := SysRun.start (P := presetPlatform true) (A := fun _ _ => True)
  have h₁ := h₀.step (.initCurrentCore 0 0) ⟨⟨rfl, rfl, fun _ => rfl⟩, rfl⟩ trivial rfl
  have h₂ := h₁.step (.addTask 0 1 {}) ⟨rfl, rfl, rfl, rfl⟩ trivial rfl
  have h₃ := h₂.step (.schedule 0) ⟨0, rfl⟩ trivial rfl
  refine ⟨_, h₃, ⟨1, rfl, nofun⟩, _, rfl, _, List.mem_cons_self, ?_⟩
  intro hsafe
  exact hsafe.running 0 rfl

end NaiLongKernel.Task
