import NaiLongKernel.Task.Arrival

/-!
# One core

Runs of one core: `InitCurrentCore`, then `AddTask`, `Schedule`, `TickUpdate`, `Sleep`,
`Block` and `Wakeup` in any order. The idle thread stays in the idle scheduler, and every
other task is in exactly one place, the one that its status says.
-/
namespace NaiLongKernel.Task

open Foundation

variable (P : Platform) (c : CoreId)

/-- What the core can be asked to do. -/
inductive CoreOp where
  | addTask (task : Ptr) (block : TaskControlBlock)
  | schedule
  | tickUpdate
  | sleep (ms : BitVec 64)
  | block (r : ResourceId)
  | wakeup (r : ResourceId)

/-- A new task is allocated by the caller of `AddTask`. -/
def CoreOp.exec : CoreOp → KernelM Unit
  | addTask task t => do
    modify (Kernel.setTask task t)
    Task.addTask P c task
  | schedule => Task.schedule c
  | tickUpdate => Task.tickUpdate P c
  | sleep ms => Task.sleep P c ms
  | block r => Task.block c r
  | wakeup r => Task.wakeup c r

/-- When the operation is called: new tasks are fresh, and only an added task sleeps or
blocks. -/
def CoreOp.Enabled (added : List Ptr) (k : Kernel) : CoreOp → Prop
  | addTask task t => k.tasks task = none ∧ t.status = .kUnInit ∧ t.pid = 0 ∧
      t.cpuAffinity = BitVec.allOnes 64 ∧ (t.policy = .kRealTime ∨ t.policy = .kNormal)
  | sleep _ => ∃ p ∈ added, k.running c = some p
  | block _ => ∃ p ∈ added, k.running c = some p
  | _ => True

def CoreOp.adds (added : List Ptr) : CoreOp → List Ptr
  | addTask task _ => task :: added
  | _ => added

/-- The states of a core with idle thread `i` and the tasks added to it, from
`InitCurrentCore` on. -/
inductive Reaches (i : Ptr) : List Ptr → Kernel → Prop where
  | init {k : Kernel} : (initCurrentCore c i : KernelM Unit) {} = .ok () k → Reaches i [] k
  | step {added : List Ptr} {k k' : Kernel} (op : CoreOp) : Reaches i added k →
      op.Enabled c added k → op.exec P c k = .ok () k' → Reaches i (op.adds added) k'

/-- The task is the running task, or in the one queue that goes with its status. -/
def InOnePlace (k : Kernel) (p : Ptr) : Prop :=
  ∃ t, k.tasks p = some t ∧ k.held c ≠ some p ∧
    (t.status = .kRunning ∧ k.running c = some p ∧ (∀ s, p ∉ k.slot s) ∨
      ∃ s, (t.status = .kReady ∧ s = .ready c t.policy ∨
          t.status = .kSleeping ∧ s = .sleeping c ∨
          t.status = .kBlocked ∧ s = .blocked c t.blockedOn) ∧
        k.running c ≠ some p ∧ (k.slot s).count p = 1 ∧ ∀ s', s' ≠ s → p ∉ k.slot s')

/-- The invariant of the core with idle thread `i` and the tasks `added`. -/
structure Solo (i : Ptr) (added : List Ptr) (k : Kernel) (loc : Ptr → Option Slot) : Prop where
  scheds : ∀ policy, ((k.cpuSchedulers c).schedulers policy).isSome = true
  idle : k.idle c = some i
  held : k.held c = some i
  current : ∃ p, k.running c = some p
  idle_status : ∃ t, k.tasks i = some t ∧
    (t.status = .kReady ∨ t.status = .kRunning ∧ k.running c = some i)
  known : ∀ p t, k.tasks p = some t → p ≠ i → p ∈ added ∧ t.policy ≠ .kIdle
  alloc : ∀ p ∈ added, p ≠ i ∧ ∃ t, k.tasks p = some t
  placed : ∀ p t, k.tasks p = some t → p ≠ i →
    (∃ s, loc p = some s) ∨ k.running c = some p ∧ t.status = .kRunning
  home : ∀ p s, loc p = some s → s.core = c

variable {P c} {k k' : Kernel} {loc loc' : Ptr → Option Slot} {p i : Ptr} {added : List Ptr}
  {t : TaskControlBlock}

namespace Solo

theorem home_eq (h : Solo c i added k loc) {policy : SchedPolicy} (hpol : policy ≠ .kIdle) :
    k.home c policy = some (.ready c policy) := by
  rw [Kernel.home, if_pos ⟨hpol, h.scheds policy⟩]

theorem known_only {X : Set Ptr} (h : Solo c i added k loc) (ho : Only c X k k') (q : Ptr)
    (u : TaskControlBlock) (hu : k'.tasks q = some u) (hq : q ≠ i) :
    q ∈ added ∧ u.policy ≠ .kIdle := by
  rcases ho.back hu with ⟨v, hv, hsame⟩
  rw [hsame.policy]
  exact h.known q v hv hq

theorem alloc_only {X : Set Ptr} (h : Solo c i added k loc) (ho : Only c X k k') (q : Ptr)
    (hq : q ∈ added) : q ≠ i ∧ ∃ u, k'.tasks q = some u := by
  rcases h.alloc q hq with ⟨hne, u, hu⟩
  rcases ho.same q u hu with ⟨v, hv, -⟩
  exact ⟨hne, v, hv⟩

theorem scheduled {current next : Ptr} (h : Solo c i added k loc)
    (hrun : k.running c = some current) (ht : k.tasks current = some t)
    (hs : Scheduled c current t next k loc k' loc') : Solo c i added k' loc' := by
  have other : ∀ q, q ≠ next → q ≠ current → k'.tasks q = k.tasks q := by
    intro q hq hq'
    exact hs.only.tasks q (by simp [hq, hq'])
  refine ⟨?_, ?_, ?_, ⟨next, hs.running⟩, ?_, ?_, ?_, ?_, ?_⟩
  · intro policy
    rw [hs.waiting.2.2.2 policy]
    exact h.scheds policy
  · rw [hs.only.idle]
    exact h.idle
  · rw [hs.held]
    exact h.held
  · rcases h.idle_status with ⟨u, hu, hst⟩
    by_cases hn : i = next
    · subst hn
      rcases hs.next_running with ⟨v, hv, hr⟩
      exact ⟨v, hv, Or.inr ⟨hr, hs.running⟩⟩
    · by_cases hc : i = current
      · subst hc
        rcases hs.left (Ne.symm hn) with ⟨v, hv, hst'⟩
        obtain rfl := Option.mem_unique ht hu
        refine ⟨v, hv, Or.inl ?_⟩
        rw [hst']
        rcases hst with hr | ⟨hr, -⟩ <;> simp [hr]
      · rw [other i hn hc]
        refine ⟨u, hu, Or.inl (hst.resolve_right ?_)⟩
        rintro ⟨-, hr⟩
        exact hc (Option.mem_unique hr hrun)
  · exact h.known_only hs.only
  · exact h.alloc_only hs.only
  · intro q u hu hq
    by_cases hn : q = next
    · subst hn
      rcases hs.next_running with ⟨v, hv, hr⟩
      exact Or.inr ⟨hs.running, Option.mem_unique hv hu ▸ hr⟩
    · left
      by_cases hc : q = current
      · subst hc
        rw [hs.loc_left (Ne.symm hn)]
        split
        · exact ⟨_, h.home_eq (h.known q t ht hq).2⟩
        · rename_i hnr
          exact (h.placed q t ht hq).resolve_right (fun hr => hnr hr.2)
      · rw [hs.loc_ne q hn hc]
        rw [other q hn hc] at hu
        refine (h.placed q u hu hq).resolve_right ?_
        rintro ⟨hr, -⟩
        exact hc (Option.mem_unique hr hrun)
  · exact hs.core h.home

theorem awakened {s : Slot} (h : Solo c i added k loc) (hsound : Sound k loc) (hc : s.core = c)
    (ha : Awakened s k loc k' loc') : Solo c i added k' loc' := by
  subst hc
  have same : ∀ q, loc q = none → k'.tasks q = k.tasks q := by
    intro q hq
    refine ha.only.tasks q ?_
    change loc q ≠ some s
    rw [hq]
    exact nofun
  have hidle : loc i = none := (hsound.thread s.core i h.idle).1
  have hpolicy : ∀ q u, loc q = some s → k.tasks q = some u → u.policy ≠ .kIdle := by
    intro q u hq hu
    refine (h.known q u hu ?_).2
    rintro rfl
    rw [hidle] at hq
    cases hq
  refine ⟨?_, ?_, ?_, ?_, ?_, ?_, ?_, ?_, ?_⟩
  · intro policy
    rw [ha.scheds policy]
    exact h.scheds policy
  · rw [ha.only.idle]
    exact h.idle
  · rw [ha.held hpolicy]
    exact h.held
  · rw [ha.running]
    exact h.current
  · rw [same i hidle, ha.running]
    exact h.idle_status
  · exact h.known_only ha.only
  · exact h.alloc_only ha.only
  · intro q u hu hq
    rw [ha.running]
    rcases ha.moved q with he | ⟨hl, v, hv, he⟩
    · rw [he]
      cases hl : loc q with
      | some s' => exact Or.inl ⟨s', rfl⟩
      | none =>
        rw [same q hl] at hu
        exact (h.placed q u hu hq).imp_left (fun ⟨s', hs'⟩ => by rw [hl] at hs'; cases hs')
    · rw [he]
      exact Or.inl ⟨_, h.home_eq (hpolicy q v hl hv)⟩
  · intro q s' hq
    rcases ha.moved q with he | ⟨-, v, -, he⟩
    · exact h.home q s' (he ▸ hq)
    · rw [he] at hq
      cases Kernel.ready_of_home hq
      rfl

theorem charged (h : Solo c i added k loc) (hch : Charged c loc k k') :
    Solo c i added k' loc := by
  have hheld : k'.held c = k.held c := by rw [Kernel.held, Kernel.held, hch.scheds]
  refine ⟨?_, ?_, ?_, ?_, ?_, ?_, ?_, ?_, h.home⟩
  · rw [hch.scheds]
    exact h.scheds
  · rw [hch.only.idle]
    exact h.idle
  · rw [hheld]
    exact h.held
  · rw [hch.running]
    exact h.current
  · rcases h.idle_status with ⟨u, hu, hst⟩
    rcases hch.status i u hu with ⟨v, hv, he⟩
    rw [hch.running]
    exact ⟨v, hv, by rwa [he]⟩
  · exact h.known_only hch.only
  · exact h.alloc_only hch.only
  · intro q u hu hq
    rcases hch.only.back hu with ⟨v, hv, -⟩
    rcases hch.status q v hv with ⟨u', hu', he⟩
    obtain rfl := Option.mem_unique hu hu'
    rw [hch.running, he]
    exact h.placed q v hv hq

theorem suspended {s : Slot} (h : Solo c i added k loc) (hc : s.core = c)
    (hidle : k.idle c ≠ some p) (hs : Suspended p s k loc k' loc') : Solo c i added k' loc' := by
  subst hc
  have hpi : p ≠ i := by
    rintro rfl
    exact hidle h.idle
  refine ⟨?_, ?_, ?_, ?_, ?_, ?_, ?_, ?_, ?_⟩
  · intro policy
    rw [hs.scheds policy]
    exact h.scheds policy
  · rw [hs.only.idle]
    exact h.idle
  · rcases hs.held with he | ⟨he, -⟩
    · rw [he]
      exact h.held
    · exact absurd (Option.mem_unique he h.held) hpi
  · rw [hs.running]
    exact h.current
  · rw [hs.only.tasks i (Ne.symm hpi), hs.running]
    exact h.idle_status
  · exact h.known_only hs.only
  · exact h.alloc_only hs.only
  · intro q u hu hq
    by_cases hqp : q = p
    · subst hqp
      exact Or.inl ⟨s, hs.loc_self⟩
    · rw [hs.only.tasks q hqp] at hu
      rw [hs.loc_ne q hqp, hs.running]
      exact h.placed q u hu hq
  · intro q s' hq
    by_cases hqp : q = p
    · subst hqp
      rw [hs.loc_self] at hq
      cases hq
      rfl
    · rw [hs.loc_ne q hqp] at hq
      exact h.home q s' hq

theorem closed (c : CoreId) (i : Ptr) (added : List Ptr) :
    Closed c Set.univ (Solo c i added) (fun _ _ => False) where
  scheduled _ h hrun ht hs := h.scheduled hrun ht hs
  awakened hc hsound h ha := h.awakened hsound hc ha
  charged h hch := h.charged hch
  suspended _ hc h _ hidle hs := h.suspended hc hidle hs
  parked h hnone _ := by
    rw [h.idle] at hnone
    cases hnone
  diverges h hrun ht hheld hne hu hnr _ := by
    rename_i current t
    rcases h.idle_status with ⟨v, hv, hst⟩
    rw [h.held] at hheld
    cases hheld
    obtain rfl := Option.mem_unique hv hu
    rcases hst with hr | ⟨hr, hrun'⟩
    · exact hnr hr
    · obtain rfl := Option.mem_unique hrun' hrun
      obtain rfl := Option.mem_unique hv ht
      exact hne rfl hr
  noScheduler h hnone _ := by
    have hsome := congrArg Option.isSome hnone
    rw [h.scheds] at hsome
    cases hsome

theorem addedTask (h : Solo c i added k loc) (hp : k.tasks p = none)
    (hpol : t.policy ≠ .kIdle) (ha : Added ∅ c p t (k.setTask p t) loc k' loc') :
    Solo c i (p :: added) k' loc' := by
  have hpi : p ≠ i := by
    rintro rfl
    rcases h.idle_status with ⟨u, hu, -⟩
    rw [hp] at hu
    cases hu
  have other : ∀ q, q ≠ p → k'.tasks q = k.tasks q := by
    intro q hq
    rw [ha.tasks_ne q hq, k.tasks_setTask_ne p t hq]
  rcases ha.task with ⟨t', ht', -, hsame⟩
  have hself : loc' p = some (.ready c t.policy) := by
    rw [ha.loc_self]
    exact h.home_eq hpol
  refine ⟨?_, ?_, ?_, ?_, ?_, ?_, ?_, ?_, ?_⟩
  · intro policy
    rw [ha.scheds c policy]
    exact h.scheds policy
  · rw [ha.idle]
    exact h.idle
  · rw [ha.held hpol]
    exact h.held
  · rw [ha.running]
    exact h.current
  · rw [other i (Ne.symm hpi), ha.running]
    exact h.idle_status
  · intro q u hu hq
    by_cases hqp : q = p
    · subst hqp
      refine ⟨List.mem_cons_self, ?_⟩
      rw [← Option.mem_unique ht' hu, hsame.policy]
      exact hpol
    · rw [other q hqp] at hu
      exact (h.known q u hu hq).imp_left (List.mem_cons_of_mem p)
  · intro q hq
    rcases List.mem_cons.mp hq with rfl | hq'
    · exact ⟨hpi, t', ht'⟩
    · rcases h.alloc q hq' with ⟨hne, u, hu⟩
      have hqp : q ≠ p := by
        rintro rfl
        rw [hp] at hu
        cases hu
      exact ⟨hne, u, by rw [other q hqp, hu]⟩
  · intro q u hu hq
    by_cases hqp : q = p
    · subst hqp
      exact Or.inl ⟨_, hself⟩
    · rw [other q hqp] at hu
      rw [ha.loc_ne q hqp, ha.running]
      exact h.placed q u hu hq
  · intro q s hq
    by_cases hqp : q = p
    · subst hqp
      rw [hself] at hq
      cases hq
      rfl
    · rw [ha.loc_ne q hqp] at hq
      exact h.home q s hq

theorem initialised (hi : Initialised ∅ c i {} (fun _ => none) k) : Solo c i [] k (fun _ => none) := by
  rcases hi.task with ⟨t, ht, hst, -⟩
  have none_else : ∀ q, q ≠ i → k.tasks q = none := fun q hq => hi.tasks_ne q hq
  refine ⟨hi.scheds, hi.idle, hi.held, ⟨i, hi.running⟩, ⟨t, ht, Or.inl hst⟩, ?_, ?_, ?_, ?_⟩
  · intro q u hu hq
    rw [none_else q hq] at hu
    cases hu
  · intro q hq
    cases hq
  · intro q u hu hq
    rw [none_else q hq] at hu
    cases hu
  · intro q s hq
    cases hq

end Solo

theorem CoreOp.wp_exec (op : CoreOp) (h : Stable ∅ k loc) (hs : Solo c i added k loc)
    (hop : op.Enabled c added k) :
    wp (op.exec P c) (fun _ k' => ∃ loc', Stable ∅ k' loc' ∧ Solo c i (op.adds added) k' loc')
      (fun _ _ => False) k := by
  have hclosed := Solo.closed c i added
  rcases hs.current with ⟨current, hrun⟩
  -- a task that calls `Sleep` or `Block` is not the idle thread
  have caller : ∀ q, q ∈ added → k.running c = some q → k.idle c ≠ some q := by
    intro q hq _ hi
    exact (hs.alloc q hq).1 (Option.mem_unique hi hs.idle)
  cases op with
  | addTask task t =>
    rcases hop with ⟨hfree, hst, hpid, haff, hpol⟩
    have hpol' : t.policy ≠ .kIdle := by
      rcases hpol with hp | hp <;> rw [hp] <;> exact nofun
    have hu := h.unused_of_none hfree
    have h₀ : Stable ∅ (k.setTask task t) loc := h.updateUnused hu (some t) rfl rfl rfl
    have hu₀ : Unused (k.setTask task t) loc task := hu.congr rfl rfl
    simp only [CoreOp.exec, wp_bind, wp_modify]
    refine wp_addTask P h₀ hu₀ (k.tasks_setTask_self task t) (fun _ hne => hne hst) ?_
    intro k' loc' ha
    rw [targetCore, if_pos haff] at ha
    exact ⟨loc', ha.stable, hs.addedTask hfree hpol' ha⟩
  | schedule => exact hclosed.wp_schedule_stable h hs hrun
  | tickUpdate => exact hclosed.wp_tickUpdate P h hs hrun
  | sleep ms =>
    rcases hop with ⟨q, hq, hr⟩
    exact hclosed.wp_sleep P h hs hr (caller q hq hr) trivial ms
  | block r =>
    rcases hop with ⟨q, hq, hr⟩
    exact hclosed.wp_block h hs hr (caller q hq hr) r trivial
  | wakeup r =>
    refine (hclosed.wp_wakeup h hs r).imp ?_
    rintro _ k' ⟨loc', h', hs', -⟩
    exact ⟨loc', h', hs'⟩

theorem wp_initCurrentCore (c : CoreId) (i : Ptr) :
    wp (initCurrentCore c i : KernelM Unit)
      (fun _ k => Stable ∅ k (fun _ => none) ∧ Solo c i [] k (fun _ => none)) (fun _ _ => False) {} := by
  rw [initCurrentCore, lockGuard_kernelM, run_kernelM]
  refine (wp_initBody Stable.empty rfl ⟨rfl, rfl, fun _ => rfl⟩).imp ?_
  intro _ k hi
  exact ⟨hi.stable, Solo.initialised hi⟩

theorem Reaches.solo (h : Reaches P c i added k) :
    ∃ loc, Stable ∅ k loc ∧ Solo c i added k loc := by
  induction h with
  | init hk => exact ⟨_, (wp_initCurrentCore c i).of_ok hk⟩
  | step op _ hop hexec ih =>
    rcases ih with ⟨loc, h, hs⟩
    exact (op.wp_exec h hs hop).of_ok hexec

theorem Solo.inOnePlace (h : Stable ∅ k loc) (hs : Solo c i added k loc) (hp : p ∈ added) :
    InOnePlace c k p := by
  rcases hs.alloc p hp with ⟨hpi, t, ht⟩
  refine ⟨t, ht, ?_, ?_⟩
  · rw [hs.held]
    exact fun he => hpi (Option.some.inj he).symm
  · rcases hs.placed p t ht hpi with ⟨s, hl⟩ | ⟨hrun, hst⟩
    · refine Or.inr ⟨s, ?_, ?_, ?_, ?_⟩
      · rcases h.agrees p s hl with ⟨u, hu, hag⟩
        obtain rfl := Option.mem_unique ht hu
        have hcore := hs.home p s hl
        cases s with
        | ready c' policy =>
          obtain rfl : c' = c := hcore
          exact Or.inl ⟨hag.1, by rw [hag.2]⟩
        | sleeping c' =>
          obtain rfl : c' = c := hcore
          exact Or.inr (Or.inl ⟨hag, rfl⟩)
        | blocked c' r =>
          obtain rfl : c' = c := hcore
          exact Or.inr (Or.inr ⟨hag.1, by rw [hag.2]⟩)
      · intro hrun
        rw [h.loc_running (Set.notMem_empty c) hrun] at hl
        cases hl
      · rw [h.located.count_eq, if_pos hl]
      · intro s' hne hmem
        exact hne (h.located.slot_unique hmem (h.toPlaced.mem_of_loc hl))
    · refine Or.inl ⟨hst, hrun, ?_⟩
      exact h.located.not_mem (h.loc_running (Set.notMem_empty c) hrun)

/-- In every reachable state each added task is in exactly one place, only added tasks are
queued, and no operation that is called fails an assertion or stops in another way. -/
theorem tasks_in_one_place (h : Reaches P c i added k) :
    (∀ p ∈ added, InOnePlace c k p) ∧ (∀ s, ∀ p ∈ k.slot s, p ∈ added) ∧
      ∀ op : CoreOp, op.Enabled c added k → ∃ k', op.exec P c k = .ok () k' := by
  rcases h.solo with ⟨loc, hst, hs⟩
  refine ⟨fun p hp => hs.inOnePlace hst hp, ?_, ?_⟩
  · intro s p hp
    rcases hst.tasks_of_mem hp with ⟨t, ht, -⟩
    have hpi : p ≠ i := by
      rintro rfl
      exact hst.located.not_mem (hst.thread c p hs.idle).1 s hp
    exact (hs.known p t ht hpi).1
  · intro op hop
    rcases (op.wp_exec hst hs hop).returns with ⟨_, k', hk', -⟩
    exact ⟨k', hk'⟩

theorem tasks_in_one_place_example :
    ∃ k, Reaches (presetPlatform true) 0 0 [1] k ∧ ∀ p ∈ [1], InOnePlace 0 k p := by
  have h₀ := Reaches.init (P := presetPlatform true) (c := 0) (i := 0) rfl
  have h₁ := h₀.step (.addTask 1 {}) ⟨rfl, rfl, rfl, rfl, Or.inr rfl⟩ rfl
  have h₂ := h₁.step .schedule trivial rfl
  have h₃ := h₂.step (.sleep 20) ⟨1, List.mem_singleton_self 1, rfl⟩ rfl
  exact ⟨_, h₃, (tasks_in_one_place h₃).1⟩

end NaiLongKernel.Task
