import NaiLongKernel.Task.SingleCore

/-!
# The order of the queues

What `Schedule` does to the ready queues of a core as lists, and to the accounts of the
tasks. The current task goes to the tail of its own queue, and the next task is the head
of the first queue that is not empty.
-/
namespace NaiLongKernel.Task

open Foundation

variable {P : Platform} {k k' k'' : Kernel} {loc : Ptr → Option Slot} {p i : Ptr}
  {t : TaskControlBlock} {c : CoreId} {added : List Ptr} {E : Fault → Kernel → Prop}
  {policy : SchedPolicy}

/-- The ready queue with the current task at its tail, if this one was running and is not
the idle thread. -/
def Kernel.requeued (k : Kernel) (c : CoreId) (policy : SchedPolicy) : List Ptr :=
  match k.running c with
  | none => k.slot (.ready c policy)
  | some p =>
    match k.tasks p with
    | none => k.slot (.ready c policy)
    | some t =>
      if t.status = .kRunning ∧ k.idle c ≠ some p ∧ t.policy = policy then
        k.slot (.ready c policy) ++ [p]
      else k.slot (.ready c policy)

/-- The default time slice and the run time of every task are as they were. -/
def Kernel.SameAccounts (k k' : Kernel) : Prop :=
  ∀ q t, k.tasks q = some t → ∃ t', k'.tasks q = some t' ∧
    t'.schedInfo.timeSliceDefault = t.schedInfo.timeSliceDefault ∧
    t'.schedInfo.totalRuntime = t.schedInfo.totalRuntime

namespace Kernel.SameAccounts

theorem refl (k : Kernel) : k.SameAccounts k := fun _ t ht => ⟨t, ht, rfl, rfl⟩

theorem trans (h : k.SameAccounts k') (h' : k'.SameAccounts k'') : k.SameAccounts k'' := by
  intro q t ht
  obtain ⟨t', ht', hd, hr⟩ := h q t ht
  obtain ⟨t'', ht'', hd', hr'⟩ := h' q t' ht'
  exact ⟨t'', ht'', hd'.trans hd, hr'.trans hr⟩

theorem setTask {t' : TaskControlBlock} (ht : k.tasks p = some t)
    (hd : t'.schedInfo.timeSliceDefault = t.schedInfo.timeSliceDefault)
    (hr : t'.schedInfo.totalRuntime = t.schedInfo.totalRuntime) :
    k.SameAccounts (k.setTask p t') := by
  intro q u hu
  by_cases hqp : q = p
  · subst hqp
    obtain rfl := Option.mem_unique ht hu
    exact ⟨t', k.tasks_setTask_self q t', hd, hr⟩
  · exact ⟨u, by rw [k.tasks_setTask_ne p t' hqp, hu], rfl, rfl⟩

end Kernel.SameAccounts

theorem Kernel.slot_setScheduler (k : Kernel) (policy policy' : SchedPolicy) (s : Scheduler) :
    (k.setSched c ((k.cpuSchedulers c).setScheduler policy s)).slot (.ready c policy') =
      if policy' = policy then s.queue else k.slot (.ready c policy') := by
  have hcore : (Slot.ready c policy').core = c := rfl
  rw [Kernel.slot_setSched k _ hcore]
  split
  · rename_i he
    subst he
    exact CpuSchedData.content_ready (schedulers_setScheduler_self _ _ _) c
  · rename_i hne
    simp only [Slot.content, schedulers_setScheduler_ne _ _ hne]
    rfl

theorem wp_touchTask_order (ht : k.tasks p = some t)
    {g : Option (TaskControlBlock → TaskControlBlock)}
    (hg : g = none ∨ g = some TaskControlBlock.resetSlice) :
    wp (touchTask p g) (fun _ k' => k'.cpuSchedulers = k.cpuSchedulers ∧ k.SameAccounts k') E k :=
  wp_touchTask ht hg ⟨rfl, .refl k⟩ ⟨rfl, .setTask ht rfl rfl⟩

theorem wp_enqueueTask_schedulers (ht : k.tasks p = some t) (policy : SchedPolicy) :
    wp (enqueueTask c policy p) (fun _ k' =>
      (∀ policy', (k'.cpuSchedulers c).schedulers policy' =
        ((k.cpuSchedulers c).schedulers policy').map
          fun s => if policy' = policy then s.enqueue p else s) ∧
      (∀ c', c' ≠ c → k'.cpuSchedulers c' = k.cpuSchedulers c') ∧
      ∃ t', k'.tasks p = some t' ∧ t'.status = t.status) E k := by
  have hsame : ∀ policy', policy' ≠ policy → (k.cpuSchedulers c).schedulers policy' =
      ((k.cpuSchedulers c).schedulers policy').map
        fun s => if policy' = policy then s.enqueue p else s := by
    intro policy' hne
    simp only [if_neg hne, Option.map_id']
  simp only [enqueueTask, wp_bind, wp_get]
  cases hs : (k.cpuSchedulers c).schedulers policy with
  | none =>
    rw [wp_pure]
    refine ⟨?_, fun _ _ => rfl, t, ht, rfl⟩
    intro policy'
    by_cases he : policy' = policy
    · rw [he, hs]
      rfl
    · exact hsame policy' he
  | some s =>
    have htouch : wp (touchTask p s.onEnqueue) (fun _ k₁ => k₁.cpuSchedulers = k.cpuSchedulers ∧
        ∃ t', k₁.tasks p = some t' ∧ t'.status = t.status) E k :=
      wp_touchTask ht s.onEnqueue_cases ⟨rfl, t, ht, rfl⟩
        ⟨rfl, _, k.tasks_setTask_self p _, rfl⟩
    rw [wp_bind]
    refine htouch.imp ?_
    rintro _ k₁ ⟨hsched, hstatus⟩
    rw [wp_modifySched]
    refine ⟨?_, ?_, hstatus⟩
    · intro policy'
      rw [Kernel.cpuSchedulers_setSched_self, hsched]
      by_cases he : policy' = policy
      · rw [he, schedulers_setScheduler_self, hs]
        simp
      · rw [schedulers_setScheduler_ne _ _ he]
        exact hsame policy' he
    · intro c' hc
      rw [Kernel.cpuSchedulers_setSched_ne _ _ _ hc, hsched]

/-- `Enqueue` appends the task to the queue, and an idle scheduler holds it from then on. -/
theorem wp_enqueueTask_order {s : Scheduler} (ht : k.tasks p = some t)
    (hs : (k.cpuSchedulers c).schedulers policy = some s)
    (hkind : s.isIdle = true ↔ policy = .kIdle) :
    wp (enqueueTask c policy p)
      (fun _ k' => (∀ policy', k'.slot (.ready c policy') =
          if policy' = policy ∧ policy ≠ .kIdle then k.slot (.ready c policy') ++ [p]
            else k.slot (.ready c policy')) ∧
        (k'.held c = if policy = .kIdle then some p else k.held c) ∧ k.SameAccounts k') E k := by
  simp only [enqueueTask, wp_bind, wp_get, hs]
  refine (wp_touchTask_order ht s.onEnqueue_cases).imp ?_
  rintro _ k₁ ⟨hsched, hacc⟩
  rw [wp_modifySched]
  have hsame : ∀ policy', k₁.slot (.ready c policy') = k.slot (.ready c policy') := by
    intro policy'
    rw [Kernel.slot, hsched]
    rfl
  by_cases hpol : policy = .kIdle
  · subst hpol
    have hidle := hkind.mpr rfl
    refine ⟨?_, ?_, hacc⟩
    · intro policy'
      have hno : ¬(policy' = SchedPolicy.kIdle ∧ SchedPolicy.kIdle ≠ SchedPolicy.kIdle) :=
        fun he => he.2 rfl
      rw [Kernel.slot_setScheduler, if_neg hno, hsame]
      by_cases he : policy' = .kIdle
      · subst he
        rw [if_pos rfl, Kernel.slot_ready hs, Scheduler.queue_of_isIdle hidle,
          Scheduler.queue_of_isIdle ((s.isIdle_enqueue p).trans hidle)]
      · rw [if_neg he]
    · rw [Kernel.held_setScheduler_idle, Scheduler.held_enqueue hidle, if_pos rfl]
  · have hidle : s.isIdle = false := by
      rw [Bool.eq_false_iff]
      exact fun hi => hpol (hkind.mp hi)
    refine ⟨?_, ?_, hacc⟩
    · intro policy'
      rw [Kernel.slot_setScheduler, hsame]
      by_cases he : policy' = policy
      · subst he
        rw [if_pos rfl, if_pos ⟨rfl, hpol⟩, Scheduler.queue_enqueue hidle, Kernel.slot_ready hs]
      · rw [if_neg he, if_neg (fun hc => he hc.1)]
    · rw [Kernel.held_setScheduler_ne _ _ hpol, if_neg hpol, Kernel.held, hsched]
      rfl

theorem wp_requeueCurrent_order (hkinds : (k.cpuSchedulers c).Kinds)
    (hscheds : ∀ policy, ((k.cpuSchedulers c).schedulers policy).isSome = true)
    (ht : k.tasks p = some t) :
    wp (requeueCurrent c p)
      (fun _ k' => (∀ policy, k'.slot (.ready c policy) =
          if t.status = .kRunning ∧ t.policy ≠ .kIdle ∧ t.policy = policy then
            k.slot (.ready c policy) ++ [p] else k.slot (.ready c policy)) ∧
        k.SameAccounts k') E k := by
  simp only [requeueCurrent, wp_bind, wp_readTask ht, wp_ite]
  by_cases hrun : t.status = .kRunning
  · rw [if_pos hrun, wp_updateTask ht]
    simp only [wp_get, Kernel.cpuSchedulers_setTask]
    obtain ⟨s, hs⟩ := Option.isSome_iff_exists.mp (hscheds t.policy)
    have hkind := hkinds t.policy s hs
    simp only [hs, wp_bind, wp_modifySched]
    set k₁ := k.setTask p (t.setStatus .kReady) with hk₁
    have hacc₁ : k.SameAccounts k₁ := .setTask ht rfl rfl
    have hslot₁ : ∀ policy, (k₁.setSched c ((k₁.cpuSchedulers c).setScheduler t.policy
        s.onPreempted)).slot (.ready c policy) = k.slot (.ready c policy) := by
      intro policy
      rw [Kernel.slot_setScheduler]
      split
      · rename_i he
        subst he
        rw [s.queue_onPreempted, Kernel.slot_ready hs]
      · rfl
    have ht₁ : (k₁.setSched c ((k₁.cpuSchedulers c).setScheduler t.policy s.onPreempted)).tasks p =
        some (t.setStatus .kReady) := k.tasks_setTask_self p _
    refine (wp_touchTask_order ht₁ s.onExpired_cases).imp ?_
    rintro _ k₂ ⟨hsched₂, hacc₂⟩
    have hslot₂ : ∀ policy, k₂.slot (.ready c policy) = k.slot (.ready c policy) := by
      intro policy
      rw [← hslot₁ policy, Kernel.slot, Kernel.slot, hsched₂]
    rw [wp_ite]
    split
    · rename_i hexp
      have hidle : s.isIdle = false := by
        rw [s.onTimeSliceExpired_eq] at hexp
        simpa using hexp
      have hne : t.policy ≠ .kIdle := by
        intro he
        rw [hkind.mpr he] at hidle
        cases hidle
      have hs₂ : (k₂.cpuSchedulers c).schedulers t.policy = some s.onPreempted := by
        rw [hsched₂, Kernel.cpuSchedulers_setSched_self, schedulers_setScheduler_self]
      obtain ⟨t₂, ht₂, -⟩ := hacc₂ p _ ht₁
      have hkind₂ : s.onPreempted.isIdle = true ↔ t.policy = .kIdle := by
        rw [s.isIdle_onPreempted]
        exact hkind
      refine (wp_enqueueTask_order ht₂ hs₂ hkind₂).imp ?_
      rintro _ k₃ ⟨hslot₃, -, hacc₃⟩
      refine ⟨?_, (hacc₁.trans hacc₂).trans hacc₃⟩
      intro policy
      rw [hslot₃, hslot₂]
      simp only [hrun, hne, ne_eq, not_false_eq_true, true_and, and_true, eq_comm]
    · rename_i hexp
      have hpol : t.policy = .kIdle := by
        rw [← hkind]
        simpa [s.onTimeSliceExpired_eq] using hexp
      rw [wp_pure]
      refine ⟨?_, hacc₁.trans hacc₂⟩
      intro policy
      rw [hslot₂, if_neg]
      rintro ⟨-, hne, -⟩
      exact hne hpol
  · rw [if_neg hrun, wp_pure]
    refine ⟨?_, .refl k⟩
    intro policy
    rw [if_neg]
    rintro ⟨hr, -⟩
    exact hrun hr

theorem Placed.ready_of_head (h : Placed k loc) {q : List Ptr}
    (hq : k.slot (.ready c policy) = p :: q) : ∃ t, k.tasks p = some t ∧ t.status = .kReady := by
  have hmem : p ∈ k.slot (.ready c policy) := by
    rw [hq]
    exact List.mem_cons_self
  obtain ⟨t, ht, hready, -⟩ := h.tasks_of_mem hmem
  exact ⟨t, ht, hready⟩

theorem wp_searchQueue_head (h : Sound k loc) {q : List Ptr} (fuel : ℕ)
    (hq : k.slot (.ready c policy) = p :: q) {Q : Option Ptr → Kernel → Prop}
    (hQ : ∀ k', (∀ policy', k'.slot (.ready c policy') =
        if policy' = policy then q else k.slot (.ready c policy')) → k'.tasks = k.tasks →
      k'.running = k.running → Q (some p) k') :
    wp (searchQueue c policy (fuel + 1)) Q E k := by
  obtain ⟨t, ht, hready⟩ := h.ready_of_head hq
  cases hs : (k.cpuSchedulers c).schedulers policy with
  | none => simp [Kernel.slot, Slot.content, Slot.core, hs] at hq
  | some s =>
    rw [Kernel.slot_ready hs] at hq
    have hne : s.isEmpty = false := Scheduler.isEmpty_eq_false_iff.mpr (Or.inl (by simp [hq]))
    obtain ⟨p', q', -, hq', hpick, hrest⟩ | ⟨p', hi, -⟩ := Scheduler.pickNext_cases hne
    · rw [hq'] at hq
      cases hq
      rw [wp_searchQueue_pick hs hne hpick ht, if_pos hready]
      apply hQ
      · intro policy'
        rw [Kernel.slot_setScheduler, hrest]
      · rfl
      · rfl
    · rw [Scheduler.queue_of_isIdle hi] at hq
      cases hq

theorem wp_searchQueue_empty (h : Sound k loc) (fuel : ℕ)
    (hq : k.slot (.ready c policy) = []) (hpol : policy ≠ .kIdle)
    {Q : Option Ptr → Kernel → Prop} (hQ : Q none k) :
    wp (searchQueue c policy (fuel + 1)) Q E k := by
  simp only [searchQueue, wp_bind, wp_get]
  cases hs : (k.cpuSchedulers c).schedulers policy with
  | none => exact (wp_pure _).mpr hQ
  | some s =>
    have hidle : s.isIdle = false := by
      rw [Bool.eq_false_iff]
      exact fun hi => hpol ((h.kinds c policy s hs).mp hi)
    have hempty : s.isEmpty = true := by
      rw [Kernel.slot_ready hs] at hq
      by_contra hne
      rw [Bool.not_eq_true, Scheduler.isEmpty_eq_false_iff] at hne
      rcases hne with hne | hne
      · exact hne hq
      · exact hne (Scheduler.held_of_not_isIdle hidle)
    simp only [hempty, if_true, wp_pure]
    exact hQ

theorem wp_searchQueue_idle (h : Sound k loc) (fuel : ℕ) (hheld : k.held c = some i)
    (hi : k.tasks i = some t) (hready : t.status = .kReady) {Q : Option Ptr → Kernel → Prop}
    (hQ : ∀ k', (∀ policy, policy ≠ .kIdle → k'.slot (.ready c policy) = k.slot (.ready c policy)) →
      k'.tasks = k.tasks → k'.running = k.running → Q (some i) k') :
    wp (searchQueue c .kIdle (fuel + 1)) Q E k := by
  cases hs : (k.cpuSchedulers c).schedulers .kIdle with
  | none => simp [Kernel.held, hs] at hheld
  | some s =>
    have hidle : s.isIdle = true := (h.kinds c _ s hs).mpr rfl
    rw [Kernel.held_eq hs] at hheld
    have hne : s.isEmpty = false := Scheduler.isEmpty_eq_false_iff.mpr (Or.inr (by simp [hheld]))
    obtain ⟨_, _, hi', -⟩ | ⟨p', -, hheld', hpick, -⟩ := Scheduler.pickNext_cases hne
    · rw [hidle] at hi'
      cases hi'
    · obtain rfl := Option.mem_unique hheld hheld'
      rw [wp_searchQueue_pick hs hne hpick hi, if_pos hready]
      apply hQ
      · intro policy hpol
        rw [Kernel.slot_setScheduler, if_neg hpol]
      · rfl
      · rfl

theorem wp_searchPolicies_cons {rest : List SchedPolicy}
    {Q : Option Ptr → Kernel → Prop}
    (h : ∀ fuel, wp (searchQueue c policy (fuel + 1))
      (fun r k' => (∀ next, r = some next → Q (some next) k') ∧
        (r = none → wp (searchPolicies c rest) Q E k')) E k) :
    wp (searchPolicies c (policy :: rest)) Q E k := by
  simp only [searchPolicies, wp_bind, wp_get]
  cases (k.cpuSchedulers c).schedulers policy
  all_goals
    refine (h _).imp ?_
    rintro (_ | next) k' ⟨hsome, hnone⟩
    · exact hnone rfl
    · exact (wp_pure _).mpr (hsome next rfl)

/-- What the search of `Schedule` takes from the queues `R` and `N`. -/
structure Kernel.Took (k : Kernel) (c : CoreId) (i : Ptr) (R N : List Ptr) (next : Ptr)
    (k' : Kernel) : Prop where
  head : next = (R ++ N).headD i
  realTime : k'.slot (.ready c .kRealTime) = R.tail
  normal : k'.slot (.ready c .kNormal) = if R = [] then N.tail else N
  tasks : k'.tasks = k.tasks
  running : k'.running = k.running
  ready : ∃ t, k.tasks next = some t ∧ t.status = .kReady

/-- The search takes the head of the first queue that is not empty, and the task of the
idle scheduler when there is none. -/
theorem wp_searchPolicies_order (h : Sound k loc) (hheld : k.held c = some i)
    (hi : k.tasks i = some t) (hready : t.status = .kReady) :
    wp (searchPolicies c [.kRealTime, .kNormal, .kIdle])
      (fun r k' => ∃ next, r = some next ∧ k.Took c i (k.slot (.ready c .kRealTime))
        (k.slot (.ready c .kNormal)) next k') E k := by
  apply wp_searchPolicies_cons
  intro fuel
  cases hR : k.slot (.ready c .kRealTime) with
  | cons p q =>
    apply wp_searchQueue_head h fuel hR
    intro k' hslot htasks hrun
    refine ⟨?_, nofun⟩
    rintro _ ⟨⟩
    exact ⟨p, rfl, rfl, by simp [hslot], by simp [hslot], htasks, hrun,
      h.ready_of_head hR⟩
  | nil =>
    apply wp_searchQueue_empty h fuel hR nofun
    refine ⟨nofun, fun _ => ?_⟩
    apply wp_searchPolicies_cons
    intro fuel
    cases hN : k.slot (.ready c .kNormal) with
    | cons p q =>
      apply wp_searchQueue_head h fuel hN
      intro k' hslot htasks hrun
      refine ⟨?_, nofun⟩
      rintro _ ⟨⟩
      exact ⟨p, rfl, rfl, by simp [hslot, hR], by simp [hslot], htasks, hrun,
        h.ready_of_head hN⟩
    | nil =>
      apply wp_searchQueue_empty h fuel hN nofun
      refine ⟨nofun, fun _ => ?_⟩
      apply wp_searchPolicies_cons
      intro fuel
      apply wp_searchQueue_idle h fuel hheld hi hready
      intro k' hslot htasks hrun
      refine ⟨?_, nofun⟩
      rintro _ ⟨⟩
      exact ⟨i, rfl, rfl, by simp [hslot, hR], by simp [hslot, hN], htasks, hrun, t, hi,
        hready⟩

theorem wp_dispatch_order {current next : Ptr} {u : TaskControlBlock}
    (ht : k.tasks current = some t) (hu : k.tasks next = some u) (hready : u.status = .kReady)
    {Q : Bool → Kernel → Prop}
    (hQ : ∀ k' b, (∀ policy, k'.slot (.ready c policy) = k.slot (.ready c policy)) →
      k.SameAccounts k' → k'.running c = some next →
      (∃ u', k'.tasks next = some u' ∧ u'.status = .kRunning ∧
        u'.schedInfo.timeSliceRemaining = u'.schedInfo.timeSliceDefault) →
      (next = current → b = false) → Q b k') :
    wp (dispatch c current next) Q E k := by
  have hleave : next = current → (t.status != .kReady) = false := by
    rintro rfl
    obtain rfl := Option.mem_unique ht hu
    simp [hready]
  have hassert : (!(t.status != .kReady) || current != next) = true := by
    by_cases he : next = current
    · rw [hleave he]
      rfl
    · simp [Ne.symm he]
  simp only [dispatch, wp_bind, wp_readTask ht, wp_readTask hu, wp_assertMsg, hready, hassert,
    beq_self_eq_true, if_true, wp_updateTask hu, wp_modifySched, wp_modify, wp_pure]
  apply hQ
  · intro policy
    rw [Kernel.slot, Kernel.slot, Kernel.cpuSchedulers_setCpu]
    simp only [Slot.core, Kernel.cpuSchedulers_setSched_self, Slot.content]
    rfl
  · exact Kernel.SameAccounts.setTask hu rfl rfl
  · simp [Kernel.running, Kernel.setCpu]
  · exact ⟨_, k.tasks_setTask_self next _, rfl, rfl⟩
  · exact hleave

/-- `Schedule` on the queues `R` and `N`, which have the current task at their tail. -/
structure Kernel.Turned (k : Kernel) (c : CoreId) (i : Ptr) (R N : List Ptr) (k' : Kernel) :
    Prop where
  running : k'.running c = some ((R ++ N).headD i)
  realTime : k'.slot (.ready c .kRealTime) = R.tail
  normal : k'.slot (.ready c .kNormal) = if R = [] then N.tail else N
  accounts : k.SameAccounts k'
  slice : ∃ u, k'.tasks ((R ++ N).headD i) = some u ∧ u.status = .kRunning ∧
    u.schedInfo.timeSliceRemaining = u.schedInfo.timeSliceDefault

theorem Solo.requeued_eq (h : Stable ∅ k loc) (hs : Solo c i added k loc)
    (hrun : k.running c = some p) (ht : k.tasks p = some t) (policy : SchedPolicy) :
    k.requeued c policy = if t.status = .kRunning ∧ t.policy ≠ .kIdle ∧ t.policy = policy then
      k.slot (.ready c policy) ++ [p] else k.slot (.ready c policy) := by
  have hpol : k.idle c ≠ some p ↔ t.policy ≠ .kIdle := by
    constructor
    · intro hne
      refine (hs.known p t ht ?_).2
      rintro rfl
      exact hne hs.idle
    · intro hne hidle
      obtain ⟨-, u, hu, hpol, -⟩ := h.thread c p hidle
      exact hne (Option.mem_unique ht hu ▸ hpol)
  simp only [Kernel.requeued, hrun, ht, hpol]

theorem Solo.idle_ready {current : Ptr} {loc₁ : Ptr → Option Slot} (hs : Solo c i added k loc)
    (hrun : k.running c = some current) (ht : k.tasks current = some t)
    (hr : Requeued c current t k loc k' loc₁) :
    ∃ u, k'.tasks i = some u ∧ u.status = .kReady := by
  obtain ⟨u, hu, hst⟩ := hs.idle_status
  obtain ⟨t₁, ht₁, hst₁⟩ := hr.status
  by_cases hi : i = current
  · subst hi
    obtain rfl := Option.mem_unique ht hu
    refine ⟨t₁, ht₁, ?_⟩
    rw [hst₁]
    rcases hst with hst | ⟨hst, -⟩ <;> simp [hst]
  · refine ⟨u, by rw [hr.only.tasks i hi, hu], ?_⟩
    refine hst.resolve_right ?_
    rintro ⟨-, hrun'⟩
    exact hi (Option.mem_unique hrun' hrun)

theorem Solo.wp_scheduleBody_order {current : Ptr} (h : Stable ∅ k loc)
    (hs : Solo c i added k loc) (hrun : k.running c = some current)
    (ht : k.tasks current = some t) {Q : Option (Ptr × Ptr × Bool) → Kernel → Prop}
    (hQ : ∀ next b k', k.Turned c i (k.requeued c .kRealTime) (k.requeued c .kNormal) k' →
      k'.running c = some next → (next = current → b = false) → Q (some (current, next, b)) k') :
    wp (scheduleBody c) Q E k := by
  have hrequeue := wp_and (wp_requeueCurrent h.toSound ht (E := E))
    (wp_requeueCurrent_order (h.kinds c) hs.scheds ht (E := E))
  simp only [scheduleBody, wp_bind, wp_currentTask, hrun]
  refine wp_mono hrequeue ?_ (fun _ _ he => he.1)
  rintro _ k₁ ⟨⟨loc₁, hr⟩, hslot₁, hacc₁⟩
  have hqueue : ∀ policy, k₁.slot (.ready c policy) = k.requeued c policy := by
    intro policy
    rw [hslot₁, hs.requeued_eq h hrun ht]
  obtain ⟨u, hu, hready⟩ := hs.idle_ready hrun ht hr
  have hheld : k₁.held c = some i := by rw [hr.held, hs.held]
  have hsearch := wp_searchPolicies_order hr.sound hheld hu hready (E := E)
  rw [hqueue, hqueue] at hsearch
  simp only [chooseNext, wp_bind]
  refine hsearch.imp ?_
  rintro _ k₂ ⟨next, rfl, htook⟩
  obtain ⟨v, hv, hvr⟩ := htook.ready
  obtain ⟨t₁, ht₁, -⟩ := hr.status
  rw [← htook.tasks] at hv ht₁
  -- the next task is ready, so that `Schedule` does not look for another one
  have hstay : ¬(current = next ∧ t₁.status ≠ .kReady) := by
    rintro ⟨rfl, hne⟩
    obtain rfl := Option.mem_unique hv ht₁
    exact hne hvr
  simp only [wp_pure, leaveCurrent, wp_bind, wp_readTask ht₁, wp_ite, if_neg hstay]
  apply wp_dispatch_order ht₁ hv hvr
  intro k₃ b hslot₃ hacc₃ hrun₃ hslice₃ hb
  have hacc₂ : k₁.SameAccounts k₂ := by
    intro q w hw
    exact ⟨w, by rw [htook.tasks, hw], rfl, rfl⟩
  refine hQ next b k₃ ⟨?_, ?_, ?_, ?_, ?_⟩ hrun₃ hb
  · rw [hrun₃, htook.head]
  · rw [hslot₃, htook.realTime]
  · rw [hslot₃, htook.normal]
  · exact (hacc₁.trans hacc₂).trans hacc₃
  · rw [← htook.head]
    exact hslice₃

theorem Solo.wp_schedule_order (h : Stable ∅ k loc) (hs : Solo c i added k loc) :
    wp (schedule c) (fun _ k' =>
      k.Turned c i (k.requeued c .kRealTime) (k.requeued c .kNormal) k') E k := by
  obtain ⟨current, hrun⟩ := hs.current
  obtain ⟨t, ht, -⟩ := h.runs c current hrun
  simp only [schedule, lock_kernelM, unlock_kernelM, run_kernelM, wp_bind, wp_pure]
  apply hs.wp_scheduleBody_order h hrun ht
  intro next b k' hturned hrun' hb
  simp only [wp_bind, wp_pure]
  obtain ⟨u, hu, -⟩ := hturned.slice
  obtain rfl := Option.mem_unique hrun' hturned.running
  obtain ⟨t', ht', -⟩ := hturned.accounts current t ht
  simp only [switchTask, wp_bind, wp_get, wp_ite, wp_readTask ht', wp_readTask hu, wp_modify,
    wp_assertMsg, wp_pure]
  split
  · split
    · exact hturned
    · rename_i he
      rw [not_not] at he
      rw [hb he.symm]
      exact hturned
  · have hu' : ({ k' with bootDone := true } : Kernel).tasks
        ((k.requeued c .kRealTime ++ k.requeued c .kNormal).headD i) = some u := hu
    rw [wp_readTask hu']
    exact ⟨hturned.running, hturned.realTime, hturned.normal, hturned.accounts, hturned.slice⟩

theorem Solo.wp_schedule_turned (h : Stable ∅ k loc) (hs : Solo c i added k loc)
    (hrun : k.running c = some p) (ht : k.tasks p = some t) :
    wp (schedule c : KernelM Unit) (fun _ k' => (∃ loc' next, Stable ∅ k' loc' ∧ Solo c i added k' loc' ∧
        Scheduled c p t next k loc k' loc') ∧
      k.Turned c i (k.requeued c .kRealTime) (k.requeued c .kNormal) k') (fun _ _ => False) k := by
  have hclosed := Solo.closed c i added
  have hsched : wp (schedule c : KernelM Unit) (fun _ k' => ∃ loc' next, Stable ∅ k' loc' ∧
      Solo c i added k' loc' ∧ Scheduled c p t next k loc k' loc') (fun _ _ => False) k := by
    refine wp_schedule h.toSound hrun ht (fun _ => h.loc_running (Set.notMem_empty c) hrun) ?_ ?_ ?_
    · intro next k' loc' hsch
      exact ⟨loc', next, (h.busy c).scheduled hrun hsch, hclosed.scheduled (h.busy c) hs hrun ht hsch,
        hsch⟩
    · intro hnone k' ho
      exact hclosed.parked hs hnone ho
    · intro q u hheld hne hu hnr k' ho
      exact hclosed.diverges hs hrun ht hheld hne hu hnr ho
  exact wp_mono (wp_and hsched (hs.wp_schedule_order h (E := fun _ _ => False))) (fun _ _ hq => hq)
    (fun _ _ he => he.1)

/-- On such a core a task runs when it is the current one, and else not. -/
theorem Solo.current_of_running (h : Stable ∅ k loc) (hs : Solo c i added k loc)
    (ht : k.tasks p = some t) (hst : t.status = .kRunning) : k.running c = some p := by
  by_cases hpi : p = i
  · subst hpi
    obtain ⟨u, hu, hr⟩ := hs.idle_status
    obtain rfl := Option.mem_unique ht hu
    rcases hr with hr | ⟨-, hrun⟩
    · cases hst.symm.trans hr
    · exact hrun
  · rcases hs.placed p t ht hpi with ⟨s, hl⟩ | ⟨hrun, -⟩
    · rw [h.loc_of_running ht hst] at hl
      cases hl
    · exact hrun

/-- In every reachable state `Schedule` returns. It runs the head of the real-time queue,
else the head of the normal queue, else the idle thread, where the current task has joined
the tail of its own queue; it takes this task out of its queue and changes the queues in no
other way. Afterwards exactly this task is running. -/
theorem schedule_in_order (h : Reaches P c i added k) :
    ∃ k' next, (schedule c : KernelM Unit) k = .ok () k' ∧ k'.running c = some next ∧
      next = (k.requeued c .kRealTime ++ k.requeued c .kNormal).headD i ∧
      k'.slot (.ready c .kRealTime) = (k.requeued c .kRealTime).tail ∧
      k'.slot (.ready c .kNormal) = (if k.requeued c .kRealTime = []
        then (k.requeued c .kNormal).tail else k.requeued c .kNormal) ∧
      (∀ p, k.running c = some p → p ≠ next →
        ∃ t, k'.tasks p = some t ∧ t.status ≠ .kRunning) ∧
      ∀ p, (∃ t, k'.tasks p = some t ∧ t.status = .kRunning) ↔ p = next := by
  obtain ⟨loc, hst, hs⟩ := h.solo
  obtain ⟨current, hrun⟩ := hs.current
  obtain ⟨t, ht, -⟩ := hst.runs c current hrun
  obtain ⟨_, k', hk', ⟨loc', -, hst', hs', -⟩, hturned⟩ := (hs.wp_schedule_turned hst hrun ht).returns
  obtain ⟨u, hu, hur, -⟩ := hturned.slice
  have hone : ∀ p, (∃ t, k'.tasks p = some t ∧ t.status = .kRunning) ↔
      p = (k.requeued c .kRealTime ++ k.requeued c .kNormal).headD i := by
    intro p
    constructor
    · rintro ⟨t, ht, hr⟩
      have hp := hs'.current_of_running hst' ht hr
      exact Option.mem_unique hp hturned.running
    · rintro rfl
      exact ⟨u, hu, hur⟩
  refine ⟨k', _, hk', hturned.running, rfl, hturned.realTime, hturned.normal, ?_, hone⟩
  intro p hp hne
  obtain ⟨t, ht, -⟩ := hst.runs c p hp
  obtain ⟨t', ht', -⟩ := hturned.accounts p t ht
  exact ⟨t', ht', fun hr => hne ((hone p).mp ⟨t', ht', hr⟩)⟩

theorem schedule_in_order_example :
    ∃ k k', Reaches (presetPlatform true) 0 0 [2, 1] k ∧ (schedule 0 : KernelM Unit) k = .ok () k' ∧
      k'.running 0 = some 2 ∧ k'.slot (.ready 0 .kNormal) = [1] := by
  have h₀ := Reaches.init (P := presetPlatform true) (c := 0) (i := 0) rfl
  have h₁ := h₀.step (.addTask 1 {}) ⟨rfl, rfl, rfl, rfl, Or.inr rfl⟩ rfl
  have h₂ := h₁.step .schedule trivial rfl
  have h₃ := h₂.step (.addTask 2 { policy := .kRealTime }) ⟨rfl, rfl, rfl, rfl, Or.inl rfl⟩ rfl
  obtain ⟨k', next, hk', hrun, hnext, -, hnormal, -⟩ := schedule_in_order h₃
  refine ⟨_, k', h₃, hk', ?_, ?_⟩
  · rw [hrun, hnext]
    rfl
  · rw [hnormal]
    rfl

end NaiLongKernel.Task
