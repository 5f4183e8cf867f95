import NaiLongKernel.Task.Publication
import NaiLongKernel.Task.QueueOrder
import NaiLongKernel.Task.Resources

/-!
# Whom `Wakeup` reaches

The tasks blocked on a resource wait in one list for each core, to whose tail `Block`
appends. `Wakeup` walks the list of the calling core only: it moves these tasks in order to
the ready queues of their policies, and tasks that blocked on another core stay blocked.
-/
namespace NaiLongKernel.Task

open Foundation

variable {P : Platform} {k k' : Kernel} {loc : Ptr → Option Slot} {p : Ptr}
  {t : TaskControlBlock} {c : CoreId} {r : ResourceId} {waiting : List Ptr}

/-- The task `p` has the policy. -/
def Kernel.hasPolicy (k : Kernel) (policy : SchedPolicy) (p : Ptr) : Bool :=
  (k.tasks p).any (·.policy == policy)

theorem Kernel.hasPolicy_of_tasks (ht : k.tasks p = some t) (policy : SchedPolicy) :
    k.hasPolicy policy p = (t.policy == policy) := by
  rw [Kernel.hasPolicy, ht]
  rfl

theorem Only.hasPolicy {X : Set Ptr} (h : Only c X k k') : k'.hasPolicy = k.hasPolicy := by
  funext policy p
  cases ht : k.tasks p with
  | none => rw [Kernel.hasPolicy, Kernel.hasPolicy, h.free p ht, ht]
  | some t =>
    obtain ⟨t', ht', hs⟩ := h.same p t ht
    rw [k.hasPolicy_of_tasks ht, k'.hasPolicy_of_tasks ht', hs.policy]

/-- The tasks of a list have gone in order to the ready queues of core `c`; the idle
scheduler holds the last one of its policy. -/
structure Kernel.Woke (k : Kernel) (c : CoreId) (r : ResourceId) (waiting : List Ptr)
    (k' : Kernel) : Prop where
  queues : ∀ policy, policy ≠ .kIdle → k'.slot (.ready c policy) =
    k.slot (.ready c policy) ++ waiting.filter (k.hasPolicy policy)
  held : k'.held c = (waiting.filter (k.hasPolicy .kIdle)).getLast?.or (k.held c)
  others : ∀ r', r' ≠ r → (k'.cpuSchedulers c).blockedTasks r' = (k.cpuSchedulers c).blockedTasks r'

namespace Kernel.Woke

theorem refl (k : Kernel) (c : CoreId) (r : ResourceId) : k.Woke c r [] k :=
  ⟨fun _ _ => (List.append_nil _).symm, rfl, fun _ _ => rfl⟩

theorem cons {k₁ : Kernel} (ht : k.tasks p = some t)
    (hpol : k₁.hasPolicy = k.hasPolicy)
    (hq : ∀ policy, k₁.slot (.ready c policy) =
      if policy = t.policy ∧ t.policy ≠ .kIdle then k.slot (.ready c policy) ++ [p]
      else k.slot (.ready c policy))
    (hh : k₁.held c = if t.policy = .kIdle then some p else k.held c)
    (hb : ∀ r', r' ≠ r → (k₁.cpuSchedulers c).blockedTasks r' = (k.cpuSchedulers c).blockedTasks r')
    (h : k₁.Woke c r waiting k') : k.Woke c r (p :: waiting) k' := by
  have hself := k.hasPolicy_of_tasks ht
  refine ⟨?_, ?_, fun r' hr => (h.others r' hr).trans (hb r' hr)⟩
  · intro policy hne
    rw [h.queues policy hne, hq, hpol, List.filter_cons, hself]
    by_cases he : policy = t.policy
    · subst he
      simp [hne]
    · simp [he, Ne.symm he]
  · rw [h.held, hh, hpol, List.filter_cons, hself]
    by_cases he : t.policy = .kIdle
    · simp only [he, if_true, beq_self_eq_true, List.getLast?_cons]
      cases (waiting.filter (k.hasPolicy .kIdle)).getLast? <;> rfl
    · simp [he]

theorem setBlocked (h : k.Woke c r waiting k') (l : Option (List Ptr)) :
    k.Woke c r waiting (k'.setSched c ((k'.cpuSchedulers c).setBlocked r l)) := by
  refine ⟨?_, ?_, ?_⟩
  · intro policy hne
    have hcore : (Slot.ready c policy).core = c := rfl
    rw [Kernel.slot_setSched k' _ hcore, ← h.queues policy hne]
    rfl
  · rw [Kernel.held, Kernel.cpuSchedulers_setSched_self, ← h.held]
    rfl
  · intro r' hr
    rw [Kernel.cpuSchedulers_setSched_self, blockedTasks_setBlocked_ne _ _ hr, h.others r' hr]

end Kernel.Woke

theorem wp_wakeAll_order (h : Sound k loc)
    (hb : (k.cpuSchedulers c).blockedTasks r = some waiting)
    (hall : ∀ policy, ((k.cpuSchedulers c).schedulers policy).isSome = true)
    {E : Fault → Kernel → Prop} :
    wp (wakeAll c r waiting) (fun _ k' => k.Woke c r waiting k') E k := by
  induction waiting generalizing k loc with
  | nil =>
    rw [wakeAll, wp_pure]
    exact Kernel.Woke.refl k c r
  | cons task rest ih =>
    have hmem : task ∈ k.slot (.blocked c r) := by
      change task ∈ ((k.cpuSchedulers c).blockedTasks r).getD []
      rw [hb]
      exact List.mem_cons_self
    have hloc : loc task = some (.blocked c r) := (h.located.mem_iff _ task).mp hmem
    obtain ⟨t, ht, hag⟩ := h.tasks_of_mem hmem
    have ht₁ : ∀ d, (k.setSched c d).tasks task = some t := fun _ => ht
    obtain ⟨s, hs⟩ := Option.isSome_iff_exists.mp (hall t.policy)
    set d : CpuSchedData := (k.cpuSchedulers c).setBlocked r (some rest) with hd
    set t' : TaskControlBlock := { t with status := .kReady, blockedOn := ⟨0⟩ } with ht'
    have hsame : SameTask t t' := ⟨rfl, (isDead_of_ready rfl).trans hag.not_dead.symm⟩
    have hds : d.schedulers t.policy = some s := hs
    simp only [wakeAll, wp_bind, wp_modifySched, wp_readTask (ht₁ _), wp_assertMsg, hag.1, hag.2,
      beq_self_eq_true, if_true, wp_updateTask (ht₁ _), wp_get, Kernel.cpuSchedulers_setTask,
      Kernel.cpuSchedulers_setSched_self, ← hd, hds, Option.isSome_some, ← ht']
    have hs₁ : (((k.setSched c d).setTask task t').cpuSchedulers c).schedulers t.policy = some s := by
      rw [Kernel.cpuSchedulers_setTask, Kernel.cpuSchedulers_setSched_self, hds]
    refine wp_mono (wp_and
      (wp_awaken (s := .blocked c r) (E := E) h hloc ht (h.toPlaced.unblock hb) rfl hsame rfl)
      (wp_enqueueTask_order (E := E) (Kernel.tasks_setTask_self _ task t') hs₁
        (h.kinds c _ s hs))) ?_ (fun _ _ he => he.1)
    rintro _ k₁ ⟨⟨loc₁, ha, hw⟩, hq, hh, -⟩
    have hblocked : (k₁.cpuSchedulers c).blockedTasks = d.blockedTasks := hw.2.1
    have hb₁ : (k₁.cpuSchedulers c).blockedTasks r = some rest := by
      rw [hblocked, hd, blockedTasks_setBlocked_self]
    have hall₁ : ∀ policy, ((k₁.cpuSchedulers c).schedulers policy).isSome = true :=
      fun policy => (ha.scheds policy).trans (hall policy)
    refine (ih ha.sound hb₁ hall₁).imp ?_
    intro _ k' hwoke
    refine hwoke.cons ht ha.only.hasPolicy ?_ ?_ ?_
    · intro policy
      have hcore : (Slot.ready c policy).core = c := rfl
      rw [hq policy]
      change (if _ then (k.setSched c d).slot (.ready c policy) ++ [task]
        else (k.setSched c d).slot (.ready c policy)) = _
      rw [Kernel.slot_setSched k d hcore]
      rfl
    · rw [hh]
      change (if _ then some task else (k.setSched c d).held c) = _
      rw [Kernel.held, Kernel.cpuSchedulers_setSched_self]
      rfl
    · intro r' hr
      rw [hblocked, hd, blockedTasks_setBlocked_ne _ _ hr]

theorem wp_wakeupBody_order (h : Sound k loc)
    (hall : ∀ policy, ((k.cpuSchedulers c).schedulers policy).isSome = true)
    {E : Fault → Kernel → Prop} :
    wp (wakeupBody c r) (fun _ k' => k.Woke c r (k.slot (.blocked c r)) k') E k := by
  simp only [wakeupBody, wp_bind, wp_get]
  have hslot : k.slot (.blocked c r) = ((k.cpuSchedulers c).blockedTasks r).getD [] := rfl
  rw [hslot]
  cases hb : (k.cpuSchedulers c).blockedTasks r with
  | none =>
    rw [wp_pure]
    exact Kernel.Woke.refl k c r
  | some waiting =>
    rw [wp_bind]
    refine (wp_wakeAll_order h hb hall).imp ?_
    intro _ k₁ hw
    rw [wp_modifySched]
    exact hw.setBlocked none

theorem wp_block_order {loc : Ptr → Option Slot} (h : Stable ∅ k loc) (hrun : k.running c = some p)
    (hidle : k.idle c ≠ some p) :
    wp (block c r : KernelM Unit)
      (fun _ k' => k'.slot (.blocked c r) = k.slot (.blocked c r) ++ [p]) (fun _ _ => True) k := by
  obtain ⟨t, ht, hst⟩ := h.running_of_ne_idle hrun hidle
  have happend : wp (blockBody c p r)
      (fun _ k' => k'.slot (.blocked c r) = k.slot (.blocked c r) ++ [p]) (fun _ _ => True) k := by
    have hcore : (Slot.blocked c r).core = c := rfl
    simp only [blockBody, wp_bind, wp_updateTask ht, wp_modifySched]
    rw [Kernel.slot_setSched _ _ hcore]
    simp only [Slot.content, blockedTasks_setBlocked_self]
    rfl
  simp only [block, lockGuard_kernelM, run_kernelM, klog_kernelM, wp_bind, wp_pure]
  refine Closed.wp_runningTask h hrun hidle ?_
  refine wp_mono (wp_and (wp_blockBody (E := fun _ _ => True) h.toSound ht hst (h.ne_idle hrun hidle) r)
    happend) ?_ (fun _ _ _ => trivial)
  rintro _ k₁ ⟨⟨loc₁, hs⟩, hslot⟩
  obtain ⟨u, hu, hag⟩ := hs.sound.agrees p _ hs.loc_self
  refine wp_schedule hs.sound (by rw [hs.running, hrun]) hu ?_ ?_ (fun _ _ _ => trivial)
    (fun _ _ _ _ _ _ _ _ => trivial)
  · intro hready
    cases hready.symm.trans hag.1
  · intro next k' loc' hsched
    change ((k'.cpuSchedulers c).blockedTasks r).getD [] = _
    rw [hsched.waiting.2.1]
    exact hslot

theorem getLast?_of_forall_eq {l : List Ptr} (hp : p ∈ l) (hall : ∀ q ∈ l, q = p) :
    l.getLast? = some p := by
  have hne : l ≠ [] := List.ne_nil_of_mem hp
  rw [List.getLast?_eq_some_getLast hne, hall _ (List.getLast_mem hne)]

/-- All tasks that were blocked on `r` are ready on core `c`, in the order of the list there,
and nothing else has changed. -/
structure Kernel.WakesAll (k : Kernel) (c : CoreId) (r : ResourceId) (k' : Kernel) : Prop where
  none_left : ∀ p, ¬k'.BlockedOn r p
  ready : ∀ p, k.BlockedOn r p → ∃ t, k'.tasks p = some t ∧ t.status = .kReady ∧
    (t.policy ≠ .kIdle → ∀ s, (k'.slot s).count p = if s = .ready c t.policy then 1 else 0) ∧
    (t.policy = .kIdle → k'.held c = some p ∧ ∀ s, p ∉ k'.slot s)
  order : ∀ policy, policy ≠ .kIdle → k'.slot (.ready c policy) =
    k.slot (.ready c policy) ++ (k.slot (.blocked c r)).filter (k.hasPolicy policy)
  others : ∀ p, ¬k.BlockedOn r p → k'.tasks p = k.tasks p
  lists : ∀ c' r', r' ≠ r → k'.slot (.blocked c' r') = k.slot (.blocked c' r')

/-- The waiters are all on this core, and at most one has the policy of the idle scheduler, which
has room for one. -/
structure Kernel.WaitersHere (k : Kernel) (c : CoreId) (r : ResourceId) : Prop where
  initialised : k.running c ≠ none
  here : ∀ p, k.BlockedOn r p → p ∈ k.slot (.blocked c r)
  one : ∀ p q, k.BlockedOn r p → k.BlockedOn r q → k.hasPolicy .kIdle p = true →
    k.hasPolicy .kIdle q = true → p = q

theorem wakesAll_of_waitersHere (h : SysRun P (fun k op => op.Careful k) k) (hw : k.WaitersHere c r) :
    ∃ k', (wakeup c r : KernelM Unit) k = .ok () k' ∧ k.WakesAll c r k' := by
  obtain ⟨hrun, hhere, hone⟩ := hw
  obtain ⟨loc, hst, -⟩ := h.invariant
  have hall := h.equipped.scheduler hrun
  have hwp : wp (wakeup c r : KernelM Unit) (fun _ k' => (∃ loc', Awakened (.blocked c r) k loc k' loc' ∧
      ∀ p, loc' p ≠ some (.blocked c r)) ∧ k.Woke c r (k.slot (.blocked c r)) k')
      (fun _ _ => False) k := by
    simp only [wakeup, lockGuard_kernelM, run_kernelM, klog_kernelM, wp_bind, wp_pure]
    refine wp_mono (wp_and (E := fun _ _ => False) (wp_wakeupBody r hst.toSound ?_)
      (wp_wakeupBody_order (E := fun _ _ => False) hst.toSound hall)) (fun _ _ hq => hq)
      (fun _ _ he => he.1)
    intro policy hnone
    have hsome := hall policy
    rw [hnone] at hsome
    cases hsome
  obtain ⟨_, k', hk', ⟨loc', ha, hgone⟩, hwoke⟩ := hwp.returns
  have hloc : ∀ p, k.BlockedOn r p → loc p = some (.blocked c r) :=
    fun p hp => (hst.located.mem_iff _ p).mp (hhere p hp)
  have hblocked : ∀ p, loc p = some (.blocked c r) → k.BlockedOn r p :=
    fun p hp => hst.toPlaced.blockedOn_of_loc hp
  have hothers : ∀ p, ¬k.BlockedOn r p → k'.tasks p = k.tasks p :=
    fun p hp => ha.only.tasks p (fun hl => hp (hblocked p hl))
  refine ⟨k', hk', ?_, ?_, hwoke.queues, hothers, ?_⟩
  · rintro p ⟨t, ht, hst', hr⟩
    by_cases hp : k.BlockedOn r p
    · obtain ⟨u, hu, hready⟩ := ha.woken p (hloc p hp) (hgone p)
      obtain rfl := Option.mem_unique ht hu
      cases hst'.symm.trans hready
    · exact hp ⟨t, (hothers p hp).symm.trans ht, hst', hr⟩
  · intro p hp
    obtain ⟨u, hu, hready⟩ := ha.woken p (hloc p hp) (hgone p)
    have hhome : loc' p = k.home c u.policy := by
      rcases ha.moved p with he | ⟨-, t, ht, he⟩
      · exact absurd (he.trans (hloc p hp)) (hgone p)
      · obtain ⟨u', hu', hsame⟩ := ha.only.same p t ht
        obtain rfl := Option.mem_unique hu hu'
        rw [hsame.policy]
        exact he
    refine ⟨u, hu, hready, ?_, ?_⟩
    · intro hpol s
      rw [Kernel.home, if_pos ⟨hpol, hall _⟩] at hhome
      rw [ha.sound.located.count_eq, hhome]
      simp only [Option.some.injEq, eq_comm]
    · intro hpol
      rw [Kernel.home, if_neg (fun hc => hc.1 hpol)] at hhome
      refine ⟨?_, ha.sound.located.not_mem hhome⟩
      have hidle : k.hasPolicy .kIdle p = true := by
        rw [← ha.only.hasPolicy, k'.hasPolicy_of_tasks hu, hpol]
        rfl
      rw [hwoke.held, getLast?_of_forall_eq (List.mem_filter.mpr ⟨hhere p hp, hidle⟩)]
      · rfl
      · intro q hq
        obtain ⟨hmem, hq⟩ := List.mem_filter.mp hq
        exact hone q p (hblocked q ((hst.located.mem_iff _ q).mp hmem)) hp hq hidle
  · intro c' r' hr
    by_cases hc : c' = c
    · subst hc
      change ((k'.cpuSchedulers c').blockedTasks r').getD [] = _
      rw [hwoke.others r' hr]
      rfl
    · change ((k'.cpuSchedulers c').blockedTasks r').getD [] = _
      rw [ha.only.scheds c' hc]
      rfl

/-- Without a waiter there is nothing to wake, on any core. -/
theorem wakesAll_of_none (h : Stable ∅ k loc) (hnone : ∀ p, ¬ k.BlockedOn r p) :
    ∃ k', (wakeup c r : KernelM Unit) k = .ok () k' ∧ k.WakesAll c r k' := by
  have hslot : k.slot (.blocked c r) = [] := by
    rw [List.eq_nil_iff_forall_not_mem]
    exact fun p hp => hnone p (h.toPlaced.blockedOn_of_loc ((h.located.mem_iff _ p).mp hp))
  have hwp : wp (wakeup c r : KernelM Unit)
      (fun _ k' => k'.tasks = k.tasks ∧ k.Woke c r [] k' ∧ ∀ c', c' ≠ c → k'.cpuSchedulers c' = k.cpuSchedulers c')
      (fun _ _ => False) k := by
    simp only [wakeup, lockGuard_kernelM, run_kernelM, klog_kernelM, wp_bind, wp_pure, wakeupBody, wp_get]
    have hlist : ((k.cpuSchedulers c).blockedTasks r).getD [] = [] := hslot
    cases hb : (k.cpuSchedulers c).blockedTasks r with
    | none => exact (wp_pure _).mpr ⟨rfl, Kernel.Woke.refl k c r, fun _ _ => rfl⟩
    | some waiting =>
      rw [hb, Option.getD_some] at hlist
      subst hlist
      simp only [wakeAll, wp_bind, wp_pure, wp_modifySched]
      exact ⟨rfl, (Kernel.Woke.refl k c r).setBlocked none, fun _ hc => k.cpuSchedulers_setSched_ne c _ hc⟩
  obtain ⟨_, k', hk', htasks, hwoke, hcores⟩ := hwp.returns
  have hblocked : ∀ p, ¬ k'.BlockedOn r p := by
    rintro p ⟨t, ht, hst⟩
    exact hnone p ⟨t, htasks ▸ ht, hst⟩
  refine ⟨k', hk', hblocked, fun p hp => absurd hp (hnone p), ?_, fun p _ => by rw [htasks], ?_⟩
  · intro policy hpol
    rw [hwoke.queues policy hpol, hslot, List.filter_nil]
  · intro c' r' hr
    change ((k'.cpuSchedulers c').blockedTasks r').getD [] = ((k.cpuSchedulers c').blockedTasks r').getD []
    by_cases hc : c' = c
    · rw [hc, hwoke.others r' hr]
    · rw [hcores c' hc]

theorem waitersHere_of_wakesAll (h : SysRun P (fun k op => op.Careful k) k) (hp : k.BlockedOn r p)
    (hk' : (wakeup c r : KernelM Unit) k = .ok () k') (hw : k.WakesAll c r k') : k.WaitersHere c r := by
  obtain ⟨loc, hst, -⟩ := h.invariant
  have hwp : wp (wakeup c r : KernelM Unit) (fun _ k' => ∃ loc', Awakened (.blocked c r) k loc k' loc')
      (fun _ _ => True) k := by
    simp only [wakeup, lockGuard_kernelM, run_kernelM, klog_kernelM, wp_bind, wp_pure]
    refine (wp_wakeupBody r hst.toSound (fun _ _ _ _ => trivial)).imp ?_
    rintro _ k' ⟨loc', ha, -⟩
    exact ⟨loc', ha⟩
  obtain ⟨loc', ha⟩ := hwp.of_ok hk'
  refine ⟨?_, ?_, ?_⟩
  · -- the queue that the waiter is in is one of a scheduler of the core
    rw [← Option.isSome_iff_ne_none]
    obtain ⟨t, -, -, hqueue, hheld⟩ := hw.ready p hp
    have hsame : ((k'.cpuSchedulers c).schedulers t.policy).isSome =
        ((k.cpuSchedulers c).schedulers t.policy).isSome := ha.scheds t.policy
    rw [← h.equipped c t.policy, ← hsame]
    cases hs : (k'.cpuSchedulers c).schedulers t.policy with
    | some s => rfl
    | none =>
      by_cases hpol : t.policy = .kIdle
      · rw [hpol] at hs
        have hself := (hheld hpol).1
        rw [Kernel.held, hs] at hself
        cases hself
      · have hcount := hqueue hpol (.ready c t.policy)
        have hempty : k'.slot (.ready c t.policy) = [] := by
          change Slot.content (k'.cpuSchedulers c) (.ready c t.policy) = []
          rw [Slot.content, hs]
        rw [hempty, if_pos rfl] at hcount
        cases hcount
  · intro q hq
    by_contra hout
    obtain ⟨t, ht, hblocked⟩ := hq
    refine hw.none_left q ⟨t, ?_, hblocked⟩
    rw [← ht]
    exact ha.only.tasks q fun hl => hout (hst.toPlaced.mem_of_loc hl)
  · intro q q' hq hq' hidle hidle'
    have hheld : ∀ {q}, k.BlockedOn r q → k.hasPolicy .kIdle q = true → k'.held c = some q := by
      intro q hq hidle
      obtain ⟨t, ht, -, -, hheld⟩ := hw.ready q hq
      rw [← ha.only.hasPolicy, k'.hasPolicy_of_tasks ht, beq_iff_eq] at hidle
      exact (hheld hidle).1
    exact Option.some.inj ((hheld hq hidle).symm.trans (hheld hq' hidle'))

/-- In a reachable state `Wakeup` on core `c` wakes all tasks that wait for `r`, in the order in
which they blocked, exactly when there is none or they all blocked on this core, which is
initialised, and at most one of them has the policy of the idle scheduler. The order is that of the
list of the core, to whose tail `Block` appends. -/
theorem wakeup_reaches_waiters (h : SysRun P (fun k op => op.Careful k) k) :
    ((∃ k', (wakeup c r : KernelM Unit) k = .ok () k' ∧ k.WakesAll c r k') ↔
      (∀ p, ¬ k.BlockedOn r p) ∨ k.WaitersHere c r) ∧
    ∀ p k', k.running c = some p → k.idle c ≠ some p → (block c r : KernelM Unit) k = .ok () k' →
      k'.slot (.blocked c r) = k.slot (.blocked c r) ++ [p] := by
  obtain ⟨loc, hst, -⟩ := h.invariant
  refine ⟨⟨?_, ?_⟩, ?_⟩
  · rintro ⟨k', hk', hw⟩
    by_cases hnone : ∀ p, ¬ k.BlockedOn r p
    · exact Or.inl hnone
    · push Not at hnone
      obtain ⟨p, hp⟩ := hnone
      exact Or.inr (waitersHere_of_wakesAll h hp hk' hw)
  · rintro (hnone | hhere)
    · exact wakesAll_of_none hst hnone
    · exact wakesAll_of_waitersHere h hhere
  · intro p k' hrun hidle hk'
    exact (wp_block_order hst hrun hidle).of_ok hk'

/-- Tasks 2 and 1 block on the resource, in this order. -/
theorem wakeup_reaches_waiters_example :
    ∃ k k', SysRun (presetPlatform true) (fun k op => op.Careful k) k ∧
      k.slot (.blocked 0 ⟨5⟩) = [2, 1] ∧ (wakeup 0 ⟨5⟩ : KernelM Unit) k = .ok () k' ∧
      k.WakesAll 0 ⟨5⟩ k' := by
  have h₀ := SysRun.start (P := presetPlatform true) (A := fun k op => op.Careful k)
  have h₁ := h₀.step (.initCurrentCore 0 0) ⟨⟨rfl, rfl, fun _ => rfl⟩, rfl⟩ trivial rfl
  have h₂ := h₁.step (.addTask 0 1 {}) ⟨rfl, rfl, rfl, rfl⟩ trivial rfl
  have h₃ := h₂.step (.addTask 0 2 { policy := .kRealTime }) ⟨rfl, rfl, rfl, rfl⟩ trivial rfl
  have h₄ := h₃.step (.schedule 0) ⟨0, rfl⟩ trivial rfl
  have h₅ := h₄.step (.block 0 ⟨5⟩) ⟨2, rfl, by decide⟩ trivial rfl
  have h₆ := h₅.step (.block 0 ⟨5⟩) ⟨1, rfl, by decide⟩ trivial rfl
  obtain ⟨k', hk', hw⟩ := (wakeup_reaches_waiters (r := ⟨5⟩) h₆ (c := 0)).1.mpr (Or.inr {
    initialised := nofun
    here := by
      rintro p ⟨t, ht, hst, -⟩
      match p with
      | 0 => cases ht; cases hst
      | 1 => decide
      | 2 => decide
      | n + 3 => cases ht
    one := by
      rintro p q ⟨t, ht, hst, -⟩ - hp -
      match p with
      | 0 => cases ht; cases hst
      | 1 => cases hp
      | 2 => cases hp
      | n + 3 => cases hp })
  exact ⟨_, k', h₆, rfl, hk', hw⟩

/-- A task that blocked on core 1 stays blocked when core 0 calls `Wakeup`. -/
theorem wakeup_misses_other_core :
    ∃ k k', SysRun (presetPlatform true) (fun k op => op.Careful k) k ∧ k.BlockedOn ⟨5⟩ 11 ∧
      (wakeup 0 ⟨5⟩ : KernelM Unit) k = .ok () k' ∧ k'.BlockedOn ⟨5⟩ 11 := by
  have h₀ := SysRun.start (P := presetPlatform true) (A := fun k op => op.Careful k)
  have h₁ := h₀.step (.initCurrentCore 0 0) ⟨⟨rfl, rfl, fun _ => rfl⟩, rfl⟩ trivial rfl
  have h₂ := h₁.step (.initCurrentCore 1 10) ⟨⟨rfl, rfl, fun _ => rfl⟩, rfl⟩ trivial rfl
  have h₃ := h₂.step (.addTask 1 11 {}) ⟨rfl, rfl, rfl, rfl⟩ trivial rfl
  have h₄ := h₃.step (.schedule 1) ⟨10, rfl⟩ trivial rfl
  have h₅ := h₄.step (.block 1 ⟨5⟩) ⟨11, rfl, by decide⟩ trivial rfl
  exact ⟨_, _, h₅, ⟨_, rfl, rfl, rfl⟩, rfl, ⟨_, rfl, rfl, rfl⟩⟩

end NaiLongKernel.Task
