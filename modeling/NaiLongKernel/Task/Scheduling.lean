import NaiLongKernel.Task.Placement

/-!
# What the scheduling programs do

Each program that runs under the lock of a core is described by what it does to the
queues of that core and to the few tasks it touches; `Only` is the frame of such a
description. `Sound` adds to the placement of tasks what the idle schedulers hold.
-/
namespace NaiLongKernel.Task

open Foundation

/-- The same task, perhaps with another status, schedule or awaited resource, and
neither ended nor revived. -/
structure SameTask (t t' : TaskControlBlock) : Prop where
  fields : t' =
    { t with status := t'.status, schedInfo := t'.schedInfo, blockedOn := t'.blockedOn }
  dead : isDead t' = isDead t

namespace SameTask

variable {t t' t'' : TaskControlBlock}

theorem refl (t : TaskControlBlock) : SameTask t t := ⟨rfl, rfl⟩

theorem trans (h : SameTask t t') (h' : SameTask t' t'') : SameTask t t'' :=
  ⟨by rw [h'.fields, h.fields], h'.dead.trans h.dead⟩

theorem policy (h : SameTask t t') : t'.policy = t.policy := by rw [h.fields]

theorem pid (h : SameTask t t') : t'.pid = t.pid := by rw [h.fields]

end SameTask

/-- Between `k` and `k'` only the data of core `c` and the tasks of `X` may change, and
these stay the same tasks. -/
structure Only (c : CoreId) (X : Set Ptr) (k k' : Kernel) : Prop where
  tasks : ∀ p ∉ X, k'.tasks p = k.tasks p
  same : ∀ p t, k.tasks p = some t → ∃ t', k'.tasks p = some t' ∧ SameTask t t'
  free : ∀ p, k.tasks p = none → k'.tasks p = none
  scheds : ∀ c' ≠ c, k'.cpuSchedulers c' = k.cpuSchedulers c'
  idle : k'.idle = k.idle
  running : ∀ c' ≠ c, k'.running c' = k.running c'
  taskTable : k'.taskTable = k.taskTable
  pidAllocator : k'.pidAllocator = k.pidAllocator
  vm : k'.vm = k.vm
  deletions : k'.deletions = k.deletions

variable {k k' k'' : Kernel} {loc : Ptr → Option Slot} {p : Ptr} {t t' : TaskControlBlock}
  {c : CoreId} {X Y : Set Ptr} {E : Fault → Kernel → Prop}

namespace Only

theorem refl (c : CoreId) (X : Set Ptr) (k : Kernel) : Only c X k k where
  tasks _ _ := rfl
  same _ t ht := ⟨t, ht, SameTask.refl t⟩
  free _ h := h
  scheds _ _ := rfl
  idle := rfl
  running _ _ := rfl
  taskTable := rfl
  pidAllocator := rfl
  vm := rfl
  deletions := rfl

theorem trans (h : Only c X k k') (h' : Only c X k' k'') : Only c X k k'' where
  tasks p hp := (h'.tasks p hp).trans (h.tasks p hp)
  same p t ht := by
    rcases h.same p t ht with ⟨t', ht', hs⟩
    rcases h'.same p t' ht' with ⟨t'', ht'', hs'⟩
    exact ⟨t'', ht'', hs.trans hs'⟩
  free p hp := h'.free p (h.free p hp)
  scheds c' hc := (h'.scheds c' hc).trans (h.scheds c' hc)
  idle := h'.idle.trans h.idle
  running c' hc := (h'.running c' hc).trans (h.running c' hc)
  taskTable := h'.taskTable.trans h.taskTable
  pidAllocator := h'.pidAllocator.trans h.pidAllocator
  vm := h'.vm.trans h.vm
  deletions := h'.deletions.trans h.deletions

theorem back (h : Only c X k k') (ht : k'.tasks p = some t') :
    ∃ t, k.tasks p = some t ∧ SameTask t t' := by
  cases hk : k.tasks p with
  | none =>
    rw [h.free p hk] at ht
    cases ht
  | some t =>
    rcases h.same p t hk with ⟨u, hu, hs⟩
    exact ⟨t, rfl, Option.mem_unique hu ht ▸ hs⟩

theorem mono (h : Only c X k k') (hXY : X ⊆ Y) : Only c Y k k' :=
  { h with tasks := fun p hp => h.tasks p (fun hx => hp (hXY hx)) }

theorem setTask (ht : k.tasks p = some t) (hp : p ∈ X) (hs : SameTask t t') :
    Only c X k (k.setTask p t') :=
  { refl c X k with
    tasks := fun q hq => k.tasks_setTask_ne p t' (fun he => hq (he ▸ hp))
    same := fun q u hu => by
      by_cases hqp : q = p
      · subst hqp
        rw [k.tasks_setTask_self]
        exact ⟨t', rfl, Option.mem_unique ht hu ▸ hs⟩
      · rw [k.tasks_setTask_ne p t' hqp]
        exact ⟨u, hu, SameTask.refl u⟩
    free := fun q hq => by
      have hqp : q ≠ p := by
        rintro rfl
        rw [ht] at hq
        cases hq
      rw [k.tasks_setTask_ne p t' hqp]
      exact hq }

theorem setSched (d : CpuSchedData) : Only c X k (k.setSched c d) :=
  { refl c X k with
    scheds := fun _ hc => k.cpuSchedulers_setSched_ne c d hc }

theorem setRunning (next : Ptr) :
    Only c X k (k.setCpu c { k.perCpu c with runningTask := some next }) :=
  { refl c X k with
    idle := by
      funext c'
      by_cases hc : c' = c
      · subst hc
        simp [Kernel.idle, Kernel.setCpu]
      · simp [Kernel.idle, Kernel.setCpu, hc]
    running := fun c' hc => by simp [Kernel.running, Kernel.setCpu, hc] }

end Only

/-- Tasks are placed, and idle threads and the tasks in idle schedulers are live tasks
of the idle policy; an idle thread is in no queue and in no other core's hands. -/
structure Sound (k : Kernel) (loc : Ptr → Option Slot) : Prop extends Placed k loc where
  thread : ∀ c p, k.idle c = some p →
    loc p = none ∧ ∃ t, k.tasks p = some t ∧ t.policy = .kIdle ∧ isDead t = false
  inHand : ∀ c p, k.held c = some p →
    (∃ t, k.tasks p = some t ∧ t.policy = .kIdle ∧ isDead t = false) ∧
      ∀ c', k.idle c' = some p → c' = c

theorem Sound.transfer {loc' : Ptr → Option Slot} (h : Sound k loc) (ho : Only c X k k')
    (hp : Placed k' loc') (hloc : ∀ c p, k.idle c = some p → loc' p = none)
    (hheld : ∀ p, k'.held c = some p → k.held c = some p ∨
      (∃ t, k'.tasks p = some t ∧ t.policy = .kIdle ∧ isDead t = false) ∧
        ∀ c', k.idle c' = some p → c' = c) : Sound k' loc' := by
  have keep : ∀ p, (∃ t, k.tasks p = some t ∧ t.policy = .kIdle ∧ isDead t = false) →
      ∃ t, k'.tasks p = some t ∧ t.policy = .kIdle ∧ isDead t = false := by
    rintro p ⟨t, ht, hpol, hdead⟩
    rcases ho.same p t ht with ⟨t', ht', hs⟩
    exact ⟨t', ht', hs.policy.trans hpol, hs.dead.trans hdead⟩
  refine { hp with thread := ?_, inHand := ?_ }
  · intro c' p hi
    rw [ho.idle] at hi
    exact ⟨hloc c' p hi, keep p (h.thread c' p hi).2⟩
  · intro c' p hh
    rw [ho.idle]
    by_cases hc : c' = c
    · subst hc
      rcases hheld p hh with hold | hnew
      · exact ⟨keep p (h.inHand c' p hold).1, (h.inHand c' p hold).2⟩
      · exact hnew
    · rw [Kernel.held, ho.scheds c' hc] at hh
      exact ⟨keep p (h.inHand c' p hh).1, (h.inHand c' p hh).2⟩

theorem Sound.setTask (h : Sound k loc) (ht : k.tasks p = some t) (hs : SameTask t t')
    (hag : ∀ s, loc p = some s → s.Agrees t')
    (hw : loc p = none ∨ t'.schedInfo.wakeTick = t.schedInfo.wakeTick) :
    Sound (k.setTask p t') loc := by
  have hw' : loc p = none ∨ t'.schedInfo.wakeTick = k.wakeTick p := by
    rw [Kernel.wakeTick, ht]
    exact hw
  exact h.transfer (Only.setTask (c := 0) ht (Set.mem_singleton p) hs)
    (h.toPlaced.setTask hag hw') (fun c q hq => (h.thread c q hq).1) (fun q hq => Or.inl hq)

theorem Sound.setTask_free (h : Sound k loc) (ht : k.tasks p = some t) (hs : SameTask t t')
    (hl : loc p = none) : Sound (k.setTask p t') loc := by
  refine h.setTask ht hs ?_ (Or.inl hl)
  intro s hs
  rw [hl] at hs
  cases hs

theorem Sound.setScheduler (h : Sound k loc) {policy : SchedPolicy} {s s' : Scheduler}
    (hs : (k.cpuSchedulers c).schedulers policy = some s) (hq : s'.queue = s.queue)
    (hi : s'.isIdle = s.isIdle) (hheld : s'.held = s.held) :
    Sound (k.setSched c ((k.cpuSchedulers c).setScheduler policy s')) loc ∧
      (k.setSched c ((k.cpuSchedulers c).setScheduler policy s')).held c = k.held c := by
  have hsame : (k.setSched c ((k.cpuSchedulers c).setScheduler policy s')).held c = k.held c := by
    by_cases hp : policy = .kIdle
    · subst hp
      rw [Kernel.held_setScheduler_idle, hheld, Kernel.held, hs]
      rfl
    · exact k.held_setScheduler_ne s' hp
  refine ⟨?_, hsame⟩
  exact h.transfer (Only.setSched (X := ∅) _) (h.toPlaced.setScheduler hs hq hi)
    (fun c q hq => (h.thread c q hq).1) (fun q hq => Or.inl (hsame ▸ hq))

theorem Sound.setCounters (h : Sound k loc) {d : CpuSchedData}
    (hs : d.schedulers = (k.cpuSchedulers c).schedulers)
    (hsl : d.sleepingTasks = (k.cpuSchedulers c).sleepingTasks)
    (hb : d.blockedTasks = (k.cpuSchedulers c).blockedTasks) : Sound (k.setSched c d) loc := by
  have hheld : (k.setSched c d).held c = k.held c := by
    rw [Kernel.held, Kernel.cpuSchedulers_setSched_self, hs]
    rfl
  refine h.transfer (Only.setSched (X := ∅) _) (h.toPlaced.setSched ?_ ?_)
    (fun c q hq => (h.thread c q hq).1) (fun q hq => Or.inl (hheld ▸ hq))
  · intro u _
    cases u <;> simp [Slot.content, hs, hsl, hb]
  · intro policy s hp
    rw [hs] at hp
    exact h.kinds c policy s hp

theorem Sound.setRunning (h : Sound k loc) (next : Ptr) :
    Sound (k.setCpu c { k.perCpu c with runningTask := some next }) loc :=
  h.transfer (Only.setRunning (X := ∅) next) ⟨h.located, h.agrees, h.heap, h.kinds⟩
    (fun c q hq => (h.thread c q hq).1) (fun _ hq => Or.inl hq)

/-- The queues of a core other than the ready queues. -/
def CpuSchedData.SameWaiting (d d' : CpuSchedData) : Prop :=
  d'.sleepingTasks = d.sleepingTasks ∧ d'.blockedTasks = d.blockedTasks ∧
    d'.localTick = d.localTick ∧ ∀ policy, (d'.schedulers policy).isSome = (d.schedulers policy).isSome

theorem CpuSchedData.sameWaiting_setScheduler {d : CpuSchedData} {policy : SchedPolicy}
    {s : Scheduler} (hs : d.schedulers policy = some s) (s' : Scheduler) :
    d.SameWaiting (d.setScheduler policy s') := by
  refine ⟨rfl, rfl, rfl, ?_⟩
  intro policy'
  by_cases hp : policy' = policy
  · rw [hp, schedulers_setScheduler_self, hs]
    rfl
  · rw [schedulers_setScheduler_ne d s' hp]

/-- Where a ready task of the policy is queued on core `c`. -/
def Kernel.home (k : Kernel) (c : CoreId) (policy : SchedPolicy) : Option Slot :=
  if policy ≠ .kIdle ∧ ((k.cpuSchedulers c).schedulers policy).isSome = true
    then some (.ready c policy) else none

theorem Kernel.ready_of_home {s : Slot} (h : k.home c policy = some s) : s = .ready c policy := by
  rw [Kernel.home] at h
  split at h <;> cases h
  rfl

/-- After `Enqueue` the task is in the queue of its policy, or in the idle scheduler, or
nowhere when the core has no such scheduler. -/
structure Enqueued (c : CoreId) (p : Ptr) (policy : SchedPolicy) (k : Kernel)
    (loc : Ptr → Option Slot) (k' : Kernel) (loc' : Ptr → Option Slot) : Prop where
  sound : Sound k' loc'
  only : Only c {p} k k'
  ready : ∃ t, k'.tasks p = some t ∧ t.status = .kReady
  running : k'.running = k.running
  waiting : (k.cpuSchedulers c).SameWaiting (k'.cpuSchedulers c)
  loc_ne : ∀ q, q ≠ p → loc' q = loc q
  loc_self : loc' p = k.home c policy
  held : policy ≠ .kIdle → k'.held c = k.held c
  taken : policy = .kIdle → ((k.cpuSchedulers c).schedulers policy).isSome = true →
    k'.held c = some p

theorem Enqueued.held_back {policy : SchedPolicy} {loc' : Ptr → Option Slot} {q : Ptr}
    (h : Enqueued c p policy k loc k' loc') (hq : k'.held c = some q) :
    k.held c = some q ∨ q = p ∧ policy = .kIdle := by
  by_cases hpol : policy = .kIdle
  · obtain ⟨s, hs, -⟩ := Option.bind_eq_some_iff.mp hq
    have hsome : ((k.cpuSchedulers c).schedulers policy).isSome = true := by
      rw [← h.waiting.2.2.2, hpol, hs]
      rfl
    rw [h.taken hpol hsome] at hq
    exact Or.inr ⟨(Option.some.inj hq).symm, hpol⟩
  · rw [h.held hpol] at hq
    exact Or.inl hq

theorem SameTask.resetSlice (t : TaskControlBlock) : SameTask t t.resetSlice := ⟨rfl, rfl⟩

theorem Kernel.wakeTick_eq (ht : k.tasks p = some t) : k.wakeTick p = t.schedInfo.wakeTick := by
  rw [Kernel.wakeTick, ht]

/-- A hook of a scheduler touches no more than the time slice. -/
theorem wp_touchTask (ht : k.tasks p = some t) {g : Option (TaskControlBlock → TaskControlBlock)}
    (hg : g = none ∨ g = some TaskControlBlock.resetSlice) {Q : Unit → Kernel → Prop}
    (hsame : Q () k) (hreset : Q () (k.setTask p t.resetSlice)) :
    wp (touchTask p g) Q E k := by
  rcases hg with rfl | rfl
  · rw [touchTask, wp_pure]
    exact hsame
  · rw [touchTask, wp_updateTask ht]
    exact hreset

theorem wp_enqueueTask (h : Sound k loc) (ht : k.tasks p = some t) (hready : t.status = .kReady)
    (hl : loc p = none) (hhome : ∀ c', k.idle c' = some p → c' = c) :
    wp (enqueueTask c t.policy p) (fun _ k' => ∃ loc', Enqueued c p t.policy k loc k' loc') E k := by
  simp only [enqueueTask, wp_bind, wp_get]
  cases hs : (k.cpuSchedulers c).schedulers t.policy with
  | none =>
    rw [wp_pure]
    refine ⟨loc, h, Only.refl _ _ _, ⟨t, ht, hready⟩, rfl, ⟨rfl, rfl, rfl, fun _ => rfl⟩,
      fun _ _ => rfl, ?_, fun _ => rfl, ?_⟩
    · simp [hl, hs, Kernel.home]
    · simp [hs]
  | some s =>
    simp only [wp_bind]
    -- the task may get a new time slice before it is queued
    have queued : ∀ {k₁ t₁}, Placed k₁ loc → Only c {p} k k₁ → k₁.cpuSchedulers = k.cpuSchedulers →
        k₁.running = k.running → k₁.tasks p = some t₁ → t₁.status = .kReady →
        t₁.policy = t.policy →
        wp (modifySched c (·.setScheduler t.policy (s.enqueue p)))
          (fun _ k' => ∃ loc', Enqueued c p t.policy k loc k' loc') E k₁ := by
      intro k₁ t₁ hp₁ ho hsched hrun ht₁ hr₁ hpol₁
      have hs₁ : (k₁.cpuSchedulers c).schedulers t.policy = some s := by rw [hsched, hs]
      have ho' : Only c {p} k (k₁.setSched c ((k₁.cpuSchedulers c).setScheduler t.policy
          (s.enqueue p))) := ho.trans (Only.setSched _)
      have hkind := h.kinds c t.policy s hs
      have hwait : (k.cpuSchedulers c).SameWaiting ((k₁.setSched c
          ((k₁.cpuSchedulers c).setScheduler t.policy (s.enqueue p))).cpuSchedulers c) := by
        rw [Kernel.cpuSchedulers_setSched_self, hsched]
        exact CpuSchedData.sameWaiting_setScheduler hs _
      rw [wp_modifySched]
      by_cases hi : s.isIdle = true
      · have hpol : t.policy = .kIdle := hkind.mp hi
        have hqueue : (s.enqueue p).queue = s.queue := by
          rw [Scheduler.queue_of_isIdle hi,
            Scheduler.queue_of_isIdle ((s.isIdle_enqueue p).trans hi)]
        have hplaced := hp₁.setScheduler hs₁ hqueue (s.isIdle_enqueue p)
        refine ⟨loc, ?_, ho', ⟨t₁, ht₁, hr₁⟩, hrun, hwait, fun _ _ => rfl, ?_,
          fun hne => absurd hpol hne, ?_⟩
        · refine h.transfer ho' hplaced (fun c' q hq => (h.thread c' q hq).1) ?_
          intro q hq
          rw [hpol, Kernel.held_setScheduler_idle, Scheduler.held_enqueue hi] at hq
          cases hq
          exact Or.inr ⟨⟨t₁, ht₁, hpol₁.trans hpol, by simp [isDead, hr₁]⟩, hhome⟩
        · rw [hl, Kernel.home, if_neg (fun hc => hc.1 hpol)]
        · intro _ _
          rw [hpol, Kernel.held_setScheduler_idle, Scheduler.held_enqueue hi]
      · have hpol : t.policy ≠ .kIdle := fun he => hi (hkind.mpr he)
        have hplaced := hp₁.enqueue hs₁ (by simpa using hi) hl ht₁ hr₁ hpol₁
        have hheld : (k₁.setSched c ((k₁.cpuSchedulers c).setScheduler t.policy
            (s.enqueue p))).held c = k.held c := by
          rw [Kernel.held_setScheduler_ne _ _ hpol, Kernel.held, Kernel.held, hsched]
        refine ⟨Function.update loc p (some (.ready c t.policy)), ?_, ho', ⟨t₁, ht₁, hr₁⟩, hrun,
          hwait, fun q hq => Function.update_of_ne hq _ _, ?_, fun _ => hheld,
          fun hp => absurd hp hpol⟩
        · refine h.transfer ho' hplaced ?_ (fun q hq => Or.inl (hheld ▸ hq))
          intro c' q hq
          have hqp : q ≠ p := by
            rintro rfl
            rcases (h.thread c' q hq).2 with ⟨u, hu, hidle, -⟩
            exact hpol (Option.mem_unique hu ht ▸ hidle)
          rw [Function.update_of_ne hqp]
          exact (h.thread c' q hq).1
        · rw [Function.update_self, Kernel.home, if_pos ⟨hpol, by rw [hs]; rfl⟩]
    refine wp_touchTask ht s.onEnqueue_cases ?_ ?_
    · exact queued h.toPlaced (Only.refl _ _ _) rfl rfl ht hready rfl
    · exact queued (h.setTask_free ht (SameTask.resetSlice t) hl).toPlaced
        (Only.setTask ht rfl (SameTask.resetSlice t)) rfl rfl (k.tasks_setTask_self p _) hready rfl

theorem CpuSchedData.SameWaiting.trans {d d' d'' : CpuSchedData} (h : d.SameWaiting d')
    (h' : d'.SameWaiting d'') : d.SameWaiting d'' :=
  ⟨h'.1.trans h.1, h'.2.1.trans h.2.1, h'.2.2.1.trans h.2.2.1,
    fun policy => (h'.2.2.2 policy).trans (h.2.2.2 policy)⟩

/-- The first part of `Schedule`: a running task is ready again and back in its queue. -/
structure Requeued (c : CoreId) (p : Ptr) (t : TaskControlBlock) (k : Kernel)
    (loc : Ptr → Option Slot) (k' : Kernel) (loc' : Ptr → Option Slot) : Prop where
  sound : Sound k' loc'
  only : Only c {p} k k'
  running : k'.running = k.running
  waiting : (k.cpuSchedulers c).SameWaiting (k'.cpuSchedulers c)
  held : k'.held c = k.held c
  status : ∃ t', k'.tasks p = some t' ∧
    t'.status = if t.status = .kRunning then .kReady else t.status
  loc_ne : ∀ q, q ≠ p → loc' q = loc q
  loc_self : loc' p = if t.status = .kRunning then k.home c t.policy else loc p

theorem wp_requeueCurrent (h : Sound k loc) (ht : k.tasks p = some t) :
    wp (requeueCurrent c p) (fun _ k' => ∃ loc', Requeued c p t k loc k' loc') E k := by
  simp only [requeueCurrent, wp_bind, wp_readTask ht, wp_ite]
  by_cases hrun : t.status = .kRunning
  · rw [if_pos hrun]
    have hl : loc p = none := h.loc_of_running ht hrun
    have hdead : isDead (t.setStatus .kReady) = isDead t := by
      rw [isDead, isDead, hrun]
      rfl
    have hk₁ : Sound (k.setTask p (t.setStatus .kReady)) loc :=
      h.setTask_free ht ⟨rfl, hdead⟩ hl
    have ho₁ : Only c {p} k (k.setTask p (t.setStatus .kReady)) :=
      Only.setTask ht rfl ⟨rfl, hdead⟩
    rw [wp_updateTask ht]
    simp only [wp_get]
    rw [Kernel.cpuSchedulers_setTask]
    cases hs : (k.cpuSchedulers c).schedulers t.policy with
    | none =>
      rw [wp_pure]
      refine ⟨loc, hk₁, ho₁, rfl, ⟨rfl, rfl, rfl, fun _ => rfl⟩, rfl,
        ⟨_, k.tasks_setTask_self p _, by rw [if_pos hrun]; rfl⟩, fun _ _ => rfl, ?_⟩
      simp [hrun, hl, hs, Kernel.home]
    | some s =>
      rw [wp_bind, wp_modifySched]
      have hk₂ := hk₁.setScheduler (c := c) hs s.queue_onPreempted s.isIdle_onPreempted
        s.held_onPreempted
      have hwait : (k.cpuSchedulers c).SameWaiting
          ((k.cpuSchedulers c).setScheduler t.policy s.onPreempted) :=
        CpuSchedData.sameWaiting_setScheduler hs _
      -- the scheduler may give the task a new time slice before it takes it back
      have finish : ∀ {k₃ t₃}, Sound k₃ loc → Only c {p} k k₃ → k₃.running = k.running →
          k₃.cpuSchedulers c = (k.cpuSchedulers c).setScheduler t.policy s.onPreempted →
          k₃.held c = k.held c → k₃.tasks p = some t₃ → t₃.status = .kReady →
          t₃.policy = t.policy →
          wp (if s.onTimeSliceExpired then enqueueTask c t.policy p else pure ())
            (fun _ k' => ∃ loc', Requeued c p t k loc k' loc') E k₃ := by
        intro k₃ t₃ hk₃ ho₃ hrun₃ hsched₃ hheld₃ ht₃ hr₃ hpol₃
        have hsome₃ : ((k₃.cpuSchedulers c).schedulers t.policy).isSome = true := by
          rw [hsched₃, schedulers_setScheduler_self]
          rfl
        rw [wp_ite]
        split
        · rename_i hexp
          have hne : t.policy ≠ .kIdle := by
            intro he
            rw [s.onTimeSliceExpired_eq, (h.kinds c _ s hs).mpr he] at hexp
            cases hexp
          rw [← hpol₃]
          refine (wp_enqueueTask hk₃ ht₃ hr₃ hl ?_).imp ?_
          · intro c' hc'
            rcases (hk₃.thread c' p hc').2 with ⟨u, hu, hidle, -⟩
            rw [ht₃, Option.some_inj] at hu
            exact absurd (hpol₃.symm.trans (hu ▸ hidle)) hne
          · rintro _ k' ⟨loc', he⟩
            rcases he.ready with ⟨t', ht', hr'⟩
            refine ⟨loc', he.sound, ho₃.trans he.only, he.running.trans hrun₃,
              (hsched₃ ▸ hwait).trans he.waiting, (he.held (hpol₃ ▸ hne)).trans hheld₃,
              ⟨t', ht', by rw [if_pos hrun, hr']⟩, he.loc_ne, ?_⟩
            rw [he.loc_self, hpol₃, if_pos hrun, Kernel.home, Kernel.home, if_pos ⟨hne, hsome₃⟩,
              if_pos ⟨hne, by rw [hs]; rfl⟩]
        · rename_i hexp
          have hpol : t.policy = .kIdle := by
            rw [← h.kinds c _ s hs]
            simpa [s.onTimeSliceExpired_eq] using hexp
          rw [wp_pure]
          refine ⟨loc, hk₃, ho₃, hrun₃, hsched₃ ▸ hwait, hheld₃, ⟨t₃, ht₃, by rw [if_pos hrun, hr₃]⟩,
            fun _ _ => rfl, ?_⟩
          rw [hl, if_pos hrun, Kernel.home, if_neg (fun hc => hc.1 hpol)]
      rw [wp_bind]
      have ht₂ : ((k.setTask p (t.setStatus .kReady)).setSched c ((k.cpuSchedulers c).setScheduler
          t.policy s.onPreempted)).tasks p = some (t.setStatus .kReady) := k.tasks_setTask_self p _
      refine wp_touchTask ht₂ s.onExpired_cases ?_ ?_
      · exact finish hk₂.1 (ho₁.trans (Only.setSched _)) rfl
          (Kernel.cpuSchedulers_setSched_self _ _ _) hk₂.2 ht₂ rfl rfl
      · refine finish (hk₂.1.setTask_free ht₂ (SameTask.resetSlice _) hl) ?_ rfl
          (Kernel.cpuSchedulers_setSched_self _ _ _) hk₂.2 (Kernel.tasks_setTask_self _ p _) rfl rfl
        exact (ho₁.trans (Only.setSched _)).trans
          (Only.setTask ht₂ rfl (SameTask.resetSlice _))
  · rw [if_neg hrun, wp_pure]
    refine ⟨loc, h, Only.refl _ _ _, rfl, ⟨rfl, rfl, rfl, fun _ => rfl⟩, rfl, ⟨t, ht, ?_⟩,
      fun _ _ => rfl, ?_⟩
    · rw [if_neg hrun]
    · rw [if_neg hrun]

/-- The core finds a ready task: the head of a queue, which leaves it, or the task in
the idle scheduler, which stays there. -/
structure Picked (c : CoreId) (next : Ptr) (k : Kernel) (loc : Ptr → Option Slot) (k' : Kernel)
    (loc' : Ptr → Option Slot) : Prop where
  sound : Sound k' loc'
  only : Only c ∅ k k'
  running : k'.running = k.running
  waiting : (k.cpuSchedulers c).SameWaiting (k'.cpuSchedulers c)
  held : k'.held c = k.held c
  ready : ∃ t, k.tasks next = some t ∧ t.status = .kReady
  source : (∃ policy, loc next = some (.ready c policy)) ∨ k.held c = some next
  loc_ne : ∀ q, q ≠ next → loc' q = loc q
  loc_self : loc' next = none

/-- Nothing on core `c` is ready. -/
def Kernel.NothingReady (k : Kernel) (c : CoreId) : Prop :=
  (∀ policy, k.slot (.ready c policy) = []) ∧ k.held c = none

/-- The search of `Schedule` does not end on a held task that is not ready. -/
def Kernel.HeldUnready (k : Kernel) (c : CoreId) : Prop :=
  ∃ p t, k.held c = some p ∧ k.tasks p = some t ∧ t.status ≠ .kReady

theorem Kernel.slot_ready {policy : SchedPolicy} {s : Scheduler}
    (hs : (k.cpuSchedulers c).schedulers policy = some s) : k.slot (.ready c policy) = s.queue :=
  CpuSchedData.content_ready hs c

theorem Kernel.held_eq {s : Scheduler} (hs : (k.cpuSchedulers c).schedulers .kIdle = some s) :
    k.held c = s.held := by
  rw [Kernel.held, hs]
  rfl

theorem Placed.loc_of_ready_idle (h : Placed k loc) (ht : k.tasks p = some t)
    (hr : t.status = .kReady) (hpol : t.policy = .kIdle) : loc p = none := by
  cases hl : loc p with
  | none => rfl
  | some u =>
    rcases h.agrees p u hl with ⟨t', ht', hag⟩
    obtain rfl := Option.mem_unique ht ht'
    cases u with
    | ready c policy =>
      have hmem := (h.located.mem_iff _ p).mpr hl
      rw [← hag.2, hpol] at hmem
      cases hs : (k.cpuSchedulers c).schedulers .kIdle with
      | none => simp [Kernel.slot, Slot.content, Slot.core, hs] at hmem
      | some s =>
        rw [Kernel.slot_ready hs, h.queue_of_idle hs] at hmem
        cases hmem
    | sleeping c => cases hr.symm.trans hag
    | blocked c r => cases hr.symm.trans hag.1

theorem wp_searchQueue_pick {policy : SchedPolicy} {s : Scheduler} {fuel : ℕ}
    {Q : Option Ptr → Kernel → Prop}
    (hs : (k.cpuSchedulers c).schedulers policy = some s) (hne : s.isEmpty = false)
    (hp : s.pickNext.1 = some p) (ht : k.tasks p = some t) :
    wp (searchQueue c policy (fuel+1)) Q E k ↔
      if t.status = .kReady
        then Q (some p) (k.setSched c ((k.cpuSchedulers c).setScheduler policy s.pickNext.2))
        else wp (searchQueue c policy fuel) Q E
          (k.setSched c ((k.cpuSchedulers c).setScheduler policy s.pickNext.2)) := by
  have ht' : ∀ d, (k.setSched c d).tasks p = some t := fun _ => ht
  simp only [searchQueue, wp_bind, wp_get, hs, hne, Bool.false_eq_true, if_false, wp_modifySched, hp]
  rw [wp_readTask (ht' _), wp_ite, wp_pure]

/-- From an idle scheduler whose task is not ready every pick is in vain. -/
theorem wp_searchQueue_held (fuel : ℕ) {Q : Option Ptr → Kernel → Prop}
    (hkinds : (k.cpuSchedulers c).Kinds) (hun : k.HeldUnready c)
    (hdiv : ∀ k', Only c ∅ k k' → E .diverges k') : wp (searchQueue c .kIdle fuel) Q E k := by
  induction fuel generalizing k with
  | zero =>
    rw [searchQueue, wp_throw]
    exact hdiv k (Only.refl _ _ _)
  | succ fuel ih =>
    rcases hun with ⟨p, t, hp, ht, hnr⟩
    cases hs : (k.cpuSchedulers c).schedulers .kIdle with
    | none => simp [Kernel.held, hs] at hp
    | some s =>
      rw [Kernel.held_eq hs] at hp
      have hne : s.isEmpty = false := Scheduler.isEmpty_eq_false_iff.mpr (Or.inr (by simp [hp]))
      rcases Scheduler.pickNext_cases hne with ⟨_, _, hi, _⟩ | ⟨p', -, hp', hpick, hheld⟩
      · rw [(hkinds _ s hs).mpr rfl] at hi
        cases hi
      · obtain rfl := Option.mem_unique hp hp'
        rw [wp_searchQueue_pick hs hne hpick ht, if_neg hnr]
        refine ih ?_ ⟨p, t, ?_, ht, hnr⟩ (fun k' ho => hdiv k' ((Only.setSched _).trans ho))
        · rw [Kernel.cpuSchedulers_setSched_self]
          exact hkinds.setScheduler hs s.isIdle_pickNext
        · rw [Kernel.held_setScheduler_idle, hheld]

theorem wp_searchQueue (h : Sound k loc) (policy : SchedPolicy) (fuel : ℕ)
    {Q : Option Ptr → Kernel → Prop}
    (hpick : ∀ next k' loc', Picked c next k loc k' loc' → Q (some next) k')
    (hempty : k.slot (.ready c policy) = [] → (policy = .kIdle → k.held c = none) → Q none k)
    (hdiv : k.HeldUnready c → ∀ k', Only c ∅ k k' → E .diverges k') :
    wp (searchQueue c policy (fuel+1)) Q E k := by
  cases hs : (k.cpuSchedulers c).schedulers policy with
  | none =>
    simp only [searchQueue, wp_bind, wp_get, hs, wp_pure]
    refine hempty ?_ ?_
    · simp [Kernel.slot, Slot.content, Slot.core, hs]
    · rintro rfl
      simp [Kernel.held, hs]
  | some s =>
    cases hne : s.isEmpty with
    | true =>
      simp only [searchQueue, wp_bind, wp_get, hs, hne, if_true, wp_pure]
      have hnone : ¬ (s.queue ≠ [] ∨ s.held ≠ none) := by
        rw [← Scheduler.isEmpty_eq_false_iff, hne]
        simp
      rw [not_or, not_not, not_not] at hnone
      refine hempty ((Kernel.slot_ready hs).trans hnone.1) ?_
      rintro rfl
      exact (Kernel.held_eq hs).trans hnone.2
    | false =>
      have hwait : (k.cpuSchedulers c).SameWaiting ((k.setSched c
          ((k.cpuSchedulers c).setScheduler policy s.pickNext.2)).cpuSchedulers c) := by
        rw [Kernel.cpuSchedulers_setSched_self]
        exact CpuSchedData.sameWaiting_setScheduler hs _
      rcases Scheduler.pickNext_cases hne with ⟨p, q, hi, hq, hp, hq'⟩ | ⟨p, hi, hheld, hp, hheld'⟩
      · -- a queued task is ready
        have hmem : p ∈ k.slot (.ready c policy) := by
          rw [Kernel.slot_ready hs, hq]
          exact List.mem_cons_self
        have hl : loc p = some (.ready c policy) := (h.located.mem_iff _ p).mp hmem
        rcases h.tasks_of_mem hmem with ⟨t, ht, hready, hpol⟩
        have hne' : policy ≠ .kIdle := by
          intro he
          rw [(h.kinds c policy s hs).mpr he] at hi
          cases hi
        have hsame := k.held_setScheduler_ne (c := c) s.pickNext.2 hne'
        rw [wp_searchQueue_pick hs hne hp ht, if_pos hready]
        refine hpick p _ (Function.update loc p none) ⟨?_, Only.setSched _, rfl, hwait, hsame,
          ⟨t, ht, hready⟩, Or.inl ⟨policy, hl⟩, fun x hx => Function.update_of_ne hx _ _,
          Function.update_self _ _ _⟩
        refine h.transfer (Only.setSched (X := ∅) _) (h.toPlaced.pick hs hq hq' s.isIdle_pickNext)
          ?_ (fun x hx => Or.inl (hsame ▸ hx))
        intro c' x hx
        by_cases hxp : x = p
        · rw [hxp, Function.update_self]
        · rw [Function.update_of_ne hxp]
          exact (h.thread c' x hx).1
      · have hpol : policy = .kIdle := (h.kinds c policy s hs).mp hi
        subst hpol
        have hin : k.held c = some p := (Kernel.held_eq hs).trans hheld
        rcases (h.inHand c p hin).1 with ⟨t, ht, hpol, -⟩
        by_cases hready : t.status = .kReady
        · have hsound := h.setScheduler hs
            ((Scheduler.queue_of_isIdle (s.isIdle_pickNext.trans hi)).trans
              (Scheduler.queue_of_isIdle hi).symm) s.isIdle_pickNext (hheld'.trans hheld.symm)
          rw [wp_searchQueue_pick hs hne hp ht, if_pos hready]
          exact hpick p _ loc ⟨hsound.1, Only.setSched _, rfl, hwait, hsound.2, ⟨t, ht, hready⟩,
            Or.inr hin, fun _ _ => rfl, h.loc_of_ready_idle ht hready hpol⟩
        · have hun : k.HeldUnready c := ⟨p, t, hin, ht, hready⟩
          exact wp_searchQueue_held _ (h.kinds c) hun (hdiv hun)

theorem wp_searchPolicies (h : Sound k loc) {Q : Option Ptr → Kernel → Prop}
    (hpick : ∀ next k' loc', Picked c next k loc k' loc' → Q (some next) k')
    (hempty : k.NothingReady c → Q none k)
    (hdiv : k.HeldUnready c → ∀ k', Only c ∅ k k' → E .diverges k') :
    wp (searchPolicies c [.kRealTime, .kNormal, .kIdle]) Q E k := by
  have turn : ∀ policy rest, (k.slot (.ready c policy) = [] → (policy = .kIdle → k.held c = none) →
      wp (searchPolicies c rest) Q E k) → wp (searchPolicies c (policy :: rest)) Q E k := by
    intro policy rest hrest
    simp only [searchPolicies, wp_bind, wp_get]
    have found : ∀ next k' loc', Picked c next k loc k' loc' →
        wp (pure (some next)) Q E k' := fun next k' loc' hp => (wp_pure _).mpr (hpick next k' loc' hp)
    cases (k.cpuSchedulers c).schedulers policy with
    | none => exact wp_searchQueue h policy 0 found hrest hdiv
    | some s => exact wp_searchQueue h policy s.queue.length found hrest hdiv
  refine turn _ _ (fun h₁ _ => turn _ _ (fun h₂ _ => turn _ _ (fun h₃ hnone => ?_)))
  rw [searchPolicies, wp_pure]
  refine hempty ⟨?_, hnone rfl⟩
  intro policy
  cases policy with
  | kRealTime => exact h₁
  | kNormal => exact h₂
  | kIdle => exact h₃

/-- Where the next task of core `c` comes from. -/
def Kernel.Candidate (k : Kernel) (loc : Ptr → Option Slot) (c : CoreId) (next : Ptr) : Prop :=
  k.idle c = some next ∨ ∃ t, k.tasks next = some t ∧ t.status = .kReady ∧
    ((∃ policy, loc next = some (.ready c policy)) ∨ k.held c = some next)

/-- `Schedule` has a task to run, which is ready and in no queue. -/
structure Chosen (c : CoreId) (current next : Ptr) (k : Kernel) (loc : Ptr → Option Slot)
    (k' : Kernel) (loc' : Ptr → Option Slot) : Prop where
  sound : Sound k' loc'
  only : Only c {next} k k'
  running : k'.running = k.running
  waiting : (k.cpuSchedulers c).SameWaiting (k'.cpuSchedulers c)
  held : k'.held c = k.held c
  ready : ∃ t, k'.tasks next = some t ∧ t.status = .kReady
  source : next = current ∨ k.Candidate loc c next
  loc_ne : ∀ q, q ≠ next → loc' q = loc q
  loc_self : loc' next = none

theorem Picked.chosen {current next : Ptr} {loc' : Ptr → Option Slot}
    (h : Picked c next k loc k' loc') : Chosen c current next k loc k' loc' := by
  rcases h.ready with ⟨t, ht, hr⟩
  refine ⟨h.sound, h.only.mono (Set.empty_subset _), h.running, h.waiting, h.held, ⟨t, ?_, hr⟩,
    Or.inr (Or.inr ⟨t, ht, hr, h.source⟩), h.loc_ne, h.loc_self⟩
  rw [h.only.tasks next (Set.notMem_empty _), ht]

theorem wp_chooseNext (h : Sound k loc) {current : Ptr} (ht : k.tasks current = some t)
    (hcur : t.status = .kReady → loc current = none ∨ ∃ policy, loc current = some (.ready c policy))
    {Q : Option Ptr → Kernel → Prop}
    (hchosen : ∀ next k' loc', Chosen c current next k loc k' loc' → Q (some next) k')
    (hparked : k.idle c = none → ∀ k', Only c ∅ k k' → Q none k')
    (hdiv : k.HeldUnready c → ∀ k', Only c ∅ k k' → E .diverges k') :
    wp (chooseNext c current) Q E k := by
  rw [chooseNext, wp_bind]
  refine wp_searchPolicies h (fun next k' loc' hp => (wp_pure _).mpr (hchosen next k' loc' hp.chosen))
    ?_ hdiv
  intro hnone
  simp only [wp_bind, wp_readTask ht, wp_ite, wp_get, wp_pure]
  split
  · rename_i hready
    have hl : loc current = none := by
      rcases hcur hready with hl | ⟨policy, hl⟩
      · exact hl
      · have hmem := (h.located.mem_iff _ current).mpr hl
        rw [hnone.1 policy] at hmem
        cases hmem
    exact hchosen current k loc ⟨h, Only.refl _ _ _, rfl, ⟨rfl, rfl, rfl, fun _ => rfl⟩, rfl,
      ⟨t, ht, hready⟩, Or.inl rfl, fun _ _ => rfl, hl⟩
  · cases hi : k.idle c with
    | none =>
      simp only [wp_bind, wp_modifySched, wp_pure]
      exact hparked hi _ (Only.setSched _)
    | some i =>
      rcases h.thread c i hi with ⟨hl, u, hu, -, hdead⟩
      have hs : SameTask u (u.setStatus .kReady) := ⟨rfl, hdead.symm⟩
      simp only [wp_bind, wp_updateTask hu, wp_pure]
      exact hchosen i _ loc ⟨h.setTask_free hu hs hl, Only.setTask hu rfl hs, rfl,
        ⟨rfl, rfl, rfl, fun _ => rfl⟩, rfl, ⟨_, k.tasks_setTask_self i _, rfl⟩,
        Or.inr (Or.inl hi), fun _ _ => rfl, hl⟩

/-- After `Schedule` under the lock, for the old task `current` with block `t`. -/
structure Scheduled (c : CoreId) (current : Ptr) (t : TaskControlBlock) (next : Ptr) (k : Kernel)
    (loc : Ptr → Option Slot) (k' : Kernel) (loc' : Ptr → Option Slot) : Prop where
  sound : Sound k' loc'
  only : Only c {current, next} k k'
  running : k'.running c = some next
  waiting : (k.cpuSchedulers c).SameWaiting (k'.cpuSchedulers c)
  held : k'.held c = k.held c
  next_running : ∃ u, k'.tasks next = some u ∧ u.status = .kRunning
  source : next = current ∨ k.Candidate loc c next
  left : next ≠ current → ∃ t', k'.tasks current = some t' ∧
    t'.status = if t.status = .kRunning then .kReady else t.status
  loc_ne : ∀ q, q ≠ next → q ≠ current → loc' q = loc q
  loc_next : loc' next = none
  loc_left : next ≠ current → loc' current =
    if t.status = .kRunning then k.home c t.policy else loc current

namespace Scheduled

variable {current next q : Ptr}

/-- A task that waits after `Schedule` has waited before, in the same place. -/
theorem of_waiting (hs : Scheduled c current t next k loc k' loc') (ht : k.tasks current = some t)
    {u : TaskControlBlock} (hu : k'.tasks q = some u) (hrun : u.status ≠ .kRunning)
    (hready : u.status ≠ .kReady) : ∃ v, k.tasks q = some v ∧ v.status = u.status ∧ loc' q = loc q := by
  by_cases hn : q = next
  · subst hn
    obtain ⟨v, hv, hr⟩ := hs.next_running
    exact absurd (Option.mem_unique hu hv ▸ hr) hrun
  · by_cases hc : q = current
    · subst hc
      obtain ⟨v, hv, hst⟩ := hs.left (Ne.symm hn)
      obtain rfl := Option.mem_unique hu hv
      have hr : t.status ≠ .kRunning := fun hr => hready (hst.trans (if_pos hr))
      rw [if_neg hr] at hst
      exact ⟨t, ht, hst.symm, (hs.loc_left (Ne.symm hn)).trans (if_neg hr)⟩
    · exact ⟨u, (hs.only.tasks q (by simp [hn, hc])).symm.trans hu, rfl, hs.loc_ne q hn hc⟩

theorem loc_cases (hs : Scheduled c current t next k loc k' loc') {s : Slot} (hq : loc' q = some s) :
    loc q = some s ∨ s = .ready c t.policy := by
  by_cases hn : q = next
  · rw [hn, hs.loc_next] at hq
    cases hq
  · by_cases hc : q = current
    · subst hc
      rw [hs.loc_left (Ne.symm hn)] at hq
      split at hq
      · exact Or.inr (Kernel.ready_of_home hq)
      · exact Or.inl hq
    · exact Or.inl ((hs.loc_ne q hn hc).symm.trans hq)

theorem core (hs : Scheduled c current t next k loc k' loc') (h : ∀ q s, loc q = some s → s.core = c)
    (q : Ptr) (s : Slot) (hq : loc' q = some s) : s.core = c := by
  obtain hold | rfl := hs.loc_cases hq
  · exact h q s hold
  · rfl

end Scheduled

theorem wp_dispatch (h : Sound k loc) {current next : Ptr} (ht : k.tasks current = some t)
    {u : TaskControlBlock} (hu : k.tasks next = some u) (hready : u.status = .kReady)
    (hl : loc next = none) {Q : Bool → Kernel → Prop}
    (hQ : ∀ k' b, Sound k' loc → Only c {next} k k' → k'.running c = some next →
      (k.cpuSchedulers c).SameWaiting (k'.cpuSchedulers c) → k'.held c = k.held c →
      (∃ u', k'.tasks next = some u' ∧ u'.status = .kRunning) → (next = current → b = false) →
      Q b k') :
    wp (dispatch c current next) Q E k := by
  have hleave : (t.status != .kReady) = false ∨ (current != next) = true := by
    by_cases he : current = next
    · subst he
      obtain rfl := Option.mem_unique ht hu
      simp [hready]
    · simp [he]
  have hassert : (!(t.status != .kReady) || current != next) = true := by
    rcases hleave with he | he <;> simp [he]
  simp only [dispatch, wp_bind, wp_readTask ht, wp_readTask hu, wp_assertMsg, hready, hassert,
    beq_self_eq_true, if_true, wp_updateTask hu, wp_modifySched, wp_modify, wp_pure]
  set u' : TaskControlBlock := { u with
    status := .kRunning
    schedInfo := { u.schedInfo with
      timeSliceRemaining := u.schedInfo.timeSliceDefault
      contextSwitches := u.schedInfo.contextSwitches + 1 } } with hu'
  have hsame : SameTask u u' := ⟨rfl, by rw [isDead, isDead, hready]; rfl⟩
  have h₁ : Sound (k.setTask next u') loc := h.setTask_free hu hsame hl
  refine hQ _ _ ?_ ?_ ?_ ?_ ?_ ⟨u', k.tasks_setTask_self next u', rfl⟩ ?_
  · apply Sound.setRunning
    exact h₁.setCounters rfl rfl rfl
  · have ho : Only c {next} k (k.setTask next u') := Only.setTask hu rfl hsame
    exact (ho.trans (Only.setSched _)).trans (Only.setRunning next)
  · simp [Kernel.running, Kernel.setCpu]
  · rw [Kernel.cpuSchedulers_setCpu, Kernel.cpuSchedulers_setSched_self]
    exact ⟨rfl, rfl, rfl, fun _ => rfl⟩
  · rw [Kernel.held, Kernel.cpuSchedulers_setCpu, Kernel.cpuSchedulers_setSched_self]
    rfl
  · rintro rfl
    exact hleave.resolve_right (by simp)

theorem wp_scheduleBody (h : Sound k loc) {current : Ptr} (hrun : k.running c = some current)
    (ht : k.tasks current = some t) (hcur : t.status = .kReady → loc current = none)
    {Q : Option (Ptr × Ptr × Bool) → Kernel → Prop}
    (hnext : ∀ next b k' loc', Scheduled c current t next k loc k' loc' →
      (next = current → b = false) → Q (some (current, next, b)) k')
    (hparked : k.idle c = none → ∀ k', Only c {current} k k' → Q none k')
    (hdiv : ∀ p u, k.held c = some p → (p = current → t.status ≠ .kRunning) →
      k.tasks p = some u → u.status ≠ .kReady → ∀ k', Only c {current} k k' → E .diverges k') :
    wp (scheduleBody c) Q E k := by
  simp only [scheduleBody, wp_bind, wp_currentTask, hrun]
  refine (wp_requeueCurrent h ht).imp ?_
  rintro _ k₁ ⟨loc₁, hr⟩
  rcases hr.status with ⟨t₁, ht₁, hst₁⟩
  refine wp_chooseNext hr.sound ht₁ ?_ ?_ ?_ ?_
  · intro hready
    rw [hr.loc_self]
    split
    · rw [Kernel.home]
      split
      · exact Or.inr ⟨_, rfl⟩
      · exact Or.inl rfl
    · rename_i hnr
      rw [hst₁, if_neg hnr] at hready
      exact Or.inl (hcur hready)
  · intro next k₂ loc₂ hc
    rcases hc.ready with ⟨u, hu, hready⟩
    -- the chosen task is ready, so that the current task is not taken for it in vain
    have hkeep : ∃ t₂, k₂.tasks current = some t₂ ∧ (next ≠ current → t₂ = t₁) := by
      by_cases he : next = current
      · subst he
        exact ⟨u, hu, fun hne => absurd rfl hne⟩
      · exact ⟨t₁, by rw [hc.only.tasks current (Ne.symm he), ht₁], fun _ => rfl⟩
    rcases hkeep with ⟨t₂, ht₂, hsame⟩
    have hstay : ¬ (current = next ∧ t₂.status ≠ .kReady) := by
      rintro ⟨rfl, hne⟩
      obtain rfl := Option.mem_unique hu ht₂
      exact hne hready
    simp only [leaveCurrent, wp_bind, wp_readTask ht₂, wp_ite, if_neg hstay, wp_pure]
    refine wp_dispatch hc.sound ht₂ hu hready hc.loc_self ?_
    intro k₃ b hk₃ ho₃ hrun₃ hw₃ hheld₃ hnext₃ hb
    have hsub : ({next} : Set Ptr) ⊆ {current, next} := by simp
    have ho₁ : Only c {current, next} k k₁ := hr.only.mono (by simp)
    refine hnext next b k₃ loc₂ ⟨hk₃, ?_, hrun₃, ?_, ?_, hnext₃, ?_, ?_, ?_, hc.loc_self, ?_⟩ hb
    · exact (ho₁.trans (hc.only.mono hsub)).trans (ho₃.mono hsub)
    · exact (hr.waiting.trans hc.waiting).trans hw₃
    · rw [hheld₃, hc.held, hr.held]
    · rcases hc.source with he | hi | ⟨v, hv, hvr, hfrom⟩
      · exact Or.inl he
      · exact Or.inr (Or.inl (hr.only.idle ▸ hi))
      · by_cases he : next = current
        · exact Or.inl he
        · refine Or.inr (Or.inr ⟨v, ?_, hvr, ?_⟩)
          · rw [← hv, hr.only.tasks next he]
          · rwa [hr.loc_ne next he, hr.held] at hfrom
    · intro he
      refine ⟨t₂, ?_, by rw [hsame he, hst₁]⟩
      rw [ho₃.tasks current (Ne.symm he), ht₂]
    · intro q hq hqc
      rw [hc.loc_ne q hq, hr.loc_ne q hqc]
    · intro he
      rw [hc.loc_ne current (Ne.symm he), hr.loc_self]
  · intro hi k₂ ho
    rw [wp_pure]
    exact hparked (hr.only.idle ▸ hi) k₂ (hr.only.trans (ho.mono (Set.empty_subset _)))
  · rintro ⟨p, u, hp, hu, hnr⟩ k₂ ho
    have hpc : p = current → t.status ≠ .kRunning := by
      rintro rfl hrunning
      rw [ht₁, Option.some_inj] at hu
      rw [← hu, hst₁, if_pos hrunning] at hnr
      exact hnr rfl
    have hold : ∃ v, k.tasks p = some v ∧ v.status ≠ .kReady := by
      by_cases he : p = current
      · subst he
        refine ⟨t, ht, ?_⟩
        rw [ht₁, Option.some_inj] at hu
        rwa [← hu, hst₁, if_neg (hpc rfl)] at hnr
      · exact ⟨u, by rw [← hu, hr.only.tasks p he], hnr⟩
    rcases hold with ⟨v, hv, hvr⟩
    exact hdiv p v (hr.held ▸ hp) hpc hv hvr k₂ (hr.only.trans (ho.mono (Set.empty_subset _)))

section Boot

variable {loc' : Ptr → Option Slot}

theorem Only.setBoot (h : Only c X k k') (b : Bool) : Only c X k { k' with bootDone := b } :=
  ⟨h.tasks, h.same, h.free, h.scheds, h.idle, h.running, h.taskTable, h.pidAllocator, h.vm,
    h.deletions⟩

theorem Sound.setBoot (h : Sound k loc) (b : Bool) : Sound { k with bootDone := b } loc :=
  ⟨⟨h.located, h.agrees, h.heap, h.kinds⟩, h.thread, h.inHand⟩

/-- The rest of `Schedule` only notes that the boot code has been left. -/
theorem wp_switchTask {current next : Ptr} {b : Bool} (h : Scheduled c current t next k loc k' loc')
    (ht : k.tasks current = some t) (hb : next = current → b = false) {Q : Unit → Kernel → Prop}
    (hQ : ∀ k'', Scheduled c current t next k loc k'' loc' → Q () k'') :
    wp (switchTask current next b) Q E k' := by
  rcases h.next_running with ⟨u, hu, -⟩
  rcases h.only.same current t ht with ⟨t', ht', -⟩
  simp only [switchTask, wp_bind, wp_get, wp_ite, wp_readTask ht', wp_readTask hu, wp_modify,
    wp_assertMsg, wp_pure]
  split
  · split
    · exact hQ k' h
    · rename_i he
      rw [not_not] at he
      rw [hb he.symm]
      exact hQ k' h
  · have hu' : ({ k' with bootDone := true } : Kernel).tasks next = some u := hu
    rw [wp_readTask hu']
    exact hQ _ ⟨h.sound.setBoot true, h.only.setBoot true, h.running, h.waiting, h.held,
      h.next_running, h.source, h.left, h.loc_ne, h.loc_next, h.loc_left⟩

theorem wp_schedule (h : Sound k loc) {current : Ptr} (hrun : k.running c = some current)
    (ht : k.tasks current = some t) (hcur : t.status = .kReady → loc current = none)
    {Q : Unit → Kernel → Prop}
    (hnext : ∀ next k' loc', Scheduled c current t next k loc k' loc' → Q () k')
    (hparked : k.idle c = none → ∀ k', Only c {current} k k' → E .parked k')
    (hdiv : ∀ p u, k.held c = some p → (p = current → t.status ≠ .kRunning) →
      k.tasks p = some u → u.status ≠ .kReady → ∀ k', Only c {current} k k' → E .diverges k') :
    wp (schedule c) Q E k := by
  simp only [schedule, lock_kernelM, unlock_kernelM, run_kernelM, wp_bind, wp_pure]
  refine wp_scheduleBody h hrun ht hcur ?_ ?_ hdiv
  · intro next b k' loc' hs hb
    simp only [wp_bind, wp_pure]
    exact wp_switchTask hs ht hb (fun k'' hs' => hnext next k'' loc' hs')
  · intro hi k' ho
    simp only [wp_bind, wp_pure, wp_throw]
    exact hparked hi k' ho

end Boot

end NaiLongKernel.Task
