import NaiLongKernel.Foundation.Located
import NaiLongKernel.Task.Lifecycle

/-!
# Where tasks are kept

The queues of all cores are slots for tasks. `Placed` says that every queue holds
its tasks once, that no task is in two queues, and that the status of a queued task
agrees with the queue. Each move of a task between queues keeps it.
-/
namespace NaiLongKernel.Task

open Foundation

/-- The queues of the cores. -/
inductive Slot where
  | ready (core : CoreId) (policy : SchedPolicy)
  | sleeping (core : CoreId)
  | blocked (core : CoreId) (resource : ResourceId)
deriving DecidableEq, Repr

namespace Slot

def core : Slot → CoreId
  | ready c _ => c
  | sleeping c => c
  | blocked c _ => c

/-- The queue in the data of its core. -/
def content (d : CpuSchedData) : Slot → List Ptr
  | ready _ policy => match d.schedulers policy with
    | some s => s.queue
    | none => []
  | sleeping _ => d.sleepingTasks
  | blocked _ r => (d.blockedTasks r).getD []

/-- The status and fields that a task in the queue has. -/
def Agrees : Slot → TaskControlBlock → Prop
  | ready _ policy, t => t.status = .kReady ∧ t.policy = policy
  | sleeping _, t => t.status = .kSleeping
  | blocked _ r, t => t.status = .kBlocked ∧ t.blockedOn = r

end Slot

namespace Kernel

def slot (k : Kernel) (s : Slot) : List Ptr := s.content (k.cpuSchedulers s.core)

/-- The task in the idle scheduler of a core. -/
def held (k : Kernel) (c : CoreId) : Option Ptr :=
  ((k.cpuSchedulers c).schedulers .kIdle).bind Scheduler.held

end Kernel

/-- Idle schedulers serve the idle policy and no other. -/
def CpuSchedData.Kinds (d : CpuSchedData) : Prop :=
  ∀ policy s, d.schedulers policy = some s → (s.isIdle = true ↔ policy = .kIdle)

/-- Tasks are queued once, where `loc` says, with the status of their queue. -/
structure Placed (k : Kernel) (loc : Ptr → Option Slot) : Prop where
  located : Located k.slot loc
  agrees : ∀ p s, loc p = some s → ∃ t, k.tasks p = some t ∧ s.Agrees t
  heap : ∀ c, IsHeap k.wakesLater (k.cpuSchedulers c).sleepingTasks
  kinds : ∀ c, (k.cpuSchedulers c).Kinds

variable {k k' : Kernel} {loc : Ptr → Option Slot} {p : Ptr} {t t' : TaskControlBlock} {c : CoreId}

namespace Slot.Agrees

theorem not_running {s : Slot} (h : s.Agrees t) : t.status ≠ .kRunning := by
  cases s <;> simp_all [Slot.Agrees]

theorem not_dead {s : Slot} (h : s.Agrees t) : isDead t = false := by
  cases s <;> simp_all [Slot.Agrees, isDead]

end Slot.Agrees

theorem Kernel.wakesLater_strict (k : Kernel) : StrictWeak k.wakesLater :=
  strictWeak_of_key (fun p => (k.wakeTick p).toNat)

theorem Kernel.wakeTick_of_tasks {k k' : Kernel} {q : Ptr} (h : k'.tasks q = k.tasks q) :
    k'.wakeTick q = k.wakeTick q := by
  rw [Kernel.wakeTick, Kernel.wakeTick, h]

theorem Kernel.slot_setSched_ne (k : Kernel) (d : CpuSchedData) {s : Slot} (h : s.core ≠ c) :
    (k.setSched c d).slot s = k.slot s := by
  rw [Kernel.slot, Kernel.slot, Kernel.cpuSchedulers_setSched_ne k c d h]

theorem Kernel.slot_setSched (k : Kernel) (d : CpuSchedData) {s : Slot} (h : s.core = c) :
    (k.setSched c d).slot s = s.content d := by
  rw [Kernel.slot, h, Kernel.cpuSchedulers_setSched_self]

theorem Kernel.held_setScheduler_ne (k : Kernel) {policy : SchedPolicy} (s : Scheduler)
    (h : policy ≠ .kIdle) :
    (k.setSched c ((k.cpuSchedulers c).setScheduler policy s)).held c = k.held c := by
  rw [Kernel.held, Kernel.cpuSchedulers_setSched_self, schedulers_setScheduler_ne _ s (Ne.symm h)]
  rfl

theorem Kernel.held_setScheduler_idle (k : Kernel) (d : CpuSchedData) (s : Scheduler) :
    (k.setSched c (d.setScheduler .kIdle s)).held c = s.held := by
  rw [Kernel.held, Kernel.cpuSchedulers_setSched_self, schedulers_setScheduler_self]
  rfl

/-- What holds of the data of every core after one of them has changed. -/
theorem Kernel.forall_setSched (k : Kernel) {d : CpuSchedData} {D : CpuSchedData → Prop}
    (h : ∀ c, D (k.cpuSchedulers c)) (hd : D d) (c' : CoreId) :
    D ((k.setSched c d).cpuSchedulers c') := by
  by_cases hc : c' = c
  · rw [hc, k.cpuSchedulers_setSched_self]
    exact hd
  · rw [k.cpuSchedulers_setSched_ne c d hc]
    exact h c'

namespace Placed

/-- A task that runs, or is not a queue's, is in no queue. -/
theorem loc_of_running (h : Placed k loc) (hp : k.tasks p = some t) (hs : t.status = .kRunning) :
    loc p = none := by
  cases hl : loc p with
  | none => rfl
  | some s =>
    rcases h.agrees p s hl with ⟨u, hu, ha⟩
    obtain rfl := Option.mem_unique hp hu
    exact absurd hs ha.not_running

theorem loc_of_dead (h : Placed k loc) (hp : k.tasks p = some t) (hs : isDead t = true) :
    loc p = none := by
  cases hl : loc p with
  | none => rfl
  | some s =>
    rcases h.agrees p s hl with ⟨u, hu, ha⟩
    obtain rfl := Option.mem_unique hp hu
    rw [ha.not_dead] at hs
    cases hs

theorem loc_of_none (h : Placed k loc) (hp : k.tasks p = none) : loc p = none := by
  cases hl : loc p with
  | none => rfl
  | some s =>
    rcases h.agrees p s hl with ⟨u, hu, _⟩
    rw [hp] at hu
    cases hu

theorem tasks_of_mem (h : Placed k loc) {s : Slot} (hp : p ∈ k.slot s) :
    ∃ t, k.tasks p = some t ∧ s.Agrees t := h.agrees p s ((h.located.mem_iff s p).mp hp)

theorem queue_of_idle (h : Placed k loc) {s : Scheduler}
    (hs : (k.cpuSchedulers c).schedulers .kIdle = some s) : s.queue = [] :=
  Scheduler.queue_of_isIdle ((h.kinds c _ s hs).mpr rfl)

theorem setTask (h : Placed k loc) (hag : ∀ s, loc p = some s → s.Agrees t')
    (hw : loc p = none ∨ t'.schedInfo.wakeTick = k.wakeTick p) : Placed (k.setTask p t') loc where
  located := h.located
  agrees q s hq := by
    by_cases hqp : q = p
    · subst hqp
      exact ⟨t', k.tasks_setTask_self q t', hag s hq⟩
    · rw [k.tasks_setTask_ne p t' hqp]
      exact h.agrees q s hq
  heap c := by
    refine (h.heap c).congr ?_
    have hkey : ∀ a ∈ (k.cpuSchedulers c).sleepingTasks,
        (k.setTask p t').wakeTick a = k.wakeTick a := by
      intro a ha
      by_cases hap : a = p
      · subst hap
        have hl : loc a = some (.sleeping c) := (h.located.mem_iff (.sleeping c) a).mp ha
        have hkeep : t'.schedInfo.wakeTick = k.wakeTick a :=
          hw.resolve_left (by rw [hl]; exact Option.some_ne_none _)
        rw [← hkeep, Kernel.wakeTick, k.tasks_setTask_self]
      · exact Kernel.wakeTick_of_tasks (k.tasks_setTask_ne p t' hap)
    intro a ha b hb
    rw [Kernel.wakesLater, Kernel.wakesLater, hkey a ha, hkey b hb]
  kinds := h.kinds

theorem setSched (h : Placed k loc) {d : CpuSchedData}
    (hslot : ∀ s : Slot, s.core = c → s.content d = s.content (k.cpuSchedulers c))
    (hkinds : d.Kinds) : Placed (k.setSched c d) loc := by
  have hsame : (k.setSched c d).slot = k.slot := by
    funext s
    by_cases hs : s.core = c
    · rw [k.slot_setSched d hs, hslot s hs, Kernel.slot, hs]
    · exact k.slot_setSched_ne d hs
  refine ⟨by rw [hsame]; exact h.located, h.agrees, ?_, ?_⟩
  · intro c'
    have hlist : ((k.setSched c d).cpuSchedulers c').sleepingTasks =
        (k.cpuSchedulers c').sleepingTasks := congrFun hsame (.sleeping c')
    rw [hlist]
    exact h.heap c'
  · exact k.forall_setSched h.kinds hkinds

theorem slot_of_off {s : Slot} {d : CpuSchedData}
    (hoff : ∀ u : Slot, u.core = c → u ≠ s → u.content d = u.content (k.cpuSchedulers c)) (u : Slot)
    (hu : u ≠ s) : (k.setSched c d).slot u = k.slot u := by
  by_cases huc : u.core = c
  · rw [k.slot_setSched d huc, hoff u huc hu, Kernel.slot, huc]
  · exact k.slot_setSched_ne d huc

theorem insert (h : Placed k loc) {s : Slot} {d : CpuSchedData} (hs : s.core = c)
    (hp : loc p = none) (ht : k.tasks p = some t) (hag : s.Agrees t)
    (hin : (s.content d).Perm (p :: s.content (k.cpuSchedulers c)))
    (hoff : ∀ u : Slot, u.core = c → u ≠ s → u.content d = u.content (k.cpuSchedulers c))
    (hheap : IsHeap k.wakesLater d.sleepingTasks) (hkinds : d.Kinds) :
    Placed (k.setSched c d) (Function.update loc p (some s)) := by
  refine ⟨?_, ?_, ?_, ?_⟩
  · refine h.located.insert hp ?_ (slot_of_off hoff)
    rw [k.slot_setSched d hs, Kernel.slot, hs]
    exact hin
  · intro q u hq
    by_cases hqp : q = p
    · subst hqp
      rw [Function.update_self] at hq
      cases hq
      exact ⟨t, ht, hag⟩
    · rw [Function.update_of_ne hqp] at hq
      exact h.agrees q u hq
  · exact k.forall_setSched (D := fun d => IsHeap k.wakesLater d.sleepingTasks) h.heap hheap
  · exact k.forall_setSched h.kinds hkinds

theorem remove (h : Placed k loc) {s : Slot} {d : CpuSchedData} (hs : s.core = c)
    (hout : (s.content (k.cpuSchedulers c)).Perm (p :: s.content d))
    (hoff : ∀ u : Slot, u.core = c → u ≠ s → u.content d = u.content (k.cpuSchedulers c))
    (hheap : IsHeap k.wakesLater d.sleepingTasks) (hkinds : d.Kinds) :
    Placed (k.setSched c d) (Function.update loc p none) := by
  refine ⟨?_, ?_, ?_, ?_⟩
  · refine Located.remove (s := s) h.located ?_ (slot_of_off hoff)
    rw [k.slot_setSched d hs, Kernel.slot, hs]
    exact hout
  · intro q u hq
    by_cases hqp : q = p
    · subst hqp
      rw [Function.update_self] at hq
      cases hq
    · rw [Function.update_of_ne hqp] at hq
      exact h.agrees q u hq
  · exact k.forall_setSched (D := fun d => IsHeap k.wakesLater d.sleepingTasks) h.heap hheap
  · exact k.forall_setSched h.kinds hkinds

end Placed

namespace CpuSchedData

variable {d : CpuSchedData} {policy : SchedPolicy} {s s' : Scheduler}

theorem Kinds.setScheduler (h : d.Kinds) (hs : d.schedulers policy = some s)
    (hidle : s'.isIdle = s.isIdle) : (d.setScheduler policy s').Kinds := by
  intro policy' s'' hs''
  by_cases hp : policy' = policy
  · subst hp
    rw [schedulers_setScheduler_self] at hs''
    cases hs''
    rw [hidle]
    exact h policy' s hs
  · rw [schedulers_setScheduler_ne d s' hp] at hs''
    exact h policy' s'' hs''

theorem content_setScheduler_self (d : CpuSchedData) (policy : SchedPolicy) (s : Scheduler)
    (c : CoreId) : (Slot.ready c policy).content (d.setScheduler policy s) = s.queue := by
  simp [Slot.content]

theorem content_setScheduler_ne (d : CpuSchedData) (s : Scheduler) {u : Slot}
    (h : u ≠ .ready u.core policy) : u.content (d.setScheduler policy s) = u.content d := by
  cases u with
  | ready c policy' =>
    have hp : policy' ≠ policy := by
      rintro rfl
      exact h rfl
    rw [Slot.content, Slot.content, schedulers_setScheduler_ne d s hp]
  | sleeping | blocked => rfl

theorem content_ready (hs : d.schedulers policy = some s) (c : CoreId) :
    (Slot.ready c policy).content d = s.queue := by
  rw [Slot.content, hs]

theorem content_setBlocked_self (d : CpuSchedData) (r : ResourceId) (l : Option (List Ptr))
    (c : CoreId) : (Slot.blocked c r).content (d.setBlocked r l) = l.getD [] := by
  simp [Slot.content]

theorem content_setBlocked_ne (d : CpuSchedData) {r : ResourceId} (l : Option (List Ptr))
    {u : Slot} (h : u ≠ .blocked u.core r) : u.content (d.setBlocked r l) = u.content d := by
  cases u with
  | ready | sleeping => rfl
  | blocked c r' =>
    have hr : r' ≠ r := by
      rintro rfl
      exact h rfl
    rw [Slot.content, Slot.content, blockedTasks_setBlocked_ne d l hr]

end CpuSchedData

namespace Placed

open CpuSchedData

variable {policy : SchedPolicy} {s s' : Scheduler}

theorem setScheduler (h : Placed k loc) (hs : (k.cpuSchedulers c).schedulers policy = some s)
    (hq : s'.queue = s.queue) (hi : s'.isIdle = s.isIdle) :
    Placed (k.setSched c ((k.cpuSchedulers c).setScheduler policy s')) loc := by
  refine h.setSched ?_ ((h.kinds c).setScheduler hs hi)
  intro u hu
  by_cases hr : u = .ready u.core policy
  · rw [hr, content_setScheduler_self, content_ready hs, hq]
  · exact content_setScheduler_ne _ _ hr

theorem enqueue (h : Placed k loc) (hs : (k.cpuSchedulers c).schedulers policy = some s)
    (hi : s.isIdle = false) (hp : loc p = none) (ht : k.tasks p = some t)
    (hready : t.status = .kReady) (hpol : t.policy = policy) :
    Placed (k.setSched c ((k.cpuSchedulers c).setScheduler policy (s.enqueue p)))
      (Function.update loc p (some (.ready c policy))) := by
  refine h.insert (s := .ready c policy) rfl hp ht ⟨hready, hpol⟩ ?_ ?_ (h.heap c)
    ((h.kinds c).setScheduler hs (s.isIdle_enqueue p))
  · rw [content_setScheduler_self, content_ready hs, Scheduler.queue_enqueue hi]
    exact List.perm_append_singleton p _
  · intro u hu hne
    exact content_setScheduler_ne _ _ (fun he => hne (by rw [he, hu]))

theorem pick (h : Placed k loc) (hs : (k.cpuSchedulers c).schedulers policy = some s)
    {q : List Ptr} (hq : s.queue = p :: q) (hq' : s'.queue = q) (hi : s'.isIdle = s.isIdle) :
    Placed (k.setSched c ((k.cpuSchedulers c).setScheduler policy s'))
      (Function.update loc p none) := by
  refine h.remove (s := .ready c policy) rfl ?_ ?_ (h.heap c) ((h.kinds c).setScheduler hs hi)
  · rw [content_setScheduler_self, content_ready hs, hq, hq']
  · intro u hu hne
    exact content_setScheduler_ne _ _ (fun he => hne (by rw [he, hu]))

theorem block (h : Placed k loc) {r : ResourceId} (hp : loc p = none) (ht : k.tasks p = some t)
    (hstatus : t.status = .kBlocked) (hr : t.blockedOn = r) :
    Placed (k.setSched c ((k.cpuSchedulers c).setBlocked r
      (some (((k.cpuSchedulers c).blockedTasks r).getD [] ++ [p]))))
      (Function.update loc p (some (.blocked c r))) := by
  refine h.insert (s := .blocked c r) rfl hp ht ⟨hstatus, hr⟩ ?_ ?_ (h.heap c) (h.kinds c)
  · rw [content_setBlocked_self]
    exact List.perm_append_singleton p _
  · intro u hu hne
    exact content_setBlocked_ne _ _ (fun he => hne (by rw [he, hu]))

theorem unblock (h : Placed k loc) {r : ResourceId} {rest : List Ptr}
    (hl : (k.cpuSchedulers c).blockedTasks r = some (p :: rest)) :
    Placed (k.setSched c ((k.cpuSchedulers c).setBlocked r (some rest)))
      (Function.update loc p none) := by
  refine h.remove (s := .blocked c r) rfl ?_ ?_ (h.heap c) (h.kinds c)
  · rw [content_setBlocked_self, Slot.content, hl]
    exact List.Perm.refl _
  · intro u hu hne
    exact content_setBlocked_ne _ _ (fun he => hne (by rw [he, hu]))

theorem eraseBlocked (h : Placed k loc) {r : ResourceId}
    (hl : ((k.cpuSchedulers c).blockedTasks r).getD [] = []) :
    Placed (k.setSched c ((k.cpuSchedulers c).setBlocked r none)) loc := by
  refine h.setSched ?_ (h.kinds c)
  intro u hu
  by_cases hr : u = .blocked u.core r
  · rw [hr, content_setBlocked_self, Slot.content, hl]
    rfl
  · exact content_setBlocked_ne _ _ hr

variable (H : HeapAlgorithms Ptr)

theorem content_sleeping_ne {d : CpuSchedData} {l : List Ptr} {u : Slot}
    (h : u ≠ .sleeping u.core) : u.content { d with sleepingTasks := l } = u.content d := by
  cases u with
  | ready c policy => rfl
  | sleeping c => exact absurd rfl h
  | blocked c r => rfl

theorem sleep (h : Placed k loc) (hp : loc p = none) (ht : k.tasks p = some t)
    (hstatus : t.status = .kSleeping) :
    Placed (k.setSched c { k.cpuSchedulers c with
      sleepingTasks := H.push k.wakesLater (k.cpuSchedulers c).sleepingTasks p })
      (Function.update loc p (some (.sleeping c))) := by
  refine h.insert (s := .sleeping c) rfl hp ht hstatus ?_ ?_ ?_ (h.kinds c)
  · exact H.push_perm _ p k.wakesLater_strict (h.heap c)
  · intro u hu hne
    exact content_sleeping_ne (fun he => hne (by rw [he, hu]))
  · exact H.pushHeap_heap _ _ p k.wakesLater_strict (h.heap c)

theorem wake (h : Placed k loc) {l : List Ptr}
    (hl : (k.cpuSchedulers c).sleepingTasks = p :: l) :
    Placed (k.setSched c { k.cpuSchedulers c with
      sleepingTasks := H.pop k.wakesLater (k.cpuSchedulers c).sleepingTasks })
      (Function.update loc p none) := by
  have hheap := h.heap c
  rw [hl] at hheap
  refine h.remove (s := .sleeping c) rfl ?_ ?_ ?_ (h.kinds c)
  · rw [Slot.content, Slot.content, hl]
    exact H.pop_perm _ k.wakesLater_strict hheap
  · intro u hu hne
    exact content_sleeping_ne (fun he => hne (by rw [he, hu]))
  · exact H.pop_heap _ k.wakesLater_strict (h.heap c)

end Placed

end NaiLongKernel.Task
