import NaiLongKernel.Task.Arrival

/-!
# Waiting for a resource on one core

When all tasks wait on one core, the tasks that are blocked on a resource are those in
its queue. Scheduling, ticks and waiting for anything else block no further task on it,
and `Wakeup` leaves none.
-/
namespace NaiLongKernel.Task

open Foundation

variable {k k' : Kernel} {loc loc' : Ptr → Option Slot} {p : Ptr} {t : TaskControlBlock}
  {c : CoreId} {B : Set CoreId} {r : ResourceId} {W : Set Ptr}

def Kernel.BlockedOn (k : Kernel) (r : ResourceId) (p : Ptr) : Prop :=
  ∃ t, k.tasks p = some t ∧ t.status = .kBlocked ∧ t.blockedOn = r

instance (k : Kernel) (r : ResourceId) (p : Ptr) : Decidable (k.BlockedOn r p) :=
  match h : k.tasks p with
  | some t => decidable_of_iff (t.status = .kBlocked ∧ t.blockedOn = r) (by
      simp [Kernel.BlockedOn, h])
  | none => isFalse (by simp [Kernel.BlockedOn, h])

/-- `task->pid`. -/
def Kernel.pidOf (k : Kernel) (p : Ptr) : Pid :=
  match k.tasks p with
  | some t => t.pid
  | none => 0

/-- All queues in use are those of core `c`, and a blocked task is in one of them. -/
structure Hosted (c : CoreId) (k : Kernel) (loc : Ptr → Option Slot) : Prop where
  placed : ∀ p t, k.tasks p = some t → t.status = .kBlocked → ∃ s, loc p = some s
  core : ∀ p s, loc p = some s → s.core = c

theorem Hosted.loc_of_blockedOn (h : Hosted c k loc) (hp : Placed k loc) (hb : k.BlockedOn r p) :
    loc p = some (.blocked c r) := by
  rcases hb with ⟨t, ht, hst, hr⟩
  rcases h.placed p t ht hst with ⟨s, hs⟩
  rcases hp.agrees p s hs with ⟨u, hu, hag⟩
  obtain rfl := Option.mem_unique ht hu
  have hcore := h.core p s hs
  cases s with
  | ready c' policy => cases hst.symm.trans hag.1
  | sleeping c' => cases hst.symm.trans hag
  | blocked c' r' =>
    obtain rfl : c' = c := hcore
    obtain rfl : t.blockedOn = r' := hag.2
    rw [hs, hr]

theorem Placed.blockedOn_of_loc (h : Placed k loc) (hl : loc p = some (.blocked c r)) :
    k.BlockedOn r p := by
  rcases h.agrees p _ hl with ⟨t, ht, hst, hr⟩
  exact ⟨t, ht, hst, hr⟩

namespace Hosted

theorem scheduled {current next : Ptr} (h : Hosted c k loc) (ht : k.tasks current = some t)
    (hs : Scheduled c current t next k loc k' loc') : Hosted c k' loc' := by
  refine ⟨?_, hs.core h.core⟩
  intro q u hu hst
  obtain ⟨v, hv, hstatus, hloc⟩ := hs.of_waiting ht hu (by rw [hst]; nofun) (by rw [hst]; nofun)
  rw [hloc]
  exact h.placed q v hv (hstatus.trans hst)

theorem awakened {s : Slot} (h : Hosted c k loc) (hc : s.core = c)
    (ha : Awakened s k loc k' loc') : Hosted c k' loc' := by
  subst hc
  refine ⟨?_, ?_⟩
  · intro q u hu hst
    by_cases hs : loc q = some s
    · by_cases hs' : loc' q = some s
      · exact ⟨s, hs'⟩
      · rcases ha.woken q hs hs' with ⟨v, hv, hr⟩
        rw [Option.mem_unique hu hv, hr] at hst
        cases hst
    · rw [ha.only.tasks q hs] at hu
      rcases ha.moved q with he | ⟨hl, -⟩
      · rw [he]
        exact h.placed q u hu hst
      · exact absurd hl hs
  · intro q s' hq
    rcases ha.moved q with he | ⟨-, v, -, he⟩
    · exact h.core q s' (he ▸ hq)
    · rw [he] at hq
      cases Kernel.ready_of_home hq
      rfl

theorem charged (h : Hosted c k loc) (hch : Charged c loc k k') : Hosted c k' loc := by
  refine ⟨?_, h.core⟩
  intro q u hu hst
  rcases hch.only.back hu with ⟨v, hv, -⟩
  rcases hch.status q v hv with ⟨u', hu', he⟩
  rw [Option.mem_unique hu hu', he] at hst
  exact h.placed q v hv hst

theorem suspended {s : Slot} (h : Hosted c k loc) (hc : s.core = c)
    (hs : Suspended p s k loc k' loc') : Hosted c k' loc' := by
  refine ⟨?_, ?_⟩
  · intro q u hu hst
    by_cases hq : q = p
    · rw [hq]
      exact ⟨s, hs.loc_self⟩
    · rw [hs.only.tasks q hq] at hu
      rw [hs.loc_ne q hq]
      exact h.placed q u hu hst
  · intro q s' hq
    by_cases hqp : q = p
    · rw [hqp, hs.loc_self] at hq
      cases hq
      exact hc
    · rw [hs.loc_ne q hqp] at hq
      exact h.core q s' hq

theorem added (h : Hosted c (k.setTask p t) loc) (ha : Added B c p t (k.setTask p t) loc k' loc') :
    Hosted c k' loc' := by
  refine ⟨?_, ?_⟩
  · intro q u hu hst
    by_cases hq : q = p
    · subst hq
      rcases ha.task with ⟨v, hv, hr, -⟩
      rw [Option.mem_unique hu hv, hr] at hst
      cases hst
    · rw [ha.tasks_ne q hq] at hu
      rw [ha.loc_ne q hq]
      exact h.placed q u hu hst
  · intro q s hq
    by_cases hqp : q = p
    · subst hqp
      rw [ha.loc_self] at hq
      cases Kernel.ready_of_home hq
      rfl
    · rw [ha.loc_ne q hqp] at hq
      exact h.core q s hq

end Hosted

/-- On core `c` only tasks of `W` are queued for `r`. -/
structure Waits (c : CoreId) (r : ResourceId) (W : Set Ptr) (k : Kernel)
    (loc : Ptr → Option Slot) : Prop extends Hosted c k loc where
  only : ∀ p, loc p = some (.blocked c r) → p ∈ W

namespace Waits

theorem scheduled {current next : Ptr} (h : Waits c r W k loc) (ht : k.tasks current = some t)
    (hs : Scheduled c current t next k loc k' loc') : Waits c r W k' loc' := by
  refine { h.toHosted.scheduled ht hs with only := ?_ }
  intro q hq
  exact h.only q ((hs.loc_cases hq).resolve_right nofun)

theorem awakened {s : Slot} (h : Waits c r W k loc) (hc : s.core = c)
    (ha : Awakened s k loc k' loc') : Waits c r W k' loc' := by
  refine { h.toHosted.awakened hc ha with only := ?_ }
  intro q hq
  rcases ha.moved q with he | ⟨-, v, -, he⟩
  · exact h.only q (he ▸ hq)
  · rw [he] at hq
    cases Kernel.ready_of_home hq

theorem suspended {s : Slot} (h : Waits c r W k loc) (hc : s.core = c) (hne : s ≠ .blocked c r)
    (hs : Suspended p s k loc k' loc') : Waits c r W k' loc' := by
  refine { h.toHosted.suspended hc hs with only := ?_ }
  intro q hq
  by_cases hqp : q = p
  · rw [hqp, hs.loc_self] at hq
    exact absurd (Option.some.inj hq) hne
  · exact h.only q (by rw [← hs.loc_ne q hqp, hq])

/-- Nothing but `Block` on `r` queues a task for `r`. -/
theorem closed (c : CoreId) (r : ResourceId) (W : Set Ptr) :
    Closed c {s | s ≠ .blocked c r} (Waits c r W) (fun _ _ => True) where
  scheduled _ h _ ht hs := h.scheduled ht hs
  awakened hc _ h ha := h.awakened hc ha
  charged h hch := { h.toHosted.charged hch with only := h.only }
  suspended hS hc h _ _ hs := h.suspended hc hS hs
  parked _ _ _ := trivial
  diverges _ _ _ _ _ _ _ _ := trivial
  noScheduler _ _ _ := trivial

end Waits

theorem Hosted.waits (h : Hosted c k loc) (hp : Placed k loc) (r : ResourceId) :
    Waits c r {p | k.BlockedOn r p} k loc :=
  { h with only := fun _ hl => hp.blockedOn_of_loc hl }

/-- The tasks blocked on `r` were blocked on it before. -/
theorem Waits.blockedOn (h : Waits c r W k loc) (hp : Placed k loc) (hb : k.BlockedOn r p) :
    p ∈ W := h.only p (h.loc_of_blockedOn hp hb)

end NaiLongKernel.Task
