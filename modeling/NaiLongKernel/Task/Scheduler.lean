import NaiLongKernel.Task.ControlBlock

/-!
# The installed schedulers

`InitCurrentCore` installs a FIFO, a round-robin and an idle scheduler. The first two
hold a queue; the idle scheduler holds one task, which `PickNext` returns without
taking it out.
-/
namespace NaiLongKernel.Task

structure Stats where
  totalEnqueues : BitVec 64 := 0
  totalDequeues : BitVec 64 := 0
  totalPicks : BitVec 64 := 0
  totalPreemptions : BitVec 64 := 0
deriving DecidableEq, Repr

inductive Scheduler where
  | fifo (readyQueue : List Ptr) (stats : Stats)
  | roundRobin (readyQueue : List Ptr) (stats : Stats)
  | idle (idleTask : Option Ptr) (stats : Stats)
deriving DecidableEq, Repr

namespace Scheduler

/-- The queue of a scheduler that has one. -/
def queue : Scheduler → List Ptr
  | fifo q _ => q
  | roundRobin q _ => q
  | idle _ _ => []

/-- The task that an idle scheduler holds. -/
def held : Scheduler → Option Ptr
  | idle slot _ => slot
  | _ => none

def isIdle : Scheduler → Bool
  | idle _ _ => true
  | _ => false

def enqueue (task : Ptr) : Scheduler → Scheduler
  | fifo q st => fifo (q ++ [task]) { st with totalEnqueues := st.totalEnqueues + 1 }
  | roundRobin q st => roundRobin (q ++ [task]) { st with totalEnqueues := st.totalEnqueues + 1 }
  | idle _ st => idle (some task) { st with totalEnqueues := st.totalEnqueues + 1 }

/-- What `Enqueue` does to the task, if it touches it. -/
def onEnqueue : Scheduler → Option (TaskControlBlock → TaskControlBlock)
  | roundRobin _ _ => some TaskControlBlock.resetSlice
  | _ => none

/-- The FIFO queue drops every occurrence and counts a dequeue in any case; the
round-robin queue drops the first one, and counts only when it is there. -/
def dequeue (task : Ptr) : Scheduler → Scheduler
  | fifo q st => fifo (q.filter (· != task)) { st with totalDequeues := st.totalDequeues + 1 }
  | roundRobin q st =>
    if task ∈ q then
      roundRobin (q.erase task) { st with totalDequeues := st.totalDequeues + 1 }
    else roundRobin q st
  | idle slot st =>
    if slot = some task then idle none { st with totalDequeues := st.totalDequeues + 1 }
    else idle slot st

def pickNext : Scheduler → Option Ptr × Scheduler
  | fifo [] st => (none, fifo [] st)
  | fifo (p :: q) st => (some p, fifo q { st with totalPicks := st.totalPicks + 1 })
  | roundRobin [] st => (none, roundRobin [] st)
  | roundRobin (p :: q) st => (some p, roundRobin q { st with totalPicks := st.totalPicks + 1 })
  | idle none st => (none, idle none st)
  | idle (some p) st => (some p, idle (some p) { st with totalPicks := st.totalPicks + 1 })

def isEmpty : Scheduler → Bool
  | fifo q _ => q.isEmpty
  | roundRobin q _ => q.isEmpty
  | idle slot _ => slot.isNone

def onTick (_ : TaskControlBlock) : Scheduler → Bool
  | _ => false

/-- Whether the task goes back into the queue. -/
def onTimeSliceExpired : Scheduler → Bool
  | fifo _ _ => true
  | roundRobin _ _ => true
  | idle _ _ => false

/-- What `OnTimeSliceExpired` does to the task, if it touches it. -/
def onExpired : Scheduler → Option (TaskControlBlock → TaskControlBlock)
  | roundRobin _ _ => some TaskControlBlock.resetSlice
  | _ => none

def onPreempted : Scheduler → Scheduler
  | fifo q st => fifo q { st with totalPreemptions := st.totalPreemptions + 1 }
  | roundRobin q st => roundRobin q { st with totalPreemptions := st.totalPreemptions + 1 }
  | idle slot st => idle slot { st with totalPreemptions := st.totalPreemptions + 1 }

section Queue

variable (s : Scheduler) (p : Ptr)

@[simp] theorem isIdle_enqueue : (s.enqueue p).isIdle = s.isIdle := by cases s <;> rfl

@[simp] theorem isIdle_dequeue : (s.dequeue p).isIdle = s.isIdle := by
  cases s with
  | fifo q st => rfl
  | roundRobin | idle => rw [dequeue]; split <;> rfl

@[simp] theorem isIdle_pickNext : s.pickNext.2.isIdle = s.isIdle := by
  rcases s with (_ | _) | (_ | _) | (_ | _) <;> rfl

@[simp] theorem isIdle_onPreempted : s.onPreempted.isIdle = s.isIdle := by cases s <;> rfl

@[simp] theorem queue_onPreempted : s.onPreempted.queue = s.queue := by cases s <;> rfl

@[simp] theorem held_onPreempted : s.onPreempted.held = s.held := by cases s <;> rfl

theorem onEnqueue_cases : s.onEnqueue = none ∨ s.onEnqueue = some TaskControlBlock.resetSlice := by
  cases s <;> simp [onEnqueue]

theorem onExpired_cases : s.onExpired = none ∨ s.onExpired = some TaskControlBlock.resetSlice := by
  cases s <;> simp [onExpired]

theorem onTimeSliceExpired_eq : s.onTimeSliceExpired = !s.isIdle := by cases s <;> rfl

variable {s p}

theorem queue_of_isIdle (h : s.isIdle = true) : s.queue = [] := by
  cases s <;> first | rfl | cases h

theorem held_of_not_isIdle (h : s.isIdle = false) : s.held = none := by
  cases s <;> first | rfl | cases h

theorem queue_enqueue (h : s.isIdle = false) : (s.enqueue p).queue = s.queue ++ [p] := by
  cases s <;> first | rfl | cases h

theorem held_enqueue (h : s.isIdle = true) : (s.enqueue p).held = some p := by
  cases s <;> first | rfl | cases h

theorem queue_dequeue_of_not_mem (h : p ∉ s.queue) : (s.dequeue p).queue = s.queue := by
  cases s with
  | fifo q st =>
    apply List.filter_eq_self.mpr
    intro x hx
    have hxp : x ≠ p := fun he => h (he ▸ hx)
    simpa using hxp
  | roundRobin q st =>
    have hq : p ∉ q := h
    rw [dequeue, if_neg hq]
  | idle slot st =>
    rw [dequeue]
    split <;> rfl

theorem held_dequeue : (s.dequeue p).held = if s.held = some p then none else s.held := by
  cases s with
  | fifo _ _ => rfl
  | roundRobin _ _ =>
    rw [dequeue]
    split <;> rfl
  | idle slot st =>
    rw [dequeue, held]
    split <;> rfl

theorem isEmpty_eq_false_iff : s.isEmpty = false ↔ s.queue ≠ [] ∨ s.held ≠ none := by
  rcases s with (_ | _) | (_ | _) | (_ | _) <;> simp [isEmpty, queue, held]

theorem pickNext_cases (h : s.isEmpty = false) :
    (∃ p q, s.isIdle = false ∧ s.queue = p :: q ∧ s.pickNext.1 = some p ∧
      s.pickNext.2.queue = q) ∨
    (∃ p, s.isIdle = true ∧ s.held = some p ∧ s.pickNext.1 = some p ∧
      s.pickNext.2.held = some p) := by
  rcases s with (_ | ⟨p, q⟩) | (_ | ⟨p, q⟩) | (_ | p)
  · cases h
  · exact Or.inl ⟨p, q, rfl, rfl, rfl, rfl⟩
  · cases h
  · exact Or.inl ⟨p, q, rfl, rfl, rfl, rfl⟩
  · cases h
  · exact Or.inr ⟨p, rfl, rfl, rfl, rfl⟩

end Queue

end Scheduler

end NaiLongKernel.Task
