import NaiLongKernel.Task.CfsQueue

/-!
# Statistics and queues

The counters of a scheduler say how many tasks were put into its queue and how many were taken
out. `Dequeue` counts one task, whether the FIFO queue held it once, more often or not at all;
the fair scheduler counts one for all that it takes out, and the round-robin scheduler takes out
what it counts.
-/
namespace NaiLongKernel.Task

open Foundation CfsScheduler

namespace Stats

/-- The counters account for what is queued, in 64 bits. -/
def Balances (st : Stats) (size : ℕ) : Prop :=
  st.totalEnqueues - st.totalDequeues - st.totalPicks = BitVec.ofNat 64 size

instance (st : Stats) (size : ℕ) : Decidable (st.Balances size) := by
  unfold Balances
  infer_instance

variable {st : Stats} {size : ℕ}

theorem Balances.enqueued (h : st.Balances size) :
    Balances { st with totalEnqueues := st.totalEnqueues + 1 } (size + 1) := by
  unfold Balances at *
  simp only
  bv_omega

theorem Balances.dequeued (h : st.Balances (size + 1)) :
    Balances { st with totalDequeues := st.totalDequeues + 1 } size := by
  unfold Balances at *
  simp only
  bv_omega

theorem Balances.picked (h : st.Balances (size + 1)) :
    Balances { st with totalPicks := st.totalPicks + 1 } size := by
  unfold Balances at *
  simp only
  bv_omega

end Stats

/-- The operations on a queue, with tasks that are not null. -/
inductive QueueOp where
  | enqueue (task : Ptr)
  | dequeue (task : Ptr)
  | pickNext

namespace Scheduler

def stats : Scheduler → Stats
  | fifo _ st => st
  | roundRobin _ st => st
  | idle _ st => st

def step (s : Scheduler) : QueueOp → Option Scheduler
  | .enqueue task => some (s.enqueue task)
  | .dequeue task => some (s.dequeue task)
  | .pickNext => some s.pickNext.2

/-- The FIFO queue holds a task that is dequeued exactly once. -/
def HeldOnce (s : Scheduler) : QueueOp → Prop
  | .dequeue task => s.queue.count task = 1
  | _ => True

instance (s : Scheduler) : DecidablePred s.HeldOnce := fun op => by
  cases op <;> (unfold HeldOnce; infer_instance)

/-- The counters of the scheduler account for its queue. -/
def Balanced (s : Scheduler) : Prop := s.stats.Balances s.queue.length

instance (s : Scheduler) : Decidable s.Balanced := by
  unfold Balanced
  infer_instance

variable {q : List Ptr} {st : Stats} {s s' : Scheduler} {op : QueueOp}

theorem length_filter_ne_add_count (q : List Ptr) (t : Ptr) :
    (q.filter (· != t)).length + q.count t = q.length := by
  rw [List.count, ← List.countP_eq_length_filter, List.length_eq_countP_add_countP (· != t),
    Nat.add_right_inj]
  refine List.countP_congr fun x _ => ?_
  simp

theorem step_fifo (hs : (fifo q st).Balanced) (hop : (fifo q st).HeldOnce op)
    (hstep : (fifo q st).step op = some s') : s'.Balanced ∧ ∃ q' st', s' = fifo q' st' := by
  cases op with
  | enqueue t =>
    obtain ⟨rfl⟩ := hstep
    refine ⟨?_, _, _, rfl⟩
    simpa [Balanced, enqueue, stats, queue] using hs.enqueued
  | dequeue t =>
    obtain ⟨rfl⟩ := hstep
    refine ⟨?_, _, _, rfl⟩
    have hlen := length_filter_ne_add_count q t
    have hcount : q.count t = 1 := hop
    rw [hcount] at hlen
    have hbal : st.Balances ((q.filter (· != t)).length + 1) := hlen ▸ hs
    exact hbal.dequeued
  | pickNext =>
    obtain ⟨rfl⟩ := hstep
    cases q with
    | nil => exact ⟨hs, _, _, rfl⟩
    | cons p q => exact ⟨hs.picked, _, _, rfl⟩

theorem step_roundRobin (hs : (roundRobin q st).Balanced)
    (hstep : (roundRobin q st).step op = some s') :
    s'.Balanced ∧ ∃ q' st', s' = roundRobin q' st' := by
  cases op with
  | enqueue t =>
    obtain ⟨rfl⟩ := hstep
    refine ⟨?_, _, _, rfl⟩
    simpa [Balanced, enqueue, stats, queue] using hs.enqueued
  | dequeue t =>
    obtain ⟨rfl⟩ := hstep
    rw [dequeue]
    split
    · rename_i ht
      refine ⟨?_, _, _, rfl⟩
      have hlen : (q.erase t).length + 1 = q.length := List.length_erase_add_one ht
      have hbal : st.Balances ((q.erase t).length + 1) := hlen ▸ hs
      exact hbal.dequeued
    · exact ⟨hs, _, _, rfl⟩
  | pickNext =>
    obtain ⟨rfl⟩ := hstep
    cases q with
    | nil => exact ⟨hs, _, _, rfl⟩
    | cons p q => exact ⟨hs.picked, _, _, rfl⟩

theorem balanced_fifo (h : Reached step HeldOnce (fifo [] {}) s) : s.Balanced := by
  have hinv : s.Balanced ∧ ∃ q st, s = fifo q st := by
    refine h.invariant (I := fun s => s.Balanced ∧ ∃ q st, s = fifo q st)
      ⟨by decide, _, _, rfl⟩ ?_
    rintro _ op s' ⟨hs, q, st, rfl⟩ hop hstep
    exact step_fifo hs hop hstep
  exact hinv.1

theorem balanced_roundRobin (h : Reached step (fun _ _ => True) (roundRobin [] {}) s) :
    s.Balanced := by
  have hinv : s.Balanced ∧ ∃ q st, s = roundRobin q st := by
    refine h.invariant (I := fun s => s.Balanced ∧ ∃ q st, s = roundRobin q st)
      ⟨by decide, _, _, rfl⟩ ?_
    rintro _ op s' ⟨hs, q, st, rfl⟩ _ hstep
    exact step_roundRobin hs hstep
  exact hinv.1

end Scheduler

namespace CfsState

/-- The counters of the fair scheduler account for its heap. -/
def Balanced (s : CfsState) : Prop := s.sched.stats.Balances s.sched.readyQueue.length

instance (s : CfsState) : Decidable s.Balanced := by
  unfold Balanced
  infer_instance

/-- The heap holds a task that is dequeued at most once, and the `vruntime` of a queued task is
left alone. A task may be enqueued more than once. -/
def HeldOnce (s : CfsState) : CfsOp → Prop
  | .dequeue (some task) => s.sched.readyQueue.count task ≤ 1
  | .onTick current => current ∉ s.sched.readyQueue
  | .outside cfs => ∀ p ∈ s.sched.readyQueue, (cfs p).vruntime = (s.cfs p).vruntime
  | _ => True

/-- A task that is enqueued again keeps its `vruntime`: with a queued task at 0, so is
`min_vruntime_`. -/
structure Heaped (s : CfsState) : Prop where
  heap : IsHeap (vruntimeCompare s.cfs) s.sched.readyQueue
  zero : ∀ p ∈ s.sched.readyQueue, (s.cfs p).vruntime = 0 → s.sched.minVruntime = 0
  balanced : s.Balanced

variable {H : HeapAlgorithms Ptr} {s : CfsState} {op : CfsOp}

theorem vruntime_legalise {d : CfsData} {m : BitVec 64} (h : d.vruntime = 0 → m = 0) :
    (legalise m d).vruntime = d.vruntime := by
  rw [legalise]
  split
  · rename_i h0
    exact (h h0).trans h0.symm
  · rfl

/-- Only the `vruntime` of the queued tasks matters. -/
theorem heap_of_vruntime {cfs : Ptr → CfsData} (h : s.Heaped)
    (hcfs : ∀ p ∈ s.sched.readyQueue, (cfs p).vruntime = (s.cfs p).vruntime) :
    IsHeap (vruntimeCompare cfs) s.sched.readyQueue := by
  refine h.heap.congr fun a ha b hb => ?_
  simp only [vruntimeCompare, hcfs a ha, hcfs b hb]

theorem Heaped.enqueue (h : s.Heaped) (t : Ptr) : (CfsScheduler.enqueue H t s).Heaped := by
  let cfs := Function.update s.cfs t (legalise s.sched.minVruntime (s.cfs t))
  have hcfs : ∀ p ∈ s.sched.readyQueue, (cfs p).vruntime = (s.cfs p).vruntime := by
    intro p hp
    by_cases hpt : p = t
    · subst hpt
      simp only [cfs, Function.update_self]
      exact vruntime_legalise (h.zero p hp)
    · simp only [cfs, Function.update_of_ne hpt]
  have hheap := heap_of_vruntime h hcfs
  have hperm : (CfsScheduler.enqueue H t s).sched.readyQueue.Perm (t :: s.sched.readyQueue) :=
    H.push_perm _ t (vruntimeCompare_strict _) hheap
  refine ⟨H.push_heap _ t (vruntimeCompare_strict _) hheap, ?_, ?_⟩
  · intro p hp h0
    rcases List.mem_cons.mp (hperm.mem_iff.mp hp) with rfl | hp
    · -- the task itself: it is at 0 only if it was given `min_vruntime_`
      simp only [CfsScheduler.enqueue, Function.update_self, legalise] at h0
      split at h0
      · exact h0
      · rename_i hne
        exact absurd h0 hne
    · exact h.zero p hp ((hcfs p hp).symm.trans h0)
  · have hlen : (CfsScheduler.enqueue H t s).sched.readyQueue.length =
        s.sched.readyQueue.length + 1 := by simpa using hperm.length_eq
    rw [Balanced, hlen]
    exact h.balanced.enqueued

theorem Heaped.dequeue (h : s.Heaped) {t : Ptr} (ht : s.sched.readyQueue.count t ≤ 1) :
    (CfsScheduler.dequeue H t s).Heaped := by
  obtain ⟨hheap, hperm⟩ := readyQueue_dequeue h.heap H t
  refine ⟨hheap, ?_, ?_⟩
  · intro p hp
    exact h.zero p (List.mem_filter.mp (hperm.mem_iff.mp hp)).1
  · have hlen := Scheduler.length_filter_ne_add_count s.sched.readyQueue t
    have hsame : (s.sched.readyQueue.filter (· ≠ t)) = s.sched.readyQueue.filter (· != t) := by
      simp [bne, beq_eq_decide]
    rw [Balanced, stats_dequeue h.heap, hperm.length_eq, hsame]
    by_cases hmem : t ∈ s.sched.readyQueue
    · have hpos := List.count_pos_iff.mpr hmem
      have hbal : s.sched.stats.Balances
          ((s.sched.readyQueue.filter (· != t)).length + 1) := by
        have : (s.sched.readyQueue.filter (· != t)).length + 1 = s.sched.readyQueue.length := by
          omega
        exact this ▸ h.balanced
      rw [if_pos hmem]
      exact hbal.dequeued
    · rw [if_neg hmem]
      rw [List.count_eq_zero_of_not_mem hmem, Nat.add_zero] at hlen
      exact hlen ▸ h.balanced

theorem Heaped.pickNext (h : s.Heaped) : (CfsScheduler.pickNext H s).2.Heaped := by
  cases hq : s.sched.readyQueue with
  | nil =>
    rw [pickNext_nil hq]
    exact h
  | cons next rest =>
    obtain ⟨s', hpick, hcfs, hperm, hheap, -, -, htop⟩ := pickNext_spec (H := H) h.heap hq
    have hstats : (CfsScheduler.pickNext H s).2.sched.stats =
        { s.sched.stats with totalPicks := s.sched.stats.totalPicks + 1 } := by
      simp only [CfsScheduler.pickNext, hq]
    rw [hpick] at hstats ⊢
    refine ⟨by rwa [hcfs], ?_, ?_⟩
    · intro p hp h0
      have hp := hperm.mem_iff.mp hp
      obtain ⟨top, -, hmin, hleast⟩ := htop (List.ne_nil_of_mem hp)
      have hle := hleast p hp
      rw [hcfs] at h0
      rw [CfsState.vruntime, CfsState.vruntime, h0] at hle
      rw [hmin]
      exact BitVec.eq_of_toNat_eq (Nat.le_zero.mp hle)
    · have hbal : s.sched.stats.Balances (rest.length + 1) := by
        have := h.balanced
        rwa [Balanced, hq] at this
      rw [Balanced, hstats, hperm.length_eq]
      exact hbal.picked

theorem Heaped.apply (h : s.Heaped) (hop : s.HeldOnce op) : (op.apply H s).Heaped := by
  cases op with
  | enqueue task =>
    cases task with
    | none => exact h
    | some t => exact h.enqueue t
  | dequeue task =>
    cases task with
    | none => exact h
    | some t => exact h.dequeue hop
  | pickNext => exact h.pickNext
  | onTick current =>
    have hcfs : ∀ p ∈ s.sched.readyQueue,
        ((onTick current s).2.cfs p).vruntime = (s.cfs p).vruntime := by
      intro p hp
      have hne : p ≠ current := fun he => hop (he ▸ hp)
      rw [cfs_onTick, Function.update_of_ne hne]
    have hkeep : (onTick current s).2.sched.minVruntime = s.sched.minVruntime ∧
        ((onTick current s).2.sched.stats.Balances s.sched.readyQueue.length ↔ s.Balanced) := by
      simp only [onTick]
      split
      · exact ⟨rfl, Iff.rfl⟩
      · split <;> exact ⟨rfl, Iff.rfl⟩
    refine ⟨?_, ?_, ?_⟩
    · rw [CfsOp.apply, readyQueue_onTick]
      exact heap_of_vruntime h hcfs
    · intro p hp h0
      rw [CfsOp.apply, readyQueue_onTick] at hp
      rw [CfsOp.apply, hkeep.1]
      exact h.zero p hp ((hcfs p hp).symm.trans h0)
    · rw [CfsOp.apply, Balanced, readyQueue_onTick]
      exact hkeep.2.mpr h.balanced
  | outside cfs =>
    have hheap := heap_of_vruntime h hop
    refine ⟨hheap, ?_, h.balanced⟩
    intro p hp h0
    exact h.zero p hp ((hop p hp).symm.trans h0)

theorem balanced_run {cfs₀ : Ptr → CfsData}
    (h : Reached (CfsOp.step H) HeldOnce { cfs := cfs₀ } s) : s.Balanced := by
  have hinv : s.Heaped := by
    have hbal : Stats.Balances {} 0 := by decide
    have hstart : CfsState.Heaped { cfs := cfs₀ } := ⟨isHeap_nil _, by simp, hbal⟩
    refine h.invariant hstart ?_
    intro s op s' hs hop hstep
    obtain ⟨rfl⟩ := hstep
    exact hs.apply hop
  exact hinv.balanced

end CfsState

/-- The counters of each scheduler account for its queue after every operation, as long as
`Dequeue` is for a task that the FIFO queue holds once, or that the heap of the fair scheduler
holds at most once. The round-robin scheduler needs no condition. -/
theorem statistics_balance_queue (H : HeapAlgorithms Ptr) (cfs₀ : Ptr → CfsData) :
    (∀ s, Reached Scheduler.step Scheduler.HeldOnce (.fifo [] {}) s → s.Balanced) ∧
    (∀ s, Reached Scheduler.step (fun _ _ => True) (.roundRobin [] {}) s → s.Balanced) ∧
    ∀ s, Reached (CfsOp.step H) CfsState.HeldOnce { cfs := cfs₀ } s → s.Balanced :=
  ⟨fun _ h => Scheduler.balanced_fifo h, fun _ h => Scheduler.balanced_roundRobin h,
    fun _ h => CfsState.balanced_run h⟩

/-- Task 1 is queued twice, task 2 once; one task is picked, and task 2 is dequeued. -/
def repeatedEnqueue : List QueueOp :=
  [.enqueue 1, .enqueue 2, .enqueue 1, .pickNext, .dequeue 2]

def repeatedCfsEnqueue : List CfsOp :=
  [.enqueue (some 1), .enqueue (some 2), .enqueue (some 1), .pickNext, .dequeue (some 2)]

/-- A test for what is allowed, of the operations that touch the queue. -/
def CfsState.heldOnce (s : CfsState) : CfsOp → Bool
  | .dequeue (some task) => decide (s.sched.readyQueue.count task ≤ 1)
  | .onTick _ => false
  | .outside _ => false
  | _ => true

theorem CfsState.heldOnce_sound {s : CfsState} {op : CfsOp} (h : s.heldOnce op = true) :
    s.HeldOnce op := by
  cases op with
  | enqueue task => trivial
  | dequeue task =>
    cases task with
    | none => trivial
    | some t =>
      rw [heldOnce, decide_eq_true_eq] at h
      exact h
  | pickNext => trivial
  | onTick | outside => cases h

theorem statistics_balance_repeatedEnqueue :
    (∃ s : Scheduler, s.Balanced ∧ s.queue = [1] ∧ s.stats = ⟨3, 1, 1, 0⟩) ∧
    (∃ s : Scheduler, s.Balanced ∧ s.queue = [1] ∧ s.stats = ⟨3, 1, 1, 0⟩) ∧
    ∃ s : CfsState, s.Balanced ∧ s.sched.readyQueue = [1] ∧ s.sched.stats = ⟨3, 1, 1, 0⟩ := by
  obtain ⟨hfifo, hround, hcfs⟩ := statistics_balance_queue (sortingHeap Ptr)
    fun p => ⟨BitVec.ofNat 64 p, 0⟩
  have hf : Reached Scheduler.step Scheduler.HeldOnce (.fifo [] {}) (.fifo [] {}) := .start
  have hr : Reached Scheduler.step (fun _ _ => True) (.roundRobin [] {}) (.roundRobin [] {}) :=
    .start
  have hc : Reached (CfsOp.step (sortingHeap Ptr)) CfsState.HeldOnce
      { cfs := fun p => ⟨BitVec.ofNat 64 p, 0⟩ } { cfs := fun p => ⟨BitVec.ofNat 64 p, 0⟩ } :=
    .start
  obtain ⟨f, hf, hf'⟩ := hf.exists_replay (fun s op => decide (s.HeldOnce op))
    (fun _ _ _ h => of_decide_eq_true h) repeatedEnqueue
    (R := fun s => s.queue = [1] ∧ s.stats = ⟨3, 1, 1, 0⟩) (by decide +kernel)
  obtain ⟨r, hr, hr'⟩ := hr.exists_replay (fun _ _ => true) (fun _ _ _ _ => trivial)
    repeatedEnqueue (R := fun s => s.queue = [1] ∧ s.stats = ⟨3, 1, 1, 0⟩) (by decide +kernel)
  obtain ⟨m, hm, hm'⟩ := hc.exists_replay CfsState.heldOnce
    (fun _ _ _ h => CfsState.heldOnce_sound h) repeatedCfsEnqueue
    (R := fun s => s.sched.readyQueue = [1] ∧ s.sched.stats = ⟨3, 1, 1, 0⟩) (by decide +kernel)
  exact ⟨⟨f, hfifo f hf, hf'⟩, ⟨r, hround r hr, hr'⟩, m, hcfs m hm, hm'⟩

/-- The FIFO scheduler counts a dequeue of a task that is not queued, and one dequeue for two
that it removes, as does the fair scheduler. -/
theorem statistics_unbalanced :
    ¬ ((Scheduler.fifo [] {}).dequeue 1).Balanced ∧
    ¬ ((((Scheduler.fifo [] {}).enqueue 1).enqueue 1).dequeue 1).Balanced ∧
    ¬ (dequeue (sortingHeap Ptr) 1 (enqueue (sortingHeap Ptr) 1
      (enqueue (sortingHeap Ptr) 1 { cfs := fun _ => ⟨0, 0⟩ }))).Balanced := by
  decide +kernel

end NaiLongKernel.Task
