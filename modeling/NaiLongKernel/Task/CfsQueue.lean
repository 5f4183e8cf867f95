import Mathlib.Data.Finset.Basic
import NaiLongKernel.Foundation.Reached
import NaiLongKernel.Task.CfsScheduler

/-!
# The queue of the fair scheduler

`Dequeue` takes all tasks out of the heap and puts the others back; `Enqueue` and `PickNext`
are as in the fair scheduler. Over any history of these operations the heap holds exactly the
tasks that were put in and not taken out, with a task of least `vruntime` at its top. What the
history does to `min_vruntime_`, and how long a running task can keep its core, follows.
-/
namespace NaiLongKernel.Task

open Foundation

namespace CfsScheduler

variable (H : HeapAlgorithms Ptr)

/-- The first loop of `Dequeue`: the heap is emptied into `temp`, without `task`. -/
def drain (cmp : Ptr → Ptr → Bool) (task : Ptr) :
    (fuel : ℕ) → (queue temp : List Ptr) → (found : Bool) → List Ptr × List Ptr × Bool
  | 0, queue, temp, found => (queue, temp, found)
  | _+1, [], temp, found => ([], temp, found)
  | fuel+1, t :: rest, temp, found =>
    let queue := H.pop cmp (t :: rest)
    if t = task then drain cmp task fuel queue temp true
    else drain cmp task fuel queue (temp ++ [t]) found

/-- Each turn of the loop takes one task out, so that the size of the heap is fuel enough. -/
def dequeue (task : Ptr) (s : CfsState) : CfsState :=
  let cmp := vruntimeCompare s.cfs
  let (queue, temp, found) :=
    drain H cmp task s.sched.readyQueue.length s.sched.readyQueue [] false
  { s with sched := { s.sched with
      readyQueue := temp.foldl (H.push cmp) queue
      stats := if found then { s.sched.stats with totalDequeues := s.sched.stats.totalDequeues + 1 }
        else s.sched.stats } }

end CfsScheduler

open CfsScheduler

/-- The operations of a history. A null pointer is `none`; `outside` stands for whatever
happens to the tasks elsewhere. -/
inductive CfsOp where
  | enqueue (task : Option Ptr)
  | dequeue (task : Option Ptr)
  | pickNext
  | onTick (current : Ptr)
  | outside (cfs : Ptr → CfsData)

namespace CfsOp

def apply (H : HeapAlgorithms Ptr) (s : CfsState) : CfsOp → CfsState
  | enqueue none => s
  | enqueue (some task) => CfsScheduler.enqueue H task s
  | dequeue none => s
  | dequeue (some task) => CfsScheduler.dequeue H task s
  | pickNext => (CfsScheduler.pickNext H s).2
  | onTick current => (CfsScheduler.onTick current s).2
  | outside cfs => { s with cfs := cfs }

def record (H : HeapAlgorithms Ptr) (s : CfsState) (queued : Finset Ptr) : CfsOp → Finset Ptr
  | enqueue (some task) => insert task queued
  | dequeue (some task) => queued.erase task
  | pickNext =>
    match (CfsScheduler.pickNext H s).1 with
    | some next => queued.erase next
    | none => queued
  | _ => queued

/-- A task is queued once, and the `vruntime` of a queued task is left alone. -/
def Allowed (s : CfsState) : CfsOp → Prop
  | enqueue (some task) => task ∉ s.sched.readyQueue
  | onTick current => current ∉ s.sched.readyQueue
  | outside cfs => ∀ p ∈ s.sched.readyQueue, (cfs p).vruntime = (s.cfs p).vruntime
  | _ => True

/-- A test for what is allowed, of the operations that are not `outside`. -/
def check (s : CfsState) : CfsOp → Bool
  | enqueue (some task) => !s.sched.readyQueue.contains task
  | onTick current => !s.sched.readyQueue.contains current
  | outside _ => false
  | _ => true

theorem allowed_of_check {s : CfsState} {op : CfsOp} (h : op.check s = true) : op.Allowed s := by
  cases op with
  | enqueue task => cases task <;> simp_all [check, Allowed]
  | dequeue | pickNext => trivial
  | onTick current => simpa [check, Allowed] using h
  | outside cfs => cases h

def recorded (H : HeapAlgorithms Ptr) (m : CfsState × Finset Ptr) (op : CfsOp) :
    Option (CfsState × Finset Ptr) :=
  some (op.apply H m.1, op.record H m.1 m.2)

def step (H : HeapAlgorithms Ptr) (s : CfsState) (op : CfsOp) : Option CfsState :=
  some (op.apply H s)

end CfsOp

/-- The `vruntime` of a task as a number. -/
def CfsState.vruntime (s : CfsState) (p : Ptr) : ℕ := (s.cfs p).vruntime.toNat

/-- The queue is a heap without duplicates. -/
structure CfsState.Ordered (s : CfsState) : Prop where
  nodup : s.sched.readyQueue.Nodup
  heap : IsHeap (vruntimeCompare s.cfs) s.sched.readyQueue

namespace CfsScheduler

variable {H : HeapAlgorithms Ptr} {s : CfsState} {p t : Ptr} {cmp : Ptr → Ptr → Bool}

theorem drain_eq (hc : StrictWeak cmp) (task : Ptr) {fuel : ℕ} {queue : List Ptr}
    (hfuel : queue.length ≤ fuel) (hheap : IsHeap cmp queue) (temp : List Ptr) (found : Bool) :
    ∃ out, drain H cmp task fuel queue temp found =
        ([], temp ++ out, found || decide (task ∈ queue)) ∧
      out.Perm (queue.filter (· ≠ task)) := by
  induction fuel generalizing queue temp found with
  | zero =>
    obtain rfl : queue = [] := List.eq_nil_of_length_eq_zero (by omega)
    exact ⟨[], by simp [drain], by simp⟩
  | succ fuel ih =>
    cases queue with
    | nil => exact ⟨[], by simp [drain], by simp⟩
    | cons t rest =>
      have hperm : (H.pop cmp (t :: rest)).Perm rest := (H.pop_perm cmp hc hheap).symm.cons_inv
      have hlen : (H.pop cmp (t :: rest)).length ≤ fuel := by
        rw [hperm.length_eq]
        simpa using hfuel
      have hpop := H.pop_heap cmp hc hheap
      by_cases ht : t = task
      · obtain ⟨out, hrun, hout⟩ := ih hlen hpop temp true
        refine ⟨out, ?_, ?_⟩
        · simp only [drain, if_pos ht, hrun]
          simp [ht]
        · simpa [ht] using hout.trans (hperm.filter _)
      · obtain ⟨out, hrun, hout⟩ := ih hlen hpop (temp ++ [t]) found
        refine ⟨t :: out, ?_, ?_⟩
        · simp only [drain, if_neg ht, hrun]
          simp [hperm.mem_iff, Ne.symm ht]
        · simpa [ht] using (hout.trans (hperm.filter _)).cons t

theorem pushAll (hc : StrictWeak cmp) (l : List Ptr) {queue : List Ptr} (hheap : IsHeap cmp queue) :
    IsHeap cmp (l.foldl (H.push cmp) queue) ∧ (l.foldl (H.push cmp) queue).Perm (l ++ queue) := by
  induction l generalizing queue with
  | nil => exact ⟨hheap, List.Perm.refl _⟩
  | cons x l ih =>
    obtain ⟨hheap', hperm⟩ := ih (H.push_heap cmp x hc hheap)
    refine ⟨hheap', hperm.trans ?_⟩
    calc (l ++ H.push cmp queue x).Perm (l ++ x :: queue) := (H.push_perm cmp x hc hheap).append_left l
      _ |>.Perm (x :: l ++ queue) := List.perm_middle

theorem readyQueue_dequeue (hs : IsHeap (vruntimeCompare s.cfs) s.sched.readyQueue)
    (H : HeapAlgorithms Ptr) (t : Ptr) :
    IsHeap (vruntimeCompare s.cfs) (dequeue H t s).sched.readyQueue ∧
      (dequeue H t s).sched.readyQueue.Perm (s.sched.readyQueue.filter (· ≠ t)) := by
  have hc := vruntimeCompare_strict s.cfs
  obtain ⟨out, hrun, hout⟩ := drain_eq (H := H) hc t le_rfl hs [] false
  obtain ⟨hheap, hperm⟩ := pushAll (H := H) hc out (isHeap_nil _)
  simp only [dequeue, hrun, List.nil_append]
  rw [List.append_nil] at hperm
  exact ⟨hheap, hperm.trans hout⟩

theorem stats_dequeue (hs : IsHeap (vruntimeCompare s.cfs) s.sched.readyQueue) :
    (dequeue H t s).sched.stats = if t ∈ s.sched.readyQueue then
      { s.sched.stats with totalDequeues := s.sched.stats.totalDequeues + 1 }
      else s.sched.stats := by
  obtain ⟨out, hrun, -⟩ :=
    drain_eq (H := H) (vruntimeCompare_strict s.cfs) t le_rfl hs [] false
  simp only [dequeue, hrun, Bool.false_or, decide_eq_true_eq]

theorem heap_of_update (hs : s.Ordered) (ht : t ∉ s.sched.readyQueue) (d : CfsData) :
    IsHeap (vruntimeCompare (Function.update s.cfs t d)) s.sched.readyQueue := by
  apply hs.heap.congr
  intro a ha b hb
  have hat : a ≠ t := fun h => ht (h ▸ ha)
  have hbt : b ≠ t := fun h => ht (h ▸ hb)
  simp only [vruntimeCompare, Function.update_of_ne hat, Function.update_of_ne hbt]

theorem readyQueue_enqueue_perm (hs : s.Ordered) (ht : t ∉ s.sched.readyQueue) :
    IsHeap (vruntimeCompare (enqueue H t s).cfs) (enqueue H t s).sched.readyQueue ∧
      (enqueue H t s).sched.readyQueue.Perm (t :: s.sched.readyQueue) := by
  have hheap := heap_of_update hs ht (legalise s.sched.minVruntime (s.cfs t))
  exact ⟨H.push_heap _ t (vruntimeCompare_strict _) hheap,
    H.push_perm _ t (vruntimeCompare_strict _) hheap⟩

theorem pickNext_spec (hheap : IsHeap (vruntimeCompare s.cfs) s.sched.readyQueue) {next : Ptr}
    {rest : List Ptr} (hq : s.sched.readyQueue = next :: rest) :
    ∃ s', pickNext H s = (some next, s') ∧ s'.cfs = s.cfs ∧ s'.sched.readyQueue.Perm rest ∧
      IsHeap (vruntimeCompare s.cfs) s'.sched.readyQueue ∧
      (∀ q ∈ s.sched.readyQueue, s.vruntime next ≤ s.vruntime q) ∧
      (rest = [] → s'.sched.minVruntime = (s.cfs next).vruntime) ∧
      (rest ≠ [] → ∃ top ∈ rest, s'.sched.minVruntime = (s.cfs top).vruntime ∧
        ∀ q ∈ rest, s.vruntime top ≤ s.vruntime q) := by
  have hc := vruntimeCompare_strict s.cfs
  rw [hq] at hheap
  have hperm : (H.pop (vruntimeCompare s.cfs) (next :: rest)).Perm rest :=
    (H.pop_perm _ hc hheap).symm.cons_inv
  have hpop := H.pop_heap (vruntimeCompare s.cfs) hc hheap
  refine ⟨(pickNext H s).2, ?_, ?_, ?_, ?_, ?_, ?_, ?_⟩
  · simp only [pickNext, hq]
  · simp only [pickNext, hq]
  · simpa only [pickNext, hq] using hperm
  · simpa only [pickNext, hq] using hpop
  · intro q hq'
    rw [hq] at hq'
    exact vruntimeCompare_eq_false.mp (hheap.top_first hc q hq')
  · rintro rfl
    simp only [pickNext, hq, hperm.eq_nil]
  · intro hne
    cases hpopped : H.pop (vruntimeCompare s.cfs) (next :: rest) with
    | nil =>
      rw [hpopped] at hperm
      exact absurd hperm.symm.eq_nil hne
    | cons top tail =>
      rw [hpopped] at hperm hpop
      refine ⟨top, hperm.mem_iff.mp List.mem_cons_self, by simp only [pickNext, hq, hpopped], ?_⟩
      intro q hq'
      exact vruntimeCompare_eq_false.mp (hpop.top_first hc q (hperm.mem_iff.mpr hq'))

theorem onTick_eq_true (hs : s.Ordered) {c : Ptr} (hc : c ∉ s.sched.readyQueue) :
    (onTick c s).1 = true ↔ ∃ top ∈ s.sched.readyQueue,
      (∀ q ∈ s.sched.readyQueue, s.vruntime top ≤ s.vruntime q) ∧
      (s.cfs top).vruntime + kMinGranularity < ((onTick c s).2.cfs c).vruntime := by
  rw [cfs_onTick, Function.update_self]
  cases hq : s.sched.readyQueue with
  | nil => simp [onTick, hq]
  | cons next rest =>
    rw [hq] at hc
    have hheap := hs.heap
    rw [hq] at hheap
    have htop : ∀ q ∈ next :: rest, s.vruntime next ≤ s.vruntime q := by
      intro q hmem
      exact vruntimeCompare_eq_false.mp (hheap.top_first (vruntimeCompare_strict _) q hmem)
    have hnext : next ≠ c := fun h => hc (h ▸ List.mem_cons_self)
    have hread : (onTick c s).1 = true ↔ (s.cfs next).vruntime + kMinGranularity <
        (s.cfs c).vruntime + delta (s.cfs c).weight := by
      simp only [onTick, hq, Function.update_of_ne hnext, Function.update_self]
      split <;> simp_all
    rw [hread]
    constructor
    · intro hlt
      exact ⟨next, List.mem_cons_self, htop, hlt⟩
    · rintro ⟨top, hmem, hleast, hlt⟩
      have hsame : (s.cfs next).vruntime = (s.cfs top).vruntime :=
        BitVec.eq_of_toNat_eq (le_antisymm (htop top hmem) (hleast next List.mem_cons_self))
      rwa [hsame]

theorem pickNext_nil (hq : s.sched.readyQueue = []) : pickNext H s = (none, s) := by
  simp only [pickNext, hq]

end CfsScheduler

section Queue

variable {H : HeapAlgorithms Ptr} {s : CfsState} {op : CfsOp}

theorem CfsState.Ordered.onTick {c : Ptr} (hs : s.Ordered) (hc : c ∉ s.sched.readyQueue) :
    (onTick c s).2.Ordered := by
  constructor
  · rw [readyQueue_onTick]
    exact hs.nodup
  · rw [readyQueue_onTick, cfs_onTick]
    exact heap_of_update hs hc _

theorem CfsState.Ordered.apply (hs : s.Ordered) (hop : op.Allowed s) : (op.apply H s).Ordered := by
  cases op with
  | enqueue task =>
    cases task with
    | none => exact hs
    | some t =>
      obtain ⟨hheap, hperm⟩ := readyQueue_enqueue_perm (H := H) hs hop
      exact ⟨hperm.nodup_iff.mpr (List.nodup_cons.mpr ⟨hop, hs.nodup⟩), hheap⟩
  | dequeue task =>
    cases task with
    | none => exact hs
    | some t =>
      obtain ⟨hheap, hperm⟩ := readyQueue_dequeue hs.heap H t
      exact ⟨hperm.nodup_iff.mpr (hs.nodup.filter _), hheap⟩
  | pickNext =>
    cases hq : s.sched.readyQueue with
    | nil =>
      simp only [CfsOp.apply, pickNext_nil hq]
      exact hs
    | cons next rest =>
      obtain ⟨s', hpick, hcfs, hperm, hheap, -⟩ := pickNext_spec (H := H) hs.heap hq
      have hnodup := hs.nodup
      rw [hq] at hnodup
      simp only [CfsOp.apply, hpick]
      exact ⟨hperm.nodup_iff.mpr (List.nodup_cons.mp hnodup).2, by rwa [hcfs]⟩
  | onTick current => exact hs.onTick hop
  | outside cfs =>
    refine ⟨hs.nodup, hs.heap.congr ?_⟩
    intro a ha b hb
    simp only [vruntimeCompare, CfsOp.apply, hop a ha, hop b hb]

theorem readyQueue_apply (hs : s.Ordered) (hop : op.Allowed s) {queued : Finset Ptr}
    (hqueued : s.sched.readyQueue.toFinset = queued) :
    (op.apply H s).sched.readyQueue.toFinset = op.record H s queued := by
  subst hqueued
  cases op with
  | enqueue task =>
    cases task with
    | none => rfl
    | some t =>
      obtain ⟨-, hperm⟩ := readyQueue_enqueue_perm (H := H) hs hop
      rw [CfsOp.apply, List.toFinset_eq_of_perm _ _ hperm, List.toFinset_cons]
      rfl
  | dequeue task =>
    cases task with
    | none => rfl
    | some t =>
      obtain ⟨-, hperm⟩ := readyQueue_dequeue hs.heap H t
      rw [CfsOp.apply, List.toFinset_eq_of_perm _ _ hperm]
      ext q
      simp [CfsOp.record, and_comm]
  | pickNext =>
    cases hq : s.sched.readyQueue with
    | nil => simp [CfsOp.apply, CfsOp.record, pickNext_nil hq, hq]
    | cons next rest =>
      obtain ⟨s', hpick, -, hperm, -⟩ := pickNext_spec (H := H) hs.heap hq
      have hnodup := hs.nodup
      rw [hq] at hnodup
      have hnext : next ∉ rest.toFinset := by simpa using (List.nodup_cons.mp hnodup).1
      simp only [CfsOp.apply, CfsOp.record, hpick]
      rw [List.toFinset_eq_of_perm _ _ hperm, List.toFinset_cons, Finset.erase_insert hnext]
  | onTick current => rw [CfsOp.apply, readyQueue_onTick]; rfl
  | outside cfs => rfl

theorem ordered_start (cfs : Ptr → CfsData) : CfsState.Ordered { cfs := cfs } :=
  ⟨List.nodup_nil, isHeap_nil _⟩

theorem ordered_run {cfs₀ : Ptr → CfsData}
    (h : Reached (CfsOp.step H) CfsOp.Allowed { cfs := cfs₀ } s) : s.Ordered := by
  apply h.invariant (I := CfsState.Ordered) (ordered_start cfs₀)
  rintro s op s' hs hop hstep
  cases hstep
  exact hs.apply hop

theorem recorded_queue {cfs₀ : Ptr → CfsData} {m : CfsState × Finset Ptr}
    (h : Reached (CfsOp.recorded H) (fun m op => op.Allowed m.1) ({ cfs := cfs₀ }, ∅) m) :
    m.1.Ordered ∧ m.1.sched.readyQueue.toFinset = m.2 := by
  apply h.invariant (I := fun m => m.1.Ordered ∧ m.1.sched.readyQueue.toFinset = m.2)
  · exact ⟨ordered_start cfs₀, rfl⟩
  · rintro m op m' ⟨hs, hqueued⟩ hop hstep
    cases hstep
    exact ⟨hs.apply hop, readyQueue_apply hs hop hqueued⟩

/-- The queue is an exact priority queue over every history: it holds the tasks that were
put in and not taken out, `PickNext` takes out one of least `vruntime`, `Dequeue` takes out the
task it is given, and `OnTick` compares with the least `vruntime`, in 64 bits. Below the limit
that is to say that some queued task is more than the granularity behind. -/
theorem cfs_queue_exact {cfs₀ : Ptr → CfsData} {m : CfsState × Finset Ptr}
    (h : Reached (CfsOp.recorded H) (fun m op => op.Allowed m.1) ({ cfs := cfs₀ }, ∅) m) :
    m.1.sched.readyQueue.Nodup ∧ m.1.sched.readyQueue.toFinset = m.2 ∧
    (∀ next s', pickNext H m.1 = (some next, s') → next ∈ m.2 ∧
      (∀ q ∈ m.2, m.1.vruntime next ≤ m.1.vruntime q) ∧
      s'.sched.readyQueue.toFinset = m.2.erase next) ∧
    ((pickNext H m.1).1 = none ↔ m.2 = ∅) ∧
    (∀ t, (dequeue H t m.1).sched.readyQueue.toFinset = m.2.erase t) ∧
    ∀ c ∉ m.2,
      ((onTick c m.1).1 = true ↔ ∃ top ∈ m.2, (∀ q ∈ m.2, m.1.vruntime top ≤ m.1.vruntime q) ∧
        (m.1.cfs top).vruntime + kMinGranularity < ((onTick c m.1).2.cfs c).vruntime) ∧
      ((∀ q ∈ m.2, m.1.vruntime q < vruntimeLimit) → ((onTick c m.1).1 = true ↔
        ∃ q ∈ m.2, m.1.vruntime q + kMinGranularity.toNat < (onTick c m.1).2.vruntime c)) := by
  obtain ⟨hs, hqueued⟩ := recorded_queue h
  have hmem : ∀ q, q ∈ m.2 ↔ q ∈ m.1.sched.readyQueue := by
    intro q
    rw [← hqueued, List.mem_toFinset]
  refine ⟨hs.nodup, hqueued, ?_, ?_, ?_, ?_⟩
  · intro next s' hpick
    have hallowed : CfsOp.pickNext.Allowed m.1 := trivial
    have hafter := readyQueue_apply (H := H) hs hallowed hqueued
    simp only [CfsOp.apply, CfsOp.record, hpick] at hafter
    cases hq : m.1.sched.readyQueue with
    | nil =>
      rw [pickNext_nil hq] at hpick
      cases hpick
    | cons top rest =>
      obtain ⟨s'', hpick', -, -, -, hleast, -⟩ := pickNext_spec (H := H) hs.heap hq
      rw [hpick] at hpick'
      cases hpick'
      simp only [hmem]
      exact ⟨by simp [hq], hleast, hafter⟩
  · rw [← hqueued, List.toFinset_eq_empty_iff]
    cases hq : m.1.sched.readyQueue with
    | nil => simp [pickNext_nil hq]
    | cons top rest =>
      obtain ⟨s', hpick, -⟩ := pickNext_spec (H := H) hs.heap hq
      simp [hpick]
  · intro t
    have hallowed : (CfsOp.dequeue (some t)).Allowed m.1 := trivial
    exact readyQueue_apply hs hallowed hqueued
  · intro c hc
    simp only [hmem] at hc ⊢
    have hread := onTick_eq_true hs hc
    refine ⟨hread, ?_⟩
    intro hlimit
    rw [hread]
    have hsum : ∀ q ∈ m.1.sched.readyQueue, ((m.1.cfs q).vruntime + kMinGranularity).toNat =
        m.1.vruntime q + kMinGranularity.toNat := by
      intro q hq
      have hlt := hlimit q hq
      unfold vruntimeLimit at hlt
      rw [BitVec.toNat_add]
      exact Nat.mod_eq_of_lt (by simp only [CfsState.vruntime] at hlt; omega)
    constructor
    · rintro ⟨top, htop, -, hlt⟩
      rw [BitVec.lt_def, hsum top htop] at hlt
      exact ⟨top, htop, hlt⟩
    · rintro ⟨q, hq, hlt⟩
      obtain ⟨top, htop, hleast⟩ : ∃ top ∈ m.1.sched.readyQueue,
          ∀ q ∈ m.1.sched.readyQueue, m.1.vruntime top ≤ m.1.vruntime q := by
        obtain ⟨top, htop, hleast⟩ := m.1.sched.readyQueue.toFinset.exists_min_image m.1.vruntime
          ⟨q, List.mem_toFinset.mpr hq⟩
        exact ⟨top, List.mem_toFinset.mp htop, fun q hq => hleast q (List.mem_toFinset.mpr hq)⟩
      refine ⟨top, htop, hleast, ?_⟩
      rw [BitVec.lt_def, hsum top htop]
      have hle := hleast q hq
      exact lt_of_le_of_lt (by omega) hlt

/-- Three tasks are enqueued, one is taken out by `Dequeue` and one by `PickNext`. -/
theorem cfs_queue_exact_example : ∃ m,
    Reached (CfsOp.recorded (sortingHeap Ptr)) (fun m op => op.Allowed m.1)
      ({ cfs := fun p => ⟨BitVec.ofNat 64 (100 * p), 1024⟩ }, ∅) m ∧ m.2 = {3} ∧
    m.1.sched.readyQueue.toFinset = {3} ∧
    (dequeue (sortingHeap Ptr) 3 m.1).sched.readyQueue.toFinset = ∅ := by
  have h₀ : Reached (CfsOp.recorded (sortingHeap Ptr)) (fun m op => op.Allowed m.1)
      ({ cfs := fun p => ⟨BitVec.ofNat 64 (100 * p), 1024⟩ }, ∅) _ := .start
  obtain ⟨m, h, hm⟩ := h₀.exists_replay (R := fun m => m.2 = {3})
    (fun m op => op.check m.1) (fun _ _ _ => CfsOp.allowed_of_check)
    [.enqueue (some 2), .enqueue (some 1), .enqueue (some 3), .dequeue (some 2), .pickNext]
    (by decide +kernel)
  obtain ⟨-, hqueued, -, -, hdequeue, -⟩ := cfs_queue_exact h
  exact ⟨m, h, hm, hqueued.trans hm, (hdequeue 3).trans (by rw [hm]; rfl)⟩

/-- Near the top of the 64 bits the sum wraps: `OnTick` says yes for a task that is behind all
queued ones, and no although the wrapped sum of a queued task is below. -/
theorem cfs_onTick_wraps :
    (∃ m, Reached (CfsOp.recorded (sortingHeap Ptr)) (fun m op => op.Allowed m.1)
        ({ cfs := fun p => if p = 1 then ⟨0xFFFFFFFFFFFFFFFB, 1024⟩ else ⟨20, 1024000⟩ }, ∅) m ∧ 2 ∉ m.2 ∧
      (onTick 2 m.1).1 = true ∧
      ∀ q ∈ m.2, ¬ m.1.vruntime q + kMinGranularity.toNat < (onTick 2 m.1).2.vruntime 2) ∧
    ∃ m, Reached (CfsOp.recorded (sortingHeap Ptr)) (fun m op => op.Allowed m.1)
        ({ cfs := fun p => if p = 1 then ⟨0xFFFFFFFFFFFFFFFB, 1024⟩ else ⟨if p = 3 then 5 else 11, 1024000⟩ }, ∅)
          m ∧ 2 ∉ m.2 ∧
      (onTick 2 m.1).1 = false ∧
      ∃ q ∈ m.2, (m.1.cfs q).vruntime + kMinGranularity < ((onTick 2 m.1).2.cfs 2).vruntime :=
  ⟨Reached.start.exists_replay (fun m op => op.check m.1) (fun _ _ _ => CfsOp.allowed_of_check)
      [.enqueue (some 1)] (by decide +kernel),
    Reached.start.exists_replay (fun m op => op.check m.1) (fun _ _ _ => CfsOp.allowed_of_check)
      [.enqueue (some 1), .enqueue (some 3)] (by decide +kernel)⟩

end Queue

/-! ## The virtual clock -/

section Clock

/-- The condition on a history under which the clock does not run backwards: a task below the
clock is enqueued only next to tasks that are not, and never left alone in the queue. -/
def CfsOp.KeepsClock (s : CfsState) : CfsOp → Prop
  | enqueue (some task) => (s.cfs task).vruntime = 0 ∨ s.sched.minVruntime ≤ (s.cfs task).vruntime ∨
      s.sched.readyQueue ≠ [] ∧ ∀ q ∈ s.sched.readyQueue, s.sched.minVruntime ≤ (s.cfs q).vruntime
  | dequeue (some task) => ∀ p ∈ s.sched.readyQueue, p ≠ task → (s.cfs p).vruntime < s.sched.minVruntime →
      ∃ q ∈ s.sched.readyQueue, q ≠ p ∧ q ≠ task
  | _ => True

/-- At most one queued task is below the clock, and it is not alone. -/
def CfsState.Steady (s : CfsState) : Prop :=
  ∀ p ∈ s.sched.readyQueue, (s.cfs p).vruntime < s.sched.minVruntime →
    (∀ q ∈ s.sched.readyQueue, q ≠ p → s.sched.minVruntime ≤ (s.cfs q).vruntime) ∧
      ∃ q ∈ s.sched.readyQueue, q ≠ p

/-- A history whose operations are allowed and keep the clock. -/
def CfsOp.Punctual (s : CfsState) (op : CfsOp) : Prop := op.Allowed s ∧ op.KeepsClock s

variable {H : HeapAlgorithms Ptr} {s s' : CfsState} {op : CfsOp}

theorem CfsState.steady_of_forall
    (h : ∀ q ∈ s.sched.readyQueue, s.sched.minVruntime ≤ (s.cfs q).vruntime) : s.Steady := by
  intro p hp hlt
  exact absurd (h p hp) (BitVec.not_le.mpr hlt)

theorem CfsState.Steady.pickNext (h : s.Steady) (hs : s.Ordered) :
    s.sched.minVruntime ≤ (pickNext H s).2.sched.minVruntime ∧ (CfsScheduler.pickNext H s).2.Steady := by
  cases hq : s.sched.readyQueue with
  | nil =>
    rw [pickNext_nil hq]
    exact ⟨BitVec.le_refl _, h⟩
  | cons next rest =>
    obtain ⟨s', hpick, hcfs, hperm, -, hleast, hlast, htop⟩ := pickNext_spec (H := H) hs.heap hq
    have hnodup := hs.nodup
    rw [hq] at hnodup
    have hnext : next ∉ rest := (List.nodup_cons.mp hnodup).1
    rw [hpick]
    by_cases hrest : rest = []
    · subst hrest
      refine ⟨?_, ?_⟩
      · rw [hlast rfl]
        by_contra hlt
        obtain ⟨-, q, hmem, hne⟩ := h next (by simp [hq]) (BitVec.not_le.mp hlt)
        rw [hq, List.mem_singleton] at hmem
        exact hne hmem
      · intro p hp
        rw [hperm.eq_nil] at hp
        cases hp
    · obtain ⟨top, hmem, hmin, htop⟩ := htop hrest
      refine ⟨?_, ?_⟩
      · rw [hmin]
        have htopne : top ≠ next := fun he => hnext (he ▸ hmem)
        by_contra hlt
        have hbelow := BitVec.not_le.mp hlt
        -- the picked task is not above the new top, so that it is below the clock as well
        have hfirst : (s.cfs next).vruntime < s.sched.minVruntime := by
          have hle := hleast top (by simp [hq, hmem])
          simp only [CfsState.vruntime] at hle
          rw [BitVec.lt_def] at hbelow ⊢
          omega
        obtain ⟨hothers, -⟩ := h next (by simp [hq]) hfirst
        exact hlt (hothers top (by simp [hq, hmem]) htopne)
      · apply CfsState.steady_of_forall
        intro q hmemq
        rw [hmin, hcfs]
        exact BitVec.le_def.mpr (htop q (hperm.mem_iff.mp hmemq))

theorem pickNext_lowers (h : ¬ s.Steady) (hs : s.Ordered) :
    (pickNext H s).2.sched.minVruntime < s.sched.minVruntime := by
  obtain ⟨p, hp, hlt, hbad⟩ : ∃ p ∈ s.sched.readyQueue, (s.cfs p).vruntime < s.sched.minVruntime ∧
      ((∃ q ∈ s.sched.readyQueue, q ≠ p ∧ (s.cfs q).vruntime < s.sched.minVruntime) ∨
        ∀ q ∈ s.sched.readyQueue, q = p) := by
    unfold CfsState.Steady at h
    push Not at h
    obtain ⟨p, hp, hlt, himp⟩ := h
    refine ⟨p, hp, hlt, ?_⟩
    by_cases hall : ∀ q ∈ s.sched.readyQueue, q ≠ p → s.sched.minVruntime ≤ (s.cfs q).vruntime
    · exact Or.inr (himp hall)
    · push Not at hall
      obtain ⟨q, hq, hqp, hqlt⟩ := hall
      exact Or.inl ⟨q, hq, hqp, BitVec.not_le.mp hqlt⟩
  cases hq : s.sched.readyQueue with
  | nil =>
    rw [hq] at hp
    cases hp
  | cons next rest =>
    obtain ⟨s', hpick, -, -, -, hleast, hlast, htop⟩ := pickNext_spec (H := H) hs.heap hq
    have hnodup := hs.nodup
    rw [hq] at hnodup
    have hnext : next ∉ rest := (List.nodup_cons.mp hnodup).1
    rw [hpick]
    by_cases hrest : rest = []
    · subst hrest
      rw [hq, List.mem_singleton] at hp
      rw [hlast rfl, ← hp]
      exact hlt
    · obtain ⟨top, hmem, hmin, htop⟩ := htop hrest
      -- one of the tasks below the clock stays in the queue
      obtain ⟨q, hqrest, hqlt⟩ : ∃ q ∈ rest, (s.cfs q).vruntime < s.sched.minVruntime := by
        rw [hq] at hp hbad
        obtain rfl | hp := List.mem_cons.mp hp
        · obtain ⟨q, hqmem, hqp, hqlt⟩ | hall := hbad
          · exact ⟨q, (List.mem_cons.mp hqmem).resolve_left hqp, hqlt⟩
          · obtain rfl := hall top (List.mem_cons_of_mem _ hmem)
            exact absurd hmem hnext
        · exact ⟨p, hp, hlt⟩
      have hle := htop q hqrest
      simp only [CfsState.vruntime] at hle
      rw [hmin, BitVec.lt_def] at *
      omega

theorem CfsState.Steady.congr (h : s.Steady) (hqueue : s'.sched.readyQueue = s.sched.readyQueue)
    (hmin : s'.sched.minVruntime = s.sched.minVruntime)
    (hv : ∀ q ∈ s.sched.readyQueue, (s'.cfs q).vruntime = (s.cfs q).vruntime) : s'.Steady := by
  intro p hp hlt
  rw [hqueue] at hp
  rw [hv p hp, hmin] at hlt
  obtain ⟨hothers, q, hq, hqp⟩ := h p hp hlt
  rw [hqueue, hmin]
  refine ⟨?_, q, hq, hqp⟩
  intro q hq hqp
  rw [hv q hq]
  exact hothers q hq hqp

theorem minVruntime_onTick {c : Ptr} : (onTick c s).2.sched.minVruntime = s.sched.minVruntime := by
  simp only [onTick]
  split
  · rfl
  · split <;> rfl

theorem cfs_enqueue_of_ne {t q : Ptr} (h : q ≠ t) : (enqueue H t s).cfs q = s.cfs q :=
  Function.update_of_ne h _ _

theorem vruntime_enqueue {t : Ptr} : ((enqueue H t s).cfs t).vruntime =
    if (s.cfs t).vruntime = 0 then s.sched.minVruntime else (s.cfs t).vruntime := by
  simp [enqueue, legalise]

theorem steady_enqueue_iff (h : s.Steady) (hs : s.Ordered) {t : Ptr} (ht : t ∉ s.sched.readyQueue) :
    (enqueue H t s).Steady ↔ (CfsOp.enqueue (some t)).KeepsClock s := by
  obtain ⟨-, hperm⟩ := readyQueue_enqueue_perm (H := H) hs ht
  have hmin : (enqueue H t s).sched.minVruntime = s.sched.minVruntime := rfl
  have hold : ∀ {q}, q ∈ s.sched.readyQueue → (enqueue H t s).cfs q = s.cfs q := by
    intro q hq
    exact cfs_enqueue_of_ne fun he => ht (he ▸ hq)
  have hmem : ∀ q, q ∈ (enqueue H t s).sched.readyQueue ↔ q = t ∨ q ∈ s.sched.readyQueue := by
    intro q
    rw [hperm.mem_iff, List.mem_cons]
  by_cases hnew : s.sched.minVruntime ≤ ((enqueue H t s).cfs t).vruntime
  · -- the task is not below the clock
    have hkeep : (CfsOp.enqueue (some t)).KeepsClock s := by
      rw [vruntime_enqueue] at hnew
      by_cases h0 : (s.cfs t).vruntime = 0
      · exact Or.inl h0
      · rw [if_neg h0] at hnew
        exact Or.inr (Or.inl hnew)
    refine iff_of_true ?_ hkeep
    intro p hp hlt
    rw [hmin] at hlt ⊢
    obtain rfl | hp := (hmem p).mp hp
    · exact absurd hnew (BitVec.not_le.mpr hlt)
    · rw [hold hp] at hlt
      obtain ⟨hothers, q, hq, hqp⟩ := h p hp hlt
      refine ⟨?_, q, (hmem q).mpr (Or.inr hq), hqp⟩
      intro q hq hqp
      obtain rfl | hq := (hmem q).mp hq
      · exact hnew
      · rw [hold hq]
        exact hothers q hq hqp
  · have hbelow := BitVec.not_le.mp hnew
    have hv : (s.cfs t).vruntime ≠ 0 ∧ (s.cfs t).vruntime < s.sched.minVruntime := by
      rw [vruntime_enqueue] at hbelow
      split at hbelow
      · exact absurd hbelow (BitVec.lt_irrefl _)
      · rename_i h0
        exact ⟨h0, hbelow⟩
    constructor
    · intro hsteady
      obtain ⟨hothers, q, hq, hqt⟩ := hsteady t ((hmem t).mpr (Or.inl rfl)) hbelow
      refine Or.inr (Or.inr ⟨List.ne_nil_of_mem (((hmem q).mp hq).resolve_left hqt), ?_⟩)
      intro q hq
      have hge := hothers q ((hmem q).mpr (Or.inr hq)) (fun he => ht (he ▸ hq))
      rwa [hold hq] at hge
    · rintro (h0 | hge | ⟨hne, hall⟩)
      · exact absurd h0 hv.1
      · exact absurd hge (BitVec.not_le.mpr hv.2)
      · intro p hp hlt
        have hpt : p = t := by
          refine ((hmem p).mp hp).resolve_right fun hp => ?_
          rw [hold hp] at hlt
          exact absurd (hall p hp) (BitVec.not_le.mpr hlt)
        subst hpt
        refine ⟨?_, ?_⟩
        · intro q hq hqp
          have hq := ((hmem q).mp hq).resolve_left hqp
          rw [hold hq]
          exact hall q hq
        · obtain ⟨q, hq⟩ := List.exists_mem_of_ne_nil _ hne
          exact ⟨q, (hmem q).mpr (Or.inr hq), fun he => ht (he ▸ hq)⟩

theorem steady_dequeue_iff (h : s.Steady) (hs : s.Ordered) (t : Ptr) :
    (dequeue H t s).Steady ↔ (CfsOp.dequeue (some t)).KeepsClock s := by
  obtain ⟨-, hperm⟩ := readyQueue_dequeue hs.heap H t
  have hmem : ∀ q, q ∈ (dequeue H t s).sched.readyQueue ↔ q ∈ s.sched.readyQueue ∧ q ≠ t := by
    intro q
    rw [hperm.mem_iff, List.mem_filter, decide_eq_true_eq]
  constructor
  · intro hsteady p hp hpt hlt
    obtain ⟨-, q, hq, hqp⟩ := hsteady p ((hmem p).mpr ⟨hp, hpt⟩) hlt
    obtain ⟨hq, hqt⟩ := (hmem q).mp hq
    exact ⟨q, hq, hqp, hqt⟩
  · intro hkeep p hp hlt
    obtain ⟨hp, hpt⟩ := (hmem p).mp hp
    obtain ⟨hothers, -⟩ := h p hp hlt
    obtain ⟨q, hq, hqp, hqt⟩ := hkeep p hp hpt hlt
    exact ⟨fun q hq hqp => hothers q ((hmem q).mp hq).1 hqp, q, (hmem q).mpr ⟨hq, hqt⟩, hqp⟩

theorem steady_apply_iff (h : s.Steady) (hs : s.Ordered) (hop : op.Allowed s) :
    (op.apply H s).Steady ↔ op.KeepsClock s := by
  cases op with
  | enqueue task =>
    cases task with
    | none => exact iff_of_true h trivial
    | some t => exact steady_enqueue_iff h hs hop
  | dequeue task =>
    cases task with
    | none => exact iff_of_true h trivial
    | some t => exact steady_dequeue_iff h hs t
  | pickNext => exact iff_of_true (h.pickNext hs).2 trivial
  | onTick current =>
    refine iff_of_true (h.congr readyQueue_onTick minVruntime_onTick ?_) trivial
    intro q hq
    have hne : q ≠ current := fun he => hop (he ▸ hq)
    rw [CfsOp.apply, cfs_onTick, Function.update_of_ne hne]
  | outside cfs => exact iff_of_true (h.congr rfl rfl hop) trivial

theorem minVruntime_apply (h : s.Steady) (hs : s.Ordered) (op : CfsOp) :
    s.sched.minVruntime ≤ (op.apply H s).sched.minVruntime := by
  cases op with
  | enqueue task => cases task <;> exact BitVec.le_refl _
  | dequeue task => cases task <;> exact BitVec.le_refl _
  | pickNext => exact (h.pickNext hs).1
  | onTick current =>
    rw [CfsOp.apply, minVruntime_onTick]
    exact BitVec.le_refl _
  | outside cfs => exact BitVec.le_refl _

theorem punctual_run (hs : s.Ordered) (h : s.Steady)
    (hrun : Reached (CfsOp.step H) CfsOp.Punctual s s') :
    s'.Ordered ∧ s'.Steady ∧ s.sched.minVruntime ≤ s'.sched.minVruntime := by
  apply hrun.invariant (I := fun s' => s'.Ordered ∧ s'.Steady ∧ s.sched.minVruntime ≤ s'.sched.minVruntime)
  · exact ⟨hs, h, BitVec.le_refl _⟩
  · rintro t op t' ⟨ht, hsteady, hle⟩ ⟨hallowed, hkeep⟩ hstep
    cases hstep
    exact ⟨ht.apply hallowed, (steady_apply_iff hsteady ht hallowed).mpr hkeep,
      BitVec.le_trans hle (minVruntime_apply hsteady ht op)⟩

/-- Between two states of a punctual history `min_vruntime_` does not decrease, and a new task
enqueued in the later one does not start below one enqueued in the earlier one. The condition
is as weak as one on single operations can be: if an operation breaks it, the next
`PickNext` takes the clock back. -/
theorem cfs_clock_forward {cfs₀ : Ptr → CfsData}
    (h : Reached (CfsOp.step H) CfsOp.Punctual { cfs := cfs₀ } s)
    (hrun : Reached (CfsOp.step H) CfsOp.Punctual s s') :
    s.sched.minVruntime ≤ s'.sched.minVruntime ∧
    (∀ t t', (s.cfs t).vruntime = 0 → (s'.cfs t').vruntime = 0 →
      ((enqueue H t s).cfs t).vruntime ≤ ((enqueue H t' s').cfs t').vruntime) ∧
    ∀ op : CfsOp, op.Allowed s → ¬ op.KeepsClock s →
      (pickNext H (op.apply H s)).2.sched.minVruntime < (op.apply H s).sched.minVruntime := by
  have hempty : CfsState.Steady { cfs := cfs₀ } := CfsState.steady_of_forall (by simp)
  obtain ⟨hs, hsteady, -⟩ := punctual_run (ordered_start cfs₀) hempty h
  obtain ⟨-, -, hle⟩ := punctual_run hs hsteady hrun
  refine ⟨hle, ?_, ?_⟩
  · intro t t' ht ht'
    rw [vruntime_enqueue, vruntime_enqueue, if_pos ht, if_pos ht']
    exact hle
  · intro op hop hbreak
    exact pickNext_lowers (mt (steady_apply_iff hsteady hs hop).mp hbreak) (hs.apply hop)

/-- A task at 500 is enqueued and picked: the clock is at 500, and so is a new task. -/
theorem cfs_clock_forward_example : ∃ s',
    Reached (CfsOp.step (sortingHeap Ptr)) CfsOp.Punctual
      { cfs := fun p => ⟨if p = 1 then 500 else 0, 1024⟩ } s' ∧
    s'.sched.minVruntime = 500 ∧
    ((enqueue (sortingHeap Ptr) 2 { cfs := fun p => ⟨if p = 1 then 500 else 0, 1024⟩ }).cfs 2).vruntime ≤
      ((enqueue (sortingHeap Ptr) 3 s').cfs 3).vruntime := by
  have h₁ : Reached (CfsOp.step (sortingHeap Ptr)) CfsOp.Punctual
      { cfs := fun p => ⟨if p = 1 then 500 else 0, 1024⟩ } _ :=
    Reached.start.step (CfsOp.enqueue (some 1)) ⟨by simp [CfsOp.Allowed], Or.inr (Or.inl (by decide))⟩ rfl
  have h₂ := h₁.step CfsOp.pickNext ⟨trivial, trivial⟩ rfl
  obtain ⟨-, hnew, -⟩ := cfs_clock_forward .start h₂
  exact ⟨_, h₂, rfl, hnew 2 3 rfl rfl⟩

/-- Task 1 blocks at 1000 while task 2 runs on to 3000. When it is back and task 2 blocks,
the clock goes from 3000 to 1000, and with it the start of a new task. -/
theorem cfs_clock_backward : ∃ s,
    Reached (CfsOp.step (sortingHeap Ptr)) CfsOp.Allowed { cfs := fun _ => ⟨0, 1024⟩ } s ∧
    (CfsOp.enqueue (some 1)).Allowed s ∧ s.sched.minVruntime = 3000 ∧ (s.cfs 3).vruntime = 0 ∧
    (pickNext (sortingHeap Ptr) (enqueue (sortingHeap Ptr) 1 s)).2.sched.minVruntime = 1000 := by
  have h₀ : Reached (CfsOp.step (sortingHeap Ptr)) CfsOp.Allowed { cfs := fun _ => ⟨0, 1024⟩ } _ := .start
  obtain ⟨s, h, hqueue, hstate⟩ := h₀.exists_replay (R := fun s => s.sched.readyQueue = [] ∧
      s.sched.minVruntime = 3000 ∧ (s.cfs 3).vruntime = 0 ∧
      (pickNext (sortingHeap Ptr) (enqueue (sortingHeap Ptr) 1 s)).2.sched.minVruntime = 1000)
    (fun s op => op.check s) (fun _ _ _ => CfsOp.allowed_of_check)
    [.enqueue (some 1), .enqueue (some 2), .pickNext, .onTick 1, .pickNext, .onTick 2, .onTick 2,
      .onTick 2, .enqueue (some 2), .pickNext] (by decide +kernel)
  exact ⟨s, h, by simp [CfsOp.Allowed, hqueue], hstate⟩

end Clock

/-! ## Giving way -/

section GivingWay

/-- The weight of the task is not changed elsewhere. -/
def CfsOp.KeepsWeight (t : Ptr) (s : CfsState) : CfsOp → Prop
  | outside cfs => (cfs t).weight = (s.cfs t).weight
  | _ => True

theorem CfsOp.keepsWeight_of_check {t : Ptr} {s : CfsState} {op : CfsOp} (h : op.check s = true) :
    op.KeepsWeight t s := by
  cases op with
  | outside cfs => cases h
  | _ => trivial

/-- `n` ticks of the task. -/
def CfsState.ticked (t : Ptr) (n : ℕ) (s : CfsState) : CfsState :=
  (fun s => (onTick t s).2)^[n] s

variable {H : HeapAlgorithms Ptr} {s : CfsState} {t : Ptr} {op : CfsOp}

theorem weight_enqueue : ((enqueue H t s).cfs t).weight ≠ 0 := by
  simp only [enqueue, legalise, Function.update_self]
  split
  · decide
  · assumption

theorem weight_apply (hw : (s.cfs t).weight ≠ 0) (hop : op.KeepsWeight t s) :
    ((op.apply H s).cfs t).weight ≠ 0 := by
  cases op with
  | enqueue task =>
    cases task with
    | none => exact hw
    | some p =>
      by_cases hp : t = p
      · subst hp
        exact weight_enqueue
      · rw [CfsOp.apply, cfs_enqueue_of_ne hp]
        exact hw
  | dequeue task => cases task <;> exact hw
  | pickNext =>
    have hcfs : (CfsOp.pickNext.apply H s).cfs = s.cfs := by
      simp only [CfsOp.apply, pickNext]
      split <;> rfl
    rwa [hcfs]
  | onTick current =>
    rw [CfsOp.apply, cfs_onTick]
    by_cases hp : t = current
    · subst hp
      simpa using hw
    · rwa [Function.update_of_ne hp]
  | outside cfs =>
    rw [CfsOp.KeepsWeight] at hop
    simpa [CfsOp.apply, hop] using hw

theorem charge_pos_iff (hw : (s.cfs t).weight ≠ 0) :
    0 < charge s.cfs t ↔ (s.cfs t).weight.toNat ≤ 1024000 := by
  have hpos : 0 < (s.cfs t).weight.toNat :=
    Nat.pos_of_ne_zero fun h0 => hw (BitVec.eq_of_toNat_eq h0)
  rw [charge_eq, Nat.div_pos_iff]
  omega

theorem vruntime_onTick : (onTick t s).2.vruntime t = (s.vruntime t + charge s.cfs t) % 2 ^ 64 := by
  rw [CfsState.vruntime, cfs_onTick, Function.update_self, BitVec.toNat_add]
  rfl

theorem charge_onTick : charge (onTick t s).2.cfs t = charge s.cfs t := by
  rw [charge, cfs_onTick, Function.update_self]
  rfl

theorem ticked_spec (hs : s.Ordered) (ht : t ∉ s.sched.readyQueue) (n : ℕ) :
    (s.ticked t n).Ordered ∧ (s.ticked t n).sched.readyQueue = s.sched.readyQueue ∧
    (∀ q, q ≠ t → (s.ticked t n).cfs q = s.cfs q) ∧
    charge (s.ticked t n).cfs t = charge s.cfs t ∧
    (s.ticked t n).vruntime t = (s.vruntime t + n * charge s.cfs t) % 2 ^ 64 := by
  induction n with
  | zero =>
    refine ⟨hs, rfl, fun _ _ => rfl, rfl, ?_⟩
    have hlt : s.vruntime t < 2 ^ 64 := (s.cfs t).vruntime.isLt
    simp only [CfsState.ticked, Function.iterate_zero, id, Nat.zero_mul, Nat.add_zero]
    omega
  | succ n ih =>
    obtain ⟨hordered, hqueue, hcfs, hcharge, hv⟩ := ih
    have hnext : s.ticked t (n + 1) = (onTick t (s.ticked t n)).2 := Function.iterate_succ_apply' _ _ _
    rw [hnext]
    refine ⟨?_, readyQueue_onTick.trans hqueue, ?_, charge_onTick.trans hcharge, ?_⟩
    · exact hordered.onTick (by rwa [hqueue])
    · intro q hq
      rw [cfs_onTick, Function.update_of_ne hq]
      exact hcfs q hq
    · rw [vruntime_onTick, hcharge, hv, Nat.mod_add_mod, Nat.add_mul, Nat.one_mul, Nat.add_assoc]

theorem onTick_ticked (hs : s.Ordered) (ht : t ∉ s.sched.readyQueue) {q : Ptr}
    (hq : q ∈ s.sched.readyQueue) {n : ℕ}
    (hpast : s.vruntime q + kMinGranularity.toNat < s.vruntime t + (n + 1) * charge s.cfs t)
    (hlimit : s.vruntime t + (n + 1) * charge s.cfs t < vruntimeLimit) :
    (onTick t (s.ticked t n)).1 = true := by
  obtain ⟨hordered, hqueue, hcfs, -, -⟩ := ticked_spec hs ht n
  obtain ⟨-, -, -, -, hv⟩ := ticked_spec hs ht (n + 1)
  have hnext : s.ticked t (n + 1) = (onTick t (s.ticked t n)).2 := Function.iterate_succ_apply' _ _ _
  have hkeep : ∀ p ∈ s.sched.readyQueue, (s.ticked t n).vruntime p = s.vruntime p := by
    intro p hp
    rw [CfsState.vruntime, hcfs p fun he => ht (he ▸ hp)]
    rfl
  obtain ⟨top, htop, hleast⟩ := s.sched.readyQueue.toFinset.exists_min_image s.vruntime
    ⟨q, List.mem_toFinset.mpr hq⟩
  simp only [List.mem_toFinset] at htop hleast
  rw [onTick_eq_true hordered (by rwa [hqueue]), hqueue, ← hnext]
  refine ⟨top, htop, ?_, ?_⟩
  · intro p hp
    rw [hkeep top htop, hkeep p hp]
    exact hleast p hp
  · have hle := hleast q hq
    have hsum : ((s.ticked t n).cfs top).vruntime.toNat = s.vruntime top := hkeep top htop
    have hnew : ((s.ticked t (n + 1)).cfs t).vruntime.toNat = s.vruntime t + (n + 1) * charge s.cfs t := by
      refine hv.trans (Nat.mod_eq_of_lt ?_)
      unfold vruntimeLimit at hlimit
      omega
    unfold vruntimeLimit at hlimit
    rw [BitVec.lt_def, BitVec.toNat_add, hsum, hnew, Nat.mod_eq_of_lt (by omega)]
    omega

/-- A task that has been enqueued has a weight, so that `OnTick` never divides by zero. Its
`vruntime` grows with each tick exactly if the weight is at most 1024000 and nothing wraps.
With such a weight it must give way to any queued task as soon as it is more than the
granularity ahead; with a greater one its `vruntime` stands still. -/
theorem cfs_running_gives_way {cfs₀ : Ptr → CfsData} {s₀ : CfsState}
    (h₀ : Reached (CfsOp.step H) CfsOp.Allowed { cfs := cfs₀ } s₀) (ht₀ : t ∉ s₀.sched.readyQueue)
    (h : Reached (CfsOp.step H) (fun s op => op.Allowed s ∧ op.KeepsWeight t s) (enqueue H t s₀) s) :
    (s.cfs t).weight ≠ 0 ∧
    (s.vruntime t < (onTick t s).2.vruntime t ↔
      (s.cfs t).weight.toNat ≤ 1024000 ∧ s.vruntime t + charge s.cfs t < 2 ^ 64) ∧
    ((s.cfs t).weight.toNat ≤ 1024000 → t ∉ s.sched.readyQueue → ∀ q ∈ s.sched.readyQueue, ∃ n,
      s.vruntime t + n * charge s.cfs t ≤ max (s.vruntime t) (s.vruntime q + kMinGranularity.toNat) ∧
      (s.vruntime t + (n + 1) * charge s.cfs t < vruntimeLimit → (onTick t (s.ticked t n)).1 = true)) ∧
    (1024000 < (s.cfs t).weight.toNat → t ∉ s.sched.readyQueue →
      ∀ n, (s.ticked t n).vruntime t = s.vruntime t) := by
  have hs₀ := ordered_run h₀
  have hfirst : (CfsOp.enqueue (some t)).Allowed s₀ := ht₀
  obtain ⟨hs, hw⟩ : s.Ordered ∧ (s.cfs t).weight ≠ 0 := by
    apply h.invariant (I := fun s => s.Ordered ∧ (s.cfs t).weight ≠ 0)
    · exact ⟨hs₀.apply hfirst, weight_enqueue⟩
    · rintro s op s' ⟨hs, hw⟩ ⟨hop, hkeep⟩ hstep
      cases hstep
      exact ⟨hs.apply hop, weight_apply hw hkeep⟩
  have hlt : s.vruntime t < 2 ^ 64 := (s.cfs t).vruntime.isLt
  have hpos := charge_pos_iff hw
  refine ⟨hw, ?_, ?_, ?_⟩
  · have hcharge : charge s.cfs t ≤ 1024000 := by
      rw [charge_eq]
      exact Nat.div_le_self _ _
    rw [vruntime_onTick]
    omega
  · intro hweight ht q hq
    have hδ := hpos.mpr hweight
    refine ⟨(s.vruntime q + kMinGranularity.toNat - s.vruntime t) / charge s.cfs t, ?_, ?_⟩
    · have hmul := Nat.div_mul_le_self (s.vruntime q + kMinGranularity.toNat - s.vruntime t) (charge s.cfs t)
      omega
    · intro hlimit
      refine onTick_ticked hs ht hq ?_ hlimit
      have hmul := Nat.lt_div_mul_add (a := s.vruntime q + kMinGranularity.toNat - s.vruntime t) hδ
      rw [Nat.add_mul, Nat.one_mul]
      omega
  · intro hweight ht n
    obtain ⟨-, -, -, -, hv⟩ := ticked_spec hs ht n
    have hzero : charge s.cfs t = 0 := by omega
    rw [hv, hzero, Nat.mul_zero, Nat.add_zero, Nat.mod_eq_of_lt hlt]

/-- A task of the default weight, picked before one that is level with it. -/
theorem cfs_running_gives_way_example : ∃ s : CfsState,
    (s.cfs 1).weight = 1024 ∧ s.sched.readyQueue = [2] ∧ s.vruntime 1 < (onTick 1 s).2.vruntime 1 ∧
      ∃ n, n * 1000 ≤ 10 ∧ (onTick 1 (s.ticked 1 n)).1 = true := by
  have h₀ : Reached (CfsOp.step (sortingHeap Ptr)) CfsOp.Allowed { cfs := fun _ => ⟨0, 1024⟩ } _ := .start
  have h₁ : Reached (CfsOp.step (sortingHeap Ptr)) (fun s op => op.Allowed s ∧ op.KeepsWeight 1 s)
      (enqueue (sortingHeap Ptr) 1 { cfs := fun _ => ⟨0, 1024⟩ }) _ := .start
  obtain ⟨s, h, hqueue, hweight, hcharge, hv₁, hv₂⟩ := h₁.exists_replay
    (R := fun s => s.sched.readyQueue = [2] ∧ (s.cfs 1).weight = 1024 ∧ charge s.cfs 1 = 1000 ∧
      s.vruntime 1 = 0 ∧ s.vruntime 2 = 0)
    (fun s op => op.check s)
    (fun _ _ _ hc => ⟨CfsOp.allowed_of_check hc, CfsOp.keepsWeight_of_check hc⟩)
    [.enqueue (some 2), .pickNext] (by decide +kernel)
  obtain ⟨-, hgrows, hway, -⟩ := cfs_running_gives_way h₀ (by simp) h
  rw [hcharge, hv₁, hweight] at hgrows hway
  obtain ⟨n, hn, htrue⟩ := hway (by decide) (by simp [hqueue]) 2 (by simp [hqueue])
  have hg : kMinGranularity.toNat = 10 := rfl
  have hl : vruntimeLimit = 2 ^ 64 - 10 := rfl
  rw [hv₂, hg] at hn
  refine ⟨s, hweight, hqueue, ?_, n, by omega, htrue (by rw [hl]; omega)⟩
  rw [hv₁]
  exact hgrows.mpr ⟨by decide, by norm_num⟩

/-- A task of weight 1024001 is not charged: it runs next to a task that is level with it and
never has to give way. -/
theorem cfs_heavy_task_stays : ∃ s,
    Reached (CfsOp.step (sortingHeap Ptr)) CfsOp.Allowed
      { cfs := fun p => ⟨0, if p = 1 then 1024001 else 1024⟩ } s ∧
    (s.cfs 1).weight = 1024001 ∧ s.sched.readyQueue = [2] ∧
    ∀ n, (s.ticked 1 n).vruntime 1 = 0 ∧ (onTick 1 (s.ticked 1 n)).1 = false := by
  have h₀ : Reached (CfsOp.step (sortingHeap Ptr)) CfsOp.Allowed
      { cfs := fun p => ⟨0, if p = 1 then 1024001 else 1024⟩ } _ := .start
  obtain ⟨s, h, hqueue, hweight, hcharge, hv⟩ := h₀.exists_replay
    (R := fun s => s.sched.readyQueue = [2] ∧ (s.cfs 1).weight = 1024001 ∧ charge s.cfs 1 = 0 ∧
      s.vruntime 1 = 0)
    (fun s op => op.check s) (fun _ _ _ => CfsOp.allowed_of_check)
    [.enqueue (some 1), .enqueue (some 2), .pickNext] (by decide +kernel)
  have hs := ordered_run h
  have ht : 1 ∉ s.sched.readyQueue := by simp [hqueue]
  refine ⟨s, h, hweight, hqueue, ?_⟩
  intro n
  obtain ⟨hordered, hqueue', -, hcharge', hvn⟩ := ticked_spec hs ht n
  rw [hcharge, hv] at hvn
  have hstand : (s.ticked 1 n).vruntime 1 = 0 := by simpa using hvn
  refine ⟨hstand, Bool.eq_false_iff.mpr fun htrue => ?_⟩
  rw [onTick_eq_true hordered (by rwa [hqueue'])] at htrue
  obtain ⟨top, -, -, hlt⟩ := htrue
  have hnew : ((onTick 1 (s.ticked 1 n)).2.cfs 1).vruntime.toNat = 0 := by
    have htick := vruntime_onTick (t := 1) (s := s.ticked 1 n)
    rw [hcharge', hcharge, hstand] at htick
    exact htick
  rw [BitVec.lt_def, hnew] at hlt
  exact Nat.not_lt_zero _ hlt

end GivingWay

end NaiLongKernel.Task
