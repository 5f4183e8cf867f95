import NaiLongKernel.Foundation.PriorityHeap
import NaiLongKernel.Foundation.VirtualTime
import NaiLongKernel.Task.Scheduler

/-!
# The fair scheduler

`CfsScheduler` keeps its ready tasks in a heap by `vruntime`. A core that it schedules ticks
and yields; the heap algorithms are any that meet their contract. The members `cfs` of the
tasks are kept by pointer, in 64 and 32 bits as the source has them.
-/
namespace NaiLongKernel.Task

open Foundation

structure CfsScheduler where
  readyQueue : List Ptr := []
  minVruntime : BitVec 64 := 0
  stats : Stats := {}

/-- A scheduler and the tasks it reads and writes. -/
structure CfsState where
  cfs : Ptr → CfsData
  sched : CfsScheduler := {}

namespace CfsScheduler

def kDefaultWeight : BitVec 32 := 1024

def kMinGranularity : BitVec 64 := 10

/-- `VruntimeCompare`: the top of the heap has the least `vruntime`. -/
def vruntimeCompare (cfs : Ptr → CfsData) (a b : Ptr) : Bool :=
  decide ((cfs b).vruntime < (cfs a).vruntime)

/-- The charge for a tick; the product and the quotient are 32 bits wide. -/
def delta (weight : BitVec 32) : BitVec 64 := (kDefaultWeight * 1000 / weight).setWidth 64

variable (H : HeapAlgorithms Ptr)

/-- A new task starts at `min_vruntime_`, and a task without weight gets the default one. -/
def legalise (minVruntime : BitVec 64) (d : CfsData) : CfsData :=
  { vruntime := if d.vruntime = 0 then minVruntime else d.vruntime
    weight := if d.weight = 0 then kDefaultWeight else d.weight }

def enqueue (task : Ptr) (s : CfsState) : CfsState :=
  let cfs := Function.update s.cfs task (legalise s.sched.minVruntime (s.cfs task))
  { cfs := cfs
    sched := { s.sched with
      readyQueue := H.push (vruntimeCompare cfs) s.sched.readyQueue task
      stats := { s.sched.stats with totalEnqueues := s.sched.stats.totalEnqueues + 1 } } }

def pickNext (s : CfsState) : Option Ptr × CfsState :=
  match s.sched.readyQueue with
  | [] => (none, s)
  | next :: rest =>
    let queue := H.pop (vruntimeCompare s.cfs) (next :: rest)
    (some next, { s with sched := {
      readyQueue := queue
      minVruntime := match queue with
        | top :: _ => (s.cfs top).vruntime
        | [] => (s.cfs next).vruntime
      stats := { s.sched.stats with totalPicks := s.sched.stats.totalPicks + 1 } } })

/-- `current` is charged; with whether it must give way to the top of the heap. -/
def onTick (current : Ptr) (s : CfsState) : Bool × CfsState :=
  let d := s.cfs current
  let s := { s with
    cfs := Function.update s.cfs current { d with vruntime := d.vruntime + delta d.weight } }
  match s.sched.readyQueue with
  | [] => (false, s)
  | next :: _ =>
    if (s.cfs next).vruntime + kMinGranularity < (s.cfs current).vruntime then
      (true, { s with sched := { s.sched with stats := { s.sched.stats with
        totalPreemptions := s.sched.stats.totalPreemptions + 1 } } })
    else (false, s)

end CfsScheduler

open CfsScheduler

/-- A core that runs `current`, with the number of ticks that each task has received. -/
structure CfsCore where
  state : CfsState
  current : Ptr
  ticks : Ptr → ℕ

namespace CfsCore

variable (H : HeapAlgorithms Ptr)

/-- `Enqueue(current)` and `current := PickNext`. -/
def yield (m : CfsCore) : Option CfsCore :=
  match pickNext H (enqueue H m.current m.state) with
  | (some next, s) => some { m with state := s, current := next }
  | (none, _) => none

/-- `OnTick(current)`, and a yield when it says so. -/
def tick (m : CfsCore) : Option CfsCore :=
  let r := onTick m.current m.state
  let m := { m with
    state := r.2
    ticks := Function.update m.ticks m.current (m.ticks m.current + 1) }
  if r.1 then m.yield H else some m

/-- The `vruntime` of a task as a number. -/
def vruntime (m : CfsCore) (p : Ptr) : ℕ := (m.state.cfs p).vruntime.toNat

end CfsCore

def charge (cfs : Ptr → CfsData) (p : Ptr) : ℕ := (delta (cfs p).weight).toNat

/-- No `vruntime` may come to `2^64 - kMinGranularity`. -/
def vruntimeLimit : ℕ := 2 ^ 64 - kMinGranularity.toNat

/-- The runs of a core: all `tasks` are enqueued and one is picked, and then ticks and yields
come in any order. -/
inductive CfsRun (H : HeapAlgorithms Ptr) (tasks : List Ptr) (cfs : Ptr → CfsData) :
    CfsCore → Prop where
  | start {c : Ptr} {s : CfsState} :
      pickNext H (tasks.foldl (fun s p => enqueue H p s) { cfs := cfs }) = (some c, s) →
      CfsRun H tasks cfs ⟨s, c, fun _ => 0⟩
  | tick {m m' : CfsCore} : CfsRun H tasks cfs m →
      m.vruntime m.current + charge m.state.cfs m.current < vruntimeLimit →
      m.tick H = some m' → CfsRun H tasks cfs m'
  | yield {m m' : CfsCore} : CfsRun H tasks cfs m → m.yield H = some m' → CfsRun H tasks cfs m'

namespace CfsScheduler

variable {H : HeapAlgorithms Ptr} {cfs : Ptr → CfsData} {s : CfsState} {p : Ptr}

theorem toNat_delta (w : BitVec 32) : (delta w).toNat = 1024000 / w.toNat := by
  have hprod : (kDefaultWeight * 1000).toNat = 1024000 := rfl
  have hlt : 1024000 / w.toNat < 2 ^ 64 := lt_of_le_of_lt (Nat.div_le_self _ _) (by norm_num)
  rw [delta, BitVec.toNat_setWidth, BitVec.toNat_udiv, hprod, Nat.mod_eq_of_lt hlt]

theorem charge_eq (cfs : Ptr → CfsData) (p : Ptr) :
    charge cfs p = 1024000 / (cfs p).weight.toNat :=
  toNat_delta _

theorem vruntimeCompare_eq (cfs : Ptr → CfsData) : vruntimeCompare cfs =
    fun a b => decide ((cfs b).vruntime.toNat < (cfs a).vruntime.toNat) := by
  funext a b
  simp [vruntimeCompare, BitVec.lt_def]

theorem vruntimeCompare_strict (cfs : Ptr → CfsData) : StrictWeak (vruntimeCompare cfs) := by
  rw [vruntimeCompare_eq]
  exact strictWeak_of_key fun p => (cfs p).vruntime.toNat

theorem vruntimeCompare_eq_false {a b : Ptr} :
    vruntimeCompare cfs a b = false ↔ (cfs a).vruntime.toNat ≤ (cfs b).vruntime.toNat := by
  simp [vruntimeCompare_eq]

theorem legalise_eq {d : CfsData} (hv : d.vruntime ≠ 0) (hw : d.weight ≠ 0) (m : BitVec 64) :
    legalise m d = d := by
  rw [legalise, if_neg hv, if_neg hw]

theorem cfs_enqueue (hv : (s.cfs p).vruntime ≠ 0) (hw : (s.cfs p).weight ≠ 0) :
    (enqueue H p s).cfs = s.cfs := by
  rw [enqueue, legalise_eq hv hw]
  exact Function.update_eq_self p s.cfs

theorem readyQueue_enqueue (hv : (s.cfs p).vruntime ≠ 0) (hw : (s.cfs p).weight ≠ 0) :
    (enqueue H p s).sched.readyQueue = H.push (vruntimeCompare s.cfs) s.sched.readyQueue p := by
  rw [enqueue, legalise_eq hv hw, Function.update_eq_self]

theorem pickNext_cons {next : Ptr} {rest : List Ptr} (hq : s.sched.readyQueue = next :: rest) :
    ∃ s', pickNext H s = (some next, s') ∧ s'.cfs = s.cfs ∧
      s'.sched.readyQueue = H.pop (vruntimeCompare s.cfs) (next :: rest) := by
  refine ⟨(pickNext H s).2, ?_, ?_, ?_⟩ <;> simp only [pickNext, hq]

theorem cfs_onTick : (onTick p s).2.cfs = Function.update s.cfs p
    { s.cfs p with vruntime := (s.cfs p).vruntime + delta (s.cfs p).weight } := by
  simp only [onTick]
  split
  · rfl
  · split <;> rfl

theorem readyQueue_onTick : (onTick p s).2.sched.readyQueue = s.sched.readyQueue := by
  simp only [onTick]
  split
  · rfl
  · split <;> rfl

theorem onTick_eq_false {next : Ptr} {rest : List Ptr} (h : (onTick p s).1 = false)
    (hq : s.sched.readyQueue = next :: rest)
    (hlimit : ((onTick p s).2.cfs next).vruntime.toNat < vruntimeLimit) :
    ((onTick p s).2.cfs p).vruntime.toNat ≤
      ((onTick p s).2.cfs next).vruntime.toNat + kMinGranularity.toNat := by
  have hkeep : ¬ ((onTick p s).2.cfs next).vruntime + kMinGranularity <
      ((onTick p s).2.cfs p).vruntime := by
    rw [cfs_onTick]
    intro hlt
    simp only [onTick, hq] at h
    rw [if_pos hlt] at h
    cases h
  have hsum : (((onTick p s).2.cfs next).vruntime + kMinGranularity).toNat =
      ((onTick p s).2.cfs next).vruntime.toNat + kMinGranularity.toNat := by
    rw [BitVec.toNat_add]
    apply Nat.mod_eq_of_lt
    unfold vruntimeLimit at hlimit
    omega
  rw [BitVec.lt_def, hsum] at hkeep
  omega

end CfsScheduler

section Fairness

variable {H : HeapAlgorithms Ptr} {tasks : List Ptr} {cfs₀ : Ptr → CfsData} {v₀ D : ℕ}
variable {cfs : Ptr → CfsData} {ticks : Ptr → ℕ} {m m' : CfsCore}

/-- Weights are those of the start, and each `vruntime` is the charge for the ticks received. -/
structure Accounted (tasks : List Ptr) (cfs₀ : Ptr → CfsData) (v₀ : ℕ) (cfs : Ptr → CfsData)
    (ticks : Ptr → ℕ) : Prop where
  weight : ∀ p ∈ tasks, (cfs p).weight = (cfs₀ p).weight
  vruntime : ∀ p ∈ tasks, (cfs p).vruntime.toNat = v₀ + ticks p * charge cfs₀ p
  limit : ∀ p ∈ tasks, (cfs p).vruntime.toNat < vruntimeLimit

/-- The invariant of a core: no task is lost, and the running one may be charged. -/
structure CfsSound (tasks : List Ptr) (cfs₀ : Ptr → CfsData) (v₀ D : ℕ) (m : CfsCore) : Prop where
  perm : (m.current :: m.state.sched.readyQueue).Perm tasks
  heap : IsHeap (vruntimeCompare m.state.cfs) m.state.sched.readyQueue
  accounted : Accounted tasks cfs₀ v₀ m.state.cfs m.ticks
  balanced : Balanced {p | p ∈ tasks} kMinGranularity.toNat D m.vruntime m.current

theorem pickNext_sound {s : CfsState} (hne : tasks ≠ [])
    (hperm : s.sched.readyQueue.Perm tasks)
    (hheap : IsHeap (vruntimeCompare s.cfs) s.sched.readyQueue)
    (hacc : Accounted tasks cfs₀ v₀ s.cfs ticks)
    (hspread : Spread {p | p ∈ tasks} (kMinGranularity.toNat + D)
      fun p => (s.cfs p).vruntime.toNat) :
    ∃ next s', pickNext H s = (some next, s') ∧ CfsSound tasks cfs₀ v₀ D ⟨s', next, ticks⟩ := by
  cases hq : s.sched.readyQueue with
  | nil =>
    rw [hq] at hperm
    exact absurd hperm.symm.eq_nil hne
  | cons next rest =>
    rw [hq] at hperm hheap
    have hstrict := vruntimeCompare_strict s.cfs
    obtain ⟨s', hpick, hcfs, hqueue⟩ := pickNext_cons (H := H) hq
    refine ⟨next, s', hpick, ?_⟩
    constructor
    · simpa only [hqueue] using (H.pop_perm _ hstrict hheap).symm.trans hperm
    · simpa only [hqueue, hcfs] using H.pop_heap _ hstrict hheap
    · simpa only [hcfs] using hacc
    · have hv : CfsCore.vruntime ⟨s', next, ticks⟩ = fun p => (s.cfs p).vruntime.toNat := by
        funext p
        simp only [CfsCore.vruntime, hcfs]
      rw [hv]
      apply hspread.choose
      intro j hj
      exact vruntimeCompare_eq_false.mp (hheap.top_first hstrict j (hperm.mem_iff.mpr hj))

theorem Accounted.charged (h : Accounted tasks cfs₀ v₀ cfs ticks) {c : Ptr} (hc : c ∈ tasks)
    (hlimit : (cfs c).vruntime.toNat + charge cfs c < vruntimeLimit) :
    (cfs c).vruntime.toNat + charge cfs c = ((cfs c).vruntime + delta (cfs c).weight).toNat ∧
    Accounted tasks cfs₀ v₀ (Function.update cfs c
      { cfs c with vruntime := (cfs c).vruntime + delta (cfs c).weight })
      (Function.update ticks c (ticks c + 1)) := by
  have hsum : (cfs c).vruntime.toNat + charge cfs c =
      ((cfs c).vruntime + delta (cfs c).weight).toNat := by
    have hlt : (cfs c).vruntime.toNat + charge cfs c < 2 ^ 64 := by
      unfold vruntimeLimit at hlimit
      omega
    rw [BitVec.toNat_add]
    exact (Nat.mod_eq_of_lt hlt).symm
  have hcharge : charge cfs c = charge cfs₀ c := by simp only [charge, h.weight c hc]
  refine ⟨hsum, ?_⟩
  constructor <;> intro p hp <;> by_cases hpc : p = c
  · subst hpc
    simpa using h.weight p hp
  · simpa [hpc] using h.weight p hp
  · subst hpc
    have hv := h.vruntime p hp
    simp only [Function.update_self, ← hsum, hv, hcharge]
    ring
  · simpa [hpc] using h.vruntime p hp
  · subst hpc
    simpa [← hsum] using hlimit
  · simpa [hpc] using h.limit p hp

section Legal

variable (hpos : 1 ≤ v₀) (hw : ∀ p ∈ tasks, (cfs₀ p).weight ≠ 0)
include hpos hw

theorem Accounted.legal (h : Accounted tasks cfs₀ v₀ cfs ticks) {p : Ptr} (hp : p ∈ tasks) :
    (cfs p).vruntime ≠ 0 ∧ (cfs p).weight ≠ 0 := by
  constructor
  · intro hzero
    have hv := h.vruntime p hp
    rw [hzero] at hv
    have hnat : (0 : BitVec 64).toNat = 0 := rfl
    omega
  · rw [h.weight p hp]
    exact hw p hp

theorem yield_sound (hperm : (m.current :: m.state.sched.readyQueue).Perm tasks)
    (hheap : IsHeap (vruntimeCompare m.state.cfs) m.state.sched.readyQueue)
    (hacc : Accounted tasks cfs₀ v₀ m.state.cfs m.ticks)
    (hspread : Spread {p | p ∈ tasks} (kMinGranularity.toNat + D) m.vruntime) :
    ∃ m', m.yield H = some m' ∧ CfsSound tasks cfs₀ v₀ D m' := by
  have hmem : m.current ∈ tasks := hperm.mem_iff.mp List.mem_cons_self
  obtain ⟨hv, hweight⟩ := hacc.legal hpos hw hmem
  have hcfs : (enqueue H m.current m.state).cfs = m.state.cfs := cfs_enqueue hv hweight
  have hqueue := readyQueue_enqueue (H := H) hv hweight
  have hstrict := vruntimeCompare_strict m.state.cfs
  obtain ⟨next, s', hpick, hsound⟩ := pickNext_sound (H := H)
    (s := enqueue H m.current m.state) (List.ne_nil_of_mem hmem)
    (by rw [hqueue]; exact (H.push_perm _ _ hstrict hheap).trans hperm)
    (by rw [hqueue, hcfs]; exact H.push_heap _ _ hstrict hheap)
    (by rw [hcfs]; exact hacc) (by rw [hcfs]; exact hspread)
  exact ⟨⟨s', next, m.ticks⟩, by simp only [CfsCore.yield, hpick], hsound⟩

theorem tick_sound (hnodup : tasks.Nodup) (hD : ∀ p ∈ tasks, charge cfs₀ p ≤ D)
    (h : CfsSound tasks cfs₀ v₀ D m)
    (hlimit : m.vruntime m.current + charge m.state.cfs m.current < vruntimeLimit) :
    ∃ m', m.tick H = some m' ∧ CfsSound tasks cfs₀ v₀ D m' := by
  have hmem : m.current ∈ tasks := h.perm.mem_iff.mp List.mem_cons_self
  have hfresh : m.current ∉ m.state.sched.readyQueue :=
    (List.nodup_cons.mp (h.perm.nodup_iff.mpr hnodup)).1
  obtain ⟨hsum, hacc⟩ := h.accounted.charged hmem hlimit
  have hcharge : charge m.state.cfs m.current ≤ D := by
    simpa only [charge, h.accounted.weight _ hmem] using hD _ hmem
  -- the state after `OnTick`
  let m₁ : CfsCore := { m with
    state := (onTick m.current m.state).2
    ticks := Function.update m.ticks m.current (m.ticks m.current + 1) }
  have hcfs : m₁.state.cfs = _ := cfs_onTick
  have hqueue : m₁.state.sched.readyQueue = m.state.sched.readyQueue := readyQueue_onTick
  have hperm : (m₁.current :: m₁.state.sched.readyQueue).Perm tasks := by
    rw [hqueue]
    exact h.perm
  have hheap : IsHeap (vruntimeCompare m₁.state.cfs) m₁.state.sched.readyQueue := by
    rw [hqueue]
    apply h.heap.congr
    intro a ha b hb
    have hane : a ≠ m.current := fun hac => hfresh (hac ▸ ha)
    have hbne : b ≠ m.current := fun hbc => hfresh (hbc ▸ hb)
    simp only [vruntimeCompare, hcfs, Function.update_of_ne hane, Function.update_of_ne hbne]
  have hacc₁ : Accounted tasks cfs₀ v₀ m₁.state.cfs m₁.ticks := by
    rw [hcfs]
    exact hacc
  have hv : m₁.vruntime = Function.update m.vruntime m.current
      (m.vruntime m.current + charge m.state.cfs m.current) := by
    funext p
    by_cases hp : p = m.current
    · subst hp
      simpa [CfsCore.vruntime, hcfs] using hsum.symm
    · simp [CfsCore.vruntime, hcfs, hp]
  have hspread : Spread {p | p ∈ tasks} (kMinGranularity.toNat + D) m₁.vruntime := by
    rw [hv]
    exact h.balanced.charge hcharge
  simp only [CfsCore.tick]
  split
  · exact yield_sound hpos hw hperm hheap hacc₁ hspread
  · rename_i hkeep
    refine ⟨m₁, rfl, hperm, hheap, hacc₁, hspread, ?_⟩
    intro j hj
    rcases List.mem_cons.mp (hperm.mem_iff.mpr hj) with rfl | hj
    · exact Nat.le_add_right _ _
    · cases hq : m.state.sched.readyQueue with
      | nil => simp [hqueue, hq] at hj
      | cons next rest =>
        have hnext : next ∈ tasks := h.perm.mem_iff.mp (by simp [hq])
        have hlead := onTick_eq_false (Bool.eq_false_of_not_eq_true hkeep) hq
          (hacc₁.limit next hnext)
        have htop : m₁.vruntime next ≤ m₁.vruntime j := by
          rw [hqueue, hq] at hheap hj
          exact vruntimeCompare_eq_false.mp
            (hheap.top_first (vruntimeCompare_strict _) j hj)
        exact hlead.trans (Nat.add_le_add_right htop _)

omit hpos in
theorem enqueue_all (hv : ∀ p ∈ tasks, (cfs₀ p).vruntime ≠ 0) :
    ∀ (rest : List Ptr) (s : CfsState), (∀ p ∈ rest, p ∈ tasks) → s.cfs = cfs₀ →
      IsHeap (vruntimeCompare cfs₀) s.sched.readyQueue →
      (rest.foldl (fun s p => enqueue H p s) s).cfs = cfs₀ ∧
      IsHeap (vruntimeCompare cfs₀) (rest.foldl (fun s p => enqueue H p s) s).sched.readyQueue ∧
      (rest.foldl (fun s p => enqueue H p s) s).sched.readyQueue.Perm
        (rest ++ s.sched.readyQueue) := by
  intro rest
  induction rest with
  | nil =>
    intro s _ hcfs hheap
    exact ⟨hcfs, hheap, List.Perm.refl _⟩
  | cons p rest ih =>
    intro s hsub hcfs hheap
    have hp : p ∈ tasks := hsub p List.mem_cons_self
    have hvp : (s.cfs p).vruntime ≠ 0 := by
      rw [hcfs]
      exact hv p hp
    have hwp : (s.cfs p).weight ≠ 0 := by
      rw [hcfs]
      exact hw p hp
    have hqueue := readyQueue_enqueue (H := H) hvp hwp
    rw [hcfs] at hqueue
    have hstrict := vruntimeCompare_strict cfs₀
    obtain ⟨hcfs', hheap', hperm'⟩ := ih (enqueue H p s)
      (fun q hq => hsub q (List.mem_cons_of_mem p hq)) ((cfs_enqueue hvp hwp).trans hcfs)
      (by rw [hqueue]; exact H.push_heap _ _ hstrict hheap)
    refine ⟨hcfs', hheap', hperm'.trans ?_⟩
    rw [hqueue]
    calc (rest ++ H.push (vruntimeCompare cfs₀) s.sched.readyQueue p).Perm
          (rest ++ p :: s.sched.readyQueue) := (H.push_perm _ _ hstrict hheap).append_left rest
      _ |>.Perm (p :: rest ++ s.sched.readyQueue) := List.perm_middle

theorem CfsRun.sound (hnodup : tasks.Nodup)
    (hstart : ∀ p ∈ tasks, (cfs₀ p).vruntime.toNat = v₀) (hlimit : v₀ < vruntimeLimit)
    (hD : ∀ p ∈ tasks, charge cfs₀ p ≤ D) (h : CfsRun H tasks cfs₀ m) :
    CfsSound tasks cfs₀ v₀ D m := by
  induction h with
  | @start c s hpick =>
    have hv : ∀ p ∈ tasks, (cfs₀ p).vruntime ≠ 0 := by
      intro p hp hzero
      have hp₀ := hstart p hp
      rw [hzero] at hp₀
      have hnat : (0 : BitVec 64).toNat = 0 := rfl
      omega
    obtain ⟨hcfs, hheap, hperm⟩ := enqueue_all (H := H) hw hv tasks { cfs := cfs₀ }
      (fun _ hp => hp) rfl (isHeap_nil _)
    have hne : tasks ≠ [] := by
      rintro rfl
      simp [pickNext] at hpick
    have hacc : Accounted tasks cfs₀ v₀ cfs₀ fun _ => 0 :=
      ⟨fun _ _ => rfl, fun p hp => by simp [hstart p hp], fun p hp => by rwa [hstart p hp]⟩
    rw [List.append_nil] at hperm
    obtain ⟨next, s', hpick', hsound⟩ := pickNext_sound (H := H) (D := D) hne
      hperm (by rw [hcfs]; exact hheap) (by rw [hcfs]; exact hacc)
      (by rw [hcfs]; exact spread_of_eq hstart _)
    rw [hpick] at hpick'
    cases hpick'
    exact hsound
  | tick _ hnow hm ih =>
    obtain ⟨m', hm', hsound⟩ := tick_sound (H := H) hpos hw hnodup hD ih hnow
    rw [hm] at hm'
    cases hm'
    exact hsound
  | yield _ hm ih =>
    obtain ⟨m', hm', hsound⟩ := yield_sound (H := H) hpos hw ih.perm ih.heap ih.accounted
      ih.balanced.spread
    rw [hm] at hm'
    cases hm'
    exact hsound

end Legal

def fairnessBound (tasks : List Ptr) (cfs : Ptr → CfsData) : ℕ :=
  kMinGranularity.toNat + tasks.toFinset.sup fun p => 1024000 / (cfs p).weight.toNat

/-- Tasks that start level stay within the granularity and the charge for one tick of each other,
whatever their weights and however ticks and yields follow each other; the ticks that they
receive are shared accordingly. A yield always finds a task to run, and so does a tick. -/
theorem cfs_keeps_tasks_together (hnodup : tasks.Nodup)
    (hstart : ∀ p ∈ tasks, (cfs₀ p).vruntime.toNat = v₀) (hpos : 1 ≤ v₀)
    (hlimit : v₀ < vruntimeLimit) (hw : ∀ p ∈ tasks, (cfs₀ p).weight ≠ 0)
    (h : CfsRun H tasks cfs₀ m) :
    (∀ i ∈ tasks, ∀ j ∈ tasks,
      (m.vruntime i : ℤ) - m.vruntime j ≤ fairnessBound tasks cfs₀ ∧
      ((m.ticks i * (1024000 / (cfs₀ i).weight.toNat) : ℕ) : ℤ) -
        (m.ticks j * (1024000 / (cfs₀ j).weight.toNat) : ℕ) ≤ fairnessBound tasks cfs₀) ∧
    (∀ i ∈ tasks, m.vruntime i = v₀ + m.ticks i * (1024000 / (cfs₀ i).weight.toNat)) ∧
    (m.yield H).isSome ∧
    (m.vruntime m.current + 1024000 / (m.state.cfs m.current).weight.toNat < vruntimeLimit →
      (m.tick H).isSome) := by
  simp only [fairnessBound, ← charge_eq]
  have hD : ∀ p ∈ tasks, charge cfs₀ p ≤ tasks.toFinset.sup fun q => charge cfs₀ q := by
    intro p hp
    exact Finset.le_sup (f := charge cfs₀) (List.mem_toFinset.mpr hp)
  have hsound := CfsRun.sound hpos hw hnodup hstart hlimit hD h
  refine ⟨?_, hsound.accounted.vruntime, ?_, ?_⟩
  · intro i hi j hj
    have hspread := hsound.balanced.spread i hi j hj
    have hvi : m.vruntime i = _ := hsound.accounted.vruntime i hi
    have hvj : m.vruntime j = _ := hsound.accounted.vruntime j hj
    constructor <;> omega
  · obtain ⟨m', hm', -⟩ := yield_sound (H := H) hpos hw hsound.perm hsound.heap hsound.accounted
      hsound.balanced.spread
    rw [hm']
    rfl
  · intro hnow
    obtain ⟨m', hm', -⟩ := tick_sound (H := H) hpos hw hnodup hD hsound hnow
    rw [hm']
    rfl

/-- A task of weight 1024 and one of weight 2048 start at 1: after three ticks the second has
received two of them. -/
theorem cfs_keeps_tasks_together_example : ∃ m,
    CfsRun (sortingHeap Ptr) [1, 2] (fun p => ⟨1, if p = 1 then 1024 else 2048⟩) m ∧
      m.ticks 1 = 1 ∧ m.ticks 2 = 2 ∧ (m.vruntime 1 : ℤ) - m.vruntime 2 ≤ 1010 := by
  have h₀ : CfsRun (sortingHeap Ptr) [1, 2] (fun p => ⟨1, if p = 1 then 1024 else 2048⟩) _ :=
    .start rfl
  have h₁ := h₀.tick (by decide) rfl
  have h₂ := h₁.tick (by decide) rfl
  have h₃ := h₂.tick (by decide) rfl
  refine ⟨_, h₃, rfl, rfl, ?_⟩
  have hlevel : ∀ p ∈ [1, 2], (CfsData.mk 1 (if p = 1 then 1024 else 2048)).vruntime.toNat = 1 := by
    decide
  have hbound := (cfs_keeps_tasks_together (by decide) hlevel (by decide) (by decide) (by decide)
    h₃).1
  exact (hbound 1 (by decide) 2 (by decide)).1

end Fairness

end NaiLongKernel.Task
