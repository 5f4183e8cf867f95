import NaiLongKernel.Task.QueueOrder
import NaiLongKernel.Task.Running

/-!
# Shares of the round robin

Tasks of policy `kNormal` with one default time slice on a core on which nothing else runs.
The queue with the running task in front is a rotation of the tasks in the order in which
they were added, and turns by one place whenever a slice is used up.
-/
namespace NaiLongKernel.Task

open Foundation

/-- The run time of task `j` of `n` after `N` ticks, when turns of `d` ticks go round. -/
def fairShare (n d N j : ℕ) : ℕ := N / (n * d) * d + min d (N % (n * d) - j * d)

section Shares

variable {n d N j : ℕ}

theorem succ_div_mod_of_lt (h : N % d + 1 < d) : (N + 1) / d = N / d ∧ (N + 1) % d = N % d + 1 := by
  have hN := Nat.div_add_mod N d
  exact (Nat.div_mod_unique (by omega)).mpr ⟨by omega, h⟩

theorem succ_div_mod_of_eq (h : N % d + 1 = d) : (N + 1) / d = N / d + 1 ∧ (N + 1) % d = 0 := by
  have hN := Nat.div_add_mod N d
  refine (Nat.div_mod_unique (by omega)).mpr ⟨?_, by omega⟩
  rw [Nat.mul_succ]
  omega

theorem fairShare_zero : fairShare n d 0 j = 0 := by simp [fairShare]

theorem turn_eq_iff (hd : 0 < d) : N / d % n = j ↔ j * d ≤ N % (n * d) ∧ N % (n * d) < j * d + d := by
  have hturn : N % (n * d) / d = N / d % n := by
    rw [Nat.mul_comm n d]
    exact Nat.mod_mul_right_div_self N d n
  rw [← hturn, Nat.div_eq_iff hd]
  omega

theorem fairShare_succ (hn : 0 < n) (hd : 0 < d) (hj : j < n) :
    fairShare n d (N + 1) j = fairShare n d N j + if N / d % n = j then 1 else 0 := by
  simp only [turn_eq_iff hd, fairShare]
  set B := n * d with hB
  have hBpos : 0 < B := Nat.mul_pos hn hd
  have hjB : j * d + d ≤ B := by
    rw [← Nat.succ_mul, hB]
    exact Nat.mul_le_mul_right d hj
  have hr := Nat.mod_lt N hBpos
  by_cases hlast : N % B + 1 < B
  · obtain ⟨hq, hm⟩ := succ_div_mod_of_lt hlast
    rw [hq, hm]
    split <;> omega
  · -- the round ends
    obtain ⟨hq, hm⟩ := succ_div_mod_of_eq (by omega : N % B + 1 = B)
    rw [hq, hm, Nat.succ_mul]
    split <;> omega

theorem fairShare_le_add (n d N j j' : ℕ) : fairShare n d N j ≤ fairShare n d N j' + d := by
  simp only [fairShare]
  omega

theorem fairShare_le (hn : 0 < n) : fairShare n d N j ≤ N := by
  have hN := Nat.div_add_mod N (n * d)
  have hle : N / (n * d) * d ≤ n * d * (N / (n * d)) := by
    rw [Nat.mul_comm]
    exact Nat.mul_le_mul_right _ (Nat.le_mul_of_pos_left d hn)
  simp only [fairShare]
  omega

end Shares

variable {P : Platform} {k k' : Kernel} {loc : Ptr → Option Slot} {p i : Ptr}
  {t : TaskControlBlock} {c : CoreId} {added l : List Ptr} {d : BitVec 64} {N : ℕ}

/-- `TickUpdate` is called `n` times. -/
def ticks (P : Platform) (c : CoreId) : (n : ℕ) → KernelM Unit
  | 0 => pure ()
  | n+1 => do
    tickUpdate P c
    ticks P c n

theorem wp_tickBody_charges (hsleep : (k.cpuSchedulers c).sleepingTasks = [])
    (hrun : k.running c = some p) (ht : k.tasks p = some t) (hst : t.status = .kRunning) :
    wp (tickBody P c) (fun b k' => k' = (k.setSched c { k.cpuSchedulers c with
        localTick := (k.cpuSchedulers c).localTick + 1 }).setTask p t.charged ∧
      b = (t.charged.schedInfo.timeSliceRemaining == 0)) (fun _ _ => True) k := by
  rw [tickBody, wp_bind, wp_modifySched, wp_bind, wp_get, wp_bind]
  set k₁ : Kernel := k.setSched c { k.cpuSchedulers c with localTick := (k.cpuSchedulers c).localTick + 1 }
    with hk₁
  refine (wp_wakeSleepers_none ?_).imp ?_
  · intro q u hq
    rw [hk₁, Kernel.cpuSchedulers_setSched_self, hsleep] at hq
    cases hq
  rintro _ _ ⟨rfl, rfl⟩
  have hrun₁ : k₁.running c = some p := hrun
  have ht₁ : k₁.tasks p = some t := ht
  simp only [chargeTick, wp_bind, wp_get, hrun₁, wp_readTask ht₁, if_pos hst, wp_updateTask ht₁,
    wp_readTask (Kernel.tasks_setTask_self _ _ _), wp_pure]
  refine ⟨rfl, ?_⟩
  cases ((k₁.setTask p _).cpuSchedulers c).schedulers t.policy <;>
    simp [Scheduler.onTick, TaskControlBlock.charged]

/-- The tasks `l` with default time slice `d` share the core `c`, where no other task is ready
or sleeps, and have run for `share` ticks. -/
structure Shares (c : CoreId) (i : Ptr) (added l : List Ptr) (d : BitVec 64) (share : ℕ → ℕ)
    (k : Kernel) : Prop where
  solo : ∃ loc, Stable ∅ k loc ∧ Solo c i added k loc
  sleeping : (k.cpuSchedulers c).sleepingTasks = []
  realTime : k.slot (.ready c .kRealTime) = []
  accounts : ∀ j (hj : j < l.length), ∃ t, k.tasks l[j] = some t ∧ t.policy = .kNormal ∧
    t.schedInfo.timeSliceDefault = d ∧ t.schedInfo.totalRuntime = BitVec.ofNat 64 (share j)

namespace Shares

variable {share : ℕ → ℕ}

theorem wp_schedule {waiting : List Ptr} (h : Shares c i added l d share k)
    (hreal : k.requeued c .kRealTime = []) (hnormal : k.requeued c .kNormal = p :: waiting)
    (hp : p ∈ l) :
    wp (schedule c : KernelM Unit) (fun _ k' => Shares c i added l d share k' ∧
      k'.running c = some p ∧ k'.slot (.ready c .kNormal) = waiting ∧
      ∃ t, k'.tasks p = some t ∧ t.status = .kRunning ∧ t.schedInfo.timeSliceRemaining = d)
      (fun _ _ => False) k := by
  obtain ⟨loc, hst, hs⟩ := h.solo
  obtain ⟨current, hrun⟩ := hs.current
  obtain ⟨t, ht, -⟩ := hst.runs c current hrun
  refine (hs.wp_schedule_turned hst hrun ht).imp ?_
  rintro _ k' ⟨⟨loc', next, hst', hs', hsched⟩, hturned⟩
  rw [hreal, hnormal] at hturned
  have haccounts : ∀ j (hj : j < l.length), ∃ t, k'.tasks l[j] = some t ∧ t.policy = .kNormal ∧
      t.schedInfo.timeSliceDefault = d ∧ t.schedInfo.totalRuntime = BitVec.ofNat 64 (share j) := by
    intro j hj
    obtain ⟨u, hu, hpol, hdef, htot⟩ := h.accounts j hj
    obtain ⟨v, hv, hvdef, hvtot⟩ := hturned.accounts _ u hu
    obtain ⟨w, hw, hsame⟩ := hsched.only.same _ u hu
    obtain rfl := Option.mem_unique hv hw
    exact ⟨v, hv, hsame.policy.trans hpol, hvdef.trans hdef, hvtot.trans htot⟩
  refine ⟨⟨⟨loc', hst', hs'⟩, ?_, hturned.realTime, haccounts⟩, hturned.running, hturned.normal, ?_⟩
  · rw [hsched.waiting.1]
    exact h.sleeping
  · obtain ⟨u, hu, hur, hslice⟩ := hturned.slice
    obtain ⟨j, hj, hjp⟩ := List.mem_iff_getElem.mp hp
    obtain ⟨v, hv, -, hdef, -⟩ := haccounts j hj
    have hup : k'.tasks p = some u := hu
    rw [hjp] at hv
    obtain rfl := Option.mem_unique hup hv
    exact ⟨u, hup, hur, hslice.trans hdef⟩

theorem wp_tickBody {j : ℕ} (h : Shares c i added l d share k) (hnodup : l.Nodup)
    (hj : j < l.length) (hp : l[j] = p) (hrun : k.running c = some p) (ht : k.tasks p = some t)
    (hst : t.status = .kRunning) :
    wp (tickBody P c) (fun b k' =>
      Shares c i added l d (fun j' => share j' + if j = j' then 1 else 0) k' ∧
      k'.running c = some p ∧ k'.slot (.ready c .kNormal) = k.slot (.ready c .kNormal) ∧
      k'.tasks p = some t.charged ∧ b = (t.charged.schedInfo.timeSliceRemaining == 0))
      (fun _ _ => False) k := by
  obtain ⟨loc, hstable, hs⟩ := h.solo
  have hloc : loc p = none := hstable.loc_running (Set.notMem_empty c) hrun
  have hstages := Task.wp_tickBody P hstable.toSound (c := c) (E := fun _ _ => False) (by
    intro q hq
    obtain rfl := Option.mem_unique hrun hq
    rw [hloc]
    exact ⟨nofun, t, ht⟩)
  refine wp_mono (wp_and hstages (wp_tickBody_charges (P := P) h.sleeping hrun ht hst)) ?_
    (fun _ _ he => he.1)
  rintro b k' ⟨⟨k₀, loc', ha, hch⟩, hk', hb⟩
  have hclosed := Solo.closed c i added
  have hqueues : ∀ policy, k'.slot (.ready c policy) = k.slot (.ready c policy) := by
    intro policy
    rw [hk']
    simp [Kernel.slot, Slot.core, Slot.content]
  have hself : k'.tasks p = some t.charged := by
    rw [hk']
    exact Kernel.tasks_setTask_self _ _ _
  refine ⟨⟨⟨loc', (hstable.awakened ha).charged hch,
    hclosed.charged (hclosed.awakened rfl hstable.toSound hs ha) hch⟩, ?_, ?_, ?_⟩, ?_, ?_, hself, hb⟩
  · rw [hk', Kernel.cpuSchedulers_setTask, Kernel.cpuSchedulers_setSched_self]
    exact h.sleeping
  · rw [hqueues]
    exact h.realTime
  · intro j' hj'
    obtain ⟨u, hu, hpol, hdef, htot⟩ := h.accounts j' hj'
    by_cases hturn : j = j'
    · subst hturn
      rw [hp] at hu ⊢
      obtain rfl := Option.mem_unique ht hu
      refine ⟨_, hself, hpol, hdef, ?_⟩
      rw [if_pos rfl, BitVec.ofNat_add, ← htot]
      rfl
    · have hne : l[j'] ≠ p := by
        rw [← hp]
        intro he
        exact hturn ((hnodup.getElem_inj_iff).mp he).symm
      refine ⟨u, ?_, hpol, hdef, ?_⟩
      · rw [hk', Kernel.tasks_setTask_ne _ _ _ hne]
        exact hu
      · rw [if_neg hturn, Nat.add_zero, htot]
  · rw [hk']
    exact hrun
  · exact hqueues _

theorem congr {share' : ℕ → ℕ} (h : Shares c i added l d share k)
    (hshare : ∀ j < l.length, share' j = share j) : Shares c i added l d share' k := by
  refine ⟨h.solo, h.sleeping, h.realTime, ?_⟩
  intro j hj
  rw [hshare j hj]
  exact h.accounts j hj

end Shares

/-- The tasks take turns of `d` ticks, and `N` ticks have passed since the first began. -/
structure InTurn (c : CoreId) (i : Ptr) (added l : List Ptr) (d : BitVec 64) (N : ℕ) (k : Kernel) :
    Prop extends Shares c i added l d (fairShare l.length d.toNat N) k where
  running : k.running c = (l.rotate (N / d.toNat)).head?
  normal : k.slot (.ready c .kNormal) = (l.rotate (N / d.toNat)).tail
  slice : ∀ p, k.running c = some p → ∃ t, k.tasks p = some t ∧ t.status = .kRunning ∧
    t.schedInfo.timeSliceRemaining.toNat = d.toNat - N % d.toNat

namespace InTurn

theorem of_turn {waiting : List Ptr}
    (h : Shares c i added l d (fairShare l.length d.toNat N) k)
    (hrot : l.rotate (N / d.toNat) = p :: waiting) (hrun : k.running c = some p)
    (hqueue : k.slot (.ready c .kNormal) = waiting) (ht : k.tasks p = some t)
    (hst : t.status = .kRunning)
    (hslice : t.schedInfo.timeSliceRemaining.toNat = d.toNat - N % d.toNat) :
    InTurn c i added l d N k := by
  refine ⟨h, ?_, ?_, ?_⟩
  · rw [hrun, hrot, List.head?_cons]
  · rw [hqueue, hrot, List.tail_cons]
  · intro q hq
    obtain rfl := Option.mem_unique hrun hq
    exact ⟨t, ht, hst, hslice⟩

theorem exists_turn (h : InTurn c i added l d N k) (hl : l ≠ []) :
    ∃ p waiting, l.rotate (N / d.toNat) = p :: waiting ∧ k.running c = some p ∧
      k.slot (.ready c .kNormal) = waiting ∧ ∃ hj : N / d.toNat % l.length < l.length,
        l[N / d.toNat % l.length] = p := by
  have hne : l.rotate (N / d.toNat) ≠ [] := by simpa using hl
  obtain ⟨p, waiting, hrot⟩ := List.exists_cons_of_ne_nil hne
  refine ⟨p, waiting, hrot, ?_, ?_, Nat.mod_lt _ (List.length_pos_of_ne_nil hl), ?_⟩
  · rw [h.running, hrot, List.head?_cons]
  · rw [h.normal, hrot, List.tail_cons]
  · have hhead := List.getElem_rotate l (N / d.toNat) 0 (List.length_pos_of_ne_nil hne)
    simp only [hrot, List.getElem_cons_zero, Nat.zero_add] at hhead
    exact hhead.symm

theorem wp_tickUpdate (h : InTurn c i added l d N k) (hl : l ≠ []) (hnodup : l.Nodup)
    (hd : 0 < d.toNat) :
    wp (tickUpdate P c : KernelM Unit) (fun _ k' => InTurn c i added l d (N + 1) k')
      (fun _ _ => False) k := by
  obtain ⟨p, waiting, hrot, hrun, hqueue, hj, hp⟩ := h.exists_turn hl
  obtain ⟨t, ht, hrunning, hslice⟩ := h.slice p hrun
  have hmod := Nat.mod_lt N hd
  have hremaining : t.charged.schedInfo.timeSliceRemaining.toNat = d.toNat - N % d.toNat - 1 := by
    have hpos : 0 < t.schedInfo.timeSliceRemaining := by
      rw [BitVec.lt_def, hslice]
      exact Nat.sub_pos_of_lt hmod
    simp only [TaskControlBlock.charged, if_pos hpos]
    bv_omega
  simp only [tickUpdate, lockGuard_kernelM, run_kernelM, wp_bind]
  refine (h.toShares.wp_tickBody (P := P) hnodup hj hp hrun ht hrunning).imp ?_
  rintro b k₁ ⟨hshares, hrun₁, hqueue₁, ht₁, hb⟩
  replace hshares := hshares.congr (fun j hj =>
    fairShare_succ (N := N) (List.length_pos_of_ne_nil hl) hd hj)
  have hused : b = true ↔ N % d.toNat + 1 = d.toNat := by
    have hzero : (0 : BitVec 64).toNat = 0 := rfl
    rw [hb, beq_iff_eq, ← BitVec.toNat_inj, hremaining, hzero]
    omega
  rw [wp_ite, wp_pure]
  split
  · -- the running task joins the queue behind the others
    rename_i hb
    obtain ⟨hq, hm⟩ := succ_div_mod_of_eq (hused.mp hb)
    have hrot' : l.rotate (N / d.toNat + 1) = waiting ++ [p] := by
      rw [← List.rotate_rotate, hrot, List.rotate_cons_succ, List.rotate_zero]
    obtain ⟨next, rest, hnext⟩ := List.exists_cons_of_ne_nil
      (List.append_ne_nil_of_right_ne_nil waiting (List.cons_ne_nil p []))
    obtain ⟨loc, hst, hs⟩ := hshares.solo
    obtain ⟨u, hu, hpol, -⟩ := hshares.accounts _ hj
    rw [hp] at hu
    obtain rfl := Option.mem_unique ht₁ hu
    have hrequeued := hs.requeued_eq hst hrun₁ ht₁
    have hmem : next ∈ l := by
      rw [← List.mem_rotate (n := N / d.toNat + 1), hrot', hnext]
      exact List.mem_cons_self
    have hreal : k₁.requeued c .kRealTime = [] := by
      rw [hrequeued, hpol, if_neg (by simp), hshares.realTime]
    have hnormal : k₁.requeued c .kNormal = next :: rest := by
      rw [hrequeued, hpol, if_pos ⟨hrunning, nofun, rfl⟩, hqueue₁, hqueue, hnext]
    refine (hshares.wp_schedule hreal hnormal hmem).imp ?_
    rintro _ k₂ ⟨hshares₂, hrun₂, hqueue₂, v, hv, hvr, hvs⟩
    refine of_turn hshares₂ ?_ hrun₂ hqueue₂ hv hvr ?_
    · rw [hq, hrot', hnext]
    · rw [hvs, hm, Nat.sub_zero]
  · rename_i hb
    rw [hused] at hb
    obtain ⟨hq, hm⟩ := succ_div_mod_of_lt (by omega : N % d.toNat + 1 < d.toNat)
    refine of_turn hshares ?_ hrun₁ (hqueue₁.trans hqueue) ht₁ hrunning ?_
    · rw [hq, hrot]
    · rw [hm, hremaining, Nat.sub_sub]

theorem wp_ticks (h : InTurn c i added l d N k) (hl : l ≠ []) (hnodup : l.Nodup)
    (hd : 0 < d.toNat) (n : ℕ) :
    wp (ticks P c n) (fun _ k' => InTurn c i added l d (N + n) k') (fun _ _ => False) k := by
  induction n generalizing N k with
  | zero => exact (wp_pure _).mpr h
  | succ n ih =>
    rw [ticks, wp_bind]
    refine (h.wp_tickUpdate hl hnodup hd).imp ?_
    intro _ k₁ h₁
    rw [Nat.add_comm n 1, ← Nat.add_assoc]
    exact ih h₁

end InTurn

/-- A new task of policy `kNormal` for the core `c`, which has not run. -/
structure NewNormal (P : Platform) (c : CoreId) (d : BitVec 64) (k : Kernel)
    (x : Ptr × TaskControlBlock) : Prop where
  free : k.tasks x.1 = none
  status : x.2.status = .kUnInit
  policy : x.2.policy = .kNormal
  core : targetCore P c x.2.cpuAffinity = c
  slice : x.2.schedInfo.timeSliceDefault = d
  runtime : x.2.schedInfo.totalRuntime = 0

/-- Before the first tick: the tasks `l` wait in the order in which they were added. -/
structure Waiting (c : CoreId) (i : Ptr) (added l : List Ptr) (d : BitVec 64) (k : Kernel) : Prop
    extends Shares c i added l d (fun _ => 0) k where
  running : k.running c = some i
  normal : k.slot (.ready c .kNormal) = l

namespace Waiting

variable {x : Ptr × TaskControlBlock}

theorem wp_addTask (h : Waiting c i added l d k) (hx : NewNormal P c d k x) :
    wp ((CoreOp.addTask x.1 x.2).exec P c) (fun _ k' =>
      Waiting c i (x.1 :: added) (l ++ [x.1]) d k' ∧ ∀ q, q ≠ x.1 → k'.tasks q = k.tasks q)
      (fun _ _ => False) k := by
  obtain ⟨p, t⟩ := x
  obtain ⟨loc, hst, hs⟩ := h.solo
  have hu := hst.unused_of_none hx.free
  have hst₀ : Stable ∅ (k.setTask p t) loc := hst.updateUnused hu (some t) rfl rfl rfl
  have hu₀ : Unused (k.setTask p t) loc p := hu.congr rfl rfl
  have hpol : t.policy = .kNormal := hx.policy
  simp only [CoreOp.exec, wp_bind, wp_modify]
  apply wp_addTask_enqueue P (k.tasks_setTask_self p t) (fun _ hne => absurd hx.status hne)
  obtain ⟨s, hsched⟩ := Option.isSome_iff_exists.mp (hs.scheds t.policy)
  set k₁ : Kernel := { (k.setTask p t).setTask p (((k.setTask p t).identified t).setStatus .kReady) with
    pidAllocator := (k.setTask p t).pidAfter t
    taskTable := tableSet ((k.setTask p t).pidFor t) p (k.setTask p t).taskTable } with hk₁
  have ht₁ : k₁.tasks p = some (((k.setTask p t).identified t).setStatus .kReady) :=
    Kernel.tasks_setTask_self _ _ _
  have horder := wp_enqueueTask_order (k := k₁) (c := c) (E := fun _ _ => False) ht₁ hsched
    (hst.kinds c t.policy s hsched)
  have hadded := wp_enqueue_added (t := t) (E := fun _ _ => False) hst₀ hu₀ c
  rw [hx.core]
  refine wp_mono (wp_and hadded horder) ?_ (fun _ _ he => he.1)
  rintro _ k' ⟨⟨loc', ha⟩, hslots, -, haccounts⟩
  have hne : t.policy ≠ .kIdle := by
    rw [hpol]
    simp
  have hother : ∀ q, q ≠ p → k'.tasks q = k.tasks q := by
    intro q hq
    rw [ha.tasks_ne q hq, k.tasks_setTask_ne p t hq]
  refine ⟨⟨⟨⟨loc', ha.stable, hs.addedTask hx.free hne ha⟩, ?_, ?_, ?_⟩, ?_, ?_⟩, hother⟩
  · apply List.eq_nil_iff_forall_not_mem.mpr
    intro q hq
    have hloc : loc' q = some (.sleeping c) := (ha.stable.located.mem_iff (.sleeping c) q).mp hq
    by_cases hqp : q = p
    · rw [hqp, ha.loc_self] at hloc
      cases (hs.home_eq hne).symm.trans hloc
    · rw [ha.loc_ne q hqp] at hloc
      have hmem : q ∈ (k.cpuSchedulers c).sleepingTasks := hst.toPlaced.mem_of_loc hloc
      rw [h.sleeping] at hmem
      cases hmem
  · rw [hslots, if_neg (by rw [hpol]; simp)]
    exact h.realTime
  · intro j hj
    by_cases hold : j < l.length
    · obtain ⟨u, hu, haccount⟩ := h.accounts j hold
      have hqp : l[j] ≠ p := by
        intro he
        rw [he, hx.free] at hu
        cases hu
      exact ⟨u, by rw [List.getElem_append_left hold, hother _ hqp, hu], haccount⟩
    · obtain rfl : j = l.length := by
        rw [List.length_append, List.length_singleton] at hj
        omega
      obtain ⟨u, hu, hslice, hruntime⟩ := haccounts p _ ht₁
      obtain ⟨v, hv, -, hsame⟩ := ha.task
      obtain rfl := Option.mem_unique hu hv
      refine ⟨u, by rw [List.getElem_concat_length rfl, hu], hsame.policy.trans hpol,
        hslice.trans hx.slice, hruntime.trans hx.runtime⟩
  · rw [ha.running]
    exact h.running
  · rw [hslots, if_pos ⟨hpol.symm, hne⟩]
    exact congrArg (· ++ [p]) h.normal

theorem wp_addTasks {ts : List (Ptr × TaskControlBlock)} (h : Waiting c i added l d k)
    (hnodup : (ts.map Prod.fst).Nodup) (hts : ∀ x ∈ ts, NewNormal P c d k x) :
    wp (forM ts fun x => (CoreOp.addTask x.1 x.2).exec P c)
      (fun _ k' => ∃ added', Waiting c i added' (l ++ ts.map Prod.fst) d k') (fun _ _ => False) k := by
  induction ts generalizing added l k with
  | nil =>
    refine (wp_pure _).mpr ⟨added, ?_⟩
    simpa using h
  | cons x ts ih =>
    rw [List.map_cons, List.nodup_cons] at hnodup
    rw [List.forM_cons, wp_bind]
    refine (h.wp_addTask (hts x List.mem_cons_self)).imp ?_
    rintro _ k₁ ⟨h₁, hother⟩
    have hts₁ : ∀ y ∈ ts, NewNormal P c d k₁ y := by
      intro y hy
      have hne : y.1 ≠ x.1 := by
        intro he
        exact hnodup.1 (he ▸ List.mem_map_of_mem hy)
      have hnew := hts y (List.mem_cons_of_mem x hy)
      exact ⟨by rw [hother _ hne, hnew.free], hnew.status, hnew.policy, hnew.core, hnew.slice, hnew.runtime⟩
    have hrest := ih h₁ hnodup.2 hts₁
    rwa [List.append_assoc] at hrest

theorem wp_schedule (h : Waiting c i added l d k) (hl : l ≠ []) :
    wp (schedule c : KernelM Unit) (fun _ k' => InTurn c i added l d 0 k') (fun _ _ => False) k := by
  obtain ⟨p, waiting, rfl⟩ := List.exists_cons_of_ne_nil hl
  obtain ⟨loc, hst, hs⟩ := h.solo
  obtain ⟨-, t, ht, hpol, -⟩ := hst.thread c i hs.idle
  have hrequeued : ∀ policy, k.requeued c policy = k.slot (.ready c policy) := by
    intro policy
    rw [hs.requeued_eq hst h.running ht, if_neg (fun hc => hc.2.1 hpol)]
  have hreal : k.requeued c .kRealTime = [] := by rw [hrequeued, h.realTime]
  have hnormal : k.requeued c .kNormal = p :: waiting := by rw [hrequeued, h.normal]
  refine (h.toShares.wp_schedule hreal hnormal List.mem_cons_self).imp ?_
  rintro _ k' ⟨hshares, hrun, hqueue, u, hu, hur, hslice⟩
  refine InTurn.of_turn (hshares.congr (fun _ _ => fairShare_zero)) ?_ hrun hqueue hu hur ?_
  · rw [Nat.zero_div, List.rotate_zero]
  · rw [hslice, Nat.zero_mod, Nat.sub_zero]

end Waiting

/-- The new tasks are added, `Schedule` is called once and then `TickUpdate` `N` times. -/
def roundRobinRun (P : Platform) (c : CoreId) (ts : List (Ptr × TaskControlBlock)) (N : ℕ) :
    KernelM Unit := do
  forM ts fun x => (CoreOp.addTask x.1 x.2).exec P c
  schedule c
  ticks P c N

/-- Only the idle thread runs, no task is ready, and none sleeps. -/
structure Kernel.OnlyIdle (k : Kernel) (c : CoreId) (i : Ptr) : Prop where
  running : k.running c = some i
  realTime : k.slot (.ready c .kRealTime) = []
  normal : k.slot (.ready c .kNormal) = []
  sleeping : (k.cpuSchedulers c).sleepingTasks = []

theorem wp_roundRobinRun (h : Reaches P c i added k) (hidle : k.OnlyIdle c i)
    {ts : List (Ptr × TaskControlBlock)} (hts : ts ≠ []) (hnodup : (ts.map Prod.fst).Nodup)
    (hnew : ∀ x ∈ ts, NewNormal P c d k x) (hd : 1 ≤ d) (N : ℕ) :
    wp (roundRobinRun P c ts N) (fun _ k' => ∃ added', InTurn c i added' (ts.map Prod.fst) d N k')
      (fun _ _ => False) k := by
  have hstart : Waiting c i added [] d k :=
    ⟨⟨h.solo, hidle.sleeping, hidle.realTime, nofun⟩, hidle.running, hidle.normal⟩
  have hl : ts.map Prod.fst ≠ [] := by simpa using hts
  have hpos : 0 < d.toNat := by bv_omega
  simp only [roundRobinRun, wp_bind]
  refine (hstart.wp_addTasks hnodup hnew).imp ?_
  rintro _ k₁ ⟨added₁, h₁⟩
  rw [List.nil_append] at h₁
  refine (h₁.wp_schedule hl).imp ?_
  intro _ k₂ h₂
  refine (h₂.wp_ticks hl hnodup hpos N).imp ?_
  intro _ k₃ h₃
  rw [Nat.zero_add] at h₃
  exact ⟨added₁, h₃⟩

/-- Tasks of policy `kNormal` with the default time slice `d` are added to a core on which only
the idle thread runs; `Schedule` is called once and `TickUpdate` `N` times. Every call
returns, the tasks run in turns of `d` ticks in the order in which they were added, and the
64-bit counter of each has its share modulo `2 ^ 64`. Up to `2 ^ 64` ticks it is the share,
and two run times differ by at most `d`. -/
theorem round_robin_shares (h : Reaches P c i added k) (hidle : k.OnlyIdle c i)
    {ts : List (Ptr × TaskControlBlock)} (hts : ts ≠ []) (hnodup : (ts.map Prod.fst).Nodup)
    (hnew : ∀ x ∈ ts, NewNormal P c d k x) (hd : 1 ≤ d) (N : ℕ) :
    ∃ k', roundRobinRun P c ts N k = .ok () k' ∧
      k'.running c = (ts[N / d.toNat % ts.length]?).map Prod.fst ∧
      (∀ j (hj : j < ts.length), ∃ t, k'.tasks ts[j].1 = some t ∧
        t.schedInfo.totalRuntime = BitVec.ofNat 64 (N / (ts.length * d.toNat) * d.toNat +
          min d.toNat (N % (ts.length * d.toNat) - j * d.toNat)) ∧
        (N < 2 ^ 64 → t.schedInfo.totalRuntime.toNat = N / (ts.length * d.toNat) * d.toNat +
          min d.toNat (N % (ts.length * d.toNat) - j * d.toNat))) ∧
      (N < 2 ^ 64 → ∀ x ∈ ts, ∀ y ∈ ts, ∀ t u, k'.tasks x.1 = some t → k'.tasks y.1 = some u →
        t.schedInfo.totalRuntime.toNat ≤ u.schedInfo.totalRuntime.toNat + d.toNat) := by
  obtain ⟨_, k', hk', added', hturn⟩ := (wp_roundRobinRun h hidle hts hnodup hnew hd N).returns
  have hlen : (ts.map Prod.fst).length = ts.length := List.length_map _
  have hpos : 0 < ts.length := List.length_pos_of_ne_nil hts
  have haccount : ∀ j (hj : j < ts.length), ∃ t, k'.tasks ts[j].1 = some t ∧
      t.schedInfo.totalRuntime = BitVec.ofNat 64 (fairShare ts.length d.toNat N j) := by
    intro j hj
    obtain ⟨t, ht, -, -, hruntime⟩ := hturn.accounts j (by rw [hlen]; exact hj)
    rw [List.getElem_map] at ht
    rw [hlen] at hruntime
    exact ⟨t, ht, hruntime⟩
  have hexact : ∀ j, N < 2 ^ 64 → (BitVec.ofNat 64 (fairShare ts.length d.toNat N j)).toNat =
      fairShare ts.length d.toNat N j := by
    intro j hN
    rw [BitVec.toNat_ofNat]
    exact Nat.mod_eq_of_lt ((fairShare_le hpos).trans_lt hN)
  refine ⟨k', hk', ?_, ?_, ?_⟩
  · obtain ⟨p, waiting, -, hrun, -, hj, hp⟩ := hturn.exists_turn (by simpa using hts)
    rw [hrun, ← hp, ← List.getElem?_map, hlen.symm, List.getElem?_eq_getElem hj]
  · intro j hj
    obtain ⟨t, ht, hruntime⟩ := haccount j hj
    refine ⟨t, ht, hruntime, fun hN => ?_⟩
    rw [hruntime]
    exact hexact j hN
  · intro hN x hx y hy t u ht hu
    obtain ⟨j, hj, rfl⟩ := List.mem_iff_getElem.mp hx
    obtain ⟨j', hj', rfl⟩ := List.mem_iff_getElem.mp hy
    obtain ⟨t', ht', hruntime⟩ := haccount j hj
    obtain ⟨u', hu', hruntime'⟩ := haccount j' hj'
    obtain rfl := Option.mem_unique ht ht'
    obtain rfl := Option.mem_unique hu hu'
    rw [hruntime, hruntime', hexact j hN, hexact j' hN]
    exact fairShare_le_add _ _ _ _ _

/-- Two tasks with slices of two ticks, after five ticks. -/
theorem round_robin_shares_example :
    ∃ k k', Reaches (presetPlatform true) 0 10 [] k ∧
      roundRobinRun (presetPlatform true) 0 [(1, { schedInfo := { timeSliceDefault := 2 } }),
        (2, { schedInfo := { timeSliceDefault := 2 } })] 5 k = .ok () k' ∧
      k'.running 0 = some 1 ∧ (∃ t, k'.tasks 1 = some t ∧ t.schedInfo.totalRuntime.toNat = 3) ∧
      ∃ t, k'.tasks 2 = some t ∧ t.schedInfo.totalRuntime.toNat = 2 := by
  have h₀ := Reaches.init (P := presetPlatform true) (c := 0) (i := 10) rfl
  have hne : [((1 : Ptr), ({ schedInfo := { timeSliceDefault := 2 } } : TaskControlBlock)),
      (2, { schedInfo := { timeSliceDefault := 2 } })] ≠ [] := List.cons_ne_nil _ _
  obtain ⟨k', hk', hrun, haccount, -⟩ := round_robin_shares (d := 2) h₀ ⟨rfl, rfl, rfl, rfl⟩
    hne (by decide) (by
      intro x hx
      rcases List.mem_cons.mp hx with rfl | hx
      · exact ⟨rfl, rfl, rfl, rfl, rfl, rfl⟩
      · rw [List.mem_singleton.mp hx]
        exact ⟨rfl, rfl, rfl, rfl, rfl, rfl⟩) (by decide) 5
  refine ⟨_, k', h₀, hk', hrun, ?_, ?_⟩
  · obtain ⟨t, ht, -, hruntime⟩ := haccount 0 (by decide)
    exact ⟨t, ht, hruntime (by decide)⟩
  · obtain ⟨t, ht, -, hruntime⟩ := haccount 1 (by decide)
    exact ⟨t, ht, hruntime (by decide)⟩

/-- The counter of a task that has run for `2 ^ 64` ticks is 0. -/
theorem run_time_wraps :
    ∃ k k', Reaches (presetPlatform true) 0 10 [] k ∧ k.OnlyIdle 0 10 ∧
      NewNormal (presetPlatform true) 0 1 k (1, { schedInfo := { timeSliceDefault := 1 } }) ∧
      roundRobinRun (presetPlatform true) 0 [(1, { schedInfo := { timeSliceDefault := 1 } })] (2 ^ 64) k =
        .ok () k' ∧
      ∃ t, k'.tasks 1 = some t ∧ t.schedInfo.totalRuntime.toNat = 0 ∧
        fairShare 1 1 (2 ^ 64) 0 = 2 ^ 64 := by
  have h₀ := Reaches.init (P := presetPlatform true) (c := 0) (i := 10) rfl
  have hshare : fairShare 1 1 (2 ^ 64) 0 = 2 ^ 64 := by norm_num [fairShare]
  have hne : [((1 : Ptr), ({ schedInfo := { timeSliceDefault := 1 } } : TaskControlBlock))] ≠ [] :=
    List.cons_ne_nil _ _
  obtain ⟨_, k', hk', added, hturn⟩ := (wp_roundRobinRun (d := 1) h₀ ⟨rfl, rfl, rfl, rfl⟩
    hne (by decide) (by
      intro x hx
      rw [List.mem_singleton.mp hx]
      exact ⟨rfl, rfl, rfl, rfl, rfl, rfl⟩) (by decide) (2 ^ 64)).returns
  obtain ⟨t, ht, -, -, hruntime⟩ := hturn.accounts 0 (by decide)
  refine ⟨_, k', h₀, ⟨rfl, rfl, rfl, rfl⟩, ⟨rfl, rfl, rfl, rfl, rfl, rfl⟩, hk', t, ht, ?_, hshare⟩
  have hone : (1 : BitVec 64).toNat = 1 := rfl
  rw [hruntime, List.map_singleton, List.length_singleton, hone, hshare]
  decide

end NaiLongKernel.Task
