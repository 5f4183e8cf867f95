import NaiLongKernel.Task.Groups
import NaiLongKernel.Task.System

/-!
# What the operations do to the tasks

Scheduling changes no more of a task than its status, its schedule and what it waits for.
`Exit`, `Wait` and `Clone` do more, and what they do is said here once: which control blocks
are there afterwards, who their parents are, what the table holds and what became of memory.
Invariants of whole runs are derived from these descriptions.
-/
namespace NaiLongKernel.Task

open Foundation

variable {k k' k'' : Kernel} {loc loc' : Ptr → Option Slot} {p : Ptr} {t t' : TaskControlBlock}
  {c : CoreId} {B : Set CoreId} {E : Fault → Kernel → Prop} {Q : Unit → Kernel → Prop}

/-- The faults that do not touch a deleted control block. -/
def Fault.Harmless : Fault → Prop
  | .useAfterFree _ => False
  | .doubleDelete _ => False
  | _ => True

/-- How an operation that does not return may end. -/
def Failed (k : Kernel) (e : Fault) (k' : Kernel) : Prop := e.Harmless ∧ k'.deletions = k.deletions

/-- Table entries lead to tasks with the pid of the entry. -/
def Kernel.Entered (k : Kernel) : Prop := ∀ e ∈ k.taskTable, ∃ t, k.tasks e.2 = some t ∧ t.pid = e.1

theorem Kernel.not_mem_of_lookup {pid : Pid} (h : k.lookup pid = none) :
    ∀ e ∈ k.taskTable, e.1 ≠ pid := by
  intro e he heq
  rw [Kernel.lookup, Option.map_eq_none_iff, List.find?_eq_none] at h
  exact h e he (by simp [heq])

theorem Kernel.tableSet_of_lookup {pid : Pid} (h : k.lookup pid = none) (q : Ptr) :
    tableSet pid q k.taskTable = k.taskTable ++ [(pid, q)] := by
  rw [tableSet, List.filter_eq_self.mpr]
  intro e he
  exact bne_iff_ne.mpr (Kernel.not_mem_of_lookup h e he)

theorem Kernel.lookup_tableSet {pid : Pid} {q : Ptr} {table : List (Pid × Ptr)}
    (h : k.taskTable = tableSet pid q table) : k.lookup pid = some q := by
  have hnone : (table.filter (·.1 != pid)).find? (·.1 == pid) = none := by
    rw [List.find?_eq_none]
    intro e he
    simpa using (List.mem_filter.mp he).2
  rw [Kernel.lookup, h, tableSet, List.find?_append, hnone, Option.none_or]
  simp

section Scheduling

/-- The tasks are the same, and nothing but scheduling has happened. -/
structure Persists (k k' : Kernel) : Prop where
  same : ∀ p t, k.tasks p = some t → ∃ t', k'.tasks p = some t' ∧ SameTask t t'
  free : ∀ p, k.tasks p = none → k'.tasks p = none
  idle : k'.idle = k.idle
  running : ∀ c, (k'.running c).isSome = (k.running c).isSome
  scheds : ∀ c policy, ((k'.cpuSchedulers c).schedulers policy).isSome =
    ((k.cpuSchedulers c).schedulers policy).isSome
  taskTable : k'.taskTable = k.taskTable
  pidAllocator : k'.pidAllocator = k.pidAllocator
  vm : k'.vm = k.vm
  deletions : k'.deletions = k.deletions

theorem Only.persists {X : Set Ptr} (h : Only c X k k')
    (hrunning : (k'.running c).isSome = (k.running c).isSome)
    (hscheds : ∀ policy, ((k'.cpuSchedulers c).schedulers policy).isSome =
      ((k.cpuSchedulers c).schedulers policy).isSome) : Persists k k' := by
  refine ⟨h.same, h.free, h.idle, ?_, ?_, h.taskTable, h.pidAllocator, h.vm, h.deletions⟩
  · intro c'
    by_cases hc : c' = c
    · rw [hc, hrunning]
    · rw [h.running c' hc]
  · intro c' policy
    by_cases hc : c' = c
    · rw [hc, hscheds policy]
    · rw [h.scheds c' hc]

theorem Awakened.persists {s : Slot} (h : Awakened s k loc k' loc') : Persists k k' :=
  h.only.persists (by rw [h.running]) h.scheds

theorem Charged.persists (h : Charged c loc k k') : Persists k k' :=
  h.only.persists (by rw [h.running]) (fun _ => by rw [h.scheds])

theorem Suspended.persists {s : Slot} (h : Suspended p s k loc k' loc') : Persists k k' :=
  h.only.persists (by rw [h.running]) h.scheds

theorem Scheduled.persists {current next : Ptr} (h : Scheduled c current t next k loc k' loc')
    (hrun : k.running c = some current) : Persists k k' :=
  h.only.persists (by rw [h.running, hrun]; rfl) h.waiting.2.2.2

namespace Persists

theorem refl (k : Kernel) : Persists k k :=
  ⟨fun _ t ht => ⟨t, ht, SameTask.refl t⟩, fun _ h => h, rfl, fun _ => rfl, fun _ _ => rfl, rfl, rfl,
    rfl, rfl⟩

theorem trans (h : Persists k k') (h' : Persists k' k'') : Persists k k'' := by
  refine ⟨?_, fun p hp => h'.free p (h.free p hp), h'.idle.trans h.idle,
    fun c => (h'.running c).trans (h.running c),
    fun c policy => (h'.scheds c policy).trans (h.scheds c policy),
    h'.taskTable.trans h.taskTable, h'.pidAllocator.trans h.pidAllocator, h'.vm.trans h.vm,
    h'.deletions.trans h.deletions⟩
  intro p t ht
  obtain ⟨t', ht', hs⟩ := h.same p t ht
  obtain ⟨t'', ht'', hs'⟩ := h'.same p t' ht'
  exact ⟨t'', ht'', hs.trans hs'⟩

theorem back (h : Persists k k') (ht : k'.tasks p = some t') :
    ∃ t, k.tasks p = some t ∧ SameTask t t' := by
  cases hk : k.tasks p with
  | none =>
    rw [h.free p hk] at ht
    cases ht
  | some t =>
    obtain ⟨u, hu, hs⟩ := h.same p t hk
    exact ⟨t, rfl, Option.mem_unique hu ht ▸ hs⟩

theorem next (h : Persists k k') : k'.next = k.next := by
  funext q
  cases hq : k.tasks q with
  | none => rw [Kernel.next, Kernel.next, hq, h.free q hq]
  | some t =>
    obtain ⟨t', ht', hs⟩ := h.same q t hq
    rw [Kernel.next_eq hq, Kernel.next_eq ht', hs.fields]

theorem prev (h : Persists k k') : k'.prev = k.prev := by
  funext q
  cases hq : k.tasks q with
  | none => rw [Kernel.prev, Kernel.prev, hq, h.free q hq]
  | some t =>
    obtain ⟨t', ht', hs⟩ := h.same q t hq
    rw [Kernel.prev_eq hq, Kernel.prev_eq ht', hs.fields]

theorem grouped (h : Persists k k') (hg : k.Grouped) : k'.Grouped := by
  rw [Kernel.Grouped, h.next, h.prev]
  exact hg

theorem entered (h : Persists k k') (he : k.Entered) : k'.Entered := by
  intro e hmem
  rw [h.taskTable] at hmem
  obtain ⟨t, ht, hpid⟩ := he e hmem
  obtain ⟨t', ht', hs⟩ := h.same e.2 t ht
  exact ⟨t', ht', hs.pid.trans hpid⟩

theorem failed {X : Set Ptr} {e : Fault} (h : Persists k k') (he : e.Harmless)
    (ho : Only c X k' k'') : Failed k e k'' :=
  ⟨he, ho.deletions.trans h.deletions⟩

theorem closed (k : Kernel) (c : CoreId) :
    Closed c Set.univ (fun k' _ => Persists k k') (Failed k) where
  scheduled _ h hrun _ hs := h.trans (hs.persists hrun)
  awakened _ _ h ha := h.trans ha.persists
  charged h hch := h.trans hch.persists
  suspended _ _ h _ _ hs := h.trans hs.persists
  parked h _ ho := h.failed trivial ho
  diverges h _ _ _ _ _ _ ho := h.failed trivial ho
  noScheduler h _ ho := h.failed trivial ho

end Persists

end Scheduling

section Exit

/-- The task `p` with block `t` has left its family and is a zombie. -/
structure Departed (p : Ptr) (t : TaskControlBlock) (k k' : Kernel) : Prop where
  same : ∀ q u, k.tasks q = some u → ∃ u', k'.tasks q = some u' ∧ u' = { u with
    parentPid := k.inherited t q u
    threadGroupNext := u'.threadGroupNext
    threadGroupPrev := u'.threadGroupPrev
    exitCode := u'.exitCode
    status := if q = p then .kZombie else u.status }
  free : ∀ q, k.tasks q = none → k'.tasks q = none
  grouped : k'.Grouped
  next : k'.next = Function.update (bypass k.next (k.prev p) (k.next p)) p none
  prev : k'.prev = Function.update (bypass k.prev (k.next p) (k.prev p)) p none
  rest : k' = { k with tasks := k'.tasks }

theorem departed {k₂ : Kernel} {t₂ : TaskControlBlock} (ht : k.tasks p = some t)
    (exitCode : BitVec 32)
    (hf : LeftFamily { t with exitCode := exitCode } (k.setTask p { t with exitCode := exitCode }) k₂)
    (hn : k₂.next = Function.update (bypass k.next (k.prev p) (k.next p)) p none)
    (hp : k₂.prev = Function.update (bypass k.prev (k.next p) (k.prev p)) p none)
    (ht₂ : k₂.tasks p = some t₂) : Departed p t k (k₂.setTask p (t₂.setStatus .kZombie)) := by
  have hself := k.tasks_setTask_self p { t with exitCode := exitCode }
  refine ⟨?_, ?_, hf.grouped.setTask ht₂ rfl rfl, ?_, ?_, ?_⟩
  · intro q u hu
    by_cases hq : q = p
    · subst hq
      obtain rfl := Option.mem_unique ht hu
      obtain ⟨u', hu', he⟩ := hf.same q _ hself
      obtain rfl := Option.mem_unique ht₂ hu'
      refine ⟨_, k₂.tasks_setTask_self q _, ?_⟩
      rw [if_pos rfl, TaskControlBlock.setStatus, he]
      rfl
    · obtain ⟨u', hu', he⟩ := hf.same q u ((k.tasks_setTask_ne p _ hq).trans hu)
      refine ⟨u', (k₂.tasks_setTask_ne p _ hq).trans hu', ?_⟩
      rw [if_neg hq, he]
      rfl
  · intro q hq
    have hqp : q ≠ p := by
      rintro rfl
      rw [ht] at hq
      cases hq
    rw [k₂.tasks_setTask_ne p _ hqp]
    exact hf.free q ((k.tasks_setTask_ne p _ hqp).trans hq)
  · rw [← hn, Kernel.next_setTask]
    exact Function.update_eq_iff.mpr ⟨(Kernel.next_eq ht₂).symm, fun _ _ => rfl⟩
  · rw [← hp, Kernel.prev_setTask]
    exact Function.update_eq_iff.mpr ⟨(Kernel.prev_eq ht₂).symm, fun _ _ => rfl⟩
  · rw [Kernel.setTask, hf.rest]
    rfl

namespace Departed

theorem self (h : Departed p t k k') (ht : k.tasks p = some t) :
    ∃ t', k'.tasks p = some t' ∧ t'.parentPid = k.exitParent p t ∧ t'.status = .kZombie := by
  obtain ⟨t', ht', he⟩ := h.same p t ht
  rw [if_pos rfl] at he
  exact ⟨t', ht', by rw [he]; rfl, by rw [he]⟩

theorem back (h : Departed p t k k') {q : Ptr} {u' : TaskControlBlock} (hu' : k'.tasks q = some u') :
    ∃ u, k.tasks q = some u ∧ u' = { u with
      parentPid := k.inherited t q u
      threadGroupNext := u'.threadGroupNext
      threadGroupPrev := u'.threadGroupPrev
      exitCode := u'.exitCode
      status := if q = p then .kZombie else u.status } :=
  exists_before (h.same q) (h.free q) hu'

theorem profile (h : Departed p t k k') {q : Ptr} (hq : q ≠ p) {u : TaskControlBlock}
    (hu : k.tasks q = some u) : ∃ u', k'.tasks q = some u' ∧ SameProfile u u' := by
  obtain ⟨u', hu', he⟩ := h.same q u hu
  rw [if_neg hq] at he
  exact ⟨u', hu', by rw [he]; exact ⟨rfl, rfl, rfl, rfl, rfl⟩⟩

theorem pid (h : Departed p t k k') {q : Ptr} {u : TaskControlBlock} (hu : k.tasks q = some u) :
    ∃ u', k'.tasks q = some u' ∧ u'.pid = u.pid := by
  obtain ⟨u', hu', he⟩ := h.same q u hu
  exact ⟨u', hu', by rw [he]⟩

theorem taskTable (h : Departed p t k k') : k'.taskTable = k.taskTable := by rw [h.rest]

theorem deletions (h : Departed p t k k') : k'.deletions = k.deletions := by rw [h.rest]

theorem entered (h : Departed p t k k') (he : k.Entered) : k'.Entered := by
  intro e hmem
  rw [h.taskTable] at hmem
  obtain ⟨u, hu, hpid⟩ := he e hmem
  obtain ⟨u', hu', hpid'⟩ := h.pid hu
  exact ⟨u', hu', hpid'.trans hpid⟩

theorem stable (h : Departed p t k k') (hst : Stable ∅ k loc) (hrun : k.running c = some p)
    (hidle : k.idle c ≠ some p) (hheld : ∀ c', k.held c' ≠ some p) (ht : k.tasks p = some t) :
    Stable {c} k' loc := by
  obtain ⟨t', ht', -⟩ := h.self ht
  -- first the exiting task alone, then the links and parents of all
  have h₁ : Stable {c} (k.setTask p t') loc := by
    refine hst.updateBlock (Set.empty_subset _) (hst.loc_running (Set.notMem_empty c) hrun)
      (hst.ne_idle hrun hidle) hheld (some t') ?_ rfl rfl rfl
    intro c' hc'
    exact ⟨hst.runs_inj c' c p hc' hrun, t', rfl⟩
  have hscheds : k'.cpuSchedulers = k.cpuSchedulers := by rw [h.rest]
  have hcpu : k'.perCpu = k.perCpu := by rw [h.rest]
  refine h₁.reprofile ?_ ?_ hscheds hcpu
  · intro q u hu
    by_cases hq : q = p
    · subst hq
      rw [k.tasks_setTask_self] at hu
      exact ⟨t', ht', Option.some.inj hu ▸ SameProfile.refl t'⟩
    · rw [k.tasks_setTask_ne p _ hq] at hu
      exact h.profile hq hu
  · intro q hq
    have hqp : q ≠ p := by
      rintro rfl
      rw [k.tasks_setTask_self] at hq
      cases hq
    exact h.free q ((k.tasks_setTask_ne p t' hqp).symm.trans hq)

end Departed

/-- The part of `Exit` before it schedules. -/
def depart (c : CoreId) (exitCode : BitVec 32) : KernelM Unit := do
  let current ← runningTask c "Exit: No current task to exit"
    "Exit: current task status must be kRunning"
  updateTask current fun t => { t with exitCode := exitCode }
  leaveFamily current
  settleExit c current

theorem wp_exit_iff {exitCode : BitVec 32} :
    wp (exit c exitCode : KernelM Unit) Q E k ↔
      wp (depart c exitCode) (fun _ => wp (schedule c) Q E) E k := by
  simp only [exit, depart, lockGuard_kernelM, run_kernelM, wp_bind]

/-- `Exit` up to the question whether the task has a parent. -/
theorem wp_depart_family (h : Stable ∅ k loc) (hg : k.Grouped) (he : k.Entered)
    (hrun : k.running c = some p) (hidle : k.idle c ≠ some p) (ht : k.tasks p = some t)
    (exitCode : BitVec 32)
    (hQ : ∀ k₂ t₂, LeftFamily { t with exitCode := exitCode }
        (k.setTask p { t with exitCode := exitCode }) k₂ →
      k₂.next = Function.update (bypass k.next (k.prev p) (k.next p)) p none →
      k₂.prev = Function.update (bypass k.prev (k.next p) (k.prev p)) p none →
      k₂.tasks p = some t₂ → t₂.parentPid = k.exitParent p t → wp (settleExit c p) Q E k₂) :
    wp (depart c exitCode) Q E k := by
  simp only [depart, wp_bind]
  refine Closed.wp_runningTask h hrun hidle ?_
  set t₁ : TaskControlBlock := { t with exitCode := exitCode } with ht₁
  have ht₁' : (k.setTask p t₁).tasks p = some t₁ := k.tasks_setTask_self p t₁
  have hg₁ : (k.setTask p t₁).Grouped := hg.setTask ht rfl rfl
  have hn₁ : (k.setTask p t₁).next = k.next := by
    rw [Kernel.next_setTask]
    exact Function.update_eq_iff.mpr ⟨(Kernel.next_eq ht).symm, fun _ _ => rfl⟩
  have hp₁ : (k.setTask p t₁).prev = k.prev := by
    rw [Kernel.prev_setTask]
    exact Function.update_eq_iff.mpr ⟨(Kernel.prev_eq ht).symm, fun _ _ => rfl⟩
  rw [wp_updateTask ht]
  refine wp_leaveFamily hg₁ ?_ ht₁' ?_
  · intro e hmem
    obtain ⟨u, hu, -⟩ := he e hmem
    by_cases hep : e.2 = p
    · exact ⟨t₁, hep ▸ ht₁'⟩
    · exact ⟨u, (k.tasks_setTask_ne p t₁ hep).trans hu⟩
  intro k₂ hf hn hp
  rw [hn₁, hp₁] at hn hp
  obtain ⟨t₂, ht₂, he₂⟩ := hf.same p t₁ ht₁'
  apply hQ k₂ t₂ hf hn hp ht₂
  rw [he₂]
  rfl

/-- A task with a parent, that no idle scheduler holds, departs, and those that wait for a
child of its parent are woken. -/
theorem wp_depart (h : Stable ∅ k loc) (hg : k.Grouped) (he : k.Entered)
    (hrun : k.running c = some p) (hidle : k.idle c ≠ some p) (hheld : ∀ c', k.held c' ≠ some p)
    (ht : k.tasks p = some t) (hpar : k.exitParent p t ≠ 0) (exitCode : BitVec 32)
    (hE : ∀ policy k', (k.cpuSchedulers c).schedulers policy = none → k'.deletions = k.deletions →
      E (.assertFailed "Wakeup: scheduler must not be null") k')
    (hQ : ∀ k₁ k₂ loc₂, Departed p t k k₁ → Stable {c} k₁ loc → Stable {c} k₂ loc₂ →
      Awakened (.blocked c (ResourceId.make .kChildExit (k.exitParent p t))) k₁ loc k₂ loc₂ →
      (∀ q, loc₂ q ≠ some (.blocked c (ResourceId.make .kChildExit (k.exitParent p t)))) →
      k₂.running c = some p → loc₂ p = none → Q () k₂) :
    wp (depart c exitCode) Q E k := by
  refine wp_depart_family h hg he hrun hidle ht exitCode ?_
  intro k₂ t₂ hf hn hp ht₂ hpar₂
  have hd := departed ht exitCode hf hn hp ht₂
  have hst := hd.stable h hrun hidle hheld ht
  have hnone : loc p = none := h.loc_running (Set.notMem_empty c) hrun
  have hscheds : (k₂.setTask p (t₂.setStatus .kZombie)).cpuSchedulers = k.cpuSchedulers := by
    rw [hd.rest]
  have hrun₂ : (k₂.setTask p (t₂.setStatus .kZombie)).running c = some p := by
    rw [Kernel.running, hd.rest]
    exact hrun
  simp only [settleExit, wakeup, lockGuard_kernelM, run_kernelM, klog_kernelM, wp_bind,
    wp_readTask ht₂, wp_ite, hpar₂, if_pos hpar, wp_updateTask ht₂, wp_pure]
  refine (wp_wakeupBody _ hst.toSound ?_).imp ?_
  · intro policy hnone k' ho
    rw [hscheds] at hnone
    exact hE policy k' hnone (ho.deletions.trans hd.deletions)
  · rintro _ k₃ ⟨loc₃, ha, hleft⟩
    refine hQ _ k₃ loc₃ hd hst (hst.awakened ha) ha hleft (by rw [ha.running, hrun₂]) ?_
    rcases ha.moved p with hsame | ⟨hb, -⟩
    · rw [hsame, hnone]
    · rw [hnone] at hb
      cases hb

theorem wp_exit (h : Stable ∅ k loc) (hg : k.Grouped) (he : k.Entered) (hrun : k.running c = some p)
    (hidle : k.idle c ≠ some p) (hheld : ∀ c', k.held c' ≠ some p) (ht : k.tasks p = some t)
    (hpar : k.exitParent p t ≠ 0) (exitCode : BitVec 32) :
    wp (exit c exitCode) (fun _ k' => (∃ loc', Stable ∅ k' loc') ∧
      ∃ k₁, Departed p t k k₁ ∧ Persists k₁ k') (Failed k) k := by
  rw [wp_exit_iff]
  refine wp_depart h hg he hrun hidle hheld ht hpar exitCode ?_ ?_
  · intro policy k' _ hdel
    exact ⟨trivial, hdel⟩
  · intro k₁ k₂ loc₂ hd _ h₂ ha _ hrun₂ hloc₂
    refine wp_mono ((Persists.closed k₁ c).wp_schedule h₂ ha.persists hrun₂
      (fun _ _ _ => hloc₂)) ?_ ?_
    · rintro _ k' ⟨loc', h', hp⟩
      exact ⟨⟨loc', h'⟩, k₁, hd, hp⟩
    · intro e k' hf
      exact ⟨hf.1, hf.2.trans hd.deletions⟩

end Exit

section Wait

/-- A task that has ended is in no queue and on no core. -/
theorem Stable.unused_of_dead (h : Stable ∅ k loc) (ht : k.tasks p = some t)
    (hdead : isDead t = true) : Unused k loc p where
  queues := h.loc_of_dead ht hdead
  running c hr := by
    rcases h.runs c p hr with ⟨u, hu, hst⟩
    obtain rfl := Option.mem_unique ht hu
    rcases hst (Set.notMem_empty c) with hrun | hi
    · rw [isDead_of_running hrun] at hdead
      cases hdead
    · rcases (h.thread c p hi).2 with ⟨v, hv, -, hv'⟩
      rw [← Option.mem_unique ht hv, hdead] at hv'
      cases hv'
  idle c hi := by
    rcases (h.thread c p hi).2 with ⟨v, hv, -, hv'⟩
    rw [← Option.mem_unique ht hv, hdead] at hv'
    cases hv'
  held c hh := by
    rcases (h.inHand c p hh).1 with ⟨v, hv, -, hv'⟩
    rw [← Option.mem_unique ht hv, hdead] at hv'
    cases hv'

theorem parent_of_pidMatches {u : TaskControlBlock} {pid : Pid} (h : pidMatches pid t u = true) :
    u.parentPid = t.pid := by
  simp only [pidMatches] at h
  split at h
  · simpa using h
  · split at h <;> simp at h <;> exact h.1

/-- The scan of `Wait` reads the table and reports an ended task of it that matches; when it
reports nothing, the table has none. -/
theorem wp_scanChildren (pid : Pid) (untraced : Bool) {current : Ptr} (hc : k.tasks current = some t)
    (order : List (Pid × Ptr)) (h : ∀ e ∈ order, ∃ t, k.tasks e.2 = some t)
    {Q : WaitScan → Kernel → Prop}
    (hexited : ∀ e ∈ order, ∀ u, k.tasks e.2 = some u → pidMatches pid t u = true → isDead u = true →
      Q (.exited e.2) k)
    (hstopped : ∀ child, untraced = true → Q (.stopped child) k)
    (hnothing : (∀ e ∈ order, ∀ u, k.tasks e.2 = some u → pidMatches pid t u = true →
      isDead u = false) → Q .nothing k) :
    wp (scanChildren pid untraced current order) Q E k := by
  induction order with
  | nil =>
    rw [scanChildren, wp_pure]
    exact hnothing nofun
  | cons e rest ih =>
    rcases h e List.mem_cons_self with ⟨u, hu⟩
    -- the rest of the walk, when the first entry is not an ended child that matches
    have hskip : (pidMatches pid t u = true → isDead u = false) →
        wp (scanChildren pid untraced current rest) Q E k := by
      intro hno
      refine ih (fun e' he' => h e' (List.mem_cons_of_mem e he'))
        (fun e' he' => hexited e' (List.mem_cons_of_mem e he')) (fun hnone => hnothing ?_)
      intro e' he' u' hu' hm
      rcases List.mem_cons.mp he' with rfl | he'
      · obtain rfl := Option.mem_unique hu hu'
        exact hno hm
      · exact hnone e' he' u' hu' hm
    simp only [scanChildren, wp_bind, wp_readTask hu, wp_readTask hc, wp_ite, wp_pure]
    split
    · rename_i hmatch
      split
      · rename_i hdead
        exact hexited e List.mem_cons_self u hu hmatch hdead
      · rename_i hdead
        split
        · rename_i hst
          exact hstopped _ (Bool.and_eq_true _ _ ▸ hst).1
        · exact hskip fun _ => Bool.eq_false_iff.mpr hdead
    · rename_i hmatch
      exact hskip fun hm => absurd hm hmatch

/-- The ended task `p` with block `t` has left the table and is deleted. -/
def Reaped (p : Ptr) (t : TaskControlBlock) (k k' : Kernel) : Prop :=
  isDead t = true ∧ k.tasks p = some t ∧
    Deleted p t { k with taskTable := tableErase t.pid k.taskTable } k'

/-- `Wait` on core `c` looks for the task. -/
def Kernel.WaitedFor (k : Kernel) (c : CoreId) (pid : Pid) (u : TaskControlBlock) : Prop :=
  ∃ p t, k.running c = some p ∧ k.tasks p = some t ∧ pidMatches pid t u = true

/-- The table has an ended task that a `Wait` of the task with block `t` looks for. -/
def Kernel.Reapable (k : Kernel) (pid : Pid) (t : TaskControlBlock) : Prop :=
  ∃ q u, (u.pid, q) ∈ k.taskTable ∧ k.tasks q = some u ∧ pidMatches pid t u = true ∧ isDead u = true

/-- What a pass of `Wait` of the task with block `t` does, by what it reports. -/
def Kernel.Passed (k : Kernel) (pid : Pid) (noHang untraced : Bool) (t : TaskControlBlock) :
    WaitResult → Kernel → Prop
  | .reaped child exitCode, k' => ∃ q u, (child, q) ∈ k.taskTable ∧ pidMatches pid t u = true ∧
      u.pid = child ∧ u.exitCode = exitCode ∧ Reaped q u k k'
  | .stopped _, k' => untraced = true ∧ k' = k
  | .noChange, k' => noHang = true ∧ k' = k ∧ ¬ k.Reapable pid t
  | .blocked, k' => noHang = false ∧ Persists k k' ∧ ¬ k.Reapable pid t

theorem Kernel.Passed.persists_or_reaped {pid : Pid} {noHang untraced : Bool} {r : WaitResult}
    (h : k.Passed pid noHang untraced t r k') :
    Persists k k' ∨ ∃ q u, pidMatches pid t u = true ∧ Reaped q u k k' := by
  cases r with
  | reaped child exitCode =>
    obtain ⟨q, u, -, hmatch, -, -, hreaped⟩ := h
    exact Or.inr ⟨q, u, hmatch, hreaped⟩
  | stopped child => exact Or.inl (h.2 ▸ Persists.refl k)
  | noChange => exact Or.inl (h.2.1 ▸ Persists.refl k)
  | blocked => exact Or.inl h.2.1

theorem wp_reapChild (h : Stable ∅ k loc) (hg : k.Grouped) {current : Ptr} {u : TaskControlBlock}
    (hc : k.tasks current = some u) (ht : k.tasks p = some t) (hdead : isDead t = true)
    (hparent : t.parentPid = u.pid) (hentry : (t.pid, p) ∈ k.taskTable) :
    wp (reapChild current p : KernelM WaitResult)
      (fun r k' => r = .reaped t.pid t.exitCode ∧ Stable ∅ k' loc ∧ Reaped p t k k') E k := by
  have hfound : (k.lookup t.pid).isSome = true := by
    cases hl : k.lookup t.pid with
    | none => exact absurd rfl (Kernel.not_mem_of_lookup hl _ hentry)
    | some q => rfl
  simp only [reapChild, destroyTask, run_kernelM, lockGuard_kernelM, klog_kernelM, wp_bind, wp_pure,
    wp_readTask ht, wp_readTask hc, wp_assertMsg, hdead, hparent, hfound, beq_self_eq_true, if_true,
    wp_get, wp_modify]
  set k₁ : Kernel := { k with taskTable := tableErase t.pid k.taskTable }
  have h₁ : Stable ∅ k₁ loc := h.congr rfl rfl rfl
  have hu₁ : Unused k₁ loc p := (h.unused_of_dead ht hdead).congr rfl rfl
  refine wp_deleteTask h₁ hg hu₁ ht ?_
  intro k₂ h₂ hd
  exact ⟨trivial, h₂, hdead, ht, hd⟩

/-- A pass of `Wait` stops only where it blocks. -/
theorem wp_waitPass (h : Stable ∅ k loc) (hg : k.Grouped) (he : k.Entered)
    (hrun : k.running c = some p) (hidle : k.idle c ≠ some p) (ht : k.tasks p = some t) (pid : Pid)
    (noHang untraced : Bool) {order : List (Pid × Ptr)} (horder : order.Perm k.taskTable) :
    wp (waitPass c pid noHang untraced order : KernelM WaitResult)
      (fun r k' => (∃ loc', Stable ∅ k' loc') ∧ k.Passed pid noHang untraced t r k')
      (fun e k' => Failed k e k' ∧ noHang = false ∧ ¬ k.Reapable pid t) k := by
  simp only [waitPass, run_kernelM, lockGuard_kernelM, wp_bind]
  refine Closed.wp_runningTask h hrun hidle ?_
  refine wp_scanChildren pid untraced ht order ?_ ?_ ?_ ?_
  · intro e hmem
    exact (he e (horder.mem_iff.mp hmem)).imp (fun _ hu => hu.1)
  · intro e hmem u hu hmatch hdead
    have hentry : (u.pid, e.2) ∈ k.taskTable := by
      obtain ⟨u', hu', hpid⟩ := he e (horder.mem_iff.mp hmem)
      obtain rfl := Option.mem_unique hu hu'
      exact hpid ▸ horder.mem_iff.mp hmem
    refine (wp_reapChild h hg ht hu hdead (parent_of_pidMatches hmatch) hentry).imp ?_
    rintro _ k' ⟨rfl, h', hr⟩
    exact ⟨⟨loc, h'⟩, e.2, u, hentry, hmatch, rfl, rfl, hr⟩
  · intro child huntraced
    rw [wp_pure]
    exact ⟨⟨loc, h⟩, huntraced, rfl⟩
  · intro hnone
    have hnone' : ¬ k.Reapable pid t := by
      rintro ⟨q, u, hmem, hu, hmatch, hdead⟩
      rw [hnone _ (horder.mem_iff.mpr hmem) u hu hmatch] at hdead
      cases hdead
    cases noHang with
    | true => exact (wp_pure _).mpr ⟨⟨loc, h⟩, rfl, rfl, hnone'⟩
    | false =>
      simp only [Bool.false_eq_true, if_false, wp_bind, wp_readTask ht, wp_pure]
      refine wp_mono ((Persists.closed k c).wp_block h (Persists.refl k) hrun hidle _ trivial) ?_ ?_
      · rintro _ k' ⟨loc', h', hp⟩
        exact ⟨⟨loc', h'⟩, rfl, hp, hnone'⟩
      · exact fun _ _ hfail => ⟨hfail, trivial, hnone'⟩

end Wait

section Clone

open Memory

/-- The thread group that a new thread of the task with block `t` joins. -/
def Kernel.groupOf (k : Kernel) (t : TaskControlBlock) : Pid :=
  if t.isThreadGroupLeader then t.tgid
  else match (k.lookup t.tgid).bind k.tasks with
    | some leader => leader.tgid
    | none => t.tgid

/-- The task behind which a child of `parent`, with block `t`, enters a thread group. -/
def Kernel.joinTarget (k : Kernel) (flags : BitVec 64) (parent : Ptr) (t : TaskControlBlock) :
    Option Ptr :=
  if CloneFlags.has flags CloneFlags.kCloneThread then
    if t.isThreadGroupLeader then some parent else k.lookup t.tgid
  else none

/-- The task `child` has been put behind another one, or has no links; without it the links
are those of `k`. -/
structure Kernel.JoinedBehind (k : Kernel) (child : Ptr) (b : Option Ptr) (k' : Kernel) : Prop where
  next : Function.update (bypass k'.next (k'.prev child) (k'.next child)) child none = k.next
  prev : Function.update (bypass k'.prev (k'.next child) (k'.prev child)) child none = k.prev
  place : k'.prev child = b
  loose : b = none → k'.next child = none

/-- Since `k` the control block `u` has been built at `child`, which may have joined a thread
group behind `b`; when it leaves, the links are those of `k` again. -/
structure Pending (child : Ptr) (u : TaskControlBlock) (b : Option Ptr) (k k' : Kernel) : Prop where
  block : ∃ u', k'.tasks child = some u' ∧ Regrouped u u'
  same : ∀ q, q ≠ child → ∀ v, k.tasks q = some v → ∃ v', k'.tasks q = some v' ∧ Regrouped v v'
  free : ∀ q, q ≠ child → k.tasks q = none → k'.tasks q = none
  grouped : k'.Grouped
  links : k.JoinedBehind child b k'
  rest : k' = { k with
    tasks := k'.tasks, pidAllocator := k.pidAllocator + 1, vm := k'.vm }

variable {child : Ptr} {u : TaskControlBlock} {b : Option Ptr}

theorem Kernel.JoinedBehind.congr (h : k.JoinedBehind child b k') (hn : k''.next = k'.next)
    (hp : k''.prev = k'.prev) : k.JoinedBehind child b k'' := by
  refine ⟨?_, ?_, ?_, ?_⟩
  · rw [hn, hp]
    exact h.next
  · rw [hn, hp]
    exact h.prev
  · rw [hp]
    exact h.place
  · rw [hn]
    exact h.loose

theorem Kernel.next_of_none (hp : k.tasks p = none) : k.next p = none := by rw [Kernel.next, hp]; rfl

theorem Kernel.prev_of_none (hp : k.tasks p = none) : k.prev p = none := by rw [Kernel.prev, hp]; rfl

theorem Kernel.Grouped.alloc (hg : k.Grouped) (hp : k.tasks p = none) (hn : t.threadGroupNext = none)
    (hpr : t.threadGroupPrev = none) : (k.setTask p t).Grouped := by
  rw [Kernel.Grouped, Kernel.next_setTask, Kernel.prev_setTask, hn, hpr, ← Kernel.next_of_none hp,
    Function.update_eq_self, ← (Kernel.prev_of_none hp).trans (Kernel.next_of_none hp).symm,
    Function.update_eq_self]
  exact hg

theorem Pending.start (hg : k.Grouped) (hfree : k.tasks child = none) (hn : u.threadGroupNext = none)
    (hpr : u.threadGroupPrev = none) :
    Pending child u none k (({ k with pidAllocator := k.pidAllocator + 1 } : Kernel).setTask child u) := by
  set k₁ : Kernel := { k with pidAllocator := k.pidAllocator + 1 } with hk₁
  have hnext : (k₁.setTask child u).next = k.next := by
    rw [Kernel.next_setTask, hn, ← Kernel.next_of_none (k := k₁) hfree, Function.update_eq_self]
    rfl
  have hprev : (k₁.setTask child u).prev = k.prev := by
    rw [Kernel.prev_setTask, hpr, ← Kernel.prev_of_none (k := k₁) hfree, Function.update_eq_self]
    rfl
  refine ⟨⟨u, k₁.tasks_setTask_self child u, rfl⟩, ?_, ?_, ?_, ⟨?_, ?_, ?_, ?_⟩, rfl⟩
  · intro q hq v hv
    exact ⟨v, (k₁.tasks_setTask_ne child u hq).trans hv, rfl⟩
  · intro q hq hv
    exact (k₁.tasks_setTask_ne child u hq).trans hv
  · rw [Kernel.Grouped, hnext, hprev]
    exact hg
  · rw [hnext, hprev, Kernel.next_of_none hfree, Kernel.prev_of_none hfree, bypass,
      ← Kernel.next_of_none hfree, Function.update_eq_self]
  · rw [hnext, hprev, Kernel.next_of_none hfree, Kernel.prev_of_none hfree, bypass,
      ← Kernel.prev_of_none hfree, Function.update_eq_self]
  · rw [hprev, Kernel.prev_of_none hfree]
  · intro _
    rw [hnext, Kernel.next_of_none hfree]

namespace Pending

theorem cpuSchedulers (h : Pending child u b k k') : k'.cpuSchedulers = k.cpuSchedulers := by rw [h.rest]

theorem perCpu (h : Pending child u b k k') : k'.perCpu = k.perCpu := by rw [h.rest]

theorem taskTable (h : Pending child u b k k') : k'.taskTable = k.taskTable := by rw [h.rest]

theorem deletions (h : Pending child u b k k') : k'.deletions = k.deletions := by rw [h.rest]

theorem setVm (h : Pending child u b k k') (vm : Vm) : Pending child u b k { k' with vm := vm } :=
  ⟨h.block, h.same, h.free, h.grouped, h.links.congr rfl rfl, by rw [h.rest]⟩

theorem unused (h : Pending child u b k k') (hst : Stable ∅ k loc) (hfree : k.tasks child = none) :
    Unused k' loc child := (hst.unused_of_none hfree).congr h.cpuSchedulers h.perCpu

theorem stable (h : Pending child u b k k') (hst : Stable ∅ k loc) (hfree : k.tasks child = none) :
    Stable ∅ k' loc := by
  obtain ⟨u', hu', -⟩ := h.block
  have h₁ : Stable ∅ (k.setTask child u') loc :=
    hst.updateUnused (hst.unused_of_none hfree) (some u') rfl rfl rfl
  refine h₁.reprofile ?_ ?_ h.cpuSchedulers h.perCpu
  · intro q v hv
    by_cases hq : q = child
    · rw [hq, k.tasks_setTask_self] at hv
      exact ⟨u', hq ▸ hu', Option.some.inj hv ▸ SameProfile.refl u'⟩
    · rw [k.tasks_setTask_ne child u' hq] at hv
      obtain ⟨v', hv', hr⟩ := h.same q hq v hv
      exact ⟨v', hv', hr.profile⟩
  · intro q hq
    have hqc : q ≠ child := by
      rintro rfl
      rw [k.tasks_setTask_self] at hq
      cases hq
    exact h.free q hqc ((k.tasks_setTask_ne child u' hqc).symm.trans hq)

theorem wp_updateChild (h : Pending child u b k k') {f : TaskControlBlock → TaskControlBlock}
    (hf : ∀ v v', Regrouped v v' → Regrouped (f v) (f v'))
    (hn : ∀ v, (f v).threadGroupNext = v.threadGroupNext)
    (hp : ∀ v, (f v).threadGroupPrev = v.threadGroupPrev)
    (hQ : ∀ k'', Pending child (f u) b k k'' → k''.vm = k'.vm → Q () k'') :
    wp (updateTask child f) Q E k' := by
  obtain ⟨u', hu', hr⟩ := h.block
  have hnext : (k'.setTask child (f u')).next = k'.next := by
    rw [Kernel.next_setTask, hn, ← Kernel.next_eq hu', Function.update_eq_self]
  have hprev : (k'.setTask child (f u')).prev = k'.prev := by
    rw [Kernel.prev_setTask, hp, ← Kernel.prev_eq hu', Function.update_eq_self]
  rw [wp_updateTask hu']
  refine hQ _ ⟨⟨f u', k'.tasks_setTask_self child _, hf u u' hr⟩, ?_, ?_, ?_,
    h.links.congr hnext hprev, ?_⟩ rfl
  · intro q hq v hv
    rw [k'.tasks_setTask_ne child _ hq]
    exact h.same q hq v hv
  · intro q hq hv
    rw [k'.tasks_setTask_ne child _ hq]
    exact h.free q hq hv
  · rw [Kernel.Grouped, hnext, hprev]
    exact h.grouped
  · rw [Kernel.setTask, h.rest]

/-- The child, without links so far, has joined the group of `leader`. -/
theorem joined {k₁ : Kernel} (h : Pending child u none k k₁) {leader : Ptr} (hne : leader ≠ child)
    {tgid : Pid} (hr : Rewrites Regrouped (k₁.setTask child { u with tgid := tgid }) k')
    (hn : k'.next = Function.update (Function.update k₁.next child (k₁.next leader)) leader (some child))
    (hp : k'.prev = Function.update (bypass k₁.prev (k₁.next leader) (some child)) child (some leader)) :
    Pending child { u with tgid := tgid } (some leader) k k' := by
  have hprev : k₁.prev child = none := h.links.place
  have hnext : k₁.next child = none := h.links.loose rfl
  have hn₁ : k₁.next = k.next := by
    rw [← h.links.next, hnext, hprev, bypass, ← hnext, Function.update_eq_self]
  have hp₁ : k₁.prev = k.prev := by
    rw [← h.links.prev, hnext, hprev, bypass, ← hprev, Function.update_eq_self]
  have hprev' : k'.prev child = some leader := by rw [hp, Function.update_self]
  have hnext' : k'.next child = k₁.next leader := by
    rw [hn, Function.update_of_ne hne.symm, Function.update_self]
  refine ⟨?_, ?_, ?_, ?_, ⟨?_, ?_, hprev', by simp⟩, by rw [hr.rest, Kernel.setTask, h.rest]⟩
  · exact hr.same child _ (k₁.tasks_setTask_self child _)
  · intro q hq v hv
    obtain ⟨v₁, hv₁, hr₁⟩ := h.same q hq v hv
    obtain ⟨v', hv', hr'⟩ := hr.same q v₁ ((k₁.tasks_setTask_ne child _ hq).trans hv₁)
    exact ⟨v', hv', Regrouped.trans _ _ _ hr₁ hr'⟩
  · intro q hq hv
    exact hr.free q ((k₁.tasks_setTask_ne child _ hq).trans (h.free q hq hv))
  · rw [Kernel.Grouped, hn, hp]
    exact Linked.insertAfter h.grouped hne hnext hprev
  · rw [hprev', hnext', hn, remove_insertAfter_next hnext, hn₁]
  · rw [hprev', hnext', hp, Linked.remove_insertAfter_prev h.grouped hprev, hp₁]

/-- Once the child has left its group and is gone, the tasks are those of `k`. -/
theorem tasks_of_deleted (h : Pending child u b k k') {u' : TaskControlBlock}
    (hfree : k.tasks child = none) (hd : Deleted child u' k' k'') : k''.tasks = k.tasks := by
  have hn : k''.next = k.next := hd.next.trans h.links.next
  have hp : k''.prev = k.prev := hd.prev.trans h.links.prev
  funext q
  by_cases hq : q = child
  · rw [hq, hd.gone, hfree]
  · cases hv : k.tasks q with
    | none => exact hd.free q (h.free q hq hv)
    | some v =>
      obtain ⟨v', hv', hr⟩ := h.same q hq v hv
      obtain ⟨v'', hv'', hr'⟩ := hd.same q hq v' hv'
      have hnext : v''.threadGroupNext = v.threadGroupNext := by
        rw [← Kernel.next_eq hv'', ← Kernel.next_eq hv, hn]
      have hprev : v''.threadGroupPrev = v.threadGroupPrev := by
        rw [← Kernel.prev_eq hv'', ← Kernel.prev_eq hv, hp]
      have hall := Regrouped.trans _ _ _ hr hr'
      rw [Regrouped, hnext, hprev] at hall
      rw [hv'', hall]

end Pending

/-- `Clone` has failed after it had built the control block `child`: the block is deleted, and
besides the pid counter only memory has changed. -/
def Kernel.abandoned (k : Kernel) (child : Ptr) (vm : Vm) : Kernel :=
  { k with
    pidAllocator := k.pidAllocator + 1
    vm := vm
    deletions := ⟨child, k.perCpu, k.cpuSchedulers⟩ :: k.deletions }

theorem Stable.abandoned (h : Stable ∅ k loc) (child : Ptr) (vm : Vm) :
    Stable ∅ (k.abandoned child vm) loc := h.congr rfl rfl rfl

theorem Pending.wp_destroyTask (h : Pending child u b k k') (hst : Stable ∅ k loc)
    (hfree : k.tasks child = none)
    (hQ : Q () (k.abandoned child (releaseMemory u k'.vm))) :
    wp (destroyTask child : KernelM Unit) Q E k' := by
  obtain ⟨u', hu', hr⟩ := h.block
  simp only [destroyTask, run_kernelM, klog_kernelM, wp_bind, wp_pure]
  refine wp_deleteTask (h.stable hst hfree) h.grouped (h.unused hst hfree) hu' ?_
  intro k'' _ hd
  have heq : k'' = k.abandoned child (releaseMemory u k'.vm) := by
    have hmem : releaseMemory u' k'.vm = releaseMemory u k'.vm := by
      rw [hr]
      rfl
    rw [hd.rest, h.tasks_of_deleted hfree hd, hmem, h.rest]
    rfl
  rw [heq]
  exact hQ

/-- `Clone` has published the child with block `u` on core `c`. -/
structure Cloned (c : CoreId) (child : Ptr) (u : TaskControlBlock) (k : Kernel)
    (loc : Ptr → Option Slot) (k' : Kernel) (loc' : Ptr → Option Slot) : Prop where
  stable : Stable ∅ k' loc'
  block : ∃ u', k'.tasks child = some u' ∧ u'.status = .kReady ∧ u' = { u with
    tgid := if u.tgid = 0 then u.pid else u.tgid
    threadGroupNext := u'.threadGroupNext
    threadGroupPrev := u'.threadGroupPrev
    status := u'.status
    schedInfo := u'.schedInfo
    blockedOn := u'.blockedOn }
  same : ∀ q, q ≠ child → ∀ v, k.tasks q = some v → ∃ v', k'.tasks q = some v' ∧ Regrouped v v'
  free : ∀ q, q ≠ child → k.tasks q = none → k'.tasks q = none
  grouped : k'.Grouped
  fresh : k.lookup u.pid = none
  running : k'.running = k.running
  idle : k'.idle = k.idle
  scheds : ∀ c policy, ((k'.cpuSchedulers c).schedulers policy).isSome =
    ((k.cpuSchedulers c).schedulers policy).isSome
  held : u.policy ≠ .kIdle → k'.held = k.held
  loc_ne : ∀ q, q ≠ child → loc' q = loc q
  loc_self : loc' child = k.home c u.policy
  taskTable : k'.taskTable = tableSet u.pid child k.taskTable
  pidAllocator : k'.pidAllocator = k.pidAllocator + 1
  deletions : k'.deletions = k.deletions

theorem tableSet_tableSet (pid : Pid) (task : Ptr) (table : List (Pid × Ptr)) :
    tableSet pid task (tableSet pid task table) = tableSet pid task table := by
  simp [tableSet, List.filter_append, List.filter_filter]

variable (P : Platform)

theorem Pending.wp_publishChild (h : Pending child u b k k') (hst : Stable ∅ k loc)
    (hfree : k.tasks child = none) {newPid : Pid} (hu : u.pid = newPid) (hpid : newPid ≠ 0)
    (haff : u.cpuAffinity = BitVec.allOnes 64) (hready : u.status = .kReady)
    {Q : Except ErrorCode Pid → Kernel → Prop}
    (hlisted : k.lookup newPid ≠ none →
      E (.assertFailed "Clone: new_pid must not exist in task_table") k')
    (hstatus : P.checkStatus = true → ∀ k'', k''.deletions = k.deletions →
      E (.assertFailed "AddTask: task status must be kUnInit") k'')
    (hQ : P.checkStatus = false → ∀ k'' loc'', Cloned c child u k loc k'' loc'' →
      k.JoinedBehind child b k'' → k''.vm = k'.vm → Q (.ok newPid) k'') :
    wp (publishChild P c newPid child : KernelM (Except ErrorCode Pid)) Q E k' := by
  subst hu
  obtain ⟨u', hu', hr⟩ := h.block
  have hpid' : u'.pid = u.pid := hr.profile.pid
  have htable := h.taskTable
  have hlook : k'.lookup u.pid = k.lookup u.pid := by rw [Kernel.lookup, htable, Kernel.lookup]
  simp only [publishChild, run_kernelM, lockGuard_kernelM, klog_kernelM, wp_bind, wp_pure, wp_get,
    wp_assertMsg, wp_modify, hlook]
  split
  · rename_i hnone
    set k₁ : Kernel := { k' with taskTable := tableSet u.pid child k'.taskTable } with hk₁
    have h₁ : Stable ∅ k₁ loc := (h.stable hst hfree).congr rfl rfl rfl
    have hu₁ : Unused k₁ loc child := (h.unused hst hfree).congr rfl rfl
    have hu'' : k₁.tasks child = some u' := hu'
    cases hcheck : P.checkStatus with
    | true =>
      refine wp_addTask_refused P hu'' hcheck ?_ (hstatus hcheck k₁ h.deletions)
      rw [hr.profile.status, hready]
      simp
    | false =>
    refine wp_addTask P h₁ hu₁ hu' (fun hc => by rw [hcheck] at hc; cases hc) ?_
    intro k₂ loc₂ ha
    have htarget : targetCore P c u'.cpuAffinity = c := by
      have haff' : u'.cpuAffinity = BitVec.allOnes 64 := by
        rw [hr]
        exact haff
      rw [targetCore, if_pos haff']
    have hpol : u'.policy = u.policy := hr.profile.policy
    have hfor : k₁.pidFor u' = u.pid := by
      rw [Kernel.pidFor, hpid', if_neg hpid]
    have htasks : ∀ q, q ≠ child → k₂.tasks q = k'.tasks q := ha.tasks_ne
    have hcpu : k₁.perCpu = k.perCpu := h.perCpu
    have hscheds : k₁.cpuSchedulers = k.cpuSchedulers := h.cpuSchedulers
    obtain ⟨u₂, hu₂, hst₂, hsame⟩ := ha.task
    -- the links of the child are those it had before
    have hnext : k₂.next = k'.next := by
      funext q
      by_cases hq : q = child
      · rw [hq, Kernel.next_eq hu₂, Kernel.next_eq hu', hsame.fields]
        rfl
      · rw [Kernel.next, Kernel.next, htasks q hq]
    have hprev : k₂.prev = k'.prev := by
      funext q
      by_cases hq : q = child
      · rw [hq, Kernel.prev_eq hu₂, Kernel.prev_eq hu', hsame.fields]
        rfl
      · rw [Kernel.prev, Kernel.prev, htasks q hq]
    refine hQ hcheck k₂ loc₂ ⟨ha.stable, ⟨u₂, hu₂, hst₂, ?_⟩, ?_, ?_, ?_, ?_, ?_, ?_, ?_, ?_, ha.loc_ne, ?_, ?_, ?_,
      ha.deletions.trans h.deletions⟩ (h.links.congr hnext hprev) ha.vm
    · rw [hsame.fields, Kernel.identified, hfor, hr]
      rfl
    · intro q hq v hv
      rw [htasks q hq]
      exact h.same q hq v hv
    · intro q hq hv
      rw [htasks q hq]
      exact h.free q hq hv
    · rw [Kernel.Grouped, hnext, hprev]
      exact h.grouped
    · simpa using hnone
    · rw [ha.running]
      funext c'
      rw [Kernel.running, Kernel.running, hcpu]
    · rw [ha.idle]
      funext c'
      rw [Kernel.idle, Kernel.idle, hcpu]
    · intro c' policy
      rw [ha.scheds c' policy, hscheds]
    · intro hne
      rw [ha.held (by rw [hpol]; exact hne)]
      funext c'
      rw [Kernel.held, Kernel.held, hscheds]
    · rw [ha.loc_self, htarget, hpol, Kernel.home, Kernel.home, hscheds]
    · rw [ha.taskTable, hfor, hk₁, htable, tableSet_tableSet]
    · rw [ha.pidAllocator, Kernel.pidAfter, if_neg (by rw [hpid']; exact hpid), hk₁, h.rest]
  · rename_i hsome
    exact hlisted (by simpa using hsome)

theorem Pending.wp_joinParentGroup (h : Pending child u none k k') (he : k.Entered)
    (hfree : k.tasks child = none) {parent : Ptr} (hne : parent ≠ child)
    (ht : k'.tasks parent = some t) (hu : k'.tasks child = some u)
    (hn : u.threadGroupNext = none) {flags : BitVec 64}
    (hthread : CloneFlags.has flags CloneFlags.kCloneThread = true)
    (hkeep : ∀ q, q ≠ child → k'.tasks q = k.tasks q)
    (hQ : ∀ k'', Pending child { u with tgid := k.groupOf t } (k.joinTarget flags parent t) k k'' →
      k''.vm = k'.vm → Q () k'') :
    wp (joinParentGroup child parent : KernelM Unit) Q E k' := by
  have join : ∀ leader l, leader ≠ child → k'.tasks leader = some l → l.tgid = k.groupOf t →
      k.joinTarget flags parent t = some leader → wp (joinThreadGroup child leader) Q E k' := by
    intro leader l hne hl htgid htarget
    refine wp_joinThreadGroup h.grouped hne hl hu hn ?_
    intro k'' hr hn' hp'
    rw [htgid] at hr
    rw [htarget] at hQ
    exact hQ k'' (h.joined hne hr hn' hp') (by rw [hr.rest]; rfl)
  have hlook : k'.lookup t.tgid = k.lookup t.tgid := by
    rw [Kernel.lookup, h.taskTable, Kernel.lookup]
  simp only [joinParentGroup, findTask, run_kernelM, lockGuard_kernelM, klog_kernelM, wp_bind,
    wp_readTask ht, wp_ite, wp_get, wp_pure, hlook]
  split
  · rename_i hleader
    exact join parent t hne ht (by rw [Kernel.groupOf, if_pos hleader])
      (by rw [Kernel.joinTarget, if_pos hthread, if_pos hleader])
  · rename_i hleader
    have htarget : k.joinTarget flags parent t = k.lookup t.tgid := by
      rw [Kernel.joinTarget, if_pos hthread, if_neg hleader]
    cases hl : k.lookup t.tgid with
    | none =>
      have hgroup : k.groupOf t = t.tgid := by
        rw [Kernel.groupOf, if_neg hleader, hl]
        rfl
      simp only [wp_bind, wp_pure]
      refine h.wp_updateChild (f := fun v => { v with tgid := t.tgid }) ?_ (fun _ => rfl)
        (fun _ => rfl) ?_
      · intro v v' hr
        rw [Regrouped] at *
        rw [hr]
      · rw [hgroup, htarget, hl] at hQ
        exact hQ
    | some leader =>
      rw [hl] at htarget
      rw [Kernel.lookup, Option.map_eq_some_iff] at hl
      obtain ⟨e, hfind, rfl⟩ := hl
      obtain ⟨l, hl, -⟩ := he e (List.mem_of_find?_eq_some hfind)
      have hlc : e.2 ≠ child := by
        intro heq
        rw [heq, hfree] at hl
        cases hl
      refine join e.2 l hlc ((hkeep e.2 hlc).trans hl) ?_ htarget
      rw [Kernel.groupOf, if_neg hleader, Kernel.lookup, hfind]
      simp only [Option.map_some, Option.bind_some, hl]

/-- The block of the child when its memory is set up. -/
def Kernel.childOf (k : Kernel) (flags : BitVec 64) (t : TaskControlBlock) : TaskControlBlock :=
  let u := childBlock flags k.pidAllocator t
  if CloneFlags.has flags CloneFlags.kCloneThread then { u with tgid := k.groupOf t } else u

/-- The memory after `Clone` has got no kernel stack. -/
def abandonedMemory (flags : BitVec 64) (pageTable : Option Addr) (vm : Vm) : Vm :=
  match pageTable with
  | some root => if CloneFlags.has flags CloneFlags.kCloneVm then vm else destroyPageDirectory root false vm
  | none => vm

/-- How `Clone` ends when it returns, with the flags as completed for threads. -/
inductive CloneEffect (c : CoreId) (flags : BitVec 64) (child : Option Ptr) (k : Kernel)
    (loc : Ptr → Option Slot) : Except ErrorCode Pid → Kernel → (Ptr → Option Slot) → Prop
  | noTask : k.running c = none → CloneEffect c flags child k loc (.error .kTaskNoCurrentTask) k loc
  | noPid : k.pidAllocator = 0 → CloneEffect c flags child k loc (.error .kTaskPidAllocationFailed)
      { k with pidAllocator := k.pidAllocator + 1 } loc
  | noBlock : child = none → CloneEffect c flags child k loc (.error .kTaskAllocationFailed)
      { k with pidAllocator := k.pidAllocator + 1 } loc
  | noTable {q parent : Ptr} {t : TaskControlBlock} {code : ErrorCode} {vm : Vm} :
      child = some q → k.running c = some parent → k.tasks parent = some t →
      childPageTable P flags t k.vm = .error (.unexpected code) vm →
      CloneEffect c flags child k loc (.error .kTaskPageTableCloneFailed) (k.abandoned q vm) loc
  | noStack {q parent : Ptr} {t : TaskControlBlock} {pageTable : Option Addr} {vm vm' : Vm} :
      child = some q → k.running c = some parent → k.tasks parent = some t →
      childPageTable P flags t k.vm = .ok pageTable vm →
      alignedAlloc P.allocator vm = .ok none vm' →
      CloneEffect c flags child k loc (.error .kTaskKernelStackAllocationFailed)
        (k.abandoned q (releaseMemory { k.childOf flags t with pageTable := pageTable }
          (abandonedMemory flags pageTable vm'))) loc
  | cloned {q parent : Ptr} {t : TaskControlBlock} {pageTable : Option Addr} {stack : Addr}
      {vm vm' : Vm} {k' : Kernel} {loc' : Ptr → Option Slot} :
      P.checkStatus = false → child = some q → k.running c = some parent → k.tasks parent = some t →
      childPageTable P flags t k.vm = .ok pageTable vm →
      alignedAlloc P.allocator vm = .ok (some stack) vm' →
      Cloned c q { k.childOf flags t with pageTable := pageTable, kernelStack := some stack } k loc
        k' loc' → k.JoinedBehind q (k.joinTarget flags parent t) k' → k'.vm = vm' →
      CloneEffect c flags child k loc (.ok k.pidAllocator) k' loc'

theorem CloneEffect.stable {P : Platform} {flags : BitVec 64} {child : Option Ptr} {r : Except ErrorCode Pid}
    (h : CloneEffect P c flags child k loc r k' loc') (hst : Stable ∅ k loc) :
    ∃ loc', Stable ∅ k' loc' := by
  cases h with
  | noTask => exact ⟨loc, hst⟩
  | noPid | noBlock => exact ⟨loc, hst.congr rfl rfl rfl⟩
  | noTable | noStack => exact ⟨loc, hst.abandoned _ _⟩
  | cloned _ _ _ _ _ _ hcl _ _ => exact ⟨loc', hcl.stable⟩

/-- The assertions at which `Clone` by the task with block `t` can stop. -/
inductive CloneStops (flags : BitVec 64) (t : TaskControlBlock) (k : Kernel) : String → Prop
  | pageTable {message : String} {vm : Vm} :
      childPageTable P flags t k.vm = .error (.assertFailed message) vm → CloneStops flags t k message
  | listed {pageTable : Option Addr} {stack : Addr} {vm vm' : Vm} :
      childPageTable P flags t k.vm = .ok pageTable vm →
      alignedAlloc P.allocator vm = .ok (some stack) vm' → k.lookup k.pidAllocator ≠ none →
      CloneStops flags t k "Clone: new_pid must not exist in task_table"
  | status {pageTable : Option Addr} {stack : Addr} {vm vm' : Vm} :
      childPageTable P flags t k.vm = .ok pageTable vm →
      alignedAlloc P.allocator vm = .ok (some stack) vm' → P.checkStatus = true →
      CloneStops flags t k "AddTask: task status must be kUnInit"

theorem wp_runVm {α : Type} {x : VmM α} {Q : Except ErrorCode α → Kernel → Prop}
    (hok : ∀ a vm, x k.vm = .ok a vm → Q (.ok a) { k with vm := vm })
    (hcode : ∀ code vm, x k.vm = .error (.unexpected code) vm → Q (.error code) { k with vm := vm })
    (hE : ∀ message vm, x k.vm = .error (.assertFailed message) vm →
      E (.assertFailed message) { k with vm := vm }) : wp (runVm x) Q E k := by
  cases hx : x k.vm with
  | ok a vm => exact (wp_of_ok (by rw [runVm, hx])).mpr (hok a vm hx)
  | error e vm =>
    cases e with
    | unexpected code => exact (wp_of_ok (by rw [runVm, hx])).mpr (hcode code vm hx)
    | assertFailed message => exact (wp_of_error (by rw [runVm, hx])).mpr (hE message vm hx)

theorem runVm_rest {α : Type} {x : VmM α} {r : Except ErrorCode α} (h : runVm x k = .ok r k') :
    k' = { k with vm := k'.vm } := by
  rw [runVm] at h
  split at h <;> cases h <;> rfl

theorem alignedAlloc_ne_error {A : Allocator} {vm vm' : Vm} {e : VmStop} :
    alignedAlloc A vm ≠ .error e vm' := by
  rw [alignedAlloc]
  cases A.alloc vm.calls vm.live <;> simp

/-- `Clone` once the child exists and has its thread group. -/
theorem Pending.wp_cloneChild {flags : BitVec 64} {parent : Ptr}
    (h : Pending child (k.childOf flags t) (k.joinTarget flags parent t) k k') (hst : Stable ∅ k loc)
    (hfree : k.tasks child = none) (hrun : k.running c = some parent)
    (ht : k.tasks parent = some t) (hpid : k.pidAllocator ≠ 0) (hvm : k'.vm = k.vm) :
    wp (cloneChild P c flags k.pidAllocator parent child : KernelM (Except ErrorCode Pid))
      (fun r k'' => ∃ loc'', CloneEffect P c flags (some child) k loc r k'' loc'')
      (fun e k'' => ∃ message, e = .assertFailed message ∧ CloneStops P flags t k message ∧
        k''.deletions = k.deletions) k' := by
  have hne : parent ≠ child := by
    rintro rfl
    rw [hfree] at ht
    cases ht
  obtain ⟨t', ht', hr⟩ := h.same parent hne t ht
  -- the links of the parent do not matter to its memory
  have hsame : childPageTable P flags t' = childPageTable P flags t := by
    rw [hr]
    rfl
  have hchild : (k.childOf flags t).pid = k.pidAllocator ∧
      (k.childOf flags t).cpuAffinity = BitVec.allOnes 64 ∧ (k.childOf flags t).status = .kReady := by
    rw [Kernel.childOf]
    split <;> exact ⟨rfl, rfl, rfl⟩
  have hlinks : ∀ (o : Option Addr) (v v' : TaskControlBlock), Regrouped v v' →
      Regrouped { v with pageTable := o } { v' with pageTable := o } := by
    intro o v v' hv
    rw [Regrouped] at *
    rw [hv]
  simp only [cloneChild, run_kernelM, klog_kernelM, wp_bind, wp_readTask ht', hsame]
  refine wp_runVm ?_ ?_ ?_
  · intro pageTable vm hx
    rw [hvm] at hx
    simp only [wp_bind, wp_pure]
    refine (h.setVm vm).wp_updateChild (hlinks pageTable) (fun _ => rfl) (fun _ => rfl) ?_
    intro k₂ h₂ hvm₂
    refine wp_runVm ?_ ?_ ?_
    · intro stack vm' halloc
      rw [hvm₂] at halloc
      cases stack with
      | none =>
        simp only [abandonChild, run_kernelM, klog_kernelM, wp_bind, wp_pure, wp_modify]
        have h₃ : Pending child { k.childOf flags t with pageTable := pageTable }
            (k.joinTarget flags parent t) k { k₂ with vm := abandonedMemory flags pageTable vm' } := h₂.setVm _
        have hdone := h₃.wp_destroyTask hst hfree
          (Q := fun _ k'' => ∃ loc'', CloneEffect P c flags (some child) k loc
            (.error .kTaskKernelStackAllocationFailed) k'' loc'')
          (E := fun e k'' => ∃ message, e = .assertFailed message ∧ CloneStops P flags t k message ∧
            k''.deletions = k.deletions) ⟨loc, .noStack rfl hrun ht hx halloc⟩
        cases pageTable with
        | none => exact hdone
        | some root =>
          by_cases hshare : CloneFlags.has flags CloneFlags.kCloneVm = true
          · simp only [abandonedMemory, hshare, if_true] at hdone ⊢
            exact hdone
          · simp only [abandonedMemory, hshare, if_false, Bool.false_eq_true] at hdone ⊢
            exact hdone
      | some stack =>
        simp only [wp_bind]
        refine (h₂.setVm vm').wp_updateChild (f := fun v => { v with kernelStack := some stack }) ?_
          (fun _ => rfl) (fun _ => rfl) ?_
        · intro v v' hv
          rw [Regrouped] at *
          rw [hv]
        intro k₄ h₄ hvm₄
        refine h₄.wp_publishChild P hst hfree hchild.1 hpid hchild.2.1 hchild.2.2 ?_ ?_ ?_
        · intro hl
          exact ⟨_, rfl, .listed hx halloc hl, h₄.deletions⟩
        · intro hcheck k'' hdel
          exact ⟨_, rfl, .status hx halloc hcheck, hdel⟩
        · intro hcheck k'' loc'' hcl hjoin hvm''
          exact ⟨loc'', .cloned hcheck rfl hrun ht hx halloc hcl hjoin (hvm''.trans hvm₄)⟩
    · intro code vm' halloc
      exact absurd halloc alignedAlloc_ne_error
    · intro message vm' halloc
      exact absurd halloc alignedAlloc_ne_error
  · intro code vm hx
    rw [hvm] at hx
    simp only [wp_bind, wp_pure]
    refine (h.setVm vm).wp_destroyTask hst hfree ?_
    have hmem : releaseMemory (k.childOf flags t) vm = vm := by
      rw [Kernel.childOf]
      split <;> rfl
    rw [hmem]
    exact ⟨loc, .noTable rfl hrun ht hx⟩
  · intro message vm hx
    rw [hvm] at hx
    exact ⟨message, rfl, .pageTable hx, h.deletions⟩

theorem wp_clone (hst : Stable ∅ k loc) (hg : k.Grouped) (he : k.Entered) (flags : BitVec 64)
    (child : Option Ptr) (hchild : ∀ q, child = some q → k.tasks q = none) :
    wp (clone P c flags child : KernelM (Except ErrorCode Pid))
      (fun r k' => ∃ loc', CloneEffect P c (completeFlags flags) child k loc r k' loc')
      (fun e k' => ∃ message parent t, e = .assertFailed message ∧ k.running c = some parent ∧
        k.tasks parent = some t ∧ CloneStops P (completeFlags flags) t k message ∧
        k'.deletions = k.deletions) k := by
  simp only [clone, run_kernelM, klog_kernelM, ite_self, wp_bind, wp_get, wp_pure]
  cases hrun : k.running c with
  | none =>
    simp only [wp_bind, wp_pure]
    exact ⟨loc, .noTask hrun⟩
  | some parent =>
    simp only [wp_bind, wp_get, wp_modify, wp_pure, wp_ite]
    split
    · rename_i hpid
      exact ⟨loc, .noPid hpid⟩
    · rename_i hpid
      cases child with
      | none =>
        simp only [wp_bind, wp_pure]
        exact ⟨loc, .noBlock rfl⟩
      | some child =>
        have hfree : k.tasks child = none := hchild child rfl
        obtain ⟨t, ht, -⟩ := hst.runs c parent hrun
        have hne : parent ≠ child := by
          rintro rfl
          rw [hfree] at ht
          cases ht
        set flags' := completeFlags flags
        set k₁ : Kernel := { k with pidAllocator := k.pidAllocator + 1 } with hk₁
        set u := childBlock flags' k.pidAllocator t with hu
        have hpending : Pending child u none k (k₁.setTask child u) := Pending.start hg hfree rfl rfl
        have hkeep : ∀ q, q ≠ child → (k₁.setTask child u).tasks q = k.tasks q :=
          fun q hq => k₁.tasks_setTask_ne child u hq
        have ht₁ : k₁.tasks parent = some t := ht
        have finish : ∀ k₃, Pending child (k.childOf flags' t) (k.joinTarget flags' parent t) k k₃ → k₃.vm = k.vm →
            wp (cloneChild P c flags' k.pidAllocator parent child : KernelM (Except ErrorCode Pid))
              (fun r k' => ∃ loc', CloneEffect P c flags' (some child) k loc r k' loc')
              (fun e k' => ∃ message parent' t, e = .assertFailed message ∧
                some parent = some parent' ∧ k.tasks parent' = some t ∧
                CloneStops P flags' t k message ∧ k'.deletions = k.deletions) k₃ := by
          intro k₃ h₃ hvm₃
          refine wp_mono (h₃.wp_cloneChild P hst hfree hrun ht hpid hvm₃) (fun _ _ h => h) ?_
          rintro e k' ⟨message, rfl, hstop, hdel⟩
          exact ⟨message, parent, t, rfl, rfl, ht, hstop, hdel⟩
        simp only [wp_bind, wp_readTask ht₁, wp_modify, wp_ite, wp_pure]
        split
        · rename_i hthread
          refine hpending.wp_joinParentGroup he hfree hne ((hkeep parent hne).trans ht)
            (k₁.tasks_setTask_self child u) rfl hthread hkeep ?_
          intro k₃ h₃ hvm₃
          refine finish k₃ ?_ hvm₃
          rw [Kernel.childOf, if_pos hthread]
          exact h₃
        · rename_i hthread
          refine finish _ ?_ rfl
          rw [Kernel.childOf, if_neg hthread, Kernel.joinTarget, if_neg hthread]
          exact hpending

end Clone

end NaiLongKernel.Task
