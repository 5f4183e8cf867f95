import NaiLongKernel.Task.Cores

/-!
# New tasks

`AddTask` gives a task its pid, enters it in the task table and puts it into the queue of
its core. Until then no core, queue or idle scheduler refers to the task: it is unused,
and so may change in any way or go away.
-/
namespace NaiLongKernel.Task

open Foundation

variable {k k' : Kernel} {loc loc' : Ptr → Option Slot} {p : Ptr} {t t' : TaskControlBlock}
  {c : CoreId} {B B' : Set CoreId} {E : Fault → Kernel → Prop}

/-- Nothing refers to `p` but the task table and thread groups. -/
structure Unused (k : Kernel) (loc : Ptr → Option Slot) (p : Ptr) : Prop where
  queues : loc p = none
  running : ∀ c, k.running c ≠ some p
  idle : ∀ c, k.idle c ≠ some p
  held : ∀ c, k.held c ≠ some p

theorem Stable.unused_of_none (h : Stable B k loc) (hp : k.tasks p = none) : Unused k loc p where
  queues := h.loc_of_none hp
  running c hr := by
    rcases h.runs c p hr with ⟨t, ht, -⟩
    rw [hp] at ht
    cases ht
  idle c hi := by
    rcases (h.thread c p hi).2 with ⟨t, ht, -⟩
    rw [hp] at ht
    cases ht
  held c hh := by
    rcases (h.inHand c p hh).1 with ⟨t, ht, -⟩
    rw [hp] at ht
    cases ht

theorem Stable.not_held (h : Stable B k loc) (ht : k.tasks p = some t) (hpol : t.policy ≠ .kIdle)
    (c : CoreId) : k.held c ≠ some p := by
  intro hh
  rcases (h.inHand c p hh).1 with ⟨u, hu, hidle, -⟩
  exact hpol (Option.mem_unique ht hu ▸ hidle)

theorem Kernel.views_of_eq (hscheds : k'.cpuSchedulers = k.cpuSchedulers) (hcpu : k'.perCpu = k.perCpu) :
    k'.idle = k.idle ∧ k'.running = k.running ∧ k'.held = k.held ∧ k'.slot = k.slot := by
  refine ⟨funext fun c => ?_, funext fun c => ?_, funext fun c => ?_, funext fun s => ?_⟩
  · rw [Kernel.idle, Kernel.idle, hcpu]
  · rw [Kernel.running, Kernel.running, hcpu]
  · rw [Kernel.held, Kernel.held, hscheds]
  · rw [Kernel.slot, Kernel.slot, hscheds]

theorem Stable.updateBlock (h : Stable B k loc) (hB : B ⊆ B') (hl : loc p = none)
    (hi : ∀ c, k.idle c ≠ some p) (hh : ∀ c, k.held c ≠ some p) (o : Option TaskControlBlock)
    (hr : ∀ c, k.running c = some p → c ∈ B' ∧ ∃ t, o = some t)
    (htasks : k'.tasks = Function.update k.tasks p o)
    (hscheds : k'.cpuSchedulers = k.cpuSchedulers) (hcpu : k'.perCpu = k.perCpu) :
    Stable B' k' loc := by
  have hne : ∀ q, q ≠ p → k'.tasks q = k.tasks q := by
    intro q hq
    rw [htasks, Function.update_of_ne hq]
  obtain ⟨hidle, hrunning, hheld, hslot⟩ := Kernel.views_of_eq hscheds hcpu
  have hloc : ∀ q s, loc q = some s → q ≠ p := by
    rintro q s hq rfl
    rw [hl] at hq
    cases hq
  refine ⟨⟨⟨?_, ?_, ?_, ?_⟩, ?_, ?_⟩, ?_, ?_, ?_, ?_⟩
  · rw [hslot]
    exact h.located
  · intro q s hq
    rw [hne q (hloc q s hq)]
    exact h.agrees q s hq
  · intro c
    rw [hscheds]
    refine (h.heap c).congr ?_
    have hkey : ∀ a ∈ (k.cpuSchedulers c).sleepingTasks, k'.wakeTick a = k.wakeTick a := by
      intro a ha
      have hs : loc a = some (.sleeping c) := (h.located.mem_iff (.sleeping c) a).mp ha
      exact Kernel.wakeTick_of_tasks (hne a (hloc a _ hs))
    intro a ha b hb
    rw [Kernel.wakesLater, Kernel.wakesLater, hkey a ha, hkey b hb]
  · rw [hscheds]
    exact h.kinds
  · intro c q hq
    rw [hidle] at hq
    rw [hne q (fun he => hi c (he ▸ hq))]
    exact h.thread c q hq
  · intro c q hq
    rw [hheld] at hq
    rw [hne q (fun he => hh c (he ▸ hq)), hidle]
    exact h.inHand c q hq
  · rw [hidle]
    exact h.idle_inj
  · intro c q hq
    rw [hrunning] at hq
    by_cases hqp : q = p
    · subst hqp
      rcases hr c hq with ⟨hc, t, rfl⟩
      exact ⟨t, by rw [htasks, Function.update_self], fun hnc => absurd hc hnc⟩
    · rcases h.runs c q hq with ⟨t, ht, hst⟩
      rw [hne q hqp, hidle]
      exact ⟨t, ht, fun hc => hst (fun hb => hc (hB hb))⟩
  · rw [hrunning]
    exact h.runs_inj
  · rw [hrunning, hidle]
    exact h.runs_home

theorem Stable.updateUnused (h : Stable B k loc) (hu : Unused k loc p)
    (o : Option TaskControlBlock) (htasks : k'.tasks = Function.update k.tasks p o)
    (hscheds : k'.cpuSchedulers = k.cpuSchedulers) (hcpu : k'.perCpu = k.perCpu) :
    Stable B k' loc :=
  h.updateBlock subset_rfl hu.queues hu.idle hu.held o (fun c hc => absurd hc (hu.running c)) htasks
    hscheds hcpu

theorem Unused.congr (hu : Unused k loc p) (hscheds : k'.cpuSchedulers = k.cpuSchedulers)
    (hcpu : k'.perCpu = k.perCpu) : Unused k' loc p := by
  refine ⟨hu.queues, ?_, ?_, ?_⟩
  · intro c
    rw [Kernel.running, hcpu]
    exact hu.running c
  · intro c
    rw [Kernel.idle, hcpu]
    exact hu.idle c
  · intro c
    rw [Kernel.held, hscheds]
    exact hu.held c

/-- The pid that `AddTask` gives to the task. -/
def Kernel.pidFor (k : Kernel) (t : TaskControlBlock) : Pid :=
  if t.pid = 0 then k.pidAllocator else t.pid

/-- The pid that comes next. -/
def Kernel.pidAfter (k : Kernel) (t : TaskControlBlock) : Pid :=
  if t.pid = 0 then k.pidAllocator + 1 else k.pidAllocator

def Kernel.identified (k : Kernel) (t : TaskControlBlock) : TaskControlBlock :=
  { t with
    pid := k.pidFor t
    tgid := if t.tgid = 0 then k.pidFor t else t.tgid }

theorem Kernel.setTask_self (ht : k.tasks p = some t) : k.setTask p t = k := by
  rw [Kernel.setTask, ← ht, Function.update_eq_self]

theorem wp_assignPid (ht : k.tasks p = some t) {Q : Pid → Kernel → Prop}
    (hQ : Q (k.pidFor t) { k.setTask p (k.identified t) with pidAllocator := k.pidAfter t }) :
    wp (assignPid p) Q E k := by
  -- the second half of the program, once the task has its pid
  have group : ∀ k₁ : Kernel,
      k₁ = { k.setTask p { t with pid := k.pidFor t } with pidAllocator := k.pidAfter t } →
      wp (readTask p) (fun u k₂ => wp (readTask p) (fun v k₃ =>
        if v.tgid = 0 then wp (updateTask p fun t => { t with tgid := u.pid })
          (fun _ k₄ => Q u.pid k₄) E k₃ else Q u.pid k₃) E k₂) E k₁ := by
    rintro k₁ rfl
    have hread : ({ k.setTask p { t with pid := k.pidFor t } with pidAllocator := k.pidAfter t } :
        Kernel).tasks p = some { t with pid := k.pidFor t } := k.tasks_setTask_self p _
    rw [wp_readTask hread, wp_readTask hread, wp_updateTask hread]
    rw [Kernel.identified] at hQ
    split
    · rename_i htgid
      rw [if_pos htgid] at hQ
      simpa [Kernel.setTask] using hQ
    · rename_i htgid
      rwa [if_neg htgid] at hQ
  simp only [assignPid, wp_bind, wp_readTask ht, wp_ite, wp_get, wp_modify, wp_pure]
  split
  · rename_i hpid
    have ht' : ({ k with pidAllocator := k.pidAllocator + 1 } : Kernel).tasks p = some t := ht
    rw [wp_updateTask ht']
    exact group _ (by rw [Kernel.pidFor, Kernel.pidAfter, if_pos hpid, if_pos hpid]; rfl)
  · rename_i hpid
    have hsame : ({ t with pid := k.pidFor t } : TaskControlBlock) = t := by
      rw [Kernel.pidFor, if_neg hpid]
    have hgroup := group k (by
      rw [hsame, Kernel.setTask_self ht, Kernel.pidAfter, if_neg hpid])
    rwa [wp_readTask ht, wp_readTask ht] at hgroup

/-- `AddTask` has entered the task `p`, whose block was `t`, into the queues of `target`. -/
structure Added (B : Set CoreId) (target : CoreId) (p : Ptr) (t : TaskControlBlock) (k : Kernel)
    (loc : Ptr → Option Slot) (k' : Kernel) (loc' : Ptr → Option Slot) : Prop where
  stable : Stable B k' loc'
  tasks_ne : ∀ q, q ≠ p → k'.tasks q = k.tasks q
  task : ∃ t', k'.tasks p = some t' ∧ t'.status = .kReady ∧
    SameTask ((k.identified t).setStatus .kReady) t'
  running : k'.running = k.running
  idle : k'.idle = k.idle
  scheds : ∀ c policy, ((k'.cpuSchedulers c).schedulers policy).isSome =
    ((k.cpuSchedulers c).schedulers policy).isSome
  held : t.policy ≠ .kIdle → k'.held = k.held
  taken : ∀ c q, k'.held c = some q → k.held c = some q ∨ q = p ∧ c = target
  loc_ne : ∀ q, q ≠ p → loc' q = loc q
  loc_self : loc' p = k.home target t.policy
  taskTable : k'.taskTable = tableSet (k.pidFor t) p k.taskTable
  pidAllocator : k'.pidAllocator = k.pidAfter t
  vm : k'.vm = k.vm
  deletions : k'.deletions = k.deletions

variable (P : Platform)

theorem wp_enqueue_added (h : Stable B k loc) (hu : Unused k loc p) (target : CoreId) :
    wp (enqueueTask target t.policy p) (fun _ k' => ∃ loc', Added B target p t k loc k' loc') E
      { k.setTask p ((k.identified t).setStatus .kReady) with
        pidAllocator := k.pidAfter t, taskTable := tableSet (k.pidFor t) p k.taskTable } := by
  set u := (k.identified t).setStatus .kReady with hu'
  set k₁ : Kernel := { k.setTask p u with
    pidAllocator := k.pidAfter t, taskTable := tableSet (k.pidFor t) p k.taskTable } with hk₁
  have h₁ : Stable B k₁ loc := h.updateUnused hu (some u) rfl rfl rfl
  have hu₁ : Unused k₁ loc p := hu.congr rfl rfl
  have ht₁ : k₁.tasks p = some u := Function.update_self _ _ _
  refine (wp_enqueueTask h₁.toSound ht₁ rfl hu.queues
    (fun c' hc' => absurd hc' (hu₁.idle c'))).imp ?_
  rintro _ k' ⟨loc', he⟩
  rcases he.ready with ⟨t', ht', hr'⟩
  rcases he.only.same p u ht₁ with ⟨t'', ht'', hsame⟩
  obtain rfl := Option.mem_unique ht' ht''
  refine ⟨loc', h₁.enqueued hu₁.running he, ?_, ⟨t', ht', hr', hsame⟩, he.running, he.only.idle, ?_, ?_, ?_,
    he.loc_ne, he.loc_self, he.only.taskTable, he.only.pidAllocator, he.only.vm, he.only.deletions⟩
  · intro q hq
    rw [he.only.tasks q hq]
    exact Function.update_of_ne hq _ _
  · intro c' policy
    by_cases hc : c' = target
    · rw [hc, he.waiting.2.2.2 policy]
      rfl
    · rw [he.only.scheds c' hc]
      rfl
  · intro hpol
    funext c'
    by_cases hc : c' = target
    · rw [hc, he.held hpol]
      rfl
    · rw [Kernel.held, he.only.scheds c' hc]
      rfl
  · intro c' q hq
    by_cases hc : c' = target
    · subst hc
      exact (he.held_back hq).imp_right (fun hq => ⟨hq.1, rfl⟩)
    · rw [Kernel.held, he.only.scheds c' hc] at hq
      exact Or.inl hq

theorem wp_addTask_enqueue (ht : k.tasks p = some t) {Q : Unit → Kernel → Prop}
    (hE : P.checkStatus = true → t.status ≠ .kUnInit →
      E (.assertFailed "AddTask: task status must be kUnInit") k)
    (hQ : wp (enqueueTask (targetCore P c t.cpuAffinity) t.policy p) Q E
      { k.setTask p ((k.identified t).setStatus .kReady) with
        pidAllocator := k.pidAfter t, taskTable := tableSet (k.pidFor t) p k.taskTable }) :
    wp (addTask P c p) Q E k := by
  have hset : ∀ (u u' : TaskControlBlock) (next : Pid) (table : List (Pid × Ptr)),
      ({ k.setTask p u with pidAllocator := next, taskTable := table } : Kernel).setTask p u' =
        { k.setTask p u' with pidAllocator := next, taskTable := table } := by
    intro u u' next table
    simp [Kernel.setTask]
  have hread : ∀ (u : TaskControlBlock) (next : Pid) (table : List (Pid × Ptr)),
      ({ k.setTask p u with pidAllocator := next, taskTable := table } : Kernel).tasks p = some u :=
    fun u _ _ => k.tasks_setTask_self p u
  have hbody : wp (assignPid p) (fun pid k₁ => wp (updateTask p (·.setStatus .kReady))
      (fun _ k₂ => wp (readTask p) (fun v k₃ =>
        wp (enqueueTask (targetCore P c v.cpuAffinity) v.policy p) Q E k₃) E k₂) E
      { k₁ with taskTable := tableSet pid p k₁.taskTable }) E k := by
    refine wp_assignPid ht ?_
    rw [wp_updateTask (hread _ _ _), hset, wp_readTask (hread _ _ _)]
    exact hQ
  simp only [addTask, lock_kernelM, unlock_kernelM, lockGuard_kernelM, run_kernelM, wp_bind,
    wp_ite, wp_pure, wp_readTask ht, wp_assertMsg, wp_modify]
  split
  · rename_i hcheck
    split
    · exact hbody
    · rename_i hst
      exact hE hcheck (by simpa using hst)
  · exact hbody

theorem wp_addTask (h : Stable B k loc) (hu : Unused k loc p) (ht : k.tasks p = some t)
    {Q : Unit → Kernel → Prop}
    (hE : P.checkStatus = true → t.status ≠ .kUnInit →
      E (.assertFailed "AddTask: task status must be kUnInit") k)
    (hQ : ∀ k' loc', Added B (targetCore P c t.cpuAffinity) p t k loc k' loc' → Q () k') :
    wp (addTask P c p) Q E k := by
  apply wp_addTask_enqueue P ht hE
  refine (wp_enqueue_added h hu (targetCore P c t.cpuAffinity)).imp ?_
  rintro _ k' ⟨loc', ha⟩
  exact hQ k' loc' ha

theorem wp_addTask_refused (ht : k.tasks p = some t) (hcheck : P.checkStatus = true)
    (hst : t.status ≠ .kUnInit) {Q : Unit → Kernel → Prop}
    (hE : E (.assertFailed "AddTask: task status must be kUnInit") k) :
    wp (addTask P c p) Q E k := by
  have hne : (t.status == .kUnInit) = false := beq_eq_false_iff_ne.mpr hst
  simp only [addTask, run_kernelM, wp_bind, hcheck, if_true, wp_readTask ht, wp_assertMsg, hne,
    Bool.false_eq_true, if_false]
  exact hE

/-- `InitCurrentCore` has not run on the core. -/
structure Kernel.Uninitialised (k : Kernel) (c : CoreId) : Prop where
  running : k.running c = none
  idle : k.idle c = none
  schedulers : ∀ policy, (k.cpuSchedulers c).schedulers policy = none

/-- `InitCurrentCore` has made `p` the idle thread of the core. -/
structure Initialised (B : Set CoreId) (c : CoreId) (p : Ptr) (k : Kernel)
    (loc : Ptr → Option Slot) (k' : Kernel) : Prop where
  stable : Stable B k' loc
  tasks_ne : ∀ q, q ≠ p → k'.tasks q = k.tasks q
  task : ∃ t, k'.tasks p = some t ∧ t.status = .kReady ∧ SameTask idleTaskBlock t
  running : k'.running c = some p
  running_ne : ∀ c', c' ≠ c → k'.running c' = k.running c'
  idle : k'.idle c = some p
  idle_ne : ∀ c', c' ≠ c → k'.idle c' = k.idle c'
  held : k'.held c = some p
  scheds : ∀ policy, ((k'.cpuSchedulers c).schedulers policy).isSome = true
  scheds_ne : ∀ c', c' ≠ c → k'.cpuSchedulers c' = k.cpuSchedulers c'
  taskTable : k'.taskTable = k.taskTable
  pidAllocator : k'.pidAllocator = k.pidAllocator
  vm : k'.vm = k.vm
  deletions : k'.deletions = k.deletions

theorem Stable.adopt (h : Stable B k loc) (hl : loc p = none) (ht : k.tasks p = some t)
    (hpol : t.policy = .kIdle) (hdead : isDead t = false) (hrun : ∀ c', k.running c' ≠ some p)
    (hidle : ∀ c', k.idle c' ≠ some p) (hheld : ∀ c', k.held c' = some p → c' = c) :
    Stable B (k.setCpu c { runningTask := some p, idleTask := some p }) loc := by
  have hi : ∀ c' q, (k.setCpu c { runningTask := some p, idleTask := some p }).idle c' = some q →
      c' = c ∧ q = p ∨ c' ≠ c ∧ k.idle c' = some q ∧ q ≠ p := by
    intro c' q hq
    by_cases hc : c' = c
    · rw [hc, Kernel.idle_setCpu_self] at hq
      exact Or.inl ⟨hc, (Option.some.inj hq).symm⟩
    · rw [Kernel.idle_setCpu_ne _ _ _ hc] at hq
      exact Or.inr ⟨hc, hq, fun he => hidle c' (he ▸ hq)⟩
  have hr : ∀ c' q, (k.setCpu c { runningTask := some p, idleTask := some p }).running c' = some q →
      c' = c ∧ q = p ∨ c' ≠ c ∧ k.running c' = some q ∧ q ≠ p := by
    intro c' q hq
    by_cases hc : c' = c
    · rw [hc, Kernel.running_setCpu_self] at hq
      exact Or.inl ⟨hc, (Option.some.inj hq).symm⟩
    · rw [Kernel.running_setCpu_ne _ _ _ hc] at hq
      exact Or.inr ⟨hc, hq, fun he => hrun c' (he ▸ hq)⟩
  refine ⟨⟨⟨h.located, h.agrees, h.heap, h.kinds⟩, ?_, ?_⟩, ?_, ?_, ?_, ?_⟩
  · intro c' q hq
    rcases hi c' q hq with ⟨-, rfl⟩ | ⟨-, hq', -⟩
    · exact ⟨hl, t, ht, hpol, hdead⟩
    · exact h.thread c' q hq'
  · intro c' q hq
    refine ⟨(h.inHand c' q hq).1, ?_⟩
    intro c'' hq'
    rcases hi c'' q hq' with ⟨rfl, rfl⟩ | ⟨-, hq'', -⟩
    · exact (hheld c' hq).symm
    · exact (h.inHand c' q hq).2 c'' hq''
  · intro c₁ c₂ q h₁ h₂
    rcases hi c₁ q h₁ with ⟨rfl, rfl⟩ | ⟨-, h₁', hne⟩ <;>
      rcases hi c₂ q h₂ with ⟨rfl, he⟩ | ⟨-, h₂', hne'⟩
    · rfl
    · exact absurd rfl hne'
    · exact absurd he hne
    · exact h.idle_inj c₁ c₂ q h₁' h₂'
  · intro c' q hq
    rcases hr c' q hq with ⟨rfl, rfl⟩ | ⟨hc, hq', -⟩
    · exact ⟨t, ht, fun _ => Or.inr (Kernel.idle_setCpu_self _ _ _)⟩
    · rw [Kernel.idle_setCpu_ne _ _ _ hc]
      exact h.runs c' q hq'
  · intro c₁ c₂ q h₁ h₂
    rcases hr c₁ q h₁ with ⟨rfl, rfl⟩ | ⟨-, h₁', hne⟩ <;>
      rcases hr c₂ q h₂ with ⟨rfl, he⟩ | ⟨-, h₂', hne'⟩
    · rfl
    · exact absurd rfl hne'
    · exact absurd he hne
    · exact h.runs_inj c₁ c₂ q h₁' h₂'
  · intro c₁ c₂ q h₁ h₂
    rcases hr c₁ q h₁ with ⟨rfl, rfl⟩ | ⟨-, h₁', hne⟩ <;>
      rcases hi c₂ q h₂ with ⟨rfl, he⟩ | ⟨-, h₂', hne'⟩
    · rfl
    · exact absurd rfl hne'
    · exact absurd he hne
    · exact h.runs_home c₁ c₂ q h₁' h₂'

theorem wp_initBody (h : Stable B k loc) (hp : k.tasks p = none) (hc : k.Uninitialised c) :
    wp (initBody c p) (fun _ k' => Initialised B c p k loc k') E k := by
  have hu := h.unused_of_none hp
  set d : CpuSchedData := { k.cpuSchedulers c with schedulers := initSchedulers } with hd
  -- the new queues are empty, as the missing ones were
  have hheld : (k.setSched c d).held c = none := by
    rw [Kernel.held, Kernel.cpuSchedulers_setSched_self]
    rfl
  have h₁ : Sound (k.setSched c d) loc := by
    refine h.transfer (Only.setSched (X := ∅) d) (h.toPlaced.setSched ?_ ?_)
      (fun c' q hq => (h.thread c' q hq).1) ?_
    · intro s hs
      cases s with
      | ready c' policy =>
        rw [Slot.content, Slot.content, hc.schedulers policy]
        cases policy <;> rfl
      | sleeping | blocked => rfl
    · intro policy s hs
      cases policy <;> (cases hs; simp [Scheduler.isIdle])
    · intro q hq
      rw [hheld] at hq
      cases hq
  have hs₁ : Stable B (k.setSched c d) loc := by
    refine h.keep h₁ (Only.setSched (X := ∅) d) rfl (fun _ hc => hc) ?_
    intro c' q u u' _ _ hq hq' hr
    exact Option.mem_unique hq hq' ▸ hr
  have hu₁ : Unused (k.setSched c d) loc p := by
    refine ⟨hu.queues, hu.running, hu.idle, ?_⟩
    intro c'
    by_cases hcc : c' = c
    · rw [hcc, hheld]
      simp
    · rw [Kernel.held, k.cpuSchedulers_setSched_ne c d hcc]
      exact hu.held c'
  have hs₂ : Stable B ((k.setSched c d).setTask p idleTaskBlock) loc :=
    hs₁.updateUnused hu₁ _ rfl rfl rfl
  simp only [initBody, wp_bind, wp_get, hc.schedulers, Option.isNone_none, if_true, wp_modifySched,
    wp_modify]
  refine (wp_enqueueTask (t := idleTaskBlock) hs₂.toSound (Kernel.tasks_setTask_self _ p _)
    rfl hu.queues (fun c' hc' => absurd hc' (hu.idle c'))).imp ?_
  rintro _ k₃ ⟨loc', he⟩
  have hloc : loc' = loc := by
    funext q
    by_cases hq : q = p
    · rw [hq, he.loc_self, hu.queues]
      rfl
    · exact he.loc_ne q hq
  subst hloc
  rcases he.ready with ⟨t, ht, hready⟩
  rcases he.only.same p _ (Kernel.tasks_setTask_self _ p _) with ⟨t', ht', hsame⟩
  obtain rfl := Option.mem_unique ht ht'
  have hheld₃ : ∀ c', c' ≠ c → k₃.held c' = k.held c' := by
    intro c' hcc
    rw [Kernel.held, he.only.scheds c' hcc]
    exact congrArg (fun d : CpuSchedData => (d.schedulers .kIdle).bind Scheduler.held)
      (k.cpuSchedulers_setSched_ne c d hcc)
  have htaken : k₃.held c = some p := by
    refine he.taken rfl ?_
    change (((k.setSched c d).cpuSchedulers c).schedulers .kIdle).isSome = true
    rw [Kernel.cpuSchedulers_setSched_self]
    rfl
  refine ⟨?_, ?_, ⟨t, ht, hready, hsame⟩, ?_, ?_, ?_, ?_, htaken, ?_, ?_, he.only.taskTable,
    he.only.pidAllocator, he.only.vm, he.only.deletions⟩
  · refine (hs₂.enqueued hu.running he).adopt hu.queues ht hsame.policy (isDead_of_ready hready) ?_ ?_ ?_
    · rw [he.running]
      exact hu.running
    · rw [he.only.idle]
      exact hu.idle
    · intro c' hh
      by_contra hcc
      rw [hheld₃ c' hcc] at hh
      exact hu.held c' hh
  · intro q hq
    exact (he.only.tasks q hq).trans (Kernel.tasks_setTask_ne _ p _ hq)
  · exact Kernel.running_setCpu_self _ _ _
  · intro c' hcc
    rw [Kernel.running_setCpu_ne _ _ _ hcc, he.running]
    rfl
  · exact Kernel.idle_setCpu_self _ _ _
  · intro c' hcc
    rw [Kernel.idle_setCpu_ne _ _ _ hcc, he.only.idle]
    rfl
  · intro policy
    rw [Kernel.cpuSchedulers_setCpu, he.waiting.2.2.2 policy]
    change (((k.setSched c d).cpuSchedulers c).schedulers policy).isSome = true
    rw [Kernel.cpuSchedulers_setSched_self]
    cases policy <;> rfl
  · intro c' hcc
    rw [Kernel.cpuSchedulers_setCpu, he.only.scheds c' hcc]
    exact k.cpuSchedulers_setSched_ne c d hcc

end NaiLongKernel.Task
