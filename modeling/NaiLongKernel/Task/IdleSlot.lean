import NaiLongKernel.Task.Lifetime

/-!
# The search of `Schedule`

The inner loop of `Schedule` ends because each pick shortens a queue. The idle scheduler
does not: it returns the same task again, so that the loop does not end when this task is
not ready. `AddTask` puts any task of the idle policy there. Unless such a task calls
`Block` or `Exit`, what an idle scheduler holds is ready or running on its core.
-/
namespace NaiLongKernel.Task

open Foundation

variable {P : Platform} {k k' : Kernel} {loc loc' : Ptr → Option Slot} {p : Ptr}
  {t : TaskControlBlock} {c : CoreId}

/-- What the idle schedulers hold is ready, or is the running task of the core. -/
structure IdleSlots (k : Kernel) (loc : Ptr → Option Slot) : Prop where
  ready : ∀ c p, k.held c = some p → ∃ t, k.tasks p = some t ∧
    (t.status = .kReady ∨ t.status = .kRunning ∧ k.running c = some p)
  inj : ∀ c c' p, k.held c = some p → k.held c' = some p → c = c'
  own : ∀ c c' p, k.held c = some p → k.running c' = some p → c' = c
  home : ∀ c p s, k.running c = some p → loc p = some s → s.core = c

namespace IdleSlots

theorem loc_of_held (h : IdleSlots k loc) (hs : Sound k loc) (hp : k.held c = some p) :
    loc p = none := by
  obtain ⟨t, ht, hst⟩ := h.ready c p hp
  rcases hst with hready | ⟨hrun, -⟩
  · obtain ⟨⟨u, hu, hpol, -⟩, -⟩ := hs.inHand c p hp
    obtain rfl := Option.mem_unique ht hu
    exact hs.loc_of_ready_idle ht hready hpol
  · exact hs.loc_of_running ht hrun

theorem held_next {current next : Ptr} {c' : CoreId} (h : IdleSlots k loc) (hs : Sound k loc)
    (hrun : k.running c = some current) (hn : next = current ∨ k.Candidate loc c next)
    (hp : k.held c' = some next) : c' = c := by
  rcases hn with rfl | hidle | ⟨u, hu, hready, ⟨policy, hl⟩ | hheld⟩
  · exact (h.own c' c next hp hrun).symm
  · exact ((hs.inHand c' next hp).2 c hidle).symm
  · rw [h.loc_of_held hs hp] at hl
    cases hl
  · exact h.inj c' c next hp hheld

theorem scheduled {current next : Ptr} (h : IdleSlots k loc) (hst : Stable Set.univ k loc)
    (hrun : k.running c = some current) (ht : k.tasks current = some t)
    (hs : Scheduled c current t next k loc k' loc') : IdleSlots k' loc' := by
  have hheld : k'.held = k.held := by
    funext c'
    by_cases hc : c' = c
    · rw [hc, hs.held]
    · rw [Kernel.held, Kernel.held, hs.only.scheds c' hc]
  have hnext : ∀ c', k.held c' = some next → c' = c := fun c' =>
    h.held_next hst.toSound hrun hs.source
  refine ⟨?_, ?_, ?_, ?_⟩
  · intro c' q hq
    rw [hheld] at hq
    by_cases hn : q = next
    · subst hn
      obtain rfl := hnext c' hq
      obtain ⟨u, hu, hr⟩ := hs.next_running
      exact ⟨u, hu, Or.inr ⟨hr, hs.running⟩⟩
    · obtain ⟨u, hu, hor⟩ := h.ready c' q hq
      by_cases hc : q = current
      · subst hc
        obtain rfl := Option.mem_unique ht hu
        obtain ⟨v, hv, hst'⟩ := hs.left (Ne.symm hn)
        refine ⟨v, hv, Or.inl ?_⟩
        rw [hst']
        rcases hor with hr | ⟨hr, -⟩ <;> simp [hr]
      · have hsame : k'.tasks q = k.tasks q := by
          apply hs.only.tasks
          rintro (rfl | rfl)
          · exact hc rfl
          · exact hn rfl
        refine ⟨u, hsame.trans hu, ?_⟩
        rcases hor with hr | ⟨hr, hrun'⟩
        · exact Or.inl hr
        · refine Or.inr ⟨hr, ?_⟩
          rw [hs.only.running c', hrun']
          rintro rfl
          exact hc (Option.mem_unique hrun' hrun)
  · rw [hheld]
    exact h.inj
  · intro c₁ c₂ q h₁ h₂
    rw [hheld] at h₁
    by_cases hc : c₂ = c
    · subst hc
      rw [hs.running] at h₂
      cases h₂
      exact (hnext c₁ h₁).symm
    · rw [hs.only.running c₂ hc] at h₂
      exact h.own c₁ c₂ q h₁ h₂
  · intro c' q s hq hl
    by_cases hn : q = next
    · rw [hn, hs.loc_next] at hl
      cases hl
    · have hc' : c' ≠ c := by
        rintro rfl
        rw [hs.running] at hq
        exact hn (Option.some.inj hq).symm
      rw [hs.only.running c' hc'] at hq
      have hcur : q ≠ current := by
        rintro rfl
        exact hc' (hst.runs_inj c' c q hq hrun)
      rw [hs.loc_ne q hn hcur] at hl
      exact h.home c' q s hq hl

theorem awakened {s : Slot} (h : IdleSlots k loc) (hs : Sound k loc)
    (ha : Awakened s k loc k' loc') : IdleSlots k' loc' := by
  have held_cases : ∀ c q, k'.held c = some q →
      k.held c = some q ∨ c = s.core ∧ loc q = some s ∧ loc' q ≠ some s := by
    intro c q hq
    by_cases hc : c = s.core
    · subst hc
      exact (ha.taken q hq).imp_right (fun hl => ⟨rfl, hl⟩)
    · rw [Kernel.held, ha.only.scheds c hc] at hq
      exact Or.inl hq
  refine ⟨?_, ?_, ?_, ?_⟩
  · intro c q hq
    rw [ha.running]
    rcases held_cases c q hq with hold | ⟨-, hl, hne⟩
    · obtain ⟨u, hu, hor⟩ := h.ready c q hold
      refine ⟨u, ?_, hor⟩
      rw [ha.only.tasks q, hu]
      intro hl
      rw [Set.mem_ofPred_eq, h.loc_of_held hs hold] at hl
      cases hl
    · obtain ⟨u, hu, hr⟩ := ha.woken q hl hne
      exact ⟨u, hu, Or.inl hr⟩
  · intro c₁ c₂ q h₁ h₂
    rcases held_cases c₁ q h₁ with h₁ | ⟨rfl, hl₁, -⟩ <;>
      rcases held_cases c₂ q h₂ with h₂ | ⟨rfl, hl₂, -⟩
    · exact h.inj c₁ c₂ q h₁ h₂
    · rw [h.loc_of_held hs h₁] at hl₂
      cases hl₂
    · rw [h.loc_of_held hs h₂] at hl₁
      cases hl₁
    · rfl
  · intro c₁ c₂ q h₁ h₂
    rw [ha.running] at h₂
    rcases held_cases c₁ q h₁ with h₁ | ⟨rfl, hl, -⟩
    · exact h.own c₁ c₂ q h₁ h₂
    · exact (h.home c₂ q s h₂ hl).symm
  · intro c q s' hq hl
    rw [ha.running] at hq
    rcases ha.moved q with he | ⟨hl₀, v, -, he⟩
    · exact h.home c q s' hq (he ▸ hl)
    · rw [he] at hl
      cases Kernel.ready_of_home hl
      exact h.home c q s hq hl₀

theorem charged (h : IdleSlots k loc) (hch : Charged c loc k k') : IdleSlots k' loc := by
  have hheld : k'.held = k.held := by
    funext c'
    rw [Kernel.held, Kernel.held, hch.scheds]
  refine ⟨?_, by rw [hheld]; exact h.inj, by rw [hheld, hch.running]; exact h.own,
    by rw [hch.running]; exact h.home⟩
  intro c' q hq
  rw [hheld] at hq
  obtain ⟨u, hu, hor⟩ := h.ready c' q hq
  obtain ⟨v, hv, he⟩ := hch.status q u hu
  rw [hch.running]
  exact ⟨v, hv, by rwa [he]⟩

theorem suspended {s : Slot} (h : IdleSlots k loc) (hst : Stable Set.univ k loc)
    (hrun : k.running s.core = some p) (hs : Suspended p s k loc k' loc')
    (hheld : k'.held s.core ≠ some p) : IdleSlots k' loc' := by
  have held_back : ∀ c q, k'.held c = some q → k.held c = some q ∧ q ≠ p := by
    intro c q hq
    by_cases hc : c = s.core
    · subst hc
      have hqp : q ≠ p := by
        rintro rfl
        exact hheld hq
      rcases hs.held with he | ⟨-, he⟩
      · exact ⟨he ▸ hq, hqp⟩
      · rw [he] at hq
        cases hq
    · rw [Kernel.held, hs.only.scheds c hc] at hq
      refine ⟨hq, ?_⟩
      rintro rfl
      exact hc (h.own c s.core q hq hrun).symm
  refine ⟨?_, ?_, ?_, ?_⟩
  · intro c q hq
    obtain ⟨hold, hqp⟩ := held_back c q hq
    rw [hs.only.tasks q hqp, hs.running]
    exact h.ready c q hold
  · intro c₁ c₂ q h₁ h₂
    exact h.inj c₁ c₂ q (held_back c₁ q h₁).1 (held_back c₂ q h₂).1
  · intro c₁ c₂ q h₁ h₂
    rw [hs.running] at h₂
    exact h.own c₁ c₂ q (held_back c₁ q h₁).1 h₂
  · intro c q s' hq hl
    rw [hs.running] at hq
    by_cases hqp : q = p
    · subst hqp
      rw [hs.loc_self] at hl
      cases hl
      exact hst.runs_inj s.core c q hrun hq
    · rw [hs.loc_ne q hqp] at hl
      exact h.home c q s' hq hl

theorem initialised {i : Ptr} {B : Set CoreId} (h : IdleSlots k loc) (hst : Stable B k loc)
    (hi : k.tasks i = none) (hinit : Initialised B c i k loc k') : IdleSlots k' loc := by
  have hu := hst.unused_of_none hi
  have held_ne : ∀ c', c' ≠ c → k'.held c' = k.held c' := by
    intro c' hc
    rw [Kernel.held, Kernel.held, hinit.scheds_ne c' hc]
  refine ⟨?_, ?_, ?_, ?_⟩
  · intro c' q hq
    by_cases hc : c' = c
    · subst hc
      rw [hinit.held] at hq
      cases hq
      obtain ⟨t, ht, hr, -⟩ := hinit.task
      exact ⟨t, ht, Or.inl hr⟩
    · rw [held_ne c' hc] at hq
      have hqi : q ≠ i := by
        rintro rfl
        exact hu.held c' hq
      rw [hinit.tasks_ne q hqi, hinit.running_ne c' hc]
      exact h.ready c' q hq
  · intro c₁ c₂ q h₁ h₂
    by_cases hc₁ : c₁ = c <;> by_cases hc₂ : c₂ = c
    · rw [hc₁, hc₂]
    · rw [hc₁, hinit.held] at h₁
      rw [held_ne c₂ hc₂, ← h₁] at h₂
      exact absurd h₂ (hu.held c₂)
    · rw [hc₂, hinit.held] at h₂
      rw [held_ne c₁ hc₁, ← h₂] at h₁
      exact absurd h₁ (hu.held c₁)
    · rw [held_ne c₁ hc₁] at h₁
      rw [held_ne c₂ hc₂] at h₂
      exact h.inj c₁ c₂ q h₁ h₂
  · intro c₁ c₂ q h₁ h₂
    by_cases hc₁ : c₁ = c <;> by_cases hc₂ : c₂ = c
    · rw [hc₁, hc₂]
    · rw [hc₁, hinit.held] at h₁
      rw [hinit.running_ne c₂ hc₂, ← h₁] at h₂
      exact absurd h₂ (hu.running c₂)
    · rw [hc₂, hinit.running] at h₂
      rw [held_ne c₁ hc₁, ← h₂] at h₁
      exact absurd h₁ (hu.held c₁)
    · rw [held_ne c₁ hc₁] at h₁
      rw [hinit.running_ne c₂ hc₂] at h₂
      exact h.own c₁ c₂ q h₁ h₂
  · intro c' q s hq hl
    by_cases hc : c' = c
    · rw [hc, hinit.running] at hq
      cases hq
      rw [hu.queues] at hl
      cases hl
    · rw [hinit.running_ne c' hc] at hq
      exact h.home c' q s hq hl

theorem added {target : CoreId} {B : Set CoreId} (h : IdleSlots k loc) (hst : Stable B k loc)
    (hp : k.tasks p = none) (ha : Added B target p t (k.setTask p t) loc k' loc') :
    IdleSlots k' loc' := by
  have hu := hst.unused_of_none hp
  have held_cases : ∀ c q, k'.held c = some q → k.held c = some q ∧ q ≠ p ∨ q = p ∧ c = target := by
    intro c q hq
    rcases ha.taken c q hq with hold | hnew
    · refine Or.inl ⟨hold, ?_⟩
      rintro rfl
      exact hu.held c hold
    · exact Or.inr hnew
  refine ⟨?_, ?_, ?_, ?_⟩
  · intro c q hq
    rcases held_cases c q hq with ⟨hold, hqp⟩ | ⟨rfl, -⟩
    · rw [ha.tasks_ne q hqp, k.tasks_setTask_ne p t hqp, ha.running]
      exact h.ready c q hold
    · obtain ⟨u, hu, hr, -⟩ := ha.task
      exact ⟨u, hu, Or.inl hr⟩
  · intro c₁ c₂ q h₁ h₂
    rcases held_cases c₁ q h₁ with ⟨hold₁, hqp⟩ | ⟨rfl, rfl⟩
    · exact h.inj c₁ c₂ q hold₁ ((held_cases c₂ q h₂).resolve_right (fun he => hqp he.1)).1
    · exact ((held_cases c₂ q h₂).resolve_left (fun he => he.2 rfl)).2.symm
  · intro c₁ c₂ q h₁ h₂
    rw [ha.running] at h₂
    rcases held_cases c₁ q h₁ with ⟨hold₁, -⟩ | ⟨rfl, -⟩
    · exact h.own c₁ c₂ q hold₁ h₂
    · exact absurd h₂ (hu.running c₂)
  · intro c q s hq hl
    rw [ha.running] at hq
    have hqp : q ≠ p := by
      rintro rfl
      exact hu.running c hq
    rw [ha.loc_ne q hqp] at hl
    exact h.home c q s hq hl

theorem departed (h : IdleSlots k loc) (hp : ∀ c, k.held c ≠ some p) (hd : Departed p t k k') :
    IdleSlots k' loc := by
  have hheld : k'.held = k.held := by
    funext c
    rw [Kernel.held, Kernel.held, hd.rest]
  have hrunning : k'.running = k.running := by
    funext c
    rw [Kernel.running, Kernel.running, hd.rest]
  refine ⟨?_, by rw [hheld]; exact h.inj, by rw [hheld, hrunning]; exact h.own,
    by rw [hrunning]; exact h.home⟩
  intro c q hq
  rw [hheld] at hq
  obtain ⟨u, hu, hor⟩ := h.ready c q hq
  obtain ⟨u', hu', he⟩ := hd.same q u hu
  have hqp : q ≠ p := by
    rintro rfl
    exact hp c hq
  have hst : u'.status = u.status := by
    rw [he]
    exact if_neg hqp
  rw [hrunning]
  exact ⟨u', hu', by rwa [hst]⟩

end IdleSlots

/-- The invariant with which a core schedules. -/
structure Searchable (c : CoreId) (k : Kernel) (loc : Ptr → Option Slot) : Prop where
  stable : Stable Set.univ k loc
  slots : IdleSlots k loc
  thread : ∃ i, k.idle c = some i

/-- The search of `Schedule` does not end, or ends without a task that is ready. -/
def Fault.Searching : Fault → Prop
  | diverges => True
  | parked => True
  | assertFailed message => message = "Schedule: need idle while current is not runnable" ∨
      message = "Schedule: next task must be kReady"
  | _ => False

theorem Fault.not_searching_wakeup :
    ¬(assertFailed "Wakeup: scheduler must not be null").Searching := by
  simp [Searching]

theorem Fault.not_searching_addTask :
    ¬(assertFailed "AddTask: task status must be kUnInit").Searching := by
  simp [Searching]

theorem Searchable.suspended {s : Slot} (h : Searchable c k loc) (hc : s.core = c)
    (hrun : k.running c = some p) (hs : Suspended p s k loc k' loc')
    (hheld : k'.held c ≠ some p) : Searchable c k' loc' := by
  subst hc
  refine ⟨?_, h.slots.suspended h.stable hrun hs hheld, by rw [hs.only.idle]; exact h.thread⟩
  exact h.stable.keep hs.sound hs.only hs.running (fun _ hc => absurd (Set.mem_univ _) hc)
    (fun c' _ _ _ hc => absurd (Set.mem_univ c') hc)

theorem Searchable.closed (c : CoreId) :
    Closed c {s | s = .sleeping c} (Searchable c) (fun e _ => ¬e.Searching) where
  scheduled hst h hrun ht hs :=
    ⟨(hst.scheduled hrun hs).mono (Set.empty_subset _), h.slots.scheduled h.stable hrun ht hs,
      by rw [hs.only.idle]; exact h.thread⟩
  awakened _ hs h ha :=
    ⟨h.stable.awakened ha, h.slots.awakened hs ha, by rw [ha.only.idle]; exact h.thread⟩
  charged h hch := ⟨h.stable.charged hch, h.slots.charged hch, by rw [hch.only.idle]; exact h.thread⟩
  suspended hS hc h hrun _ hs := h.suspended hc hrun hs (hs.asleep c hS)
  parked h hnone _ := by
    obtain ⟨i, hi⟩ := h.thread
    rw [hi] at hnone
    cases hnone
  diverges h hrun ht hheld hne hu hnr _ := by
    obtain ⟨v, hv, hor⟩ := h.slots.ready _ _ hheld
    obtain rfl := Option.mem_unique hv hu
    rcases hor with hr | ⟨hr, hrun'⟩
    · exact absurd hr hnr
    · obtain rfl := Option.mem_unique hrun' hrun
      obtain rfl := Option.mem_unique hv ht
      exact absurd hr (hne rfl)
  noScheduler _ _ _ := Fault.not_searching_wakeup

/-- A core that runs a task has an idle thread. -/
def Kernel.Threaded (k : Kernel) : Prop := ∀ c p, k.running c = some p → ∃ i, k.idle c = some i

theorem IdleSlots.searchable (h : IdleSlots k loc) (hst : Stable ∅ k loc) (hth : k.Threaded)
    (hrun : k.running c = some p) : Searchable c k loc :=
  ⟨hst.mono (Set.empty_subset _), h, hth c p hrun⟩

namespace SysOp

/-- `InitCurrentCore`, `AddTask`, `Schedule`, `TickUpdate`, `Sleep`, `Block`, `Wakeup` and
`Exit`. -/
def Elementary : SysOp → Prop
  | initCurrentCore _ _ => True
  | addTask _ _ _ => True
  | schedule _ => True
  | tickUpdate _ => True
  | sleep _ _ => True
  | block _ _ => True
  | wakeup _ _ => True
  | exit _ _ => True
  | _ => False

/-- The idle scheduler of the core does not hold a task that calls `Block` or `Exit`. -/
def SparesHeld (k : Kernel) : SysOp → Prop
  | block c _ => ∀ p, k.running c = some p → k.held c ≠ some p
  | exit c _ => ∀ p, k.running c = some p → k.held c ≠ some p
  | _ => True

end SysOp

section Operations

variable (h : Stable ∅ k loc) (hi : IdleSlots k loc) (hth : k.Threaded)

include h hi hth

theorem wp_block_slots (hrun : k.running c = some p) (hidle : k.idle c ≠ some p)
    (hheld : k.held c ≠ some p) (r : ResourceId) :
    wp (block c r : KernelM Unit) (fun _ k' => ∃ loc', Stable ∅ k' loc' ∧ IdleSlots k' loc')
      (fun e _ => ¬e.Searching) k := by
  obtain ⟨t, ht, hst⟩ := h.running_of_ne_idle hrun hidle
  simp only [block, lockGuard_kernelM, run_kernelM, klog_kernelM, wp_bind, wp_pure]
  refine Closed.wp_runningTask h hrun hidle ?_
  refine (wp_blockBody h.toSound ht hst (h.ne_idle hrun hidle) r).imp ?_
  rintro _ k₁ ⟨loc₁, hs⟩
  have hheld₁ : k₁.held c ≠ some p := by
    rcases hs.held with he | ⟨he, -⟩
    · exact fun hp => hheld (he.symm.trans hp)
    · exact absurd he hheld
  have hsearch := (hi.searchable h hth hrun).suspended rfl hrun hs hheld₁
  have hrun' : k.running (Slot.blocked c r).core = some p := hrun
  refine ((Searchable.closed c).wp_schedule (h.suspended hrun' hs) hsearch
    (by rw [hs.running, hrun]) ?_).imp ?_
  · intro u hu hready
    obtain ⟨v, hv, hag⟩ := hs.sound.agrees p _ hs.loc_self
    obtain rfl := Option.mem_unique hu hv
    cases hready.symm.trans hag.1
  · rintro _ k' ⟨loc', h', hsearch'⟩
    exact ⟨loc', h', hsearch'.slots⟩

theorem wp_exit_slots (hl : Life k) (hrun : k.running c = some p) (hidle : k.idle c ≠ some p)
    (hheld : k.held c ≠ some p) (ht : k.tasks p = some t) (hpar : k.exitParent p t ≠ 0)
    (exitCode : BitVec 32) :
    wp (exit c exitCode : KernelM Unit)
      (fun _ k' => ∃ loc', Stable ∅ k' loc' ∧ IdleSlots k' loc') (fun e _ => ¬e.Searching) k := by
  have hheld' : ∀ c', k.held c' ≠ some p := by
    intro c' hp
    obtain rfl := hi.own c' c p hp hrun
    exact hheld hp
  rw [wp_exit_iff]
  refine wp_depart h hl.grouped hl.entries hrun hidle hheld' ht hpar exitCode ?_ ?_
  · exact fun _ _ _ _ => Fault.not_searching_wakeup
  · intro k₁ k₂ loc₂ hd h₁ h₂ ha _ hrun₂ hloc₂
    have hslots := (hi.departed hheld' hd).awakened h₁.toSound ha
    have hthread : ∃ i, k₂.idle c = some i := by
      rw [ha.only.idle, Kernel.idle, hd.rest]
      exact hth c p hrun
    refine ((Searchable.closed c).wp_schedule h₂
      ⟨h₂.mono (Set.subset_univ _), hslots, hthread⟩ hrun₂ (fun _ _ _ => hloc₂)).imp ?_
    rintro _ k' ⟨loc', h', hsearch⟩
    exact ⟨loc', h', hsearch.slots⟩

end Operations

theorem wp_reapTask_freed (hg : k.Grouped) (ht : k.tasks p = some t) (hdead : isDead t = true) :
    wp (reapTask p : KernelM Unit) (fun _ _ => False) (fun e _ => e = .useAfterFree p) k := by
  simp only [reapTask, destroyTask, lockGuard_kernelM, run_kernelM, klog_kernelM, wp_bind,
    wp_readTask ht, wp_ite, hdead, if_true, wp_modify, deleteTask, wp_get, ht, wp_pure]
  refine wp_leaveThreadGroup (k := { k with taskTable := tableErase t.pid k.taskTable }) hg ht ?_
  intro k₁ hr _ _
  obtain ⟨t₁, ht₁, -⟩ := hr.same p t ht
  rw [wp_readTask ht₁, wp_readTask_none (Function.update_self _ _ _)]

/-- Without a parent the control block is deleted and then read: `Exit` does not come to
its `Schedule`. -/
theorem wp_exit_parentless (h : Stable ∅ k loc) (hl : Life k) (hrun : k.running c = some p)
    (hidle : k.idle c ≠ some p) (ht : k.tasks p = some t) (hpar : k.exitParent p t = 0)
    (exitCode : BitVec 32) :
    wp (exit c exitCode : KernelM Unit) (fun _ _ => False) (fun e _ => e = .useAfterFree p) k := by
  rw [wp_exit_iff]
  refine wp_depart_family h hl.grouped hl.entries hrun hidle ht exitCode ?_
  intro k₂ t₂ hf _ _ ht₂ hpar₂
  simp only [settleExit, run_kernelM, wp_bind, wp_readTask ht₂, wp_ite, hpar₂, hpar, ne_eq,
    not_true_eq_false, if_false, wp_updateTask ht₂]
  refine wp_mono (wp_reapTask_freed (hf.grouped.setTask ht₂ rfl rfl)
    (k₂.tasks_setTask_self p (t₂.setStatus .kExited)) rfl) ?_ (fun _ _ he => he)
  exact fun _ _ hfalse => hfalse.elim

/-- Every such operation keeps the invariant, and it does not stop in the search of
`Schedule`. -/
theorem SysOp.wp_slots (op : SysOp) (h : Stable ∅ k loc) (hl : Life k) (hi : IdleSlots k loc)
    (hth : k.Threaded) (hen : op.Enabled k) (hop : op.Elementary) (hspare : op.SparesHeld k) :
    wp (op.exec P : KernelM Unit) (fun _ k' => ∃ loc', Stable ∅ k' loc' ∧ IdleSlots k' loc')
      (fun e _ => ¬e.Searching) k := by
  have hclosed := Searchable.closed op.core
  have done : ∀ k', (∃ loc', Stable ∅ k' loc' ∧ Searchable op.core k' loc') →
      ∃ loc', Stable ∅ k' loc' ∧ IdleSlots k' loc' := by
    rintro k' ⟨loc', h', hs⟩
    exact ⟨loc', h', hs.slots⟩
  cases op with
  | initCurrentCore c i =>
    rw [SysOp.exec, Task.initCurrentCore, lockGuard_kernelM, run_kernelM]
    refine (wp_initBody h hen.2 hen.1).imp ?_
    intro _ k' hinit
    exact ⟨loc, hinit.stable, hi.initialised h hen.2 hinit⟩
  | addTask c task t =>
    have hu := h.unused_of_none hen.1
    have h₀ : Stable ∅ (k.setTask task t) loc := h.updateUnused hu (some t) rfl rfl rfl
    simp only [SysOp.exec, run_kernelM, wp_bind, wp_modify]
    refine wp_addTask P h₀ (hu.congr rfl rfl) (k.tasks_setTask_self task t) ?_ ?_
    · exact fun _ _ => Fault.not_searching_addTask
    · intro k' loc' ha
      exact ⟨loc', ha.stable, hi.added h hen.1 ha⟩
  | schedule c =>
    obtain ⟨p, hrun⟩ := hen
    exact (hclosed.wp_schedule_stable h (hi.searchable h hth hrun) hrun).imp (fun _ => done)
  | tickUpdate c =>
    obtain ⟨p, hrun⟩ := hen
    exact (hclosed.wp_tickUpdate P h (hi.searchable h hth hrun) hrun).imp (fun _ => done)
  | sleep c ms =>
    obtain ⟨p, hrun, hidle⟩ := hen
    exact (hclosed.wp_sleep P h (hi.searchable h hth hrun) hrun hidle rfl ms).imp
      (fun _ => done)
  | block c r =>
    obtain ⟨p, hrun, hidle⟩ := hen
    exact wp_block_slots h hi hth hrun hidle (hspare p hrun) r
  | wakeup c r =>
    simp only [SysOp.exec, Task.wakeup, lockGuard_kernelM, run_kernelM, klog_kernelM, wp_bind,
      wp_pure]
    refine (wp_wakeupBody r h.toSound ?_).imp ?_
    · exact fun _ _ _ _ => Fault.not_searching_wakeup
    · rintro _ k' ⟨loc', ha, -⟩
      exact ⟨loc', h.awakened ha, hi.awakened h.toSound ha⟩
  | exit c exitCode =>
    obtain ⟨p, hrun, hidle⟩ := hen
    obtain ⟨t, ht, -⟩ := h.runs c p hrun
    by_cases hpar : k.exitParent p t = 0
    · refine wp_mono (wp_exit_parentless h hl hrun hidle ht hpar exitCode)
        (fun _ _ hfalse => hfalse.elim) ?_
      rintro e k' rfl
      exact id
    · exact wp_exit_slots h hi hth hl hrun hidle (hspare p hrun) ht hpar exitCode
  | _ => exact hop.elim

theorem SysOp.careful_of_exec {op : SysOp} (h : Stable ∅ k loc) (hl : Life k)
    (hi : IdleSlots k loc) (hen : op.Enabled k) (hspare : op.SparesHeld k)
    (hexec : (op.exec P : KernelM Unit) k = .ok () k') : op.Careful k := by
  cases op with
  | exit c exitCode =>
    obtain ⟨p, hrun, hidle⟩ := hen
    intro q t hq ht
    obtain rfl := Option.mem_unique hrun hq
    refine ⟨?_, ?_⟩
    · intro hpar
      exact (wp_exit_parentless h hl hrun hidle ht hpar exitCode).of_ok hexec
    · intro c' hheld
      obtain rfl := hi.own c' c p hheld hrun
      exact hspare p hrun hheld
  | _ => trivial

theorem Kernel.Threaded.effect {op : SysOp} (h : k.Threaded) (hop : op.Elementary)
    (he : op.Effect P k k') : k'.Threaded := by
  have keep : ∀ {k k' : Kernel}, k.Threaded → Persists k k' → k'.Threaded := by
    intro k k' h hp c p hrun
    have hsome := hp.running c
    rw [hrun] at hsome
    obtain ⟨q, hq⟩ := Option.isSome_iff_exists.mp hsome.symm
    rw [hp.idle]
    exact h c q hq
  cases op with
  | initCurrentCore c i =>
    obtain ⟨_, hinit⟩ := he
    intro c' p hrun
    by_cases hc : c' = c
    · rw [hc]
      exact ⟨i, hinit.idle⟩
    · rw [hinit.running_ne c' hc] at hrun
      rw [hinit.idle_ne c' hc]
      exact h c' p hrun
  | addTask c task t =>
    obtain ⟨_, _, ha⟩ := he
    intro c' p hrun
    rw [ha.running] at hrun
    rw [ha.idle]
    exact h c' p hrun
  | schedule | tickUpdate | sleep | block | wakeup => exact keep h he
  | exit c exitCode =>
    obtain ⟨p, t, k₁, -, -, hd, hp⟩ := he
    refine keep ?_ hp
    intro c' q hrun
    rw [Kernel.running, hd.rest] at hrun
    rw [Kernel.idle, hd.rest]
    exact h c' q hrun
  | _ => exact hop.elim

theorem SysRun.slots (h : SysRun P (fun k op => op.Elementary ∧ op.SparesHeld k) k) :
    ∃ loc, Stable ∅ k loc ∧ Life k ∧ IdleSlots k loc ∧ k.Threaded := by
  induction h with
  | start => exact ⟨_, Stable.empty, Life.empty, ⟨nofun, nofun, nofun, nofun⟩, nofun⟩
  | step op _ hen hA hexec ih =>
    obtain ⟨loc, hst, hl, hi, hth⟩ := ih
    have hcare := SysOp.careful_of_exec hst hl hi hen hA.2 hexec
    obtain ⟨-, hl', he⟩ := SysOp.effect_of_exec hst hl hen hcare hexec
    obtain ⟨loc', hst', hi'⟩ := (op.wp_slots hst hl hi hth hen hA.1 hA.2).of_ok hexec
    exact ⟨loc', hst', hl', hi', hth.effect hA.1 he⟩

/-- The search of `Schedule` on a core, with its fallbacks. -/
def searchNext (c : CoreId) (current : Ptr) : KernelM (Option Ptr) := do
  requeueCurrent c current
  chooseNext c current

theorem Searchable.wp_searchNext (hs : Searchable c k loc) (hrun : k.running c = some p)
    (ht : k.tasks p = some t) (hcur : t.status = .kReady → loc p = none) :
    wp (searchNext c p) (fun r k' => ∃ next u, r = some next ∧ k'.tasks next = some u ∧
      u.status = .kReady) (fun _ _ => False) k := by
  rw [searchNext, wp_bind]
  refine (wp_requeueCurrent hs.stable.toSound ht).imp ?_
  rintro _ k₁ ⟨loc₁, hr⟩
  obtain ⟨t₁, ht₁, hst₁⟩ := hr.status
  refine wp_chooseNext hr.sound ht₁ ?_ ?_ ?_ ?_
  · intro hready
    rw [hr.loc_self]
    split
    · rw [Kernel.home]
      split
      · exact Or.inr ⟨_, rfl⟩
      · exact Or.inl rfl
    · rename_i hnr
      rw [hst₁, if_neg hnr] at hready
      exact Or.inl (hcur hready)
  · intro next k₂ loc₂ hc
    obtain ⟨u, hu, hready⟩ := hc.ready
    exact ⟨next, u, rfl, hu, hready⟩
  · intro hnone
    obtain ⟨i, hi⟩ := hs.thread
    rw [hr.only.idle, hi] at hnone
    cases hnone
  · rintro ⟨q, u, hq, hu, hnr⟩
    rw [hr.held] at hq
    obtain ⟨v, hv, hor⟩ := hs.slots.ready c q hq
    by_cases hqp : q = p
    · subst hqp
      obtain rfl := Option.mem_unique ht hv
      obtain rfl := Option.mem_unique ht₁ hu
      rw [hst₁] at hnr
      rcases hor with hor | ⟨hor, -⟩ <;> simp [hor] at hnr
    · rw [hr.only.tasks q hqp, hv] at hu
      cases hu
      rcases hor with hor | ⟨-, hrun'⟩
      · exact absurd hor hnr
      · exact absurd (Option.mem_unique hrun' hrun) hqp

/-- In every run in which no task that an idle scheduler holds calls `Block` or `Exit`, the
search of `Schedule` ends on every core and gives a task that is ready, and no operation
stops in it. -/
theorem search_ends (h : SysRun P (fun k op => op.Elementary ∧ op.SparesHeld k) k) :
    (∀ c p, k.running c = some p → ∃ next k' t, searchNext c p k = .ok (some next) k' ∧
      k'.tasks next = some t ∧ t.status = .kReady) ∧
    ∀ op : SysOp, op.Enabled k → op.Elementary → op.SparesHeld k → ∀ e k',
      (op.exec P : KernelM Unit) k = .error e k' → ¬e.Searching := by
  obtain ⟨loc, hst, hl, hi, hth⟩ := h.slots
  refine ⟨?_, ?_⟩
  · intro c p hrun
    obtain ⟨t, ht, -⟩ := hst.runs c p hrun
    have hloc := hst.loc_running (Set.notMem_empty c) hrun
    obtain ⟨r, k', hk', next, u, rfl, hu, hready⟩ :=
      ((hi.searchable hst hth hrun).wp_searchNext hrun ht (fun _ => hloc)).returns
    exact ⟨next, k', u, hk', hu, hready⟩
  · intro op hen hop hspare e k' hexec
    exact (op.wp_slots hst hl hi hth hen hop hspare).of_error hexec

theorem search_ends_example :
    ∃ k, SysRun (presetPlatform true) (fun k op => op.Elementary ∧ op.SparesHeld k) k ∧
      k.running 0 = some 1 ∧ k.held 0 = some 1 ∧
      ∃ next k' t, searchNext 0 1 k = .ok (some next) k' ∧ k'.tasks next = some t ∧
        t.status = .kReady := by
  have h₀ := SysRun.start (P := presetPlatform true)
    (A := fun k op => op.Elementary ∧ op.SparesHeld k)
  have h₁ := h₀.step (.initCurrentCore 0 0) ⟨⟨rfl, rfl, fun _ => rfl⟩, rfl⟩ ⟨trivial, trivial⟩ rfl
  have h₂ := h₁.step (.addTask 0 1 { policy := .kIdle }) ⟨rfl, rfl, rfl, rfl⟩ ⟨trivial, trivial⟩ rfl
  have h₃ := h₂.step (.schedule 0) ⟨0, rfl⟩ ⟨trivial, trivial⟩ rfl
  exact ⟨_, h₃, rfl, rfl, (search_ends h₃).1 0 1 rfl⟩

theorem searchQueue_stuck (hkinds : (k.cpuSchedulers c).Kinds) (hun : k.HeldUnready c)
    (fuel : ℕ) : ∃ k', searchQueue c .kIdle fuel k = .error .diverges k' := by
  have hwp := wp_searchQueue_held fuel (Q := fun _ _ => False) (E := fun e _ => e = .diverges)
    hkinds hun (fun _ _ => rfl)
  cases hr : searchQueue c .kIdle fuel k with
  | ok a k' => exact (hwp.of_ok hr).elim
  | error e k' => exact ⟨k', by rw [hwp.of_error hr]⟩

/-- A task of the idle policy that runs alone blocks: the idle scheduler returns it for ever. -/
theorem block_of_held_diverges :
    ∃ k, SysRun (presetPlatform true) (fun _ op => op.Elementary) k ∧
      (SysOp.block 0 (ResourceId.make .kMutex 5)).Enabled k ∧
      ∃ k', ((SysOp.block 0 (ResourceId.make .kMutex 5)).exec (presetPlatform true) :
          KernelM Unit) k = .error .diverges k' ∧
        ∀ fuel, ∃ k'', searchQueue 0 .kIdle fuel k' = .error .diverges k'' := by
  have h₀ := SysRun.start (P := presetPlatform true) (A := fun _ op => op.Elementary)
  have h₁ := h₀.step (.initCurrentCore 0 0) ⟨⟨rfl, rfl, fun _ => rfl⟩, rfl⟩ trivial rfl
  have h₂ := h₁.step (.addTask 0 1 { policy := .kIdle }) ⟨rfl, rfl, rfl, rfl⟩ trivial rfl
  have h₃ := h₂.step (.schedule 0) ⟨0, rfl⟩ trivial rfl
  refine ⟨_, h₃, ⟨1, rfl, nofun⟩, _, rfl, searchQueue_stuck ?_ ⟨1, _, rfl, rfl, nofun⟩⟩
  intro policy s hs
  cases policy <;> cases hs <;> decide

end NaiLongKernel.Task
