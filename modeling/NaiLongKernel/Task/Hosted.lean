import NaiLongKernel.Task.Lifetime
import NaiLongKernel.Task.Resources

/-!
# One core and its waiting tasks

`Block` in its two parts: the running task enters the queue of the resource, then the core
schedules. Between two operations, and between these two parts, all waiting tasks wait on
the core; the other operations of the core block nobody on the resource.
-/
namespace NaiLongKernel.Task

open Foundation

variable {k k' : Kernel} {loc loc' : Ptr → Option Slot} {p : Ptr} {c : CoreId} {r : ResourceId}

/-- The core is between two operations. -/
def AtRest (c : CoreId) (k : Kernel) : Prop := ∃ loc, Stable ∅ k loc ∧ Hosted c k loc

/-- The running task is in the queue of `r`, and `Block` has not scheduled yet. -/
def Registered (c : CoreId) (r : ResourceId) (p : Ptr) (k : Kernel) : Prop :=
  k.running c = some p ∧ ∃ loc, Stable {c} k loc ∧ Hosted c k loc ∧ loc p = some (.blocked c r)

/-- The part of `Block` that makes the running task wait. -/
def register (c : CoreId) (r : ResourceId) : KernelM Unit := do
  let current ← runningTask c "Block: No current task to block"
    "Block: current task status must be kRunning"
  blockBody c current r

theorem wp_block_iff {Q : Unit → Kernel → Prop} {E : Fault → Kernel → Prop} :
    wp (block c r : KernelM Unit) Q E k ↔ wp (register c r) (fun _ => wp (schedule c) Q E) E k := by
  simp only [block, register, lockGuard_kernelM, run_kernelM, klog_kernelM, wp_bind, wp_pure]

theorem AtRest.empty (c : CoreId) : AtRest c {} := by
  refine ⟨_, Stable.empty, ⟨?_, ?_⟩⟩
  · intro p t ht
    cases ht
  · intro p s hs
    cases hs

theorem AtRest.not_blockedOn (h : AtRest c k) (hrun : k.running c = some p) :
    ¬ k.BlockedOn r p := by
  intro hb
  obtain ⟨loc, hst, hh⟩ := h
  have hl := hh.loc_of_blockedOn hst.toPlaced hb
  rw [hst.loc_running (Set.notMem_empty c) hrun] at hl
  cases hl

theorem Registered.blockedOn (h : Registered c r p k) : k.BlockedOn r p := by
  obtain ⟨-, loc, hst, -, hl⟩ := h
  exact hst.toPlaced.blockedOn_of_loc hl

theorem Waits.atRest (h : Stable ∅ k' loc') (hw : Waits c r {q | k.BlockedOn r q} k' loc') :
    AtRest c k' ∧ ∀ q, k'.BlockedOn r q → k.BlockedOn r q :=
  ⟨⟨loc', h, hw.toHosted⟩, fun _ hb => hw.blockedOn h.toPlaced hb⟩

theorem AtRest.wp_register (h : AtRest c k) (hrun : k.running c = some p)
    (hidle : k.idle c ≠ some p) :
    wp (register c r) (fun _ k' => Registered c r p k' ∧ Persists k k' ∧
      ∀ r' q, k'.BlockedOn r' q → k.BlockedOn r' q ∨ q = p) (fun _ _ => False) k := by
  obtain ⟨loc, hst, hh⟩ := h
  obtain ⟨t, ht, hrunning⟩ := hst.running_of_ne_idle hrun hidle
  rw [register, wp_bind]
  apply Closed.wp_runningTask hst hrun hidle
  apply (wp_blockBody hst.toSound ht hrunning (hst.ne_idle hrun hidle) r).imp _
  rintro _ k' ⟨loc', hs⟩
  have hrun' : k'.running c = some p := by rw [hs.running, hrun]
  have hst' : Stable {c} k' loc' := hst.suspended (s := .blocked c r) hrun hs
  have hh' : Hosted c k' loc' := hh.suspended rfl hs
  refine ⟨⟨hrun', loc', hst', hh', hs.loc_self⟩, hs.persists, ?_⟩
  intro r' q hb
  by_cases hq : q = p
  · exact Or.inr hq
  · have hl := hh'.loc_of_blockedOn hst'.toPlaced hb
    rw [hs.loc_ne q hq] at hl
    exact Or.inl (hst.toPlaced.blockedOn_of_loc hl)

/-- The running task cannot run on, and the core has not scheduled yet. -/
def Leaving (c : CoreId) (p : Ptr) (k : Kernel) : Prop :=
  k.running c = some p ∧ ∃ loc t, Stable {c} k loc ∧ Hosted c k loc ∧ k.tasks p = some t ∧
    t.status ≠ .kReady ∧ loc p ≠ some (.sleeping c)

theorem Registered.leaving (h : Registered c r p k) : Leaving c p k := by
  obtain ⟨hrun, loc, hst, hh, hl⟩ := h
  obtain ⟨t, ht, hblocked, -⟩ := hst.toPlaced.agrees p _ hl
  refine ⟨hrun, loc, t, hst, hh, ht, ?_, ?_⟩
  · rw [hblocked]
    exact nofun
  · rw [hl]
    exact nofun

section Leaving

variable (r) (k₀ : Kernel)

/-- Since `k₀` the core has only scheduled, and nobody has begun to wait for `r`. -/
theorem Waits.closed_persists (W : Set Ptr) : Closed c ({s | s ≠ .blocked c r} ∩ Set.univ)
    (fun k' loc' => Waits c r W k' loc' ∧ Persists k₀ k') (fun e k' => True ∧ Failed k₀ e k') :=
  (Waits.closed c r W).and (Persists.closed k₀ c)

theorem Leaving.wp_schedule (h : Leaving c p k) :
    wp (schedule c : KernelM Unit) (fun _ k' => AtRest c k' ∧ Persists k k' ∧
      ∀ q, k'.BlockedOn r q → k.BlockedOn r q) (fun _ _ => True) k := by
  obtain ⟨hrun, loc, t, hst, hh, ht, hready, -⟩ := h
  apply wp_mono ((Waits.closed_persists r k _).wp_schedule hst
    ⟨hh.waits hst.toPlaced r, Persists.refl k⟩ hrun _) _ (fun _ _ _ => trivial)
  · intro u hu hst'
    rw [Option.mem_unique hu ht] at hst'
    exact absurd hst' hready
  · rintro _ k' ⟨loc', h', hw, hp⟩
    exact ⟨(hw.atRest h').1, hp, (hw.atRest h').2⟩

theorem AtRest.wp_schedule (h : AtRest c k) (hrun : k.running c = some p) :
    wp (schedule c : KernelM Unit) (fun _ k' => AtRest c k' ∧ Persists k k' ∧
      ∀ q, k'.BlockedOn r q → k.BlockedOn r q) (fun _ _ => True) k := by
  obtain ⟨loc, hst, hh⟩ := h
  apply wp_mono ((Waits.closed_persists r k _).wp_schedule_stable hst
    ⟨hh.waits hst.toPlaced r, Persists.refl k⟩ hrun) _ (fun _ _ _ => trivial)
  rintro _ k' ⟨loc', h', hw, hp⟩
  exact ⟨(hw.atRest h').1, hp, (hw.atRest h').2⟩

/-- A tick may come before the core schedules, and may schedule itself. -/
theorem Leaving.wp_tickUpdate (P : Platform) (h : Leaving c p k) :
    wp (tickUpdate P c : KernelM Unit) (fun _ k' => (AtRest c k' ∨ Leaving c p k') ∧ Persists k k' ∧
      ∀ q, k'.BlockedOn r q → k.BlockedOn r q) (fun _ _ => True) k := by
  obtain ⟨hrun, loc, t, hst, hh, ht, hready, hawake⟩ := h
  have hclosed := Waits.closed_persists (c := c) r k {q | k.BlockedOn r q}
  apply wp_mono (hclosed.wp_tickUpdate_stages P hst ⟨hh.waits hst.toPlaced r, Persists.refl k⟩ hrun ht
    hawake _) (fun _ _ hk => hk) (fun _ _ _ => trivial)
  intro k₂ loc₂ t₂ h₂ hi₂ hrun₂ hloc₂ ht₂ hst₂
  have hready₂ : t₂.status ≠ .kReady := by rwa [hst₂]
  constructor
  · refine ⟨Or.inr ⟨hrun₂, loc₂, t₂, h₂, hi₂.1.toHosted, ht₂, hready₂, by rwa [hloc₂]⟩, hi₂.2, ?_⟩
    exact fun q hb => hi₂.1.blockedOn h₂.toPlaced hb
  · apply (hclosed.wp_schedule h₂ hi₂ hrun₂ _).imp _
    · intro u hu hst'
      rw [Option.mem_unique hu ht₂] at hst'
      exact absurd hst' hready₂
    · rintro _ k' ⟨loc', h', hw, hp⟩
      exact ⟨Or.inl (hw.atRest h').1, hp, (hw.atRest h').2⟩

end Leaving

theorem Registered.wp_schedule (h : Registered c r p k) :
    wp (schedule c : KernelM Unit) (fun _ k' => AtRest c k' ∧ ∀ q, k'.BlockedOn r q → k.BlockedOn r q)
      (fun _ _ => True) k :=
  (h.leaving.wp_schedule r).imp (fun _ _ hk => ⟨hk.1, hk.2.2⟩)

theorem AtRest.wp_wakeup (h : AtRest c k) :
    wp (wakeup c r : KernelM Unit) (fun _ k' => AtRest c k' ∧ ∀ q, ¬ k'.BlockedOn r q) (fun _ _ => True) k := by
  obtain ⟨loc, hst, hh⟩ := h
  apply ((Waits.closed c r _).wp_wakeup hst (hh.waits hst.toPlaced r) r).imp _
  rintro _ k' ⟨loc', h', hw, -, hnone⟩
  exact ⟨⟨loc', h', hw.toHosted⟩, fun q hb => hnone q (hw.loc_of_blockedOn h'.toPlaced hb)⟩

theorem Hosted.initialised {B : Set CoreId} (h : Hosted c k loc)
    (hi : Initialised B c p k loc k') : Hosted c k' loc := by
  refine ⟨?_, h.core⟩
  intro q u hu hst
  by_cases hq : q = p
  · subst hq
    obtain ⟨t, ht, hready, -⟩ := hi.task
    rw [Option.mem_unique hu ht, hready] at hst
    cases hst
  · rw [hi.tasks_ne q hq] at hu
    exact h.placed q u hu hst

theorem Initialised.blockedOn {B : Set CoreId} {q : Ptr} (hi : Initialised B c p k loc k')
    (hb : k'.BlockedOn r q) : k.BlockedOn r q := by
  obtain ⟨u, hu, hst, hr⟩ := hb
  by_cases hq : q = p
  · subst hq
    obtain ⟨t, ht, hready, -⟩ := hi.task
    rw [Option.mem_unique hu ht, hready] at hst
    cases hst
  · rw [hi.tasks_ne q hq] at hu
    exact ⟨u, hu, hst, hr⟩

theorem Hosted.alloc {t : TaskControlBlock} (h : Hosted c k loc) (hst : t.status = .kUnInit) :
    Hosted c (k.setTask p t) loc := by
  refine ⟨?_, h.core⟩
  intro q u hu hblocked
  by_cases hq : q = p
  · subst hq
    rw [k.tasks_setTask_self] at hu
    rw [← Option.some.inj hu, hst] at hblocked
    cases hblocked
  · rw [k.tasks_setTask_ne p t hq] at hu
    exact h.placed q u hu hblocked

theorem Added.blockedOn {B : Set CoreId} {target : CoreId} {t : TaskControlBlock} {q : Ptr}
    (ha : Added B target p t (k.setTask p t) loc k' loc') (hb : k'.BlockedOn r q) :
    k.BlockedOn r q := by
  obtain ⟨u, hu, hst, hr⟩ := hb
  by_cases hq : q = p
  · subst hq
    obtain ⟨v, hv, hready, -⟩ := ha.task
    rw [Option.mem_unique hu hv, hready] at hst
    cases hst
  · rw [ha.tasks_ne q hq, k.tasks_setTask_ne p t hq] at hu
    exact ⟨u, hu, hst, hr⟩

theorem AtRest.congr (h : AtRest c k) (htasks : k'.tasks = k.tasks)
    (hscheds : k'.cpuSchedulers = k.cpuSchedulers) (hcpu : k'.perCpu = k.perCpu) : AtRest c k' := by
  obtain ⟨loc, hst, hh⟩ := h
  refine ⟨loc, hst.congr htasks hscheds hcpu, ⟨?_, hh.core⟩⟩
  rw [htasks]
  exact hh.placed

/-- The operations of core `c` that only schedule, and block nobody on `r`. -/
def SysOp.Local (P : Platform) (c : CoreId) (r : ResourceId) : SysOp → Prop
  | initCurrentCore c' _ => c' = c
  | addTask c' _ t => c' = c ∧ targetCore P c t.cpuAffinity = c
  | schedule c' => c' = c
  | tickUpdate c' => c' = c
  | sleep c' _ => c' = c
  | block c' r' => c' = c ∧ r' ≠ r
  | wakeup c' _ => c' = c
  | findTask c' _ => c' = c
  | allocPage c' => c' = c
  | vmCall c' _ _ => c' = c
  | clone _ _ _ => False
  | exit _ _ => False
  | wait _ _ _ _ _ => False

theorem SysOp.Local.wp_exec {P : Platform} {op : SysOp} (hop : op.Local P c r)
    (hen : op.Enabled k) (h : AtRest c k) :
    wp (op.exec P : KernelM Unit)
      (fun _ k' => AtRest c k' ∧ ∀ q, k'.BlockedOn r q → k.BlockedOn r q) (fun _ _ => True) k := by
  obtain ⟨loc, hst, hh⟩ := h
  have hw := hh.waits hst.toPlaced r
  have hclosed := Waits.closed c r {q | k.BlockedOn r q}
  have done : ∀ k', (∃ loc', Stable ∅ k' loc' ∧ Waits c r {q | k.BlockedOn r q} k' loc') →
      AtRest c k' ∧ ∀ q, k'.BlockedOn r q → k.BlockedOn r q := by
    rintro k' ⟨loc', h', hw'⟩
    exact hw'.atRest h'
  have memory : ∀ {α : Type} (x : Memory.VmM α), wp (runVm x)
      (fun _ k' => AtRest c k' ∧ ∀ q, k'.BlockedOn r q → k.BlockedOn r q) (fun _ _ => True) k :=
    fun x => wp_runVm
      (fun _ _ _ => ⟨AtRest.congr ⟨loc, hst, hh⟩ rfl rfl rfl, fun _ hb => hb⟩)
      (fun _ _ _ => ⟨AtRest.congr ⟨loc, hst, hh⟩ rfl rfl rfl, fun _ hb => hb⟩)
      (fun _ _ _ => trivial)
  cases op with
  | initCurrentCore c' i =>
    obtain rfl : c' = c := hop
    rw [SysOp.exec, Task.initCurrentCore, lockGuard_kernelM, run_kernelM]
    apply (wp_initBody hst hen.2 hen.1).imp _
    intro _ k' hi
    exact ⟨⟨loc, hi.stable, hh.initialised hi⟩, fun q hb => hi.blockedOn hb⟩
  | addTask c' task t =>
    obtain ⟨rfl, htarget⟩ := hop
    have hu := hst.unused_of_none hen.1
    have h₀ : Stable ∅ (k.setTask task t) loc := hst.updateUnused hu (some t) rfl rfl rfl
    simp only [SysOp.exec, run_kernelM, wp_bind, wp_modify]
    apply wp_addTask P h₀ (hu.congr rfl rfl) (k.tasks_setTask_self task t) (fun _ _ => trivial)
    intro k' loc' ha
    rw [htarget] at ha
    exact ⟨⟨loc', ha.stable, (hh.alloc hen.2.1).added ha⟩, fun q hb => ha.blockedOn hb⟩
  | findTask c' pid =>
    simp only [SysOp.exec, Task.findTask, lockGuard_kernelM, run_kernelM, wp_bind, wp_get, wp_pure]
    exact done k ⟨loc, hst, hw⟩
  | schedule c' =>
    obtain rfl : c' = c := hop
    obtain ⟨p, hrun⟩ := hen
    exact (hclosed.wp_schedule_stable hst hw hrun).imp (fun _ => done)
  | tickUpdate c' =>
    obtain rfl : c' = c := hop
    obtain ⟨p, hrun⟩ := hen
    exact (hclosed.wp_tickUpdate P hst hw hrun).imp (fun _ => done)
  | sleep c' ms =>
    obtain rfl : c' = c := hop
    obtain ⟨p, hrun, hidle⟩ := hen
    exact (hclosed.wp_sleep P hst hw hrun hidle (by simp) ms).imp (fun _ => done)
  | block c' r' =>
    obtain ⟨rfl, hr⟩ := hop
    obtain ⟨p, hrun, hidle⟩ := hen
    have hS : Slot.blocked c' r' ≠ .blocked c' r := by
      intro he
      cases he
      exact hr rfl
    exact (hclosed.wp_block hst hw hrun hidle r' hS).imp (fun _ => done)
  | wakeup c' r' =>
    obtain rfl : c' = c := hop
    apply (hclosed.wp_wakeup hst hw r').imp _
    rintro _ k' ⟨loc', h', hw', -⟩
    exact done k' ⟨loc', h', hw'⟩
  | allocPage | vmCall =>
    simp only [SysOp.exec, run_kernelM, wp_bind, wp_pure]
    exact memory _
  | clone | exit | wait => exact hop.elim

theorem Hosted.departed {t : TaskControlBlock} (h : Hosted c k loc) (hd : Departed p t k k') :
    Hosted c k' loc := by
  refine ⟨?_, h.core⟩
  intro q u' hu' hblocked
  obtain ⟨u, hu, he⟩ := hd.back hu'
  rw [he] at hblocked
  by_cases hq : q = p
  · simp [hq] at hblocked
  · simp only [if_neg hq] at hblocked
    exact h.placed q u hu hblocked

theorem Hosted.deleted {t : TaskControlBlock} (h : Hosted c k loc) (hd : Deleted p t k k') :
    Hosted c k' loc := by
  refine ⟨?_, h.core⟩
  intro q u' hu' hblocked
  obtain ⟨u, hu, hreg⟩ := hd.back hu'
  exact h.placed q u hu (hreg.profile.status.symm.trans hblocked)

/-- The operations of core `c` on whole tasks, all but `Exit` and `Wait`. -/
def SysOp.OnCore (P : Platform) (c : CoreId) : SysOp → Prop
  | initCurrentCore c' _ => c' = c
  | addTask c' _ t => c' = c ∧ targetCore P c t.cpuAffinity = c
  | clone c' _ _ => c' = c
  | schedule c' => c' = c
  | tickUpdate c' => c' = c
  | sleep c' _ => c' = c
  | block c' _ => c' = c
  | wakeup c' _ => c' = c
  | findTask c' _ => c' = c
  | allocPage c' => c' = c
  | vmCall c' _ _ => c' = c
  | exit _ _ => False
  | wait _ _ _ _ _ => False

theorem Hosted.cloned {child : Ptr} {u : TaskControlBlock} (h : Hosted c k loc)
    (hfree : k.tasks child = none) (hcl : Cloned c child u k loc k' loc') : Hosted c k' loc' := by
  refine ⟨?_, ?_⟩
  · intro q v' hv' hblocked
    by_cases hq : q = child
    · subst hq
      obtain ⟨u', hu', hready, -⟩ := hcl.block
      rw [Option.mem_unique hv' hu', hready] at hblocked
      cases hblocked
    · obtain ⟨v, hv, hreg⟩ := exists_before (hcl.same q hq) (hcl.free q hq) hv'
      rw [hcl.loc_ne q hq]
      exact h.placed q v hv (hreg.profile.status.symm.trans hblocked)
  · intro q s hs
    by_cases hq : q = child
    · subst hq
      rw [hcl.loc_self] at hs
      cases Kernel.ready_of_home hs
      rfl
    · rw [hcl.loc_ne q hq] at hs
      exact h.core q s hs

theorem Cloned.blockedOn {child q : Ptr} {u : TaskControlBlock} (hcl : Cloned c child u k loc k' loc')
    (hb : k'.BlockedOn r q) : k.BlockedOn r q := by
  obtain ⟨v', hv', hblocked, hr⟩ := hb
  by_cases hq : q = child
  · subst hq
    obtain ⟨u', hu', hready, -⟩ := hcl.block
    rw [Option.mem_unique hv' hu', hready] at hblocked
    cases hblocked
  · obtain ⟨v, hv, hreg⟩ := exists_before (hcl.same q hq) (hcl.free q hq) hv'
    exact ⟨v, hv, hreg.profile.status.symm.trans hblocked, hreg.profile.blockedOn.symm.trans hr⟩

theorem AtRest.wp_clone {P : Platform} (h : AtRest c k) (hl : Life k) (flags : BitVec 64)
    (child : Option Ptr) (hchild : ∀ q, child = some q → k.tasks q = none) :
    wp (clone P c flags child : KernelM (Except Memory.ErrorCode Pid))
      (fun _ k' => AtRest c k' ∧ ∀ q, k'.BlockedOn r q → k.BlockedOn r q) (fun _ _ => True) k := by
  obtain ⟨loc, hst, hh⟩ := h
  apply wp_mono (Task.wp_clone P hst hl.grouped hl.entries flags child hchild) _
    (fun _ _ _ => trivial)
  rintro _ k' ⟨loc', heff⟩
  have same : ∀ k', k'.tasks = k.tasks → k'.cpuSchedulers = k.cpuSchedulers → k'.perCpu = k.perCpu →
      AtRest c k' ∧ ∀ q, k'.BlockedOn r q → k.BlockedOn r q := by
    intro k' htasks hscheds hcpu
    refine ⟨AtRest.congr ⟨loc, hst, hh⟩ htasks hscheds hcpu, ?_⟩
    intro q hb
    rwa [Kernel.BlockedOn, htasks] at hb
  cases heff with
  | noTask | noPid | noBlock | noTable | noStack => exact same _ rfl rfl rfl
  | cloned _ hq _ _ _ _ hcl _ _ =>
    exact ⟨⟨loc', hcl.stable, hh.cloned (hchild _ hq) hcl⟩, fun q hb => hcl.blockedOn hb⟩

theorem SysOp.OnCore.wp_exec {P : Platform} {op : SysOp} (hop : op.OnCore P c) (hen : op.Enabled k)
    (h : AtRest c k) (hl : Life k) (r : ResourceId) :
    wp (op.exec P : KernelM Unit) (fun _ k' => AtRest c k' ∧ ∀ q, k'.BlockedOn r q →
      k.BlockedOn r q ∨ k.running c = some q ∧ op = .block c r) (fun _ _ => True) k := by
  have hlocal : op.Local P c r → wp (op.exec P : KernelM Unit) (fun _ k' => AtRest c k' ∧
      ∀ q, k'.BlockedOn r q → k.BlockedOn r q ∨ k.running c = some q ∧ op = .block c r)
      (fun _ _ => True) k := by
    intro hop
    exact (hop.wp_exec hen h).imp (fun _ _ hk => ⟨hk.1, fun q hb => Or.inl (hk.2 q hb)⟩)
  cases op with
  | clone c' flags child =>
    obtain rfl : c' = c := hop
    simp only [SysOp.exec, wp_bind, wp_pure]
    exact (h.wp_clone hl flags child hen).imp
      (fun _ _ hk => ⟨hk.1, fun q hb => Or.inl (hk.2 q hb)⟩)
  | block c' r' =>
    obtain rfl : c' = c := hop
    by_cases hr : r' = r
    · subst hr
      obtain ⟨p, hrun, hidle⟩ := hen
      rw [SysOp.exec, wp_block_iff]
      apply wp_mono (h.wp_register hrun hidle) _ (fun _ _ he => he.elim)
      rintro _ k₁ ⟨hreg, -, hblocked⟩
      apply hreg.wp_schedule.imp _
      rintro _ k' ⟨hrest, hback⟩
      refine ⟨hrest, ?_⟩
      intro q hb
      rcases hblocked r' q (hback q hb) with hold | rfl
      · exact Or.inl hold
      · exact Or.inr ⟨hrun, rfl⟩
    · exact hlocal ⟨rfl, hr⟩
  | initCurrentCore | addTask | schedule | tickUpdate | sleep | wakeup | findTask | allocPage
  | vmCall => exact hlocal hop
  | exit | wait => exact hop.elim

end NaiLongKernel.Task
