import NaiLongKernel.Foundation.Reached
import NaiLongKernel.Task.Running
import NaiLongKernel.Task.Sleeping

/-!
# Sleeping until a tick

The sleepers of a core and their wake ticks are an alarm clock: `Sleep` sets an alarm,
`TickUpdate` advances the time and takes out the alarms that are due, and nothing else
touches it. The kernel is shown to behave like this clock, in which every alarm lies ahead.
The heap of the sleepers gives the order in which the tasks of one tick are woken.
-/
namespace NaiLongKernel.Task

open Foundation

variable {P : Platform} {k k' k'' : Kernel} {loc loc' : Ptr → Option Slot} {p : Ptr}
  {t : TaskControlBlock} {c : CoreId}

/-- The time of a core and who is to be woken when. -/
structure Alarms where
  now : BitVec 64
  pending : Set (Ptr × BitVec 64)

namespace Alarms

def set (p : Ptr) (w : BitVec 64) (a : Alarms) : Alarms :=
  { a with pending := insert (p, w) a.pending }

/-- Time advances, and the alarms that are due have rung. -/
def tick (a : Alarms) : Alarms where
  now := a.now + 1
  pending := {x ∈ a.pending | a.now + 1 < x.2}

/-- Every alarm is still to ring. -/
def Ahead (a : Alarms) : Prop := ∀ x ∈ a.pending, a.now < x.2

theorem Ahead.tick (a : Alarms) : a.tick.Ahead := fun _ hx => hx.2

theorem Ahead.set {a : Alarms} {w : BitVec 64} (h : a.Ahead) (hw : a.now < w) :
    (a.set p w).Ahead := by
  rintro x (rfl | hx)
  · exact hw
  · exact h x hx

end Alarms

/-- The sleepers of a core with their wake ticks. -/
def Kernel.alarms (k : Kernel) (c : CoreId) : Alarms where
  now := (k.cpuSchedulers c).localTick
  pending := {x | x.1 ∈ (k.cpuSchedulers c).sleepingTasks ∧ k.wakeTick x.1 = x.2}

section Clocks

/-- What sleeping goes by: the wake ticks, and the heap and the tick of every core. -/
def Kernel.clocks (k : Kernel) : (Ptr → BitVec 64) × (CoreId → List Ptr) × (CoreId → BitVec 64) :=
  (k.wakeTick, fun c => (k.cpuSchedulers c).sleepingTasks, fun c => (k.cpuSchedulers c).localTick)

theorem Kernel.clocks_setTask (ht : k.tasks p = some t) {t' : TaskControlBlock}
    (hw : t'.schedInfo.wakeTick = t.schedInfo.wakeTick) : (k.setTask p t').clocks = k.clocks := by
  have hwake : (k.setTask p t').wakeTick = k.wakeTick := by
    funext q
    by_cases hq : q = p
    · subst hq
      simp only [Kernel.wakeTick, k.tasks_setTask_self, ht, hw]
    · simp only [Kernel.wakeTick, k.tasks_setTask_ne p t' hq]
  rw [Kernel.clocks, hwake]
  rfl

theorem Kernel.clocks_setSched {d : CpuSchedData}
    (hs : d.sleepingTasks = (k.cpuSchedulers c).sleepingTasks)
    (ht : d.localTick = (k.cpuSchedulers c).localTick) : (k.setSched c d).clocks = k.clocks := by
  simp only [Kernel.clocks, Prod.mk.injEq]
  refine ⟨rfl, ?_, ?_⟩
  · funext c'
    by_cases hc : c' = c
    · rw [hc, Kernel.cpuSchedulers_setSched_self, hs]
    · rw [Kernel.cpuSchedulers_setSched_ne _ _ _ hc]
  · funext c'
    by_cases hc : c' = c
    · rw [hc, Kernel.cpuSchedulers_setSched_self, ht]
    · rw [Kernel.cpuSchedulers_setSched_ne _ _ _ hc]

/-- The program neither sets a wake tick nor touches a heap or a tick. -/
abbrev Untimed {α : Type} (x : KernelM α) : Prop := Keeps Kernel.clocks x

theorem aloof_clocks : Aloof Kernel.clocks :=
  ⟨fun ht => Kernel.clocks_setTask ht, Kernel.clocks_setSched, fun _ _ _ => rfl⟩

namespace Untimed

theorem dispatch (c : CoreId) (current next : Ptr) : Untimed (dispatch c current next) := by
  refine Keeps.bind (keeps_readTask current) (fun t => Keeps.bind (keeps_readTask next) (fun u => ?_))
  refine Keeps.bind (keeps_assertMsg _ _) (fun _ => Keeps.bind (keeps_assertMsg _ _) (fun _ => ?_))
  refine Keeps.bind (aloof_clocks.updateTask next fun _ => rfl) (fun _ => ?_)
  refine Keeps.bind (aloof_clocks.modifySched c (fun _ => rfl) (fun _ => rfl)) (fun _ => ?_)
  exact Keeps.bind (Keeps.modify fun _ => rfl) (fun _ => Keeps.pure _)

theorem scheduleBody (c : CoreId) : Untimed (scheduleBody c) := by
  refine Keeps.bind (keeps_currentTask c _) (fun current => ?_)
  refine Keeps.bind (aloof_clocks.requeueCurrent c _) (fun _ => ?_)
  refine Keeps.bind (aloof_clocks.chooseNext c current) (fun r => ?_)
  cases r with
  | none => exact Keeps.pure _
  | some next =>
    refine Keeps.bind (aloof_clocks.leaveCurrent c current next) (fun next => ?_)
    exact Keeps.bind (dispatch c current next) (fun _ => Keeps.pure _)

theorem switchTask (current next : Ptr) (mustLeave : Bool) :
    Untimed (switchTask current next mustLeave) := by
  refine Keeps.bind Keeps.get (fun k => Keeps.ite (Keeps.ite ?_ (keeps_assertMsg _ _)) ?_)
  · exact Keeps.bind (keeps_readTask _)
      (fun _ => Keeps.bind (keeps_readTask _) (fun _ => Keeps.pure _))
  · exact Keeps.bind (Keeps.modify fun _ => rfl)
      (fun _ => Keeps.bind (keeps_readTask _) (fun _ => Keeps.pure _))

theorem schedule (c : CoreId) : Untimed (schedule c : KernelM Unit) := by
  refine Keeps.bind (Keeps.pure _) (fun _ => Keeps.bind (scheduleBody c) (fun r => ?_))
  rcases r with _ | ⟨current, next, mustLeave⟩
  · exact Keeps.bind (Keeps.pure _) (fun _ => Keeps.throw _)
  · exact Keeps.bind (Keeps.pure _) (fun _ => switchTask current next mustLeave)

theorem block (c : CoreId) (r : ResourceId) : Untimed (block c r : KernelM Unit) := by
  simp only [Task.block, lockGuard_kernelM, run_kernelM, klog_kernelM]
  refine Keeps.bind (keeps_runningTask c _ _) (fun current => Keeps.bind ?_ (fun _ => schedule c))
  exact Keeps.bind (aloof_clocks.blockBody c current r) (fun _ => Keeps.pure _)

theorem wakeAll (c : CoreId) (r : ResourceId) (waiting : List Ptr) :
    Untimed (wakeAll c r waiting) := by
  induction waiting with
  | nil => exact Keeps.pure _
  | cons task rest ih =>
    refine Keeps.bind (aloof_clocks.modifySched c (fun _ => rfl) (fun _ => rfl)) (fun _ => ?_)
    refine Keeps.bind (keeps_readTask task) (fun t => Keeps.bind (keeps_assertMsg _ _) (fun _ => ?_))
    refine Keeps.bind (keeps_assertMsg _ _) (fun _ => ?_)
    refine Keeps.bind (aloof_clocks.updateTask task fun _ => rfl) (fun _ => ?_)
    refine Keeps.bind Keeps.get (fun k => Keeps.bind (keeps_assertMsg _ _) (fun _ => ?_))
    exact Keeps.bind (aloof_clocks.enqueueTask c _ task) (fun _ => ih)

theorem wakeup (c : CoreId) (r : ResourceId) : Untimed (wakeup c r : KernelM Unit) := by
  simp only [Task.wakeup, lockGuard_kernelM, run_kernelM, klog_kernelM]
  refine Keeps.bind (Keeps.bind Keeps.get (fun k => ?_)) (fun _ => Keeps.pure _)
  cases (k.cpuSchedulers c).blockedTasks r with
  | none => exact Keeps.pure _
  | some waiting =>
    exact Keeps.bind (wakeAll c r waiting)
      (fun _ => aloof_clocks.modifySched c (fun _ => rfl) (fun _ => rfl))

end Untimed

theorem Kernel.alarms_of_clocks (h : k'.clocks = k.clocks) : k'.alarms = k.alarms := by
  simp only [Kernel.clocks, Prod.mk.injEq] at h
  obtain ⟨hwake, hsleep, htick⟩ := h
  funext c
  have hheap : (k'.cpuSchedulers c).sleepingTasks = (k.cpuSchedulers c).sleepingTasks :=
    congrFun hsleep c
  have hnow : (k'.cpuSchedulers c).localTick = (k.cpuSchedulers c).localTick := congrFun htick c
  simp only [Kernel.alarms, hheap, hnow, hwake]

theorem Kernel.alarms_setTask (hp : ∀ c, p ∉ (k.cpuSchedulers c).sleepingTasks)
    (t : TaskControlBlock) : (k.setTask p t).alarms = k.alarms := by
  funext c
  simp only [Kernel.alarms, Alarms.mk.injEq, Kernel.cpuSchedulers_setTask, true_and]
  ext ⟨q, w⟩
  refine and_congr_right ?_
  intro hq
  have hne : q ≠ p := by
    rintro rfl
    exact hp c hq
  rw [Kernel.wakeTick, k.tasks_setTask_ne p t hne]
  rfl

end Clocks

section Rousing

/-- The tasks `due` have left the heap of core `c`, which are those whose wake tick is not
after `now`, in the order of their wake ticks; each was enqueued in the scheduler of its
policy. -/
structure Kernel.Roused (k : Kernel) (c : CoreId) (now : BitVec 64) (due : List Ptr)
    (k' : Kernel) : Prop where
  removed : (k.cpuSchedulers c).sleepingTasks.Perm (due ++ (k'.cpuSchedulers c).sleepingTasks)
  reached : ∀ p ∈ due, k.wakeTick p ≤ now
  rest : ∀ p ∈ (k'.cpuSchedulers c).sleepingTasks, now < k.wakeTick p
  sorted : due.Pairwise fun p q => k.wakeTick p ≤ k.wakeTick q
  queued : ∀ policy, (k'.cpuSchedulers c).schedulers policy =
    ((k.cpuSchedulers c).schedulers policy).map fun s =>
      (due.filter (k.hasPolicy policy)).foldl (fun s p => s.enqueue p) s
  time : (k'.cpuSchedulers c).localTick = now
  wakeTick : k'.wakeTick = k.wakeTick
  others : ∀ c', c' ≠ c → k'.cpuSchedulers c' = k.cpuSchedulers c'

namespace Kernel.Roused

variable {now : BitVec 64} {due : List Ptr} {k₁ : Kernel}

theorem none (hrest : ∀ p ∈ (k.cpuSchedulers c).sleepingTasks,
    (k.cpuSchedulers c).localTick < k.wakeTick p) :
    k.Roused c (k.cpuSchedulers c).localTick [] k := by
  refine ⟨.refl _, nofun, hrest, .nil, ?_, rfl, rfl, fun _ _ => rfl⟩
  intro policy
  simp

theorem cons (ht : k.tasks p = some t) (hdue : k.wakeTick p ≤ now)
    (hpop : (k.cpuSchedulers c).sleepingTasks.Perm (p :: (k₁.cpuSchedulers c).sleepingTasks))
    (hfirst : ∀ q ∈ (k.cpuSchedulers c).sleepingTasks, k.wakeTick p ≤ k.wakeTick q)
    (hqueue : ∀ policy, (k₁.cpuSchedulers c).schedulers policy =
      ((k.cpuSchedulers c).schedulers policy).map
        fun s => if policy = t.policy then s.enqueue p else s)
    (hpol : k₁.hasPolicy = k.hasPolicy) (hwake : k₁.wakeTick = k.wakeTick)
    (hothers : ∀ c', c' ≠ c → k₁.cpuSchedulers c' = k.cpuSchedulers c')
    (h : k₁.Roused c now due k') : k.Roused c now (p :: due) k' := by
  have hback : ∀ q ∈ due, q ∈ (k.cpuSchedulers c).sleepingTasks := by
    intro q hq
    rw [hpop.mem_iff, List.mem_cons, h.removed.mem_iff, List.mem_append]
    exact Or.inr (Or.inl hq)
  refine ⟨?_, ?_, ?_, ?_, ?_, h.time, h.wakeTick.trans hwake, ?_⟩
  · exact hpop.trans (h.removed.cons p)
  · intro q hq
    rcases List.mem_cons.mp hq with rfl | hq
    · exact hdue
    · rw [← hwake]
      exact h.reached q hq
  · rw [← hwake]
    exact h.rest
  · refine List.pairwise_cons.mpr ⟨fun q hq => hfirst q (hback q hq), ?_⟩
    rw [← hwake]
    exact h.sorted
  · intro policy
    rw [h.queued, hqueue, Option.map_map, hpol, List.filter_cons, k.hasPolicy_of_tasks ht]
    by_cases he : policy = t.policy
    · subst he
      simp [Function.comp_def]
    · simp [he, Ne.symm he, Function.comp_def]
  · intro c' hc
    rw [h.others c' hc, hothers c' hc]

theorem alarms (h : k.Roused c ((k.cpuSchedulers c).localTick + 1) due k') :
    k'.alarms = Function.update k.alarms c (k.alarms c).tick := by
  funext c'
  by_cases hc : c' = c
  · subst hc
    rw [Function.update_self]
    simp only [Kernel.alarms, Alarms.tick, Alarms.mk.injEq, h.time, h.wakeTick, true_and]
    ext ⟨q, w⟩
    simp only [Set.mem_ofPred_eq, h.removed.mem_iff, List.mem_append]
    constructor
    · rintro ⟨hq, rfl⟩
      exact ⟨⟨Or.inr hq, rfl⟩, h.rest q hq⟩
    · rintro ⟨⟨hq | hq, rfl⟩, hlater⟩
      · exact absurd hlater (BitVec.not_lt.mpr (h.reached q hq))
      · exact ⟨hq, rfl⟩
  · rw [Function.update_of_ne hc]
    simp only [Kernel.alarms, h.others c' hc, h.wakeTick]

end Kernel.Roused

theorem wp_wakeSleepers_order (h : Sound k loc) (fuel : ℕ)
    (hfuel : (k.cpuSchedulers c).sleepingTasks.length < fuel)
    (hcur : ∀ q, k.running c = some q → loc q ≠ some (.sleeping c)) {E : Fault → Kernel → Prop} :
    wp (wakeSleepers P c fuel) (fun b k' => ∃ due,
      k.Roused c (k.cpuSchedulers c).localTick due k' ∧ (b = true ↔ due ≠ [])) E k := by
  induction fuel generalizing k loc with
  | zero => omega
  | succ fuel ih =>
    simp only [wakeSleepers, wp_bind, wp_get]
    have hheap := h.heap c
    cases hl : (k.cpuSchedulers c).sleepingTasks with
    | nil =>
      rw [wp_pure]
      refine ⟨[], Kernel.Roused.none ?_, by simp⟩
      rw [hl]
      nofun
    | cons task rest =>
      rw [hl] at hheap
      have hmem : task ∈ k.slot (.sleeping c) := by
        change task ∈ (k.cpuSchedulers c).sleepingTasks
        rw [hl]
        exact List.mem_cons_self
      have hloc : loc task = some (.sleeping c) := (h.located.mem_iff _ task).mp hmem
      obtain ⟨t, ht, hst⟩ := h.tasks_of_mem hmem
      have hwake : k.wakeTick task = t.schedInfo.wakeTick := by
        rw [Kernel.wakeTick, ht]
      -- the top of the heap wakes first
      have hfirst : ∀ q ∈ (k.cpuSchedulers c).sleepingTasks, k.wakeTick task ≤ k.wakeTick q := by
        intro q hq
        rw [hl] at hq
        have hnot := hheap.top_first k.wakesLater_strict q hq
        simpa [Kernel.wakesLater] using hnot
      have hne : k.running c ≠ some task := fun hrun => hcur task hrun hloc
      simp only [wp_bind, wp_readTask ht, wp_ite, wp_pure, wp_modifySched]
      split
      · rename_i hlater
        rw [← hwake] at hlater
        refine ⟨[], Kernel.Roused.none ?_, by simp⟩
        intro q hq
        have hle := hfirst q hq
        bv_omega
      · rename_i hnow
        rw [← hwake, BitVec.not_lt] at hnow
        have ht₁ : ∀ d, (k.setSched c d).tasks task = some t := fun _ => ht
        set d : CpuSchedData := { k.cpuSchedulers c with
          sleepingTasks := P.heap.pop k.wakesLater (k.cpuSchedulers c).sleepingTasks } with hd
        have hs : SameTask t (t.setStatus .kReady) := ⟨rfl, by rw [isDead, isDead, hst]; rfl⟩
        have hk₂ : ((k.setSched c d).setTask task (t.setStatus .kReady)).tasks task =
            some (t.setStatus .kReady) := Kernel.tasks_setTask_self _ task _
        have hclocks : ((k.setSched c d).setTask task (t.setStatus .kReady)).clocks =
            (k.setSched c d).clocks := Kernel.clocks_setTask (ht₁ d) rfl
        rw [wp_updateTask (ht₁ _)]
        refine wp_mono (wp_and (wp_and
          (wp_awaken (s := .sleeping c) (E := E) h hloc ht (h.toPlaced.wake P.heap hl) rfl hs rfl)
          (wp_enqueueTask_schedulers (E := E) (c := c) hk₂ t.policy))
          (aloof_clocks.enqueueTask c t.policy task _)) ?_ (fun _ _ he => he.1.1)
        rintro _ k₁ ⟨⟨⟨loc₁, ha, hw⟩, hqueue, -⟩, hkeep⟩
        have hsleep : (k₁.cpuSchedulers c).sleepingTasks = d.sleepingTasks := hw.1
        have htime : (k₁.cpuSchedulers c).localTick = (k.cpuSchedulers c).localTick := hw.2.2.1
        have hwake₁ : k₁.wakeTick = k.wakeTick := congrArg Prod.fst (hkeep.trans hclocks)
        have hpop : (k.cpuSchedulers c).sleepingTasks.Perm
            (task :: (k₁.cpuSchedulers c).sleepingTasks) := by
          rw [hsleep, hd, hl]
          exact P.heap.pop_perm _ k.wakesLater_strict hheap
        have hlen := hpop.length_eq
        rw [List.length_cons] at hlen
        refine (ih ha.sound (by omega) ?_).imp ?_
        · intro q hq hq'
          rw [ha.running] at hq
          exact hcur q hq (ha.back q hq')
        · rintro b k₂ ⟨due, hr, -⟩
          rw [htime] at hr
          refine ⟨task :: due, hr.cons ht hnow hpop hfirst ?_ ha.only.hasPolicy hwake₁ ha.only.scheds,
            by simp⟩
          intro policy
          rw [hqueue policy, Kernel.cpuSchedulers_setTask, Kernel.cpuSchedulers_setSched_self]

theorem wp_chargeTick_preempt {E : Fault → Kernel → Prop}
    (hcur : ∀ q, k.running c = some q → ∃ t, k.tasks q = some t) :
    wp (chargeTick c true) (fun b _ => b = true) E k := by
  simp only [chargeTick, wp_bind, wp_get]
  cases hr : k.running c with
  | none => exact (wp_pure _).mpr rfl
  | some current =>
    obtain ⟨t, ht⟩ := hcur current hr
    simp only [wp_bind, wp_readTask ht, wp_ite, wp_updateTask ht, wp_get, wp_pure]
    split
    · rw [wp_readTask (k.tasks_setTask_self current _), Bool.true_or, Bool.true_or]
    · trivial

/-- A tick wakes the sleepers that are due, and asks for `Schedule` when there was one. -/
theorem wp_tickBody_order (h : Sound k loc)
    (hcur : ∀ q, k.running c = some q → loc q ≠ some (.sleeping c) ∧ ∃ t, k.tasks q = some t)
    {E : Fault → Kernel → Prop} :
    wp (tickBody P c) (fun b k' => ∃ due,
      k.Roused c ((k.cpuSchedulers c).localTick + 1) due k' ∧ (due ≠ [] → b = true) ∧
      ∀ p ∈ due, ∃ t, k'.tasks p = some t ∧ t.status = .kReady) E k := by
  set d : CpuSchedData := { k.cpuSchedulers c with localTick := (k.cpuSchedulers c).localTick + 1 }
    with hd
  have hcount : Awakened (.sleeping c) k loc (k.setSched c d) loc :=
    Awakened.setCounters h rfl rfl rfl
  have hself : (k.setSched c d).cpuSchedulers c = d := Kernel.cpuSchedulers_setSched_self k c d
  simp only [tickBody, wp_bind, wp_modifySched, wp_get, ← hd]
  refine wp_mono (wp_and
    (wp_wakeSleepers P (E := E) hcount.sound _ (Nat.lt_succ_self _) (fun q hq => (hcur q hq).1))
    (wp_wakeSleepers_order (E := E) hcount.sound _ (Nat.lt_succ_self _)
      (fun q hq => (hcur q hq).1))) ?_ (fun _ _ he => he.1)
  rintro b k₁ ⟨⟨loc₁, ha⟩, due, hr, hb⟩
  have hcur₁ : ∀ q, k₁.running c = some q → ∃ t, k₁.tasks q = some t := by
    intro q hq
    rw [ha.running] at hq
    obtain ⟨-, t, ht⟩ := hcur q hq
    obtain ⟨t', ht', -⟩ := ha.only.same q t ht
    exact ⟨t', ht'⟩
  -- whoever was due is in no heap any more
  have hready : ∀ p ∈ due, ∃ t, k₁.tasks p = some t ∧ t.status = .kReady := by
    intro p hp
    have hold : p ∈ (k.setSched c d).slot (.sleeping c) :=
      hr.removed.mem_iff.mpr (List.mem_append_left _ hp)
    have hnodup : ((k.setSched c d).slot (.sleeping c)).Nodup :=
      hcount.sound.located.nodup (.sleeping c)
    refine ha.woken p ((hcount.sound.located.mem_iff _ p).mp hold) ?_
    intro hstill
    have hnew : p ∈ (k₁.cpuSchedulers c).sleepingTasks := (ha.sound.located.mem_iff _ p).mpr hstill
    exact List.disjoint_of_nodup_append (hr.removed.nodup_iff.mp hnodup) hp hnew
  have hpre : wp (chargeTick c b) (fun b' _ => due ≠ [] → b' = true) E k₁ := by
    cases hdue : b with
    | false =>
      have hnil : ¬ due ≠ [] := by
        rw [← hb, hdue]
        exact Bool.false_ne_true
      exact (wp_chargeTick (E := E) ha.sound false hcur₁).imp (fun _ _ _ hne => absurd hne hnil)
    | true =>
      exact (wp_chargeTick_preempt (E := E) hcur₁).imp (fun _ _ hq _ => hq)
  refine wp_mono (wp_and (wp_and (wp_chargeTick (E := E) ha.sound b hcur₁) hpre)
    (aloof_clocks.chargeTick c b k₁)) ?_ (fun _ _ he => he.1.1)
  rintro b' k₂ ⟨⟨hch, hpreempt⟩, hkeep⟩
  have hwake : k₂.wakeTick = k₁.wakeTick := congrArg Prod.fst hkeep
  rw [hself] at hr
  refine ⟨due, ⟨?_, hr.reached, ?_, hr.sorted, ?_, ?_, hwake.trans hr.wakeTick, ?_⟩, hpreempt, ?_⟩
  · have hremoved := hr.removed
    rw [hself] at hremoved
    rw [hch.scheds]
    exact hremoved
  · rw [hch.scheds]
    exact hr.rest
  · intro policy
    rw [hch.scheds, hr.queued policy, hself]
    rfl
  · rw [hch.scheds, hr.time]
  · intro c' hc
    rw [hch.scheds, hr.others c' hc, k.cpuSchedulers_setSched_ne c d hc]
  · intro p hp
    obtain ⟨t, ht, hst⟩ := hready p hp
    obtain ⟨t', ht', hst'⟩ := hch.status p t ht
    exact ⟨t', ht', hst'.trans hst⟩

theorem wp_sleepBody_alarms (h : Sound k loc) (ht : k.tasks p = some t) (hrun : t.status = .kRunning)
    (hthread : ∀ c', k.idle c' ≠ some p) (ms : BitVec 64) {E : Fault → Kernel → Prop} :
    wp (sleepBody P c p ms) (fun _ k' => k'.alarms = Function.update k.alarms c
      ((k.alarms c).set p ((k.cpuSchedulers c).localTick + sleepTicks P ms))) E k := by
  refine wp_mono (wp_and (wp_sleepBody P (E := E) h ht hrun hthread ms)
    (wp_sleepBody_wakeTick (E := E) ht ms)) ?_ (fun _ _ he => he.1)
  rintro _ k' ⟨⟨loc', hs⟩, hwake, htime, hothers⟩
  have hold : ∀ c', p ∉ (k.cpuSchedulers c').sleepingTasks :=
    fun c' => h.located.not_mem (h.loc_of_running ht hrun) (.sleeping c')
  have hmem : ∀ q, q ∈ (k'.cpuSchedulers c).sleepingTasks ↔
      q = p ∨ q ∈ (k.cpuSchedulers c).sleepingTasks := by
    intro q
    have hnew : q ∈ (k'.cpuSchedulers c).sleepingTasks ↔ loc' q = some (.sleeping c) :=
      hs.sound.located.mem_iff (.sleeping c) q
    have hwas : q ∈ (k.cpuSchedulers c).sleepingTasks ↔ loc q = some (.sleeping c) :=
      h.located.mem_iff (.sleeping c) q
    by_cases hq : q = p
    · rw [hnew, hq, hs.loc_self]
      simp
    · rw [hnew, hwas, hs.loc_ne q hq]
      simp [hq]
  funext c'
  by_cases hc : c' = c
  · subst hc
    rw [Function.update_self]
    simp only [Kernel.alarms, Alarms.set, Alarms.mk.injEq, htime, true_and]
    ext ⟨q, w⟩
    simp only [Set.mem_ofPred_eq, Set.mem_insert_iff, Prod.mk.injEq, hmem, hwake]
    by_cases hq : q = p
    · subst hq
      simp [hold c', eq_comm]
    · simp [hq]
  · rw [Function.update_of_ne hc]
    simp only [Kernel.alarms, hothers c' hc, Alarms.mk.injEq, hwake, true_and]
    ext ⟨q, w⟩
    refine and_congr_right ?_
    intro hq
    have hne : q ≠ p := by
      rintro rfl
      exact hold c' hq
    rw [Function.update_of_ne hne]

end Rousing

/-- A sleeping task is in the heap of some core. -/
def Bedded (k : Kernel) (loc : Ptr → Option Slot) : Prop :=
  ∀ p t, k.tasks p = some t → t.status = .kSleeping → ∃ c, loc p = some (.sleeping c)

namespace Bedded

theorem scheduled {current next : Ptr} (h : Bedded k loc) (ht : k.tasks current = some t)
    (hs : Scheduled c current t next k loc k' loc') : Bedded k' loc' := by
  intro q u hu hst
  obtain ⟨v, hv, hstatus, hloc⟩ := hs.of_waiting ht hu (by rw [hst]; nofun) (by rw [hst]; nofun)
  rw [hloc]
  exact h q v hv (hstatus.trans hst)

theorem awakened {s : Slot} (h : Bedded k loc) (ha : Awakened s k loc k' loc') : Bedded k' loc' := by
  intro q u hu hst
  by_cases hs : loc q = some s
  · by_cases hs' : loc' q = some s
    · obtain ⟨v, hv, hag⟩ := ha.sound.agrees q s hs'
      obtain rfl := Option.mem_unique hu hv
      cases s with
      | sleeping c => exact ⟨c, hs'⟩
      | ready | blocked => cases hst.symm.trans hag.1
    · obtain ⟨v, hv, hr⟩ := ha.woken q hs hs'
      rw [Option.mem_unique hu hv, hr] at hst
      cases hst
  · rw [ha.only.tasks q hs] at hu
    rcases ha.moved q with he | ⟨hl, -⟩
    · rw [he]
      exact h q u hu hst
    · exact absurd hl hs

theorem charged (h : Bedded k loc) (hch : Charged c loc k k') : Bedded k' loc := by
  intro q u hu hst
  obtain ⟨v, hv, -⟩ := hch.only.back hu
  obtain ⟨u', hu', he⟩ := hch.status q v hv
  rw [Option.mem_unique hu hu', he] at hst
  exact h q v hv hst

theorem suspended {s : Slot} (h : Bedded k loc) (hs : Suspended p s k loc k' loc') :
    Bedded k' loc' := by
  intro q u hu hst
  by_cases hq : q = p
  · subst hq
    obtain ⟨v, hv, hag⟩ := hs.sound.agrees q s hs.loc_self
    obtain rfl := Option.mem_unique hu hv
    rw [hs.loc_self]
    cases s with
    | sleeping c => exact ⟨c, rfl⟩
    | ready | blocked => cases hst.symm.trans hag.1
  · rw [hs.only.tasks q hq] at hu
    rw [hs.loc_ne q hq]
    exact h q u hu hst

theorem closed (c : CoreId) : Closed c Set.univ Bedded (fun _ _ => True) where
  scheduled _ h _ ht hs := h.scheduled ht hs
  awakened _ _ h ha := h.awakened ha
  charged h hch := h.charged hch
  suspended _ _ h _ _ hs := h.suspended hs
  parked _ _ _ := trivial
  diverges _ _ _ _ _ _ _ _ := trivial
  noScheduler _ _ _ := trivial

theorem joined (h : Bedded k loc) (htasks : ∀ q, q ≠ p → k'.tasks q = k.tasks q)
    (hloc : ∀ q, q ≠ p → loc' q = loc q) (hp : ∃ t, k'.tasks p = some t ∧ t.status = .kReady) :
    Bedded k' loc' := by
  intro q u hu hst
  by_cases hq : q = p
  · subst hq
    obtain ⟨v, hv, hr⟩ := hp
    rw [Option.mem_unique hu hv, hr] at hst
    cases hst
  · rw [htasks q hq] at hu
    rw [hloc q hq]
    exact h q u hu hst

end Bedded

section Operations

/-- The operations of tasks that stay, where every sleep ends before the tick counter wraps. -/
def SysOp.Timely (P : Platform) (k : Kernel) : SysOp → Prop
  | sleep c ms => ms ≠ 0 → (k.cpuSchedulers c).localTick.toNat + (sleepTicks P ms).toNat < 2^64
  | clone _ _ _ => False
  | exit _ _ => False
  | wait _ _ _ _ _ => False
  | _ => True

theorem SysOp.Timely.careful {op : SysOp} (h : op.Timely P k) : op.Careful k := by
  cases op with
  | exit c exitCode => exact h.elim
  | _ => trivial

/-- What the operation does to the alarm clocks of the cores. -/
def SysOp.alarmsAfter (P : Platform) (k : Kernel) : SysOp → CoreId → Alarms
  | tickUpdate c => Function.update k.alarms c (k.alarms c).tick
  | sleep c ms =>
    match k.running c with
    | some p => if ms = 0 then k.alarms else Function.update k.alarms c
        ((k.alarms c).set p ((k.cpuSchedulers c).localTick + sleepTicks P ms))
    | none => k.alarms
  | _ => k.alarms

theorem Stable.awake (h : Stable ∅ k loc) (c : CoreId) (q : Ptr) (hrun : k.running c = some q) :
    loc q ≠ some (.sleeping c) ∧ ∃ t, k.tasks q = some t := by
  obtain ⟨t, ht, -⟩ := h.runs c q hrun
  rw [h.loc_running (Set.notMem_empty c) hrun]
  exact ⟨nofun, t, ht⟩

theorem wp_tickUpdate_alarms (h : Stable ∅ k loc) :
    wp (tickUpdate P c : KernelM Unit)
      (fun _ k' => k'.alarms = Function.update k.alarms c (k.alarms c).tick) (fun _ _ => True) k := by
  simp only [tickUpdate, lockGuard_kernelM, run_kernelM, wp_bind]
  refine (wp_tickBody_order (E := fun _ _ => True) h.toSound (h.awake c)).imp ?_
  rintro b k₁ ⟨due, hr, -⟩
  rw [wp_ite, wp_pure]
  split
  · refine (Untimed.schedule c k₁).imp ?_
    intro _ k' hkeep
    exact (Kernel.alarms_of_clocks hkeep).trans hr.alarms
  · exact hr.alarms

theorem wp_sleep_alarms (h : Stable ∅ k loc) (hrun : k.running c = some p) (hidle : k.idle c ≠ some p)
    (ms : BitVec 64) :
    wp (sleep P c ms : KernelM Unit) (fun _ k' => k'.alarms = (SysOp.sleep c ms).alarmsAfter P k)
      (fun _ _ => True) k := by
  simp only [sleep, lockGuard_kernelM, run_kernelM, wp_bind, SysOp.alarmsAfter, hrun]
  refine Closed.wp_runningTask h hrun hidle ?_
  rw [wp_ite]
  split
  · refine (Untimed.schedule c k).imp ?_
    intro _ k' hkeep
    exact Kernel.alarms_of_clocks hkeep
  · obtain ⟨t, ht, hst⟩ := h.running_of_ne_idle hrun hidle
    rw [wp_bind]
    refine (wp_sleepBody_alarms (E := fun _ _ => True) h.toSound ht hst
      (h.ne_idle hrun hidle) ms).imp ?_
    intro _ k₁ hset
    refine (Untimed.schedule c k₁).imp ?_
    intro _ k' hkeep
    exact (Kernel.alarms_of_clocks hkeep).trans hset

theorem wp_initBody_alarms (h : Stable ∅ k loc) (hp : k.tasks p = none) (hc : k.Uninitialised c) :
    wp (initBody c p) (fun _ k' => k'.alarms = k.alarms) (fun _ _ => True) k := by
  have hout : ∀ c', p ∉ (k.cpuSchedulers c').sleepingTasks :=
    fun c' => h.located.not_mem (h.loc_of_none hp) (.sleeping c')
  set d : CpuSchedData := { k.cpuSchedulers c with schedulers := initSchedulers } with hd
  have hclocks : (k.setSched c d).clocks = k.clocks := Kernel.clocks_setSched rfl rfl
  have hset : ((k.setSched c d).setTask p idleTaskBlock).alarms = (k.setSched c d).alarms := by
    refine Kernel.alarms_setTask ?_ _
    intro c' hmem
    have hheaps : ((k.setSched c d).cpuSchedulers c').sleepingTasks =
        (k.cpuSchedulers c').sleepingTasks := congrFun (congrArg (fun x => x.2.1) hclocks) c'
    exact hout c' (hheaps ▸ hmem)
  simp only [initBody, wp_bind, wp_get, hc.schedulers, Option.isNone_none, if_true, wp_modifySched,
    wp_modify]
  refine (aloof_clocks.enqueueTask c .kIdle p _).imp ?_
  intro _ k' hkeep
  exact (Kernel.alarms_of_clocks hkeep).trans (hset.trans (Kernel.alarms_of_clocks hclocks))

theorem SysOp.Timely.wp_exec {op : SysOp} (hop : op.Timely P k) (hen : op.Enabled k)
    (h : Stable ∅ k loc) (hb : Bedded k loc) :
    wp (op.exec P : KernelM Unit) (fun _ k' => (∃ loc', Stable ∅ k' loc' ∧ Bedded k' loc') ∧
      k'.alarms = op.alarmsAfter P k) (fun _ _ => True) k := by
  have hclosed := Bedded.closed op.core
  have memory : ∀ {α : Type} (x : Memory.VmM α), wp (runVm x) (fun _ k' =>
      (∃ loc', Stable ∅ k' loc' ∧ Bedded k' loc') ∧ k'.alarms = k.alarms) (fun _ _ => True) k :=
    fun x => wp_runVm (fun _ _ _ => ⟨⟨loc, h.congr rfl rfl rfl, hb⟩, rfl⟩)
      (fun _ _ _ => ⟨⟨loc, h.congr rfl rfl rfl, hb⟩, rfl⟩) (fun _ _ _ => trivial)
  cases op with
  | initCurrentCore c i =>
    rw [SysOp.exec, Task.initCurrentCore, lockGuard_kernelM, run_kernelM]
    refine wp_mono (wp_and (wp_initBody (E := fun _ _ => True) h hen.2 hen.1)
      (wp_initBody_alarms h hen.2 hen.1)) ?_ (fun _ _ _ => trivial)
    rintro _ k' ⟨hi, halarms⟩
    obtain ⟨t, ht, hready, -⟩ := hi.task
    exact ⟨⟨loc, hi.stable, hb.joined hi.tasks_ne (fun _ _ => rfl) ⟨t, ht, hready⟩⟩, halarms⟩
  | addTask c task t =>
    have hu := h.unused_of_none hen.1
    have h₀ : Stable ∅ (k.setTask task t) loc := h.updateUnused hu (some t) rfl rfl rfl
    have hset : (k.setTask task t).alarms = k.alarms :=
      Kernel.alarms_setTask (fun c' => h.located.not_mem hu.queues (.sleeping c')) t
    simp only [SysOp.exec, run_kernelM, wp_bind, wp_modify]
    have hadd : wp (Task.addTask P c task : KernelM Unit)
        (fun _ k' => ∃ loc', Stable ∅ k' loc' ∧ Bedded k' loc') (fun _ _ => True)
        (k.setTask task t) := by
      apply wp_addTask P h₀ (hu.congr rfl rfl) (k.tasks_setTask_self task t) (fun _ _ => trivial)
      intro k' loc' ha
      obtain ⟨u, hu', hready, -⟩ := ha.task
      refine ⟨loc', ha.stable, hb.joined ?_ ha.loc_ne ⟨u, hu', hready⟩⟩
      intro q hq
      rw [ha.tasks_ne q hq, k.tasks_setTask_ne task t hq]
    refine wp_mono (wp_and hadd (aloof_clocks.addTask P c task _)) ?_ (fun _ _ _ => trivial)
    rintro _ k' ⟨hk', hkeep⟩
    exact ⟨hk', (Kernel.alarms_of_clocks hkeep).trans hset⟩
  | schedule c =>
    obtain ⟨p, hrun⟩ := hen
    exact wp_mono (wp_and (hclosed.wp_schedule_stable h hb hrun) (Untimed.schedule c k))
      (fun _ _ hk' => ⟨hk'.1, Kernel.alarms_of_clocks hk'.2⟩) (fun _ _ _ => trivial)
  | tickUpdate c =>
    obtain ⟨p, hrun⟩ := hen
    exact wp_mono (wp_and (hclosed.wp_tickUpdate P h hb hrun) (wp_tickUpdate_alarms h))
      (fun _ _ hk' => hk') (fun _ _ _ => trivial)
  | sleep c ms =>
    obtain ⟨p, hrun, hidle⟩ := hen
    exact wp_mono (wp_and (hclosed.wp_sleep P h hb hrun hidle trivial ms)
      (wp_sleep_alarms h hrun hidle ms)) (fun _ _ hk' => hk') (fun _ _ _ => trivial)
  | block c r =>
    obtain ⟨p, hrun, hidle⟩ := hen
    exact wp_mono (wp_and (hclosed.wp_block h hb hrun hidle r trivial) (Untimed.block c r k))
      (fun _ _ hk' => ⟨hk'.1, Kernel.alarms_of_clocks hk'.2⟩) (fun _ _ _ => trivial)
  | wakeup c r =>
    refine wp_mono (wp_and (hclosed.wp_wakeup h hb r) (Untimed.wakeup c r k)) ?_
      (fun _ _ _ => trivial)
    rintro _ k' ⟨⟨loc', h', hb', -⟩, hkeep⟩
    exact ⟨⟨loc', h', hb'⟩, Kernel.alarms_of_clocks hkeep⟩
  | findTask c pid =>
    simp only [SysOp.exec, Task.findTask, lockGuard_kernelM, run_kernelM, wp_bind, wp_get, wp_pure]
    exact ⟨⟨loc, h, hb⟩, rfl⟩
  | allocPage | vmCall =>
    simp only [SysOp.exec, run_kernelM, wp_bind, wp_pure]
    exact memory _
  | clone | exit | wait => exact hop.elim

theorem SysOp.alarmsAfter_sleep (P : Platform) (k : Kernel) (c : CoreId) (ms : BitVec 64) :
    (sleep c ms).alarmsAfter P k = k.alarms ∨ ms ≠ 0 ∧ ∃ p, (sleep c ms).alarmsAfter P k =
      Function.update k.alarms c
        ((k.alarms c).set p ((k.cpuSchedulers c).localTick + sleepTicks P ms)) := by
  simp only [SysOp.alarmsAfter]
  split
  · split
    · exact Or.inl rfl
    · rename_i p _ hms
      exact Or.inr ⟨hms, p, rfl⟩
  · exact Or.inl rfl

/-- Only the tick of a core advances its time and takes alarms out. -/
theorem SysOp.alarmsAfter_keeps {op : SysOp} (hop : op ≠ .tickUpdate c) :
    (op.alarmsAfter P k c).now = (k.alarms c).now ∧
      (k.alarms c).pending ⊆ (op.alarmsAfter P k c).pending := by
  cases op with
  | tickUpdate c' =>
    have hc : c ≠ c' := by
      rintro rfl
      exact hop rfl
    rw [SysOp.alarmsAfter, Function.update_of_ne hc]
    exact ⟨rfl, subset_rfl⟩
  | sleep c' ms =>
    rcases SysOp.alarmsAfter_sleep P k c' ms with he | ⟨-, p, he⟩
    · rw [he]
      exact ⟨rfl, subset_rfl⟩
    · rw [he]
      by_cases hc : c = c'
      · rw [hc, Function.update_self]
        exact ⟨rfl, Set.subset_insert _ _⟩
      · rw [Function.update_of_ne hc]
        exact ⟨rfl, subset_rfl⟩
  | _ => exact ⟨rfl, subset_rfl⟩

theorem SysOp.Timely.ahead {op : SysOp} (hop : op.Timely P k) (h : ∀ c, (k.alarms c).Ahead)
    (c : CoreId) : (op.alarmsAfter P k c).Ahead := by
  cases op with
  | tickUpdate c' =>
    rw [SysOp.alarmsAfter]
    by_cases hc : c = c'
    · rw [hc, Function.update_self]
      exact Alarms.Ahead.tick _
    · rw [Function.update_of_ne hc]
      exact h c
  | sleep c' ms =>
    rcases SysOp.alarmsAfter_sleep P k c' ms with he | ⟨hms, p, he⟩
    · rw [he]
      exact h c
    · rw [he]
      by_cases hc : c = c'
      · rw [hc, Function.update_self]
        refine (h c').set ?_
        have hfits := hop hms
        have hpos := toNat_sleepTicks P ms
        change (k.cpuSchedulers c').localTick < _
        rw [BitVec.lt_def, BitVec.toNat_add, Nat.mod_eq_of_lt hfits]
        omega
      · rw [Function.update_of_ne hc]
        exact h c
  | _ => exact h c

end Operations

/-- The task sleeps on core `c` until the tick `w`. -/
structure Kernel.Asleep (k : Kernel) (c : CoreId) (p : Ptr) (w : BitVec 64) : Prop where
  heap : p ∈ (k.cpuSchedulers c).sleepingTasks
  task : ∃ t, k.tasks p = some t ∧ t.status = .kSleeping ∧ t.schedInfo.wakeTick = w

section Runs

variable {w : BitVec 64}

theorem Placed.asleep_iff (h : Placed k loc) : k.Asleep c p w ↔ (p, w) ∈ (k.alarms c).pending := by
  constructor
  · rintro ⟨hp, t, ht, -, hw⟩
    refine ⟨hp, ?_⟩
    rw [Kernel.wakeTick, ht]
    exact hw
  · rintro ⟨hp, hw⟩
    obtain ⟨t, ht, hst⟩ := h.tasks_of_mem (s := .sleeping c) hp
    rw [Kernel.wakeTick, ht] at hw
    exact ⟨hp, t, ht, hst, hw⟩

/-- What holds between the operations: the sleeping tasks are in the heaps, and all alarms
lie ahead. -/
theorem SysRun.alarms (h : SysRun P (fun k op => op.Timely P k) k) :
    (∃ loc, Stable ∅ k loc ∧ Bedded k loc) ∧ ∀ c, (k.alarms c).Ahead := by
  induction h with
  | start =>
    refine ⟨⟨_, Stable.empty, fun p t ht => ?_⟩, fun c x hx => ?_⟩
    · cases ht
    · cases hx.1
  | step op _ hen hop hexec ih =>
    obtain ⟨⟨loc, hst, hb⟩, hahead⟩ := ih
    obtain ⟨hk', halarms⟩ := (hop.wp_exec hen hst hb).of_ok hexec
    refine ⟨hk', ?_⟩
    rw [halarms]
    exact hop.ahead hahead

/-- One operation: until its tick has come the task sleeps on, and then it does not. -/
theorem SysRun.asleep_step {op : SysOp} (h : SysRun P (fun k op => op.Timely P k) k)
    (hen : op.Enabled k) (hop : op.Timely P k) (hexec : (op.exec P : KernelM Unit) k = .ok () k')
    (hp : k.Asleep c p w) :
    if (k'.cpuSchedulers c).localTick < w then k'.Asleep c p w
    else ∃ t, k'.tasks p = some t ∧ t.status ≠ .kSleeping := by
  obtain ⟨⟨loc, hst, hb⟩, hahead⟩ := h.alarms
  obtain ⟨⟨loc', hst', hb'⟩, halarms⟩ := (hop.wp_exec hen hst hb).of_ok hexec
  have hmem := hst.toPlaced.asleep_iff.mp hp
  rw [hst'.toPlaced.asleep_iff]
  change if (k'.alarms c).now < w then _ else _
  rw [halarms]
  by_cases htick : op = .tickUpdate c
  · subst htick
    simp only [SysOp.alarmsAfter, Function.update_self] at halarms ⊢
    split
    · rename_i hlater
      exact ⟨hmem, hlater⟩
    · rename_i hdue
      obtain ⟨_, _, hl⟩ := (h.mono fun _ _ hA => hA.careful).invariant
      obtain ⟨-, -, hpersists⟩ := SysOp.effect_of_exec hst hl hen hop.careful hexec
      obtain ⟨t, ht, -⟩ := hp.task
      obtain ⟨t', ht', -⟩ := Persists.same hpersists p t ht
      refine ⟨t', ht', fun hsleep => ?_⟩
      -- it would be in the heap of some core, but that of `c` has let it go
      obtain ⟨c', hl'⟩ := hb' p t' ht' hsleep
      have hpend : (p, k'.wakeTick p) ∈ (k'.alarms c').pending :=
        ⟨hst'.toPlaced.mem_of_loc hl', rfl⟩
      rw [halarms] at hpend
      by_cases hc : c' = c
      · rw [hc, Function.update_self] at hpend
        have hw : k'.wakeTick p = w := hpend.1.2.symm.trans hmem.2
        rw [hw] at hpend
        exact hdue hpend.2
      · rw [Function.update_of_ne hc] at hpend
        have hcore := (hst.located.mem_iff (.sleeping c') p).mp hpend.1
        rw [(hst.located.mem_iff (.sleeping c) p).mp hp.heap] at hcore
        cases hcore
        exact hc rfl
  · obtain ⟨hnow, hpending⟩ := SysOp.alarmsAfter_keeps (P := P) (k := k) htick
    rw [hnow, if_pos (hahead c _ hmem)]
    exact hpending hmem

theorem SysRun.asleep_run (h : SysRun P (fun k op => op.Timely P k) k) (hp : k.Asleep c p w)
    (hreach : Reached (SysOp.next P)
      (fun k op => op.Enabled k ∧ op.Timely P k ∧ (k.cpuSchedulers c).localTick < w) k k') :
    SysRun P (fun k op => op.Timely P k) k' ∧
      if (k'.cpuSchedulers c).localTick < w then k'.Asleep c p w
      else ∃ t, k'.tasks p = some t ∧ t.status ≠ .kSleeping := by
  apply hreach.invariant (I := fun k' => SysRun P (fun k op => op.Timely P k) k' ∧
    if (k'.cpuSchedulers c).localTick < w then k'.Asleep c p w
    else ∃ t, k'.tasks p = some t ∧ t.status ≠ .kSleeping)
  · obtain ⟨⟨loc, hst, -⟩, hahead⟩ := h.alarms
    have hlater : (k.cpuSchedulers c).localTick < w := hahead c _ (hst.toPlaced.asleep_iff.mp hp)
    rw [if_pos hlater]
    exact ⟨h, hp⟩
  · rintro k₁ op k₂ ⟨hk₁, hcur⟩ ⟨hen, hop, hlater⟩ hnext
    rw [SysOp.next_eq_some] at hnext
    rw [if_pos hlater] at hcur
    exact ⟨hk₁.step op hen hop hnext, hk₁.asleep_step hen hop hnext hcur⟩

theorem SysRun.asleep_of_sleep {ms : BitVec 64} (h : SysRun P (fun k op => op.Timely P k) k)
    (hms : ms ≠ 0) (hen : (SysOp.sleep c ms).Enabled k) (hop : (SysOp.sleep c ms).Timely P k)
    (hrun : k.running c = some p) (hexec : (sleep P c ms : KernelM Unit) k = .ok () k') :
    k'.Asleep c p ((k.cpuSchedulers c).localTick + sleepTicks P ms) := by
  obtain ⟨⟨loc, hst, hb⟩, -⟩ := h.alarms
  obtain ⟨⟨loc', hst', -⟩, halarms⟩ := (hop.wp_exec hen hst hb).of_ok hexec
  rw [hst'.toPlaced.asleep_iff, halarms]
  simp only [SysOp.alarmsAfter, hrun, hms, if_false, Function.update_self]
  exact Or.inl rfl

end Runs

/-- In every run of sleeps and ticks a task that went to sleep sleeps as long as the tick of
its core is below its wake tick, and not after the tick that reaches it. Every tick takes out
of the heap exactly the tasks that are due, in the order of their wake ticks, enqueues each
in the scheduler of its policy, and goes on with `Schedule` when there was one. -/
theorem sleepers_wake_on_time (h : SysRun P (fun k op => op.Timely P k) k) (c : CoreId) :
    (∀ p ms k', ms ≠ 0 → (SysOp.sleep c ms).Enabled k → (SysOp.sleep c ms).Timely P k →
      k.running c = some p → (sleep P c ms : KernelM Unit) k = .ok () k' →
      k'.Asleep c p ((k.cpuSchedulers c).localTick + sleepTicks P ms)) ∧
    (∀ p w k', k.Asleep c p w → Reached (SysOp.next P)
        (fun k op => op.Enabled k ∧ op.Timely P k ∧ (k.cpuSchedulers c).localTick < w) k k' →
      if (k'.cpuSchedulers c).localTick < w then k'.Asleep c p w
      else ∃ t, k'.tasks p = some t ∧ t.status ≠ .kSleeping) ∧
    (k.running c ≠ none → ∃ due b k₁, tickBody P c k = .ok b k₁ ∧
      k.Roused c ((k.cpuSchedulers c).localTick + 1) due k₁ ∧
      (∀ policy, ((k.cpuSchedulers c).schedulers policy).isSome = true) ∧
      (due ≠ [] → (tickUpdate P c : KernelM Unit) k = (schedule c : KernelM Unit) k₁)) := by
  refine ⟨?_, ?_, ?_⟩
  · intro p ms k' hms hen hop hrun hexec
    exact h.asleep_of_sleep hms hen hop hrun hexec
  · intro p w k' hp hreach
    exact (h.asleep_run hp hreach).2
  · intro hrun
    obtain ⟨⟨loc, hst, -⟩, -⟩ := h.alarms
    have hcareful := h.mono fun _ _ hA => hA.careful
    obtain ⟨b, k₁, hbody, due, hr, hb, -⟩ := (wp_tickBody_order (P := P) (c := c)
      (E := fun _ _ => False) hst.toSound (hst.awake c)).returns
    refine ⟨due, b, k₁, hbody, hr, hcareful.equipped.scheduler hrun, ?_⟩
    intro hne
    apply wp.eq_result
    rw [tickUpdate, lockGuard_kernelM, run_kernelM, wp_bind, wp_of_ok hbody, hb hne]
    cases hsched : (schedule c : KernelM Unit) k₁ with
    | ok a k₂ => exact (wp_of_ok hsched).mpr rfl
    | error e k₂ => exact (wp_of_error hsched).mpr rfl

/-- Task 1 sleeps for two ticks, and is awake after the second one. -/
theorem sleepers_wake_on_time_example :
    ∃ k k', SysRun (presetPlatform true) (fun k op => op.Timely (presetPlatform true) k) k ∧
      k.Asleep 0 1 2 ∧ Reached (SysOp.next (presetPlatform true)) (fun k op => op.Enabled k ∧
        op.Timely (presetPlatform true) k ∧ (k.cpuSchedulers 0).localTick < 2) k k' ∧
      (k'.cpuSchedulers 0).localTick = 2 ∧ ∃ t, k'.tasks 1 = some t ∧ t.status ≠ .kSleeping := by
  suffices hreach : ∃ k k', SysRun (presetPlatform true)
      (fun k op => op.Timely (presetPlatform true) k) k ∧ k.Asleep 0 1 2 ∧
      Reached (SysOp.next (presetPlatform true)) (fun k op => op.Enabled k ∧
        op.Timely (presetPlatform true) k ∧ (k.cpuSchedulers 0).localTick < 2) k k' ∧
      (k'.cpuSchedulers 0).localTick = 2 by
    obtain ⟨k, k', h, hasleep, hreach, htick⟩ := hreach
    have hawake := (sleepers_wake_on_time h 0).2.1 1 2 k' hasleep hreach
    rw [htick, if_neg (by decide)] at hawake
    exact ⟨k, k', h, hasleep, hreach, htick, hawake⟩
  have h₀ := SysRun.start (P := presetPlatform true)
    (A := fun k op => op.Timely (presetPlatform true) k)
  have h₁ := h₀.step (.initCurrentCore 0 0) ⟨⟨rfl, rfl, fun _ => rfl⟩, rfl⟩ trivial rfl
  have h₂ := h₁.step (.addTask 0 1 {}) ⟨rfl, rfl, rfl, rfl⟩ trivial rfl
  have h₃ := h₂.step (.schedule 0) ⟨0, rfl⟩ trivial rfl
  have h₄ := h₃.step (.sleep 0 2) ⟨1, rfl, by decide⟩ (fun _ => by decide) rfl
  have hasleep := (sleepers_wake_on_time h₃ 0).1 1 2 _ (by decide) ⟨1, rfl, by decide⟩
    (fun _ => by decide) rfl rfl
  refine ⟨_, _, h₄, hasleep, (Reached.start.step (.tickUpdate 0) ⟨⟨0, rfl⟩, trivial, by decide⟩
    (SysOp.next_eq_some.mpr rfl)).step (.tickUpdate 0) ⟨⟨0, rfl⟩, trivial, by decide⟩
    (SysOp.next_eq_some.mpr rfl), rfl⟩

end NaiLongKernel.Task
