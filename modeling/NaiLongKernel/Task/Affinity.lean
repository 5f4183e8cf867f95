import NaiLongKernel.Task.Lifetime
import NaiLongKernel.Task.QueueOrder

/-!
# Where `AddTask` puts a task

`AddTask` takes the first core that the affinity mask allows, whether it has been
initialised or not, and the calling core for the mask of all ones. A core that has not been
initialised has no schedulers, and the task is in no queue then; and the scheduler of the
idle policy has room for one task, which a new one replaces.
-/
namespace NaiLongKernel.Task

open Foundation

variable {P : Platform} {k k' : Kernel} {p : Ptr} {t : TaskControlBlock} {c : CoreId}

def Scheduler.members (s : Scheduler) : List Ptr := s.queue ++ s.held.toList

theorem Scheduler.members_enqueue (s : Scheduler) (p : Ptr) :
    (s.enqueue p).members = if s.isIdle = true then [p] else s.members ++ [p] := by
  cases s <;> simp [Scheduler.members, Scheduler.enqueue, Scheduler.queue, Scheduler.held,
    Scheduler.isIdle]

namespace Kernel

/-- The tasks in the scheduler of a policy of a core, none where there is no scheduler. -/
def enqueued (k : Kernel) (c : CoreId) (policy : SchedPolicy) : List Ptr :=
  (((k.cpuSchedulers c).schedulers policy).map Scheduler.members).getD []

/-- The core has its schedulers: it has run `InitCurrentCore`. -/
def Online (k : Kernel) (c : CoreId) : Prop :=
  ∀ policy, ((k.cpuSchedulers c).schedulers policy).isSome = true

/-- Some of the cores have run `InitCurrentCore`. -/
structure PartlyOnline (k : Kernel) : Prop where
  kinds : ∀ c, (k.cpuSchedulers c).Kinds
  all : ∀ c policy, ((k.cpuSchedulers c).schedulers policy).isSome = true → k.Online c

theorem PartlyOnline.setTask (h : k.PartlyOnline) (p : Ptr) (t : TaskControlBlock) :
    (k.setTask p t).PartlyOnline := ⟨h.kinds, h.all⟩

end Kernel

section Reachable

variable {op : SysOp} {loc : Ptr → Option Slot}

theorem SysOp.effect_schedulers (he : op.Effect P k k') (c : CoreId) :
    k'.Online c ∨ ∀ policy, ((k'.cpuSchedulers c).schedulers policy).isSome =
      ((k.cpuSchedulers c).schedulers policy).isSome := by
  cases he.outcome with
  | @initialised c₀ _ _ _ hi =>
    by_cases hc : c = c₀
    · rw [hc]
      exact Or.inl hi.scheds
    · exact Or.inr fun policy => by rw [hi.scheds_ne c hc]
  | added ha => exact Or.inr (ha.scheds c)
  | cloned _ _ _ hcl _ => exact Or.inr (hcl.scheds c)
  | departed _ _ hd hp => exact Or.inr fun policy => by rw [hp.scheds c policy, hd.rest]
  | reaped _ hr => exact Or.inr fun _ => by rw [hr.2.2.cpuSchedulers]
  | persists hp => exact Or.inr (hp.scheds c)
  | rest => exact Or.inr fun _ => rfl

theorem SysRun.partlyOnline (h : SysRun P (fun k op => op.Careful k) k) : k.PartlyOnline := by
  obtain ⟨loc, hst, -⟩ := h.invariant
  refine ⟨hst.kinds, ?_⟩
  apply h.induction (I := fun k => ∀ c policy,
    ((k.cpuSchedulers c).schedulers policy).isSome = true → k.Online c) (fun _ _ hA => hA)
  · intro c policy hsome
    cases hsome
  · intro k loc op k' _ _ hk _ _ he c policy hsome
    rcases SysOp.effect_schedulers he c with hon | hsame
    · exact hon
    · rw [hsame] at hsome
      intro policy'
      rw [hsame]
      exact hk c policy hsome policy'

theorem Unused.not_enqueued (hu : Unused k loc p) (hp : Placed k loc) (c : CoreId)
    (policy : SchedPolicy) : p ∉ k.enqueued c policy := by
  intro hmem
  cases hs : (k.cpuSchedulers c).schedulers policy with
  | none => simp [Kernel.enqueued, hs] at hmem
  | some s =>
    simp only [Kernel.enqueued, hs, Option.map_some, Option.getD_some, Scheduler.members,
      List.mem_append, Option.mem_toList] at hmem
    rcases hmem with hq | hheld
    · rw [← Kernel.slot_ready hs] at hq
      exact hp.located.not_mem hu.queues _ hq
    · cases hidle : s.isIdle with
      | false =>
        rw [s.held_of_not_isIdle hidle] at hheld
        cases hheld
      | true =>
        rw [(hp.kinds c policy s hs).mp hidle] at hs
        exact hu.held c ((Kernel.held_eq hs).trans hheld)

end Reachable

def coreBit (mask : BitVec 64) (c : CoreId) : Bool := mask &&& (1#64 <<< c) != 0

/-- The mask of all ones allows every core. -/
def affinityAllows (mask : BitVec 64) (c : CoreId) : Bool :=
  mask == BitVec.allOnes 64 || coreBit mask c

/-- The task is ready, in one scheduler of a core that it may run on, and all tasks that
were in a scheduler are there. -/
structure Kernel.Landed (k : Kernel) (p : Ptr) (t : TaskControlBlock) (k' : Kernel) : Prop where
  ready : ∃ t', k'.tasks p = some t' ∧ t'.status = .kReady
  once : ∃ c₀, affinityAllows t.cpuAffinity c₀ = true ∧ k'.Online c₀ ∧ ∀ c policy,
    (k'.enqueued c policy).count p = if c = c₀ ∧ policy = t.policy then 1 else 0
  kept : ∀ c policy, (k.enqueued c policy).Sublist (k'.enqueued c policy)

/-- The calling core for the mask of all ones, the first core with its bit set for any other:
it is online, and has room when the task is of the idle policy. -/
def Kernel.Admits (P : Platform) (k : Kernel) (c : CoreId) (t : TaskControlBlock) : Prop :=
  ∃ c₀, (t.cpuAffinity = BitVec.allOnes 64 ∧ c₀ = c ∨
      t.cpuAffinity ≠ BitVec.allOnes 64 ∧ c₀ < P.maxCoreCount ∧ coreBit t.cpuAffinity c₀ = true ∧
        ∀ i < c₀, coreBit t.cpuAffinity i = false) ∧
    k.Online c₀ ∧ (t.policy = .kIdle → k.held c₀ = none)

theorem targetCore_allOnes {mask : BitVec 64} (h : mask = BitVec.allOnes 64) :
    targetCore P c mask = c := if_pos h

theorem targetCore_of_first {mask : BitVec 64} {c₀ : CoreId} (h : mask ≠ BitVec.allOnes 64)
    (hc : c₀ < P.maxCoreCount) (hbit : coreBit mask c₀ = true)
    (hfirst : ∀ i < c₀, coreBit mask i = false) : targetCore P c mask = c₀ := by
  have hfind : (List.range P.maxCoreCount).find? (fun i => mask &&& (1#64 <<< i) != 0) = some c₀ := by
    rw [List.find?_range_eq_some]
    refine ⟨hbit, List.mem_range.mpr hc, ?_⟩
    intro j hj
    have hj' : (mask &&& (1#64 <<< j) != 0) = false := hfirst j hj
    rw [hj']
    rfl
  rw [targetCore, if_neg h, hfind]
  rfl

theorem exists_first_core {mask : BitVec 64} {c₁ : CoreId} (hc : c₁ < P.maxCoreCount)
    (hbit : coreBit mask c₁ = true) : ∃ c₀ < P.maxCoreCount, coreBit mask c₀ = true ∧
      ∀ i < c₀, coreBit mask i = false := by
  have hex : ∃ c₀, coreBit mask c₀ = true := ⟨c₁, hbit⟩
  refine ⟨Nat.find hex, (Nat.find_min' hex hbit).trans_lt hc, Nat.find_spec hex, ?_⟩
  intro i hi
  exact Bool.eq_false_iff.mpr (Nat.find_min hex hi)

theorem wp_addTask_enqueued (ht : k.tasks p = some t) (hst : t.status = .kUnInit)
    (hkinds : ∀ c, (k.cpuSchedulers c).Kinds) {E : Fault → Kernel → Prop} :
    wp (addTask P c p) (fun _ k' => (∃ t', k'.tasks p = some t' ∧ t'.status = .kReady) ∧
      (∀ c', k'.Online c' ↔ k.Online c') ∧
      ∀ c' policy, k'.enqueued c' policy =
        if c' = targetCore P c t.cpuAffinity ∧ policy = t.policy ∧
            ((k.cpuSchedulers c').schedulers policy).isSome = true then
          if policy = .kIdle then [p] else k.enqueued c' policy ++ [p]
        else k.enqueued c' policy) E k := by
  apply wp_addTask_enqueue P ht (fun _ hne => absurd hst hne)
  set target := targetCore P c t.cpuAffinity
  set k₁ : Kernel := { k.setTask p ((k.identified t).setStatus .kReady) with
    pidAllocator := k.pidAfter t, taskTable := tableSet (k.pidFor t) p k.taskTable }
  have ht₁ : k₁.tasks p = some ((k.identified t).setStatus .kReady) := k.tasks_setTask_self p _
  refine (wp_enqueueTask_schedulers ht₁ t.policy).imp ?_
  rintro _ k' ⟨hqueue, hothers, t', ht', hready⟩
  have hqueue' : ∀ policy, (k'.cpuSchedulers target).schedulers policy =
      ((k.cpuSchedulers target).schedulers policy).map
        fun s => if policy = t.policy then s.enqueue p else s := hqueue
  have hothers' : ∀ c', c' ≠ target → k'.cpuSchedulers c' = k.cpuSchedulers c' := hothers
  refine ⟨⟨t', ht', hready⟩, ?_, ?_⟩
  · intro c'
    by_cases hc : c' = target
    · subst hc
      simp only [Kernel.Online, hqueue', Option.isSome_map]
    · rw [Kernel.Online, Kernel.Online, hothers' c' hc]
  · intro c' policy
    by_cases hc : c' = target
    · subst hc
      simp only [Kernel.enqueued, hqueue', true_and]
      cases hs : (k.cpuSchedulers target).schedulers policy with
      | none => simp
      | some s =>
        have hidle := hkinds target policy s hs
        by_cases hp : policy = t.policy
        · simp [← hp, s.members_enqueue, hidle]
        · simp [hp]
    · rw [if_neg (fun h => hc h.1), Kernel.enqueued, hothers' c' hc]
      rfl

/-- A new task that may run on some core that is online lands in a queue of a core that it
may run on, with no other task lost, exactly when the core that the mask selects admits it. -/
theorem addTask_lands_iff (hk : k.PartlyOnline) (ht : k.tasks p = some t)
    (hst : t.status = .kUnInit) (hfresh : ∀ c policy, p ∉ k.enqueued c policy)
    (hallow : ∃ c₁ < P.maxCoreCount, affinityAllows t.cpuAffinity c₁ = true ∧ k.Online c₁) :
    ∃ k', (addTask P c p : KernelM Unit) k = .ok () k' ∧ (k.Landed p t k' ↔ k.Admits P c t) := by
  obtain ⟨_, k', hrun, hready, honline, hqueue⟩ := (wp_addTask_enqueued (P := P) (c := c)
    (E := fun _ _ => False) ht hst hk.kinds).returns
  refine ⟨k', hrun, ?_⟩
  have hnone : ∀ c policy, (k.enqueued c policy).count p = 0 :=
    fun c policy => List.count_eq_zero.mpr (hfresh c policy)
  constructor
  · rintro ⟨-, ⟨c₁, -, -, hcount⟩, hkept⟩
    -- the task is somewhere, so the selected core has schedulers
    have hon : k.Online (targetCore P c t.cpuAffinity) := by
      by_contra hoff
      have hno : ((k.cpuSchedulers (targetCore P c t.cpuAffinity)).schedulers t.policy).isSome ≠
          true := fun hsome => hoff (hk.all _ _ hsome)
      have hone := hcount c₁ t.policy
      rw [if_pos ⟨rfl, rfl⟩, hqueue, if_neg, hnone] at hone
      · exact absurd hone (by decide)
      · rintro ⟨rfl, -, hsome⟩
        exact hno hsome
    refine ⟨targetCore P c t.cpuAffinity, ?_, hon, ?_⟩
    · by_cases hones : t.cpuAffinity = BitVec.allOnes 64
      · exact Or.inl ⟨hones, targetCore_allOnes hones⟩
      · obtain ⟨c₁, hlt, hall, -⟩ := hallow
        have hbit : coreBit t.cpuAffinity c₁ = true := by
          rcases (Bool.or_eq_true _ _).mp hall with he | hbit
          · exact absurd (eq_of_beq he) hones
          · exact hbit
        obtain ⟨c₀, hlt₀, hbit₀, hfirst⟩ := exists_first_core hlt hbit
        rw [targetCore_of_first hones hlt₀ hbit₀ hfirst]
        exact Or.inr ⟨hones, hlt₀, hbit₀, hfirst⟩
    · intro hidle
      cases hheld : k.held (targetCore P c t.cpuAffinity) with
      | none => rfl
      | some q =>
        obtain ⟨s, hs, hq⟩ := Option.bind_eq_some_iff.mp hheld
        have hmem : q ∈ k.enqueued (targetCore P c t.cpuAffinity) .kIdle := by
          simp [Kernel.enqueued, hs, Scheduler.members, hq]
        have hstill := (hkept _ _).subset hmem
        rw [hqueue, if_pos ⟨rfl, hidle.symm, hon _⟩, if_pos rfl, List.mem_singleton] at hstill
        exact absurd (hstill ▸ hmem) (hfresh _ _)
  · rintro ⟨c₀, hsel, hon, hroom⟩
    have htarget : targetCore P c t.cpuAffinity = c₀ := by
      rcases hsel with ⟨hones, rfl⟩ | ⟨hones, hlt, hbit, hfirst⟩
      · exact targetCore_allOnes hones
      · exact targetCore_of_first hones hlt hbit hfirst
    have hallows : affinityAllows t.cpuAffinity c₀ = true := by
      rcases hsel with ⟨hones, -⟩ | ⟨-, -, hbit, -⟩ <;> simp [affinityAllows, *]
    rw [htarget] at hqueue
    refine ⟨hready, ⟨c₀, hallows, (honline c₀).mpr hon, ?_⟩, ?_⟩
    · intro c' policy
      rw [hqueue]
      by_cases hcp : c' = c₀ ∧ policy = t.policy
      · obtain ⟨rfl, rfl⟩ := hcp
        have hin : c' = c' ∧ t.policy = t.policy ∧
            ((k.cpuSchedulers c').schedulers t.policy).isSome = true := ⟨rfl, rfl, hon _⟩
        have hself : c' = c' ∧ t.policy = t.policy := ⟨rfl, rfl⟩
        rw [if_pos hin, if_pos hself]
        split
        · exact List.count_singleton_self
        · rw [List.count_append, hnone, List.count_singleton_self]
      · rw [if_neg (fun h => hcp ⟨h.1, h.2.1⟩), if_neg hcp, hnone]
    · intro c' policy
      rw [hqueue]
      split
      · rename_i hcp
        obtain ⟨rfl, rfl, -⟩ := hcp
        split
        · rename_i hidle
          -- the slot was empty
          have hempty : k.enqueued c' t.policy = [] := by
            obtain ⟨s, hs⟩ := Option.isSome_iff_exists.mp (hon t.policy)
            have hkind := (hk.kinds c' t.policy s hs).mpr hidle
            have hheld := hroom hidle
            rw [hidle] at hs
            simp only [Kernel.held, hs, Option.bind_some] at hheld
            simp [Kernel.enqueued, hidle, hs, Scheduler.members, hheld, s.queue_of_isIdle hkind]
          rw [hempty]
          exact List.nil_sublist _
        · exact List.sublist_append_left _ _
      · exact List.Sublist.refl _

/-- Core 1 is online, and a task that may run on it and on no other core is added there. -/
theorem addTask_lands_iff_example :
    ∃ k k', SysRun (presetPlatform true) (fun k op => op.Careful k) k ∧
      (addTask (presetPlatform true) 1 11 : KernelM Unit) (k.setTask 11 { cpuAffinity := 2 }) =
        .ok () k' ∧
      (k.setTask 11 { cpuAffinity := 2 }).Landed 11 { cpuAffinity := 2 } k' := by
  have h₀ := SysRun.start (P := presetPlatform true) (A := fun k op => op.Careful k)
  have h₁ := h₀.step (.initCurrentCore 1 10) ⟨⟨rfl, rfl, fun _ => rfl⟩, rfl⟩ trivial rfl
  have hk := h₁.partlyOnline
  have hon : Kernel.Online _ 1 := hk.all 1 .kNormal rfl
  obtain ⟨loc, hst, -⟩ := h₁.invariant
  have hu := hst.unused_of_none (p := 11) rfl
  obtain ⟨k', hrun, hiff⟩ := addTask_lands_iff (P := presetPlatform true) (c := 1) (p := 11)
    (hk.setTask 11 { cpuAffinity := 2 })
    (Kernel.tasks_setTask_self _ _ _) rfl (hu.not_enqueued hst.toPlaced)
    ⟨1, by decide, by decide, hon⟩
  exact ⟨_, k', h₁, hrun, hiff.mpr
    ⟨1, Or.inr ⟨by decide, by decide, by decide, by decide⟩, hon, nofun⟩⟩

/-- Core 1 is online and core 0 is not. A task that may run on both is in no scheduler after
`AddTask`, and a task of the idle policy takes the place of the idle task. -/
theorem addTask_loses_task :
    ∃ k k' k'', SysRun (presetPlatform true) (fun k op => op.Careful k) k ∧ k.Online 1 ∧
      (addTask (presetPlatform true) 1 11 : KernelM Unit) (k.setTask 11 { cpuAffinity := 3 }) =
        .ok () k' ∧ ¬ (k.setTask 11 { cpuAffinity := 3 }).Landed 11 { cpuAffinity := 3 } k' ∧
      (addTask (presetPlatform true) 1 11 : KernelM Unit) (k.setTask 11 { policy := .kIdle }) =
        .ok () k'' ∧ k.enqueued 1 .kIdle = [10] ∧ k''.enqueued 1 .kIdle = [11] := by
  have h₀ := SysRun.start (P := presetPlatform true) (A := fun k op => op.Careful k)
  have h₁ := h₀.step (.initCurrentCore 1 10) ⟨⟨rfl, rfl, fun _ => rfl⟩, rfl⟩ trivial rfl
  refine ⟨_, _, _, h₁, h₁.partlyOnline.all 1 .kNormal rfl, rfl, ?_, rfl, rfl, rfl⟩
  rintro ⟨-, ⟨c₀, -, hon, hcount⟩, -⟩
  match c₀ with
  | 0 => cases hon .kNormal
  | 1 => cases hcount 1 .kNormal
  | n + 2 => cases hon .kNormal

end NaiLongKernel.Task
