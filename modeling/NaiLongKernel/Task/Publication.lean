import NaiLongKernel.Memory.Cloning
import NaiLongKernel.Task.Lifetime

/-!
# The child of a clone

When all allocations succeed, `Clone` reaches `AddTask` with a child that is `kReady`
already. Where the status assertion of `AddTask` is made it fails; where it is taken as
passed, the child is published: in the table, ready, once in the queue of its policy, and
with the identity that the flags and the parent give it.
-/
namespace NaiLongKernel.Task

open Foundation Memory

variable {k k' : Kernel} {loc loc' : Ptr → Option Slot} {p : Ptr} {t u : TaskControlBlock}
  {c : CoreId} {B : Set CoreId} {P : Platform} {op : SysOp}

/-- A core has a scheduler for every policy when it runs a task, and none otherwise. -/
def Kernel.Equipped (k : Kernel) : Prop :=
  ∀ c policy, ((k.cpuSchedulers c).schedulers policy).isSome = (k.running c).isSome

namespace Kernel.Equipped

theorem scheduler (h : k.Equipped) (hrun : k.running c ≠ none) (policy : SchedPolicy) :
    ((k.cpuSchedulers c).schedulers policy).isSome = true := by
  rw [h c policy, Option.isSome_iff_ne_none]
  exact hrun

theorem keep (h : k.Equipped) (hr : ∀ c, (k'.running c).isSome = (k.running c).isSome)
    (hs : ∀ c policy, ((k'.cpuSchedulers c).schedulers policy).isSome =
      ((k.cpuSchedulers c).schedulers policy).isSome) : k'.Equipped := by
  intro c policy
  rw [hs c policy, hr c, h c policy]

theorem congr (h : k.Equipped) (hcpu : k'.perCpu = k.perCpu)
    (hscheds : k'.cpuSchedulers = k.cpuSchedulers) : k'.Equipped := by
  apply h.keep
  · intro c
    rw [Kernel.running, Kernel.running, hcpu]
  · intro c policy
    rw [hscheds]

theorem initialised (h : k.Equipped) (hi : Initialised B c p k loc k') : k'.Equipped := by
  intro c' policy
  by_cases hc : c' = c
  · rw [hc, hi.scheds policy, hi.running]
    rfl
  · rw [hi.scheds_ne c' hc, hi.running_ne c' hc, h c' policy]

theorem effect (h : k.Equipped) (he : op.Effect P k k') : k'.Equipped := by
  have persists : ∀ {k₁ : Kernel}, k₁.Equipped → Persists k₁ k' → k'.Equipped :=
    fun h₁ hp => h₁.keep hp.running hp.scheds
  cases he.outcome with
  | initialised hi => exact h.initialised hi
  | added ha => exact h.keep (fun c' => by rw [ha.running]; rfl) ha.scheds
  | cloned _ _ _ hcl _ => exact h.keep (fun c' => by rw [hcl.running]) hcl.scheds
  | departed _ _ hd hp => exact persists (h.congr (by rw [hd.rest]) (by rw [hd.rest])) hp
  | reaped _ hr => exact h.congr hr.2.2.perCpu hr.2.2.cpuSchedulers
  | persists hp => exact persists h hp
  | rest => exact h

end Kernel.Equipped

theorem SysRun.equipped (h : SysRun P (fun k op => op.Careful k) k) : k.Equipped := by
  apply h.induction (fun _ _ hA => hA)
  · exact fun _ _ => rfl
  · intro k loc op k' _ _ hk _ _ he
    exact hk.effect he

theorem has_completeFlags (flag : BitVec 64)
    (hflag : (CloneFlags.kCloneVm ||| CloneFlags.kCloneFiles ||| CloneFlags.kCloneSighand) &&& flag = 0)
    (flags : BitVec 64) : CloneFlags.has (completeFlags flags) flag = CloneFlags.has flags flag := by
  rw [completeFlags]
  split
  · rw [CloneFlags.has, CloneFlags.has, BitVec.and_comm, BitVec.and_or_distrib_left,
      BitVec.and_comm flag, BitVec.and_comm flag, hflag]
    simp
  · rfl

theorem wp_childPageTable_live {flags : BitVec 64} {vm : Vm}
    (hdir : ∀ root, t.pageTable = some root → ∃ T, Owns vm (kPageTableLevels - 1) root T) :
    wp (childPageTable P flags t) (fun _ vm' => ∀ a ∈ vm.live, a ∈ vm'.live)
      (fun e _ => e = .unexpected .kVmAllocationFailed) vm := by
  rw [childPageTable, wp_ite, wp_pure]
  split
  · exact fun _ ha => ha
  · cases hpt : t.pageTable with
    | none =>
      rw [wp_pure]
      exact fun _ ha => ha
    | some root =>
      obtain ⟨T, hT⟩ := hdir root hpt
      rw [wp_bind]
      apply wp_mono (wp_clonePageDirectory P.allocator true hT)
      · rintro _ vm' ⟨hg, -⟩
        rw [wp_pure]
        exact hg.live
      · rintro e vm' ⟨he, -⟩
        exact he

/-- The child of the task with block `t` on core `c`, in the state after the clone. -/
structure Kernel.Publishes (c : CoreId) (t : TaskControlBlock) (flags : BitVec 64) (child : Ptr)
    (k k' : Kernel) : Prop where
  fresh : k.lookup k.pidAllocator = none
  table : k'.lookup k.pidAllocator = some child
  block : ∃ u, k'.tasks child = some u ∧ u.pid = k.pidAllocator ∧ u.status = .kReady ∧
    u.parentPid = (if CloneFlags.has flags CloneFlags.kCloneParent then t.parentPid else t.pid) ∧
    u.tgid = (if CloneFlags.has flags CloneFlags.kCloneThread then t.tgid else k.pidAllocator) ∧
    u.pgid = t.pgid ∧ u.sid = t.sid
  once : ∀ s, (k'.slot s).count child = if s = .ready c t.policy then 1 else 0
  /-- Of the other tasks only the links of a thread group have changed. -/
  others : ∀ q, q ≠ child → ∀ v, k.tasks q = some v → ∃ v', k'.tasks q = some v' ∧
    v' = { v with threadGroupNext := v'.threadGroupNext, threadGroupPrev := v'.threadGroupPrev }
  queues : ∀ q, q ≠ child → ∀ s, (k'.slot s).count q = (k.slot s).count q
  running : k'.running = k.running
  held : k'.held = k.held

/-- All allocations that `Clone` by the task with block `t` makes succeed. -/
structure Kernel.Allocates (P : Platform) (flags : BitVec 64) (t : TaskControlBlock) (k : Kernel) :
    Prop where
  table : ∀ code vm, childPageTable P (completeFlags flags) t k.vm ≠ .error (.unexpected code) vm
  stack : ∀ pageTable vm, childPageTable P (completeFlags flags) t k.vm = .ok pageTable vm →
    P.allocator.alloc vm.calls vm.live ≠ none

theorem Kernel.Allocates.of_no_table {flags : BitVec 64} (hpt : t.pageTable = none)
    (hstack : P.allocator.alloc k.vm.calls k.vm.live ≠ none) : k.Allocates P flags t := by
  have htable : childPageTable P (completeFlags flags) t k.vm = .ok none k.vm := by
    rw [childPageTable, hpt, ite_self]
    rfl
  refine ⟨?_, ?_⟩
  · intro code vm he
    cases htable.symm.trans he
  · intro pageTable vm he
    cases htable.symm.trans he
    exact hstack

def Kernel.Grouping (flags : BitVec 64) (t : TaskControlBlock) (k : Kernel) : Prop :=
  CloneFlags.has flags CloneFlags.kCloneThread = true → t.tgid ≠ 0 ∧ k.groupOf t = t.tgid

theorem Cloned.publishes {flags : BitVec 64} {child : Ptr} (h : Cloned c child u k loc k' loc')
    (hst : Stable ∅ k loc) (heq : k.Equipped) (hrun : k.running c ≠ none) (hpol : t.policy ≠ .kIdle)
    (hpid : k.pidAllocator ≠ 0) (hgroup : k.Grouping flags t) {pageTable : Option Addr} {stack : Addr}
    (hu : u = { k.childOf (completeFlags flags) t with
      pageTable := pageTable, kernelStack := some stack }) :
    k.Publishes c t flags child k' := by
  have hparent := has_completeFlags CloneFlags.kCloneParent (by decide) flags
  have hthread := has_completeFlags CloneFlags.kCloneThread (by decide) flags
  have hupid : u.pid = k.pidAllocator := by
    rw [hu, Kernel.childOf]
    split <;> rfl
  have hupol : u.policy = t.policy := by
    rw [hu, Kernel.childOf]
    split <;> rfl
  have hfields : u.parentPid = (if CloneFlags.has flags CloneFlags.kCloneParent then t.parentPid
      else t.pid) ∧ u.pgid = t.pgid ∧ u.sid = t.sid := by
    rw [hu, Kernel.childOf, ← hparent]
    split <;> exact ⟨rfl, rfl, rfl⟩
  have htgid : u.tgid = if CloneFlags.has flags CloneFlags.kCloneThread then t.tgid
      else k.pidAllocator := by
    rw [hu, Kernel.childOf, hthread]
    split
    · rename_i hflag
      exact (hgroup hflag).2
    · rename_i hflag
      rw [childBlock, hthread, if_neg hflag]
  have hne : u.tgid ≠ 0 := by
    rw [htgid]
    split
    · rename_i hflag
      exact (hgroup hflag).1
    · exact hpid
  have hhome : k.home c u.policy = some (.ready c t.policy) := by
    rw [hupol, Kernel.home, if_pos ⟨hpol, heq.scheduler hrun _⟩]
  obtain ⟨u', hu', hready, hblock⟩ := h.block
  rw [if_neg hne] at hblock
  refine ⟨hupid ▸ h.fresh, ?_, ⟨u', hu', ?_, hready, ?_, ?_, ?_, ?_⟩, ?_, h.same, ?_, h.running,
    h.held (by rw [hupol]; exact hpol)⟩
  · exact Kernel.lookup_tableSet (hupid ▸ h.taskTable)
  · rw [hblock]
    exact hupid
  · rw [hblock]
    exact hfields.1
  · rw [hblock]
    exact htgid
  · rw [hblock]
    exact hfields.2.1
  · rw [hblock]
    exact hfields.2.2
  · intro s
    rw [h.stable.located.count_eq, h.loc_self, hhome]
    simp only [Option.some.injEq, eq_comm]
  · intro q hq s
    rw [h.stable.located.count_eq, hst.located.count_eq, h.loc_ne q hq]

theorem wp_clone_allocated {flags : BitVec 64} {parent child : Ptr} (hst : Stable ∅ k loc)
    (hl : Life k) (hrun : k.running c = some parent) (ht : k.tasks parent = some t)
    (hpid : k.pidAllocator ≠ 0) (hfresh : k.lookup k.pidAllocator = none)
    (hdir : ∀ root, t.pageTable = some root → ∃ T, Owns k.vm (kPageTableLevels - 1) root T)
    (hchild : k.tasks child = none) (halloc : k.Allocates P flags t) :
    wp (clone P c flags (some child) : KernelM (Except ErrorCode Pid))
      (fun r k' => P.checkStatus = false ∧ r = .ok k.pidAllocator ∧ ∃ pageTable stack vm vm' loc',
        childPageTable P (completeFlags flags) t k.vm = .ok pageTable vm ∧
        alignedAlloc P.allocator vm = .ok (some stack) vm' ∧
        Cloned c child { k.childOf (completeFlags flags) t with
          pageTable := pageTable, kernelStack := some stack } k loc k' loc')
      (fun e _ => P.checkStatus = true ∧ e = .assertFailed "AddTask: task status must be kUnInit") k := by
  have hsame : ∀ {q u}, k.running c = some q → k.tasks q = some u → u = t := by
    intro q u hq hu
    obtain rfl := Option.mem_unique hq hrun
    exact Option.mem_unique hu ht
  apply wp_mono (wp_clone P hst hl.grouped hl.entries flags (some child) _)
  · rintro r k' ⟨loc', he⟩
    cases he with
    | noTask hnone => cases hnone.symm.trans hrun
    | noPid hzero => exact absurd hzero hpid
    | noBlock hnone => cases hnone
    | noTable _ hq hu herr =>
      obtain rfl := hsame hq hu
      exact absurd herr (halloc.table _ _)
    | noStack _ hq hu hok hnone =>
      obtain rfl := hsame hq hu
      rw [alignedAlloc] at hnone
      split at hnone
      · rename_i hnull
        exact absurd hnull (halloc.stack _ _ hok)
      · cases hnone
    | cloned hcheck hq hrun' hu hok hstack hcl _ _ =>
      obtain rfl := hsame hrun' hu
      obtain rfl := Option.some.inj hq
      exact ⟨hcheck, rfl, _, _, _, _, loc', hok, hstack, hcl⟩
  · rintro e k' ⟨message, q, u, rfl, hq, hu, hstops, -⟩
    obtain rfl := hsame hq hu
    cases hstops with
    | pageTable herr => cases (wp_childPageTable_live hdir).of_error herr
    | listed _ _ hne => exact absurd hfresh hne
    | status _ _ hcheck => exact ⟨hcheck, rfl⟩
  · intro q hq
    exact Option.some.inj hq ▸ hchild

/-- `Clone` in a reachable state, by a task that is not of the idle policy, with a pid that is
not in use, a sound page table and all allocations succeeding: the assertion of
`AddTask` fails where it is made; where it is taken as passed, the child is published. -/
theorem clone_publishes {flags : BitVec 64} {parent child : Ptr}
    (h : SysRun P (fun k op => op.Careful k) k) (hrun : k.running c = some parent)
    (ht : k.tasks parent = some t) (hpol : t.policy ≠ .kIdle) (hpid : k.pidAllocator ≠ 0)
    (hfresh : k.lookup k.pidAllocator = none) (hgroup : k.Grouping flags t)
    (hdir : ∀ root, t.pageTable = some root → ∃ T, Owns k.vm (kPageTableLevels - 1) root T)
    (hchild : k.tasks child = none) (halloc : k.Allocates P flags t) :
    (P.checkStatus = false → ∃ k', (clone P c flags (some child) : KernelM (Except ErrorCode Pid)) k =
        .ok (.ok k.pidAllocator) k' ∧ k.Publishes c t flags child k') ∧
      (P.checkStatus = true → ∃ k', (clone P c flags (some child) : KernelM (Except ErrorCode Pid)) k =
        .error (.assertFailed "AddTask: task status must be kUnInit") k') := by
  obtain ⟨loc, hst, hl⟩ := h.invariant
  have hwp := wp_clone_allocated hst hl hrun ht hpid hfresh hdir hchild halloc
  cases hx : (clone P c flags (some child) : KernelM (Except ErrorCode Pid)) k with
  | ok r k' =>
    obtain ⟨hcheck, rfl, _, _, _, _, _, -, -, hcl⟩ := hwp.of_ok hx
    refine ⟨fun _ => ⟨k', rfl, hcl.publishes hst h.equipped (by simp [hrun]) hpol hpid hgroup rfl⟩, ?_⟩
    intro htrue
    rw [hcheck] at htrue
    cases htrue
  | error e k' =>
    obtain ⟨hcheck, rfl⟩ := hwp.of_error hx
    refine ⟨?_, fun _ => ⟨k', rfl⟩⟩
    intro hfalse
    rw [hcheck] at hfalse
    cases hfalse

/-- Core 0 runs task 1, which has no page table, and the next pid is 2. -/
def Kernel.Started (k : Kernel) : Prop :=
  k.running 0 = some 1 ∧ k.pidAllocator = 2 ∧ k.lookup 2 = none ∧ k.tasks 2 = none ∧
    k.vm.calls = 0 ∧ k.vm.live = [] ∧
    ∃ t ∈ k.tasks 1, t.policy ≠ .kIdle ∧ t.pageTable = none ∧ t.tgid ≠ 0 ∧ k.groupOf t = t.tgid

instance (k : Kernel) : Decidable k.Started := by
  unfold Kernel.Started
  infer_instance

theorem SysRun.exists_started (checkStatus : Bool)
    (hl : (SysOp.replay (presetPlatform checkStatus) (fun _ _ => True) {}
      [.initCurrentCore 0 0, .addTask 0 1 {}, .schedule 0]).any (fun k => decide k.Started) = true) :
    ∃ k, SysRun (presetPlatform checkStatus) (fun k op => op.Careful k) k ∧ k.Started :=
  SysRun.exists_careful _ hl

/-- A thread of task 1. -/
theorem clone_publishes_example :
    ∃ k k' t, SysRun (presetPlatform false) (fun k op => op.Careful k) k ∧
      (clone (presetPlatform false) 0 CloneFlags.kCloneThread (some 2) :
        KernelM (Except ErrorCode Pid)) k = .ok (.ok 2) k' ∧
      k.Publishes 0 t CloneFlags.kCloneThread 2 k' := by
  obtain ⟨k, hk, hrun, hpid, hlook, hchild, hcalls, hlive, t, ht, hpol, hpt, htgid, hgroup⟩ :=
    SysRun.exists_started false (by decide +kernel)
  have halloc : k.Allocates (presetPlatform false) CloneFlags.kCloneThread t := by
    apply Kernel.Allocates.of_no_table hpt
    rw [hcalls, hlive]
    decide
  have hdir : ∀ root, t.pageTable = some root → ∃ T, Owns k.vm (kPageTableLevels - 1) root T := by
    intro root hroot
    cases hpt.symm.trans hroot
  obtain ⟨k', hclone, hpub⟩ := (clone_publishes hk hrun ht hpol
    (by rw [hpid]; decide) (by rw [hpid]; exact hlook) (fun _ => ⟨htgid, hgroup⟩) hdir hchild
    halloc).1 rfl
  rw [hpid] at hclone
  exact ⟨k, k', t, hk, hclone, hpub⟩

/-- Where the status assertion is made, the first `Clone` of the first task stops there. -/
theorem clone_stops_at_addTask :
    ∃ k k', SysRun (presetPlatform true) (fun k op => op.Careful k) k ∧
      (∃ t ∈ k.tasks 1, k.running 0 = some 1 ∧ t.status = .kRunning) ∧
      (clone (presetPlatform true) 0 CloneFlags.kCloneAll (some 2) :
        KernelM (Except ErrorCode Pid)) k =
          .error (.assertFailed "AddTask: task status must be kUnInit") k' := by
  have hrun : ∃ k, SysRun (presetPlatform true) (fun k op => op.Careful k) k ∧
      ((∃ t ∈ k.tasks 1, k.running 0 = some 1 ∧ t.status = .kRunning) ∧
        stoppedBy ((clone (presetPlatform true) 0 CloneFlags.kCloneAll (some 2) :
          KernelM (Except ErrorCode Pid)) k) =
            some (.assertFailed "AddTask: task status must be kUnInit")) := by
    apply SysRun.exists_careful [.initCurrentCore 0 0, .addTask 0 1 {}, .schedule 0]
    decide +kernel
  obtain ⟨k, hk, hcur, hstop⟩ := hrun
  obtain ⟨k', hclone⟩ := exists_of_stoppedBy hstop
  exact ⟨k, k', hk, hcur, hclone⟩

end NaiLongKernel.Task
