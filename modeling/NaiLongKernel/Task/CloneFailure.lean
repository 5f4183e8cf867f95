import NaiLongKernel.Task.Publication

/-!
# A clone that gets no memory

`Clone` builds the control block of the child before it allocates. When an allocation
fails the block is deleted again, and its destructor gives back the memory that it
refers to: after a failed kernel stack that is the page table, although `Clone` has
destroyed it before, or has it from the parent. While the page table is being cloned
the child refers to nothing yet, and what is freed is up to `ClonePageDirectory`.
-/
namespace NaiLongKernel.Task

open Foundation Foundation.Radix Memory

variable {P : Platform} {k k' : Kernel} {c : CoreId} {t : TaskControlBlock} {flags : BitVec 64}
  {m : ℕ} {T : PageTree (kPageTableLevels - 1)}

/-- `Clone` by the task with block `t` calls `aligned_alloc` once more after `m` answers. A page
table that is cloned is the tree `T` of distinct live tables, unless its root gets no copy. -/
def Kernel.Asks (flags : BitVec 64) (t : TaskControlBlock) (T : PageTree (kPageTableLevels - 1)) (m : ℕ)
    (k : Kernel) : Prop :=
  k.pidAllocator ≠ 0 ∧
  match t.pageTable with
  | none => m = 0
  | some root => root ≠ 0 ∧ (m = 0 ∨
      CloneFlags.has (completeFlags flags) CloneFlags.kCloneVm = false ∧
      Owns k.vm (kPageTableLevels - 1) root T ∧ m ≤ tableCount (kPageTableLevels - 1) T + 1)

/-- That call is one that `Clone` can undo when it fails: the parent has no page table, or a clone
of it is being made and no finished table hangs below an inner table that is given up. -/
def CanUndo (flags : BitVec 64) (t : TaskControlBlock) (T : PageTree (kPageTableLevels - 1)) (m : ℕ) : Prop :=
  t.pageTable ≠ none → CloneFlags.has (completeFlags flags) CloneFlags.kCloneVm = false ∧
    m ≤ tableCount (kPageTableLevels - 1) T ∧ StopsClean (kPageTableLevels - 1) T (m - 1)

/-- The live pages are those of before, each page that was freed was live then and is none of
them, and the translations of the task's page table are the same. -/
def Undoes (t : TaskControlBlock) (vm vm' : Vm) : Prop :=
  Obtained ∅ vm vm' ∧ ∀ root va, t.pageTable = some root → translate vm' root va = translate vm root va

theorem Undoes.of_eq {vm vm' : Vm} (hmem : vm'.mem = vm.mem) (hlive : vm'.live = vm.live)
    (hfreed : vm'.freed = vm.freed) : Undoes t vm vm' := by
  refine ⟨Obtained.of_eq hlive hfreed, ?_⟩
  intro root va _
  rw [Memory.translate, Memory.translate, hmem]

theorem releaseMemory_none (hstack : t.kernelStack = none) (hpt : t.pageTable = none) (vm : Vm) :
    releaseMemory t vm = vm := by
  rw [releaseMemory, hstack, hpt]

theorem Kernel.childOf_kernelStack (k : Kernel) (flags : BitVec 64) (t : TaskControlBlock) :
    (k.childOf flags t).kernelStack = none := by
  rw [Kernel.childOf]
  split <;> rfl

theorem alignedAlloc_none {A : Allocator} {vm vm' : Vm} (h : alignedAlloc A vm = .ok none vm') :
    vm' = { vm with calls := vm.calls + 1 } := by
  rw [alignedAlloc] at h
  split at h <;> cases h
  rfl

/-- What is left of the memory when the child has its page table and gets no kernel stack. -/
def Kernel.leftOver (flags : BitVec 64) (t : TaskControlBlock) (k : Kernel) (pageTable : Option Addr)
    (vm : Vm) : Vm :=
  releaseMemory { k.childOf flags t with pageTable := pageTable } (abandonedMemory flags pageTable vm)

theorem Kernel.leftOver_none (k : Kernel) (flags : BitVec 64) (t : TaskControlBlock) (vm : Vm) :
    k.leftOver flags t none vm = vm :=
  releaseMemory_none (t := { k.childOf flags t with pageTable := none }) (k.childOf_kernelStack flags t)
    rfl vm

theorem Kernel.leftOver_some (k : Kernel) (flags : BitVec 64) (t : TaskControlBlock) (root : Addr)
    (vm : Vm) :
    ∃ freePages, k.leftOver flags t (some root) vm = destroyPageDirectory root freePages
      (if CloneFlags.has flags CloneFlags.kCloneVm then vm else destroyPageDirectory root false vm) := by
  refine ⟨!CloneFlags.has (k.childOf flags t).cloneFlags CloneFlags.kCloneVm, ?_⟩
  simp only [Kernel.leftOver, releaseMemory, k.childOf_kernelStack flags t, abandonedMemory]

/-- A page table that the child shares is the parent's, and one of its own is destroyed twice. -/
theorem Kernel.not_undoes_leftOver {root : Addr} {vm : Vm} (hroot : root ≠ 0) {gs : List FreeCall}
    (hgs : vm.freed = gs ++ k.vm.freed)
    (hshared : CloneFlags.has flags CloneFlags.kCloneVm = true → root ∈ vm.live → root ∈ k.vm.live) :
    ¬ Undoes t k.vm (k.leftOver flags t (some root) vm) := by
  rintro ⟨hob, -⟩
  obtain ⟨freePages, he⟩ := k.leftOver_some flags t root vm
  rw [he] at hob
  by_cases hflag : CloneFlags.has flags CloneFlags.kCloneVm = true
  · rw [if_pos hflag] at hob
    obtain ⟨hlive, hold⟩ := hob.of_destroy hroot hgs
    exact hold (hshared hflag hlive)
  · rw [if_neg hflag] at hob
    obtain ⟨fs, hfs, hmem⟩ := FreesOnly.destroy_root false hroot vm
    have hall : (destroyPageDirectory root false vm).freed = (fs ++ gs) ++ k.vm.freed := by
      rw [hfs.freed, hgs, List.append_assoc]
    exact ((hfs.live root).mp (hob.of_destroy hroot hall).1).2 hmem

theorem Kernel.Asks.wp_childPageTable (h : k.Asks flags t T m)
    (hfail : P.allocator.failsAfter m k.vm.calls k.vm.live = true) :
    wp (childPageTable P (completeFlags flags) t)
      (fun pageTable vm => P.allocator.alloc vm.calls vm.live = none ∧
        (Undoes t k.vm (k.leftOver (completeFlags flags) t pageTable { vm with calls := vm.calls + 1 }) ↔
          CanUndo flags t T m))
      (fun e vm => e = .unexpected .kVmAllocationFailed ∧ (Undoes t k.vm vm ↔ CanUndo flags t T m))
      k.vm := by
  obtain ⟨-, h⟩ := h
  have hzero : m = 0 → P.allocator.alloc k.vm.calls k.vm.live = none := by
    rintro rfl
    exact Option.isNone_iff_eq_none.mp hfail
  rw [CanUndo]
  cases hpt : t.pageTable with
  | none =>
    rw [hpt] at h
    simp only [childPageTable, hpt, wp_pure, ite_self]
    refine ⟨hzero h, iff_of_true ?_ (fun hne => absurd rfl hne)⟩
    rw [k.leftOver_none]
    exact Undoes.of_eq rfl rfl rfl
  | some root =>
    rw [hpt] at h
    obtain ⟨hroot, h⟩ := h
    simp only [ne_eq, reduceCtorEq, not_false_eq_true, true_imp_iff]
    cases hflag : CloneFlags.has (completeFlags flags) CloneFlags.kCloneVm with
    | true =>
      rw [hflag] at h
      simp only [childPageTable, hpt, hflag, if_true, wp_pure]
      refine ⟨hzero (h.resolve_right (by simp)), iff_of_false ?_ (by simp)⟩
      exact Kernel.not_undoes_leftOver hroot (List.nil_append _).symm fun _ hlive => hlive
    | false =>
      simp only [childPageTable, hpt, hflag, Bool.false_eq_true, if_false, wp_bind, wp_pure, true_and]
      obtain rfl | ⟨-, hT, hcount⟩ := h
      · simp only [clonePageDirectory, wp_bind, wp_assertTable hroot]
        rw [wp_of_error (allocTable_none P.allocator (hzero rfl))]
        exact ⟨rfl, iff_of_true (Undoes.of_eq rfl rfl rfl) ⟨Nat.zero_le _, stopsClean_zero T⟩⟩
      · apply wp_mono (wp_clonePageDirectory P.allocator true hT)
        · rintro dst vm ⟨hg, ⟨S, hS, -⟩, henough⟩
          obtain ⟨hlt, hleft⟩ := henough m hfail
          obtain rfl : m = tableCount (kPageTableLevels - 1) T + 1 := by omega
          rw [Nat.add_sub_cancel, Nat.sub_self] at hleft
          obtain ⟨fs, hfs, -⟩ := hg.freed
          refine ⟨Option.isNone_iff_eq_none.mp hleft, iff_of_false ?_ (by omega)⟩
          refine Kernel.not_undoes_leftOver hS.root_nonnull hfs ?_
          rw [hflag]
          exact fun hf => nomatch hf
        · rintro e vm ⟨he, hg, hstop⟩
          obtain ⟨hle, hclean, hleak⟩ := hstop m hfail
          refine ⟨he, ?_, ?_⟩
          · rintro ⟨hob, -⟩
            refine ⟨hle, ?_⟩
            by_contra hnot
            obtain ⟨x, hx, hnew, -⟩ := hleak hnot
            exact ((hob.live x).mp hx).elim hnew (Set.notMem_empty x)
          · rintro ⟨-, hstops⟩
            refine ⟨hclean hstops, ?_⟩
            rintro root' va heq
            obtain rfl := Option.mem_unique hpt heq
            rw [(hT.frame hg (Set.disjoint_empty _)).translate_eq, hT.translate_eq]

/-- In a reachable state, `Clone` fails for want of memory at its allocation after the first `m`:
it returns an error and changes nothing but the pid counter, with all pages that it obtained freed
and no others, exactly when the allocation is one that it can undo. -/
theorem clone_undone {parent child : Ptr} (h : SysRun P (fun k op => op.Careful k) k)
    (hrun : k.running c = some parent) (ht : k.tasks parent = some t) (hchild : k.tasks child = none)
    (hasks : k.Asks flags t T m) (hfail : P.allocator.failsAfter m k.vm.calls k.vm.live = true) :
    (∃ code k', (clone P c flags (some child) : KernelM (Except ErrorCode Pid)) k =
        .ok (.error code) k' ∧
      k'.tasks = k.tasks ∧ k'.taskTable = k.taskTable ∧ k'.cpuSchedulers = k.cpuSchedulers ∧
      k'.perCpu = k.perCpu ∧ Undoes t k.vm k'.vm) ↔ CanUndo flags t T m := by
  obtain ⟨loc, hst, hl⟩ := h.invariant
  have hspec := hasks.wp_childPageTable hfail
  have hsame : ∀ {q u}, k.running c = some q → k.tasks q = some u → u = t := by
    intro q u hq hu
    obtain rfl := Option.mem_unique hq hrun
    exact Option.mem_unique hu ht
  -- the kernel stack is not obtained
  have hnone : ∀ {pageTable stack vm vm'}, childPageTable P (completeFlags flags) t k.vm =
      .ok pageTable vm → alignedAlloc P.allocator vm ≠ .ok (some stack) vm' := by
    intro pageTable stack vm vm' hok halloc
    rw [alignedAlloc, (hspec.of_ok hok).1] at halloc
    cases halloc
  have hwp : wp (clone P c flags (some child) : KernelM (Except ErrorCode Pid))
      (fun r k' => ∃ code vm ds, r = .error code ∧
        k' = { k with pidAllocator := k.pidAllocator + 1, vm := vm, deletions := ds } ∧
        (Undoes t k.vm vm ↔ CanUndo flags t T m)) (fun _ _ => False) k := by
    apply wp_mono (wp_clone P hst hl.grouped hl.entries flags (some child) _)
    · rintro r k' ⟨loc', he⟩
      cases he with
      | noTask hno => cases hno.symm.trans hrun
      | noPid hzero => exact absurd hzero hasks.1
      | noBlock hno => cases hno
      | noTable _ hq hu herr =>
        obtain rfl := hsame hq hu
        exact ⟨_, _, _, rfl, rfl, (hspec.of_error herr).2⟩
      | noStack _ hq hu hok hno =>
        obtain rfl := hsame hq hu
        obtain rfl := alignedAlloc_none hno
        exact ⟨_, _, _, rfl, rfl, (hspec.of_ok hok).2⟩
      | cloned _ _ hq hu hok halloc _ _ _ =>
        obtain rfl := hsame hq hu
        exact absurd halloc (hnone hok)
    · rintro e k' ⟨message, q, u, rfl, hq, hu, hstops, -⟩
      obtain rfl := hsame hq hu
      cases hstops with
      | pageTable herr => cases (hspec.of_error herr).1
      | listed hok halloc _ => exact hnone hok halloc
      | status hok halloc _ => exact hnone hok halloc
    · intro q hq
      exact Option.some.inj hq ▸ hchild
  obtain ⟨r, k', hok, code, vm, ds, rfl, rfl, hiff⟩ := hwp.returns
  rw [← hiff]
  constructor
  · rintro ⟨_, _, hok', -, -, -, -, hundo⟩
    rw [hok] at hok'
    cases hok'
    exact hundo
  · exact fun hundo => ⟨code, _, hok, rfl, rfl, rfl, rfl, hundo⟩

/-- The values of the build presets, with `n` pages in all. -/
def scarcePlatform (n : ℕ) : Platform :=
  { presetPlatform true with allocator := scarcePages n }

/-- Core 0 runs task 1 with an empty page directory at 0x1000, which is the only live page. -/
def Kernel.HasDirectory (k : Kernel) : Prop :=
  k.running 0 = some 1 ∧ k.tasks 2 = none ∧ k.pidAllocator ≠ 0 ∧ k.vm.calls = 1 ∧
    k.vm.live = [0x1000] ∧ ∃ t ∈ k.tasks 1, t.pageTable = some 0x1000

instance (k : Kernel) : Decidable k.HasDirectory := by
  unfold Kernel.HasDirectory
  infer_instance

/-- Task 1 runs with a page table at 0x1000. -/
def startWithTable : List SysOp :=
  [.initCurrentCore 0 0, .allocPage 0, .addTask 0 1 { pageTable := some 0x1000 }, .schedule 0]

/-- There is no page for the root of the child's page table. -/
theorem clone_undone_example :
    ∃ k k' code, SysRun (scarcePlatform 1) (fun k op => op.Careful k) k ∧ k.HasDirectory ∧
      (clone (scarcePlatform 1) 0 0 (some 2) : KernelM (Except ErrorCode Pid)) k =
        .ok (.error code) k' ∧ k'.tasks = k.tasks ∧ Obtained ∅ k.vm k'.vm := by
  have hrun : ∃ k, SysRun (scarcePlatform 1) (fun k op => op.Careful k) k ∧
      k.HasDirectory := by
    apply SysRun.exists_careful startWithTable
    decide +kernel
  obtain ⟨k, hk, hd⟩ := hrun
  obtain ⟨hcur, hchild, hpid, hcalls, hlive, t, ht, hpt⟩ := id hd
  have hasks : k.Asks 0 t (blankTree x86 (kPageTableLevels - 1)) 0 := by
    rw [Kernel.Asks, hpt]
    exact ⟨hpid, by decide, Or.inl rfl⟩
  have hfail : (scarcePlatform 1).allocator.failsAfter 0 k.vm.calls k.vm.live = true := by
    rw [hcalls, hlive]
    decide
  obtain ⟨code, k', hclone, htasks, -, -, -, hundoes⟩ := (clone_undone hk hcur ht hchild hasks hfail).mpr
    fun _ => ⟨by decide, Nat.zero_le _, stopsClean_zero _⟩
  exact ⟨k, k', code, hk, hd, hclone, htasks, hundoes.1⟩

/-- `Clone` by the task on core 0 returns an error and leaves a state with `S`. -/
def Kernel.CloneFails (P : Platform) (flags : BitVec 64) (S : Kernel → Prop) (k : Kernel) : Prop :=
  ∃ code k', (clone P 0 flags (some 2) : KernelM (Except ErrorCode Pid)) k = .ok (.error code) k' ∧ S k'

instance (P : Platform) (flags : BitVec 64) (S : Kernel → Prop) [DecidablePred S] (k : Kernel) :
    Decidable (k.CloneFails P flags S) :=
  match h : (clone P 0 flags (some 2) : KernelM (Except ErrorCode Pid)) k with
  | .ok (.error code) k' => decidable_of_iff (S k')
      ⟨fun hS => ⟨code, k', h, hS⟩, fun ⟨_, _, h', hS⟩ => by rw [h] at h'; cases h'; exact hS⟩
  | .ok (.ok _) _ => isFalse fun ⟨_, _, h', _⟩ => by rw [h] at h'; cases h'
  | .error _ _ => isFalse fun ⟨_, _, h', _⟩ => by rw [h] at h'; cases h'

set_option maxRecDepth 100000 in
/-- Without a page for the kernel stack, the page table that the child shares with its parent is
destroyed, and one of its own is freed twice. When the clone of the page table stops
at a second leaf table, the first remains. -/
theorem clone_failure_keeps_or_frees :
    (∃ k, SysRun (scarcePlatform 1) (fun k op => op.Careful k) k ∧ k.HasDirectory ∧
      k.CloneFails (scarcePlatform 1) CloneFlags.kCloneVm (fun k' =>
        (∃ t ∈ k'.tasks 1, t.pageTable = some 0x1000) ∧ 0x1000 ∉ k'.vm.live)) ∧
    (∃ k, SysRun (scarcePlatform 2) (fun k op => op.Careful k) k ∧ k.HasDirectory ∧
      k.CloneFails (scarcePlatform 2) 0 (fun k' => (⟨0x2000, false, false⟩ : FreeCall) ∈ k'.vm.freed)) ∧
    ∃ k, SysRun (scarcePlatform 9) (fun k op => op.Careful k) k ∧ 0x9000 ∉ k.vm.live ∧
      k.CloneFails (scarcePlatform 9) 0 (fun k' => 0x9000 ∈ k'.vm.live) := by
  refine ⟨?_, ?_, ?_⟩
  · apply SysRun.exists_careful startWithTable
    decide +kernel
  · apply SysRun.exists_careful startWithTable
    decide +kernel
  · apply SysRun.exists_careful
      [.initCurrentCore 0 0, .allocPage 0, .vmCall 0 0x1000 (.mapPage 0x400000 0x900000 7),
        .vmCall 0 0x1000 (.mapPage 0x600000 0x901000 7),
        .addTask 0 1 { pageTable := some 0x1000 }, .schedule 0]
    decide +kernel

end NaiLongKernel.Task
