import NaiLongKernel.Memory.Holdings
import NaiLongKernel.Task.CloneFailure

/-!
# The address spaces of the tasks

A task has a page table and a kernel stack, which its destructor gives back. Nothing counts
how many tasks have a page table, so that the first of them to be reaped destroys it for all.
Tasks may share page tables as long as none that still shares one is reaped: then every page
directory is destroyed once, and by the only task that has it.
-/
namespace NaiLongKernel.Task

open Foundation Foundation.Radix Memory

/-- What a task has of the memory. -/
structure Space where
  root : Option Addr
  stack : Option Addr
  /-- `clone_flags` has `kCloneVm`. -/
  shared : Bool
deriving DecidableEq, Repr

def TaskControlBlock.space (t : TaskControlBlock) : Space :=
  ⟨t.pageTable, t.kernelStack, CloneFlags.has t.cloneFlags CloneFlags.kCloneVm⟩

/-- The spaces of the tasks in existence. -/
def Kernel.space (k : Kernel) (p : Ptr) : Option Space := (k.tasks p).map TaskControlBlock.space

/-- The kernel stack is freed. -/
def Space.freeStack (s : Space) (vm : Vm) : Vm :=
  match s.stack with
  | some a => vm.alignedFree a false
  | none => vm

/-- The page table is destroyed. -/
def Space.freeRoot (s : Space) (vm : Vm) : Vm :=
  match s.root with
  | some r => destroyPageDirectory r (!s.shared) vm
  | none => vm

/-- The page table of each task. -/
def Kernel.root (k : Kernel) : Ptr → Option Addr := (fun s => s.bind Space.root) ∘ k.space

/-- The kernel stack of each task. -/
def Kernel.stack (k : Kernel) : Ptr → Option Addr := (fun s => s.bind Space.stack) ∘ k.space

section Effects

variable {k k' : Kernel} {loc loc' : Ptr → Option Slot} {p : Ptr} {t t' : TaskControlBlock} {c : CoreId}
  {B : Set CoreId}

theorem Kernel.space_of_tasks (ht : k.tasks p = some t) : k.space p = some t.space := by
  rw [Kernel.space, ht, Option.map_some]

theorem Kernel.space_of_none (hp : k.tasks p = none) : k.space p = none := by
  rw [Kernel.space, hp, Option.map_none]

theorem SameTask.space (h : SameTask t t') : t'.space = t.space := by
  rw [h.fields]
  rfl

theorem Regrouped.space (h : Regrouped t t') : t'.space = t.space := by
  rw [Regrouped] at h
  rw [h]
  rfl

theorem Kernel.space_update {s : Option Space} (hself : k'.space p = s)
    (hsame : ∀ q, q ≠ p → ∀ u, k.tasks q = some u → ∃ u', k'.tasks q = some u' ∧ u'.space = u.space)
    (hfree : ∀ q, q ≠ p → k.tasks q = none → k'.tasks q = none) :
    k'.space = Function.update k.space p s := by
  funext q
  by_cases hq : q = p
  · rw [hq, hself, Function.update_self]
  · rw [Function.update_of_ne hq]
    cases hu : k.tasks q with
    | none => rw [Kernel.space_of_none (hfree q hq hu), Kernel.space_of_none hu]
    | some u =>
      obtain ⟨u', hu', hs⟩ := hsame q hq u hu
      rw [Kernel.space_of_tasks hu', Kernel.space_of_tasks hu, hs]

theorem Persists.space (h : Persists k k') : k'.space = k.space := by
  funext p
  cases ht : k.tasks p with
  | none => rw [Kernel.space_of_none (h.free p ht), Kernel.space_of_none ht]
  | some t =>
    obtain ⟨t', ht', hs⟩ := h.same p t ht
    rw [Kernel.space_of_tasks ht', Kernel.space_of_tasks ht, hs.space]

theorem Departed.space (h : Departed p t k k') : k'.space = k.space := by
  funext q
  cases hu : k.tasks q with
  | none => rw [Kernel.space_of_none (h.free q hu), Kernel.space_of_none hu]
  | some u =>
    obtain ⟨u', hu', he⟩ := h.same q u hu
    rw [Kernel.space_of_tasks hu', Kernel.space_of_tasks hu, he]
    rfl

theorem Deleted.space (h : Deleted p t k k') : k'.space = Function.update k.space p none := by
  apply Kernel.space_update (Kernel.space_of_none h.gone)
  · intro q hq u hu
    obtain ⟨u', hu', hr⟩ := h.same q hq u hu
    exact ⟨u', hu', hr.space⟩
  · intro q _ hq
    exact h.free q hq

theorem Cloned.space {u : TaskControlBlock} (h : Cloned c p u k loc k' loc') :
    k'.space = Function.update k.space p (some u.space) := by
  obtain ⟨u', hu', -, he⟩ := h.block
  apply Kernel.space_update
  · rw [Kernel.space_of_tasks hu', he]
    rfl
  · intro q hq v hv
    obtain ⟨v', hv', hr⟩ := h.same q hq v hv
    exact ⟨v', hv', hr.space⟩
  · exact h.free

theorem Added.space {target : CoreId} (h : Added B target p t (k.setTask p t) loc k' loc') :
    k'.space = Function.update k.space p (some t.space) := by
  obtain ⟨t', ht', -, hs⟩ := h.task
  have hother : ∀ q, q ≠ p → k'.tasks q = k.tasks q := by
    intro q hq
    rw [h.tasks_ne q hq, k.tasks_setTask_ne p t hq]
  apply Kernel.space_update
  · rw [Kernel.space_of_tasks ht', hs.space]
    rfl
  · intro q hq u hu
    exact ⟨u, (hother q hq).trans hu, rfl⟩
  · intro q hq hu
    exact (hother q hq).trans hu

theorem Initialised.space (h : Initialised B c p k loc k') :
    k'.space = Function.update k.space p (some idleTaskBlock.space) := by
  obtain ⟨t', ht', -, hs⟩ := h.task
  apply Kernel.space_update
  · rw [Kernel.space_of_tasks ht', hs.space]
  · intro q hq u hu
    exact ⟨u, (h.tasks_ne q hq).trans hu, rfl⟩
  · intro q hq hu
    exact (h.tasks_ne q hq).trans hu

theorem Kernel.root_of_tasks (ht : k.tasks p = some t) : k.root p = t.pageTable := by
  rw [Kernel.root, Function.comp_apply, Kernel.space_of_tasks ht]
  rfl

theorem Kernel.stack_of_tasks (ht : k.tasks p = some t) : k.stack p = t.kernelStack := by
  rw [Kernel.stack, Function.comp_apply, Kernel.space_of_tasks ht]
  rfl

theorem Kernel.root_of_none (hp : k.tasks p = none) : k.root p = none := by
  rw [Kernel.root, Function.comp_apply, Kernel.space_of_none hp]
  rfl

theorem Kernel.stack_of_none (hp : k.tasks p = none) : k.stack p = none := by
  rw [Kernel.stack, Function.comp_apply, Kernel.space_of_none hp]
  rfl

theorem Kernel.root_update {s : Option Space} (h : k'.space = Function.update k.space p s) :
    k'.root = Function.update k.root p (s.bind Space.root) := by
  rw [Kernel.root, h, Function.comp_update]
  rfl

theorem Kernel.stack_update {s : Option Space} (h : k'.space = Function.update k.space p s) :
    k'.stack = Function.update k.stack p (s.bind Space.stack) := by
  rw [Kernel.stack, h, Function.comp_update]
  rfl

end Effects

section Memory

variable {k k' : Kernel} {p q : Ptr} {tree : Addr → PageTree (kPageTableLevels - 1)}

/-- The page tables of the tasks share no page, and every task has a kernel stack of its own. -/
abbrev Kernel.Housed (k : Kernel) (tree : Addr → PageTree (kPageTableLevels - 1)) : Prop :=
  Memory.Housed k.vm k.root k.stack tree

/-- The page is the kernel stack or a page table of the task. -/
def Kernel.HasPage (k : Kernel) (p : Ptr) (x : Addr) : Prop :=
  k.stack p = some x ∨ ∃ r, k.root p = some r ∧ x ∈ tablePages k.vm r

/-- The page directories destroyed between `k` and `k'` were live, and no task in `k'` has them. -/
def DestroysUnshared (k k' : Kernel) : Prop :=
  ∃ ds, k'.vm.destroyed = ds ++ k.vm.destroyed ∧
    ∀ d ∈ ds, d.wasLive = true ∧ ∀ p, k'.root p ≠ some d.root

theorem DestroysUnshared.of_eq (h : k'.vm.destroyed = k.vm.destroyed) : DestroysUnshared k k' :=
  ⟨[], h, by simp⟩

namespace Kernel.Housed

theorem empty (tree : Addr → PageTree (kPageTableLevels - 1)) : Kernel.Housed {} tree := by
  have hroot : valuesOf (Kernel.root {}) = ∅ := by
    ext r
    simp [valuesOf, Kernel.root, Kernel.space]
  have hstack : valuesOf (Kernel.stack {}) = ∅ := by
    ext a
    simp [valuesOf, Kernel.stack, Kernel.space]
  refine ⟨?_, ?_⟩
  · rw [hroot, hstack]
    exact Holdings.empty _ _
  · rintro p q a ⟨⟩

theorem congr (h : k.Housed tree) (hspace : k'.space = k.space) (hvm : k'.vm = k.vm) : k'.Housed tree := by
  rw [Kernel.Housed, Kernel.root, Kernel.stack, hspace, hvm]
  exact h

theorem not_foot (h : k.Housed tree) {x r : Addr} (hp : ¬ k.HasPage p x) (hr : k.root p = some r) :
    x ∉ foot x86 (kPageTableLevels - 1) r (tree r) := by
  intro hx
  apply hp
  refine Or.inr ⟨r, hr, ?_⟩
  rwa [tablePages, ← (h.owns r ⟨p, hr⟩).rep.foot_eq_tables]

theorem freeStack (h : k.Housed tree) {s : Space} (hs : k.stack q = s.stack) :
    Memory.Housed (s.freeStack k.vm) k.root (Function.update k.stack q none) tree := by
  rw [Space.freeStack]
  cases ha : s.stack with
  | none =>
    rw [Function.update_eq_self_iff.mpr (hs.trans ha).symm]
    exact h
  | some a => exact h.removePage (hs.trans ha)

theorem release (h : k.Housed tree) {s : Space} (hroot : k.root q = s.root) (hstack : k.stack q = s.stack)
    (hsole : ∀ r, s.root = some r → SoleHolder k.root q r)
    (hframes : ∀ r, s.root = some r → s.shared = false →
      ∀ x ∈ leaves x86 (kPageTableLevels - 1) (tree r), ∀ p, p ≠ q → ¬ k.HasPage p x) :
    Memory.Housed (s.freeRoot (s.freeStack k.vm)) (Function.update k.root q none)
        (Function.update k.stack q none) tree ∧
      ∃ ds, (s.freeRoot (s.freeStack k.vm)).destroyed = ds ++ k.vm.destroyed ∧
        ∀ d ∈ ds, d.wasLive = true ∧ k.root q = some d.root := by
  have hfree := h.freeStack hstack
  have hdestroyed : (s.freeStack k.vm).destroyed = k.vm.destroyed := by
    rw [Space.freeStack]
    split <;> rfl
  rw [Space.freeRoot]
  cases hr : s.root with
  | none =>
    rw [Function.update_eq_self_iff.mpr (hroot.trans hr).symm]
    exact ⟨hfree, [], hdestroyed, by simp⟩
  | some r =>
    have hq := hroot.trans hr
    have hown := hfree.owns r ⟨q, hq⟩
    refine ⟨hfree.removeRoot hq (hsole r hr) _ ?_ ?_, [⟨r, decide (r ∈ (s.freeStack k.vm).live)⟩], ?_, ?_⟩
    · rintro x ⟨hshared, hx⟩ r' ⟨p, hp⟩ hne
      have hpq : p ≠ q := by
        rintro rfl
        exact hne (Option.mem_unique hp hq)
      exact h.not_foot (hframes r hr (by simpa using hshared) x hx p hpq) hp
    · rintro x ⟨hshared, hx⟩ ⟨p, hp⟩
      by_cases hpq : p = q
      · rw [hpq, Function.update_self] at hp
        cases hp
      · rw [Function.update_of_ne hpq] at hp
        exact hframes r hr (by simpa using hshared) x hx p hpq (Or.inl hp)
    · rw [destroyed_destroy _ hown.root_nonnull, hdestroyed]
      rfl
    · intro d hd
      rw [List.mem_singleton.mp hd]
      exact ⟨decide_eq_true (hown.live r (mem_foot_root _)), hq⟩

end Kernel.Housed

section Clone

variable {P : Platform} {flags : BitVec 64} {t : TaskControlBlock} {pageTable : Option Addr} {vm vm' : Vm}

/-- The page table of a child: there is none, or it is the parent's, or a clone of that out of new
pages. One that could not be made leaves the tasks' pages alone. -/
theorem Kernel.Housed.wp_childPageTable (h : k.Housed tree) (ht : k.tasks p = some t) :
    wp (childPageTable P flags t)
      (fun pageTable vm => (pageTable = none ∨ pageTable = k.root p ∧
          CloneFlags.has flags CloneFlags.kCloneVm = true) ∧ vm = k.vm ∨
        ∃ root r S, k.root p = some root ∧ pageTable = some r ∧
          CloneFlags.has flags CloneFlags.kCloneVm = false ∧ Grows ∅ k.vm vm ∧
          vm.destroyed = k.vm.destroyed ∧ Owns vm (kPageTableLevels - 1) r S ∧
          (∀ x ∈ foot x86 (kPageTableLevels - 1) r S, x ∉ k.vm.live) ∧ ClonedView true (tree root) S)
      (fun _ vm => Grows ∅ k.vm vm) k.vm := by
  have hself : k.root p = t.pageTable := Kernel.root_of_tasks ht
  cases hflag : CloneFlags.has flags CloneFlags.kCloneVm with
  | true =>
    simp only [childPageTable, hflag, if_true, wp_pure]
    exact Or.inl ⟨Or.inr ⟨hself.symm, trivial⟩, trivial⟩
  | false =>
    cases hpt : t.pageTable with
    | none =>
      simp only [childPageTable, hpt, hflag, Bool.false_eq_true, if_false, wp_pure]
      exact Or.inl ⟨Or.inl trivial, trivial⟩
    | some root =>
      have hroot := hself.trans hpt
      simp only [childPageTable, hpt, hflag, Bool.false_eq_true, if_false, wp_bind, wp_pure]
      apply wp_mono (wp_and (wp_clonePageDirectory P.allocator true (h.owns root ⟨p, hroot⟩))
        (keeps_destroyed_clonePageDirectory root k.vm))
      · rintro r vm ⟨⟨hg, ⟨S, hS, hfresh, hview⟩, -⟩, hdestroyed⟩
        exact Or.inr ⟨root, r, S, hroot, rfl, trivial, hg, hdestroyed, hS, hfresh, hview⟩
      · rintro _ vm ⟨⟨-, hg, -⟩, -⟩
        exact hg

theorem alignedAlloc_some {A : Allocator} {a : Addr} (h : alignedAlloc A vm = .ok (some a) vm') :
    a ∉ vm.live ∧ vm' = { vm with calls := vm.calls + 1, live := a :: vm.live } := by
  rw [alignedAlloc] at h
  split at h
  · cases h
  · rename_i b hb
    cases h
    exact ⟨(A.alloc_fresh _ _ _ hb).2.2, rfl⟩

theorem Grows.of_alignedAlloc {A : Allocator} {a : Option Addr} (h : alignedAlloc A vm = .ok a vm') :
    Grows ∅ vm vm' := by
  cases a with
  | none =>
    rw [alignedAlloc_none h]
    exact Grows.of_live (fun _ hx => hx) (fun _ _ _ => rfl) rfl rfl
  | some a =>
    rw [(alignedAlloc_some h).2]
    exact Grows.of_live (fun _ hx => List.mem_cons_of_mem a hx) (fun _ _ _ => rfl) rfl rfl

theorem Kernel.Housed.clone (h : k.Housed tree) (hq : k.tasks q = none) (ht : k.tasks p = some t)
    (hx : childPageTable P flags t k.vm = .ok pageTable vm) {a : Addr}
    (halloc : alignedAlloc P.allocator vm = .ok (some a) vm') :
    (∃ tree', Memory.Housed vm' (Function.update k.root q pageTable)
        (Function.update k.stack q (some a)) tree') ∧ vm'.destroyed = k.vm.destroyed := by
  have hroots : (∃ tree', Memory.Housed vm (Function.update k.root q pageTable) k.stack tree') ∧
      vm.destroyed = k.vm.destroyed := by
    obtain ⟨hpt, rfl⟩ | ⟨root, r, S, hroot, rfl, -, hg, hdestroyed, hS, hfresh, -⟩ :=
      (h.wp_childPageTable ht).of_ok hx
    · refine ⟨⟨tree, ?_⟩, rfl⟩
      cases pageTable with
      | none =>
        rw [Function.update_eq_self_iff.mpr (Kernel.root_of_none hq).symm]
        exact h
      | some r => exact h.share (hpt.resolve_left nofun).1.symm q
    · refine ⟨⟨_, (h.keep hg).insertRoot hS ?_ ?_ q⟩, hdestroyed⟩
      · intro x hx r' hr' hx'
        exact hfresh x hx ((h.owns r' hr').live x hx')
      · intro x hx hx'
        exact hfresh x hx (h.live x hx')
  obtain ⟨⟨tree', h'⟩, hdestroyed⟩ := hroots
  obtain ⟨ha, hvm'⟩ := alignedAlloc_some halloc
  refine ⟨⟨tree', (h'.keep (Grows.of_alignedAlloc halloc)).insertPage ?_ ?_ ?_ q⟩, ?_⟩
  · rw [hvm']
    exact List.mem_cons_self
  · exact fun hmem => ha (h'.live a hmem)
  · intro r hr hmem
    exact ha ((h'.owns r hr).live a hmem)
  · rw [hvm']
    exact hdestroyed

end Clone

theorem Kernel.Housed.destroysUnshared (h : k.Housed tree) (hroot : k'.root = k.root) {X : Set Addr}
    (hg : Grows X k.vm k'.vm) : DestroysUnshared k k' := by
  obtain ⟨ds, hds, hall⟩ := hg.destroyed
  refine ⟨ds, hds, ?_⟩
  intro d hd
  refine ⟨(hall d hd).1, ?_⟩
  intro p hp
  rw [hroot] at hp
  exact (hall d hd).2 (h.root_live ⟨p, hp⟩)

theorem runVm_cases {α : Type} {x : VmM α} {r : Except ErrorCode α} {Q : α → Vm → Prop}
    {E : VmStop → Vm → Prop} (hx : wp x Q E k.vm) (hr : runVm x k = .ok r k') :
    (∃ a, Q a k'.vm) ∨ ∃ e, E e k'.vm := by
  rw [runVm] at hr
  split at hr
  · rename_i a vm hrun
    cases hr
    exact Or.inl ⟨a, hx.of_ok hrun⟩
  · rename_i code vm hrun
    cases hr
    exact Or.inr ⟨_, hx.of_error hrun⟩
  · cases hr

theorem runVm_exec {A : Allocator} {pageDir : Addr} {call : VmCall} {r : Except ErrorCode Unit}
    (hr : runVm (call.exec A pageDir) k = .ok r k') : k'.vm = (call.step A pageDir k.vm).2 := by
  rw [runVm] at hr
  rw [VmCall.step]
  split at hr
  · rename_i hrun
    cases hr
    rw [hrun]
  · rename_i hrun
    cases hr
    rw [hrun]
  · cases hr

end Memory

/-- A page directory whose pages no task has. -/
def Kernel.SpareDirectory (k : Kernel) (r : Addr) : Prop :=
  ∃ T, Owns k.vm (kPageTableLevels - 1) r T ∧
    ∀ x ∈ foot x86 (kPageTableLevels - 1) r T, ∀ p, ¬ k.HasPage p x

/-- The pages that the task maps and would free are no page tables and no stacks of other tasks. -/
def Kernel.FreesOwn (k : Kernel) (q : Ptr) (u : TaskControlBlock) : Prop :=
  CloneFlags.has u.cloneFlags CloneFlags.kCloneVm = false → ∀ r va x, u.pageTable = some r →
    IsCanonical va → mapping k.vm r va = some x → ∀ p, p ≠ q → ¬ k.HasPage p x

/-- No task that still shares its page table is destroyed. An ended task that `Wait` looks for has
its page table alone, and the pages that it maps are no page tables or stacks; a child that has a
page table, of its own or its parent's, gets its kernel stack, as it would be deleted otherwise; and
a new task comes with pages that no task has. -/
def SysOp.Separate (P : Platform) (k : Kernel) : SysOp → Prop
  | addTask _ _ t => (∀ r, t.pageTable = some r → k.SpareDirectory r) ∧
      ∀ a, t.kernelStack = some a → a ∈ k.vm.live ∧ (∀ p, ¬ k.HasPage p a) ∧
        ∀ r, t.pageTable = some r → a ∉ tablePages k.vm r
  | clone c flags child => child ≠ none → ∀ p t, k.running c = some p → k.tasks p = some t →
      ∀ r vm, childPageTable P (completeFlags flags) t k.vm = .ok (some r) vm →
        P.allocator.alloc vm.calls vm.live ≠ none
  | wait c pid _ _ _ => ∀ q u, k.tasks q = some u → k.WaitedFor c pid u → isDead u = true →
      (∀ r, u.pageTable = some r → SoleHolder k.root q r) ∧ k.FreesOwn q u
  | vmCall _ pageDir _ => (∃ p, k.root p = some pageDir) ∨ k.SpareDirectory pageDir
  | _ => True

section Steps

variable {P : Platform} {k k' : Kernel} {loc loc' : Ptr → Option Slot} {p q : Ptr} {t u : TaskControlBlock}
  {c : CoreId} {tree : Addr → PageTree (kPageTableLevels - 1)} {flags : BitVec 64} {child : Option Ptr}

namespace Kernel.Housed

theorem spare (h : k.Housed tree) {r : Addr} (hr : k.SpareDirectory r) :
    ∃ T, Owns k.vm (kPageTableLevels - 1) r T ∧
      (∀ x ∈ foot x86 (kPageTableLevels - 1) r T, ∀ r' ∈ valuesOf k.root,
        x ∉ foot x86 (kPageTableLevels - 1) r' (tree r')) ∧
      ∀ x ∈ foot x86 (kPageTableLevels - 1) r T, x ∉ valuesOf k.stack := by
  obtain ⟨T, hT, hout⟩ := hr
  refine ⟨T, hT, ?_, ?_⟩
  · rintro x hx r' ⟨p, hp⟩
    exact h.not_foot (hout x hx p) hp
  · rintro x hx ⟨p, hp⟩
    exact hout x hx p (Or.inl hp)

theorem added (h : k.Housed tree) (hp : k.tasks p = none)
    (hroot : ∀ r, t.pageTable = some r → k.SpareDirectory r)
    (hstack : ∀ a, t.kernelStack = some a → a ∈ k.vm.live ∧ (∀ p, ¬ k.HasPage p a) ∧
      ∀ r, t.pageTable = some r → a ∉ tablePages k.vm r) :
    ∃ tree', Memory.Housed k.vm (Function.update k.root p t.pageTable)
      (Function.update k.stack p t.kernelStack) tree' := by
  have hstep : ∃ tree', Memory.Housed k.vm (Function.update k.root p t.pageTable) k.stack tree' ∧
      ∀ a, (∀ p, ¬ k.HasPage p a) → (∀ r, t.pageTable = some r → a ∉ tablePages k.vm r) →
        ∀ r ∈ valuesOf (Function.update k.root p t.pageTable),
          a ∉ foot x86 (kPageTableLevels - 1) r (tree' r) := by
    cases hr : t.pageTable with
    | none =>
      rw [Function.update_eq_self_iff.mpr (Kernel.root_of_none hp).symm]
      refine ⟨tree, h, ?_⟩
      rintro a ha - r ⟨q, hq⟩
      exact h.not_foot (ha q) hq
    | some r =>
      obtain ⟨T, hT, hroots, hpages⟩ := h.spare (hroot r hr)
      refine ⟨_, h.insertRoot hT hroots hpages p, ?_⟩
      intro a ha hown r' hr'
      by_cases he : r' = r
      · rw [he, Function.update_self, hT.rep.foot_eq_tables]
        exact hown r rfl
      · rw [Function.update_of_ne he]
        obtain hself | ⟨q, hq⟩ := valuesOf_update_some_subset k.root p r hr'
        · exact absurd hself he
        · exact h.not_foot (ha q) hq
  obtain ⟨tree', h', hout⟩ := hstep
  refine ⟨tree', ?_⟩
  cases ha : t.kernelStack with
  | none =>
    have hsame : Function.update k.stack p none = k.stack :=
      Function.update_eq_self_iff.mpr (Kernel.stack_of_none hp).symm
    rw [hsame]
    exact h'
  | some a =>
    obtain ⟨hlive, hspare, hown⟩ := hstack a ha
    apply h'.insertPage hlive
    · rintro ⟨q, hq⟩
      exact hspare q (Or.inl hq)
    · exact hout a hspare hown

theorem reaped (h : k.Housed tree) (hsole : ∀ r, u.pageTable = some r → SoleHolder k.root q r)
    (hown : k.FreesOwn q u) (hr : Reaped q u k k') :
    k'.Housed tree ∧ DestroysUnshared k k' := by
  obtain ⟨-, hu, hd⟩ := hr
  have hspace : k'.space = Function.update k.space q none := hd.space
  have hvm : k'.vm = u.space.freeRoot (u.space.freeStack k.vm) := by
    rw [hd.rest]
    rfl
  have hroot := Kernel.root_of_tasks hu
  have hrel := h.release (s := u.space) hroot (Kernel.stack_of_tasks hu) hsole ?_
  · obtain ⟨h', ds, hds, hall⟩ := hrel
    have hroot' : k'.root = Function.update k.root q none := Kernel.root_update hspace
    refine ⟨?_, ds, by rw [hvm, hds], ?_⟩
    · rw [Kernel.Housed, hvm, hroot', Kernel.stack_update hspace]
      exact h'
    · intro d hdd
      refine ⟨(hall d hdd).1, ?_⟩
      intro p hp
      -- only the deleted task had the root
      rw [hroot'] at hp
      exact ((hsole d.root (hroot.symm.trans (hall d hdd).2)).valuesOf_update_none ⟨p, hp⟩).2 rfl
  · intro r hr hshared x hx p hpq
    obtain ⟨va, hva, hmap⟩ := (h.owns r ⟨q, hroot.trans hr⟩).mem_leaves_iff.mp hx
    exact hown hshared r va x hr hva hmap p hpq

theorem cloned {r : Except ErrorCode Pid} (h : k.Housed tree) (hfresh : ∀ q, child = some q → k.tasks q = none)
    (hsep : child ≠ none → ∀ p t, k.running c = some p → k.tasks p = some t →
      ∀ r vm, childPageTable P flags t k.vm = .ok (some r) vm → P.allocator.alloc vm.calls vm.live ≠ none)
    (he : CloneEffect P c flags child k loc r k' loc') :
    (∃ tree', k'.Housed tree') ∧ DestroysUnshared k k' := by
  cases he with
  | noTask | noPid | noBlock => exact ⟨⟨tree, h⟩, DestroysUnshared.of_eq rfl⟩
  | noTable _ _ ht hx =>
    have hg := (h.wp_childPageTable ht).of_error hx
    exact ⟨⟨tree, h.keep hg⟩, h.destroysUnshared rfl hg⟩
  | @noStack q parent t pageTable vm vm' hq hrun ht hx halloc =>
    cases pageTable with
    | none =>
      -- there is nothing to give back
      have hg : Grows ∅ k.vm vm' := by
        obtain ⟨-, rfl⟩ | ⟨_, _, _, -, ⟨⟩, -⟩ := (h.wp_childPageTable ht).of_ok hx
        exact Grows.of_alignedAlloc halloc
      have hmem := k.leftOver_none flags t vm'
      rw [Kernel.leftOver] at hmem
      rw [hmem]
      exact ⟨⟨tree, h.keep hg⟩, h.destroysUnshared rfl hg⟩
    | some r =>
      have hsome := hsep (hq ▸ Option.some_ne_none _) _ _ hrun ht r vm hx
      rw [alignedAlloc] at halloc
      split at halloc
      · rename_i hnone
        exact absurd hnone hsome
      · cases halloc
  | cloned _ hq hrun ht hx halloc hcl _ hvm =>
    obtain ⟨⟨tree', h'⟩, hdestroyed⟩ := h.clone (hfresh _ hq) ht hx halloc
    refine ⟨⟨tree', ?_⟩, DestroysUnshared.of_eq (by rw [hvm, hdestroyed])⟩
    rw [Kernel.Housed, hvm, Kernel.root_update hcl.space, Kernel.stack_update hcl.space]
    exact h'

theorem effect {op : SysOp} (h : k.Housed tree) (hen : op.Enabled k) (hsep : op.Separate P k)
    (he : op.Effect P k k') : (∃ tree', k'.Housed tree') ∧ DestroysUnshared k k' := by
  have kept : ∀ {k' : Kernel}, k'.space = k.space → k'.vm = k.vm →
      (∃ tree', k'.Housed tree') ∧ DestroysUnshared k k' := by
    intro k' hspace hvm
    exact ⟨⟨tree, h.congr hspace hvm⟩, DestroysUnshared.of_eq (by rw [hvm])⟩
  have persists : Persists k k' → (∃ tree', k'.Housed tree') ∧ DestroysUnshared k k' :=
    fun hp => kept hp.space hp.vm
  cases op with
  | initCurrentCore c i =>
    obtain ⟨_, hi⟩ := he
    have hroot : k'.root = k.root := by
      rw [Kernel.root_update hi.space]
      exact Function.update_eq_self_iff.mpr (Kernel.root_of_none hen.2).symm
    have hstack : k'.stack = k.stack := by
      rw [Kernel.stack_update hi.space]
      exact Function.update_eq_self_iff.mpr (Kernel.stack_of_none hen.2).symm
    refine ⟨⟨tree, ?_⟩, DestroysUnshared.of_eq (by rw [hi.vm])⟩
    rw [Kernel.Housed, hroot, hstack, hi.vm]
    exact h
  | addTask c task t =>
    obtain ⟨_, _, ha⟩ := he
    obtain ⟨tree', h'⟩ := h.added hen.1 hsep.1 hsep.2
    have hvm : k'.vm = k.vm := ha.vm
    refine ⟨⟨tree', ?_⟩, DestroysUnshared.of_eq (by rw [hvm])⟩
    rw [Kernel.Housed, hvm, Kernel.root_update ha.space, Kernel.stack_update ha.space]
    exact h'
  | clone c flags child =>
    obtain ⟨r, _, _, he⟩ := he
    exact h.cloned hen hsep he
  | exit c exitCode =>
    obtain ⟨_, _, k₁, -, -, hd, hp⟩ := he
    have hvm : k₁.vm = k.vm := by
      rw [hd.rest]
    exact kept (hp.space.trans hd.space) (hp.vm.trans hvm)
  | wait c pid noHang untraced order =>
    obtain hp | ⟨q, u, hw, hr⟩ := he
    · exact persists hp
    · obtain ⟨hsole, hown⟩ := hsep q u hr.2.1 hw hr.1
      obtain ⟨h', hd⟩ := h.reaped hsole hown hr
      exact ⟨⟨tree, h'⟩, hd⟩
  | allocPage c =>
    obtain ⟨r, hr⟩ := he
    have hspace : k'.space = k.space := by
      rw [runVm_rest hr]
      rfl
    have hg : Grows ∅ k.vm k'.vm := by
      obtain ⟨_, hg, -⟩ | ⟨_, -, hg⟩ := runVm_cases (wp_allocTable P.allocator k.vm 0) hr
      · exact hg
      · exact hg
    have hroot : k'.root = k.root := by
      rw [Kernel.root, Kernel.root, hspace]
    have hstack : k'.stack = k.stack := by
      rw [Kernel.stack, Kernel.stack, hspace]
    refine ⟨⟨tree, ?_⟩, h.destroysUnshared hroot hg⟩
    rw [Kernel.Housed, hroot, hstack]
    exact h.keep hg
  | vmCall c pageDir call =>
    obtain ⟨r, hr⟩ := he
    have hroot : k'.root = k.root := by
      rw [runVm_rest hr]
      rfl
    have hstack : k'.stack = k.stack := by
      rw [runVm_rest hr]
      rfl
    simp only [Kernel.Housed, hroot, hstack, runVm_exec hr]
    obtain ⟨p, hp⟩ | hspare := hsep
    · obtain ⟨T', hT'⟩ := VmCall.step_extends P.allocator (h.owns pageDir ⟨p, hp⟩) call
      have hg := hT'.grows
      rw [← runVm_exec hr] at hg
      exact ⟨⟨_, h.evolve hp hT'.toEvolves⟩, h.destroysUnshared hroot hg⟩
    · obtain ⟨T, hT, hroots, hpages⟩ := h.spare hspare
      obtain ⟨T', hT'⟩ := VmCall.step_extends P.allocator hT call
      have hg := hT'.grows
      rw [← runVm_exec hr] at hg
      exact ⟨h.evolve_outside hT hroots hpages hT'.toEvolves, h.destroysUnshared hroot hg⟩
  | findTask | schedule | tickUpdate | sleep | block | wakeup => exact persists he

end Kernel.Housed

end Steps

variable {P : Platform} {k : Kernel}

theorem SysRun.housed (h : SysRun P (fun k op => op.Careful k ∧ op.Separate P k) k) :
    (∃ tree, k.Housed tree) ∧ ∀ d ∈ k.vm.destroyed, d.wasLive = true := by
  apply SysRun.induction (fun _ _ hA => hA.1) _ _ h
  · exact ⟨⟨fun _ => blankTree x86 _, Kernel.Housed.empty _⟩, by simp⟩
  · rintro k loc op k' - - ⟨⟨tree, hk⟩, hlive⟩ hen ⟨-, hsep⟩ he
    obtain ⟨hk', ds, hds, hall⟩ := hk.effect hen hsep he
    refine ⟨hk', ?_⟩
    intro d hd
    rw [hds] at hd
    obtain hnew | hold := List.mem_append.mp hd
    · exact (hall d hnew).1
    · exact hlive d hold

section Bounded

/-- The control block that the operation brings. -/
def SysOp.Brings (p : Ptr) : SysOp → Prop
  | initCurrentCore _ idleTask => idleTask = p
  | addTask _ task _ => task = p
  | clone _ _ child => child = some p
  | _ => False

theorem SysOp.Effect.tasks_none {op : SysOp} {k' : Kernel} {p : Ptr} (he : op.Effect P k k')
    (hp : k.space p = none) (hop : ¬ op.Brings p) : k'.space p = none := by
  cases he.outcome with
  | initialised hi => rw [hi.space, Function.update_of_ne (Ne.symm hop), hp]
  | added ha => rw [ha.space, Function.update_of_ne (Ne.symm hop), hp]
  | cloned hq _ _ hcl _ =>
    have hne : p ≠ _ := fun he => hop (he ▸ hq)
    rw [hcl.space, Function.update_of_ne hne, hp]
  | departed _ _ hd hp' => rw [hp'.space, hd.space, hp]
  | @reaped _ _ _ _ _ q _ _ _ hr =>
    rw [hr.2.2.space]
    by_cases hq : p = q
    · rw [hq, Function.update_self]
    · rw [Function.update_of_ne hq]
      exact hp
  | persists h => rw [h.space, hp]
  | rest => exact hp

theorem SysRun.space_none {A : Kernel → SysOp → Prop} {n : ℕ}
    (h : SysRun P (fun k op => op.Careful k ∧ A k op) k)
    (hA : ∀ k op p, A k op → op.Brings p → p < n) {p : Ptr} (hp : n ≤ p) : k.space p = none := by
  apply SysRun.induction (I := fun k => k.space p = none) (fun _ _ hop => hop.1) rfl _ h
  intro k loc op k' _ _ hk _ hop he
  exact SysOp.Effect.tasks_none he hk fun hb => absurd (hA k op p hop.2 hb) (not_lt.mpr hp)

end Bounded

/-- In every run in which no task that still shares its page table is destroyed, every page
directory that was destroyed was live then, so that none is destroyed twice, and what the next
operation destroys is the page table of no task. -/
theorem page_tables_destroyed_unshared (h : SysRun P (fun k op => op.Careful k ∧ op.Separate P k) k) :
    (∀ d ∈ k.vm.destroyed, d.wasLive = true) ∧
    ∀ (op : SysOp) (k' : Kernel), op.Enabled k → op.Careful k → op.Separate P k →
      (op.exec P : KernelM Unit) k = .ok () k' → DestroysUnshared k k' := by
  obtain ⟨⟨tree, hk⟩, hlive⟩ := h.housed
  refine ⟨hlive, ?_⟩
  intro op k' hen hcare hsep hexec
  obtain ⟨loc, hst, hl⟩ := (h.mono fun _ _ hA => hA.1).invariant
  obtain ⟨-, -, he⟩ := SysOp.effect_of_exec hst hl hen hcare hexec
  exact (hk.effect hen hsep he).2

section Replay

/-- `Separate` with empty page tables and control blocks below `n` only, as it can be checked. -/
def SysOp.separateBelow (P : Platform) (n : ℕ) (k : Kernel) : SysOp → Bool
  | initCurrentCore _ idleTask => decide (idleTask < n)
  | addTask _ task t => decide (task < n ∧ t.kernelStack = none) && t.pageTable.all fun r =>
      decide (k.vm.Empty r ∧ ∀ p < n, k.root p = none ∧ k.stack p ≠ some r)
  | clone c flags child => decide ((∀ q ∈ child, q < n) ∧ ∀ p ∈ k.running c, ∀ t ∈ k.tasks p,
      wp (childPageTable P (completeFlags flags) t)
        (fun r vm => r = none ∨ P.allocator.alloc vm.calls vm.live ≠ none) (fun _ _ => True) k.vm)
  | wait _ _ _ _ _ => decide (∀ q < n, ∀ u ∈ k.tasks q, isDead u = true → u.pageTable.all
      (fun r => decide (k.vm.Empty r ∧ ∀ p < n, p ≠ q → k.root p ≠ some r)) = true)
  | vmCall _ _ _ => false
  | _ => true

theorem SysOp.separate_of_below {n : ℕ} {op : SysOp} (h : op.separateBelow P n k = true)
    (hk : ∀ p, n ≤ p → k.space p = none) : op.Separate P k := by
  have hroot : ∀ p, n ≤ p → k.root p = none ∧ k.stack p = none := by
    intro p hp
    rw [Kernel.root, Kernel.stack, Function.comp_apply, Function.comp_apply, hk p hp]
    exact ⟨rfl, rfl⟩
  cases op with
  | addTask c task t =>
    obtain ⟨htask, hspare⟩ := Bool.and_eq_true_iff.mp h
    refine ⟨?_, by simp [(of_decide_eq_true htask).2]⟩
    intro r hr
    rw [hr, Option.all_some, decide_eq_true_iff] at hspare
    obtain ⟨hempty, hfree⟩ := hspare
    refine ⟨_, hempty.owns, ?_⟩
    intro x hx p hp
    rw [foot_blankTree, Set.mem_singleton_iff] at hx
    subst hx
    obtain hs | ⟨r', hr', -⟩ := hp
    · obtain hlt | hle := lt_or_ge p n
      · exact (hfree p hlt).2 hs
      · cases (hroot p hle).2.symm.trans hs
    · obtain hlt | hle := lt_or_ge p n
      · cases (hfree p hlt).1.symm.trans hr'
      · cases (hroot p hle).1.symm.trans hr'
  | clone c flags child =>
    intro _ p t hrun ht r vm hx
    exact (((of_decide_eq_true h).2 p hrun t ht).of_ok hx).resolve_left (Option.some_ne_none r)
  | wait c pid noHang untraced order =>
    intro q u hu _ hdead
    have hq : q < n := by
      by_contra hle
      cases (Kernel.space_of_tasks hu).symm.trans (hk q (not_lt.mp hle))
    have hall := of_decide_eq_true h q hq u hu hdead
    have htable : ∀ r, u.pageTable = some r → k.vm.Empty r ∧ ∀ p < n, p ≠ q → k.root p ≠ some r := by
      intro r hr
      rwa [hr, Option.all_some, decide_eq_true_iff] at hall
    constructor
    · intro r hr p hpq hp
      obtain hlt | hle := lt_or_ge p n
      · exact (htable r hr).2 p hlt hpq hp
      · cases (hroot p hle).1.symm.trans hp
    · intro _ r va x hr _ hx
      rw [(htable r hr).1.mapping] at hx
      cases hx
  | vmCall c pageDir call => cases h
  | _ => trivial

theorem SysRun.separate_of_below {n : ℕ}
    (h : SysRun P (fun k op => op.Careful k ∧ op.separateBelow P n k = true) k) :
    SysRun P (fun k op => op.Careful k ∧ op.Separate P k) k := by
  apply h.mono_of_reached
  rintro k op hrun ⟨hcare, hop⟩
  refine ⟨hcare, SysOp.separate_of_below hop ?_⟩
  intro p hp
  apply hrun.space_none _ hp
  intro k op q hop hq
  cases op with
  | initCurrentCore c i => exact hq ▸ of_decide_eq_true hop
  | addTask c task t => exact hq ▸ (of_decide_eq_true (Bool.and_eq_true_iff.mp hop).1).1
  | clone c flags child => exact (of_decide_eq_true hop).1 q hq
  | _ => exact hq.elim

end Replay

/-- A child with a page table of its own has been reaped, while a thread shares that of task 1. The
run takes the assertion of `AddTask` on the status of the children as passed. -/
theorem page_tables_destroyed_unshared_example :
    ∃ k, SysRun (presetPlatform false) (fun k op => op.Careful k ∧ op.Separate (presetPlatform false) k) k ∧
      k.root 1 = some 0x1000 ∧ k.root 2 = some 0x1000 ∧
      (0x3000 : Addr) ∈ k.vm.destroyed.map Destruction.root ∧ ∀ d ∈ k.vm.destroyed, d.wasLive = true := by
  have hrun : ∃ k, SysRun (presetPlatform false)
      (fun k op => op.Careful k ∧ op.separateBelow (presetPlatform false) 4 k = true) k ∧
      k.root 1 = some 0x1000 ∧ k.root 2 = some 0x1000 ∧
      (0x3000 : Addr) ∈ k.vm.destroyed.map Destruction.root := by
    apply SysRun.exists_replay (fun k op => op.separateBelow (presetPlatform false) 4 k = true)
      (startWithTable ++ [.clone 0 CloneFlags.kCloneVm (some 2), .clone 0 0 (some 3),
        .wait 0 3 false false [(1, 1), (2, 2), (3, 3)], .schedule 0, .exit 0 7, .schedule 0,
        .wait 0 3 false false [(1, 1), (2, 2), (3, 3)]])
    decide +kernel
  obtain ⟨k, hk, hroot, hshared, hdestroyed⟩ := hrun
  have hsep := hk.separate_of_below
  exact ⟨k, hsep, hroot, hshared, hdestroyed, (page_tables_destroyed_unshared hsep).1⟩

set_option maxRecDepth 100000 in
/-- A `Clone` that shares the page table and gets no kernel stack destroys the page table, which the
task still has. When the task tries again, it is destroyed again. -/
theorem clone_destroys_shared_page_table :
    (∃ k, SysRun (scarcePlatform 1) (fun k op => op.Careful k) k ∧ k.HasDirectory ∧
      k.vm.destroyed = [] ∧ k.CloneFails (scarcePlatform 1) CloneFlags.kCloneVm (fun k' =>
        k'.root 1 = some 0x1000 ∧ k'.vm.destroyed = [⟨0x1000, true⟩])) ∧
    ∃ k, SysRun (scarcePlatform 1) (fun k op => op.Careful k) k ∧
      k.vm.destroyed = [⟨0x1000, false⟩, ⟨0x1000, true⟩] := by
  constructor
  · apply SysRun.exists_careful startWithTable
    decide +kernel
  · apply SysRun.exists_careful (startWithTable ++
      [.clone 0 CloneFlags.kCloneVm (some 2), .clone 0 CloneFlags.kCloneVm (some 2)])
    decide +kernel

end NaiLongKernel.Task
