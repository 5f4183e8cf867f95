import NaiLongKernel.Foundation.Reached
import NaiLongKernel.Memory.Holdings

/-!
# Several page directories

A machine whose operations create, change, clone and destroy page directories. However
the directories were built, no two of them share a table, and destroying one without its
frames frees its tables, each once, and nothing else.
-/
namespace NaiLongKernel.Memory

open Foundation Foundation.Radix

/-- The memory and the roots of the directories in it. -/
structure Directories where
  vm : Vm
  roots : List Addr

/-- An operation on the directories, by the root that it is called with. -/
inductive DirectoryOp where
  /-- `aligned_alloc` and `memset` of a root. -/
  | create
  | call (root : Addr) (c : VmCall)
  | clone (root : Addr) (copyMappings : Bool)
  | destroy (root : Addr)
deriving DecidableEq, Repr

variable (A : Allocator)

/-- The directories after an operation that may have made a new one. -/
def Directories.grown (s : Directories) : EStateM.Result VmStop Vm Addr → Directories
  | .ok root vm => ⟨vm, root :: s.roots⟩
  | .error _ vm => ⟨vm, s.roots⟩

/-- One operation; it is called with the root of a directory. -/
def DirectoryOp.step (s : Directories) : DirectoryOp → Option Directories
  | create => some (s.grown (allocTable A s.vm))
  | call root c => if s.roots.contains root then some ⟨(c.step A root s.vm).2, s.roots⟩ else none
  | clone root copyMappings =>
    if s.roots.contains root then some (s.grown (clonePageDirectory A root copyMappings s.vm)) else none
  | destroy root =>
    if s.roots.contains root then
      some ⟨destroyPageDirectory root false s.vm, s.roots.filter (· != root)⟩
    else none

/-- Each root has a tree of tables of its own. -/
structure Forest (s : Directories) (tree : Addr → PageTree (kPageTableLevels - 1)) : Prop where
  owns : ∀ r ∈ s.roots, Owns s.vm (kPageTableLevels - 1) r (tree r)
  apart : ∀ r ∈ s.roots, ∀ r' ∈ s.roots, r ≠ r' →
    Disjoint (foot x86 (kPageTableLevels - 1) r (tree r))
      (foot x86 (kPageTableLevels - 1) r' (tree r'))

namespace Forest

variable {vm vm' : Vm} {roots : List Addr} {tree : Addr → PageTree (kPageTableLevels - 1)}
  {r : Addr}

theorem iff_holdings : Forest ⟨vm, roots⟩ tree ↔ Holdings vm {r | r ∈ roots} ∅ tree :=
  ⟨fun h => ⟨h.owns, h.apart, by simp, by simp⟩, fun h => ⟨h.owns, h.apart⟩⟩

theorem keep (h : Forest ⟨vm, roots⟩ tree) (hg : Grows ∅ vm vm') : Forest ⟨vm', roots⟩ tree :=
  iff_holdings.mpr ((iff_holdings.mp h).keep hg)

theorem evolve (h : Forest ⟨vm, roots⟩ tree) {T' : PageTree (kPageTableLevels - 1)}
    (hr : r ∈ roots) (he : Evolves vm vm' (kPageTableLevels - 1) r (tree r) T') :
    Forest ⟨vm', roots⟩ (Function.update tree r T') :=
  iff_holdings.mpr ((iff_holdings.mp h).evolve hr he)

theorem add (h : Forest ⟨vm, roots⟩ tree) (hg : Grows ∅ vm vm')
    {S : PageTree (kPageTableLevels - 1)} (hS : Owns vm' (kPageTableLevels - 1) r S)
    (hfresh : ∀ x ∈ foot x86 (kPageTableLevels - 1) r S, x ∉ vm.live) :
    Forest ⟨vm', r :: roots⟩ (Function.update tree r S) := by
  apply iff_holdings.mpr
  apply ((iff_holdings.mp h).add hg hS hfresh).mono _ subset_rfl
  intro q hq
  exact List.mem_cons.mp hq

theorem destroy (h : Forest ⟨vm, roots⟩ tree) (hr : r ∈ roots) :
    Forest ⟨destroyPageDirectory r false vm, roots.filter (· != r)⟩ tree := by
  apply iff_holdings.mpr
  apply ((iff_holdings.mp h).destroy hr false _ _).mono _ subset_rfl
  · intro x hF
    exact absurd hF.1 Bool.false_ne_true
  · intro x hF
    exact absurd hF.1 Bool.false_ne_true
  · intro q hq
    simpa using hq

theorem step {s s' : Directories} (h : Forest s tree) {op : DirectoryOp}
    (hs : op.step A s = some s') : ∃ tree', Forest s' tree' := by
  cases op with
  | create =>
    cases hs
    have hspec := wp_allocTable A s.vm (kPageTableLevels - 1)
    cases hrun : allocTable A s.vm with
    | ok root vm' =>
      rcases hspec.of_ok hrun with ⟨hg, hb, -, hfresh⟩
      refine ⟨_, h.add hg hb ?_⟩
      intro x hx
      rw [foot_blankTree] at hx
      exact hx ▸ hfresh
    | error e vm' => exact ⟨tree, h.keep (hspec.of_error hrun).2⟩
  | call root c =>
    rw [DirectoryOp.step, Option.ite_none_right_eq_some, List.contains_iff_mem] at hs
    rcases hs with ⟨hr, hs⟩
    cases hs
    rcases VmCall.step_extends A (h.owns root hr) c with ⟨T', hT'⟩
    exact ⟨_, h.evolve hr hT'.toEvolves⟩
  | clone root copyMappings =>
    rw [DirectoryOp.step, Option.ite_none_right_eq_some, List.contains_iff_mem] at hs
    rcases hs with ⟨hr, hs⟩
    cases hs
    have hspec := wp_clonePageDirectory A copyMappings (h.owns root hr)
    cases hrun : clonePageDirectory A root copyMappings s.vm with
    | ok dst vm' =>
      rcases hspec.of_ok hrun with ⟨hg, ⟨S, hS, hfresh, -⟩, -⟩
      exact ⟨_, h.add hg hS hfresh⟩
    | error e vm' => exact ⟨tree, h.keep (hspec.of_error hrun).2.1⟩
  | destroy root =>
    rw [DirectoryOp.step, Option.ite_none_right_eq_some, List.contains_iff_mem] at hs
    rcases hs with ⟨hr, hs⟩
    cases hs
    exact ⟨tree, h.destroy hr⟩

end Forest

/-- The states that any operations reach from a memory with one zeroed root. -/
def Built (vm : Vm) (root : Addr) (s : Directories) : Prop :=
  Reached (fun s op => DirectoryOp.step A s op) (fun _ _ => True) ⟨vm, [root]⟩ s

variable {A} {vm : Vm} {root : Addr} {s : Directories}

theorem Built.forest (hroot : root ≠ 0) (hlive : root ∈ vm.live)
    (hzero : ∀ i < kEntriesPerTable, vm.mem root i = 0) (h : Built A vm root s) :
    ∃ tree, Forest s tree := by
  refine Reached.invariant (I := fun s => ∃ tree, Forest s tree) ?_ ?_ h
  · refine ⟨fun _ => blankTree x86 _, ?_, ?_⟩
    · intro r hr
      rw [List.mem_singleton.mp hr]
      exact Owns.blank hzero hlive hroot
    · intro r hr r' hr' hne
      rw [List.mem_singleton.mp hr, List.mem_singleton.mp hr'] at hne
      exact absurd rfl hne
  · rintro s op s' ⟨tree, hf⟩ _ hs
    exact hf.step A hs

/-- Whatever was called on the directories, destroying one of them without its frames frees
exactly its tables, each once and none as a frame; the other directories share no table
with it and keep their translations. -/
theorem destroyPageDirectory_frees_exactly_tree (hroot : root ≠ 0) (hlive : root ∈ vm.live)
    (hzero : ∀ i < kEntriesPerTable, vm.mem root i = 0) (h : Built A vm root s) {dir : Addr}
    (hdir : dir ∈ s.roots) :
    FreesExactly (tablePages s.vm dir) s.vm (destroyPageDirectory dir false s.vm) ∧
    ∀ other ∈ s.roots, other ≠ dir →
      Disjoint (tablePages s.vm dir) (tablePages s.vm other) ∧
      ∀ va, translate (destroyPageDirectory dir false s.vm) other va =
        translate s.vm other va := by
  rcases h.forest hroot hlive hzero with ⟨tree, hf⟩
  refine ⟨(hf.owns dir hdir).freesExactly, ?_⟩
  intro other hother hne
  constructor
  · rw [tablePages, tablePages, ← (hf.owns dir hdir).rep.foot_eq_tables,
      ← (hf.owns other hother).rep.foot_eq_tables]
    exact hf.apart dir hdir other hother (Ne.symm hne)
  · intro va
    have hkept := (hf.destroy hdir).owns other (by simpa using ⟨hother, hne⟩)
    rw [hkept.translate_eq, (hf.owns other hother).translate_eq]

/-- A directory with one page mapped and one unmapped again, after its clone was destroyed. -/
theorem destroyPageDirectory_frees_exactly_tree_example :
    ∃ s, Built pageSequence zeroedRoot 0x1000 s ∧ (0x1000 : Addr) ∈ s.roots ∧
      FreesExactly (tablePages s.vm 0x1000) s.vm (destroyPageDirectory 0x1000 false s.vm) := by
  have hstart : Built pageSequence zeroedRoot 0x1000 ⟨zeroedRoot, [0x1000]⟩ := Reached.start
  obtain ⟨s, hs, hmem⟩ := hstart.exists_replay (fun _ _ => true) (fun _ _ _ _ => trivial)
    [.call 0x1000 (.mapPage 0x400000 0x9000 7), .call 0x1000 (.mapPage 0x8000000000 0xa000 7),
      .clone 0x1000 true, .call 0x1000 (.unmapPage 0x400000), .destroy 0x8000]
    (R := fun s => (0x1000 : Addr) ∈ s.roots) (by decide +kernel)
  exact ⟨s, hs, hmem,
    (destroyPageDirectory_frees_exactly_tree (by decide) (by decide) (fun _ _ => rfl) hs hmem).1⟩

end NaiLongKernel.Memory
