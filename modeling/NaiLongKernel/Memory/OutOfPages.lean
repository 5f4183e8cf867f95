import NaiLongKernel.Memory.Cloning

/-!
# Page-table operations that run out of pages

The descent of `MapPage` links each new table before it asks for the next one. When a
page is missing, the tables linked so far stay in the directory: they are empty, so that
no translation changes, they are on the way of the address, so that a later `MapPage`
finds them, and `DestroyPageDirectory` frees them with the rest. `ClonePageDirectory`
instead gives up what it has built. It frees all of it only when the table that is given
up has no finished table below it.
-/
namespace NaiLongKernel.Memory

open Foundation Foundation.Radix

variable {A : Allocator} {vm vm' : Vm} {root va : Addr} {T T' : PageTree (kPageTableLevels - 1)}

/-- The pages that are live in `vm'` and were not in `vm`. -/
def newPages (vm vm' : Vm) : Set Addr := {x | x ∈ vm'.live ∧ x ∉ vm.live}

theorem Owns.tablePath_eq (h : Owns vm (kPageTableLevels - 1) root T) (va : Addr) :
    tablePath vm root va = trail (kPageTableLevels - 1) root T (indices va) :=
  h.rep.path_eq (indices_lt va)

theorem Owns.tablePages_eq (h : Owns vm (kPageTableLevels - 1) root T) :
    tablePages vm root = foot x86 (kPageTableLevels - 1) root T :=
  h.rep.foot_eq_tables.symm

theorem Descends.newPages_subset (h : Descends va vm vm' (kPageTableLevels - 1) root T T')
    {x : Addr} (hx : x ∈ newPages vm vm') : x ∈ tablePath vm' root va := by
  rw [h.owns.tablePath_eq]
  rcases (h.obtained.live x).mp hx.1 with hl | hadd
  · exact absurd hl hx.2
  · exact hadd.1

theorem Owns.mem_tablePages (h : Owns vm (kPageTableLevels - 1) root T) {x : Addr}
    (hx : x ∈ tablePath vm root va) : x ∈ tablePages vm root := by
  rw [h.tablePath_eq] at hx
  rw [h.tablePages_eq]
  exact trail_subset_foot (indices_lt va) hx

theorem Extends.tablePath_prefix (h : Owns vm (kPageTableLevels - 1) root T)
    (he : Extends vm vm' (kPageTableLevels - 1) root T T') (va : Addr) :
    tablePath vm root va <+: tablePath vm' root va := by
  rw [h.tablePath_eq, he.owns.tablePath_eq]
  exact he.kept (indices va)

/-- `MapPage` on a directory built from a zeroed root, with fewer pages left than tables are
missing: it returns an error, no answer of `GetMapping` changes, it has freed nothing, and
every page that it obtained is a table on the way of `va`, is found there by every later
successful `MapPage` of `va`, and is freed with the directory. -/
theorem mapPage_without_pages (hroot : root ≠ 0) (hlive : root ∈ vm.live)
    (hzero : ∀ i < kEntriesPerTable, vm.mem root i = 0) (calls : List VmCall) (va pa : Addr)
    (flags : BitVec 32) (m : ℕ) :
    let vm₁ := (runCalls A root calls vm).2
    A.failsAfter m vm₁.calls vm₁.live = true →
    (tablePath vm₁ root va).length + m < kPageTableLevels →
    ∃ vm₂, mapPage A root va pa flags vm₁ = .error (.unexpected .kVmMapFailed) vm₂ ∧
      (∀ va', ∃ r, getMapping A root va' vm₁ = answer r vm₁ ∧
        getMapping A root va' vm₂ = answer r vm₂) ∧
      vm₂.freed = vm₁.freed ∧ newPages vm₁ vm₂ ⊆ tablePages vm₂ root ∧
      ∀ later, let vm₃ := (runCalls A root later vm₂).2
        (∀ pa' flags' vm₄, mapPage A root va pa' flags' vm₃ = .ok () vm₄ →
          ∀ x ∈ newPages vm₁ vm₂, x ∈ tablePath vm₄ root va) ∧
        newPages vm₁ vm₂ ⊆ tablePages vm₃ root ∧
        FreesExactly (tablePages vm₃ root) vm₃ (destroyPageDirectory root false vm₃) := by
  intro vm₁ hm hshort
  rcases runCalls_extends A (Owns.blank hzero hlive hroot) calls with ⟨T₁, hT₁⟩
  have hspec := wp_mapPage_extends A hT₁.owns va pa flags
  cases hrun : mapPage A root va pa flags vm₁ with
  | ok _ vm₂ => exact absurd ((hspec.of_ok hrun).2 m hm) (Nat.not_le.mpr hshort)
  | error e vm₂ =>
    rcases hspec.of_error hrun with ⟨rfl, T₂, hT₂⟩
    have hpath : ∀ x ∈ newPages vm₁ vm₂, x ∈ tablePath vm₂ root va :=
      fun x hx => hT₂.newPages_subset hx
    refine ⟨vm₂, rfl, ?_, hT₂.freed, fun x hx => hT₂.owns.mem_tablePages (hpath x hx), ?_⟩
    · intro va'
      refine ⟨mapping vm₁ root va', getMapping_eq_answer A hroot, ?_⟩
      rw [getMapping_eq_answer A hroot, mapping, hT₂.owns.translate_same hT₁.owns hT₂.view]
      rfl
    · intro later vm₃
      rcases runCalls_extends A hT₂.owns later with ⟨T₃, hT₃⟩
      have hpath₃ : ∀ x ∈ newPages vm₁ vm₂, x ∈ tablePath vm₃ root va :=
        fun x hx => (hT₃.tablePath_prefix hT₂.owns va).subset (hpath x hx)
      refine ⟨?_, fun x hx => hT₃.owns.mem_tablePages (hpath₃ x hx), hT₃.owns.freesExactly⟩
      intro pa' flags' vm₄ hok x hx
      rcases (wp_mapPage_extends A hT₃.owns va pa' flags').of_ok hok with ⟨⟨T₄, hT₄⟩, -⟩
      exact (hT₄.tablePath_prefix hT₃.owns va).subset (hpath₃ x hx)

/-- The theorem at an empty root with two pages for the three missing tables. -/
theorem mapPage_without_pages_example :
    ∃ vm₂, mapPage (scarcePages 3) 0x1000 0x400000 0x9000 7 zeroedRoot =
        .error (.unexpected .kVmMapFailed) vm₂ ∧ newPages zeroedRoot vm₂ ⊆ tablePages vm₂ 0x1000 := by
  have hlive : (0x1000 : Addr) ∈ zeroedRoot.live := by decide
  obtain ⟨vm₂, hrun, -, -, hnew, -⟩ := mapPage_without_pages (A := scarcePages 3) (by decide) hlive
    (fun _ _ => rfl) [] 0x400000 0x9000 7 2 (by decide) (by decide)
  exact ⟨vm₂, hrun, hnew⟩

section Clone

/-- The pages of the next `m` calls of `aligned_alloc`, when nothing is freed between them. -/
def Allocator.answers (A : Allocator) : ℕ → (calls : ℕ) → (live : List Addr) → List Addr
  | 0, _, _ => []
  | m+1, calls, live =>
    match A.alloc calls live with
    | none => []
    | some a => a :: A.answers m (calls + 1) (a :: live)

/-- The pages `xs` have been obtained, in this order, and none has been freed. -/
structure Handed (A : Allocator) (xs : List Addr) (vm vm' : Vm) : Prop where
  live : vm'.live = xs.reverse ++ vm.live
  fresh : ∀ x ∈ xs, x ∉ vm.live
  freed : vm'.freed = vm.freed
  answers : ∀ m, A.failsAfter m vm.calls vm.live = true → xs.length ≤ m ∧
    A.answers m vm.calls vm.live =
      xs ++ A.answers (m - xs.length) vm'.calls vm'.live ∧
    A.failsAfter (m - xs.length) vm'.calls vm'.live = true

/-- The pages `xs` have been obtained, no further one could be, and then only `aligned_free`
has been called. -/
def RanOut (A : Allocator) (vm vm' : Vm) : Prop :=
  ∃ xs fs v, Handed A xs vm v ∧ A.alloc v.calls v.live = none ∧ FreesOnly fs v vm'

namespace Handed

variable {xs ys : List Addr} {vm₁ vm₂ : Vm}

theorem of_eq (hlive : vm'.live = vm.live) (hfreed : vm'.freed = vm.freed)
    (hcalls : vm'.calls = vm.calls) : Handed A [] vm vm' := by
  refine ⟨hlive, nofun, hfreed, ?_⟩
  intro m hm
  rw [hlive, hcalls]
  exact ⟨Nat.zero_le m, rfl, hm⟩

theorem trans (h : Handed A xs vm vm₁) (h' : Handed A ys vm₁ vm₂) :
    Handed A (xs ++ ys) vm vm₂ := by
  refine ⟨?_, ?_, h'.freed.trans h.freed, ?_⟩
  · rw [h'.live, h.live, List.reverse_append, List.append_assoc]
  · intro x hx hl
    rcases List.mem_append.mp hx with hx | hx
    · exact h.fresh x hx hl
    · refine h'.fresh x hx ?_
      rw [h.live]
      exact List.mem_append_right _ hl
  · intro m hm
    obtain ⟨hle, hans, hfail⟩ := h.answers m hm
    obtain ⟨hle', hans', hfail'⟩ := h'.answers _ hfail
    rw [List.length_append, ← Nat.sub_sub, List.append_assoc, ← hans']
    exact ⟨by omega, hans, hfail'⟩

theorem ranOut (h : Handed A xs vm vm₁) (h' : RanOut A vm₁ vm₂) : RanOut A vm vm₂ := by
  rcases h' with ⟨ys, fs, v, hv, hnone, hfs⟩
  exact ⟨xs ++ ys, fs, v, h.trans hv, hnone, hfs⟩

end Handed

/-- What a program obtains: it returns without having freed, runs out of pages, or fails an
assertion. -/
def Obtains (A : Allocator) {α : Type} (x : VmM α) : Prop :=
  ∀ vm, wp x (fun _ vm' => ∃ xs, Handed A xs vm vm')
    (fun e vm' => e = .unexpected .kVmAllocationFailed → RanOut A vm vm') vm

namespace Obtains

theorem pure {α : Type} (a : α) : Obtains A (pure a : VmM α) :=
  fun _ => (wp_pure _).mpr ⟨[], Handed.of_eq rfl rfl rfl⟩

theorem bind {α β : Type} {x : VmM α} {f : α → VmM β} (hx : Obtains A x)
    (hf : ∀ a, Obtains A (f a)) : Obtains A (x >>= f) := by
  intro vm
  rw [wp_bind]
  refine (hx vm).imp ?_
  rintro a vm₁ ⟨xs, hxs⟩
  refine wp_mono (hf a vm₁) ?_ ?_
  · rintro b vm₂ ⟨ys, hys⟩
    exact ⟨xs ++ ys, hxs.trans hys⟩
  · intro e vm₂ he hcode
    exact hxs.ranOut (he hcode)

theorem get : Obtains A (get : VmM Vm) :=
  fun _ => (wp_get _).mpr ⟨[], Handed.of_eq rfl rfl rfl⟩

theorem writeEntry (t : Addr) (i : ℕ) (pte : BitVec 64) :
    Obtains A (modify (Vm.writeEntry t i pte)) :=
  fun _ => (wp_modify _ _).mpr ⟨[], Handed.of_eq rfl rfl rfl⟩

theorem assertTable (t : Addr) (message : String) : Obtains A (assertTable t message) := by
  intro vm
  rw [Memory.assertTable, wp_ite]
  split
  · rw [wp_throw]
    intro hfail
    cases hfail
  · exact Obtains.pure () vm

theorem allocTable : Obtains A (allocTable A) := by
  intro vm
  cases ha : A.alloc vm.calls vm.live with
  | none =>
    rw [wp_of_error (allocTable_none A ha)]
    intro _
    exact ⟨[], [], vm, Handed.of_eq rfl rfl rfl, ha, rfl, by simp, nofun, fun _ => List.nodup_nil⟩
  | some b =>
    rw [wp_of_ok (allocTable_some A ha)]
    refine ⟨[b], rfl, ?_, rfl, ?_⟩
    · intro x hx
      rw [List.mem_singleton.mp hx]
      exact (A.alloc_fresh _ _ _ ha).2.2
    intro m hm
    cases m with
    | zero =>
      rw [Allocator.failsAfter, ha] at hm
      cases hm
    | succ m =>
      rw [Allocator.failsAfter, ha] at hm
      refine ⟨Nat.succ_le_succ (Nat.zero_le m), ?_, hm⟩
      rw [Allocator.answers, ha]
      rfl

theorem onUnexpected {α : Type} {x : VmM α} (hx : Obtains A x) {cleanup : Vm → Vm}
    (hcleanup : ∀ vm, ∃ fs, FreesOnly fs vm (cleanup vm)) : Obtains A (onUnexpected cleanup x) := by
  intro vm
  rw [wp_onUnexpected]
  refine wp_mono (hx vm) (fun _ _ h => h) ?_
  intro e vm₁ he
  cases e with
  | assertFailed message => exact nofun
  | unexpected code =>
    intro hcode
    rcases he hcode with ⟨xs, fs, v, hv, hnone, hfs⟩
    rcases hcleanup vm₁ with ⟨gs, hgs⟩
    exact ⟨xs, gs ++ fs, v, hv, hnone, hfs.trans hgs⟩

theorem forM {f : ℕ → VmM PUnit} (hf : ∀ i, Obtains A (f i)) (l : List ℕ) :
    Obtains A (l.forM f) := by
  induction l with
  | nil => exact Obtains.pure _
  | cons i l ih => exact (hf i).bind fun _ => ih

theorem recursiveClone (copyMappings : Bool) (n : ℕ) (src dst : Addr) :
    Obtains A (recursiveClonePageTable A copyMappings n src dst) := by
  induction n generalizing src dst with
  | zero =>
    refine (assertTable _ _).bind fun _ => (assertTable _ _).bind fun _ => forM ?_ _
    intro i
    refine get.bind fun vm => ?_
    dsimp only
    split
    · exact writeEntry _ _ _
    · exact Obtains.pure _
  | succ n ih =>
    refine (assertTable _ _).bind fun _ => (assertTable _ _).bind fun _ => forM ?_ _
    intro i
    refine get.bind fun vm => ?_
    dsimp only
    split
    · refine allocTable.bind fun b => (onUnexpected (ih _ _) ?_).bind fun _ => writeEntry _ _ _
      exact fun v => ⟨_, FreesOnly.alignedFree v b false⟩
    · exact Obtains.pure _

theorem clonePageDirectory (src : Addr) (copyMappings : Bool) :
    Obtains A (clonePageDirectory A src copyMappings) :=
  (assertTable _ _).bind fun _ => allocTable.bind fun dst =>
    (onUnexpected (recursiveClone copyMappings _ src dst) (FreesOnly.destroy false dst)).bind
      fun _ => Obtains.pure _

end Obtains

/-- The pages obtained are all that the allocator answers. -/
theorem RanOut.handed (h : RanOut A vm vm') {m : ℕ} (hm : A.failsAfter m vm.calls vm.live = true) :
    ∃ fs v, Handed A (A.answers m vm.calls vm.live) vm v ∧ vm'.freed = fs ++ vm.freed ∧
      FreesOnly fs v vm' := by
  rcases h with ⟨xs, fs, v, hv, hnone, hfs⟩
  have hxs : A.answers m vm.calls vm.live = xs := by
    obtain ⟨-, hans, hfail⟩ := hv.answers m hm
    cases hleft : m - xs.length with
    | zero =>
      rw [hans, hleft]
      exact List.append_nil xs
    | succ j =>
      rw [hleft, Allocator.failsAfter, hnone] at hfail
      cases hfail
  rw [hxs]
  exact ⟨fs, v, hv, by rw [hfs.freed, hv.freed], hfs⟩

/-- The pages that the allocator has answered have been freed, each once, and no others. -/
def FreesAnswers (A : Allocator) (m : ℕ) (vm vm' : Vm) : Prop :=
  ∃ fs, vm'.freed = fs ++ vm.freed ∧ (fs.map FreeCall.page).Nodup ∧
    ∀ x, x ∈ fs.map FreeCall.page ↔ x ∈ A.answers m vm.calls vm.live

theorem RanOut.freesAnswers (h : RanOut A vm vm') (hback : Obtained ∅ vm vm') {m : ℕ}
    (hm : A.failsAfter m vm.calls vm.live = true) : FreesAnswers A m vm vm' := by
  obtain ⟨fs, v, hv, hfreed, hfs⟩ := h.handed hm
  obtain ⟨gs, hgs, hall⟩ := hback.freed
  obtain rfl : fs = gs := List.append_cancel_right (hfreed.symm.trans hgs)
  refine ⟨fs, hfreed, hfs.nodup fun f hf => (hall f hf).1, ?_⟩
  intro x
  constructor
  · intro hx
    obtain ⟨f, hf, rfl⟩ := List.mem_map.mp hx
    have hlive := hfs.wasLive f hf (hall f hf).1
    rw [hv.live, List.mem_append, List.mem_reverse] at hlive
    exact hlive.resolve_right (hall f hf).2
  · intro hx
    have hgone : x ∉ vm'.live := by
      rw [hback.live]
      rintro (hl | hnone)
      · exact hv.fresh x hx hl
      · exact hnone
    by_contra hnot
    refine hgone ((hfs.live x).mpr ⟨?_, hnot⟩)
    rw [hv.live]
    exact List.mem_append_left _ (List.mem_reverse.mpr hx)

theorem RanOut.not_freesAnswers (h : RanOut A vm vm') (hleft : Leaks ∅ vm vm') {m : ℕ}
    (hm : A.failsAfter m vm.calls vm.live = true) : ¬ FreesAnswers A m vm vm' := by
  rintro ⟨gs, hgs, -, hall⟩
  obtain ⟨fs, v, hv, hfreed, hfs⟩ := h.handed hm
  obtain rfl : fs = gs := List.append_cancel_right (hfreed.symm.trans hgs)
  obtain ⟨x, hx, hnew, -⟩ := hleft
  obtain ⟨hlive, hnot⟩ := (hfs.live x).mp hx
  rw [hv.live, List.mem_append, List.mem_reverse] at hlive
  exact hnot ((hall x).mpr (hlive.resolve_right hnew))

variable {src : Addr}

/-- `ClonePageDirectory` of any directory, with too few pages: it returns an error, leaves the
source as it is and has freed every page that it obtained, each once, exactly when the table that
is given up has no finished table below it. -/
theorem clonePageDirectory_frees_obtained (hT : Owns vm (kPageTableLevels - 1) src T)
    (copyMappings : Bool) {m : ℕ} (hm : A.failsAfter m vm.calls vm.live = true)
    (hcount : m ≤ tableCount (kPageTableLevels - 1) T) :
    (∃ vm', clonePageDirectory A src copyMappings vm = .error (.unexpected .kVmAllocationFailed) vm' ∧
      (∀ x ∈ tablePages vm src, vm'.mem x = vm.mem x) ∧ FreesAnswers A m vm vm') ↔
    StopsClean (kPageTableLevels - 1) T (m - 1) := by
  have hspec := wp_clonePageDirectory A copyMappings hT
  cases hrun : clonePageDirectory A src copyMappings vm with
  | ok dst vm' =>
    have hlt := ((hspec.of_ok hrun).2.2 m hm).1
    omega
  | error e vm' =>
    rcases hspec.of_error hrun with ⟨rfl, hg, hstop⟩
    obtain ⟨-, hclean, hleft⟩ := hstop m hm
    have hout := (Obtains.clonePageDirectory src copyMappings vm).of_error hrun rfl
    constructor
    · rintro ⟨_, hrun', -, hfs⟩
      cases hrun'
      by_contra hnot
      exact hout.not_freesAnswers (hleft hnot) hm hfs
    · intro h
      refine ⟨vm', rfl, ?_, hout.freesAnswers (hclean h) hm⟩
      intro x hx
      rw [hT.tablePages_eq] at hx
      exact hg.mem x (hT.live x hx) (Set.notMem_empty x)

def oneTable : Vm :=
  ({ zeroedRoot with live := [0x2000, 0x1000], calls := 2 }).writeEntry 0x1000 0
    (physicalToPageTableEntry 0x2000 getTableEntryPermissions)

theorem owns_oneTable : Owns oneTable (kPageTableLevels - 1) 0x1000
    ((blankTree x86 3).setChild 0 (0x2000, blankTree x86 2)) := by
  have hroot : Owns zeroedRoot 3 0x1000 (blankTree x86 3) :=
    Owns.blank (fun _ _ => rfl) (by decide) (by decide)
  refine (Evolves.attach hroot (by decide) ?_ (Owns.blank (fun _ _ => rfl) (by decide) (by decide))
    (by decide) ?_).owns
  · exact Grows.of_live (fun _ hx => List.mem_cons_of_mem _ hx) (fun _ _ _ => rfl) rfl rfl
  · intro x hx
    rw [foot_blankTree] at hx
    rw [hx]
    decide

/-- The run has stopped with the page live and not freed. -/
def leavesLive (a : Addr) : EStateM.Result VmStop Vm Addr → Bool
  | .ok _ _ => false
  | .error _ vm => vm.live.contains a && !(vm.freed.map FreeCall.page).contains a

/-- The theorem at that directory, with a page for the root of the copy and none for its table. -/
theorem clonePageDirectory_frees_obtained_example :
    ∃ vm', clonePageDirectory (scarcePages 3) 0x1000 true oneTable =
        .error (.unexpected .kVmAllocationFailed) vm' ∧ FreesAnswers (scarcePages 3) 1 oneTable vm' := by
  have hchild : ((blankTree x86 3).setChild 0 ((0x2000 : Addr), blankTree x86 2)).child 0 =
      some (0x2000, blankTree x86 2) := Tree.child_setChild_self _ _ _
  have hcount : 1 ≤ tableCount (kPageTableLevels - 1)
      ((blankTree x86 3).setChild 0 ((0x2000 : Addr), blankTree x86 2)) := by
    have hmono := tablesBefore_mono
      ((blankTree x86 3).setChild 0 ((0x2000 : Addr), blankTree x86 2)) (show 1 ≤ 512 by decide)
    rw [← Nat.zero_add 1, tablesBefore_some hchild] at hmono
    exact le_trans (by omega) hmono
  obtain ⟨vm', hrun, -, hfs⟩ := (clonePageDirectory_frees_obtained (A := scarcePages 3) (m := 1)
    owns_oneTable true (by decide) hcount).mpr (stopsClean_zero _)
  exact ⟨vm', hrun, hfs⟩

set_option maxRecDepth 100000 in
/-- Two leaf tables below one inner table, and a page for the copy of the first only: its copy
stays live although the call has failed. -/
theorem clonePageDirectory_keeps_page :
    let vm := (runCalls (scarcePages 9) 0x1000
      [.mapPage 0x400000 0x9000 7, .mapPage 0x600000 0xa000 7] zeroedRoot).2
    ∃ vm', clonePageDirectory (scarcePages 9) 0x1000 true vm =
        .error (.unexpected .kVmAllocationFailed) vm' ∧
      (0x9000 : Addr) ∈ (scarcePages 9).answers 4 vm.calls vm.live ∧ (0x9000 : Addr) ∈ vm'.live ∧
      (0x9000 : Addr) ∉ vm'.freed.map FreeCall.page := by
  have hstop : stoppedBy (clonePageDirectory (scarcePages 9) 0x1000 true (runCalls (scarcePages 9)
      0x1000 [.mapPage 0x400000 0x9000 7, .mapPage 0x600000 0xa000 7] zeroedRoot).2) =
        some (.unexpected .kVmAllocationFailed) := by
    decide +kernel
  obtain ⟨vm', hrun⟩ := exists_of_stoppedBy hstop
  refine ⟨vm', hrun, by decide +kernel, ?_⟩
  have hend : leavesLive 0x9000 (clonePageDirectory (scarcePages 9) 0x1000 true
      (runCalls (scarcePages 9) 0x1000 [.mapPage 0x400000 0x9000 7, .mapPage 0x600000 0xa000 7]
        zeroedRoot).2) = true := by
    decide +kernel
  rw [hrun] at hend
  simpa [leavesLive] using hend

end Clone

end NaiLongKernel.Memory
