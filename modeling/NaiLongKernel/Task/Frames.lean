import NaiLongKernel.Memory.Frames
import NaiLongKernel.Task.AddressSpace

/-!
# The frames that tasks map

A fork copies the leaf entries of the page table, so that parent and child map the same frames,
and each of them frees them when it is destroyed. As long as a task that is reaped maps no frame
that is mapped elsewhere, every frame is freed once, and after its last mapping.
-/
namespace NaiLongKernel.Task

open Foundation Foundation.Radix Memory

/-- The page table of the task maps the frame at the address. -/
def Kernel.Maps (k : Kernel) (p : Ptr) (va x : Addr) : Prop :=
  ∃ r, k.root p = some r ∧ mapping k.vm r va = some x

def Kernel.mapped (k : Kernel) : Set Addr := {x | ∃ p va, IsCanonical va ∧ k.Maps p va x}

/-- No task has the page, as a page table or a kernel stack, and none maps it. -/
def Kernel.Vacant (k : Kernel) (x : Addr) : Prop := (∀ p, ¬ k.HasPage p x) ∧ x ∉ k.mapped

/-- No task is destroyed that still shares its page table, or a frame that it would free. An ended
task that `Wait` looks for has its page table alone, and unless it is a thread the frames that it
maps are mapped nowhere else. A child that shares its parent's page table gets its kernel stack, a
new task comes with an empty page table, and what is mapped is live and no page of a task. -/
def SysOp.FreesUnshared (P : Platform) (k : Kernel) : SysOp → Prop
  | addTask _ _ t => (∀ r, t.pageTable = some r → k.vm.Empty r ∧ k.Vacant r) ∧
      ∀ a, t.kernelStack = some a → a ∈ k.vm.live ∧ k.Vacant a ∧ t.pageTable ≠ some a
  | clone c flags child => child ≠ none → ∀ p t, k.running c = some p → k.tasks p = some t →
      CloneFlags.has (completeFlags flags) CloneFlags.kCloneVm = true → t.pageTable ≠ none →
        P.allocator.alloc k.vm.calls k.vm.live ≠ none
  | wait c pid _ _ _ => ∀ q u, k.tasks q = some u → k.WaitedFor c pid u → isDead u = true →
      (∀ r, u.pageTable = some r → SoleHolder k.root q r) ∧
      (CloneFlags.has u.cloneFlags CloneFlags.kCloneVm = false → ∀ va x, IsCanonical va → k.Maps q va x →
        ∀ p va', IsCanonical va' → k.Maps p va' x → p = q ∧ va' = va)
  | vmCall _ pageDir call => call.Valid ∧ (∃ p, k.root p = some pageDir) ∧
      ∀ va pa flags, call = .mapPage va pa flags → pa ∈ k.vm.live ∧ ∀ q, ¬ k.HasPage q pa
  | _ => True

section Steps

variable {P : Platform} {k k' : Kernel} {loc loc' : Ptr → Option Slot} {p q : Ptr} {t u : TaskControlBlock}
  {c : CoreId} {tree : Addr → PageTree (kPageTableLevels - 1)} {flags : BitVec 64} {child : Option Ptr}

abbrev Kernel.Framed (k : Kernel) (tree : Addr → PageTree (kPageTableLevels - 1)) : Prop :=
  Memory.Framed k.vm k.root k.stack tree

theorem Kernel.Housed.maps_iff (h : k.Housed tree) {va x : Addr} (hva : IsCanonical va) :
    k.Maps p va x ↔ framesOf k.root tree (p, ⟨va, hva⟩) = some x := by
  constructor
  · rintro ⟨r, hr, hx⟩
    rw [(h.owns r ⟨p, hr⟩).mapping_eq_frameAt] at hx
    exact Framed.mem_frames hr hva hx
  · intro hx
    obtain ⟨r, hr, hx⟩ := Option.bind_eq_some_iff.mp hx
    rw [← (h.owns r ⟨p, hr⟩).mapping_eq_frameAt] at hx
    exact ⟨r, hr, hx⟩

theorem Kernel.Housed.mapped_eq (h : k.Housed tree) : k.mapped = valuesOf (framesOf k.root tree) := by
  ext x
  constructor
  · rintro ⟨p, va, hva, hx⟩
    exact ⟨_, (h.maps_iff hva).mp hx⟩
  · rintro ⟨⟨p, va⟩, hx⟩
    exact ⟨p, va, va.2, (h.maps_iff va.2).mpr hx⟩

namespace Kernel.Framed

theorem housed (h : k.Framed tree) : k.Housed tree := h.toHoused

/-- The step leads to a state of the kind, and frees no frame that is mapped then. -/
def Step (k k' : Kernel) : Prop :=
  (∃ tree', k'.Framed tree') ∧ FreesUnmapped k'.mapped k.vm k'.vm

theorem step_of_grows (h : k'.Framed tree) {X : Set Addr} (hg : Grows X k.vm k'.vm) : Step k k' :=
  ⟨⟨tree, h⟩, FreesUnmapped.of_grows hg⟩

theorem congr (h : k.Framed tree) (hroot : k'.root = k.root) (hstack : k'.stack = k.stack)
    (hvm : k'.vm = k.vm) : Step k k' := by
  have h' : k'.Framed tree := by
    rw [Kernel.Framed, hroot, hstack, hvm]
    exact h
  apply step_of_grows (X := ∅) h'
  rw [hvm]
  exact Grows.refl _ _

theorem outside (h : k.Framed tree) {x : Addr} (hx : k.Vacant x) : Outside k.root k.stack tree {x} := by
  refine ⟨?_, ?_, ?_⟩
  · rintro y rfl r ⟨p, hp⟩
    exact h.housed.not_foot (hx.1 p) hp
  · rintro y rfl ⟨p, hp⟩
    exact hx.1 p (Or.inl hp)
  · rintro y rfl hmem
    apply hx.2
    rw [h.housed.mapped_eq]
    exact hmem

theorem added (h : k.Framed tree) (hp : k.tasks p = none)
    (hroot : ∀ r, t.pageTable = some r → k.vm.Empty r ∧ k.Vacant r)
    (hstack : ∀ a, t.kernelStack = some a → a ∈ k.vm.live ∧ k.Vacant a ∧ t.pageTable ≠ some a) :
    ∃ tree', Memory.Framed k.vm (Function.update k.root p t.pageTable)
      (Function.update k.stack p t.kernelStack) tree' := by
  -- the stack goes first, and is no page of the page table
  have hstep : Memory.Framed k.vm k.root (Function.update k.stack p t.kernelStack) tree ∧
      ∀ r, t.pageTable = some r → Outside k.root (Function.update k.stack p t.kernelStack) tree {r} := by
    cases ha : t.kernelStack with
    | none =>
      have hsame : Function.update k.stack p none = k.stack :=
        Function.update_eq_self_iff.mpr (Kernel.stack_of_none hp).symm
      rw [hsame]
      exact ⟨h, fun r hr => h.outside (hroot r hr).2⟩
    | some a =>
      obtain ⟨hlive, hvacant, hne⟩ := hstack a ha
      refine ⟨h.insertPage hlive (h.outside hvacant) p, ?_⟩
      intro r hr
      have hout := h.outside (hroot r hr).2
      refine ⟨hout.roots, ?_, hout.frames⟩
      rintro x rfl hx
      obtain rfl | hx := valuesOf_update_some_subset k.stack p a hx
      · exact hne hr
      · exact hout.pages x rfl hx
  obtain ⟨h', hout⟩ := hstep
  cases hr : t.pageTable with
  | none =>
    have hsame : Function.update k.root p none = k.root :=
      Function.update_eq_self_iff.mpr (Kernel.root_of_none hp).symm
    rw [hsame]
    exact ⟨tree, h'⟩
  | some r =>
    refine ⟨_, h'.insertRoot (hroot r hr).1.owns ?_ (fun va _ y hy => ?_) p⟩
    · rw [foot_blankTree]
      exact hout r hr
    · rw [frameAt_blankTree] at hy
      cases hy

theorem reaped (h : k.Framed tree) (hsole : ∀ r, u.pageTable = some r → SoleHolder k.root q r)
    (honce : CloneFlags.has u.cloneFlags CloneFlags.kCloneVm = false → ∀ va x, IsCanonical va →
      k.Maps q va x → ∀ p va', IsCanonical va' → k.Maps p va' x → p = q ∧ va' = va)
    (hr : Reaped q u k k') : Step k k' := by
  obtain ⟨-, hu, hd⟩ := hr
  have hspace : k'.space = Function.update k.space q none := hd.space
  have hvm : k'.vm = u.space.freeRoot (u.space.freeStack k.vm) := by
    rw [hd.rest]
    rfl
  have hroot := Kernel.root_of_tasks hu
  have hstack := Kernel.stack_of_tasks hu
  have hfirst : Memory.Framed (u.space.freeStack k.vm) k.root (Function.update k.stack q none) tree ∧
      ∀ frames, FreesUnmapped frames k.vm (u.space.freeStack k.vm) := by
    rw [Space.freeStack]
    cases ha : u.space.stack with
    | none =>
      rw [Function.update_eq_self_iff.mpr (hstack.trans ha).symm]
      exact ⟨h, fun _ => FreesUnmapped.of_grows (Grows.refl ∅ _)⟩
    | some a => exact ⟨h.removePage (hstack.trans ha), fun _ =>
        FreesUnmapped.of_released (Released.freeTable _ a) (by simp)⟩
  have hsecond : Memory.Framed (u.space.freeRoot (u.space.freeStack k.vm)) (Function.update k.root q none)
      (Function.update k.stack q none) tree ∧
      FreesUnmapped (valuesOf (framesOf (Function.update k.root q none) tree)) (u.space.freeStack k.vm)
        (u.space.freeRoot (u.space.freeStack k.vm)) := by
    rw [Space.freeRoot]
    cases hr : u.space.root with
    | none =>
      rw [Function.update_eq_self_iff.mpr (hroot.trans hr).symm]
      exact ⟨hfirst.1, FreesUnmapped.of_grows (Grows.refl ∅ _)⟩
    | some r =>
      apply hfirst.1.removeRoot (hroot.trans hr) (hsole r hr)
      rintro hfree va y hy ⟨p, va'⟩ hne hy'
      have hshared : u.space.shared = false := by simpa using hfree
      obtain ⟨rfl, heq⟩ := honce hshared va y va.2 ((h.housed.maps_iff va.2).mpr hy) p va' va'.2
        ((h.housed.maps_iff va'.2).mpr hy')
      exact hne (Prod.ext rfl (Subtype.ext heq))
  have h' : k'.Framed tree := by
    rw [Kernel.Framed, hvm, Kernel.root_update hspace, Kernel.stack_update hspace]
    exact hsecond.1
  refine ⟨⟨tree, h'⟩, ?_⟩
  rw [h'.housed.mapped_eq, Kernel.root_update hspace, hvm]
  exact (hfirst.2 _).trans hsecond.2

theorem clone (h : k.Framed tree) (hq : k.tasks q = none) (ht : k.tasks p = some t)
    {pageTable : Option Addr} {vm vm' : Vm}
    (hx : childPageTable P flags t k.vm = .ok pageTable vm) {a : Addr}
    (halloc : alignedAlloc P.allocator vm = .ok (some a) vm') :
    (∃ tree', Memory.Framed vm' (Function.update k.root q pageTable)
        (Function.update k.stack q (some a)) tree') ∧ Grows ∅ k.vm vm' := by
  have hroots : (∃ tree', Memory.Framed vm (Function.update k.root q pageTable) k.stack tree') ∧
      Grows ∅ k.vm vm := by
    obtain ⟨hpt, rfl⟩ | ⟨root, r, S, hroot, rfl, -, hg, -, hS, hfoot, hview⟩ :=
      (h.housed.wp_childPageTable ht).of_ok hx
    · refine ⟨⟨tree, ?_⟩, Grows.refl _ _⟩
      cases pageTable with
      | none =>
        rw [Function.update_eq_self_iff.mpr (Kernel.root_of_none hq).symm]
        exact h
      | some r => exact h.share (hpt.resolve_left nofun).1.symm q
    · refine ⟨⟨_, (h.keep hg).insertRoot hS (h.outside_of_dead hfoot) ?_ q⟩, hg⟩
      -- the frames of the copy are the parent's
      intro va hva y hy
      have hcopy : frameAt S va = frameAt (tree root) va := by
        rw [frameAt, hview (indices va) (indices_lt va), if_pos rfl, frameAt]
      exact ⟨_, Framed.mem_frames hroot hva (hcopy ▸ hy)⟩
  obtain ⟨⟨tree', h'⟩, hg⟩ := hroots
  obtain ⟨ha, hvm'⟩ := alignedAlloc_some halloc
  have hg' := Grows.of_alignedAlloc halloc
  refine ⟨⟨tree', (h'.keep hg').insertPage ?_ (h'.outside_of_dead ?_) q⟩, hg.trans hg' (by simp)⟩
  · rw [hvm']
    exact List.mem_cons_self
  · rintro x rfl
    exact ha

theorem cloned {r : Except ErrorCode Pid} (h : k.Framed tree) (hfresh : ∀ q, child = some q → k.tasks q = none)
    (hstack : child ≠ none → ∀ p t, k.running c = some p → k.tasks p = some t →
      CloneFlags.has flags CloneFlags.kCloneVm = true → t.pageTable ≠ none →
        P.allocator.alloc k.vm.calls k.vm.live ≠ none)
    (he : CloneEffect P c flags child k loc r k' loc') : Step k k' := by
  cases he with
  | noTask | noPid | noBlock => exact h.congr rfl rfl rfl
  | noTable _ _ ht hx =>
    have hg := (h.housed.wp_childPageTable ht).of_error hx
    exact step_of_grows (h.keep hg) hg
  | @noStack q parent t pageTable vm vm' hq hrun ht hx halloc =>
    have hg' := Grows.of_alignedAlloc halloc
    have hspec := (h.housed.wp_childPageTable ht).of_ok hx
    cases pageTable with
    | none =>
      obtain ⟨-, rfl⟩ | ⟨_, _, _, -, ⟨⟩, -⟩ := hspec
      have hmem := k.leftOver_none flags t vm'
      rw [Kernel.leftOver] at hmem
      rw [hmem]
      exact step_of_grows (h.keep hg') hg'
    | some r =>
      obtain ⟨⟨⟨⟩⟩ | ⟨hroot, hflag⟩, rfl⟩ | ⟨_, _, S, -, ⟨⟩, hflag, hg, -, hS, hfoot, -⟩ := hspec
      · have hpt : t.pageTable ≠ none := by
          rw [← Kernel.root_of_tasks ht, ← hroot]
          exact Option.some_ne_none r
        have hsome := hstack (hq ▸ Option.some_ne_none _) _ _ hrun ht hflag hpt
        rw [alignedAlloc] at halloc
        split at halloc
        · rename_i hnone
          exact absurd hnone hsome
        · cases halloc
      · -- `Clone` destroys the page table, and so does the destructor of the child
        obtain ⟨freePages, hmem⟩ := k.leftOver_some flags t r vm'
        rw [hflag, if_neg Bool.false_ne_true, Kernel.leftOver] at hmem
        have hgrows := hg.trans hg' (by simp)
        obtain ⟨h', hfrees⟩ := (h.keep hgrows).destroyTwice (hS.frame hg' (Set.disjoint_empty _))
          (h.outside_of_dead hfoot) freePages
        rw [hmem]
        exact ⟨⟨tree, h'⟩, (FreesUnmapped.of_grows hgrows).trans (hfrees _)⟩
  | @cloned q parent t pageTable stack vm vm' _ _ _ hq _ ht hx halloc hcl _ hvm =>
    obtain ⟨⟨tree', h'⟩, hg⟩ := h.clone (hfresh _ hq) ht hx halloc
    have hk' : k'.Framed tree' := by
      rw [Kernel.Framed, hvm, Kernel.root_update hcl.space, Kernel.stack_update hcl.space]
      exact h'
    exact step_of_grows hk' (hvm ▸ hg)

theorem effect {op : SysOp} (h : k.Framed tree) (hen : op.Enabled k) (hmaps : op.FreesUnshared P k)
    (he : op.Effect P k k') : Step k k' := by
  have kept : ∀ {k' : Kernel}, k'.space = k.space → k'.vm = k.vm → Step k k' := by
    intro k' hspace hvm
    exact h.congr (by rw [Kernel.root, Kernel.root, hspace]) (by rw [Kernel.stack, Kernel.stack, hspace]) hvm
  have persists : Persists k k' → Step k k' := fun hp => kept hp.space hp.vm
  cases op with
  | initCurrentCore c i =>
    obtain ⟨_, hi⟩ := he
    apply h.congr _ _ hi.vm
    · rw [Kernel.root_update hi.space]
      exact Function.update_eq_self_iff.mpr (Kernel.root_of_none hen.2).symm
    · rw [Kernel.stack_update hi.space]
      exact Function.update_eq_self_iff.mpr (Kernel.stack_of_none hen.2).symm
  | addTask c task t =>
    obtain ⟨_, _, ha⟩ := he
    obtain ⟨tree', h'⟩ := h.added hen.1 hmaps.1 hmaps.2
    have hvm : k'.vm = k.vm := ha.vm
    have hk' : k'.Framed tree' := by
      rw [Kernel.Framed, hvm, Kernel.root_update ha.space, Kernel.stack_update ha.space]
      exact h'
    exact step_of_grows (X := ∅) hk' (hvm ▸ Grows.refl _ _)
  | clone c flags child =>
    obtain ⟨r, _, _, he⟩ := he
    exact h.cloned hen hmaps he
  | exit c exitCode =>
    obtain ⟨_, _, k₁, -, -, hd, hp⟩ := he
    have hvm : k₁.vm = k.vm := by
      rw [hd.rest]
    exact kept (hp.space.trans hd.space) (hp.vm.trans hvm)
  | wait c pid noHang untraced order =>
    obtain hp | ⟨q, u, hw, hr⟩ := he
    · exact persists hp
    · obtain ⟨hsole, honce⟩ := hmaps q u hr.2.1 hw hr.1
      exact h.reaped hsole honce hr
  | allocPage c =>
    obtain ⟨r, hr⟩ := he
    have hg : Grows ∅ k.vm k'.vm := by
      obtain ⟨_, hg, -⟩ | ⟨_, -, hg⟩ := runVm_cases (wp_allocTable P.allocator k.vm 0) hr
      · exact hg
      · exact hg
    have hsame : k'.root = k.root ∧ k'.stack = k.stack := by
      rw [runVm_rest hr]
      exact ⟨rfl, rfl⟩
    have hk' : k'.Framed tree := by
      rw [Kernel.Framed, hsame.1, hsame.2]
      exact h.keep hg
    exact step_of_grows hk' hg
  | vmCall c pageDir call =>
    obtain ⟨r, hr⟩ := he
    obtain ⟨hvalid, ⟨p, hp⟩, hpa⟩ := hmaps
    have hsame : k'.root = k.root ∧ k'.stack = k.stack := by
      rw [runVm_rest hr]
      exact ⟨rfl, rfl⟩
    have hunused : ∀ va pa flags, call = .mapPage va pa flags → pa ∈ k.vm.live ∧
        pa ∉ valuesOf k.stack ∧ ∀ r ∈ valuesOf k.root, pa ∉ foot x86 (kPageTableLevels - 1) r (tree r) := by
      intro va pa flags hcall
      obtain ⟨hlive, hpage⟩ := hpa va pa flags hcall
      refine ⟨hlive, ?_, ?_⟩
      · rintro ⟨q, hq⟩
        exact hpage q (Or.inl hq)
      · rintro r ⟨q, hq⟩
        exact h.housed.not_foot (hpage q) hq
    obtain ⟨⟨tree', h'⟩, X, hg⟩ := h.call P.allocator hp hvalid hunused
    rw [← runVm_exec hr] at h' hg
    have hk' : k'.Framed tree' := by
      rw [Kernel.Framed, hsame.1, hsame.2]
      exact h'
    exact step_of_grows hk' hg
  | findTask | schedule | tickUpdate | sleep | block | wakeup => exact persists he

end Kernel.Framed

end Steps

variable {P : Platform} {k : Kernel}

theorem SysRun.framed (h : SysRun P (fun k op => op.Careful k ∧ op.FreesUnshared P k) k) :
    (∃ tree, k.Framed tree) ∧ ∀ f ∈ k.vm.freed, f.frame = true → f.wasLive = true := by
  apply SysRun.induction (fun _ _ hA => hA.1) _ _ h
  · refine ⟨⟨fun _ => blankTree x86 _, Kernel.Housed.empty _, ?_, ?_, ?_⟩, by simp⟩
    · rintro y ⟨j, ⟨⟩⟩
    · rintro y ⟨j, ⟨⟩⟩
    · rintro y ⟨j, ⟨⟩⟩
  · rintro k loc op k' - - ⟨⟨tree, hk⟩, hlive⟩ hen ⟨-, hmaps⟩ he
    obtain ⟨hk', fs, hfs, hall⟩ := hk.effect hen hmaps he
    refine ⟨hk', ?_⟩
    intro f hf hframe
    rw [hfs] at hf
    obtain hnew | hold := List.mem_append.mp hf
    · exact (hall f hnew hframe).1
    · exact hlive f hold hframe

/-- In every run in which no task is destroyed that still shares its page table or a frame that it
would free, every frame that was freed was live then, so that none is freed twice, and what the next
operation frees is mapped by no task. -/
theorem frames_freed_unmapped (h : SysRun P (fun k op => op.Careful k ∧ op.FreesUnshared P k) k) :
    (∀ f ∈ k.vm.freed, f.frame = true → f.wasLive = true) ∧
    ∀ (op : SysOp) (k' : Kernel), op.Enabled k → op.Careful k → op.FreesUnshared P k →
      (op.exec P : KernelM Unit) k = .ok () k' → FreesUnmapped k'.mapped k.vm k'.vm := by
  obtain ⟨⟨tree, hk⟩, hlive⟩ := h.framed
  refine ⟨hlive, ?_⟩
  intro op k' hen hcare hmaps hexec
  obtain ⟨loc, hst, hl⟩ := (h.mono fun _ _ hA => hA.1).invariant
  obtain ⟨-, -, he⟩ := SysOp.effect_of_exec hst hl hen hcare hexec
  exact (hk.effect hen hmaps he).2

section Replay

/-- In the directory no entry is present but those on the way of the indices. -/
def mapsOnly (vm : Vm) (ix : ℕ → ℕ) : ℕ → Addr → Bool
  | 0, table => (List.range kEntriesPerTable).all fun i => i == ix 0 || !isPageTableEntryValid (vm.mem table i)
  | level+1, table =>
    ((List.range kEntriesPerTable).all fun i =>
      i == ix (level+1) || !isPageTableEntryValid (vm.mem table i)) &&
    (!isPageTableEntryValid (vm.mem table (ix (level+1))) ||
      mapsOnly vm ix level (pageTableEntryToPhysical (vm.mem table (ix (level+1)))))

theorem eq_of_all_absent {vm : Vm} {table : Addr} {i j : ℕ} (hi : i < kEntriesPerTable)
    (hall : ((List.range kEntriesPerTable).all fun i =>
      i == j || !isPageTableEntryValid (vm.mem table i)) = true)
    (hsome : (x86.decode (vm.mem table i)).isSome = true) : i = j := by
  rw [isSome_decode] at hsome
  simpa [hsome] using List.all_eq_true.mp hall i (List.mem_range.mpr hi)

theorem samePath_of_mapsOnly {vm : Vm} {ix jx : ℕ → ℕ} {n : ℕ} {table : Addr} {pte : BitVec 64}
    (h : mapsOnly vm ix n table = true) (hjx : ∀ j, jx j < kEntriesPerTable)
    (hpte : lookup x86 vm.mem n table jx = some pte) : SamePath n ix jx := by
  induction n generalizing table with
  | zero =>
    rintro j hj
    obtain rfl := Nat.le_zero.mp hj
    rw [lookup, walk, Option.map_some, Option.filter_eq_some_iff, Option.some.injEq] at hpte
    obtain ⟨rfl, hsome⟩ := hpte
    rw [mapsOnly] at h
    exact (eq_of_all_absent (hjx 0) h hsome).symm
  | succ n ih =>
    obtain ⟨hall, hrest⟩ := Bool.and_eq_true_iff.mp h
    rw [lookup, walk] at hpte
    cases hd : x86.decode (vm.mem table (jx (n+1))) with
    | none =>
      rw [hd] at hpte
      cases hpte
    | some b =>
      rw [hd] at hpte
      have htop : jx (n+1) = ix (n+1) := eq_of_all_absent (hjx _) hall (by rw [hd]; rfl)
      have hvalid : isPageTableEntryValid (vm.mem table (ix (n+1))) = true := by
        rw [← htop, ← isSome_decode, hd]
        rfl
      rw [decode_of_valid (htop ▸ hvalid), Option.some.injEq] at hd
      rw [hvalid, Bool.not_true, Bool.false_or, ← htop, hd] at hrest
      intro j hj
      obtain hlt | rfl := Nat.lt_or_eq_of_le hj
      · exact ih hrest hpte j (Nat.lt_succ_iff.mp hlt)
      · exact htop.symm

/-- All page tables are empty, and the page is none of the tasks'. -/
def Kernel.Unmapped (n : ℕ) (k : Kernel) (x : Addr) : Prop :=
  ∀ p < n, k.stack p ≠ some x ∧ (k.root p).all (fun r => k.vm.Empty r ∧ r ≠ x) = true

instance (n : ℕ) (k : Kernel) (x : Addr) : Decidable (k.Unmapped n x) := by
  unfold Kernel.Unmapped
  infer_instance

/-- `FreesUnshared` with pages mapped at `va` only and control blocks below `n`, as it can be
checked. -/
def SysOp.freesUnsharedBelow (n : ℕ) (va : Addr) (k : Kernel) : SysOp → Bool
  | initCurrentCore _ idleTask => decide (idleTask < n)
  | addTask _ task t => decide (task < n ∧ t.kernelStack = none) &&
      t.pageTable.all fun r => decide (k.vm.Empty r ∧ k.Unmapped n r)
  | clone _ flags child => decide ((∀ q ∈ child, q < n) ∧
      CloneFlags.has (completeFlags flags) CloneFlags.kCloneVm = false)
  | wait _ _ _ _ _ => decide (∀ q < n, ∀ u ∈ k.tasks q, isDead u = true → u.pageTable.all (fun r =>
      decide (∀ p < n, (k.root p).all (fun r' => mapsOnly k.vm (indices va) (kPageTableLevels - 1) r' &&
        decide (p ≠ q → r' ≠ r ∧ (mapping k.vm r va = none ∨ mapping k.vm r' va ≠ mapping k.vm r va)))
          = true)) = true)
  | vmCall _ pageDir (.mapPage va' pa flags) => (List.range n).any (fun p => k.root p == some pageDir) &&
      k.vm.live.contains pa && decide ((VmCall.mapPage va' pa flags).Valid ∧ k.Unmapped n pa)
  | vmCall _ pageDir call => (List.range n).any (fun p => k.root p == some pageDir) && decide call.Valid
  | _ => true

theorem Kernel.Unmapped.vacant {n : ℕ} {x : Addr} (h : k.Unmapped n x)
    (hk : ∀ p, n ≤ p → k.space p = none) : k.Vacant x := by
  have hroot : ∀ p r, k.root p = some r → k.vm.Empty r ∧ r ≠ x := by
    intro p r hr
    obtain hlt | hle := lt_or_ge p n
    · have hall := (h p hlt).2
      rw [hr, Option.all_some, decide_eq_true_iff] at hall
      exact hall
    · rw [Kernel.root, Function.comp_apply, hk p hle] at hr
      cases hr
  refine ⟨?_, ?_⟩
  · rintro p (hs | ⟨r, hr, hx⟩)
    · obtain hlt | hle := lt_or_ge p n
      · exact (h p hlt).1 hs
      · rw [Kernel.stack, Function.comp_apply, hk p hle] at hs
        cases hs
    · obtain ⟨hempty, hne⟩ := hroot p r hr
      rw [tablePages, ← hempty.owns.rep.foot_eq_tables, foot_blankTree] at hx
      exact hne hx.symm
  · rintro ⟨p, va, hva, r, hr, hx⟩
    rw [(hroot p r hr).1.mapping] at hx
    cases hx

theorem SysOp.freesUnshared_of_below {n : ℕ} {va : Addr} (hva : IsCanonical va) {op : SysOp}
    (h : op.freesUnsharedBelow n va k = true) (hk : ∀ p, n ≤ p → k.space p = none) :
    op.FreesUnshared P k := by
  have hdir : ∀ {pageDir : Addr}, (List.range n).any (fun p => k.root p == some pageDir) = true →
      ∃ p, k.root p = some pageDir := by
    intro pageDir hany
    obtain ⟨p, -, hp⟩ := List.any_eq_true.mp hany
    exact ⟨p, beq_iff_eq.mp hp⟩
  have hroot : ∀ {p r}, k.root p = some r → p < n := by
    intro p r hr
    by_contra hle
    rw [Kernel.root, Function.comp_apply, hk p (not_lt.mp hle)] at hr
    cases hr
  cases op with
  | addTask c task t =>
    obtain ⟨htask, hpt⟩ := Bool.and_eq_true_iff.mp h
    refine ⟨?_, by simp [(of_decide_eq_true htask).2]⟩
    intro r hr
    rw [hr, Option.all_some, decide_eq_true_iff] at hpt
    exact ⟨hpt.1, hpt.2.vacant hk⟩
  | clone c flags child =>
    intro _ p t _ _ hflag
    rw [(of_decide_eq_true h).2] at hflag
    cases hflag
  | wait c pid noHang untraced order =>
    intro q u hu _ hdead
    have hself : ∀ {r}, u.pageTable = some r → k.root q = some r := fun hr =>
      (Kernel.root_of_tasks hu).trans hr
    have hall : ∀ {r p r'}, u.pageTable = some r → k.root p = some r' →
        mapsOnly k.vm (indices va) (kPageTableLevels - 1) r' = true ∧
          (p ≠ q → r' ≠ r ∧ (mapping k.vm r va = none ∨ mapping k.vm r' va ≠ mapping k.vm r va)) := by
      intro r p r' hr hr'
      have hq := of_decide_eq_true h q (hroot (hself hr)) u hu hdead
      rw [hr, Option.all_some, decide_eq_true_iff] at hq
      have hp := hq p (hroot hr')
      rw [hr', Option.all_some, Bool.and_eq_true, decide_eq_true_iff] at hp
      exact hp
    -- every frame is mapped at `va`
    have hplace : ∀ {r p r' va' x}, u.pageTable = some r → k.root p = some r' → IsCanonical va' →
        mapping k.vm r' va' = some x → va' = va := by
      intro r p r' va' x hr hr' hva' hx
      obtain ⟨pte, hpte, -⟩ := Option.map_eq_some_iff.mp hx
      exact (samePath_iff hva hva').mp
        (samePath_of_mapsOnly (hall hr hr').1 (indices_lt va') hpte)
    refine ⟨fun r hr p hpq hp => ((hall hr hp).2 hpq).1 rfl, ?_⟩
    rintro - va₁ x hva₁ ⟨r, hr, hx⟩ p va₂ hva₂ ⟨r', hr', hx'⟩
    rw [Kernel.root_of_tasks hu] at hr
    obtain rfl := hplace hr (hself hr) hva₁ hx
    obtain rfl := hplace hr hr' hva₂ hx'
    refine ⟨?_, rfl⟩
    by_contra hpq
    obtain hnone | hne := ((hall hr hr').2 hpq).2
    · rw [hnone] at hx
      cases hx
    · exact hne (hx'.trans hx.symm)
  | vmCall c pageDir call =>
    cases call with
    | mapPage va' pa flags =>
      obtain ⟨hpages, hok⟩ := Bool.and_eq_true_iff.mp h
      obtain ⟨hany, hlive⟩ := Bool.and_eq_true_iff.mp hpages
      obtain ⟨hvalid, hun⟩ := of_decide_eq_true hok
      refine ⟨hvalid, hdir hany, ?_⟩
      intro va₁ pa₁ flags₁ hcall
      cases hcall
      exact ⟨List.contains_iff_mem.mp hlive, (hun.vacant hk).1⟩
    | unmapPage | getMapping =>
      obtain ⟨hany, hvalid⟩ := Bool.and_eq_true_iff.mp h
      refine ⟨of_decide_eq_true hvalid, hdir hany, ?_⟩
      rintro _ _ _ ⟨⟩
  | _ => trivial

theorem SysRun.freesUnshared_of_below {n : ℕ} {va : Addr} (hva : IsCanonical va)
    (h : SysRun P (fun k op => op.Careful k ∧ op.freesUnsharedBelow n va k = true) k) :
    SysRun P (fun k op => op.Careful k ∧ op.FreesUnshared P k) k := by
  apply h.mono_of_reached
  rintro k op hrun ⟨hcare, hop⟩
  refine ⟨hcare, SysOp.freesUnshared_of_below hva hop ?_⟩
  intro p hp
  apply hrun.space_none _ hp
  intro k op q hop hq
  cases op with
  | initCurrentCore c i => exact hq ▸ of_decide_eq_true hop
  | addTask c task t => exact hq ▸ (of_decide_eq_true (Bool.and_eq_true_iff.mp hop).1).1
  | clone c flags child => exact (of_decide_eq_true hop).1 q hq
  | _ => exact hq.elim

end Replay

/-- Task 2 maps a frame and is forked as task 3. -/
def forkMapping : List SysOp :=
  [.initCurrentCore 0 0, .allocPage 0, .allocPage 0, .addTask 0 1 {},
    .addTask 0 2 { pageTable := some 0x1000, parentPid := 1 }, .schedule 0,
    .wait 0 2 false false [(1, 1), (2, 2)], .vmCall 0 0x1000 (.mapPage 0x400000 0x2000 7),
    .clone 0 0 (some 3)]

set_option maxRecDepth 100000 in
/-- Task 2 maps a frame and is forked. The child unmaps it and is reaped, then task 2 is, and the
frame is freed. The run takes the assertion of `AddTask` on the status of the child as passed. -/
theorem frames_freed_unmapped_example :
    ∃ k, SysRun (presetPlatform false)
        (fun k op => op.Careful k ∧ op.FreesUnshared (presetPlatform false) k) k ∧
      (⟨0x2000, true, true⟩ : FreeCall) ∈ k.vm.freed ∧
      ∀ f ∈ k.vm.freed, f.frame = true → f.wasLive = true := by
  have hrun : ∃ k, SysRun (presetPlatform false)
      (fun k op => op.Careful k ∧ op.freesUnsharedBelow 4 0x400000 k = true) k ∧
      (⟨0x2000, true, true⟩ : FreeCall) ∈ k.vm.freed := by
    apply SysRun.exists_replay (fun k op => op.freesUnsharedBelow 4 0x400000 k = true)
      (forkMapping ++ [.vmCall 0 0x6000 (.unmapPage 0x400000),
        .wait 0 3 false false [(1, 1), (2, 2), (3, 3)], .exit 0 7,
        .wait 0 3 false false [(1, 1), (2, 2), (3, 3)], .exit 0 7,
        .wait 0 2 false false [(1, 1), (2, 2)]])
    decide +kernel
  obtain ⟨k, hk, hfreed⟩ := hrun
  have hmaps := hk.freesUnshared_of_below (by decide)
  exact ⟨k, hmaps, hfreed, (frames_freed_unmapped hmaps).1⟩

set_option maxRecDepth 100000 in
/-- A task that maps a frame is forked. When the child is reaped the frame is freed, while the
parent maps it, and when the parent is reaped it is freed again. The runs take the assertion of
`AddTask` on the status of the child as passed. -/
theorem fork_frees_mapped_frame :
    (∃ k, SysRun (presetPlatform false) (fun k op => op.Careful k) k ∧
      (SysOp.wait 0 3 false false [(1, 1), (2, 2), (3, 3)]).Enabled k ∧ k.vm.freed = [] ∧
      ∃ k' ∈ (SysOp.wait 0 3 false false [(1, 1), (2, 2), (3, 3)]).next (presetPlatform false) k,
        k'.root 2 = some 0x1000 ∧ mapping k'.vm 0x1000 0x400000 = some 0x2000 ∧
        (⟨0x2000, true, true⟩ : FreeCall) ∈ k'.vm.freed) ∧
    ∃ k, SysRun (presetPlatform false) (fun k op => op.Careful k) k ∧
      (⟨0x2000, true, false⟩ : FreeCall) ∈ k.vm.freed ∧ (⟨0x2000, true, true⟩ : FreeCall) ∈ k.vm.freed := by
  constructor
  · apply SysRun.exists_careful
      (forkMapping ++ [.wait 0 3 false false [(1, 1), (2, 2), (3, 3)], .exit 0 7])
    decide +kernel
  · apply SysRun.exists_careful
      (forkMapping ++ [.wait 0 3 false false [(1, 1), (2, 2), (3, 3)], .exit 0 7,
        .wait 0 3 false false [(1, 1), (2, 2), (3, 3)], .exit 0 7,
        .wait 0 2 false false [(1, 1), (2, 2)]])
    decide +kernel

end NaiLongKernel.Task
