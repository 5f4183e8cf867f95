import NaiLongKernel.Memory.Directory

/-!
# What destroying a page directory frees

`RecursiveFreePageTable` clears the tables of the directory and frees them, and with
`free_pages` also the frames of its leaf entries. When no frame is mapped twice and
all are live, each of them is live at its `aligned_free`.
-/
namespace NaiLongKernel.Memory

open Foundation Foundation.Radix

/-- Only the pages of `C` change. The tables of `D` and the frames of `F` are freed, and under
the condition `L` each is live at its `aligned_free`. -/
structure Released (L : Prop) (C D F : Set Addr) (vm vm' : Vm) : Prop where
  mem : ∀ x ∉ C, vm'.mem x = vm.mem x
  live : ∀ x, x ∈ vm'.live ↔ x ∈ vm.live ∧ x ∉ D ∧ x ∉ F
  freed : ∃ fs, vm'.freed = fs ++ vm.freed ∧ ∀ f ∈ fs, (L → f.wasLive = true) ∧
    (f.frame = true → f.page ∈ F) ∧ (f.frame = false → f.page ∈ D)

namespace Released

variable {L L' : Prop} {C C' D D' F F' : Set Addr} {vm vm' vm'' : Vm} {a : Addr}

theorem refl (L : Prop) (C : Set Addr) (vm : Vm) : Released L C ∅ ∅ vm vm :=
  ⟨fun _ _ => rfl, by simp, [], rfl, nofun⟩

theorem trans (h : Released L C D F vm vm') (h' : Released L C' D' F' vm' vm'') :
    Released L (C ∪ C') (D ∪ D') (F ∪ F') vm vm'' := by
  refine ⟨?_, ?_, ?_⟩
  · intro x hx
    rw [h'.mem x (fun hC => hx (Or.inr hC)), h.mem x (fun hC => hx (Or.inl hC))]
  · intro x
    rw [h'.live, h.live, Set.mem_union, Set.mem_union]
    tauto
  · refine grown_trans h.freed h'.freed ?_ ?_
    · rintro f ⟨hlive, hframe, htable⟩
      exact ⟨hlive, fun ht => Or.inl (hframe ht), fun ht => Or.inl (htable ht)⟩
    · rintro f ⟨hlive, hframe, htable⟩
      exact ⟨hlive, fun ht => Or.inr (hframe ht), fun ht => Or.inr (htable ht)⟩

theorem mono (h : Released L C D F vm vm') (hC : C ⊆ C') : Released L C' D F vm vm' :=
  ⟨fun x hx => h.mem x (fun hc => hx (hC hc)), h.live, h.freed⟩

theorem under (h : Released L C D F vm vm') (hL : L' → L) : Released L' C D F vm vm' := by
  obtain ⟨fs, hfs, hall⟩ := h.freed
  exact ⟨h.mem, h.live, fs, hfs, fun f hf => ⟨fun hl => (hall f hf).1 (hL hl), (hall f hf).2⟩⟩

theorem writeEntry (L : Prop) (vm : Vm) (a : Addr) (i : ℕ) (pte : BitVec 64) :
    Released L {a} ∅ ∅ vm (vm.writeEntry a i pte) :=
  ⟨fun _ hx => Function.update_of_ne hx _ _, by simp [Vm.writeEntry], [], rfl, nofun⟩

theorem freeTable (vm : Vm) (a : Addr) :
    Released (a ∈ vm.live) ∅ {a} ∅ vm (vm.alignedFree a false) := by
  refine ⟨fun _ _ => rfl, by simp [Vm.alignedFree], _, rfl (a := [_] ++ vm.freed), ?_⟩
  intro f hf
  rw [List.mem_singleton.mp hf]
  exact ⟨fun ha => decide_eq_true ha, fun hframe => absurd hframe Bool.false_ne_true, fun _ => rfl⟩

theorem freeFrame (vm : Vm) (a : Addr) :
    Released (a ∈ vm.live) ∅ ∅ {a} vm (vm.alignedFree a true) := by
  refine ⟨fun _ _ => rfl, by simp [Vm.alignedFree], _, rfl (a := [_] ++ vm.freed), ?_⟩
  intro f hf
  rw [List.mem_singleton.mp hf]
  exact ⟨fun ha => decide_eq_true ha, fun _ => rfl, fun htable => absurd htable.symm Bool.false_ne_true⟩

end Released

section Loop

/-- What belongs to the first `k` entries. -/
def upTo (X : ℕ → Set Addr) (k : ℕ) : Set Addr := {x | ∃ i < k, x ∈ X i}

theorem upTo_zero (X : ℕ → Set Addr) : upTo X 0 = ∅ := by
  ext x
  simp [upTo]

theorem upTo_succ (X : ℕ → Set Addr) (k : ℕ) : upTo X (k+1) = upTo X k ∪ X k := by
  ext x
  simp only [upTo, Set.mem_ofPred_eq, Set.mem_union]
  constructor
  · rintro ⟨i, hi, hx⟩
    rcases Nat.lt_succ_iff_lt_or_eq.mp hi with hlt | rfl
    · exact Or.inl ⟨i, hlt, hx⟩
    · exact Or.inr hx
  · rintro (⟨i, hi, hx⟩ | hx)
    · exact ⟨i, by omega, hx⟩
    · exact ⟨k, by omega, hx⟩

/-- The loop over one table, from what is freed below each entry. -/
theorem released_loop (L : Prop) (vm : Vm) (a : Addr) (freeChild : Addr → Vm → Vm) (C F : ℕ → Set Addr)
    (ha : ∀ k < kEntriesPerTable, a ∉ C k)
    (hskip : ∀ k < kEntriesPerTable, ¬ isPageTableEntryValid (vm.mem a k) = true → C k = ∅ ∧ F k = ∅)
    (hchild : ∀ k < kEntriesPerTable, isPageTableEntryValid (vm.mem a k) = true → ∀ v,
      Released L ({a} ∪ upTo C k) (upTo C k) (upTo F k) vm v →
      Released L (C k) (C k) (F k) v (freeChild (pageTableEntryToPhysical (vm.mem a k)) v)) :
    Released L ({a} ∪ upTo C kEntriesPerTable) (upTo C kEntriesPerTable) (upTo F kEntriesPerTable) vm
      ((List.range kEntriesPerTable).foldl (freeEntry freeChild a) vm) ∧
    ∀ i < kEntriesPerTable,
      x86.decode (((List.range kEntriesPerTable).foldl (freeEntry freeChild a) vm).mem a i) =
        none := by
  have hinv := foldl_range_induction (f := freeEntry freeChild a) (n := kEntriesPerTable) (s := vm)
    (I := fun k v => Released L ({a} ∪ upTo C k) (upTo C k) (upTo F k) vm v ∧
      (∀ i < k, x86.decode (v.mem a i) = none) ∧ ∀ i, k ≤ i → v.mem a i = vm.mem a i) ?_ ?_
  · exact ⟨hinv.1, hinv.2.1⟩
  · rw [upTo_zero, upTo_zero]
    exact ⟨Released.refl L _ vm, nofun, fun _ _ => rfl⟩
  rintro k hk v ⟨hr, hdone, hrest⟩
  have hentry : v.mem a k = vm.mem a k := hrest k le_rfl
  rw [upTo_succ, upTo_succ]
  unfold freeEntry
  by_cases hv : isPageTableEntryValid (v.mem a k) = true
  · simp only [hv, if_true]
    have hsub := hchild k hk (by rwa [← hentry]) v hr
    rw [← hentry] at hsub
    have hrow : (freeChild (pageTableEntryToPhysical (v.mem a k)) v).mem a = v.mem a :=
      hsub.mem a (ha k hk)
    refine ⟨?_, ?_, ?_⟩
    · have hboth := (hr.trans hsub).trans (Released.writeEntry L _ a k 0)
      rw [Set.union_empty, Set.union_empty] at hboth
      apply hboth.mono
      rintro x (((hx | hx) | hx) | hx)
      · exact Or.inl hx
      · exact Or.inr (Or.inl hx)
      · exact Or.inr (Or.inr hx)
      · exact Or.inl hx
    · intro i hi
      by_cases hik : i = k
      · subst hik
        exact (congrArg x86.decode (write_same _ _ _ _)).trans x86.decode_blank
      · refine (congrArg x86.decode (write_row _ _ _ hik)).trans ?_
        rw [hrow]
        exact hdone i (by omega)
    · intro i hi
      refine (write_row _ _ _ (by omega : i ≠ k)).trans ?_
      rw [hrow, hrest i (by omega)]
  · simp only [hv]
    obtain ⟨hC, hF⟩ := hskip k hk (by rwa [← hentry])
    rw [hC, hF, Set.union_empty, Set.union_empty]
    refine ⟨hr, ?_, fun i hi => hrest i (by omega)⟩
    intro i hi
    by_cases hik : i = k
    · subst hik
      exact decode_of_not_valid hv
    · exact hdone i (by omega)

end Loop

/-- The frames that destroying the tree frees. -/
def freedFrames (freePages : Bool) (n : ℕ) (T : PageTree n) : Set Addr :=
  {x | freePages = true ∧ x ∈ leaves x86 n T}

/-- Every frame is mapped once, is live and is no table of the directory. -/
def OwnFrames (vm : Vm) (n : ℕ) (a : Addr) (T : PageTree n) : Prop :=
  Sole x86 n T ∧ ∀ x ∈ leaves x86 n T, x ∈ vm.live ∧ x ∉ foot x86 n a T

/-- Everything that destroying the tree frees is live and freed once. -/
def Freeable (freePages : Bool) (vm : Vm) (n : ℕ) (a : Addr) (T : PageTree n) : Prop :=
  (∀ x ∈ foot x86 n a T, x ∈ vm.live) ∧ (freePages = true → OwnFrames vm n a T)

variable {vm : Vm} {n : ℕ} {a : Addr} {freePages : Bool}

theorem Freeable.not_freed {T : PageTree n} (h : Freeable freePages vm n a T) {x : Addr}
    (hx : x ∈ foot x86 n a T) : x ∉ freedFrames freePages n T :=
  fun hF => ((h.2 hF.1).2 x hF.2).2 hx

theorem mem_leaves_row {T : PageTree 0} {i : ℕ} (hi : i < x86.arity)
    (hv : isPageTableEntryValid (T.row i) = true) :
    view x86 0 T (fun _ => i) = some (T.row i) ∧
      pageTableEntryToPhysical (T.row i) ∈ leaves x86 0 T := by
  have hview : view x86 0 T (fun _ => i) = some (T.row i) := by
    simp [view, entry, Option.filter, isSome_decode, hv]
  exact ⟨hview, _, fun _ => hi, _, hview, decode_of_valid hv⟩

theorem row_of_view {T : PageTree 0} {ix : ℕ → ℕ} {pte : BitVec 64}
    (h : view x86 0 T ix = some pte) : isPageTableEntryValid pte = true ∧ T.row (ix 0) = pte := by
  simp only [view, entry, Option.filter_eq_some_iff, Option.some.injEq, isSome_decode] at h
  exact ⟨h.2, h.1⟩

theorem released_leaf (freePages : Bool) {T : PageTree 0} (hrep : Rep x86 vm.mem 0 a T) :
    Released (Freeable freePages vm 0 a T) {a} ∅ (freedFrames freePages 0 T) vm ((List.range kEntriesPerTable).foldl
      (freeEntry (fun pa vm => if freePages then vm.alignedFree pa true else vm) a) vm) ∧
    ∀ i < kEntriesPerTable, x86.decode (((List.range kEntriesPerTable).foldl
      (freeEntry (fun pa vm => if freePages then vm.alignedFree pa true else vm) a) vm).mem a i) =
        none := by
  let F : ℕ → Set Addr := fun k => {x | freePages = true ∧
    isPageTableEntryValid (vm.mem a k) = true ∧ x = pageTableEntryToPhysical (vm.mem a k)}
  have hC : ∀ k, upTo (fun _ => ∅) k = ∅ := by
    intro k
    ext x
    simp [upTo]
  have hF : upTo F kEntriesPerTable = freedFrames freePages 0 T := by
    ext x
    constructor
    · rintro ⟨i, hi, hp, hv, rfl⟩
      rw [hrep i hi] at hv ⊢
      exact ⟨hp, (mem_leaves_row hi hv).2⟩
    · rintro ⟨hp, ix, hix, pte, hview, hdec⟩
      obtain ⟨hv, rfl⟩ := row_of_view hview
      refine ⟨ix 0, hix 0, hp, ?_⟩
      rw [hrep _ (hix 0)]
      refine ⟨hv, ?_⟩
      rw [decode_of_valid hv] at hdec
      exact (Option.some.inj hdec).symm
  have hloop := released_loop (Freeable freePages vm 0 a T) vm a
    (fun pa vm => if freePages then vm.alignedFree pa true else vm) (fun _ => ∅) F
    (fun _ _ hx => hx) ?_ ?_
  · rw [hC, hF, Set.union_empty] at hloop
    exact hloop
  · intro k _ hv
    refine ⟨rfl, Set.eq_empty_iff_forall_notMem.mpr ?_⟩
    rintro x ⟨-, hv', -⟩
    exact hv hv'
  intro k hk hv v hr
  by_cases hp : freePages = true
  · simp only [hp, if_true]
    have hmem := hv
    rw [hrep k hk] at hmem
    rcases mem_leaves_row hk hmem with ⟨hview, hleaf⟩
    have hrow : vm.mem a k = T.row k := hrep k hk
    have hone : F k = {pageTableEntryToPhysical (vm.mem a k)} := by
      ext x
      simp [F, hp, hv]
    rw [hone]
    refine (Released.freeFrame v _).under fun hfree => (hr.live _).mpr ⟨?_, ?_, ?_⟩
    · rw [hrow]
      exact ((hfree.2 rfl).2 _ hleaf).1
    · rw [hC]
      exact Set.notMem_empty _
    · -- an earlier entry with the same frame would be a second mapping of it
      rintro ⟨i, hik, -, hvi, hpa⟩
      have hi : i < x86.arity := lt_trans hik hk
      rw [hrep i hi] at hvi hpa
      rw [hrow] at hpa
      rcases mem_leaves_row hi hvi with ⟨hviewi, -⟩
      have hsame := (hfree.2 rfl).1 _ _ (fun _ => hi) (fun _ => hk) _ _ hviewi hview
        (by rw [decode_of_valid hvi, decode_of_valid hmem, hpa]) 0 le_rfl
      simp only at hsame
      omega
  · have hnone : F k = ∅ := by
      ext x
      simp [F, hp]
    simp only [hp]
    rw [hnone]
    exact Released.refl _ _ _

/-- The tables that `RecursiveFreePageTable` frees: the root is left to its caller. -/
def freedTables (n : ℕ) (a : Addr) (T : PageTree n) : Set Addr :=
  {x | x ∈ foot x86 n a T ∧ (x = a → n < kPageTableLevels - 1)}

theorem freedTables_of_lt (h : n < kPageTableLevels - 1) (T : PageTree n) :
    freedTables n a T = foot x86 n a T := by
  ext x
  simp [freedTables, h]

/-- Freeing the tables below `a` clears its row and frees the tables of the tree and, when
asked to, the frames that it maps. -/
theorem released_recursiveFree (freePages : Bool) {T : PageTree n} (hn : n ≤ kPageTableLevels - 1)
    (hrep : Rep x86 vm.mem n a T) (hsep : Sep x86 n a T) (h0 : 0 ∉ foot x86 n a T) :
    Released (Freeable freePages vm n a T) (foot x86 n a T) (freedTables n a T)
      (freedFrames freePages n T) vm (recursiveFreePageTable freePages n a vm) ∧
    ∀ i < kEntriesPerTable,
      x86.decode ((recursiveFreePageTable freePages n a vm).mem a i) = none := by
  have hroot : a ≠ 0 := fun he => h0 (he ▸ mem_foot_root T)
  induction n generalizing a vm with
  | zero =>
    rcases released_leaf freePages hrep with ⟨hr, hrow⟩
    rw [recursiveFreePageTable, if_neg hroot, Vm.alignedFree_mem, freedTables_of_lt (by decide)]
    refine ⟨?_, hrow⟩
    have hfree := hr.trans ((Released.freeTable _ a).under fun hL => (hr.live a).mpr
      ⟨hL.1 a (mem_foot_root T), Set.notMem_empty a, hL.not_freed (mem_foot_root T)⟩)
    rwa [Set.union_empty, Set.union_empty, Set.empty_union] at hfree
  | succ n ih =>
    let C : ℕ → Set Addr := fun k => {x | ∃ c, T.child k = some c ∧ x ∈ foot x86 n c.1 c.2}
    let F : ℕ → Set Addr := fun k =>
      {x | freePages = true ∧ ∃ c, T.child k = some c ∧ x ∈ leaves x86 n c.2}
    have hout : a ∉ upTo C kEntriesPerTable := by
      rintro ⟨k, hk, c, hc, hx⟩
      exact (hsep.1 k hk c hc).1 hx
    have hfoot : foot x86 (n+1) a T = {a} ∪ upTo C kEntriesPerTable := by
      ext x
      constructor
      · rintro (hx | ⟨i, hi, c, hc, hx⟩)
        · exact Or.inl hx
        · exact Or.inr ⟨i, hi, c, hc, hx⟩
      · rintro (hx | ⟨i, hi, c, hc, hx⟩)
        · exact Or.inl hx
        · exact mem_foot_child hi hc hx
    have hframes : freedFrames freePages (n+1) T = upTo F kEntriesPerTable := by
      ext x
      constructor
      · rintro ⟨hp, hx⟩
        obtain ⟨i, hi, c, hc, hx⟩ := mem_leaves_succ hx
        exact ⟨i, hi, hp, c, hc, hx⟩
      · rintro ⟨i, hi, hp, c, hc, hx⟩
        exact ⟨hp, mem_leaves_child hi hc hx⟩
    have hloop := released_loop (Freeable freePages vm (n+1) a T) vm a
      (recursiveFreePageTable freePages n) C F ?_ ?_ ?_
    · rw [← hfoot, ← hframes] at hloop
      rw [recursiveFreePageTable, if_neg hroot]
      by_cases hlow : n + 1 < kPageTableLevels - 1
      · rw [if_pos hlow, Vm.alignedFree_mem, freedTables_of_lt hlow]
        refine ⟨?_, hloop.2⟩
        have hfree := hloop.1.trans ((Released.freeTable _ a).under fun hL =>
          (hloop.1.live a).mpr ⟨hL.1 a (mem_foot_root T), hout, hL.not_freed (mem_foot_root T)⟩)
        rwa [Set.union_empty, Set.union_empty, Set.union_comm _ {a}, ← hfoot] at hfree
      · rw [if_neg hlow]
        have htables : freedTables (n+1) a T = upTo C kEntriesPerTable := by
          ext x
          simp only [freedTables, hfoot, Set.mem_ofPred_eq, Set.mem_union, Set.mem_singleton_iff, hlow]
          constructor
          · rintro ⟨hx | hx, hne⟩
            · exact (hne hx).elim
            · exact hx
          · intro hx
            exact ⟨Or.inr hx, fun he => hout (he ▸ hx)⟩
        rw [htables]
        exact hloop
    · rintro k hk ⟨c, hc, hx⟩
      exact (hsep.1 k hk c hc).1 hx
    · intro k hk hv
      have hnone := hrep.none_of_decode hk (decode_of_not_valid hv)
      constructor <;> ext x <;> simp [C, F, hnone]
    · intro k hk hv v hr
      rcases hrep.child_of_decode hk (decode_of_valid hv) with ⟨S, hc, hS⟩
      have hbefore : ∀ x ∈ foot x86 n (pageTableEntryToPhysical (vm.mem a k)) S, x ∉ upTo C k := by
        rintro x hx ⟨i, hik, d, hd, hxd⟩
        exact Set.disjoint_left.mp
          (hsep.2 i (lt_trans hik hk) k hk (by omega) d _ hd hc) hxd hx
      have hSv : Rep x86 v.mem n (pageTableEntryToPhysical (vm.mem a k)) S := by
        refine hS.frame ?_
        intro x hx i _
        rw [hr.mem x]
        rintro (hxa | hxC)
        · rw [Set.mem_singleton_iff] at hxa
          exact (hsep.1 k hk _ hc).1 (hxa ▸ hx)
        · exact hbefore x hx hxC
      -- what was freed for the earlier entries is not needed for this one
      have hL : Freeable freePages vm (n+1) a T →
          Freeable freePages v n (pageTableEntryToPhysical (vm.mem a k)) S := by
        intro hL
        refine ⟨?_, ?_⟩
        · intro x hx
          have hxT : x ∈ foot x86 (n+1) a T := mem_foot_child hk hc hx
          refine (hr.live x).mpr ⟨hL.1 x hxT, hbefore x hx, ?_⟩
          rintro ⟨i, hik, hp, d, hd, hxd⟩
          exact hL.not_freed hxT ⟨hp, mem_leaves_child (lt_trans hik hk) hd hxd⟩
        · intro hp
          rcases hL.2 hp with ⟨hsole, hlive⟩
          refine ⟨hsole.child hk hc, ?_⟩
          intro x hx
          have hxT := hlive x (mem_leaves_child hk hc hx)
          refine ⟨(hr.live x).mpr ⟨hxT.1, ?_, ?_⟩, fun hf => hxT.2 (mem_foot_child hk hc hf)⟩
          · rintro ⟨i, hik, d, hd, hxd⟩
            exact hxT.2 (mem_foot_child (lt_trans hik hk) hd hxd)
          · rintro ⟨i, hik, -, d, hd, hxd⟩
            exact Set.disjoint_left.mp
              (hsole.disjoint (lt_trans hik hk) hk (by omega) hd hc) hxd hx
      have h0S : 0 ∉ foot x86 n (pageTableEntryToPhysical (vm.mem a k)) S :=
        fun hx => h0 (mem_foot_child hk hc hx)
      have hlow : n < kPageTableLevels - 1 := by omega
      have hih := (ih hlow.le hSv (hsep.1 k hk _ hc).2 h0S
        (fun he => h0S (he ▸ mem_foot_root S))).1.under hL
      rw [freedTables_of_lt hlow] at hih
      have hC : C k = foot x86 n (pageTableEntryToPhysical (vm.mem a k)) S := by
        ext x
        simp [C, hc]
      have hF : F k = freedFrames freePages n S := by
        ext x
        simp [F, freedFrames, hc]
      rw [hC, hF]
      exact hih

theorem released_destroy (freePages : Bool) {T : PageTree (kPageTableLevels - 1)}
    (hrep : Rep x86 vm.mem (kPageTableLevels - 1) a T) (hsep : Sep x86 (kPageTableLevels - 1) a T)
    (h0 : 0 ∉ foot x86 (kPageTableLevels - 1) a T) :
    Released (Freeable freePages vm (kPageTableLevels - 1) a T)
      (foot x86 (kPageTableLevels - 1) a T) (foot x86 (kPageTableLevels - 1) a T)
      (freedFrames freePages (kPageTableLevels - 1) T) vm (destroyPageDirectory a freePages vm) ∧
    ∀ i < kEntriesPerTable, x86.decode ((destroyPageDirectory a freePages vm).mem a i) = none := by
  rcases released_recursiveFree freePages le_rfl hrep hsep h0 with ⟨hr, hrow⟩
  have hall := hr.trans ((Released.freeTable _ a).under fun hL => (hr.live a).mpr
    ⟨hL.1 a (mem_foot_root T), fun hx => lt_irrefl _ (hx.2 rfl), hL.not_freed (mem_foot_root T)⟩)
  have htables : freedTables (kPageTableLevels - 1) a T ∪ {a} =
      foot x86 (kPageTableLevels - 1) a T := by
    ext x
    simp only [freedTables, Set.mem_union, Set.mem_ofPred_eq, Set.mem_singleton_iff]
    constructor
    · rintro (⟨hx, -⟩ | rfl)
      · exact hx
      · exact mem_foot_root T
    · intro hx
      by_cases hxa : x = a
      · exact Or.inr hxa
      · exact Or.inl ⟨hx, fun he => absurd he hxa⟩
  rw [Set.union_empty, Set.union_empty, htables] at hall
  have hroot : a ≠ 0 := fun he => h0 (he ▸ mem_foot_root T)
  rw [destroyPageDirectory, if_neg hroot]
  exact ⟨⟨hall.mem, hall.live, hall.freed⟩, hrow⟩

theorem Owns.released_destroy {T : PageTree (kPageTableLevels - 1)}
    (h : Owns vm (kPageTableLevels - 1) a T) :
    Released True (foot x86 (kPageTableLevels - 1) a T) (foot x86 (kPageTableLevels - 1) a T) ∅ vm
      (destroyPageDirectory a false vm) := by
  have hr := (Memory.released_destroy false h.rep h.sep h.nonnull).1
  have hnone : freedFrames false (kPageTableLevels - 1) T = ∅ := by
    ext x
    simp [freedFrames]
  rw [hnone] at hr
  exact hr.under fun _ => ⟨h.live, nofun⟩

theorem destroyed_destroy (freePages : Bool) (h : a ≠ 0) :
    (destroyPageDirectory a freePages vm).destroyed = ⟨a, decide (a ∈ vm.live)⟩ :: vm.destroyed := by
  rw [destroyPageDirectory, if_neg h]

section Ledger

/-- The calls `fs` of `aligned_free` are made, latest first: a page is no longer live after its
call, and no page has become live. -/
structure FreesOnly (fs : List FreeCall) (vm vm' : Vm) : Prop where
  freed : vm'.freed = fs ++ vm.freed
  live : ∀ x, x ∈ vm'.live ↔ x ∈ vm.live ∧ x ∉ fs.map FreeCall.page
  wasLive : ∀ f ∈ fs, f.wasLive = true → f.page ∈ vm.live
  nodup : (∀ f ∈ fs, f.wasLive = true) → (fs.map FreeCall.page).Nodup

namespace FreesOnly

variable {fs gs : List FreeCall} {vm vm' vm'' : Vm}

theorem refl (vm : Vm) : FreesOnly [] vm vm :=
  ⟨rfl, by simp, nofun, fun _ => List.nodup_nil⟩

theorem trans (h : FreesOnly fs vm vm') (h' : FreesOnly gs vm' vm'') :
    FreesOnly (gs ++ fs) vm vm'' := by
  refine ⟨by rw [h'.freed, h.freed, List.append_assoc], ?_, ?_, ?_⟩
  · intro x
    rw [h'.live, h.live, List.map_append, List.mem_append]
    tauto
  · intro f hf hlive
    rcases List.mem_append.mp hf with hf | hf
    · exact ((h.live _).mp (h'.wasLive f hf hlive)).1
    · exact h.wasLive f hf hlive
  · intro hall
    rw [List.map_append, List.nodup_append']
    refine ⟨h'.nodup fun f hf => hall f (List.mem_append_left _ hf),
      h.nodup fun f hf => hall f (List.mem_append_right _ hf), ?_⟩
    -- a page that is freed later was still live, so it was not freed before
    intro x hx hxs
    obtain ⟨g, hg, rfl⟩ := List.mem_map.mp hx
    exact ((h.live _).mp (h'.wasLive g hg (hall g (List.mem_append_left _ hg)))).2 hxs

theorem alignedFree (vm : Vm) (a : Addr) (frame : Bool) :
    FreesOnly [⟨a, frame, decide (a ∈ vm.live)⟩] vm (vm.alignedFree a frame) := by
  refine ⟨rfl, by simp [Vm.alignedFree], ?_, fun _ => List.nodup_singleton _⟩
  intro f hf hlive
  rw [List.mem_singleton.mp hf] at hlive ⊢
  exact of_decide_eq_true hlive

theorem foldl {freeChild : Addr → Vm → Vm}
    (hchild : ∀ b v, ∃ fs, FreesOnly fs v (freeChild b v)) (a : Addr) (vm : Vm) :
    ∃ fs, FreesOnly fs vm ((List.range kEntriesPerTable).foldl (freeEntry freeChild a) vm) := by
  refine foldl_range_induction (I := fun _ v => ∃ fs, FreesOnly fs vm v) ⟨[], refl vm⟩ ?_
  rintro k _ v ⟨fs, hfs⟩
  unfold freeEntry
  dsimp only
  split
  · rcases hchild (pageTableEntryToPhysical (v.mem a k)) v with ⟨gs, hgs⟩
    have hall := hfs.trans hgs
    exact ⟨gs ++ fs, hall.freed, hall.live, hall.wasLive, hall.nodup⟩
  · exact ⟨fs, hfs⟩

theorem recursiveFree (freePages : Bool) (n : ℕ) (a : Addr) (vm : Vm) :
    ∃ fs, FreesOnly fs vm (recursiveFreePageTable freePages n a vm) := by
  induction n generalizing a vm with
  | zero =>
    rw [recursiveFreePageTable]
    split
    · exact ⟨[], refl vm⟩
    · have hframe : ∀ b v, ∃ fs, FreesOnly fs v
          ((fun pa (vm : Vm) => if freePages then vm.alignedFree pa true else vm) b v) := by
        intro b v
        dsimp only
        split
        · exact ⟨_, alignedFree v b true⟩
        · exact ⟨[], refl v⟩
      obtain ⟨fs, hfs⟩ := foldl hframe a vm
      exact ⟨_, hfs.trans (alignedFree _ a false)⟩
  | succ n ih =>
    rw [recursiveFreePageTable]
    obtain ⟨fs, hfs⟩ := foldl ih a vm
    dsimp only
    split
    · exact ⟨[], refl vm⟩
    · split
      · exact ⟨_, hfs.trans (alignedFree _ a false)⟩
      · exact ⟨fs, hfs⟩

theorem destroy_root (freePages : Bool) {a : Addr} (ha : a ≠ 0) (vm : Vm) :
    ∃ fs, FreesOnly fs vm (destroyPageDirectory a freePages vm) ∧ a ∈ fs.map FreeCall.page := by
  obtain ⟨fs, hfs⟩ := recursiveFree freePages (kPageTableLevels - 1) a vm
  have hall := hfs.trans (alignedFree _ a false)
  rw [destroyPageDirectory, if_neg ha]
  exact ⟨_, ⟨hall.freed, hall.live, hall.wasLive, hall.nodup⟩, by simp⟩

theorem destroy (freePages : Bool) (a : Addr) (vm : Vm) :
    ∃ fs, FreesOnly fs vm (destroyPageDirectory a freePages vm) := by
  by_cases ha : a = 0
  · rw [destroyPageDirectory, if_pos ha]
    exact ⟨[], refl vm⟩
  · obtain ⟨fs, hfs, -⟩ := destroy_root freePages ha vm
    exact ⟨fs, hfs⟩

end FreesOnly

/-- The pages of `X` are passed to `aligned_free` as tables, each once, and no other page is. -/
def FreesExactly (X : Set Addr) (vm vm' : Vm) : Prop :=
  ∃ fs, vm'.freed = fs ++ vm.freed ∧ (fs.map FreeCall.page).Nodup ∧
    (∀ f ∈ fs, f.frame = false ∧ f.wasLive = true) ∧ ∀ x, x ∈ fs.map FreeCall.page ↔ x ∈ X

theorem Owns.freesExactly {T : PageTree (kPageTableLevels - 1)}
    (h : Owns vm (kPageTableLevels - 1) a T) :
    FreesExactly (tablePages vm a) vm (destroyPageDirectory a false vm) := by
  obtain ⟨fs, hfs⟩ := FreesOnly.destroy false a vm
  have hr := h.released_destroy
  obtain ⟨gs, hgs, hall⟩ := hr.freed
  obtain rfl : fs = gs := List.append_cancel_right (hfs.freed.symm.trans hgs)
  have hframe : ∀ f ∈ fs, f.frame = false := by
    intro f hf
    cases hkind : f.frame with
    | true => exact absurd ((hall f hf).2.1 hkind) (Set.notMem_empty _)
    | false => rfl
  refine ⟨fs, hfs.freed, hfs.nodup fun f hf => (hall f hf).1 trivial,
    fun f hf => ⟨hframe f hf, (hall f hf).1 trivial⟩, ?_⟩
  intro x
  rw [tablePages, ← h.rep.foot_eq_tables]
  constructor
  · intro hx
    obtain ⟨f, hf, rfl⟩ := List.mem_map.mp hx
    exact (hall f hf).2.2 (hframe f hf)
  · intro hx
    by_contra hnot
    exact ((hr.live x).mp ((hfs.live x).mpr ⟨h.live x hx, hnot⟩)).2.1 hx

end Ledger

/-- Freeing tables that were allocated on the way undoes their allocation. -/
theorem Grows.released {X C : Set Addr} {vm vm' vm'' : Vm} (h : Grows X vm vm')
    (hr : Released True C C ∅ vm' vm'') (hC : ∀ x ∈ C, x ∉ vm.live)
    (hds : ∃ ds, vm''.destroyed = ds ++ vm'.destroyed ∧ ∀ d ∈ ds, d.wasLive = true ∧ d.root ∈ C) :
    Grows X vm vm'' := by
  refine ⟨?_, ?_, ?_, ?_⟩
  · intro x hx
    exact (hr.live x).mpr ⟨h.live x hx, fun hc => hC x hc hx, Set.notMem_empty x⟩
  · intro x hx hX
    rw [hr.mem x (fun hc => hC x hc hx), h.mem x hx hX]
  · refine grown_trans h.freed hr.freed (fun _ hf => hf) ?_
    rintro f ⟨-, hframe, htable⟩
    cases hkind : f.frame with
    | true => exact absurd (hframe hkind) (Set.notMem_empty _)
    | false => exact ⟨rfl, hC _ (htable hkind)⟩
  · exact grown_trans h.destroyed hds (fun _ hd => hd) fun d hd => hd.imp_right (hC _)

end NaiLongKernel.Memory
