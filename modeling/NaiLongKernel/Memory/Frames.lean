import NaiLongKernel.Memory.Holdings

/-!
# The frames of several page directories

Each frame is live and is no table, whatever directories map it. Mapping such a frame keeps that,
and so does copying the mappings of a directory. A directory whose frames are mapped nowhere else
can be destroyed with them: each of them is live when it is freed, and no other directory maps it.
-/
namespace NaiLongKernel.Memory

open Foundation Foundation.Radix

/-- The frame that the tree has for an address. -/
def frameAt (T : PageTree (kPageTableLevels - 1)) (va : Addr) : Option Addr :=
  (view x86 (kPageTableLevels - 1) T (indices va)).bind x86.decode

theorem Owns.mapping_eq_frameAt {vm : Vm} {r : Addr} {T : PageTree (kPageTableLevels - 1)}
    (h : Owns vm (kPageTableLevels - 1) r T) (va : Addr) : mapping vm r va = frameAt T va :=
  h.mapping_eq_bind fun _ _ => rfl

theorem frameAt_blankTree (va : Addr) : frameAt (blankTree x86 (kPageTableLevels - 1)) va = none := by
  rw [frameAt, view_blankTree]
  rfl

abbrev CanonicalAddr := {va : Addr // IsCanonical va}

variable {ι : Type}

/-- The frame that each holder of a directory maps at each address. -/
def framesOf (root : ι → Option Addr) (tree : Addr → PageTree (kPageTableLevels - 1)) :
    ι × CanonicalAddr → Option Addr :=
  fun j => (root j.1).bind fun r => frameAt (tree r) j.2

/-- Every frame that a holder maps is live and is no page of theirs. -/
structure Framed (vm : Vm) (root page : ι → Option Addr) (tree : Addr → PageTree (kPageTableLevels - 1)) :
    Prop extends Housed vm root page tree where
  frame_live : ∀ x ∈ valuesOf (framesOf root tree), x ∈ vm.live
  frame_page : ∀ x ∈ valuesOf (framesOf root tree), x ∉ valuesOf page
  frame_foot : ∀ x ∈ valuesOf (framesOf root tree), ∀ r ∈ valuesOf root,
    x ∉ foot x86 (kPageTableLevels - 1) r (tree r)

/-- The pages of `X` are none of theirs, and none of the frames that they map. -/
structure Outside (root page : ι → Option Addr) (tree : Addr → PageTree (kPageTableLevels - 1))
    (X : Set Addr) : Prop where
  roots : ∀ x ∈ X, ∀ r ∈ valuesOf root, x ∉ foot x86 (kPageTableLevels - 1) r (tree r)
  pages : ∀ x ∈ X, x ∉ valuesOf page
  frames : ∀ x ∈ X, x ∉ valuesOf (framesOf root tree)

theorem Outside.mono {root page : ι → Option Addr} {tree : Addr → PageTree (kPageTableLevels - 1)}
    {X Y : Set Addr} (h : Outside root page tree X) (hY : Y ⊆ X) : Outside root page tree Y :=
  ⟨fun x hx => h.roots x (hY hx), fun x hx => h.pages x (hY hx), fun x hx => h.frames x (hY hx)⟩

/-- The frames that are freed between `vm` and `vm'` are live then, and are not among `frames`. -/
def FreesUnmapped (frames : Set Addr) (vm vm' : Vm) : Prop :=
  ∃ fs, vm'.freed = fs ++ vm.freed ∧
    ∀ f ∈ fs, f.frame = true → f.wasLive = true ∧ f.page ∉ frames

theorem FreesUnmapped.of_grows {X frames : Set Addr} {vm vm' : Vm} (h : Grows X vm vm') :
    FreesUnmapped frames vm vm' := by
  obtain ⟨fs, hfs, hall⟩ := h.freed
  refine ⟨fs, hfs, ?_⟩
  intro f hf hframe
  rw [(hall f hf).1] at hframe
  cases hframe

theorem FreesUnmapped.of_released {L : Prop} {C D F frames : Set Addr} {vm vm' : Vm}
    (h : Released L C D F vm vm') (hF : ∀ x ∈ F, L ∧ x ∉ frames) : FreesUnmapped frames vm vm' := by
  obtain ⟨fs, hfs, hall⟩ := h.freed
  refine ⟨fs, hfs, ?_⟩
  intro f hf hframe
  obtain ⟨hL, hout⟩ := hF _ ((hall f hf).2.1 hframe)
  exact ⟨(hall f hf).1 hL, hout⟩

theorem FreesUnmapped.trans {frames : Set Addr} {vm vm' vm'' : Vm} (h : FreesUnmapped frames vm vm')
    (h' : FreesUnmapped frames vm' vm'') : FreesUnmapped frames vm vm'' :=
  grown_trans h h' (fun _ hf => hf) (fun _ hf => hf)

namespace Framed

variable {vm vm' : Vm} {root page : ι → Option Addr} {tree : Addr → PageTree (kPageTableLevels - 1)}
  {i : ι} {r x : Addr}

theorem mem_frames {va : Addr} (hr : root i = some r) (hva : IsCanonical va)
    (hx : frameAt (tree r) va = some x) : framesOf root tree (i, ⟨va, hva⟩) = some x := by
  rw [framesOf, hr]
  exact hx

theorem keep (h : Framed vm root page tree) (hg : Grows ∅ vm vm') : Framed vm' root page tree :=
  { h.toHoused.keep hg with
    frame_live := fun x hx => hg.live x (h.frame_live x hx)
    frame_page := h.frame_page
    frame_foot := h.frame_foot }

theorem outside_of_dead (h : Framed vm root page tree) {X : Set Addr} (hX : ∀ x ∈ X, x ∉ vm.live) :
    Outside root page tree X where
  roots x hx r hr hmem := hX x hx ((h.owns r hr).live x hmem)
  pages x hx hmem := hX x hx (h.live x hmem)
  frames x hx hmem := hX x hx (h.frame_live x hmem)

theorem released (h : Framed vm root page tree) {L : Prop} {X : Set Addr} (hr : Released L X X ∅ vm vm')
    (hX : Outside root page tree X) : Framed vm' root page tree := by
  have hroots : ∀ r ∈ valuesOf root, ∀ x ∈ foot x86 (kPageTableLevels - 1) r (tree r),
      x ∉ X ∧ x ∉ X ∧ x ∉ (∅ : Set Addr) := by
    intro r hr x hx
    have hout : x ∉ X := fun hmem => hX.roots x hmem r hr hx
    exact ⟨hout, hout, Set.notMem_empty x⟩
  have hpages : ∀ x ∈ valuesOf page, x ∉ X ∧ x ∉ (∅ : Set Addr) :=
    fun x hx => ⟨fun hmem => hX.pages x hmem hx, Set.notMem_empty x⟩
  exact { h.toHoldings.released hr hroots hpages with
    pages := h.pages
    frame_live := fun x hx => (hr.live x).mpr
      ⟨h.frame_live x hx, fun hmem => hX.frames x hmem hx, Set.notMem_empty x⟩
    frame_page := h.frame_page
    frame_foot := h.frame_foot }

/-- What the holder maps is mapped once, by it alone. -/
def MappedOnce (root : ι → Option Addr) (tree : Addr → PageTree (kPageTableLevels - 1)) (i : ι) : Prop :=
  ∀ va y, framesOf root tree (i, va) = some y → SoleHolder (framesOf root tree) (i, va) y

theorem freeable (h : Framed vm root page tree) (hr : root i = some r) {freePages : Bool}
    (honce : freePages = true → MappedOnce root tree i) :
    Freeable freePages vm (kPageTableLevels - 1) r (tree r) := by
  have hown := h.owns r ⟨i, hr⟩
  refine ⟨hown.live, fun hfree => ⟨hown.sole ?_, ?_⟩⟩
  · intro va va' hva hva' y hy hy'
    rw [hown.mapping_eq_frameAt] at hy hy'
    by_contra hne
    exact honce hfree ⟨va, hva⟩ y (mem_frames hr hva hy) (i, ⟨va', hva'⟩) (by simpa using Ne.symm hne)
      (mem_frames hr hva' hy')
  · intro y hy
    obtain ⟨va, hva, hmap⟩ := hown.mem_leaves_iff.mp hy
    rw [hown.mapping_eq_frameAt] at hmap
    have hmem : y ∈ valuesOf (framesOf root tree) := ⟨_, mem_frames hr hva hmap⟩
    exact ⟨h.frame_live y hmem, h.frame_foot y hmem r ⟨i, hr⟩⟩

theorem effect_eq_some {va y : Addr} {old : Option Addr} {c : VmCall} {ok : Bool}
    (h : VmCall.effect va old (c, ok) = some y) :
    old = some y ∨ ∃ flags, c = .mapPage va y flags := by
  cases c with
  | mapPage va' pa flags =>
    cases ok with
    | false => exact Or.inl h
    | true =>
      rw [VmCall.effect] at h
      split at h
      · rename_i he
        cases h
        exact Or.inr ⟨flags, by rw [he]⟩
      · exact Or.inl h
  | unmapPage va' =>
    cases ok with
    | false => exact Or.inl h
    | true =>
      rw [VmCall.effect] at h
      split at h
      · cases h
      · exact Or.inl h
  | getMapping va' => cases ok <;> exact Or.inl h

/-- A call on the directory of a holder, which maps no page of theirs. -/
theorem call (h : Framed vm root page tree) (A : Allocator) (hr : root i = some r) {c : VmCall}
    (hc : c.Valid) (hpa : ∀ va pa flags, c = .mapPage va pa flags → pa ∈ vm.live ∧
      pa ∉ valuesOf page ∧ ∀ q ∈ valuesOf root, pa ∉ foot x86 (kPageTableLevels - 1) q (tree q)) :
    (∃ tree', Framed (c.step A r vm).2 root page tree') ∧
      ∃ X, Grows X vm (c.step A r vm).2 := by
  have hown := h.owns r ⟨i, hr⟩
  obtain ⟨T', hT'⟩ := VmCall.step_extends A hown c
  have hframe : ∀ y ∈ valuesOf (framesOf root (Function.update tree r T')), y ∈ vm.live ∧
      y ∉ valuesOf page ∧ ∀ q ∈ valuesOf root, y ∉ foot x86 (kPageTableLevels - 1) q (tree q) := by
    have hold : ∀ {y}, y ∈ valuesOf (framesOf root tree) → y ∈ vm.live ∧ y ∉ valuesOf page ∧
        ∀ q ∈ valuesOf root, y ∉ foot x86 (kPageTableLevels - 1) q (tree q) :=
      fun hy => ⟨h.frame_live _ hy, h.frame_page _ hy, h.frame_foot _ hy⟩
    rintro y ⟨⟨j, va⟩, hj⟩
    obtain ⟨q, hq, hy⟩ := Option.bind_eq_some_iff.mp hj
    by_cases hqr : q = r
    · subst hqr
      rw [Function.update_self, ← hT'.owns.mapping_eq_frameAt, VmCall.step_mapping A hown hc va.2,
        hown.mapping_eq_frameAt] at hy
      obtain hy | ⟨flags, he⟩ := effect_eq_some hy
      · exact hold ⟨_, mem_frames hq va.2 hy⟩
      · exact hpa _ y flags he
    · rw [Function.update_of_ne hqr] at hy
      exact hold ⟨_, mem_frames hq va.2 hy⟩
  refine ⟨⟨Function.update tree r T', { h.toHoused.evolve hr hT'.toEvolves with
    frame_live := fun y hy => hT'.grows.live y (hframe y hy).1
    frame_page := fun y hy => (hframe y hy).2.1
    frame_foot := ?_ }⟩, _, hT'.grows⟩
  intro y hy q hq hmem
  obtain ⟨hylive, -, hyfoot⟩ := hframe y hy
  by_cases hqr : q = r
  · subst hqr
    rw [Function.update_self] at hmem
    obtain hold | hdead := hT'.foot y hmem
    · exact hyfoot q hq hold
    · exact hdead hylive
  · rw [Function.update_of_ne hqr] at hmem
    exact hyfoot q hq hmem

/-- A directory outside is destroyed twice: the second time it is empty, and only its root is
freed once more. -/
theorem destroyTwice (h : Framed vm root page tree) {S : PageTree (kPageTableLevels - 1)}
    (hS : Owns vm (kPageTableLevels - 1) r S)
    (hout : Outside root page tree (foot x86 (kPageTableLevels - 1) r S)) (freePages : Bool) :
    Framed (destroyPageDirectory r freePages (destroyPageDirectory r false vm)) root page tree ∧
      ∀ frames, FreesUnmapped frames vm
        (destroyPageDirectory r freePages (destroyPageDirectory r false vm)) := by
  have hfirst := hS.released_destroy
  have hrep : Rep x86 (destroyPageDirectory r false vm).mem (kPageTableLevels - 1) r
      (blankTree x86 (kPageTableLevels - 1)) :=
    (Memory.released_destroy false hS.rep hS.sep hS.nonnull).2
  have hfoot := foot_blankTree (F := x86) (kPageTableLevels - 1) r
  have hnull : 0 ∉ foot x86 (kPageTableLevels - 1) r (blankTree x86 (kPageTableLevels - 1)) := by
    rw [hfoot]
    exact fun h0 => hS.root_nonnull (Set.mem_singleton_iff.mp h0).symm
  have hnone : freedFrames freePages (kPageTableLevels - 1) (blankTree x86 (kPageTableLevels - 1)) = ∅ := by
    ext x
    simp [freedFrames, leaves, view_blankTree]
  have hsecond := (Memory.released_destroy freePages hrep (sep_blankTree _ r) hnull).1
  rw [hfoot, hnone] at hsecond
  have hroot : Outside root page tree {r} := hout.mono (by simpa using mem_foot_root S)
  refine ⟨(h.released hfirst hout).released hsecond hroot, ?_⟩
  intro frames
  exact (FreesUnmapped.of_released hfirst (by simp)).trans (FreesUnmapped.of_released hsecond (by simp))

/-- The same pages are in use, and no other frame is mapped. -/
theorem of_frames (h : Framed vm root page tree) {root' : ι → Option Addr}
    {tree' : Addr → PageTree (kPageTableLevels - 1)} (hhoused : Housed vm root' page tree')
    (hsub : valuesOf (framesOf root' tree') ⊆ valuesOf (framesOf root tree))
    (hfoot : ∀ x ∈ valuesOf (framesOf root tree), ∀ q ∈ valuesOf root',
      x ∉ foot x86 (kPageTableLevels - 1) q (tree' q)) : Framed vm root' page tree' :=
  { hhoused with
    frame_live := fun x hx => h.frame_live x (hsub hx)
    frame_page := fun x hx => h.frame_page x (hsub hx)
    frame_foot := fun x hx => hfoot x (hsub hx) }

variable [DecidableEq ι]

theorem insertRoot (h : Framed vm root page tree) {S : PageTree (kPageTableLevels - 1)}
    (hS : Owns vm (kPageTableLevels - 1) r S)
    (hout : Outside root page tree (foot x86 (kPageTableLevels - 1) r S))
    (hframes : ∀ va, IsCanonical va → ∀ y, frameAt S va = some y → y ∈ valuesOf (framesOf root tree))
    (i : ι) : Framed vm (Function.update root i (some r)) page (Function.update tree r S) := by
  have hnew : r ∉ valuesOf root := fun hr => hout.roots r (mem_foot_root S) r hr (mem_foot_root _)
  apply h.of_frames (h.toHoused.insertRoot hS hout.roots hout.pages i)
  · rintro y ⟨⟨j, va⟩, hj⟩
    by_cases hji : j = i
    · rw [framesOf, hji, Function.update_self, Option.bind_some, Function.update_self] at hj
      exact hframes va va.2 y hj
    · rw [framesOf, Function.update_of_ne hji] at hj
      obtain ⟨q, hq, hy⟩ := Option.bind_eq_some_iff.mp hj
      have hqr : q ≠ r := fun he => hnew ⟨j, he ▸ hq⟩
      rw [Function.update_of_ne hqr] at hy
      exact ⟨_, mem_frames hq va.2 hy⟩
  · intro x hx q hq
    obtain rfl | hq := valuesOf_update_some_subset root i r hq
    · rw [Function.update_self]
      exact fun hx' => hout.frames x hx' hx
    · have hqr : q ≠ r := fun he => hnew (he ▸ hq)
      rw [Function.update_of_ne hqr]
      exact h.frame_foot x hx q hq

theorem share {j : ι} (h : Framed vm root page tree) (hj : root j = some r) (i : ι) :
    Framed vm (Function.update root i (some r)) page tree := by
  apply h.of_frames (h.toHoused.share hj i)
  · rintro y ⟨⟨l, va⟩, hl⟩
    by_cases hli : l = i
    · rw [framesOf, hli, Function.update_self] at hl
      exact ⟨_, mem_frames hj va.2 hl⟩
    · rw [framesOf, Function.update_of_ne hli] at hl
      exact ⟨(l, va), hl⟩
  · intro x hx q hq
    obtain rfl | hq := valuesOf_update_some_subset root i r hq
    · exact h.frame_foot x hx q ⟨j, hj⟩
    · exact h.frame_foot x hx q hq

theorem insertPage (h : Framed vm root page tree) (hx : x ∈ vm.live) (hout : Outside root page tree {x})
    (i : ι) : Framed vm root (Function.update page i (some x)) tree := by
  refine { h.toHoused.insertPage hx (hout.pages x rfl) (hout.roots x rfl) i with
    frame_live := h.frame_live
    frame_page := ?_
    frame_foot := h.frame_foot }
  intro y hy hpage
  obtain rfl | hpage := valuesOf_update_some_subset page i x hpage
  · exact hout.frames y rfl hy
  · exact h.frame_page y hy hpage

theorem removePage (h : Framed vm root page tree) (hx : page i = some x) :
    Framed (vm.alignedFree x false) root (Function.update page i none) tree := by
  refine { h.toHoused.removePage hx with
    frame_live := ?_
    frame_page := fun y hy hpage => h.frame_page y hy (valuesOf_update_none_subset page i hpage)
    frame_foot := h.frame_foot }
  intro y hy
  have hne : y ≠ x := fun he => h.frame_page y hy ⟨i, he ▸ hx⟩
  exact ((Released.freeTable vm x).live y).mpr ⟨h.frame_live y hy, hne, Set.notMem_empty y⟩

/-- A holder destroys the directory that it alone has, with the frames that only it maps or
without any. -/
theorem removeRoot (h : Framed vm root page tree) (hr : root i = some r) (hsole : SoleHolder root i r)
    {freePages : Bool} (honce : freePages = true → MappedOnce root tree i) :
    Framed (destroyPageDirectory r freePages vm) (Function.update root i none) page tree ∧
      FreesUnmapped (valuesOf (framesOf (Function.update root i none) tree)) vm
        (destroyPageDirectory r freePages vm) := by
  have hown := h.owns r ⟨i, hr⟩
  have hle : ∀ j y, framesOf (Function.update root i none) tree j = some y →
      framesOf root tree j = some y ∧ j.1 ≠ i := by
    rintro ⟨j, va⟩ y hj
    by_cases hji : j = i
    · rw [framesOf, hji, Function.update_self] at hj
      cases hj
    · rw [framesOf, Function.update_of_ne hji] at hj
      exact ⟨hj, hji⟩
  have hsub : valuesOf (framesOf (Function.update root i none) tree) ⊆ valuesOf (framesOf root tree) := by
    rintro y ⟨j, hj⟩
    exact ⟨j, (hle j y hj).1⟩
  -- what is freed is mapped by the holder, and by no other
  have hfreed : ∀ y ∈ freedFrames freePages (kPageTableLevels - 1) (tree r),
      y ∈ valuesOf (framesOf root tree) ∧ y ∉ valuesOf (framesOf (Function.update root i none) tree) := by
    rintro y ⟨hfree, hy⟩
    obtain ⟨va, hva, hmap⟩ := hown.mem_leaves_iff.mp hy
    rw [hown.mapping_eq_frameAt] at hmap
    have hself := mem_frames hr hva hmap
    refine ⟨⟨_, hself⟩, ?_⟩
    rintro ⟨j, hj⟩
    obtain ⟨hj, hne⟩ := hle j y hj
    exact honce hfree _ y hself j (fun he => hne (he ▸ rfl)) hj
  have hrel := (released_destroy freePages hown.rep hown.sep hown.nonnull).1
  refine ⟨?_, FreesUnmapped.of_released hrel fun y hy => ⟨h.freeable hr honce, (hfreed y hy).2⟩⟩
  have hhoused := h.toHoused.removeRoot hr hsole freePages
    (fun y hy q hq _ => h.frame_foot y (hfreed y hy).1 q hq) (fun y hy => h.frame_page y (hfreed y hy).1)
  exact { hhoused with
    frame_live := fun y hy => (hrel.live y).mpr ⟨h.frame_live y (hsub hy),
      h.frame_foot y (hsub hy) r ⟨i, hr⟩, fun hF => (hfreed y hF).2 hy⟩
    frame_page := fun y hy => h.frame_page y (hsub hy)
    frame_foot := fun y hy q hq => h.frame_foot y (hsub hy) q (valuesOf_update_none_subset root i hq) }

end Framed

end NaiLongKernel.Memory
