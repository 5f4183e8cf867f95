import NaiLongKernel.Memory.Cloning

/-!
# Page directories side by side

Some page directories and some other pages are in use, and none shares a page with another.
The operations on one directory keep that for all; destroying a directory keeps it for the
others as long as no frame that is freed with it is one of their pages. Several holders may have
one directory, and one that has it alone can give it back; each holder has a page of its own.
-/
namespace NaiLongKernel.Memory

open Foundation Foundation.Radix

/-- The directories with the given roots and the given other pages share no page. -/
structure Holdings (vm : Vm) (roots pages : Set Addr) (tree : Addr → PageTree (kPageTableLevels - 1)) :
    Prop where
  owns : ∀ r ∈ roots, Owns vm (kPageTableLevels - 1) r (tree r)
  apart : ∀ r ∈ roots, ∀ r' ∈ roots, r ≠ r' →
    Disjoint (foot x86 (kPageTableLevels - 1) r (tree r)) (foot x86 (kPageTableLevels - 1) r' (tree r'))
  live : ∀ x ∈ pages, x ∈ vm.live
  outside : ∀ x ∈ pages, ∀ r ∈ roots, x ∉ foot x86 (kPageTableLevels - 1) r (tree r)

namespace Holdings

variable {vm vm' : Vm} {roots roots' pages pages' : Set Addr}
  {tree : Addr → PageTree (kPageTableLevels - 1)} {r x : Addr}

theorem empty (vm : Vm) (tree : Addr → PageTree (kPageTableLevels - 1)) : Holdings vm ∅ ∅ tree :=
  ⟨by simp, by simp, by simp, by simp⟩

theorem mono (h : Holdings vm roots pages tree) (hroots : roots' ⊆ roots) (hpages : pages' ⊆ pages) :
    Holdings vm roots' pages' tree where
  owns r hr := h.owns r (hroots hr)
  apart r hr r' hr' := h.apart r (hroots hr) r' (hroots hr')
  live x hx := h.live x (hpages hx)
  outside x hx r hr := h.outside x (hpages hx) r (hroots hr)

theorem root_live (h : Holdings vm roots pages tree) (hr : r ∈ roots) : r ∈ vm.live :=
  (h.owns r hr).live r (mem_foot_root _)

theorem keep (h : Holdings vm roots pages tree) (hg : Grows ∅ vm vm') : Holdings vm' roots pages tree where
  owns r hr := (h.owns r hr).frame hg (Set.disjoint_empty _)
  apart := h.apart
  live x hx := hg.live x (h.live x hx)
  outside := h.outside

theorem evolve (h : Holdings vm roots pages tree) {T' : PageTree (kPageTableLevels - 1)} (hr : r ∈ roots)
    (he : Evolves vm vm' (kPageTableLevels - 1) r (tree r) T') :
    Holdings vm' roots pages (Function.update tree r T') := by
  -- what the directory has got was in nobody's use
  have hnew : ∀ x ∈ foot x86 (kPageTableLevels - 1) r T', x ∈ vm.live →
      x ∈ foot x86 (kPageTableLevels - 1) r (tree r) := by
    intro x hx hlive
    exact (he.foot x hx).resolve_right (fun hdead => hdead hlive)
  have hapart : ∀ q ∈ roots, q ≠ r → Disjoint (foot x86 (kPageTableLevels - 1) q (tree q))
      (foot x86 (kPageTableLevels - 1) r T') := by
    intro q hq hqr
    rw [Set.disjoint_left]
    intro x hx hx'
    exact Set.disjoint_left.mp (h.apart q hq r hr hqr) hx (hnew x hx' ((h.owns q hq).live x hx))
  refine ⟨?_, ?_, fun x hx => he.grows.live x (h.live x hx), ?_⟩
  · intro q hq
    by_cases hqr : q = r
    · subst hqr
      rw [Function.update_self]
      exact he.owns
    · rw [Function.update_of_ne hqr]
      exact (h.owns q hq).frame he.grows (h.apart q hq r hr hqr)
  · intro q hq q' hq' hne
    by_cases hqr : q = r
    · subst hqr
      rw [Function.update_self, Function.update_of_ne (Ne.symm hne)]
      exact (hapart q' hq' (Ne.symm hne)).symm
    · rw [Function.update_of_ne hqr]
      by_cases hqr' : q' = r
      · subst hqr'
        rw [Function.update_self]
        exact hapart q hq hqr
      · rw [Function.update_of_ne hqr']
        exact h.apart q hq q' hq' hne
  · intro x hx q hq
    by_cases hqr : q = r
    · subst hqr
      rw [Function.update_self]
      exact fun hx' => h.outside x hx q hq (hnew x hx' (h.live x hx))
    · rw [Function.update_of_ne hqr]
      exact h.outside x hx q hq

theorem insertRoot (h : Holdings vm roots pages tree) {S : PageTree (kPageTableLevels - 1)}
    (hS : Owns vm (kPageTableLevels - 1) r S)
    (hroots : ∀ x ∈ foot x86 (kPageTableLevels - 1) r S, ∀ q ∈ roots,
      x ∉ foot x86 (kPageTableLevels - 1) q (tree q))
    (hpages : ∀ x ∈ foot x86 (kPageTableLevels - 1) r S, x ∉ pages) :
    Holdings vm (insert r roots) pages (Function.update tree r S) := by
  have hne : ∀ q ∈ roots, q ≠ r := by
    rintro q hq rfl
    exact hroots q (mem_foot_root S) q hq (mem_foot_root _)
  refine ⟨?_, ?_, h.live, ?_⟩
  · intro q hq
    obtain rfl | hq := Set.mem_insert_iff.mp hq
    · rw [Function.update_self]
      exact hS
    · rw [Function.update_of_ne (hne q hq)]
      exact h.owns q hq
  · intro q hq q' hq' hqq
    obtain he | hold := Set.mem_insert_iff.mp hq
    · obtain he' | hold' := Set.mem_insert_iff.mp hq'
      · exact absurd (he.trans he'.symm) hqq
      · rw [he, Function.update_self, Function.update_of_ne (hne q' hold')]
        exact Set.disjoint_left.mpr fun x hx => hroots x hx q' hold'
    · rw [Function.update_of_ne (hne q hold)]
      obtain he' | hold' := Set.mem_insert_iff.mp hq'
      · rw [he', Function.update_self]
        exact Set.disjoint_right.mpr fun x hx => hroots x hx q hold
      · rw [Function.update_of_ne (hne q' hold')]
        exact h.apart q hold q' hold' hqq
  · intro x hx q hq
    obtain rfl | hq := Set.mem_insert_iff.mp hq
    · rw [Function.update_self]
      exact fun hx' => hpages x hx' hx
    · rw [Function.update_of_ne (hne q hq)]
      exact h.outside x hx q hq

theorem add (h : Holdings vm roots pages tree) (hg : Grows ∅ vm vm')
    {S : PageTree (kPageTableLevels - 1)} (hS : Owns vm' (kPageTableLevels - 1) r S)
    (hfresh : ∀ x ∈ foot x86 (kPageTableLevels - 1) r S, x ∉ vm.live) :
    Holdings vm' (insert r roots) pages (Function.update tree r S) := by
  apply (h.keep hg).insertRoot hS
  · intro x hx q hq hx'
    exact hfresh x hx ((h.owns q hq).live x hx')
  · intro x hx hx'
    exact hfresh x hx (h.live x hx')

theorem insertPage (h : Holdings vm roots pages tree) (hx : x ∈ vm.live)
    (hout : ∀ r ∈ roots, x ∉ foot x86 (kPageTableLevels - 1) r (tree r)) :
    Holdings vm roots (insert x pages) tree := by
  refine ⟨h.owns, h.apart, ?_, ?_⟩
  · intro y hy
    obtain rfl | hy := Set.mem_insert_iff.mp hy
    · exact hx
    · exact h.live y hy
  · intro y hy
    obtain rfl | hy := Set.mem_insert_iff.mp hy
    · exact hout
    · exact h.outside y hy

theorem released (h : Holdings vm roots pages tree) {L : Prop} {C D F : Set Addr}
    (hr : Released L C D F vm vm')
    (hroots : ∀ q ∈ roots, ∀ x ∈ foot x86 (kPageTableLevels - 1) q (tree q), x ∉ C ∧ x ∉ D ∧ x ∉ F)
    (hpages : ∀ x ∈ pages, x ∉ D ∧ x ∉ F) : Holdings vm' roots pages tree := by
  refine ⟨?_, h.apart, ?_, h.outside⟩
  · intro q hq
    have hown := h.owns q hq
    refine ⟨hown.rep.frame ?_, hown.sep, ?_, hown.nonnull⟩
    · intro x hx i _
      rw [hr.mem x (hroots q hq x hx).1]
    · intro x hx
      exact (hr.live x).mpr ⟨hown.live x hx, (hroots q hq x hx).2⟩
  · intro x hx
    exact (hr.live x).mpr ⟨h.live x hx, hpages x hx⟩

theorem alignedFree (h : Holdings vm roots pages tree) (hx : x ∉ pages)
    (hout : ∀ r ∈ roots, x ∉ foot x86 (kPageTableLevels - 1) r (tree r)) :
    Holdings (vm.alignedFree x false) roots pages tree := by
  apply h.released (Released.freeTable vm x)
  · intro q hq y hy
    have hne : y ≠ x := fun he => hout q hq (he ▸ hy)
    exact ⟨Set.notMem_empty y, hne, Set.notMem_empty y⟩
  · intro y hy
    have hne : y ≠ x := fun he => hx (he ▸ hy)
    exact ⟨hne, Set.notMem_empty y⟩

theorem destroy (h : Holdings vm roots pages tree) (hr : r ∈ roots) (freePages : Bool)
    (hroots : ∀ x ∈ freedFrames freePages (kPageTableLevels - 1) (tree r), ∀ q ∈ roots, q ≠ r →
      x ∉ foot x86 (kPageTableLevels - 1) q (tree q))
    (hpages : ∀ x ∈ freedFrames freePages (kPageTableLevels - 1) (tree r), x ∉ pages) :
    Holdings (destroyPageDirectory r freePages vm) (roots \ {r}) pages tree := by
  have hown := h.owns r hr
  apply (h.mono Set.sdiff_subset subset_rfl).released
    (released_destroy freePages hown.rep hown.sep hown.nonnull).1
  · rintro q ⟨hq, hqr⟩ x hx
    have hout := Set.disjoint_left.mp (h.apart q hq r hr hqr) hx
    exact ⟨hout, hout, fun hF => hroots x hF q hq hqr hx⟩
  · intro x hx
    exact ⟨h.outside x hx r hr, fun hF => hpages x hF hx⟩

end Holdings

/-- The page is live and the root of a directory that maps nothing. -/
def Vm.Empty (vm : Vm) (r : Addr) : Prop := r ≠ 0 ∧ r ∈ vm.live ∧ ∀ i < kEntriesPerTable, vm.mem r i = 0

instance (vm : Vm) (r : Addr) : Decidable (vm.Empty r) :=
  decidable_of_iff (r ≠ 0 ∧ vm.live.contains r = true ∧ ∀ i < kEntriesPerTable, vm.mem r i = 0)
    (by rw [List.contains_iff_mem, Vm.Empty])

theorem Vm.Empty.owns {vm : Vm} {r : Addr} (h : vm.Empty r) :
    Owns vm (kPageTableLevels - 1) r (blankTree x86 (kPageTableLevels - 1)) :=
  Owns.blank h.2.2 h.2.1 h.1

theorem Vm.Empty.mapping {vm : Vm} {r : Addr} (h : vm.Empty r) (va : Addr) :
    Memory.mapping vm r va = none := by
  rw [Memory.mapping, h.owns.translate_eq, view_blankTree]
  rfl

section Holders

variable {ι α : Type}

/-- The values that a partial function takes. -/
def valuesOf (g : ι → Option α) : Set α := {x | ∃ i, g i = some x}

/-- No value is taken twice. -/
def Distinct (g : ι → Option α) : Prop := ∀ i j x, g i = some x → g j = some x → i = j

variable {g : ι → Option α} {i : ι} {x : α}

theorem Distinct.of_le {g' : ι → Option α} (h : Distinct g) (hle : ∀ j y, g' j = some y → g j = some y) :
    Distinct g' :=
  fun j l y hj hl => h j l y (hle j y hj) (hle l y hl)

/-- No other has the value. -/
def SoleHolder (g : ι → Option α) (i : ι) (x : α) : Prop := ∀ j, j ≠ i → g j ≠ some x

theorem Distinct.soleHolder (h : Distinct g) (hi : g i = some x) : SoleHolder g i x :=
  fun j hji hj => hji (h j i x hj hi)

variable [DecidableEq ι]

theorem valuesOf_update_none_subset (g : ι → Option α) (i : ι) :
    valuesOf (Function.update g i none) ⊆ valuesOf g := by
  rintro y ⟨j, hj⟩
  by_cases hji : j = i
  · rw [hji, Function.update_self] at hj
    cases hj
  · rw [Function.update_of_ne hji] at hj
    exact ⟨j, hj⟩

theorem valuesOf_update_some_subset (g : ι → Option α) (i : ι) (x : α) :
    valuesOf (Function.update g i (some x)) ⊆ insert x (valuesOf g) := by
  rintro y ⟨j, hj⟩
  by_cases hji : j = i
  · rw [hji, Function.update_self] at hj
    exact Or.inl (Option.some.inj hj).symm
  · rw [Function.update_of_ne hji] at hj
    exact Or.inr ⟨j, hj⟩

theorem Distinct.update_none (h : Distinct g) (i : ι) : Distinct (Function.update g i none) := by
  apply h.of_le
  intro j y hj
  by_cases hji : j = i
  · rw [hji, Function.update_self] at hj
    cases hj
  · rwa [Function.update_of_ne hji] at hj

theorem Distinct.update_some (h : Distinct g) (hx : ∀ j, j ≠ i → g j ≠ some x) :
    Distinct (Function.update g i (some x)) := by
  intro j l y hj hl
  by_cases hji : j = i
  · by_cases hli : l = i
    · rw [hji, hli]
    · rw [hji, Function.update_self] at hj
      rw [Function.update_of_ne hli, ← hj] at hl
      exact absurd hl (hx l hli)
  · rw [Function.update_of_ne hji] at hj
    by_cases hli : l = i
    · rw [hli, Function.update_self] at hl
      rw [← hl] at hj
      exact absurd hj (hx j hji)
    · rw [Function.update_of_ne hli] at hl
      exact h j l y hj hl

theorem SoleHolder.valuesOf_update_none (h : SoleHolder g i x) :
    valuesOf (Function.update g i none) ⊆ valuesOf g \ {x} := by
  intro y hy
  refine ⟨valuesOf_update_none_subset g i hy, ?_⟩
  rintro rfl
  obtain ⟨j, hj⟩ := hy
  by_cases hji : j = i
  · rw [hji, Function.update_self] at hj
    cases hj
  · rw [Function.update_of_ne hji] at hj
    exact h j hji hj

end Holders

/-- Every holder has a page of its own, if any, and a directory, which it may share. -/
structure Housed {ι : Type} (vm : Vm) (root page : ι → Option Addr)
    (tree : Addr → PageTree (kPageTableLevels - 1)) : Prop extends
    Holdings vm (valuesOf root) (valuesOf page) tree where
  pages : Distinct page

namespace Housed

variable {ι : Type} {vm vm' : Vm} {root page : ι → Option Addr}
  {tree : Addr → PageTree (kPageTableLevels - 1)} {i : ι} {r x : Addr}

theorem keep (h : Housed vm root page tree) (hg : Grows ∅ vm vm') : Housed vm' root page tree :=
  { h.toHoldings.keep hg with pages := h.pages }

theorem evolve (h : Housed vm root page tree) {T' : PageTree (kPageTableLevels - 1)} (hr : root i = some r)
    (he : Evolves vm vm' (kPageTableLevels - 1) r (tree r) T') :
    Housed vm' root page (Function.update tree r T') :=
  { h.toHoldings.evolve ⟨i, hr⟩ he with pages := h.pages }

theorem evolve_outside (h : Housed vm root page tree) {T T' : PageTree (kPageTableLevels - 1)}
    (hT : Owns vm (kPageTableLevels - 1) r T)
    (hroots : ∀ x ∈ foot x86 (kPageTableLevels - 1) r T, ∀ q ∈ valuesOf root,
      x ∉ foot x86 (kPageTableLevels - 1) q (tree q))
    (hpages : ∀ x ∈ foot x86 (kPageTableLevels - 1) r T, x ∉ valuesOf page)
    (he : Evolves vm vm' (kPageTableLevels - 1) r T T') : ∃ tree', Housed vm' root page tree' := by
  have hall := h.toHoldings.insertRoot hT hroots hpages
  have hself : Function.update tree r T r = T := Function.update_self r T tree
  have hT' := hall.evolve (Set.mem_insert r _) (hself.symm ▸ he)
  exact ⟨_, { hT'.mono (Set.subset_insert r _) subset_rfl with pages := h.pages }⟩

variable [DecidableEq ι]

theorem insertRoot (h : Housed vm root page tree) {S : PageTree (kPageTableLevels - 1)}
    (hS : Owns vm (kPageTableLevels - 1) r S)
    (hroots : ∀ x ∈ foot x86 (kPageTableLevels - 1) r S, ∀ q ∈ valuesOf root,
      x ∉ foot x86 (kPageTableLevels - 1) q (tree q))
    (hpages : ∀ x ∈ foot x86 (kPageTableLevels - 1) r S, x ∉ valuesOf page) (i : ι) :
    Housed vm (Function.update root i (some r)) page (Function.update tree r S) := by
  exact { (h.toHoldings.insertRoot hS hroots hpages).mono (valuesOf_update_some_subset root i r)
      subset_rfl with pages := h.pages }

theorem share {j : ι} (h : Housed vm root page tree) (hj : root j = some r) (i : ι) :
    Housed vm (Function.update root i (some r)) page tree := by
  have hsub : valuesOf (Function.update root i (some r)) ⊆ valuesOf root := by
    intro x hx
    obtain rfl | hx := valuesOf_update_some_subset root i r hx
    · exact ⟨j, hj⟩
    · exact hx
  exact { h.toHoldings.mono hsub subset_rfl with pages := h.pages }

theorem insertPage (h : Housed vm root page tree) (hx : x ∈ vm.live) (hnew : x ∉ valuesOf page)
    (hout : ∀ q ∈ valuesOf root, x ∉ foot x86 (kPageTableLevels - 1) q (tree q)) (i : ι) :
    Housed vm root (Function.update page i (some x)) tree :=
  { (h.toHoldings.insertPage hx hout).mono subset_rfl (valuesOf_update_some_subset page i x) with
    pages := h.pages.update_some fun j _ hj => hnew ⟨j, hj⟩ }

theorem removePage (h : Housed vm root page tree) (hx : page i = some x) :
    Housed (vm.alignedFree x false) root (Function.update page i none) tree := by
  have hpages := (h.pages.soleHolder hx).valuesOf_update_none
  have hless := h.toHoldings.mono subset_rfl (valuesOf_update_none_subset page i)
  exact { hless.alignedFree (fun hmem => (hpages hmem).2 rfl) (h.outside x ⟨i, hx⟩) with
    pages := h.pages.update_none i }

theorem removeRoot (h : Housed vm root page tree) (hr : root i = some r) (hsole : SoleHolder root i r)
    (freePages : Bool)
    (hroots : ∀ x ∈ freedFrames freePages (kPageTableLevels - 1) (tree r), ∀ q ∈ valuesOf root, q ≠ r →
      x ∉ foot x86 (kPageTableLevels - 1) q (tree q))
    (hpages : ∀ x ∈ freedFrames freePages (kPageTableLevels - 1) (tree r), x ∉ valuesOf page) :
    Housed (destroyPageDirectory r freePages vm) (Function.update root i none) page tree :=
  { (h.toHoldings.destroy ⟨i, hr⟩ freePages hroots hpages).mono hsole.valuesOf_update_none
      subset_rfl with pages := h.pages }

end Housed

end NaiLongKernel.Memory
