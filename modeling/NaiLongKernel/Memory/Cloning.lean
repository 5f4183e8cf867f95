import NaiLongKernel.Memory.Mapping

/-!
# Cloned page directories

`ClonePageDirectory` builds a second tree out of pages that were not live. With
`copy_mappings` it has the leaf entries of the first, otherwise none, and no table
is shared, so that later calls on one directory do not reach the other. Without enough
pages the tables made so far are freed, except those below an inner table that is given
up.
-/
namespace NaiLongKernel.Memory

open Foundation Foundation.Radix

theorem wp_onUnexpected {α : Type} {cleanup : Vm → Vm} {x : VmM α} {Q : α → Vm → Prop}
    {E : VmStop → Vm → Prop} {vm : Vm} :
    wp (onUnexpected cleanup x) Q E vm ↔
      wp x Q (fun e vm' => match e with
        | .unexpected code => E (.unexpected code) (cleanup vm')
        | .assertFailed message => E (.assertFailed message) vm') vm := by
  simp only [wp, onUnexpected]
  cases x vm with
  | ok a vm' => rfl
  | error e vm' => cases e <;> rfl

variable (A : Allocator) {vm vm' : Vm} {n : ℕ} {src dst : Addr} (copyMappings : Bool)

/-- The leaf entries that the clone gets. -/
def ClonedView (T S : PageTree n) : Prop :=
  ∀ ix, (∀ k, ix k < x86.arity) →
    view x86 n S ix = if copyMappings then view x86 n T ix else none

/-- The leaf level: the first `k` entries have been copied. -/
def clonedRow (T : PageTree 0) (k : ℕ) : PageTree 0 :=
  .ofRow fun i => if i < k ∧ isPageTableEntryValid (T.row i) = true ∧ copyMappings = true
    then T.row i else 0

theorem clonedRow_row (T : PageTree 0) (k i : ℕ) : (clonedRow copyMappings T k).row i =
    if i < k ∧ isPageTableEntryValid (T.row i) = true ∧ copyMappings = true then T.row i else 0 :=
  rfl

theorem clonedRow_succ (T : PageTree 0) {k : ℕ}
    (hc : isPageTableEntryValid (T.row k) = true ∧ copyMappings = true) :
    setLeaf 0 (clonedRow copyMappings T k) (fun _ => k) (T.row k) =
      clonedRow copyMappings T (k+1) := by
  apply Tree.ext_row
  funext i
  rw [setLeaf, Tree.row_ofRow, clonedRow_row]
  by_cases hik : i = k
  · subst hik
    rw [Function.update_self, if_pos ⟨Nat.lt_succ_self i, hc⟩]
  · have hlt : i < k + 1 ↔ i < k := by omega
    rw [Function.update_of_ne hik, clonedRow_row]
    simp only [hlt]

theorem clonedRow_skip (T : PageTree 0) {k : ℕ}
    (hc : ¬(isPageTableEntryValid (T.row k) = true ∧ copyMappings = true)) :
    clonedRow copyMappings T (k+1) = clonedRow copyMappings T k := by
  apply Tree.ext_row
  funext i
  rw [clonedRow_row, clonedRow_row]
  by_cases hik : i = k
  · subst hik
    rw [if_neg (fun h => hc h.2), if_neg (fun h => hc h.2)]
  · have hlt : i < k + 1 ↔ i < k := by omega
    simp only [hlt]

theorem wp_cloneLeaf {T : PageTree 0} (hT : Owns vm 0 src T)
    (hdst : Owns vm 0 dst (blankTree x86 0)) (hne : dst ≠ src) :
    wp ((List.range kEntriesPerTable).forM (cloneLeafEntry copyMappings src dst))
      (fun _ vm' => Evolves vm vm' 0 dst (blankTree x86 0)
          (clonedRow copyMappings T kEntriesPerTable) ∧
        vm'.live = vm.live ∧ vm'.freed = vm.freed ∧ vm'.calls = vm.calls) (fun _ _ => False) vm := by
  refine wp_forM_range (n := kEntriesPerTable)
    (I := fun k v => Evolves vm v 0 dst (blankTree x86 0) (clonedRow copyMappings T k) ∧
      v.live = vm.live ∧ v.freed = vm.freed ∧ v.calls = vm.calls) ?_ ?_
  · have hrow : clonedRow copyMappings T 0 = blankTree x86 0 := by
      apply Tree.ext_row
      funext i
      rw [clonedRow_row, if_neg (by omega)]
      rfl
    rw [hrow]
    exact ⟨Evolves.refl hdst, rfl, rfl, rfl⟩
  · rintro k hk v ⟨hv, hsame⟩
    have hsrc : v.mem src k = T.row k := by
      rw [hv.grows.mem src (hT.live src rfl) (Ne.symm hne)]
      exact hT.rep k hk
    simp only [cloneLeafEntry, wp_bind, wp_get, wp_ite, wp_modify, wp_pure, hsrc]
    by_cases hc : isPageTableEntryValid (T.row k) = true ∧ copyMappings = true
    · rw [if_pos hc]
      have hstep := Evolves.writeLeaf (fun _ => k) hv.owns (fun _ => hk) rfl (T.row k)
      have hrow : setLeaf 0 (clonedRow copyMappings T k) (fun _ => k) (T.row k) =
          clonedRow copyMappings T (k+1) := clonedRow_succ copyMappings T hc
      rw [hrow] at hstep
      exact ⟨hv.trans hstep, hsame⟩
    · rw [if_neg hc, clonedRow_skip copyMappings T hc]
      exact ⟨hv, hsame⟩

theorem clonedView_row (T : PageTree 0) :
    ClonedView copyMappings T (clonedRow copyMappings T kEntriesPerTable) := by
  intro ix hix
  have hlt : ix 0 < kEntriesPerTable := hix 0
  simp only [view, entry, isSome_decode, clonedRow_row, hlt, true_and]
  cases copyMappings with
  | false =>
    simp only [Bool.false_eq_true, and_false, if_false]
    rfl
  | true =>
    by_cases hv : isPageTableEntryValid (T.row (ix 0)) = true
    · simp only [hv, and_true, if_true]
    · simp only [Bool.not_eq_true] at hv
      simp [hv, Option.filter_some]
      decide

/-- The first `k` entries of an inner table have been cloned. -/
def ClonedUpTo (vm v : Vm) (dst : Addr) (T : PageTree (n+1)) (k : ℕ) : Prop :=
  ∃ S, Evolves vm v (n+1) dst (blankTree x86 (n+1)) S ∧
    ∀ ix, (∀ j, ix j < x86.arity) →
      view x86 (n+1) S ix = if ix (n+1) < k ∧ copyMappings = true then view x86 (n+1) T ix else none

variable {copyMappings}

theorem ClonedUpTo.skip {v : Vm} {T : PageTree (n+1)} {k : ℕ}
    (h : ClonedUpTo copyMappings vm v dst T k) (hc : T.child k = none) :
    ClonedUpTo copyMappings vm v dst T (k+1) := by
  rcases h with ⟨S, hS, hview⟩
  refine ⟨S, hS, ?_⟩
  intro ix hix
  rw [hview ix hix]
  by_cases hk : ix (n+1) = k
  · have hnone : view x86 (n+1) T ix = none := by
      simp [view, entry, hk, hc]
    rw [hnone, ite_self, ite_self]
  · have hlt : ix (n+1) < k + 1 ↔ ix (n+1) < k := by omega
    simp only [hlt]

theorem ClonedUpTo.attach {v v' : Vm} {T : PageTree (n+1)} {k : ℕ} (hk : k < x86.arity)
    (h : ClonedUpTo copyMappings vm v dst T k) {c : Addr × PageTree n} (hc : T.child k = some c)
    (hg : Grows ∅ v v') {b : Addr} {S' : PageTree n} (hS' : Owns v' n b S') (hpage : IsPage b)
    (hfresh : ∀ x ∈ foot x86 n b S', x ∉ v.live) (hview' : ClonedView copyMappings c.2 S') :
    ClonedUpTo copyMappings vm
      (v'.writeEntry dst k (physicalToPageTableEntry b getTableEntryPermissions)) dst T (k+1) := by
  rcases h with ⟨S, hS, hview⟩
  refine ⟨_, hS.trans (Evolves.attach hS.owns hk hg hS' hpage hfresh), ?_⟩
  intro ix hix
  rw [view_setChild]
  by_cases htop : ix (n+1) = k
  · have hT : view x86 (n+1) T ix = view x86 n c.2 ix := by
      unfold view
      simp [entry, htop, hc]
    rw [if_pos htop, hview' ix hix, hT]
    simp [htop]
  · have hlt : ix (n+1) < k + 1 ↔ ix (n+1) < k := by omega
    rw [if_neg htop, hview ix hix]
    simp only [hlt]

/-- The tables of the directory without its root. -/
def below (vm : Vm) (n : ℕ) (a : Addr) : Set Addr := {x | x ∈ tables x86 vm.mem n a ∧ x ≠ a}

theorem Owns.below_eq {a : Addr} {T : PageTree n} (h : Owns vm n a T) :
    below vm n a = {x | x ∈ foot x86 n a T ∧ x ≠ a} := by
  rw [below, h.rep.foot_eq_tables]

theorem Owns.root_below {a : Addr} {T : PageTree n} (h : Owns vm n a T) :
    {a} ∪ below vm n a = foot x86 n a T := by
  rw [h.below_eq]
  ext x
  have hroot : x = a → x ∈ foot x86 n a T := fun he => he ▸ mem_foot_root T
  simp only [Set.mem_union, Set.mem_singleton_iff, Set.mem_ofPred_eq]
  tauto

theorem Owns.below_blank {a : Addr} (h : Owns vm n a (blankTree x86 n)) : below vm n a = ∅ := by
  rw [h.below_eq, foot_blankTree]
  ext x
  simp

/-- The pages obtained for the first `k` entries of an inner table are the tables below it. -/
structure Tallied (vm v : Vm) (dst : Addr) (T : PageTree (n+1)) (k : ℕ) : Prop where
  rest : ∀ i, k ≤ i → i < x86.arity → x86.decode (v.mem dst i) = none
  kept : Obtained (below v (n+1) dst) vm v
  budget : ∀ m, A.failsAfter m vm.calls vm.live = true →
    tablesBefore T k ≤ m ∧ A.failsAfter (m - tablesBefore T k) v.calls v.live = true
  bare : below v (n+1) dst = ∅ ↔ ∀ i < k, T.child i = none

/-- What is obtained when the clone of the tree is complete. -/
structure Complete (vm vm' : Vm) (dst : Addr) (T : PageTree n) : Prop where
  kept : Obtained (below vm' n dst) vm vm'
  budget : ∀ m, A.failsAfter m vm.calls vm.live = true →
    tableCount n T ≤ m ∧ A.failsAfter (m - tableCount n T) vm'.calls vm'.live = true

/-- A page outside `X` has been obtained and not been freed. -/
def Leaks (X : Set Addr) (vm vm' : Vm) : Prop := ∃ x ∈ vm'.live, x ∉ vm.live ∧ x ∉ X

/-- What is left when the clone of the tree runs out of pages. -/
def Stopped (vm vm' : Vm) (dst : Addr) (T : PageTree n) : Prop :=
  ∀ m, A.failsAfter m vm.calls vm.live = true → m < tableCount n T ∧
    (StopsClean n T m → Obtained (below vm' n dst) vm vm') ∧
    (¬ StopsClean n T m → Leaks (below vm' n dst) vm vm') ∧
    (StopsBare n T m → below vm' n dst = ∅) ∧ (¬ StopsBare n T m → Leaks ∅ vm vm')

namespace Tallied

variable {A} {v v₁ v₂ : Vm} {T : PageTree (n+1)} {k : ℕ}

theorem start (hdst : Owns vm (n+1) dst (blankTree x86 (n+1))) : Tallied A vm vm dst T 0 := by
  refine ⟨?_, ?_, ?_, by simp [hdst.below_blank]⟩
  · intro i _ hi
    exact hdst.rep.no_child hi rfl
  · rw [hdst.below_blank]
    exact Obtained.refl vm
  · intro m hm
    exact ⟨Nat.zero_le m, hm⟩

theorem skip (h : Tallied A vm v dst T k) (hc : T.child k = none) : Tallied A vm v dst T (k+1) := by
  refine ⟨fun i hi => h.rest i (by omega), h.kept, ?_, h.bare.trans ⟨?_, ?_⟩⟩
  · rw [tablesBefore_none hc]
    exact h.budget
  · intro hnone i hi
    obtain hlt | rfl := Nat.lt_succ_iff_lt_or_eq.mp hi
    · exact hnone i hlt
    · exact hc
  · exact fun hnone i hi => hnone i (by omega)

theorem attach (h : Tallied A vm v dst T k) (hk : k < x86.arity) {c : Addr × PageTree n}
    (hc : T.child k = some c) {S : PageTree (n+1)} (hS : Owns v (n+1) dst S) (hg : Grows ∅ v v₂)
    {b : Addr} {S' : PageTree n} (hS' : Owns v₂ n b S') (hpage : IsPage b)
    (hfresh : ∀ x ∈ foot x86 n b S', x ∉ v.live) (hb : Obtained {b} v v₁)
    (hm : ∀ m, A.failsAfter m v.calls v.live = true →
      0 < m ∧ A.failsAfter (m - 1) v₁.calls v₁.live = true)
    (hsub : Complete A v₁ v₂ b c.2) :
    Tallied A vm (v₂.writeEntry dst k (physicalToPageTableEntry b getTableEntryPermissions)) dst T
      (k+1) := by
  have hlive : dst ∈ v.live := hS.live dst (mem_foot_root S)
  have hnew := Evolves.attach hS hk hg hS' hpage hfresh
  have hnone : S.child k = none := hS.rep.none_of_decode hk (h.rest k le_rfl hk)
  have hbelow : below (v₂.writeEntry dst k (physicalToPageTableEntry b getTableEntryPermissions))
      (n+1) dst = below v (n+1) dst ∪ ({b} ∪ below v₂ n b) := by
    rw [hS'.root_below, hnew.owns.below_eq, hS.below_eq, foot_setChild_of_none hk hnone]
    ext x
    have hx : x ∈ foot x86 n b S' → x ≠ dst := fun hx he => hfresh x hx (he ▸ hlive)
    simp only [Set.mem_ofPred_eq, Set.mem_union]
    tauto
  refine ⟨?_, ?_, ?_, ?_⟩
  · intro i hi hlt
    refine (congrArg x86.decode (write_row _ _ _ (by omega : i ≠ k))).trans ?_
    rw [hg.mem dst hlive (Set.notMem_empty dst)]
    exact h.rest i (by omega) hlt
  · rw [hbelow]
    have hall := h.kept.trans (hb.trans hsub.kept)
    exact ⟨hall.live, hall.fresh, hall.freed⟩
  · intro m hfail
    obtain ⟨hle, hv⟩ := h.budget m hfail
    obtain ⟨hpos, hv₁⟩ := hm _ hv
    obtain ⟨hcount, hv₂⟩ := hsub.budget _ hv₁
    rw [tablesBefore_some hc]
    have hleft : m - (tablesBefore T k + (tableCount n c.2 + 1)) =
        m - tablesBefore T k - 1 - tableCount n c.2 := by omega
    rw [hleft]
    exact ⟨by omega, hv₂⟩
  · rw [hbelow]
    constructor
    · intro hempty
      have hb : b ∈ (∅ : Set Addr) := hempty ▸ Or.inr (Or.inl rfl)
      exact hb.elim
    · intro hno
      rw [hno k (Nat.lt_succ_self k)] at hc
      cases hc

theorem below_keep {S : PageTree (n+1)} (hS : Owns v (n+1) dst S) (hS' : Owns v₁ (n+1) dst S) :
    below v₁ (n+1) dst = below v (n+1) dst := by
  rw [hS.below_eq, hS'.below_eq]

theorem live (h : Tallied A vm v dst T k) {x : Addr} (hx : x ∈ vm.live) : x ∈ v.live :=
  (h.kept.live x).mpr (Or.inl hx)

/-- What the entry `k` leaves behind is left behind by the table. -/
theorem leaks (h : Tallied A vm v dst T k) (hl : Leaks ∅ v v₁) : Leaks (below v (n+1) dst) vm v₁ := by
  obtain ⟨x, hx, hnew, -⟩ := hl
  refine ⟨x, hx, fun hold => hnew (h.live hold), ?_⟩
  exact fun hmem => hnew ((h.kept.live x).mpr (Or.inr hmem))

theorem stopped (h : Tallied A vm v dst T k) (hk : k < x86.arity) {c : Addr × PageTree n}
    (hc : T.child k = some c) {S : PageTree (n+1)} (hS : Owns v (n+1) dst S)
    (hS' : Owns v₁ (n+1) dst S)
    (hm : ∀ m, A.failsAfter m v.calls v.live = true → m ≤ tableCount n c.2 ∧
      ((0 < m → StopsBare n c.2 (m - 1)) → Obtained ∅ v v₁) ∧
      (¬ (0 < m → StopsBare n c.2 (m - 1)) → Leaks ∅ v v₁)) :
    Stopped A vm v₁ dst T := by
  intro m hfail
  obtain ⟨hle, hv⟩ := h.budget m hfail
  obtain ⟨hcount, hback, hleft⟩ := hm _ hv
  have hmono := tablesBefore_mono T (Nat.succ_le_of_lt hk)
  rw [Nat.succ_eq_add_one, tablesBefore_some hc] at hmono
  have hbelow := below_keep hS hS'
  rw [Nat.sub_pos_iff_lt] at hback hleft
  rw [stopsClean_iff hk hc hle (by omega), stopsBare_iff hk hc hle (by omega), hbelow]
  refine ⟨?_, ?_, fun hne => h.leaks (hleft hne), fun hbare => h.bare.mpr hbare.1, ?_⟩
  · rw [tableCount_succ]
    change _ < tablesBefore T x86.arity
    omega
  · intro hclean
    have hall := h.kept.trans (hback hclean)
    rwa [Set.union_empty] at hall
  · intro hnot
    by_cases hnone : ∀ i < k, T.child i = none
    · obtain ⟨x, hx, hnew, -⟩ := h.leaks (hleft fun hsub => hnot ⟨hnone, hsub⟩)
      exact ⟨x, hx, hnew, Set.notMem_empty x⟩
    · -- a table for an entry before `k` is linked below the clone
      obtain ⟨x, hx⟩ := Set.nonempty_iff_ne_empty.mpr (mt h.bare.mp hnone)
      refine ⟨x, ?_, h.kept.fresh x hx, Set.notMem_empty x⟩
      rw [← hbelow, hS'.below_eq] at hx
      exact hS'.live x hx.1

end Tallied

variable (copyMappings)

theorem wp_recursiveClone {T : PageTree n} (hT : Owns vm n src T)
    (hdst : Owns vm n dst (blankTree x86 n)) (hne : dst ∉ foot x86 n src T) :
    wp (recursiveClonePageTable A copyMappings n src dst)
      (fun _ vm' => (∃ S, Evolves vm vm' n dst (blankTree x86 n) S ∧ ClonedView copyMappings T S) ∧
        Complete A vm vm' dst T)
      (fun e vm' => e = .unexpected .kVmAllocationFailed ∧
        (∃ S, Evolves vm vm' n dst (blankTree x86 n) S) ∧ Stopped A vm vm' dst T) vm := by
  induction n generalizing src dst vm with
  | zero =>
    simp only [recursiveClonePageTable, wp_bind, wp_assertTable hT.root_nonnull,
      wp_assertTable hdst.root_nonnull]
    refine wp_mono (wp_cloneLeaf copyMappings hT hdst hne) ?_ (fun _ _ he => he.elim)
    rintro _ vm' ⟨hS, hlive, hfreed, hcalls⟩
    have hnone : below vm' 0 dst = ∅ := by
      rw [hS.owns.below_eq]
      ext x
      simp [foot]
    refine ⟨⟨_, hS, clonedView_row copyMappings T⟩, ?_, ?_⟩
    · rw [hnone]
      exact Obtained.of_eq hlive hfreed
    · intro m hm
      rw [hlive, hcalls]
      exact ⟨Nat.zero_le m, hm⟩
  | succ n ih =>
    simp only [recursiveClonePageTable, wp_bind, wp_assertTable hT.root_nonnull,
      wp_assertTable hdst.root_nonnull]
    refine (wp_forM_range (n := kEntriesPerTable)
      (I := fun k v => ClonedUpTo copyMappings vm v dst T k ∧ Tallied A vm v dst T k) ?_ ?_).imp ?_
    · refine ⟨⟨_, Evolves.refl hdst, ?_⟩, Tallied.start hdst⟩
      intro ix _
      rw [view_blankTree, if_neg (by omega)]
    · rintro k hk v ⟨⟨S, hS, hview⟩, htally⟩
      have hapart : Disjoint (foot x86 (n+1) src T) (foot x86 (n+1) dst (blankTree x86 (n+1))) := by
        rw [foot_blankTree, Set.disjoint_singleton_right]
        exact hne
      have hTv : Owns v (n+1) src T := hT.frame hS.grows hapart
      simp only [cloneTableEntry, wp_bind, wp_get, wp_ite, wp_pure, wp_modify]
      by_cases hvalid : isPageTableEntryValid (v.mem src k) = true
      · rw [if_pos hvalid]
        rcases hTv.rep.child_of_decode hk (decode_of_valid hvalid) with ⟨Tc, hc, _⟩
        refine wp_mono (wp_and (wp_allocTable A v n) (wp_allocTable_failsAfter A v)) ?_ ?_
        · rintro b v₁ ⟨⟨hg, hb, hpage, hfresh⟩, hacc, hbudget⟩
          have hTc : Owns v n (pageTableEntryToPhysical (v.mem src k)) Tc := hTv.child hk hc
          have hbTc : b ∉ foot x86 n (pageTableEntryToPhysical (v.mem src k)) Tc :=
            fun hx => hfresh (hTc.live b hx)
          have hnew : ∀ x ∈ foot x86 n b (blankTree x86 n), x ∈ (∅ : Set Addr) ∨ x ∉ v.live := by
            intro x hx
            rw [foot_blankTree] at hx
            exact Or.inr (hx ▸ hfresh)
          rw [wp_onUnexpected]
          refine wp_mono (ih (hTc.frame hg (Set.disjoint_empty _)) hb hbTc) ?_ ?_
          · rintro _ v₂ ⟨⟨S', hS', hview'⟩, hdone⟩
            have hg₂ : Grows ∅ v v₂ := hg.trans hS'.grows hnew
            have hfoot : ∀ x ∈ foot x86 n b S', x ∉ v.live := by
              intro x hx
              rcases hS'.foot x hx with hx | hx
              · exact (hnew x hx).resolve_left (Set.notMem_empty x)
              · exact fun hl => hx (hg.live x hl)
            exact ⟨ClonedUpTo.attach hk ⟨S, hS, hview⟩ hc hg₂ hS'.owns hpage hfoot hview',
              htally.attach hk hc hS.owns hg₂ hS'.owns hpage hfoot hacc hbudget hdone⟩
          · rintro e v₂ ⟨rfl, ⟨S', hS'⟩, hstop⟩
            have hg₂ : Grows ∅ v v₂ := hg.trans hS'.grows hnew
            have hkeep := Evolves.keep hS.owns (hg₂.alignedFree hfresh)
            refine ⟨rfl, ⟨S, hS.trans hkeep⟩, htally.stopped hk hc hS.owns hkeep.owns ?_⟩
            intro m hm
            obtain ⟨hpos, hm₁⟩ := hbudget m hm
            obtain ⟨hlt, hkept, -, hnone, hleft⟩ := hstop _ hm₁
            have hle : m ≤ tableCount n Tc := by omega
            refine ⟨hle, fun hbare => ?_, fun hnot => ?_⟩
            · have hsub := hkept (hbare hpos).clean
              rw [hnone (hbare hpos)] at hsub
              -- the table of the entry is all there is to free
              have hall := hacc.trans hsub
              rw [Set.union_empty, ← Set.empty_union {b}] at hall
              exact hall.released (Set.empty_disjoint _)
                ((Released.freeTable v₂ b).under fun _ => hS'.owns.live b (mem_foot_root S'))
            · obtain ⟨x, hx, hnew, -⟩ := hleft fun hbare => hnot fun _ => hbare
              have hxb : x ≠ b := fun he => hnew (he ▸ hb.live b (mem_foot_root _))
              exact ⟨x, ((Released.freeTable v₂ b).live x).mpr ⟨hx, hxb, Set.notMem_empty x⟩,
                fun hl => hnew (hg.live x hl), Set.notMem_empty x⟩
        · rintro e v₁ ⟨⟨he, hg⟩, hacc, hbudget⟩
          have hkeep := Evolves.keep hS.owns hg
          refine ⟨he, ⟨S, hS.trans hkeep⟩, htally.stopped hk hc hS.owns hkeep.owns ?_⟩
          intro m hm
          rw [hbudget m hm]
          exact ⟨Nat.zero_le _, fun _ => hacc, fun hnot => absurd (fun hlt => absurd hlt (lt_irrefl 0)) hnot⟩
      · rw [if_neg hvalid]
        have hnone := hTv.rep.none_of_decode hk (decode_of_not_valid hvalid)
        exact ⟨ClonedUpTo.skip ⟨S, hS, hview⟩ hnone, htally.skip hnone⟩
    · rintro _ vm' ⟨⟨S, hS, hview⟩, htally⟩
      refine ⟨⟨S, hS, ?_⟩, htally.kept, htally.budget⟩
      intro ix hix
      have hlt : ix (n+1) < kEntriesPerTable := hix (n+1)
      rw [hview ix hix]
      simp only [hlt, true_and]

/-- A clone is a directory of its own out of pages that were not live; a failed one
frees and destroys only such pages, and when it stops clean it frees all it obtained. -/
theorem wp_clonePageDirectory {T : PageTree (kPageTableLevels - 1)}
    (hT : Owns vm (kPageTableLevels - 1) src T) :
    wp (clonePageDirectory A src copyMappings)
      (fun dst vm' => Grows ∅ vm vm' ∧ (∃ S, Owns vm' (kPageTableLevels - 1) dst S ∧
          (∀ x ∈ foot x86 (kPageTableLevels - 1) dst S, x ∉ vm.live) ∧ ClonedView copyMappings T S) ∧
        ∀ m, A.failsAfter m vm.calls vm.live = true → tableCount (kPageTableLevels - 1) T < m ∧
          A.failsAfter (m - 1 - tableCount (kPageTableLevels - 1) T) vm'.calls vm'.live = true)
      (fun e vm' => e = .unexpected .kVmAllocationFailed ∧ Grows ∅ vm vm' ∧
        ∀ m, A.failsAfter m vm.calls vm.live = true → m ≤ tableCount (kPageTableLevels - 1) T ∧
          (StopsClean (kPageTableLevels - 1) T (m - 1) → Obtained ∅ vm vm') ∧
          (¬ StopsClean (kPageTableLevels - 1) T (m - 1) → Leaks ∅ vm vm')) vm := by
  simp only [clonePageDirectory, wp_bind, wp_assertTable hT.root_nonnull, wp_pure]
  refine wp_mono (wp_and (wp_allocTable A vm (kPageTableLevels - 1))
    (wp_allocTable_failsAfter A vm)) ?_ ?_
  · rintro dst vm₁ ⟨⟨hg, hdst, -, hfresh⟩, hacc, hbudget⟩
    have hne : dst ∉ foot x86 (kPageTableLevels - 1) src T := fun hx => hfresh (hT.live dst hx)
    have hgrow : ∀ {vm₂ S}, Evolves vm₁ vm₂ (kPageTableLevels - 1) dst
        (blankTree x86 (kPageTableLevels - 1)) S → Grows ∅ vm vm₂ ∧
        ∀ x ∈ foot x86 (kPageTableLevels - 1) dst S, x ∉ vm.live := by
      intro vm₂ S hS
      have hblank := foot_blankTree (F := x86) (kPageTableLevels - 1) dst
      constructor
      · refine hg.trans hS.grows fun x hx => Or.inr ?_
        rw [hblank] at hx
        exact hx ▸ hfresh
      · intro x hx
        rcases hS.foot x hx with hx | hx
        · rw [hblank] at hx
          exact hx ▸ hfresh
        · exact fun hl => hx (hg.live x hl)
    rw [wp_onUnexpected]
    refine wp_mono (wp_recursiveClone A copyMappings (hT.frame hg (Set.disjoint_empty _)) hdst hne)
      ?_ ?_
    · rintro _ vm₂ ⟨⟨S, hS, hview⟩, hdone⟩
      refine ⟨(hgrow hS).1, ⟨S, hS.owns, (hgrow hS).2, hview⟩, ?_⟩
      intro m hm
      obtain ⟨hpos, hleft⟩ := hbudget m hm
      obtain ⟨hcount, hleft⟩ := hdone.budget _ hleft
      exact ⟨by omega, hleft⟩
    · rintro e vm₂ ⟨rfl, ⟨S, hS⟩, hstop⟩
      have hfree := hS.owns.released_destroy
      refine ⟨rfl, ?_, ?_⟩
      · refine (hgrow hS).1.released hfree (hgrow hS).2
          ⟨[_], destroyed_destroy false hdst.root_nonnull, ?_⟩
        intro d hd
        rw [List.mem_singleton.mp hd]
        exact ⟨decide_eq_true (hS.owns.live dst (mem_foot_root S)), mem_foot_root S⟩
      · intro m hm
        have hpos := hbudget m hm
        obtain ⟨hlt, hkept, hleft, -⟩ := hstop _ hpos.2
        -- the root and the tables below it are what `DestroyPageDirectory` frees
        refine ⟨by omega, fun hclean => ?_, fun hnot => ?_⟩
        · have hall := hacc.trans (hkept hclean)
          rw [hS.owns.root_below, ← Set.empty_union (foot x86 _ dst S)] at hall
          exact hall.released (Set.empty_disjoint _) hfree
        · obtain ⟨x, hx, hnew, hout⟩ := hleft hnot
          have hroot : x ≠ dst := fun he => hnew (he ▸ hdst.live dst (mem_foot_root _))
          have hfoot : x ∉ foot x86 (kPageTableLevels - 1) dst S := by
            rw [← hS.owns.root_below]
            exact fun hmem => hmem.elim hroot hout
          exact ⟨x, (hfree.live x).mpr ⟨hx, hfoot, Set.notMem_empty x⟩,
            fun hl => hnew (hg.live x hl), Set.notMem_empty x⟩
  · rintro e vm₁ ⟨⟨he, hg⟩, hacc, hbudget⟩
    refine ⟨he, hg, ?_⟩
    intro m hm
    rw [hbudget m hm]
    exact ⟨Nat.zero_le _, fun _ => hacc, fun hnot => absurd (stopsClean_zero T) hnot⟩

section Destroyed

variable {A} {copyMappings}

theorem keeps_onUnexpected {α γ : Type} {f : Vm → γ} {x : VmM α} (cleanup : Vm → Vm) (h : Keeps f x) :
    Keeps f (onUnexpected cleanup x) := by
  intro vm
  rw [wp_onUnexpected]
  apply wp_mono (h vm) (fun _ _ hf => hf)
  intro e vm' _
  cases e <;> trivial

theorem keeps_destroyed_allocTable (A : Allocator) : Keeps Vm.destroyed (allocTable A) := by
  intro vm
  cases ha : A.alloc vm.calls vm.live with
  | none =>
    rw [wp_of_error (allocTable_none A ha)]
    trivial
  | some b =>
    rw [wp_of_ok (allocTable_some A ha)]
    rfl

theorem keeps_assertTable {γ : Type} {f : Vm → γ} (table : Addr) (message : String) :
    Keeps f (assertTable table message) :=
  (Keeps.throw _).ite (Keeps.pure ())

theorem keeps_destroyed_recursiveClone (level : ℕ) (src dst : Addr) :
    Keeps Vm.destroyed (recursiveClonePageTable A copyMappings level src dst) := by
  induction level generalizing src dst with
  | zero =>
    apply (keeps_assertTable _ _).bind
    intro _
    apply (keeps_assertTable _ _).bind
    intro _
    apply Keeps.forM
    intro i
    apply Keeps.get.bind
    intro vm
    apply Keeps.ite _ (Keeps.pure ())
    exact Keeps.modify fun _ => rfl
  | succ level ih =>
    apply (keeps_assertTable _ _).bind
    intro _
    apply (keeps_assertTable _ _).bind
    intro _
    apply Keeps.forM
    intro i
    apply Keeps.get.bind
    intro vm
    apply Keeps.ite _ (Keeps.pure ())
    apply (keeps_destroyed_allocTable A).bind
    intro b
    apply (keeps_onUnexpected _ (ih _ b)).bind
    intro _
    exact Keeps.modify fun _ => rfl

theorem keeps_destroyed_clonePageDirectory (src : Addr) :
    Keeps Vm.destroyed (clonePageDirectory A src copyMappings) := by
  apply (keeps_assertTable _ _).bind
  intro _
  apply (keeps_destroyed_allocTable A).bind
  intro dst
  apply (keeps_onUnexpected _ (keeps_destroyed_recursiveClone _ src dst)).bind
  intro _
  exact Keeps.pure dst

end Destroyed

/-- The leaf entry that `GetMapping` finds. -/
def foundEntry (vm : Vm) (pageDir va : Addr) : Option (BitVec 64) :=
  match getEntry A pageDir va vm with
  | .ok pte _ => some pte
  | .error _ _ => none

theorem foundEntry_eq {pageDir : Addr} (h : pageDir ≠ 0) (vm : Vm) (va : Addr) :
    foundEntry A vm pageDir va = translate vm pageDir va := by
  rw [foundEntry, getEntry_eq A h]
  cases translate vm pageDir va <;> rfl

/-- Two directories without a common table. -/
def Apart (vm : Vm) (a b : Addr) : Prop :=
  ∃ T S, Owns vm (kPageTableLevels - 1) a T ∧ Owns vm (kPageTableLevels - 1) b S ∧
    Disjoint (foot x86 (kPageTableLevels - 1) a T) (foot x86 (kPageTableLevels - 1) b S)

theorem Apart.symm {a b : Addr} (h : Apart vm a b) : Apart vm b a := by
  rcases h with ⟨T, S, hT, hS, hd⟩
  exact ⟨S, T, hS, hT, hd.symm⟩

theorem Apart.evolves {a b : Addr} (h : Apart vm a b)
    (he : ∀ T, Owns vm (kPageTableLevels - 1) a T → ∃ T', Evolves vm vm' (kPageTableLevels - 1) a T T') :
    Apart vm' a b ∧ ∀ va, translate vm' b va = translate vm b va := by
  rcases h with ⟨T, S, hT, hS, hd⟩
  rcases he T hT with ⟨T', hT'⟩
  have hS' := hS.frame hT'.grows hd.symm
  refine ⟨⟨T', S, hT'.owns, hS', ?_⟩, ?_⟩
  · rw [Set.disjoint_left]
    intro x hx hxS
    rcases hT'.foot x hx with hx | hx
    · exact Set.disjoint_left.mp hd hx hxS
    · exact hx (hS.live x hxS)
  · intro va
    rw [hS'.translate_eq, hS.translate_eq]

/-- Calls on two directories, the second one when the flag is set. -/
def runBoth (a b : Addr) (calls : List (Bool × VmCall)) (vm : Vm) : Vm :=
  calls.foldl (fun vm c => (c.2.step A (if c.1 then b else a) vm).2) vm

theorem Apart.runBoth {a b : Addr} (h : Apart vm a b) (calls : List (Bool × VmCall)) :
    Apart (Memory.runBoth A a b calls vm) a b := by
  induction calls generalizing vm with
  | nil => exact h
  | cons c calls ih =>
    apply ih
    have hstep : ∀ {root T}, Owns vm (kPageTableLevels - 1) root T →
        ∃ T', Evolves vm (c.2.step A root vm).2 (kPageTableLevels - 1) root T T' := by
      intro root T hT
      rcases VmCall.step_extends A hT c.2 with ⟨T', hT'⟩
      exact ⟨T', hT'.toEvolves⟩
    dsimp only
    by_cases hside : c.1 = true
    · rw [if_pos hside]
      exact (h.symm.evolves fun T hT => hstep hT).1.symm
    · rw [if_neg hside]
      exact (h.evolves fun T hT => hstep hT).1

theorem Apart.foundEntry_runCalls {a b : Addr} (h : Apart vm a b) (calls : List VmCall)
    (va : Addr) : foundEntry A (runCalls A a calls vm).2 b va = foundEntry A vm b va := by
  have hb : b ≠ 0 := by
    rcases h with ⟨_, _, _, hS, _⟩
    exact hS.root_nonnull
  rw [foundEntry_eq A hb, foundEntry_eq A hb]
  refine (h.evolves fun T hT => ?_).2 va
  rcases runCalls_extends A hT calls with ⟨T', hT'⟩
  exact ⟨T', hT'.toEvolves⟩

/-- The clone of a directory built from a zeroed root has the same entries, or none
without `copy_mappings`. The source is unchanged, no table is shared, and whatever
is called on either of the two later, calls on one leave the entries of the other. -/
theorem clonePageDirectory_equal_independent (hsrc : src ≠ 0) (hlive : src ∈ vm.live)
    (hzero : ∀ i < kEntriesPerTable, vm.mem src i = 0) (calls : List VmCall)
    (hclone : clonePageDirectory A src copyMappings (runCalls A src calls vm).2 = .ok dst vm') :
    (∀ va, IsCanonical va → foundEntry A vm' dst va =
      if copyMappings then foundEntry A (runCalls A src calls vm).2 src va else none) ∧
    (∀ va, IsCanonical va →
      foundEntry A vm' src va = foundEntry A (runCalls A src calls vm).2 src va) ∧
    Disjoint (tablePages vm' src) (tablePages vm' dst) ∧
    ∀ both later va, IsCanonical va →
      foundEntry A (runCalls A src later (runBoth A src dst both vm')).2 dst va =
        foundEntry A (runBoth A src dst both vm') dst va ∧
      foundEntry A (runCalls A dst later (runBoth A src dst both vm')).2 src va =
        foundEntry A (runBoth A src dst both vm') src va := by
  rcases runCalls_extends A (Owns.blank hzero hlive hsrc) calls with ⟨T, hT⟩
  rcases (wp_clonePageDirectory A copyMappings hT.owns).of_ok hclone with
    ⟨hg, ⟨S, hS, hfresh, hview⟩, -⟩
  have hT' := hT.owns.frame hg (Set.disjoint_empty _)
  have hdst := hS.root_nonnull
  have hdisjoint : Disjoint (foot x86 (kPageTableLevels - 1) src T)
      (foot x86 (kPageTableLevels - 1) dst S) :=
    Set.disjoint_left.mpr fun x hx hxS => hfresh x hxS (hT.owns.live x hx)
  have hapart : Apart vm' src dst := ⟨T, S, hT', hS, hdisjoint⟩
  refine ⟨?_, ?_, ?_, ?_⟩
  · intro va _
    rw [foundEntry_eq A hdst, foundEntry_eq A hsrc, hS.translate_eq, hT.owns.translate_eq]
    exact hview (indices va) (indices_lt va)
  · intro va _
    rw [foundEntry_eq A hsrc, foundEntry_eq A hsrc, hT'.translate_eq, hT.owns.translate_eq]
  · rwa [tablePages, tablePages, ← hT'.rep.foot_eq_tables, ← hS.rep.foot_eq_tables]
  · intro both later va _
    have hlast := hapart.runBoth A both
    exact ⟨hlast.foundEntry_runCalls A later va, hlast.symm.foundEntry_runCalls A later va⟩

/-- The theorem at a root with one page mapped. -/
theorem clonePageDirectory_equal_independent_example :
    ∃ dst vm', clonePageDirectory pageSequence 0x1000 true
      (runCalls pageSequence 0x1000 [.mapPage 0x400000 0x9000 7] zeroedRoot).2 = .ok dst vm' ∧
      foundEntry pageSequence vm' dst 0x400000 = foundEntry pageSequence
        (runCalls pageSequence 0x1000 [.mapPage 0x400000 0x9000 7] zeroedRoot).2 0x1000 0x400000 := by
  have hok : returned (clonePageDirectory pageSequence 0x1000 true
      (runCalls pageSequence 0x1000 [.mapPage 0x400000 0x9000 7] zeroedRoot).2) = true := by
    decide +kernel
  rcases exists_of_returned hok with ⟨dst, vm', hclone⟩
  exact ⟨dst, vm', hclone, (clonePageDirectory_equal_independent pageSequence true (by decide)
    (by decide) (fun _ _ => rfl) _ hclone).1 _ (by decide)⟩

end NaiLongKernel.Memory
