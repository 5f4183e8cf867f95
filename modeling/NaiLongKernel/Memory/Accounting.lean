import NaiLongKernel.Memory.Freeing

/-!
# The pages an operation obtains

`Obtained X` says that the pages of `X` are what an operation has obtained and kept:
whatever else it obtained it has freed, and it has freed nothing else. To say where an
operation runs out of pages, the allocator is asked how many more calls it answers, and
the tables of a tree are counted in the order in which `RecursiveClonePageTable` makes
their copies.
-/
namespace NaiLongKernel.Memory

open Foundation Foundation.Radix

/-- The live pages are those of before and the new ones of `X`; every page freed on the way
was live at its `aligned_free` and not live before. -/
structure Obtained (X : Set Addr) (vm vm' : Vm) : Prop where
  live : ∀ x, x ∈ vm'.live ↔ x ∈ vm.live ∨ x ∈ X
  fresh : ∀ x ∈ X, x ∉ vm.live
  freed : ∃ fs, vm'.freed = fs ++ vm.freed ∧ ∀ f ∈ fs, f.wasLive = true ∧ f.page ∉ vm.live

namespace Obtained

variable {X Y C : Set Addr} {vm vm' vm'' : Vm}

theorem of_eq (hlive : vm'.live = vm.live) (hfreed : vm'.freed = vm.freed) : Obtained ∅ vm vm' := by
  refine ⟨?_, nofun, [], hfreed, nofun⟩
  intro x
  rw [hlive]
  simp

theorem refl (vm : Vm) : Obtained ∅ vm vm := of_eq rfl rfl

theorem trans (h : Obtained X vm vm') (h' : Obtained Y vm' vm'') : Obtained (X ∪ Y) vm vm'' := by
  have hkeep : ∀ x, x ∉ vm'.live → x ∉ vm.live := fun x hx hl => hx ((h.live x).mpr (Or.inl hl))
  refine ⟨?_, ?_, ?_⟩
  · intro x
    rw [h'.live, h.live, Set.mem_union, or_assoc]
  · rintro x (hx | hx)
    · exact h.fresh x hx
    · exact hkeep x (h'.fresh x hx)
  · exact grown_trans h.freed h'.freed (fun _ hf => hf) fun f hf => hf.imp_right (hkeep _)

theorem released (h : Obtained (X ∪ Y) vm vm') (hXY : Disjoint X Y) (hr : Released True C Y ∅ vm' vm'') :
    Obtained X vm vm'' := by
  refine ⟨?_, fun x hx => h.fresh x (Or.inl hx), ?_⟩
  · intro x
    rw [hr.live, h.live, Set.mem_union]
    have hX : x ∈ X → x ∉ Y := fun hx => Set.disjoint_left.mp hXY hx
    have hY : x ∈ Y → x ∉ vm.live := fun hx => h.fresh x (Or.inr hx)
    have hnone : x ∉ (∅ : Set Addr) := Set.notMem_empty x
    tauto
  · refine grown_trans h.freed hr.freed (fun _ hf => hf) ?_
    rintro f ⟨hlive, hframe, htable⟩
    cases hkind : f.frame with
    | true => exact absurd (hframe hkind) (Set.notMem_empty _)
    | false => exact ⟨hlive trivial, h.fresh _ (Or.inr (htable hkind))⟩

/-- A directory whose destruction comes last and leaves nothing of before changed was live, and
is not one of before. -/
theorem of_destroy {a : Addr} {freePages : Bool} (ha : a ≠ 0)
    (h : Obtained ∅ vm (destroyPageDirectory a freePages vm')) {gs : List FreeCall}
    (hgs : vm'.freed = gs ++ vm.freed) : a ∈ vm'.live ∧ a ∉ vm.live := by
  obtain ⟨fs, hfs, hroot⟩ := FreesOnly.destroy_root freePages ha vm'
  obtain ⟨f, hf, rfl⟩ := List.mem_map.mp hroot
  obtain ⟨hs, hfreed, hall⟩ := h.freed
  have heq : hs = fs ++ gs := by
    rw [hfs.freed, hgs, ← List.append_assoc] at hfreed
    exact (List.append_cancel_right hfreed).symm
  obtain ⟨hlive, hold⟩ := hall f (heq ▸ List.mem_append_left gs hf)
  exact ⟨hfs.wasLive f hf hlive, hold⟩

end Obtained

/-- From the call number `calls` on the allocator answers `m` calls, when nothing is freed
between them, and not the next. -/
def Allocator.failsAfter (A : Allocator) : ℕ → (calls : ℕ) → (live : List Addr) → Bool
  | 0, calls, live => (A.alloc calls live).isNone
  | m+1, calls, live =>
    match A.alloc calls live with
    | none => false
    | some a => A.failsAfter m (calls + 1) (a :: live)

/-- How many calls of `aligned_alloc` have failed, up to a constant: a call that is answered
adds a live page, one that is not adds none. -/
def Vm.shortfall (vm : Vm) : ℤ := vm.calls - vm.live.length

theorem wp_allocTable_shortfall (A : Allocator) (vm : Vm) :
    wp (allocTable A) (fun _ vm' => vm'.shortfall = vm.shortfall)
      (fun _ vm' => vm'.shortfall = vm.shortfall + 1) vm := by
  cases ha : A.alloc vm.calls vm.live with
  | none =>
    rw [wp_of_error (allocTable_none A ha)]
    simp only [Vm.shortfall]
    omega
  | some b =>
    rw [wp_of_ok (allocTable_some A ha)]
    simp only [Vm.shortfall, Vm.clearTable, List.length_cons]
    omega

theorem wp_allocTable_failsAfter (A : Allocator) (vm : Vm) :
    wp (allocTable A)
      (fun b vm' => Obtained {b} vm vm' ∧ ∀ m, A.failsAfter m vm.calls vm.live = true →
        0 < m ∧ A.failsAfter (m - 1) vm'.calls vm'.live = true)
      (fun _ vm' => Obtained ∅ vm vm' ∧ ∀ m, A.failsAfter m vm.calls vm.live = true → m = 0) vm := by
  cases ha : A.alloc vm.calls vm.live with
  | none =>
    rw [wp_of_error (allocTable_none A ha)]
    refine ⟨Obtained.of_eq rfl rfl, ?_⟩
    intro m hm
    cases m with
    | zero => rfl
    | succ m =>
      rw [Allocator.failsAfter, ha] at hm
      cases hm
  | some b =>
    have hfresh := (A.alloc_fresh _ _ _ ha).2.2
    rw [wp_of_ok (allocTable_some A ha)]
    refine ⟨⟨?_, ?_, [], rfl, nofun⟩, ?_⟩
    · intro x
      change x ∈ b :: vm.live ↔ _
      rw [List.mem_cons, Set.mem_singleton_iff, or_comm]
    · rintro x rfl
      exact hfresh
    · intro m hm
      cases m with
      | zero =>
        rw [Allocator.failsAfter, ha] at hm
        cases hm
      | succ m =>
        rw [Allocator.failsAfter, ha] at hm
        exact ⟨Nat.succ_pos m, hm⟩

section Counting

variable {n : ℕ}

def tableCount : (n : ℕ) → PageTree n → ℕ
  | 0, _ => 0
  | n+1, T => ∑ i ∈ Finset.range kEntriesPerTable,
      (T.child i).elim 0 fun c => tableCount n c.2 + 1

/-- The tables below the first `k` entries. -/
def tablesBefore (T : PageTree (n+1)) (k : ℕ) : ℕ :=
  ∑ i ∈ Finset.range k, (T.child i).elim 0 fun c => tableCount n c.2 + 1

theorem tableCount_succ (T : PageTree (n+1)) :
    tableCount (n+1) T = tablesBefore T kEntriesPerTable := rfl

theorem tablesBefore_none {T : PageTree (n+1)} {k : ℕ} (h : T.child k = none) :
    tablesBefore T (k+1) = tablesBefore T k := by
  rw [tablesBefore, Finset.sum_range_succ, h]
  rfl

theorem tablesBefore_some {T : PageTree (n+1)} {k : ℕ} {c : Addr × PageTree n}
    (h : T.child k = some c) : tablesBefore T (k+1) = tablesBefore T k + (tableCount n c.2 + 1) := by
  rw [tablesBefore, Finset.sum_range_succ, h]
  rfl

theorem tablesBefore_mono (T : PageTree (n+1)) : Monotone (tablesBefore T) := by
  intro i j hij
  exact Finset.sum_le_sum_of_subset (Finset.range_mono hij)

/-- A copy that stops after `m` tables below its root has no finished table below it: below
every entry it has reached it has stopped, and has again no finished table there. -/
def StopsBare : (n : ℕ) → PageTree n → ℕ → Prop
  | 0, _, _ => True
  | n+1, T, m => ∀ i < kEntriesPerTable, ∀ c, T.child i = some c →
      m ≤ tablesBefore T i + tableCount n c.2 ∧
      (tablesBefore T i < m → StopsBare n c.2 (m - tablesBefore T i - 1))

/-- When the copy of the tree stops after `m` tables below its root, the table below the root
that is then given up has no finished table below it. -/
def StopsClean : (n : ℕ) → PageTree n → ℕ → Prop
  | 0, _, _ => True
  | n+1, T, m => ∀ i < kEntriesPerTable, ∀ c, T.child i = some c → tablesBefore T i < m →
      m ≤ tablesBefore T i + tableCount n c.2 → StopsBare n c.2 (m - tablesBefore T i - 1)

theorem StopsBare.clean {T : PageTree n} {m : ℕ} (h : StopsBare n T m) : StopsClean n T m := by
  cases n with
  | zero => trivial
  | succ n => exact fun i hi c hc hlt _ => (h i hi c hc).2 hlt

theorem stopsClean_zero (T : PageTree n) : StopsClean n T 0 := by
  cases n with
  | zero => trivial
  | succ n => exact fun i _ c _ hlt => absurd hlt (Nat.not_lt_zero _)

section Stop

variable {T : PageTree (n+1)} {c : Addr × PageTree n} {k m : ℕ} (hk : k < kEntriesPerTable)
  (hc : T.child k = some c) (hle : tablesBefore T k ≤ m) (hcount : m ≤ tablesBefore T k + tableCount n c.2)

include hk hc hle hcount

/-- When the copy stops below the entry `k`, that entry decides. -/
theorem stopsClean_iff :
    StopsClean (n+1) T m ↔ (tablesBefore T k < m → StopsBare n c.2 (m - tablesBefore T k - 1)) := by
  constructor
  · exact fun h hlt => h k hk c hc hlt hcount
  · intro h i hi d hd hlt hd'
    obtain hik | rfl | hki := lt_trichotomy i k
    · have hmono := tablesBefore_mono T (Nat.succ_le_of_lt hik)
      rw [Nat.succ_eq_add_one, tablesBefore_some hd] at hmono
      omega
    · rw [hc, Option.some.injEq] at hd
      exact hd ▸ h hlt
    · have hmono := tablesBefore_mono T (Nat.succ_le_of_lt hki)
      rw [Nat.succ_eq_add_one, tablesBefore_some hc] at hmono
      omega

theorem stopsBare_iff : StopsBare (n+1) T m ↔ (∀ i < k, T.child i = none) ∧
    (tablesBefore T k < m → StopsBare n c.2 (m - tablesBefore T k - 1)) := by
  constructor
  · intro h
    refine ⟨?_, (h k hk c hc).2⟩
    intro i hi
    cases hd : T.child i with
    | none => rfl
    | some d =>
      have hstop := (h i (hi.trans hk) d hd).1
      have hmono := tablesBefore_mono T (Nat.succ_le_of_lt hi)
      rw [Nat.succ_eq_add_one, tablesBefore_some hd] at hmono
      omega
  · rintro ⟨hnone, h⟩ i hi d hd
    obtain hik | rfl | hki := lt_trichotomy i k
    · rw [hnone i hik] at hd
      cases hd
    · rw [hc, Option.some.injEq] at hd
      exact hd ▸ ⟨hcount, h⟩
    · have hmono := tablesBefore_mono T (Nat.succ_le_of_lt hki)
      rw [Nat.succ_eq_add_one, tablesBefore_some hc] at hmono
      exact ⟨by omega, fun hlt => by omega⟩

end Stop

end Counting

end NaiLongKernel.Memory
