import NaiLongKernel.Foundation.RadixTable
import NaiLongKernel.Memory.VirtualMemory

/-!
# Page directories as trees of owned tables

A page directory is a tree in the page-table format whose tables are live pages,
each used once. `Evolves` is what an operation on one directory may do: it keeps
every live page outside the directory and adds only pages that were not live.
`Extends` is the same for the operations that take no table away.
-/
namespace NaiLongKernel.Memory

open Foundation Foundation.Radix

/-- The page-table format: an entry with the valid bit points to its page. -/
def x86 : Format Addr (BitVec 64) where
  arity := kEntriesPerTable
  decode pte := if isPageTableEntryValid pte then some (pageTableEntryToPhysical pte) else none
  blank := 0
  decode_blank := by decide

abbrev PageTree := Tree Addr (BitVec 64)

/-- The table indices of an address, by level. -/
def indices (va : Addr) (level : ℕ) : ℕ := (getVirtualPageNumber va level).toNat

theorem indices_lt (va : Addr) (k : ℕ) : indices va k < x86.arity := virtualPageNumber_lt va k

theorem decode_of_valid {pte : BitVec 64} (h : isPageTableEntryValid pte = true) :
    x86.decode pte = some (pageTableEntryToPhysical pte) := if_pos h

theorem decode_of_not_valid {pte : BitVec 64} (h : ¬ isPageTableEntryValid pte = true) :
    x86.decode pte = none := if_neg h

theorem isSome_decode (pte : BitVec 64) :
    (x86.decode pte).isSome = isPageTableEntryValid pte := by
  by_cases h : isPageTableEntryValid pte = true
  · rw [decode_of_valid h, h]
    rfl
  · rw [decode_of_not_valid h]
    simpa using h

theorem decode_tableEntry {a : Addr} (ha : IsPage a) :
    x86.decode (physicalToPageTableEntry a getTableEntryPermissions) = some a := by
  have hv : isPageTableEntryValid (physicalToPageTableEntry a getTableEntryPermissions) = true := by
    rw [valid_toEntry]
    decide
  rw [decode_of_valid hv, toPhysical_toEntry ha]

/-- The leaf entry that maps an address in the directory. -/
def translate (vm : Vm) (pageDir va : Addr) : Option (BitVec 64) :=
  lookup x86 vm.mem (kPageTableLevels - 1) pageDir (indices va)

/-- The table pages of the directory. -/
def tablePages (vm : Vm) (pageDir : Addr) : Set Addr :=
  tables x86 vm.mem (kPageTableLevels - 1) pageDir

/-- The tables of the directory on the way of an address, from the root on. -/
def tablePath (vm : Vm) (pageDir va : Addr) : List Addr :=
  path x86 vm.mem (kPageTableLevels - 1) pageDir (indices va)

/-- The tree at `a` is in memory, and its tables are live, distinct and not null. -/
structure Owns (vm : Vm) (n : ℕ) (a : Addr) (T : PageTree n) : Prop where
  rep : Rep x86 vm.mem n a T
  sep : Sep x86 n a T
  live : ∀ x ∈ foot x86 n a T, x ∈ vm.live
  nonnull : 0 ∉ foot x86 n a T

/-- Live pages stay live, those outside `X` keep their words, and what was freed or
destroyed on the way had been allocated on the way. -/
structure Grows (X : Set Addr) (vm vm' : Vm) : Prop where
  live : ∀ x ∈ vm.live, x ∈ vm'.live
  mem : ∀ x ∈ vm.live, x ∉ X → vm'.mem x = vm.mem x
  freed : ∃ fs, vm'.freed = fs ++ vm.freed ∧ ∀ f ∈ fs, f.frame = false ∧ f.page ∉ vm.live
  destroyed : ∃ ds, vm'.destroyed = ds ++ vm.destroyed ∧
    ∀ d ∈ ds, d.wasLive = true ∧ d.root ∉ vm.live

/-- The directory at `a` goes from `T` to `T'` while memory goes from `vm` to `vm'`. -/
structure Evolves (vm vm' : Vm) (n : ℕ) (a : Addr) (T T' : PageTree n) : Prop where
  owns : Owns vm' n a T'
  grows : Grows (foot x86 n a T) vm vm'
  foot : ∀ x ∈ foot x86 n a T', x ∈ foot x86 n a T ∨ x ∉ vm.live

/-- The directory also keeps the tables on each path. -/
structure Extends (vm vm' : Vm) (n : ℕ) (a : Addr) (T T' : PageTree n) : Prop extends
    Evolves vm vm' n a T T' where
  kept : ∀ ix, trail n a T ix <+: trail n a T' ix

variable {vm vm' vm'' : Vm} {n : ℕ} {a b : Addr} {X Y : Set Addr}

namespace Owns

variable {T : PageTree n}

theorem root_nonnull (h : Owns vm n a T) : a ≠ 0 :=
  fun he => h.nonnull (he ▸ mem_foot_root T)

theorem child {T : PageTree (n+1)} (h : Owns vm (n+1) a T) {i : ℕ} (hi : i < x86.arity)
    {c : Addr × PageTree n} (hc : T.child i = some c) : Owns vm n c.1 c.2 where
  rep := (h.rep.child hi hc).2
  sep := (h.sep.1 i hi c hc).2
  live x hx := h.live x (mem_foot_child hi hc hx)
  nonnull hx := h.nonnull (mem_foot_child hi hc hx)

/-- A directory is kept by operations that may only change other pages. -/
theorem frame (h : Owns vm n a T) (hg : Grows X vm vm') (hX : Disjoint (foot x86 n a T) X) :
    Owns vm' n a T where
  rep := h.rep.frame fun x hx i _ => by
    rw [hg.mem x (h.live x hx) (Set.disjoint_left.mp hX hx)]
  sep := h.sep
  live x hx := hg.live x (h.live x hx)
  nonnull := h.nonnull

theorem view_eq (h : Owns vm n a T) (va : Addr) :
    view x86 n T (indices va) = lookup x86 vm.mem n a (indices va) :=
  h.rep.view_eq_lookup (indices_lt va)

theorem blank (hz : ∀ i < kEntriesPerTable, vm.mem a i = 0) (hl : a ∈ vm.live) (h0 : a ≠ 0) :
    Owns vm n a (blankTree x86 n) where
  rep := rep_blankTree hz
  sep := sep_blankTree n a
  live x hx := by
    rw [foot_blankTree] at hx
    exact hx ▸ hl
  nonnull hx := by
    rw [foot_blankTree] at hx
    exact h0 hx.symm

end Owns

/-- A log that has grown twice has grown by both parts. -/
theorem grown_trans {α : Type} {l l' l'' : List α} {p q r : α → Prop}
    (h : ∃ fs, l' = fs ++ l ∧ ∀ f ∈ fs, p f) (h' : ∃ gs, l'' = gs ++ l' ∧ ∀ f ∈ gs, q f)
    (hp : ∀ f, p f → r f) (hq : ∀ f, q f → r f) : ∃ fs, l'' = fs ++ l ∧ ∀ f ∈ fs, r f := by
  obtain ⟨fs, rfl, hold⟩ := h
  obtain ⟨gs, rfl, hnew⟩ := h'
  refine ⟨gs ++ fs, (List.append_assoc _ _ _).symm, ?_⟩
  intro f hf
  obtain hf | hf := List.mem_append.mp hf
  · exact hq f (hnew f hf)
  · exact hp f (hold f hf)

namespace Grows

theorem of_live (hlive : ∀ x ∈ vm.live, x ∈ vm'.live)
    (hmem : ∀ x ∈ vm.live, x ∉ X → vm'.mem x = vm.mem x) (hfreed : vm'.freed = vm.freed)
    (hdestroyed : vm'.destroyed = vm.destroyed) : Grows X vm vm' :=
  ⟨hlive, hmem, ⟨[], hfreed, nofun⟩, [], hdestroyed, nofun⟩

theorem refl (X : Set Addr) (vm : Vm) : Grows X vm vm :=
  of_live (fun _ hx => hx) (fun _ _ _ => rfl) rfl rfl

theorem trans (h : Grows X vm vm') (h' : Grows Y vm' vm'')
    (hY : ∀ x ∈ Y, x ∈ X ∨ x ∉ vm.live) : Grows X vm vm'' := by
  refine ⟨fun x hx => h'.live x (h.live x hx), ?_, ?_, ?_⟩
  · intro x hx hX
    have hxY : x ∉ Y := fun hmem => (hY x hmem).elim hX (fun hl => hl hx)
    rw [h'.mem x (h.live x hx) hxY, h.mem x hx hX]
  · exact grown_trans h.freed h'.freed (fun _ hf => hf) fun f hf => hf.imp_right (mt (h.live _))
  · exact grown_trans h.destroyed h'.destroyed (fun _ hd => hd) fun d hd =>
      hd.imp_right (mt (h.live _))

theorem mono (h : Grows X vm vm') (hXY : X ⊆ Y) : Grows Y vm vm' :=
  ⟨h.live, fun x hx hY => h.mem x hx (fun hX => hY (hXY hX)), h.freed, h.destroyed⟩

theorem writeEntry (vm : Vm) (i : ℕ) (pte : BitVec 64) (ha : a ∈ X) :
    Grows X vm (vm.writeEntry a i pte) := by
  refine of_live (fun _ hx => hx) ?_ rfl rfl
  intro x _ hX
  have hxa : x ≠ a := fun he => hX (he ▸ ha)
  exact Function.update_of_ne hxa _ _

theorem alignedFree (h : Grows X vm vm') (ha : a ∉ vm.live) :
    Grows X vm (vm'.alignedFree a false) := by
  refine ⟨?_, h.mem, ?_, h.destroyed⟩
  · intro x hx
    have hxa : x ≠ a := fun he => ha (he ▸ hx)
    simp [Vm.alignedFree, h.live x hx, hxa]
  · rcases h.freed with ⟨fs, hfs, hall⟩
    refine ⟨_ :: fs, congrArg (List.cons _) hfs, ?_⟩
    intro f hf
    rcases List.mem_cons.mp hf with rfl | hf
    · exact ⟨rfl, ha⟩
    · exact hall f hf

end Grows

namespace Evolves

variable {T T' T'' : PageTree n}

theorem refl (h : Owns vm n a T) : Evolves vm vm n a T T :=
  ⟨h, Grows.refl _ _, fun _ hx => Or.inl hx⟩

theorem keep (h : Owns vm n a T) (hg : Grows ∅ vm vm') : Evolves vm vm' n a T T :=
  ⟨h.frame hg (Set.disjoint_empty _), hg.mono (Set.empty_subset _), fun _ hx => Or.inl hx⟩

theorem trans (h : Evolves vm vm' n a T T') (h' : Evolves vm' vm'' n a T' T'') :
    Evolves vm vm'' n a T T'' where
  owns := h'.owns
  grows := h.grows.trans h'.grows h.foot
  foot x hx := (h'.foot x hx).elim (h.foot x) (fun hl => Or.inr fun hx' => hl (h.grows.live x hx'))

theorem child {T : PageTree (n+1)} (h : Owns vm (n+1) a T) {i : ℕ} (hi : i < x86.arity)
    {S S' : PageTree n} (hc : T.child i = some (b, S)) (hS : Evolves vm vm' n b S S') :
    Evolves vm vm' (n+1) a T (T.setChild i (b, S')) := by
  have hsub : Radix.foot x86 n b S ⊆ Radix.foot x86 (n+1) a T := fun x hx => mem_foot_child hi hc hx
  have hfoot : ∀ x ∈ Radix.foot x86 (n+1) a (T.setChild i (b, S')),
      x ∈ Radix.foot x86 (n+1) a T ∨ x ∉ vm.live := by
    intro x hx
    rcases foot_setChild_subset hx with hx | hx
    · exact Or.inl hx
    · exact (hS.foot x hx).imp (fun hx => hsub hx) id
  have hroot : a ∉ Radix.foot x86 n b S := (h.sep.1 i hi _ hc).1
  have hrow : vm'.mem a = vm.mem a := hS.grows.mem a (h.live a (mem_foot_root T)) hroot
  refine ⟨⟨?_, ?_, ?_, ?_⟩, hS.grows.mono hsub, hfoot⟩
  · refine h.rep.setChild ?_ hS.owns.rep (fun j _ _ => by rw [hrow]) ?_
    · rw [hrow]
      exact (h.rep.child hi hc).1
    · intro j hj hji d hd x hx k _
      have hx' : x ∉ Radix.foot x86 n b S := fun hxb =>
        Set.disjoint_left.mp (h.sep.2 i hi j hj (Ne.symm hji) _ d hc hd) hxb hx
      rw [hS.grows.mem x (h.live x (mem_foot_child hj hd hx)) hx']
  · refine h.sep.setChild hi hS.owns.sep ?_
    intro x hx hxT
    rcases hS.foot x hx with hxS | hxl
    · exact ⟨(b, S), hc, hxS⟩
    · exact absurd (h.live x hxT) hxl
  · intro x hx
    rcases foot_setChild_subset hx with hx | hx
    · exact hS.grows.live x (h.live x hx)
    · exact hS.owns.live x hx
  · intro h0
    rcases foot_setChild_subset h0 with h0 | h0
    · exact h.nonnull h0
    · exact hS.owns.nonnull h0

theorem attach {T : PageTree (n+1)} (h : Owns vm (n+1) a T) {i : ℕ} (hi : i < x86.arity)
    (hg : Grows ∅ vm vm') {S : PageTree n} (hS : Owns vm' n b S) (hpage : IsPage b)
    (hfresh : ∀ x ∈ Radix.foot x86 n b S, x ∉ vm.live) :
    Evolves vm (vm'.writeEntry a i (physicalToPageTableEntry b getTableEntryPermissions)) (n+1) a
      T (T.setChild i (b, S)) := by
  have hal : a ∈ vm.live := h.live a (mem_foot_root T)
  have hT : Owns vm' (n+1) a T := h.frame hg (Set.disjoint_empty _)
  refine ⟨⟨?_, ?_, ?_, ?_⟩, ?_, ?_⟩
  · refine hT.rep.setChild ?_ ?_ ?_ ?_
    · exact (congrArg x86.decode (write_same _ _ _ _)).trans (decode_tableEntry hpage)
    · refine hS.rep.frame fun x hx j _ => ?_
      have hxa : x ≠ a := fun he => hfresh x hx (he ▸ hal)
      exact congrFun (write_other vm'.mem _ _ hxa) j
    · intro j _ hji
      exact write_row vm'.mem a _ hji
    · intro j hj _ c hc x hx k _
      have hxa : x ≠ a := fun he => (h.sep.1 j hj c hc).1 (he ▸ hx)
      exact congrFun (write_other vm'.mem _ _ hxa) k
  · exact h.sep.setChild hi hS.sep fun x hx hxT => absurd (h.live x hxT) (hfresh x hx)
  · intro x hx
    rcases foot_setChild_subset hx with hx | hx
    · exact hg.live x (h.live x hx)
    · exact hS.live x hx
  · intro h0
    rcases foot_setChild_subset h0 with h0 | h0
    · exact h.nonnull h0
    · exact hS.nonnull h0
  · exact (hg.mono (Set.empty_subset _)).trans (Grows.writeEntry vm' i _ (mem_foot_root T))
      (fun x hx => Or.inl hx)
  · intro x hx
    exact (foot_setChild_subset hx).imp id (hfresh x)

theorem writeLeaf {t : Addr} (ix : ℕ → ℕ) (h : Owns vm n a T) (hix : ∀ k, ix k < x86.arity)
    (hw : walk x86 vm.mem n a ix = some t) (pte : BitVec 64) :
    Evolves vm (vm.writeEntry t (ix 0) pte) n a T (setLeaf n T ix pte) where
  owns :=
    { rep := h.rep.setLeaf h.sep hix hw pte
      sep := h.sep.setLeaf _ _ hix
      live := by rw [foot_setLeaf]; exact h.live
      nonnull := by rw [foot_setLeaf]; exact h.nonnull }
  grows := Grows.writeEntry vm _ pte (h.rep.walk_mem_foot hix hw)
  foot x hx := Or.inl (by rwa [foot_setLeaf] at hx)

end Evolves

namespace Extends

variable {T T' T'' : PageTree n}

theorem refl (h : Owns vm n a T) : Extends vm vm n a T T :=
  ⟨Evolves.refl h, fun _ => List.prefix_rfl⟩

theorem trans (h : Extends vm vm' n a T T') (h' : Extends vm' vm'' n a T' T'') :
    Extends vm vm'' n a T T'' :=
  ⟨h.toEvolves.trans h'.toEvolves, fun ix => (h.kept ix).trans (h'.kept ix)⟩

theorem writeLeaf {t : Addr} (ix : ℕ → ℕ) (h : Owns vm n a T) (hix : ∀ k, ix k < x86.arity)
    (hw : walk x86 vm.mem n a ix = some t) (pte : BitVec 64) :
    Extends vm (vm.writeEntry t (ix 0) pte) n a T (setLeaf n T ix pte) := by
  refine ⟨Evolves.writeLeaf ix h hix hw pte, ?_⟩
  intro jx
  rw [trail_setLeaf]

theorem child {T : PageTree (n+1)} (h : Owns vm (n+1) a T) {i : ℕ} (hi : i < x86.arity)
    {S S' : PageTree n} (hc : T.child i = some (b, S)) (hS : Extends vm vm' n b S S') :
    Extends vm vm' (n+1) a T (T.setChild i (b, S')) := by
  refine ⟨Evolves.child h hi hc hS.toEvolves, ?_⟩
  intro ix
  rw [trail_setChild]
  by_cases htop : ix (n+1) = i
  · rw [if_pos htop, trail_some (by rw [htop]; exact hc)]
    exact List.cons_prefix_cons.mpr ⟨rfl, hS.kept ix⟩
  · rw [if_neg htop]

end Extends

section Allocation

variable (A : Allocator)

theorem allocTable_none {vm : Vm} (ha : A.alloc vm.calls vm.live = none) :
    allocTable A vm = .error (.unexpected .kVmAllocationFailed)
      { vm with calls := vm.calls + 1 } := by
  simp [allocTable, alignedAlloc, ha, bind, EStateM.bind, throw_eq]

theorem allocTable_some {vm : Vm} (ha : A.alloc vm.calls vm.live = some b) :
    allocTable A vm = .ok b
      (Vm.clearTable b { vm with calls := vm.calls + 1, live := b :: vm.live }) := by
  simp only [allocTable, alignedAlloc, ha, bind, EStateM.bind]
  rfl

theorem wp_allocTable (vm : Vm) (n : ℕ) :
    wp (allocTable A)
      (fun b vm' => Grows ∅ vm vm' ∧ Owns vm' n b (blankTree x86 n) ∧ IsPage b ∧ b ∉ vm.live)
      (fun e vm' => e = .unexpected .kVmAllocationFailed ∧ Grows ∅ vm vm') vm := by
  cases ha : A.alloc vm.calls vm.live with
  | none =>
    rw [wp_of_error (allocTable_none A ha)]
    exact ⟨rfl, Grows.of_live (fun _ hx => hx) (fun _ _ _ => rfl) rfl rfl⟩
  | some b =>
    rcases A.alloc_fresh _ _ _ ha with ⟨hpage, hb0, hfresh⟩
    rw [wp_of_ok (allocTable_some A ha)]
    refine ⟨Grows.of_live ?_ ?_ rfl rfl, ?_, hpage, hfresh⟩
    · intro x hx
      exact List.mem_cons_of_mem _ hx
    · intro x hx _
      have hxb : x ≠ b := fun he => hfresh (he ▸ hx)
      exact Function.update_of_ne hxb _ _
    · apply Owns.blank _ (List.mem_cons_self ..) hb0
      intro i _
      simp [Vm.clearTable]

end Allocation

end NaiLongKernel.Memory
