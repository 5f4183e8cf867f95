import NaiLongKernel.Memory.Accounting

/-!
# The descent of FindPageTableEntry

Without allocation the descent only reads. With allocation it adds the tables that the
path lacks, all empty, so that no translation changes; what it obtains from
`aligned_alloc` is on the path, also when it runs out of pages half way.
-/
namespace NaiLongKernel.Memory

open Foundation Foundation.Radix

variable (A : Allocator) {vm vm' : Vm} {n : ℕ} {a : Addr}

/-- The tables of the path of `va` that `T'` has and `T` has not. -/
def added (va : Addr) (n : ℕ) (a : Addr) (T T' : PageTree n) : Set Addr :=
  {x | x ∈ trail n a T' (indices va) ∧ x ∉ trail n a T (indices va)}

/-- The descent along `va` adds empty tables to the path and obtains no other page. -/
structure Descends (va : Addr) (vm vm' : Vm) (n : ℕ) (a : Addr) (T T' : PageTree n) : Prop extends
    Extends vm vm' n a T T' where
  view : Radix.view x86 n T' = Radix.view x86 n T
  obtained : Obtained (added va n a T T') vm vm'
  freed : vm'.freed = vm.freed

namespace Descends

variable {va : Addr}

theorem added_self (va : Addr) (T : PageTree n) : added va n a T T = ∅ := by
  ext x
  simp [added]

theorem refl (va : Addr) {T : PageTree n} (h : Owns vm n a T) : Descends va vm vm n a T T := by
  refine ⟨Extends.refl h, rfl, ?_, rfl⟩
  rw [added_self]
  exact Obtained.refl vm

theorem attach {vm₁ : Vm} {T : PageTree (n+1)} {b : Addr} (h : Owns vm (n+1) a T)
    (hnone : T.child (indices va (n+1)) = none) (hg : Grows ∅ vm vm₁)
    (hb : Owns vm₁ n b (blankTree x86 n)) (hpage : IsPage b) (hacc : Obtained {b} vm vm₁)
    (hfreed : vm₁.freed = vm.freed) :
    Descends va vm (vm₁.writeEntry a (indices va (n+1))
        (physicalToPageTableEntry b getTableEntryPermissions)) (n+1) a T
      (T.setChild (indices va (n+1)) (b, blankTree x86 n)) := by
  have hi := indices_lt va (n+1)
  have hfresh := hacc.fresh b rfl
  have hba : b ≠ a := fun he => hfresh (he ▸ h.live a (mem_foot_root T))
  refine ⟨⟨Evolves.attach h hi hg hb hpage ?_, ?_⟩, ?_, ?_, hfreed⟩
  · intro x hx
    rw [foot_blankTree] at hx
    exact hx ▸ hfresh
  · intro ix
    rw [trail_setChild]
    by_cases htop : ix (n+1) = indices va (n+1)
    · rw [if_pos htop, trail_none (by rw [htop]; exact hnone)]
      exact List.cons_prefix_cons.mpr ⟨rfl, List.nil_prefix⟩
    · rw [if_neg htop]
  · funext ix
    rw [view_setChild, view_blankTree]
    split
    · rename_i htop
      unfold Radix.view
      simp [entry, htop, hnone]
    · rfl
  · have hone : added va (n+1) a T (T.setChild (indices va (n+1)) (b, blankTree x86 n)) = {b} := by
      ext x
      simp only [added, trail_setChild, if_true, trail_blankTree, trail_none hnone,
        List.mem_cons, List.not_mem_nil, or_false, Set.mem_ofPred_eq, Set.mem_singleton_iff]
      constructor
      · rintro ⟨hx | hx, hne⟩
        · exact absurd hx hne
        · exact hx
      · rintro rfl
        exact ⟨Or.inr rfl, hba⟩
    rw [hone]
    exact ⟨hacc.live, hacc.fresh, hacc.freed⟩

theorem child {vm₁ : Vm} {T T₁ : PageTree (n+1)} {b : Addr} {S S' : PageTree n}
    (h : Descends va vm vm₁ (n+1) a T T₁) (hc : T₁.child (indices va (n+1)) = some (b, S))
    (hS : Descends va vm₁ vm' n b S S') :
    Descends va vm vm' (n+1) a T (T₁.setChild (indices va (n+1)) (b, S')) := by
  have hi := indices_lt va (n+1)
  have hsub := Extends.child h.owns hi hc hS.toExtends
  refine ⟨h.toExtends.trans hsub, ?_, ?_, hS.freed.trans h.freed⟩
  · funext ix
    rw [view_setChild, hS.view, ← h.view]
    split
    · rename_i htop
      unfold Radix.view
      simp [entry, htop, hc]
    · rfl
  · have hroot : a ∉ Radix.foot x86 n b S' :=
      (hsub.owns.sep.1 _ hi _ (Tree.child_setChild_self _ _ _)).1
    have hsplit : added va (n+1) a T (T₁.setChild (indices va (n+1)) (b, S')) =
        added va (n+1) a T T₁ ∪ added va n b S S' := by
      have hT := mem_trail_root (a := a) T (indices va)
      have hold := (h.kept (indices va)).subset
      have hnew := (hS.kept (indices va)).subset
      have hout : a ∉ trail n b S' (indices va) :=
        fun ha => hroot (trail_subset_foot (indices_lt va) ha)
      rw [trail_some hc] at hold
      ext x
      simp only [added, trail_setChild, if_true, trail_some hc, Set.mem_union, Set.mem_ofPred_eq,
        List.mem_cons]
      constructor
      · rintro ⟨rfl | hx, hxT⟩
        · exact absurd hT hxT
        · by_cases hxS : x ∈ trail n b S (indices va)
          · exact Or.inl ⟨Or.inr hxS, hxT⟩
          · exact Or.inr ⟨hx, hxS⟩
      · rintro (⟨rfl | hx, hxT⟩ | ⟨hx, hxS⟩)
        · exact absurd hT hxT
        · exact ⟨Or.inr (hnew hx), hxT⟩
        · refine ⟨Or.inr hx, fun hxT => ?_⟩
          rcases List.mem_cons.mp (hold hxT) with rfl | hmem
          · exact hout hx
          · exact hxS hmem
    rw [hsplit]
    exact h.obtained.trans hS.obtained

end Descends

theorem walkTables_succ (va : Addr) (allocate : Bool) (n : ℕ) (a : Addr) :
    walkTables A va allocate (n+1) a = get >>= fun vm =>
      if isPageTableEntryValid (vm.mem a (indices va (n+1))) then
        walkTables A va allocate n (pageTableEntryToPhysical (vm.mem a (indices va (n+1))))
      else if allocate then
        allocTable A >>= fun b =>
          modify (Vm.writeEntry a (indices va (n+1))
            (physicalToPageTableEntry b getTableEntryPermissions)) >>= fun _ =>
          walkTables A va allocate n b
      else throw (.unexpected .kVmPageNotMapped) := rfl

theorem walkTables_find (va : Addr) (n : ℕ) (a : Addr) (vm : Vm) :
    walkTables A va false n a vm = match walk x86 vm.mem n a (indices va) with
      | some t => .ok t vm
      | none => .error (.unexpected .kVmPageNotMapped) vm := by
  induction n generalizing a with
  | zero => rfl
  | succ n ih =>
    rw [walkTables_succ]
    simp only [bind, EStateM.bind, get_eq]
    by_cases hv : isPageTableEntryValid (vm.mem a (indices va (n+1))) = true
    · rw [if_pos hv, ih]
      simp only [walk, decode_of_valid hv]
    · rw [if_neg hv]
      simp only [walk, decode_of_not_valid hv]
      rfl

theorem wp_allocTable_freed (vm : Vm) :
    wp (allocTable A) (fun _ vm' => vm'.freed = vm.freed) (fun _ vm' => vm'.freed = vm.freed) vm := by
  cases ha : A.alloc vm.calls vm.live with
  | none =>
    rw [wp_of_error (allocTable_none A ha)]
  | some b =>
    rw [wp_of_ok (allocTable_some A ha)]
    rfl

theorem wp_walkTables_shortfall (va : Addr) (n : ℕ) (a : Addr) (vm : Vm) :
    wp (walkTables A va true n a) (fun _ vm' => vm'.shortfall = vm.shortfall)
      (fun _ vm' => vm'.shortfall = vm.shortfall + 1) vm := by
  induction n generalizing a vm with
  | zero => rw [walkTables, wp_pure]
  | succ n ih =>
    rw [walkTables_succ]
    simp only [wp_bind, wp_get, wp_ite, wp_modify]
    split
    · exact ih _ vm
    · rw [if_pos trivial]
      refine (wp_allocTable_shortfall A vm).imp ?_
      intro b vm₁ hb
      refine wp_mono (ih b _) ?_ ?_
      · intro _ vm' h
        exact h.trans hb
      · intro _ vm' h
        exact h.trans (congrArg (· + 1) hb)

/-- With allocation the descent adds the missing tables and ends at the leaf table, for
which it needs as many pages as the path lacks tables; a failed allocation leaves those
added so far. -/
theorem wp_walkTables_alloc (va : Addr) {T : PageTree n} (h : Owns vm n a T) :
    wp (walkTables A va true n a)
      (fun t vm' => walk x86 vm'.mem n a (indices va) = some t ∧
        (∃ T', Descends va vm vm' n a T T') ∧
        ∀ m, A.failsAfter m vm.calls vm.live = true →
          n + 1 ≤ (trail n a T (indices va)).length + m)
      (fun e vm' => e = .unexpected .kVmAllocationFailed ∧
        ∃ T', Descends va vm vm' n a T T') vm := by
  induction n generalizing a vm with
  | zero =>
    rw [walkTables, wp_pure]
    refine ⟨rfl, ⟨T, Descends.refl va h⟩, ?_⟩
    intro m _
    simp only [trail, List.length_singleton]
    omega
  | succ n ih =>
    have hi := indices_lt va (n+1)
    -- the descent below the child that the entry points to
    have below : ∀ {vm₁ : Vm} {b : Addr} {S : PageTree n} {T₁ : PageTree (n+1)},
        Descends va vm vm₁ (n+1) a T T₁ → T₁.child (indices va (n+1)) = some (b, S) →
        (∀ m, A.failsAfter m vm.calls vm.live = true →
          ∃ m', A.failsAfter m' vm₁.calls vm₁.live = true ∧
            (trail n b S (indices va)).length + m' + 1 ≤
              (trail (n+1) a T (indices va)).length + m) →
        wp (walkTables A va true n b)
          (fun t vm' => walk x86 vm'.mem (n+1) a (indices va) = some t ∧
            (∃ T', Descends va vm vm' (n+1) a T T') ∧
            ∀ m, A.failsAfter m vm.calls vm.live = true →
              n + 1 + 1 ≤ (trail (n+1) a T (indices va)).length + m)
          (fun e vm' => e = .unexpected .kVmAllocationFailed ∧
            ∃ T', Descends va vm vm' (n+1) a T T') vm₁ := by
      intro vm₁ b S T₁ hT₁ hc hbudget
      refine wp_mono (ih (hT₁.owns.child hi hc)) ?_ ?_
      · rintro t vm' ⟨hw, ⟨S', hS'⟩, hm⟩
        have hT' := hT₁.child hc hS'
        refine ⟨?_, ⟨_, hT'⟩, ?_⟩
        · have hd := (hT'.owns.rep.child hi (Tree.child_setChild_self _ _ _)).1
          simp only [walk, hd, hw]
        · intro m hfail
          rcases hbudget m hfail with ⟨m', hfail', hle⟩
          have hpath : n + 1 ≤ (trail n b S (indices va)).length + m' := hm m' hfail'
          omega
      · rintro e vm' ⟨he, S', hS'⟩
        exact ⟨he, _, hT₁.child hc hS'⟩
    rw [walkTables_succ]
    simp only [wp_bind, wp_get, wp_ite, wp_modify]
    by_cases hv : isPageTableEntryValid (vm.mem a (indices va (n+1))) = true
    · rcases h.rep.child_of_decode hi (decode_of_valid hv) with ⟨S, hc, _⟩
      rw [if_pos hv]
      apply below (Descends.refl va h) hc
      intro m hm
      refine ⟨m, hm, le_of_eq ?_⟩
      rw [trail_some hc, List.length_cons, Nat.add_right_comm]
    · rw [if_neg hv, if_pos trivial]
      have hnone := h.rep.none_of_decode hi (decode_of_not_valid hv)
      refine wp_mono (wp_and (wp_allocTable A vm n) (wp_and (wp_allocTable_failsAfter A vm)
        (wp_allocTable_freed A vm))) ?_ ?_
      · rintro b vm₁ ⟨⟨hg, hb, hpage, -⟩, ⟨hacc, hbudget⟩, hfreed⟩
        apply below (Descends.attach h hnone hg hb hpage hacc hfreed) (Tree.child_setChild_self _ _ _)
        intro m hm
        obtain ⟨hpos, hm₁⟩ := hbudget m hm
        refine ⟨m - 1, hm₁, ?_⟩
        rw [trail_blankTree, trail_none hnone, List.length_singleton, List.length_singleton]
        omega
      · rintro e vm₁ ⟨⟨he, hg⟩, ⟨hacc, -⟩, hfreed⟩
        refine ⟨he, T, ⟨Evolves.keep h hg, fun _ => List.prefix_rfl⟩, rfl, ?_, hfreed⟩
        rw [Descends.added_self]
        exact hacc

end NaiLongKernel.Memory
