import NaiLongKernel.Foundation.Reached
import NaiLongKernel.Task.ThreadGroups

/-!
# The links of thread groups

`JoinThreadGroup` and `LeaveThreadGroup` on their own, apart from the life of the tasks:
any task leaves at any time, and a task that is in no list joins behind any other one. The
links stay finite lists.
-/
namespace NaiLongKernel.Task

open Foundation

variable {k k' : Kernel} {p q leader : Ptr} {t : TaskControlBlock}

/-- A call on the links. -/
inductive LinkOp where
  | leave (p : Ptr)
  | join (p leader : Ptr)
deriving DecidableEq, Repr

namespace LinkOp

def exec : LinkOp → KernelM Unit
  | leave p => leaveThreadGroup p
  | join p leader => joinThreadGroup p leader

def Legal (k : Kernel) : LinkOp → Prop
  | leave p => (k.tasks p).isSome
  | join p leader =>
    (k.tasks p).isSome ∧ (k.tasks leader).isSome ∧ k.next p = none ∧ k.prev p = none

instance (k : Kernel) : DecidablePred (Legal k)
  | leave p => inferInstanceAs (Decidable ((k.tasks p).isSome = true))
  | join p leader => inferInstanceAs (Decidable
      ((k.tasks p).isSome ∧ (k.tasks leader).isSome ∧ k.next p = none ∧ k.prev p = none))

end LinkOp

def linkStep (k : Kernel) (op : LinkOp) : Option Kernel :=
  match op.exec k with
  | .ok _ k' => some k'
  | .error _ _ => none

/-- Tasks with the id of a group and without links, as they are constructed. -/
def Kernel.Unlinked (k : Kernel) : Prop :=
  ∀ p t, k.tasks p = some t →
    t.tgid ≠ 0 ∧ t.threadGroupNext = none ∧ t.threadGroupPrev = none

/-- Every task is in a row. -/
structure LinkRows (k : Kernel) : Prop where
  linked : k.Grouped
  row : ∀ p t, k.tasks p = some t → ∃ l, p ∈ l ∧ Row k.next k.prev l
  tgid : ∀ p t, k.tasks p = some t → t.tgid ≠ 0

theorem Kernel.Grouped.live (h : k.Grouped) {l : List Ptr} (hrow : Row k.next k.prev l)
    (ht : k.tasks p = some t) (hp : p ∈ l) (hq : q ∈ l) : ∃ u, k.tasks q = some u := by
  cases hn : k.next q with
  | some r => exact Kernel.exists_of_next hn
  | none =>
    cases hpr : k.prev q with
    | some r => exact Kernel.exists_of_prev hpr
    | none =>
      rw [hrow.eq_of_loose h hn hpr hq, List.mem_singleton] at hp
      exact ⟨t, hp ▸ ht⟩

namespace LinkRows

theorem start (h : k.Unlinked) : LinkRows k := by
  have hn : ∀ p, k.next p = none := by
    intro p
    cases ht : k.tasks p with
    | none => exact Kernel.next_of_none ht
    | some t => rw [Kernel.next_eq ht, (h p t ht).2.1]
  have hp : ∀ p, k.prev p = none := by
    intro p
    cases ht : k.tasks p with
    | none => exact Kernel.prev_of_none ht
    | some t => rw [Kernel.prev_eq ht, (h p t ht).2.2]
  refine ⟨?_, ?_, fun p t ht => (h p t ht).1⟩
  · intro p q
    rw [hn, hp]
    exact iff_of_false nofun nofun
  · exact fun p _ _ => ⟨[p], List.mem_singleton_self p, .singleton (hn p) (hp p)⟩

theorem tgid_of_rewrites (h : ∀ p t, k.tasks p = some t → t.tgid ≠ 0)
    (hr : Rewrites Regrouped k k') : ∀ p t, k'.tasks p = some t → t.tgid ≠ 0 := by
  intro p t' ht'
  cases ht : k.tasks p with
  | none =>
    rw [hr.free p ht] at ht'
    cases ht'
  | some t =>
    obtain ⟨t'', ht'', hregrouped⟩ := hr.same p t ht
    obtain rfl := Option.mem_unique ht' ht''
    rw [hregrouped]
    exact h p t ht

theorem exists_of_rewrites (hr : Rewrites Regrouped k k') (ht : k'.tasks p = some t) :
    ∃ u, k.tasks p = some u := by
  cases hu : k.tasks p with
  | none =>
    rw [hr.free p hu] at ht
    cases ht
  | some u => exact ⟨u, rfl⟩

theorem leave (h : LinkRows k) (ht : k.tasks p = some t) {E : Fault → Kernel → Prop} :
    wp (leaveThreadGroup p) (fun _ k' => LinkRows k' ∧ Row k'.next k'.prev [p] ∧
      ∀ l, Row k.next k.prev l → Row k'.next k'.prev (l.erase p)) E k := by
  refine wp_leaveThreadGroup h.linked ht ?_
  intro k' hr hn hp
  have hrows : ∀ l, Row k.next k.prev l → Row k'.next k'.prev (l.erase p) := by
    intro l hl
    rw [hn, hp]
    exact hl.erase h.linked p
  have halone : Row k'.next k'.prev [p] := by
    refine .singleton ?_ ?_
    · rw [hn, Function.update_self]
    · rw [hp, Function.update_self]
  refine ⟨⟨h.linked.left hn hp, ?_, tgid_of_rewrites h.tgid hr⟩, halone, hrows⟩
  intro q u hu
  by_cases hq : q = p
  · exact ⟨[p], by rw [hq]; exact List.mem_singleton_self p, halone⟩
  · obtain ⟨u', hu'⟩ := exists_of_rewrites hr hu
    obtain ⟨l, hql, hl⟩ := h.row q u' hu'
    exact ⟨l.erase p, (List.mem_erase_of_ne hq).mpr hql, hrows l hl⟩

theorem join (h : LinkRows k) {l : TaskControlBlock} (hne : leader ≠ p)
    (hl : k.tasks leader = some l) (ht : k.tasks p = some t) (hn : k.next p = none)
    (hp : k.prev p = none) {E : Fault → Kernel → Prop} :
    wp (joinThreadGroup p leader) (fun _ k' => LinkRows k') E k := by
  refine wp_joinThreadGroup h.linked hne hl ht ((Kernel.next_eq ht).symm.trans hn) ?_
  intro k' hr hn' hp'
  have htgid : ∀ q u, (k.setTask p { t with tgid := l.tgid }).tasks q = some u → u.tgid ≠ 0 := by
    intro q u hu
    by_cases hq : q = p
    · rw [hq, Kernel.tasks_setTask_self] at hu
      obtain rfl := Option.some.inj hu
      exact h.tgid leader l hl
    · rw [Kernel.tasks_setTask_ne _ _ _ hq] at hu
      exact h.tgid q u hu
  obtain ⟨m, hleader, hm⟩ := h.row leader l hl
  have hpm : p ∉ m := by
    intro hmem
    rw [hm.eq_of_loose h.linked hn hp hmem, List.mem_singleton] at hleader
    exact hne hleader
  obtain ⟨m', hm', hperm⟩ := hm.insertAfter hleader hpm
  refine ⟨?_, ?_, tgid_of_rewrites htgid hr⟩
  · rw [Kernel.Grouped, hn', hp']
    exact h.linked.insertAfter hne hn hp
  · intro q u hu
    rw [hn', hp']
    by_cases hq : q ∈ p :: m
    · exact ⟨m', hperm.mem_iff.mpr hq, hm'⟩
    · -- a list that the leader is not in
      rw [List.mem_cons, not_or] at hq
      obtain ⟨u', hu'⟩ := exists_of_rewrites hr hu
      rw [Kernel.tasks_setTask_ne _ _ _ hq.1] at hu'
      obtain ⟨l', hql, hl'⟩ := h.row q u' hu'
      refine ⟨l', hql, hl'.insert_elsewhere h.linked ?_ ?_⟩
      · intro hmem
        exact hq.2 (hm.mem_of_reaches h.linked hleader (hl'.reaches h.linked hmem hql))
      · intro hmem
        rw [hl'.eq_of_loose h.linked hn hp hmem, List.mem_singleton] at hql
        exact hq.1 hql

theorem op (h : LinkRows k) (op : LinkOp) (hop : op.Legal k) {E : Fault → Kernel → Prop} :
    wp op.exec (fun _ k' => LinkRows k') E k := by
  cases op with
  | leave p =>
    obtain ⟨t, ht⟩ := Option.isSome_iff_exists.mp hop
    exact (h.leave ht).imp (fun _ _ hk' => hk'.1)
  | join p leader =>
    obtain ⟨hp, hleader, hn, hpr⟩ := hop
    obtain ⟨t, ht⟩ := Option.isSome_iff_exists.mp hp
    obtain ⟨l, hl⟩ := Option.isSome_iff_exists.mp hleader
    by_cases hne : leader = p
    · rw [LinkOp.exec, joinThreadGroup, if_pos hne]
      exact (wp_pure _).mpr h
    · exact h.join hne hl ht hn hpr

theorem acyclic (h : LinkRows k) (p : Ptr) :
    ¬Relation.TransGen (fun a b => k.next a = some b) p p := by
  intro hcycle
  obtain ⟨q, hq, -⟩ := Relation.TransGen.head'_iff.mp hcycle
  obtain ⟨t, ht⟩ := Kernel.exists_of_next hq
  obtain ⟨l, hp, hl⟩ := h.row p t ht
  exact hl.acyclic hp hcycle

end LinkRows

/-- The links are finite lists. -/
structure Kernel.FiniteLists (k : Kernel) : Prop where
  inverse : ∀ p q, k.next p = some q ↔ k.prev q = some p
  forwards : ∀ p, ¬Relation.TransGen (fun a b => k.next a = some b) p p
  backwards : ∀ p, ¬Relation.TransGen (fun a b => k.prev a = some b) p p
  /-- The calls return. -/
  returns : ∀ op : LinkOp, op.Legal k → ∃ k', op.exec k = .ok () k'
  /-- A task that leaves is alone then, and every list keeps the order of the others. -/
  order : ∀ p, (k.tasks p).isSome → ∃ k', leaveThreadGroup p k = .ok () k' ∧
    Row k'.next k'.prev [p] ∧ ∀ l, Row k.next k.prev l → Row k'.next k'.prev (l.erase p)
  size : ∀ p, (k.tasks p).isSome → ∃ l, p ∈ l ∧ Row k.next k.prev l ∧
    ∀ fuel, l.length ≤ fuel → getThreadGroupSize fuel p k = .ok l.length k

theorem LinkRows.finiteLists (h : LinkRows k) : k.FiniteLists := by
  refine ⟨h.linked, h.acyclic, ?_, ?_, ?_, ?_⟩
  · intro p hcycle
    have hback : ∀ a b, k.prev a = some b → k.next b = some a :=
      fun a b hab => (h.linked b a).mpr hab
    exact h.acyclic p (Relation.transGen_swap.mp (Relation.TransGen.mono hback p p hcycle))
  · intro op hop
    obtain ⟨_, k', hk', -⟩ := (h.op op hop).returns
    exact ⟨k', hk'⟩
  · intro p hp
    obtain ⟨t, ht⟩ := Option.isSome_iff_exists.mp hp
    obtain ⟨_, k', hk', -, halone, hrows⟩ := (h.leave ht).returns
    exact ⟨k', hk', halone, hrows⟩
  · intro p hp
    obtain ⟨t, ht⟩ := Option.isSome_iff_exists.mp hp
    obtain ⟨l, hpl, hl⟩ := h.row p t ht
    refine ⟨l, hpl, hl, fun fuel hfuel => ?_⟩
    obtain ⟨n, k', hk', rfl, rfl⟩ := (wp_getThreadGroupSize hl h.linked
      (fun q hq => h.linked.live hl ht hpl hq) hpl ht (fun hz => absurd hz (h.tgid p t ht))
      hfuel).returns
    exact hk'

/-- From any tasks without links, every sequence of calls keeps the links finite lists. -/
theorem thread_links_stay_lists {k₀ : Kernel} (h₀ : k₀.Unlinked)
    (h : Reached linkStep (fun k op => op.Legal k) k₀ k) : k.FiniteLists := by
  refine LinkRows.finiteLists (h.invariant (.start h₀) ?_)
  intro k op k' hk hop hstep
  rw [linkStep] at hstep
  split at hstep
  · rename_i hrun
    cases hstep
    exact (hk.op op hop (E := fun _ _ => True)).of_ok hrun
  · cases hstep

def threeTasks : Kernel :=
  { tasks := fun p => if p = 1 ∨ p = 2 ∨ p = 3 then some { tgid := 7 } else none }

/-- Tasks 2 and 3 join the first task, which then leaves. -/
theorem thread_links_stay_lists_example : ∃ k,
    Reached linkStep (fun k op => op.Legal k) threeTasks k ∧ k.next 3 = some 2 ∧
      k.prev 3 = none ∧ k.FiniteLists := by
  have h₀ : threeTasks.Unlinked := by
    intro p t ht
    rw [threeTasks] at ht
    dsimp only at ht
    split at ht
    · obtain rfl := Option.some.inj ht
      exact ⟨by decide, rfl, rfl⟩
    · cases ht
  obtain ⟨k, hk, hn, hp⟩ := Reached.exists_replay
    (.start : Reached linkStep (fun k op => op.Legal k) threeTasks threeTasks)
    (fun k op => decide (op.Legal k)) (fun _ _ _ h => of_decide_eq_true h)
    [.join 1 1, .join 2 1, .join 3 1, .leave 1] (R := fun k => k.next 3 = some 2 ∧ k.prev 3 = none)
    (by decide +kernel)
  exact ⟨k, hk, hn, hp, thread_links_stay_lists h₀ hk⟩

end NaiLongKernel.Task
