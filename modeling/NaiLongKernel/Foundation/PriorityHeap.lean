import Mathlib.Data.List.Sort
import Mathlib.Tactic

/-!
# Priority queues over abstract heap algorithms

The container is a list read as an array. A heap algorithm is any pair of
operations that meets the usual contract of `push_heap` and `pop_heap`; which of
several equal elements comes first is left to it.
-/
namespace NaiLongKernel.Foundation

variable {α : Type}

/-- The comparison is a strict weak order. -/
structure StrictWeak (cmp : α → α → Bool) : Prop where
  irrefl : ∀ a, cmp a a = false
  trans : ∀ a b c, cmp a b = true → cmp b c = true → cmp a c = true
  incomp_trans : ∀ a b c, cmp a b = false → cmp b c = false → cmp a c = false

theorem strictWeak_of_key {κ : Type} [LinearOrder κ] (key : α → κ) :
    StrictWeak (fun a b => decide (key b < key a)) := by
  constructor
  · intro a
    simp
  · intro a b c hab hbc
    simp only [decide_eq_true_eq] at *
    exact hbc.trans hab
  · intro a b c hab hbc
    simp only [decide_eq_false_iff_not, not_lt] at *
    exact hab.trans hbc

/-- No element compares below its child. -/
def IsHeap (cmp : α → α → Bool) (l : List α) : Prop :=
  ∀ i (hi : i < l.length) (_ : 0 < i), cmp (l.get ⟨(i-1)/2, by omega⟩) (l.get ⟨i, hi⟩) = false

/-- A pair of algorithms with the contract of `push_heap` and `pop_heap`. -/
structure HeapAlgorithms (α : Type) where
  pushHeap : (α → α → Bool) → List α → List α
  popHeap : (α → α → Bool) → List α → List α
  pushHeap_perm : ∀ cmp l x, StrictWeak cmp → IsHeap cmp l →
    (pushHeap cmp (l ++ [x])).Perm (x :: l)
  pushHeap_heap : ∀ cmp l x, StrictWeak cmp → IsHeap cmp l → IsHeap cmp (pushHeap cmp (l ++ [x]))
  popHeap_perm : ∀ cmp x l, StrictWeak cmp → IsHeap cmp (x :: l) →
    (popHeap cmp (x :: l)).dropLast.Perm l
  popHeap_heap : ∀ cmp x l, StrictWeak cmp → IsHeap cmp (x :: l) →
    IsHeap cmp (popHeap cmp (x :: l)).dropLast

theorem isHeap_nil (cmp : α → α → Bool) : IsHeap cmp [] := by
  intro i hi
  simp at hi

theorem IsHeap.congr {cmp cmp' : α → α → Bool} {l : List α} (h : IsHeap cmp l)
    (hc : ∀ a ∈ l, ∀ b ∈ l, cmp' a b = cmp a b) : IsHeap cmp' l := by
  intro i hi h0
  rw [hc _ (List.get_mem _ _) _ (List.get_mem _ _)]
  exact h i hi h0

theorem isHeap_of_pairwise {cmp : α → α → Bool} {l : List α}
    (h : l.Pairwise (fun a b => cmp a b = false)) : IsHeap cmp l := by
  intro i hi h0
  exact List.pairwise_iff_get.mp h ⟨(i-1)/2, by omega⟩ ⟨i, hi⟩ (by simp only [Fin.mk_lt_mk]; omega)

theorem IsHeap.top_first {cmp : α → α → Bool} {x : α} {l : List α} (hc : StrictWeak cmp)
    (h : IsHeap cmp (x :: l)) : ∀ y ∈ x :: l, cmp x y = false := by
  have hindex : ∀ i (hi : i < (x :: l).length), cmp x ((x :: l).get ⟨i, hi⟩) = false := by
    intro i
    -- along the parents of an index, down to the top
    induction i using Nat.strongRecOn with
    | ind i ih =>
      intro hi
      by_cases h0 : i = 0
      · subst h0
        exact hc.irrefl x
      · have hparent := ih ((i - 1) / 2) (by omega) (by omega)
        exact hc.incomp_trans _ _ _ hparent (h i hi (by omega))
  intro y hy
  obtain ⟨i, rfl⟩ := List.get_of_mem hy
  exact hindex i i.isLt

namespace HeapAlgorithms

variable (H : HeapAlgorithms α) (cmp : α → α → Bool)

/-- `c.push_back(value); push_heap(c)`. -/
def push (l : List α) (x : α) : List α := H.pushHeap cmp (l ++ [x])

/-- `pop_heap(c); c.pop_back()` on a non-empty container. -/
def pop : List α → List α
  | [] => []
  | x :: l => (H.popHeap cmp (x :: l)).dropLast

theorem push_perm {l : List α} (x : α) (hc : StrictWeak cmp) (hl : IsHeap cmp l) :
    (H.push cmp l x).Perm (x :: l) := H.pushHeap_perm cmp l x hc hl

theorem pop_perm {x : α} {l : List α} (hc : StrictWeak cmp) (hl : IsHeap cmp (x :: l)) :
    (x :: l).Perm (x :: H.pop cmp (x :: l)) := (H.popHeap_perm cmp x l hc hl).symm.cons x

theorem push_heap {l : List α} (x : α) (hc : StrictWeak cmp) (hl : IsHeap cmp l) :
    IsHeap cmp (H.push cmp l x) := H.pushHeap_heap cmp l x hc hl

theorem pop_heap {l : List α} (hc : StrictWeak cmp) (hl : IsHeap cmp l) :
    IsHeap cmp (H.pop cmp l) := by
  cases l with
  | nil => exact isHeap_nil cmp
  | cons x l => exact H.popHeap_heap cmp x l hc hl

end HeapAlgorithms

section Sorting

def Before (cmp : α → α → Bool) (a b : α) : Prop := cmp a b = false

instance (cmp : α → α → Bool) : DecidableRel (Before cmp) :=
  fun a b => inferInstanceAs (Decidable (cmp a b = false))

theorem pairwise_before_sort {cmp : α → α → Bool} (hc : StrictWeak cmp) (l : List α) :
    (l.insertionSort (Before cmp)).Pairwise (fun a b => cmp a b = false) := by
  have : Std.Total (Before cmp) := ⟨fun a b => by
    by_contra hn
    simp only [Before, not_or, Bool.not_eq_false] at hn
    have := hc.trans a b a hn.1 hn.2
    rw [hc.irrefl] at this
    exact Bool.noConfusion this⟩
  have : IsTrans α (Before cmp) := ⟨fun a b c => hc.incomp_trans a b c⟩
  exact List.pairwise_insertionSort (Before cmp) l

/-- Keeping the whole container sorted is one such pair of algorithms. -/
def sortingHeap (α : Type) : HeapAlgorithms α where
  pushHeap cmp l := l.insertionSort (Before cmp)
  popHeap cmp
    | [] => []
    | x :: l => l.insertionSort (Before cmp) ++ [x]
  pushHeap_perm cmp l x _ _ :=
    (List.perm_insertionSort _ _).trans (List.perm_append_singleton x l)
  pushHeap_heap cmp l x hc _ := isHeap_of_pairwise (pairwise_before_sort hc _)
  popHeap_perm cmp x l _ _ := by
    simpa using List.perm_insertionSort (Before cmp) l
  popHeap_heap cmp x l hc _ := by
    simpa using isHeap_of_pairwise (pairwise_before_sort hc l)

end Sorting

end NaiLongKernel.Foundation
