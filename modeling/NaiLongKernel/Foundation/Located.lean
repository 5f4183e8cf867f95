import Mathlib.Data.List.Nodup
import Mathlib.Data.List.Perm.Basic
import Mathlib.Data.List.Count
import Mathlib.Tactic

/-!
# Items held in slots

A family of lists, the slots, holds items. A location function says for each item
in which slot it is, if any. The two agree when every slot is duplicate free and
holds exactly the items located there; an item is then in at most one slot, once.
Moving one item at a time keeps the agreement.
-/
namespace NaiLongKernel.Foundation

variable {α S : Type} {slots slots' : S → List α} {loc : α → Option S}

/-- The slots hold each item exactly where its location says, and only once. -/
structure Located (slots : S → List α) (loc : α → Option S) : Prop where
  nodup : ∀ s, (slots s).Nodup
  mem_iff : ∀ s p, p ∈ slots s ↔ loc p = some s

theorem Located.not_mem (h : Located slots loc) {p : α} (hp : loc p = none) (s : S) :
    p ∉ slots s := by
  rw [h.mem_iff, hp]
  exact nofun

theorem Located.slot_unique (h : Located slots loc) {p : α} {s u : S} (hs : p ∈ slots s)
    (hu : p ∈ slots u) : s = u := by
  rw [h.mem_iff] at hs hu
  exact Option.mem_unique hs hu

theorem Located.count_eq [DecidableEq α] [DecidableEq S] (h : Located slots loc) (p : α) (s : S) :
    (slots s).count p = if loc p = some s then 1 else 0 := by
  split
  · rename_i hp
    exact List.count_eq_one_of_mem (h.nodup s) ((h.mem_iff s p).mpr hp)
  · rename_i hp
    exact List.count_eq_zero_of_not_mem (fun hm => hp ((h.mem_iff s p).mp hm))

variable [DecidableEq α]

theorem Located.insert (h : Located slots loc) {p : α} {s : S} (hp : loc p = none)
    (hs : (slots' s).Perm (p :: slots s)) (hoff : ∀ u, u ≠ s → slots' u = slots u) :
    Located slots' (Function.update loc p (some s)) := by
  have hnew : p ∉ slots s := h.not_mem hp s
  constructor
  · intro u
    by_cases hu : u = s
    · subst hu
      exact hs.nodup_iff.mpr (List.nodup_cons.mpr ⟨hnew, h.nodup u⟩)
    · rw [hoff u hu]
      exact h.nodup u
  · intro u q
    by_cases hq : q = p
    · subst hq
      rw [Function.update_self]
      by_cases hu : u = s
      · subst hu
        simp [hs.mem_iff]
      · rw [hoff u hu]
        simp [h.not_mem hp u, Ne.symm hu]
    · rw [Function.update_of_ne hq]
      by_cases hu : u = s
      · subst hu
        rw [hs.mem_iff, List.mem_cons, or_iff_right hq, h.mem_iff]
      · rw [hoff u hu, h.mem_iff]

theorem Located.remove (h : Located slots loc) {p : α} {s : S}
    (hs : (slots s).Perm (p :: slots' s)) (hoff : ∀ u, u ≠ s → slots' u = slots u) :
    Located slots' (Function.update loc p none) := by
  have hmem : p ∈ slots s := hs.mem_iff.mpr List.mem_cons_self
  obtain ⟨hgone, hrest⟩ := List.nodup_cons.mp (hs.nodup_iff.mp (h.nodup s))
  constructor
  · intro u
    by_cases hu : u = s
    · subst hu
      exact hrest
    · rw [hoff u hu]
      exact h.nodup u
  · intro u q
    by_cases hq : q = p
    · subst hq
      rw [Function.update_self]
      by_cases hu : u = s
      · subst hu
        simp [hgone]
      · rw [hoff u hu]
        simpa using fun hm => hu (h.slot_unique hm hmem)
    · rw [Function.update_of_ne hq]
      by_cases hu : u = s
      · subst hu
        rw [← h.mem_iff, hs.mem_iff, List.mem_cons, or_iff_right hq]
      · rw [hoff u hu, h.mem_iff]

end NaiLongKernel.Foundation
