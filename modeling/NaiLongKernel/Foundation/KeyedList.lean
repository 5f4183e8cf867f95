import Mathlib.Data.List.Perm.Basic
import Mathlib.Tactic

/-!
# Lists of entries under an equivalence of keys

A list of entries whose keys are pairwise inequivalent is a finite map. What a lookup finds
does not depend on the order of the list.
-/
namespace NaiLongKernel.Foundation

variable {K V : Type}

/-- An equivalence given by a test. -/
structure KeyEquiv (eqv : K → K → Bool) : Prop where
  refl : ∀ a, eqv a a = true
  symm : ∀ a b, eqv a b = true → eqv b a = true
  trans : ∀ a b c, eqv a b = true → eqv b c = true → eqv a c = true

/-- The first entry under an equivalent key. -/
def entryAt (eqv : K → K → Bool) (l : List (K × V)) (k : K) : Option (K × V) :=
  l.find? fun e => eqv e.1 k

def DistinctKeys (eqv : K → K → Bool) (l : List (K × V)) : Prop :=
  l.Pairwise fun x y => eqv x.1 y.1 = false

variable {eqv : K → K → Bool} {l l' : List (K × V)} {k k' : K} {e : K × V}

theorem entryAt_eq_none : entryAt eqv l k = none ↔ ∀ e ∈ l, eqv e.1 k = false := by
  simp [entryAt]

theorem entryAt_cons :
    entryAt eqv (e :: l) k = if eqv e.1 k then some e else entryAt eqv l k := by
  simp only [entryAt, List.find?_cons]
  split <;> simp_all

namespace KeyEquiv

variable (h : KeyEquiv eqv)

include h

theorem congr_right (hk : eqv k k' = true) (a : K) : eqv a k = eqv a k' := by
  apply Bool.eq_iff_iff.mpr
  exact ⟨fun ha => h.trans _ _ _ ha hk, fun ha => h.trans _ _ _ ha (h.symm _ _ hk)⟩

theorem comm (a b : K) : eqv a b = eqv b a :=
  Bool.eq_iff_iff.mpr ⟨h.symm a b, h.symm b a⟩

theorem entryAt_congr (hk : eqv k k' = true) : entryAt eqv l k = entryAt eqv l k' := by
  simp only [entryAt, h.congr_right hk]

theorem distinct_perm (hp : l.Perm l') : DistinctKeys eqv l ↔ DistinctKeys eqv l' :=
  hp.pairwise_iff fun hxy => (h.comm _ _).trans hxy

theorem entryAt_eq_some (hl : DistinctKeys eqv l) :
    entryAt eqv l k = some e ↔ e ∈ l ∧ eqv e.1 k = true := by
  induction l with
  | nil => simp [entryAt]
  | cons d l ih =>
    obtain ⟨hd, hl⟩ := List.pairwise_cons.mp hl
    rw [entryAt_cons]
    split
    · rename_i hdk
      constructor
      · intro hde
        cases hde
        exact ⟨List.mem_cons_self, hdk⟩
      · rintro ⟨he, hek⟩
        rcases List.mem_cons.mp he with rfl | he
        · rfl
        · have := h.trans _ _ _ hdk (h.symm _ _ hek)
          rw [hd e he] at this
          cases this
    · rename_i hdk
      rw [ih hl, List.mem_cons]
      constructor
      · exact fun he => ⟨Or.inr he.1, he.2⟩
      · rintro ⟨rfl | he, hek⟩
        · exact absurd hek hdk
        · exact ⟨he, hek⟩

theorem entryAt_perm (hl : DistinctKeys eqv l) (hp : l.Perm l') :
    entryAt eqv l k = entryAt eqv l' k := by
  apply Option.ext
  intro e
  simp only [h.entryAt_eq_some hl, h.entryAt_eq_some ((h.distinct_perm hp).mp hl), hp.mem_iff]

theorem entryAt_tail (hl : DistinctKeys eqv (e :: l)) :
    entryAt eqv l k = if eqv e.1 k then none else entryAt eqv (e :: l) k := by
  obtain ⟨he, -⟩ := List.pairwise_cons.mp hl
  rw [entryAt_cons]
  split
  · rename_i hek
    rw [entryAt_eq_none]
    intro d hd
    rw [← h.congr_right hek, h.comm]
    exact he d hd
  · rfl

end KeyEquiv

end NaiLongKernel.Foundation
