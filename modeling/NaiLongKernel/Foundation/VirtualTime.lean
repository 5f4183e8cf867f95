import Mathlib.Data.Set.Basic
import Mathlib.Logic.Function.Basic
import Mathlib.Tactic

/-!
# Sharing by virtual time

The members of a set share one resource and each carries a virtual time, which grows while
the member has the resource. Two rules keep all virtual times together: whoever gets the
resource is behind or level with everybody, and whoever keeps it is at most a granularity
`G` ahead of everybody. A member is charged at most `D` at once, so that no two are ever
further apart than `G + D`.
-/
namespace NaiLongKernel.Foundation

variable {ι : Type} {S : Set ι} {G D : ℕ} {v : ι → ℕ} {c : ι}

/-- No two members are further apart than `B`. -/
def Spread (S : Set ι) (B : ℕ) (v : ι → ℕ) : Prop := ∀ i ∈ S, ∀ j ∈ S, v i ≤ v j + B

/-- The member `c` that has the resource may be charged once more. -/
structure Balanced (S : Set ι) (G D : ℕ) (v : ι → ℕ) (c : ι) : Prop where
  spread : Spread S (G + D) v
  lead : ∀ j ∈ S, v c ≤ v j + G

theorem spread_of_eq {t : ℕ} (h : ∀ i ∈ S, v i = t) (B : ℕ) : Spread S B v := by
  intro i hi j hj
  rw [h i hi, h j hj]
  omega

variable [DecidableEq ι]

theorem Balanced.charge (h : Balanced S G D v c) {d : ℕ} (hd : d ≤ D) :
    Spread S (G + D) (Function.update v c (v c + d)) := by
  intro i hi j hj
  have hspread := h.spread i hi j hj
  have hlead := h.lead j hj
  by_cases hic : i = c <;> by_cases hjc : j = c <;> simp [hic, hjc] <;>
    first | (subst hic; omega) | (subst hjc; omega) | omega

omit [DecidableEq ι] in
theorem Spread.choose (h : Spread S (G + D) v) (hmin : ∀ j ∈ S, v c ≤ v j) : Balanced S G D v c :=
  ⟨h, fun j hj => (hmin j hj).trans (Nat.le_add_right _ _)⟩

end NaiLongKernel.Foundation
