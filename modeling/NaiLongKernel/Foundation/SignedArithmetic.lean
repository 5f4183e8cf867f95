import Mathlib.Tactic

/-!
# Computations that record their signed operations

A signed operation has an exact result, an integer, and a value, the representative of that
integer in the type. `Traced` keeps the exact results next to the computation, so that one
definition says what the machine computes and whether an operation has left its type.
-/
namespace NaiLongKernel.Foundation

/-- A signed operation: the width of its type and its exact result. -/
structure SignedOp where
  width : ℕ
  exact : ℤ
deriving DecidableEq

/-- The exact result is a value of the type. -/
def SignedOp.Fits (o : SignedOp) : Prop :=
  -2 ^ (o.width - 1) ≤ o.exact ∧ o.exact < 2 ^ (o.width - 1)

instance (o : SignedOp) : Decidable o.Fits :=
  inferInstanceAs (Decidable (_ ∧ _))

/-- The recorded operations stand latest first. -/
abbrev Traced := StateM (List SignedOp)

/-- A signed operation wraps, and its exact result is recorded. -/
def signed (w : ℕ) (x : ℤ) : Traced ℤ :=
  fun ops => (x.bmod (2 ^ w), ⟨w, x⟩ :: ops)

def Traced.value {α : Type} (x : Traced α) : α := (x.run []).1

def Traced.ops {α : Type} (x : Traced α) : List SignedOp := (x.run []).2

/-- The computation returns `a` and makes the operations `ops`. -/
def Runs {α : Type} (x : Traced α) (a : α) (ops : List SignedOp) : Prop :=
  ∀ before, x.run before = (a, ops ++ before)

/-- The computation returns `a`, and the operations on the way all fit. -/
def Exactly {α : Type} (x : Traced α) (a : α) : Prop :=
  ∃ ops, Runs x a ops ∧ ∀ o ∈ ops, o.Fits

variable {α β : Type} {x : Traced α} {f : α → Traced β} {a : α} {b : β} {w : ℕ} {z : ℤ}
  {ops ops' : List SignedOp}

namespace Runs

protected theorem pure (a : α) : Runs (pure a) a [] := fun _ => rfl

protected theorem signed (w : ℕ) (z : ℤ) : Runs (signed w z) (z.bmod (2 ^ w)) [⟨w, z⟩] :=
  fun _ => rfl

protected theorem bind (hx : Runs x a ops) (hf : Runs (f a) b ops') :
    Runs (x >>= f) b (ops' ++ ops) := by
  intro before
  rw [StateT.run_bind, hx, List.append_assoc]
  exact hf _

theorem value_eq (hx : Runs x a ops) : x.value = a := by
  rw [Traced.value, hx]

theorem ops_eq (hx : Runs x a ops) : x.ops = ops := by
  rw [Traced.ops, hx, List.append_nil]

end Runs

theorem bmod_of_fits (hw : 0 < w) (h : (SignedOp.mk w z).Fits) : z.bmod (2 ^ w) = z := by
  obtain ⟨hlo, hhi⟩ := h
  obtain ⟨v, rfl⟩ : ∃ v, w = v + 1 := ⟨w - 1, by omega⟩
  simp only [Nat.add_sub_cancel] at hlo hhi
  apply Int.bmod_eq_of_le_mul_two
  · push_cast
    rw [pow_succ]
    omega
  · push_cast
    rw [pow_succ]
    omega

namespace Exactly

protected theorem pure (a : α) : Exactly (pure a) a := ⟨[], Runs.pure a, by simp⟩

protected theorem bind (hx : Exactly x a) (hf : Exactly (f a) b) : Exactly (x >>= f) b := by
  obtain ⟨ops, hrun, hops⟩ := hx
  obtain ⟨ops', hrun', hops'⟩ := hf
  refine ⟨ops' ++ ops, hrun.bind hrun', ?_⟩
  intro o ho
  obtain ho | ho := List.mem_append.mp ho
  · exact hops' o ho
  · exact hops o ho

protected theorem signed (hw : 0 < w) (h : (SignedOp.mk w z).Fits) : Exactly (signed w z) z := by
  refine ⟨[⟨w, z⟩], ?_, by simpa using h⟩
  have hrun := Runs.signed w z
  rwa [bmod_of_fits hw h] at hrun

theorem value_eq (hx : Exactly x a) : x.value = a := by
  obtain ⟨ops, hrun, -⟩ := hx
  exact hrun.value_eq

theorem fits (hx : Exactly x a) : ∀ o ∈ x.ops, o.Fits := by
  obtain ⟨ops, hrun, hops⟩ := hx
  rwa [hrun.ops_eq]

end Exactly

end NaiLongKernel.Foundation
