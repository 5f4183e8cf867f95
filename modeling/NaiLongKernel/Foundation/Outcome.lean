import Mathlib.Tactic

/-!
# Weakest preconditions for fallible state programs

A program either returns a value or stops with an error, and keeps its state in
both cases. The predicate `wp x Q E s` says that from `s` the program `x` either
returns with `Q` or stops with `E`. Taking `E` false makes it total correctness;
a weaker `E` lists the errors that are tolerated.
-/
namespace NaiLongKernel.Foundation

variable {ε σ α β : Type}

/-- Every way `x` can end from `s` is described by `Q` (return) or `E` (error). -/
def wp (x : EStateM ε σ α) (Q : α → σ → Prop) (E : ε → σ → Prop) (s : σ) : Prop :=
  match x s with
  | .ok a t => Q a t
  | .error e t => E e t

variable {Q Q' : α → σ → Prop} {E E' : ε → σ → Prop} {s t : σ}

/-- A description that can be computed is checked by a run. -/
instance (x : EStateM ε σ α) [∀ a t, Decidable (Q a t)] [∀ e t, Decidable (E e t)] :
    Decidable (wp x Q E s) :=
  match h : x s with
  | .ok a t => decidable_of_iff (Q a t) (by simp [wp, h])
  | .error e t => decidable_of_iff (E e t) (by simp [wp, h])

theorem wp_of_ok {x : EStateM ε σ α} {a : α} (hx : x s = .ok a t) : wp x Q E s ↔ Q a t := by
  simp [wp, hx]

theorem wp_of_error {x : EStateM ε σ α} {e : ε} (hx : x s = .error e t) :
    wp x Q E s ↔ E e t := by
  simp [wp, hx]

theorem get_eq (s : σ) : (get : EStateM ε σ σ) s = .ok s s := rfl

theorem modify_eq (f : σ → σ) (s : σ) : (modify f : EStateM ε σ PUnit) s = .ok () (f s) := rfl

theorem throw_eq (e : ε) (s : σ) : (throw e : EStateM ε σ α) s = .error e s := rfl

@[simp] theorem wp_pure (a : α) : wp (pure a) Q E s ↔ Q a s := Iff.rfl

@[simp] theorem wp_throw (e : ε) : wp (throw e : EStateM ε σ α) Q E s ↔ E e s := Iff.rfl

@[simp] theorem wp_bind (x : EStateM ε σ α) (f : α → EStateM ε σ β) (R : β → σ → Prop) :
    wp (x >>= f) R E s ↔ wp x (fun a t => wp (f a) R E t) E s := by
  simp only [wp, bind, EStateM.bind]
  cases x s <;> rfl

@[simp] theorem wp_map (x : EStateM ε σ α) (f : α → β) (R : β → σ → Prop) :
    wp (f <$> x) R E s ↔ wp x (fun a t => R (f a) t) E s := by
  simp only [wp, Functor.map, EStateM.map]
  cases x s <;> rfl

@[simp] theorem wp_get (R : σ → σ → Prop) : wp (get : EStateM ε σ σ) R E s ↔ R s s := Iff.rfl

@[simp] theorem wp_modify (f : σ → σ) (R : PUnit → σ → Prop) :
    wp (modify f : EStateM ε σ PUnit) R E s ↔ R ⟨⟩ (f s) := Iff.rfl

@[simp] theorem wp_ite (c : Prop) [Decidable c] (x y : EStateM ε σ α) :
    wp (if c then x else y) Q E s ↔ if c then wp x Q E s else wp y Q E s := by
  split <;> rfl

/-- Consequence: a stronger description of the same run. -/
theorem wp_mono {x : EStateM ε σ α} (h : wp x Q E s) (hQ : ∀ a t, Q a t → Q' a t)
    (hE : ∀ e t, E e t → E' e t) : wp x Q' E' s := by
  unfold wp at *
  cases hx : x s with
  | ok a t => rw [hx] at h; exact hQ a t h
  | error e t => rw [hx] at h; exact hE e t h

theorem wp.imp {x : EStateM ε σ α} (h : wp x Q E s) (hQ : ∀ a t, Q a t → Q' a t) : wp x Q' E s :=
  wp_mono h hQ fun _ _ he => he

theorem wp_congr {x : EStateM ε σ α} (h : ∀ a t, Q a t ↔ Q' a t) : wp x Q E s ↔ wp x Q' E s :=
  ⟨fun hx => hx.imp (fun a t => (h a t).mp),
    fun hx => hx.imp (fun a t => (h a t).mpr)⟩

theorem wp_and {x : EStateM ε σ α} (h : wp x Q E s) (h' : wp x Q' E' s) :
    wp x (fun a t => Q a t ∧ Q' a t) (fun e t => E e t ∧ E' e t) s := by
  unfold wp at *
  cases hx : x s with
  | ok | error => rw [hx] at h h'; exact ⟨h, h'⟩

theorem wp_forall {ι : Type} [Nonempty ι] {x : EStateM ε σ α} {R : ι → α → σ → Prop}
    (h : ∀ i, wp x (R i) E s) : wp x (fun a t => ∀ i, R i a t) E s := by
  unfold wp at *
  cases hx : x s with
  | ok a t => simpa only [hx] using h
  | error e t => simpa only [hx, forall_const] using h

theorem wp.of_ok {x : EStateM ε σ α} {a : α} (h : wp x Q E s) (hx : x s = .ok a t) : Q a t :=
  (wp_of_ok hx).mp h

theorem wp.of_error {x : EStateM ε σ α} {e : ε} (h : wp x Q E s) (hx : x s = .error e t) :
    E e t :=
  (wp_of_error hx).mp h

/-- With no tolerated error the program returns. -/
theorem wp.returns {x : EStateM ε σ α} (h : wp x Q (fun _ _ => False) s) :
    ∃ a t, x s = .ok a t ∧ Q a t := by
  unfold wp at h
  cases hx : x s with
  | ok a t => rw [hx] at h; exact ⟨a, t, rfl, h⟩
  | error e t => rw [hx] at h; exact h.elim

/-- A description that admits one result determines the run. -/
theorem wp.eq_result {x : EStateM ε σ α} {r : EStateM.Result ε σ α}
    (h : wp x (fun a t => r = .ok a t) (fun e t => r = .error e t) s) : x s = r := by
  unfold wp at h
  cases hx : x s with
  | ok | error => rw [hx] at h; exact h.symm

/-- A loop over `0, …, n-1` with an invariant indexed by the turns done. -/
theorem wp_forM_range {f : ℕ → EStateM ε σ PUnit} {n : ℕ} {I : ℕ → σ → Prop} (h0 : I 0 s)
    (hstep : ∀ k < n, ∀ t, I k t → wp (f k) (fun _ => I (k+1)) E t) :
    wp ((List.range n).forM f) (fun _ => I n) E s := by
  have hrun : ∀ k ≤ n, wp ((List.range k).forM f) (fun _ => I k) E s := by
    intro k
    induction k with
    | zero => exact fun _ => h0
    | succ k ih =>
      intro hk
      rw [List.range_succ, List.forM_eq_forM, List.forM_append, wp_bind]
      refine (ih (by omega)).imp ?_
      intro _ t ht
      simpa using hstep k (by omega) t ht
  exact hrun n le_rfl

/-- The same for a loop without errors. -/
theorem foldl_range_induction {f : σ → ℕ → σ} {n : ℕ} {I : ℕ → σ → Prop} (h0 : I 0 s)
    (hstep : ∀ k < n, ∀ t, I k t → I (k+1) (f t k)) : I n ((List.range n).foldl f s) := by
  have hrun : ∀ k ≤ n, I k ((List.range k).foldl f s) := by
    intro k
    induction k with
    | zero => exact fun _ => h0
    | succ k ih =>
      intro hk
      rw [List.range_succ, List.foldl_append]
      exact hstep k (by omega) _ (ih (by omega))
  exact hrun n le_rfl

/-- Whether a run returned. -/
def returned : EStateM.Result ε σ α → Bool
  | .ok _ _ => true
  | .error _ _ => false

theorem exists_of_returned {r : EStateM.Result ε σ α} (h : returned r = true) :
    ∃ a t, r = .ok a t := by
  cases r with
  | ok a t => exact ⟨a, t, rfl⟩
  | error e t => cases h

/-- What a run that did not return stopped with. -/
def stoppedBy : EStateM.Result ε σ α → Option ε
  | .ok _ _ => none
  | .error e _ => some e

theorem exists_of_stoppedBy {r : EStateM.Result ε σ α} {e : ε} (h : stoppedBy r = some e) :
    ∃ t, r = .error e t := by
  cases r with
  | ok a t => cases h
  | error e' t =>
    cases h
    exact ⟨t, rfl⟩

/-- The program does not change `f` of the state, if it returns. -/
def Keeps {γ : Type} (f : σ → γ) (x : EStateM ε σ α) : Prop :=
  ∀ s, wp x (fun _ t => f t = f s) (fun _ _ => True) s

namespace Keeps

variable {γ : Type} {f : σ → γ}

protected theorem pure (a : α) : Keeps f (pure a : EStateM ε σ α) := fun _ => (wp_pure _).mpr rfl

protected theorem throw (e : ε) : Keeps f (throw e : EStateM ε σ α) :=
  fun _ => (wp_throw _).mpr trivial

protected theorem get : Keeps f (get : EStateM ε σ σ) := fun _ => (wp_get _).mpr rfl

protected theorem modify {g : σ → σ} (h : ∀ s, f (g s) = f s) :
    Keeps f (modify g : EStateM ε σ PUnit) :=
  fun s => (wp_modify _ _).mpr (h s)

protected theorem bind {x : EStateM ε σ α} {y : α → EStateM ε σ β} (hx : Keeps f x)
    (hy : ∀ a, Keeps f (y a)) : Keeps f (x >>= y) := by
  intro s
  rw [wp_bind]
  refine (hx s).imp ?_
  intro a t ht
  exact (hy a t).imp (fun _ _ hu => hu.trans ht)

protected theorem ite {b : Prop} [Decidable b] {x y : EStateM ε σ α} (hx : Keeps f x)
    (hy : Keeps f y) : Keeps f (if b then x else y) := by
  split
  · exact hx
  · exact hy

protected theorem forM {x : α → EStateM ε σ PUnit} (h : ∀ a, Keeps f (x a)) (l : List α) :
    Keeps f (l.forM x) := by
  induction l with
  | nil => exact Keeps.pure _
  | cons a l ih => exact (h a).bind fun _ => ih

end Keeps

-- programs with long loops are described by the rules, never by evaluation
attribute [irreducible] wp

end NaiLongKernel.Foundation
