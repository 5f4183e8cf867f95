import Mathlib.Tactic

/-!
# Runs of a machine

The states that a machine reaches from a start by actions that are allowed. The machine
is a partial function, so that a list of actions can be run; a condition on the actions
may speak of the state in which each is taken.
-/
namespace NaiLongKernel.Foundation

variable {σ α : Type}

inductive Reached (step : σ → α → Option σ) (allowed : σ → α → Prop) (start : σ) : σ → Prop where
  | start : Reached step allowed start start
  | step {s s' : σ} (a : α) : Reached step allowed start s → allowed s a → step s a = some s' →
      Reached step allowed start s'

namespace Reached

variable {step : σ → α → Option σ} {allowed : σ → α → Prop} {start s : σ}

theorem invariant {I : σ → Prop} (hstart : I start)
    (hstep : ∀ s a s', I s → allowed s a → step s a = some s' → I s')
    (h : Reached step allowed start s) : I s := by
  induction h with
  | start => exact hstart
  | step a _ hok hs ih => exact hstep _ a _ ih hok hs

theorem mono {allowed' : σ → α → Prop} (h : Reached step allowed start s)
    (hallowed : ∀ s a, allowed s a → allowed' s a) : Reached step allowed' start s := by
  induction h with
  | start => exact .start
  | step a _ hok hs ih => exact ih.step a (hallowed _ a hok) hs

theorem replay {check : σ → α → Bool}
    (hcheck : ∀ s a, Reached step allowed start s → check s a = true → allowed s a)
    {l : List α} {s' : σ} (h : Reached step allowed start s)
    (hl : l.foldlM (fun s a => if check s a then step s a else none) s = some s') :
    Reached step allowed start s' := by
  induction l generalizing s with
  | nil =>
    cases hl
    exact h
  | cons a rest ih =>
    rw [List.foldlM_cons] at hl
    obtain ⟨s₁, hs₁, hl⟩ := Option.bind_eq_some_iff.mp hl
    split at hs₁
    · rename_i hok
      exact ih (h.step a (hcheck s a h hok) hs₁) hl
    · cases hs₁

/-- A list of actions leads to a state with a decidable property. -/
theorem exists_replay (h : Reached step allowed start s) (check : σ → α → Bool)
    (hcheck : ∀ s a, Reached step allowed start s → check s a = true → allowed s a) (l : List α) {R : σ → Prop} [DecidablePred R]
    (hl : (l.foldlM (fun s a => if check s a then step s a else none) s).any
      (fun s => decide (R s)) = true) :
    ∃ s, Reached step allowed start s ∧ R s := by
  cases hs : l.foldlM (fun s a => if check s a then step s a else none) s with
  | none =>
    rw [hs] at hl
    cases hl
  | some s' =>
    rw [hs] at hl
    exact ⟨s', h.replay hcheck hs, of_decide_eq_true hl⟩

end Reached

/-! ## Machines without a choice -/

/-- The machine comes to an end, and on the way every state is good. -/
def Settles (step : σ → σ) (done good : σ → Prop) (s : σ) : Prop :=
  (∃ n, done (step^[n] s)) ∧ ∀ n, good (step^[n] s)

section Settles

variable {step : σ → σ} {done good : σ → Prop} {s : σ}

theorem settles_iff (hdone : done s → done (step s)) :
    Settles step done good s ↔ good s ∧ Settles step done good (step s) := by
  constructor
  · rintro ⟨⟨n, hn⟩, hgood⟩
    refine ⟨hgood 0, ?_, fun n => hgood (n+1)⟩
    cases n with
    | zero => exact ⟨0, hdone hn⟩
    | succ n => exact ⟨n, hn⟩
  · rintro ⟨hs, ⟨n, hn⟩, hgood⟩
    refine ⟨⟨n+1, hn⟩, ?_⟩
    intro n
    cases n with
    | zero => exact hs
    | succ n => exact hgood n

theorem settles_of_fixed (hfixed : step s = s) (hdone : done s) (hgood : good s) :
    Settles step done good s := by
  have hn : ∀ n, step^[n] s = s := Function.iterate_fixed hfixed
  exact ⟨⟨0, hdone⟩, fun n => by rwa [hn]⟩

/-- An invariant without an end keeps the machine going. -/
theorem not_done_of_invariant {I : σ → Prop} (hs : I s) (hstep : ∀ s, I s → I (step s))
    (hend : ∀ s, I s → ¬ done s) (n : ℕ) : ¬ done (step^[n] s) := by
  have hI : I (step^[n] s) := by
    induction n with
    | zero => exact hs
    | succ n ih =>
      rw [Function.iterate_succ_apply']
      exact hstep _ ih
  exact hend _ hI

end Settles

end NaiLongKernel.Foundation
