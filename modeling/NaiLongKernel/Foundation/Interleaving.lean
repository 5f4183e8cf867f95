import Mathlib.Logic.Function.Basic
import Mathlib.Tactic

/-!
# Interleaved threads

Threads over a shared state take turns, one access at a time. An access of thread `i`
sees the shared state and the local state of `i` only, and may put something out, such
as the value that a call returns. An invariant that every access keeps holds in every
interleaving.
-/
namespace NaiLongKernel.Foundation

variable {σ ι τ ε ω : Type} [DecidableEq ι]

structure Threads (σ ι τ : Type) where
  shared : σ
  thread : ι → τ

/-- What an access of a thread does, or nothing when it cannot be made. -/
abbrev Access (σ ι τ ε ω : Type) := ι → ε → σ → τ → Option (σ × τ × Option ω)

/-- Thread `i` makes the access `e`. -/
def Threads.move (access : Access σ ι τ ε ω) (s : Threads σ ι τ) (i : ι) (e : ε) :
    Option (Threads σ ι τ × Option ω) :=
  (access i e s.shared (s.thread i)).map fun r =>
    (⟨r.1, Function.update s.thread i r.2.1⟩, r.2.2)

theorem Threads.move_eq_some {access : Access σ ι τ ε ω} {s s' : Threads σ ι τ} {i : ι} {e : ε}
    {o : Option ω} : s.move access i e = some (s', o) ↔
      ∃ sh t, access i e s.shared (s.thread i) = some (sh, t, o) ∧
        s' = ⟨sh, Function.update s.thread i t⟩ := by
  simp only [move, Option.map_eq_some_iff, Prod.exists, Prod.mk.injEq]
  constructor
  · rintro ⟨sh, t, o', h, rfl, rfl⟩
    exact ⟨sh, t, h, rfl⟩
  · rintro ⟨sh, t, h, rfl⟩
    exact ⟨sh, t, o, h, rfl, rfl⟩

/-- The states reached from `start` by accesses that `allowed` admits. -/
inductive Interleaved (access : Access σ ι τ ε ω) (allowed : Threads σ ι τ → ι → ε → Prop)
    (start : Threads σ ι τ) : Threads σ ι τ → Prop where
  | start : Interleaved access allowed start start
  | move {s s' : Threads σ ι τ} {i : ι} {e : ε} {o : Option ω} :
      Interleaved access allowed start s → allowed s i e → s.move access i e = some (s', o) →
      Interleaved access allowed start s'

variable {access : Access σ ι τ ε ω} {allowed : Threads σ ι τ → ι → ε → Prop}
variable {start s : Threads σ ι τ}

theorem Interleaved.invariant {I : Threads σ ι τ → Prop} (hstart : I start)
    (hmove : ∀ (s : Threads σ ι τ) i e sh t o, I s → allowed s i e →
      access i e s.shared (s.thread i) = some (sh, t, o) → I ⟨sh, Function.update s.thread i t⟩)
    (h : Interleaved access allowed start s) : I s := by
  induction h with
  | start => exact hstart
  | @move s s' i e o _ hok hs ih =>
    obtain ⟨sh, t, ha, rfl⟩ := Threads.move_eq_some.mp hs
    exact hmove s i e sh t o ih hok ha

theorem view_update {α : Type} (view : τ → α) (thread : ι → τ) (i : ι) (t : τ) :
    (fun j => view (Function.update thread i t j)) =
      Function.update (fun j => view (thread j)) i (view t) :=
  Function.comp_update view thread i t

def Threads.replay (access : Access σ ι τ ε ω) (check : Threads σ ι τ → ι → ε → Bool) :
    List (ι × ε) → Threads σ ι τ → Option (Threads σ ι τ)
  | [], s => some s
  | (i, e) :: rest, s =>
    if check s i e then (s.move access i e).bind fun r => Threads.replay access check rest r.1
    else none

theorem Interleaved.replay {check : Threads σ ι τ → ι → ε → Bool}
    (hcheck : ∀ s i e, check s i e = true → allowed s i e) {l : List (ι × ε)}
    {s' : Threads σ ι τ} (h : Interleaved access allowed start s)
    (hl : s.replay access check l = some s') : Interleaved access allowed start s' := by
  induction l generalizing s with
  | nil =>
    cases hl
    exact h
  | cons a rest ih =>
    simp only [Threads.replay] at hl
    split at hl
    · rename_i hok
      obtain ⟨⟨s₁, o⟩, hs₁, hl⟩ := Option.bind_eq_some_iff.mp hl
      exact ih (h.move (hcheck _ _ _ hok) hs₁) hl
    · cases hl

theorem Interleaved.exists_replay (check : Threads σ ι τ → ι → ε → Bool)
    (hcheck : ∀ s i e, check s i e = true → allowed s i e) (l : List (ι × ε))
    {R : Threads σ ι τ → Prop} [DecidablePred R]
    (hl : (start.replay access check l).any (fun s => decide (R s)) = true) :
    ∃ s, Interleaved access allowed start s ∧ R s := by
  cases hs : start.replay access check l with
  | none =>
    rw [hs] at hl
    cases hl
  | some s =>
    rw [hs] at hl
    exact ⟨s, Interleaved.start.replay hcheck hs, of_decide_eq_true hl⟩

end NaiLongKernel.Foundation
