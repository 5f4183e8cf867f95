import Mathlib.Data.Set.Function
import Mathlib.Logic.Function.Basic
import Mathlib.Tactic

/-!
# A flag with an owner

A lock kept in two registers: a flag that is set by whoever acquires the lock, and the id
of the owner, which is stored after the flag is set and overwritten before it is cleared.
Each party is free, has the flag only, or has both; the invariant says that one party at
most is not free and that the registers show it. Ids need only be distinct among the
parties `T` that take part.
-/
namespace NaiLongKernel.Foundation

variable {ι κ : Type}

inductive FlagPhase where
  | free
  /-- The flag is set by this party; its id is not stored, or no longer. -/
  | taken
  | named
deriving DecidableEq, Repr

/-- The phase of a party between two calls. -/
def FlagPhase.settled (held : Bool) : FlagPhase := if held then .named else .free

@[simp] theorem FlagPhase.settled_true : FlagPhase.settled true = .named := rfl

@[simp] theorem FlagPhase.settled_eq_named {held : Bool} :
    FlagPhase.settled held = .named ↔ held = true := by
  cases held <;> simp [settled]

@[simp] theorem FlagPhase.settled_eq_free {held : Bool} :
    FlagPhase.settled held = .free ↔ held = false := by
  cases held <;> simp [settled]

structure OwnedFlag (id : ι → κ) (T : Set ι) (flag : Bool) (owner : κ) (phase : ι → FlagPhase) :
    Prop where
  excl : ∀ i j, phase i ≠ .free → phase j ≠ .free → i = j
  flag : flag = true ↔ ∃ i, phase i ≠ .free
  named : ∀ i ∈ T, phase i = .named ↔ owner = id i

namespace OwnedFlag

variable {id : ι → κ} {T : Set ι} {flag : Bool} {owner : κ} {phase : ι → FlagPhase} {i j : ι}

theorem flag_of_ne (h : OwnedFlag id T flag owner phase) (hi : phase i ≠ .free) : flag = true :=
  h.flag.mpr ⟨i, hi⟩

theorem free_of_flag (h : OwnedFlag id T false owner phase) (i : ι) : phase i = .free := by
  by_contra hi
  exact Bool.noConfusion (h.flag_of_ne hi)

theorem free_of_ne (h : OwnedFlag id T flag owner phase) (hi : phase i ≠ .free) (hj : j ≠ i) :
    phase j = .free := by
  by_contra hfree
  exact hj (h.excl j i hfree hi)

variable [DecidableEq ι]

theorem excl_update (h : ∀ j, j ≠ i → phase j = .free) (ph : FlagPhase) (a b : ι)
    (ha : Function.update phase i ph a ≠ .free) (hb : Function.update phase i ph b ≠ .free) :
    a = b := by
  have only : ∀ c, Function.update phase i ph c ≠ .free → c = i := by
    intro c hc
    by_contra hne
    rw [Function.update_of_ne hne] at hc
    exact hc (h c hne)
  rw [only a ha, only b hb]

theorem acquire (h : OwnedFlag id T false owner phase) (i : ι) :
    OwnedFlag id T true owner (Function.update phase i .taken) where
  excl := excl_update (fun j _ => h.free_of_flag j) _
  flag := by
    simp only [true_iff]
    exact ⟨i, by simp⟩
  named := by
    intro j hj
    have hold := h.named j hj
    rw [h.free_of_flag j] at hold
    by_cases hji : j = i
    · subst hji
      simpa using hold
    · simpa [hji, h.free_of_flag j] using hold

theorem rename (h : OwnedFlag id T flag owner phase) (hi : phase i ≠ .free) {ph : FlagPhase}
    (hph : ph ≠ .free) {owner' : κ} (hself : i ∈ T → (ph = .named ↔ owner' = id i))
    (hother : ∀ j ∈ T, j ≠ i → owner' ≠ id j) :
    OwnedFlag id T flag owner' (Function.update phase i ph) where
  excl := excl_update (fun j hj => h.free_of_ne hi hj) _
  flag := by
    have hset : flag = true := h.flag_of_ne hi
    simp only [hset, true_iff]
    exact ⟨i, by simpa using hph⟩
  named := by
    intro j hj
    by_cases hji : j = i
    · subst hji
      simpa using hself hj
    · simp [hji, h.free_of_ne hi hji, hother j hj hji]

theorem name (h : OwnedFlag id T flag owner phase) (hinj : Set.InjOn id T) (hT : i ∈ T)
    (hi : phase i = .taken) : OwnedFlag id T flag (id i) (Function.update phase i .named) := by
  apply h.rename
  · simp [hi]
  · simp
  · simp
  · intro j hj hji he
    exact hji (hinj hj hT he.symm)

theorem unname (h : OwnedFlag id T flag owner phase) {none : κ} (hnone : ∀ j ∈ T, none ≠ id j)
    (hi : phase i = .named) : OwnedFlag id T flag none (Function.update phase i .taken) := by
  apply h.rename
  · simp [hi]
  · simp
  · intro hT
    simpa using hnone i hT
  · intro j hj _
    exact hnone j hj

theorem release (h : OwnedFlag id T flag owner phase) (hi : phase i = .taken) :
    OwnedFlag id T false owner (Function.update phase i .free) where
  excl := excl_update (fun j hj => h.free_of_ne (by simp [hi]) hj) _
  flag := by
    have hfree : ∀ j, Function.update phase i .free j = .free := by
      intro j
      by_cases hji : j = i
      · simp [hji]
      · simpa [hji] using h.free_of_ne (by simp [hi]) hji
    simp [hfree]
  named := by
    intro j hj
    have hold := h.named j hj
    by_cases hji : j = i
    · subst hji
      simpa [hi] using hold
    · simpa [hji] using hold

theorem keep (h : OwnedFlag id T flag owner phase) {ph : FlagPhase} (hi : ph = phase i) :
    OwnedFlag id T flag owner (Function.update phase i ph) := by
  rw [hi, Function.update_eq_self]
  exact h

end OwnedFlag

end NaiLongKernel.Foundation
