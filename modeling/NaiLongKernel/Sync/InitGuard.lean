import NaiLongKernel.Foundation.Interleaving

/-!
# Guards of static initialisation

`__cxa_guard_acquire`, `__cxa_guard_release` and `__cxa_guard_abort` on one guard, as run
by any number of cores. The compare-exchange of the loop, the test of what it has read
and the two stores are steps of their own. A core whose acquire has returned 1 goes on
with a release or an abort. Beside the guard word, the state remembers whether a release
has happened.
-/
namespace NaiLongKernel.Sync

open Foundation

namespace GuardType

def kInitializedMask : BitVec 64 := 0x01

def kInUseMask : BitVec 64 := 0x100

end GuardType

open GuardType

structure GuardState where
  guard : BitVec 64 := 0
  /-- Some `__cxa_guard_release` has stored. -/
  released : Bool := false
deriving DecidableEq, Repr

/-- Where a core is. -/
inductive GuardPc where
  | outside
  /-- The weak compare-exchange of the loop, with the variable `expected`. -/
  | exchange (expected : BitVec 64)
  /-- It has failed and left the guard in `expected`. -/
  | test (expected : BitVec 64)
  | pause
  /-- The acquire has returned 1. -/
  | initialising
deriving DecidableEq, Repr

inductive GuardEvent where
  | acquire
  | next
  /-- `compare_exchange_weak` fails although the guard may have the expected value. -/
  | spurious
  | release
  | abort
deriving DecidableEq, Repr

/-- The next step of a core in `__cxa_guard_acquire`; the output is what it returns. -/
def guardNext (s : GuardState) : GuardPc → Option (GuardState × GuardPc × Option (BitVec 32))
  | .exchange expected =>
    if s.guard = expected then some ({ s with guard := kInUseMask }, .initialising, some 1)
    else some (s, .test s.guard, none)
  | .test expected =>
    if expected &&& kInitializedMask ≠ 0 then some (s, .outside, some 0)
    else some (s, .pause, none)
  | .pause => some (s, .exchange 0, none)
  | .outside => none
  | .initialising => none

def guardAccess {ι : Type} (_ : ι) (e : GuardEvent) (s : GuardState) (pc : GuardPc) :
    Option (GuardState × GuardPc × Option (BitVec 32)) :=
  match e with
  | .acquire => if pc = .outside then some (s, .exchange 0, none) else none
  | .next => guardNext s pc
  | .spurious =>
    match pc with
    | .exchange _ => some (s, .test s.guard, none)
    | _ => none
  | .release =>
    if pc = .initialising then
      some ({ s with guard := kInitializedMask, released := true }, .outside, none)
    else none
  | .abort =>
    if pc = .initialising then some ({ s with guard := 0 }, .outside, none) else none

variable {ι : Type}

/-- A new guard. -/
def Threads.unguarded : Threads GuardState ι GuardPc := ⟨{}, fun _ => .outside⟩

/-- What a core in `__cxa_guard_acquire` knows. -/
def GuardPc.Knows (released : Bool) : GuardPc → Prop
  | .exchange expected => expected = 0
  | .test expected => expected &&& kInitializedMask ≠ 0 → released = true
  | _ => True

theorem GuardPc.Knows.of_not_released {r r' : Bool} {pc : GuardPc} (h : pc.Knows r)
    (hr : r = false) : pc.Knows r' := by
  cases pc with
  | outside | pause | initialising => trivial
  | exchange expected => exact h
  | test expected =>
    intro hbit
    rw [hr] at h
    cases h hbit

theorem knows_update [DecidableEq ι] {thread : ι → GuardPc} {r : Bool} {i : ι} {pc : GuardPc}
    (h : ∀ j, (thread j).Knows r) (hpc : pc.Knows r) (j : ι) :
    (Function.update thread i pc j).Knows r := by
  by_cases hji : j = i
  · subst hji
    rw [Function.update_self]
    exact hpc
  · rw [Function.update_of_ne hji]
    exact h j

/-- One core at most initialises, and the guard word shows it or the release. -/
structure GuardSound (s : Threads GuardState ι GuardPc) : Prop where
  excl : ∀ i j, s.thread i = .initialising → s.thread j = .initialising → i = j
  inUse : ∀ i, s.thread i = .initialising →
    s.shared.guard = kInUseMask ∧ s.shared.released = false
  idle : (∀ i, s.thread i ≠ .initialising) →
    s.shared.guard = if s.shared.released then kInitializedMask else 0
  knows : ∀ i, (s.thread i).Knows s.shared.released

namespace GuardSound

variable {s : Threads GuardState ι GuardPc} {i : ι} {pc : GuardPc}

theorem unguarded : GuardSound (Threads.unguarded : Threads GuardState ι GuardPc) := by
  constructor <;> simp [Threads.unguarded, GuardPc.Knows]

theorem guard_of_released (h : GuardSound s) (hr : s.shared.released = true) :
    s.shared.guard = kInitializedMask := by
  rw [h.idle, if_pos hr]
  intro i hi
  have hnot := (h.inUse i hi).2
  rw [hr] at hnot
  cases hnot

theorem free_of_guard (h : GuardSound s) (hg : s.shared.guard = 0) :
    (∀ i, s.thread i ≠ .initialising) ∧ s.shared.released = false := by
  have hfree : ∀ i, s.thread i ≠ .initialising := by
    intro i hi
    rw [(h.inUse i hi).1] at hg
    cases hg
  refine ⟨hfree, ?_⟩
  cases hr : s.shared.released with
  | false => rfl
  | true =>
    rw [h.guard_of_released hr] at hg
    cases hg

theorem released_of_bit (h : GuardSound s) (hg : s.shared.guard &&& kInitializedMask ≠ 0) :
    s.shared.released = true := by
  by_contra hr
  rw [Bool.not_eq_true] at hr
  by_cases hfree : ∀ i, s.thread i ≠ .initialising
  · rw [h.idle hfree, hr] at hg
    simp at hg
  · push Not at hfree
    obtain ⟨i, hi⟩ := hfree
    rw [(h.inUse i hi).1] at hg
    exact hg (by decide)

variable [DecidableEq ι]

theorem keep (h : GuardSound s) (hold : s.thread i ≠ .initialising) (hnew : pc ≠ .initialising)
    (hpc : pc.Knows s.shared.released) :
    GuardSound ⟨s.shared, Function.update s.thread i pc⟩ := by
  have same : ∀ j, Function.update s.thread i pc j = .initialising ↔ s.thread j = .initialising := by
    intro j
    by_cases hji : j = i
    · subst hji
      simp [hold, hnew]
    · rw [Function.update_of_ne hji]
  constructor
  · intro j k hj hk
    exact h.excl j k ((same j).mp hj) ((same k).mp hk)
  · intro j hj
    exact h.inUse j ((same j).mp hj)
  · intro hnone
    apply h.idle
    intro j hj
    exact hnone j ((same j).mpr hj)
  · intro j
    exact knows_update h.knows hpc j

theorem obtains (h : GuardSound s) (hg : s.shared.guard = 0) :
    GuardSound ⟨{ s.shared with guard := kInUseMask },
      Function.update s.thread i .initialising⟩ := by
  obtain ⟨hfree, hr⟩ := h.free_of_guard hg
  have only : ∀ j, Function.update s.thread i .initialising j = .initialising → j = i := by
    intro j hj
    by_contra hji
    rw [Function.update_of_ne hji] at hj
    exact hfree j hj
  constructor
  · intro j k hj hk
    rw [only j hj, only k hk]
  · intro j _
    exact ⟨rfl, hr⟩
  · intro hnone
    exact absurd (Function.update_self i _ s.thread) (hnone i)
  · intro j
    have hpc : GuardPc.initialising.Knows s.shared.released := trivial
    exact knows_update h.knows hpc j

theorem finish (h : GuardSound s) (hi : s.thread i = .initialising) {sh : GuardState}
    (hword : sh.guard = if sh.released then kInitializedMask else 0) :
    GuardSound ⟨sh, Function.update s.thread i .outside⟩ := by
  have none : ∀ j, Function.update s.thread i .outside j ≠ .initialising := by
    intro j hj
    by_cases hji : j = i
    · subst hji
      rw [Function.update_self] at hj
      cases hj
    · rw [Function.update_of_ne hji] at hj
      exact hji (h.excl j i hj hi)
  constructor
  · intro j _ hj _
    exact absurd hj (none j)
  · intro j hj
    exact absurd hj (none j)
  · intro _
    exact hword
  · intro j
    -- before this store no release has happened, so no core has read the bit
    have hr := (h.inUse i hi).2
    have hpc : GuardPc.outside.Knows sh.released := trivial
    exact knows_update (fun k => (h.knows k).of_not_released hr) hpc j

theorem next {sh : GuardState} {o : Option (BitVec 32)} (h : GuardSound s)
    (ha : guardNext s.shared (s.thread i) = some (sh, pc, o)) :
    GuardSound ⟨sh, Function.update s.thread i pc⟩ := by
  have hknows := h.knows i
  cases hpc : s.thread i with
  | outside | initialising =>
    rw [hpc] at ha
    cases ha
  | pause =>
    rw [hpc] at ha
    cases ha
    exact h.keep (by simp [hpc]) (by simp) rfl
  | exchange expected =>
    rw [hpc] at ha hknows
    rw [guardNext] at ha
    split at ha
    · rename_i hg
      cases ha
      exact h.obtains (hg.trans hknows)
    · cases ha
      exact h.keep (by simp [hpc]) (by simp) h.released_of_bit
  | test expected =>
    rw [hpc, guardNext] at ha
    split at ha <;> cases ha
    all_goals exact h.keep (by simp [hpc]) (by simp) trivial

theorem access {e : GuardEvent} {sh : GuardState} {o : Option (BitVec 32)} (h : GuardSound s)
    (ha : guardAccess i e s.shared (s.thread i) = some (sh, pc, o)) :
    GuardSound ⟨sh, Function.update s.thread i pc⟩ := by
  cases e with
  | acquire =>
    obtain ⟨hpc, ha⟩ := Option.ite_none_right_eq_some.mp ha
    cases ha
    exact h.keep (by simp [hpc]) (by simp) rfl
  | next => exact h.next ha
  | spurious =>
    simp only [guardAccess] at ha
    split at ha
    · rename_i hpc
      cases ha
      exact h.keep (by simp [hpc]) (by simp) h.released_of_bit
    · cases ha
  | release =>
    obtain ⟨hpc, ha⟩ := Option.ite_none_right_eq_some.mp ha
    cases ha
    exact h.finish hpc rfl
  | abort =>
    obtain ⟨hpc, ha⟩ := Option.ite_none_right_eq_some.mp ha
    cases ha
    have hr := (h.inUse i hpc).2
    apply h.finish hpc
    simp [hr]

end GuardSound

/-- How many steps of its own a core in `__cxa_guard_acquire` is away from the return of 0
once a release has happened. -/
def GuardPc.rank : GuardPc → Nat
  | .test expected => if expected &&& kInitializedMask ≠ 0 then 1 else 4
  | .exchange _ => 2
  | .pause => 3
  | .outside => 0
  | .initialising => 0

namespace GuardSound

variable {s : Threads GuardState ι GuardPc} {i : ι} {pc : GuardPc} {e : GuardEvent}
variable {sh : GuardState} {o : Option (BitVec 32)}

theorem rank_test (h : GuardSound s) (hr : s.shared.released = true) :
    (GuardPc.test s.shared.guard).rank = 1 := by
  rw [h.guard_of_released hr]
  rfl

theorem step_of_released (h : GuardSound s) (hr : s.shared.released = true)
    (he : e = .next ∨ e = .spurious)
    (ha : guardAccess i e s.shared (s.thread i) = some (sh, pc, o)) :
    pc = .outside ∧ o = some 0 ∨ pc.rank < (s.thread i).rank ∧ o = none := by
  have hknows := h.knows i
  have htest := h.rank_test hr
  cases hpc : s.thread i with
  | outside | initialising =>
    rcases he with rfl | rfl <;> simp [guardAccess, guardNext, hpc] at ha
  | pause =>
    rcases he with rfl | rfl
    · rw [hpc] at ha
      cases ha
      exact .inr ⟨by decide, rfl⟩
    · simp [guardAccess, hpc] at ha
  | test expected =>
    rcases he with rfl | rfl
    · simp only [guardAccess, guardNext, hpc] at ha
      split at ha <;> cases ha
      · exact .inl ⟨rfl, rfl⟩
      · rename_i hbit
        refine .inr ⟨?_, rfl⟩
        simp only [GuardPc.rank, if_neg hbit]
        decide
    · simp [guardAccess, hpc] at ha
  | exchange expected =>
    rw [hpc] at hknows
    obtain rfl : expected = 0 := hknows
    rcases he with rfl | rfl
    · simp only [guardAccess, guardNext, hpc] at ha
      rw [if_neg] at ha
      · cases ha
        refine .inr ⟨?_, rfl⟩
        rw [htest]
        decide
      · rw [h.guard_of_released hr]
        decide
    · simp only [guardAccess, hpc] at ha
      cases ha
      refine .inr ⟨?_, rfl⟩
      rw [htest]
      decide

/-- An acquire returns 0 only when it has read the bit, and 1 only when the word was 0. -/
theorem returned (h : GuardSound s) {r : BitVec 32}
    (ha : guardAccess i e s.shared (s.thread i) = some (sh, pc, some r)) :
    r = 0 ∧ s.shared.released = true ∨
      r = 1 ∧ pc = .initialising ∧ s.shared.released = false := by
  have hknows := h.knows i
  cases e with
  | acquire | release | abort =>
    obtain ⟨-, ha⟩ := Option.ite_none_right_eq_some.mp ha
    cases ha
  | spurious =>
    simp only [guardAccess] at ha
    split at ha <;> cases ha
  | next =>
    cases hpc : s.thread i with
    | outside | initialising | pause =>
      rw [hpc] at ha
      cases ha
    | exchange expected =>
      rw [hpc] at hknows
      simp only [guardAccess, guardNext, hpc] at ha
      split at ha <;> cases ha
      rename_i hg
      exact .inr ⟨rfl, rfl, (h.free_of_guard (hg.trans hknows)).2⟩
    | test expected =>
      rw [hpc] at hknows
      simp only [guardAccess, guardNext, hpc] at ha
      split at ha <;> cases ha
      rename_i hbit
      exact .inl ⟨rfl, hknows hbit⟩

end GuardSound

variable [DecidableEq ι] {s s' : Threads GuardState ι GuardPc} {i : ι}

theorem GuardSound.run (h : Interleaved guardAccess (fun _ _ _ => True) s s')
    (hs : GuardSound s) : GuardSound s' :=
  h.invariant hs (fun _ _ _ _ _ _ hs _ ha => hs.access ha)

omit [DecidableEq ι] in
theorem released_access {e : GuardEvent} {sh sh' : GuardState} {pc pc' : GuardPc}
    {o : Option (BitVec 32)} (ha : guardAccess i e sh pc = some (sh', pc', o))
    (hr : sh.released = true) : sh'.released = true := by
  cases e with
  | acquire | release | abort =>
    obtain ⟨-, ha⟩ := Option.ite_none_right_eq_some.mp ha
    cases ha
    first | exact hr | rfl
  | spurious =>
    simp only [guardAccess] at ha
    split at ha <;> cases ha
    exact hr
  | next =>
    cases pc with
    | outside | initialising => cases ha
    | pause =>
      cases ha
      exact hr
    | exchange expected | test expected =>
      simp only [guardAccess, guardNext] at ha
      split at ha <;> cases ha
      all_goals exact hr

theorem released_run (h : Interleaved guardAccess (fun _ _ _ => True) s s')
    (hr : s.shared.released = true) : s'.shared.released = true :=
  h.invariant (I := fun s => s.shared.released = true) hr
    (fun _ _ _ _ _ _ hs _ ha => released_access ha hs)

/-- With `n` steps of its own at most the core gets 1 from its acquire. -/
def CanObtain (s : Threads GuardState ι GuardPc) (i : ι) (n : Nat) : Prop :=
  ∃ l : List GuardEvent, l.length ≤ n ∧ ∃ s',
    s.replay guardAccess (fun _ _ _ => true) (l.map fun e => (i, e)) = some s' ∧
      s'.thread i = .initialising

namespace CanObtain

theorem step (e : GuardEvent) (pc : GuardPc) {n : Nat}
    (ha : guardAccess i e s.shared (s.thread i) = some (s.shared, pc, none))
    (h : CanObtain ⟨s.shared, Function.update s.thread i pc⟩ i n) : CanObtain s i (n + 1) := by
  obtain ⟨l, hlen, s', hl, hs'⟩ := h
  refine ⟨e :: l, by simpa using hlen, s', ?_, hs'⟩
  simpa [Threads.replay, Threads.move, ha] using hl

theorem mono {m n : Nat} (hmn : m ≤ n) (h : CanObtain s i m) : CanObtain s i n := by
  obtain ⟨l, hlen, hl⟩ := h
  exact ⟨l, hlen.trans hmn, hl⟩

theorem exchange (hg : s.shared.guard = 0) (hi : s.thread i = .exchange 0) :
    CanObtain s i 1 := by
  have ha : guardAccess i .next s.shared (s.thread i) =
      some ({ s.shared with guard := kInUseMask }, .initialising, some 1) := by
    rw [hi]
    exact if_pos hg
  refine ⟨[.next], le_refl _, ⟨{ s.shared with guard := kInUseMask },
    Function.update s.thread i .initialising⟩, ?_, Function.update_self i _ s.thread⟩
  simp [Threads.replay, Threads.move, ha]

theorem pause (hg : s.shared.guard = 0) (hi : s.thread i = .pause) : CanObtain s i 2 := by
  apply step .next (.exchange 0)
  · rw [hi]
    rfl
  · exact exchange hg (Function.update_self i _ s.thread)

end CanObtain

theorem GuardSound.canObtain (h : GuardSound s) (hr : s.shared.released = false)
    (hfree : ∀ i, s.thread i ≠ .initialising) (i : ι) : CanObtain s i 3 := by
  have hg : s.shared.guard = 0 := by
    rw [h.idle hfree, hr]
    rfl
  have hknows := h.knows i
  cases hpc : s.thread i with
  | initialising => exact absurd hpc (hfree i)
  | outside =>
    apply CanObtain.mono (m := 2) (by decide)
    apply CanObtain.step .acquire (.exchange 0)
    · rw [hpc]
      rfl
    · exact CanObtain.exchange hg (Function.update_self i _ s.thread)
  | exchange expected =>
    rw [hpc] at hknows
    obtain rfl : expected = 0 := hknows
    exact (CanObtain.exchange hg hpc).mono (by decide)
  | pause => exact (CanObtain.pause hg hpc).mono (by decide)
  | test expected =>
    rw [hpc] at hknows
    apply CanObtain.step .next .pause
    · rw [hpc]
      apply if_neg
      intro hbit
      rw [hknows hbit] at hr
      cases hr
    · exact CanObtain.pause hg (Function.update_self i _ s.thread)

/-- In every state that any number of cores reach: at most one of them is between an acquire
that returned 1 and its release or abort; after a release no core is, every acquire that
returns gives 0, and a core in an acquire can go on and needs only so many steps as its rank;
an acquire returns 0 only after a release; without one, and when no core initialises, each
core can obtain 1. -/
theorem initialised_once
    (h : Interleaved guardAccess (fun _ _ _ => True) Threads.unguarded s) :
    (∀ i j, s.thread i = .initialising → s.thread j = .initialising → i = j) ∧
    (s.shared.released = true →
      ∀ s', Interleaved guardAccess (fun _ _ _ => True) s s' → ∀ i,
        s'.thread i ≠ .initialising ∧
        (0 < (s'.thread i).rank → (s'.move guardAccess i .next).isSome) ∧
        ∀ e s'' o, s'.move guardAccess i e = some (s'', o) →
          (∀ r, o = some r → r = 0) ∧
          (e = .next ∨ e = .spurious → o = none →
            (s''.thread i).rank < (s'.thread i).rank)) ∧
    (∀ i e s', s.move guardAccess i e = some (s', some 0) → s.shared.released = true) ∧
    (s.shared.released = false → (∀ i, s.thread i ≠ .initialising) → ∀ i, CanObtain s i 3) := by
  have hsound := GuardSound.unguarded.run h
  refine ⟨hsound.excl, ?_, ?_, hsound.canObtain⟩
  · intro hr s' hrun i
    have hs' := hsound.run hrun
    have hr' := released_run hrun hr
    refine ⟨?_, ?_, ?_⟩
    · intro hi
      have hnot := (hs'.inUse i hi).2
      rw [hr'] at hnot
      cases hnot
    · intro hrank
      simp only [Threads.move, Option.isSome_map]
      cases hpc : s'.thread i with
      | outside | initialising =>
        rw [hpc] at hrank
        cases hrank
      | pause => rfl
      | exchange expected | test expected =>
        simp only [guardAccess, guardNext]
        split <;> rfl
    · intro e s'' o hmove
      obtain ⟨sh, pc, ha, rfl⟩ := Threads.move_eq_some.mp hmove
      constructor
      · rintro r rfl
        rcases hs'.returned ha with ⟨h0, -⟩ | ⟨-, -, hnot⟩
        · exact h0
        · rw [hr'] at hnot
          cases hnot
      · rintro he rfl
        simp only [Function.update_self]
        rcases hs'.step_of_released hr' he ha with ⟨-, h0⟩ | ⟨hlt, -⟩
        · cases h0
        · exact hlt
  · intro i e s' hmove
    obtain ⟨sh, pc, ha, -⟩ := Threads.move_eq_some.mp hmove
    rcases hsound.returned ha with ⟨-, hr⟩ | ⟨h1, -⟩
    · exact hr
    · cases h1

/-- The first core gives up, the second initialises, the first waits for it and gets 0. -/
theorem initialised_once_example :
    ∃ s : Threads GuardState (Fin 2) GuardPc,
      Interleaved guardAccess (fun _ _ _ => True) Threads.unguarded s ∧
      (s.shared.released = true ∧ s.thread 0 = .test kInitializedMask) ∧
      ∀ s', Interleaved guardAccess (fun _ _ _ => True) s s' → ∀ i, s'.thread i ≠ .initialising := by
  have hrun : ∃ s : Threads GuardState (Fin 2) GuardPc,
      Interleaved guardAccess (fun _ _ _ => True) Threads.unguarded s ∧
      (s.shared.released = true ∧ s.thread 0 = .test kInitializedMask) := by
    apply Interleaved.exists_replay (fun _ _ _ => true) (fun _ _ _ _ => trivial)
      [(0, .acquire), (1, .acquire), (0, .next), (1, .next), (0, .abort), (1, .next),
        (1, .next), (0, .acquire), (1, .spurious), (1, .next), (1, .next), (1, .next),
        (0, .next), (0, .next), (0, .next), (1, .release), (0, .next)]
    decide
  obtain ⟨s, h, hs⟩ := hrun
  refine ⟨s, h, hs, ?_⟩
  intro s' hrun i
  exact ((initialised_once h).2.1 hs.1 s' hrun i).1

end NaiLongKernel.Sync
