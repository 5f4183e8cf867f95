import NaiLongKernel.Task.WakeupOrder

/-!
# How long a task sleeps

`Sleep` computes the tick at which the task wakes in 64 bits; the result is the least
number of ticks that covers the duration exactly when the product of the duration and the
tick rate fits.
-/
namespace NaiLongKernel.Task

open Foundation

variable {P : Platform} {k : Kernel} {p : Ptr} {t : TaskControlBlock} {c : CoreId}

/-- The numbers of ticks that last at least as long as the duration. -/
def enoughTicks (P : Platform) (ms : BitVec 64) : Set ℤ :=
  {n | 1 ≤ n ∧ (ms.toNat : ℤ) * P.tick.toNat ≤ n * 1000}

theorem toNat_sleepTicks (P : Platform) (ms : BitVec 64) :
    (sleepTicks P ms).toNat = max 1 ((ms.toNat * P.tick.toNat + 999) % 2^64 / 1000) := by
  have hticks : ((ms * P.tick + 1000 - 1) / 1000).toNat =
      (ms.toNat * P.tick.toNat + 999) % 2^64 / 1000 := by
    have hthousand : (1000 : BitVec 64).toNat = 1000 := rfl
    have hone : (1 : BitVec 64).toNat = 1 := rfl
    simp only [BitVec.toNat_udiv, BitVec.toNat_sub, BitVec.toNat_add, BitVec.toNat_mul, hthousand,
      hone]
    omega
  rw [sleepTicks]
  split
  · rename_i hzero
    rw [hzero] at hticks
    rw [← hticks]
    rfl
  · rename_i hne
    have hpos : ((ms * P.tick + 1000 - 1) / 1000).toNat ≠ 0 := by
      intro hz
      exact hne (BitVec.eq_of_toNat_eq hz)
    rw [hticks] at hpos ⊢
    omega

theorem duration_pos {ms : BitVec 64} (hms : ms ≠ 0) : 0 < ms.toNat * P.tick.toNat := by
  apply Nat.mul_pos
  · exact Nat.pos_of_ne_zero fun hz => hms (BitVec.eq_of_toNat_eq hz)
  · exact Nat.pos_of_ne_zero fun hz => P.tick_pos (BitVec.eq_of_toNat_eq hz)

theorem isLeast_enoughTicks {ms : BitVec 64} (hms : ms ≠ 0) (n : ℤ) :
    IsLeast (enoughTicks P ms) n ↔ n = ((ms.toNat * P.tick.toNat + 999) / 1000 : ℕ) := by
  have hpos := duration_pos (P := P) hms
  have hleast : IsLeast (enoughTicks P ms) ((ms.toNat * P.tick.toNat + 999) / 1000 : ℕ) := by
    simp only [IsLeast, lowerBounds, enoughTicks, Set.mem_ofPred_eq, ← Nat.cast_mul]
    generalize ms.toNat * P.tick.toNat = x at hpos ⊢
    refine ⟨⟨by omega, by omega⟩, ?_⟩
    rintro m ⟨-, hm⟩
    omega
  constructor
  · intro h
    exact h.unique hleast
  · rintro rfl
    exact hleast

theorem isLeast_sleepTicks_iff {ms : BitVec 64} (hms : ms ≠ 0) :
    IsLeast (enoughTicks P ms) ((sleepTicks P ms).toNat : ℤ) ↔
      ms.toNat * P.tick.toNat + 999 < 2^64 := by
  have hpos := duration_pos (P := P) hms
  rw [isLeast_enoughTicks hms, toNat_sleepTicks]
  generalize ms.toNat * P.tick.toNat = x at hpos ⊢
  omega

theorem sleepTicks_le {ms : BitVec 64} {n : ℤ} (hms : ms ≠ 0) (hn : IsLeast (enoughTicks P ms) n) :
    ((sleepTicks P ms).toNat : ℤ) ≤ n := by
  have hpos := hn.1.1
  rw [isLeast_enoughTicks hms] at hn
  rw [toNat_sleepTicks]
  generalize ms.toNat * P.tick.toNat = x at hn
  omega

theorem wp_sleepBody_wakeTick (ht : k.tasks p = some t) (ms : BitVec 64) {E : Fault → Kernel → Prop} :
    wp (sleepBody P c p ms) (fun _ k' =>
      k'.wakeTick = Function.update k.wakeTick p ((k.cpuSchedulers c).localTick + sleepTicks P ms) ∧
      (k'.cpuSchedulers c).localTick = (k.cpuSchedulers c).localTick ∧
      ∀ c', c' ≠ c → k'.cpuSchedulers c' = k.cpuSchedulers c') E k := by
  set wake := (k.cpuSchedulers c).localTick + sleepTicks P ms with hwake
  set t₁ := t.setWakeTick wake with ht₁
  have ht₁' : (k.setTask p t₁).tasks p = some t₁ := k.tasks_setTask_self p t₁
  have hset : ∀ {k₁ : Kernel} {u : TaskControlBlock}, k₁.tasks = (k.setTask p t₁).tasks →
      u.schedInfo.wakeTick = wake → (k₁.setTask p u).wakeTick = Function.update k.wakeTick p wake := by
    intro k₁ u hk hu
    funext q
    by_cases hq : q = p
    · rw [hq, Function.update_self, Kernel.wakeTick, k₁.tasks_setTask_self]
      exact hu
    · rw [Function.update_of_ne hq, Kernel.wakeTick, k₁.tasks_setTask_ne p u hq, hk,
        k.tasks_setTask_ne p t₁ hq]
      rfl
  simp only [sleepBody, wp_bind, wp_get, wp_updateTask ht, ← hwake, ← ht₁]
  rw [wp_readTask ht₁', Kernel.cpuSchedulers_setTask]
  cases hs : (k.cpuSchedulers c).schedulers t₁.policy with
  | none =>
    simp only [wp_bind, wp_get, wp_updateTask ht₁', wp_modifySched]
    refine ⟨hset rfl rfl, ?_, ?_⟩
    · rw [Kernel.cpuSchedulers_setSched_self]
      rfl
    · intro c' hc
      rw [Kernel.cpuSchedulers_setSched_ne _ _ _ hc]
      rfl
  | some s =>
    have ht₂ : ((k.setTask p t₁).setSched c ((k.cpuSchedulers c).setScheduler t₁.policy
        (s.dequeue p))).tasks p = some t₁ := ht₁'
    simp only [wp_bind, wp_get, wp_modifySched, Kernel.cpuSchedulers_setTask, wp_updateTask ht₂]
    refine ⟨hset rfl rfl, ?_, ?_⟩
    · rw [Kernel.cpuSchedulers_setSched_self, Kernel.cpuSchedulers_setSched_self]
      rfl
    · intro c' hc
      rw [Kernel.cpuSchedulers_setSched_ne _ _ _ hc, Kernel.cpuSchedulers_setTask,
        Kernel.cpuSchedulers_setSched_ne _ _ _ hc]
      rfl

/-- When the tick of the core plus the exact number of ticks fits in 64 bits, `Sleep` lets the
task wake after that number, which is the least that covers the duration and at least one,
exactly when the duration times the tick rate, rounded up, fits as well. -/
theorem sleep_ticks_exact_iff {ms : BitVec 64} (hms : ms ≠ 0) {n : ℤ}
    (hn : IsLeast (enoughTicks P ms) n) (hfit : (k.cpuSchedulers c).localTick.toNat + n < 2^64)
    (ht : k.tasks p = some t) :
    ∃ k', sleepBody P c p ms k = .ok () k' ∧
      (IsLeast (enoughTicks P ms)
          ((k'.wakeTick p).toNat - (k.cpuSchedulers c).localTick.toNat : ℤ) ↔
        ms.toNat * P.tick.toNat + 999 < 2^64) := by
  obtain ⟨_, k', hrun, hwake, -⟩ := (wp_sleepBody_wakeTick (P := P) (c := c)
    (E := fun _ _ => False) ht ms).returns
  refine ⟨k', hrun, ?_⟩
  have hle := sleepTicks_le hms hn
  have hsum : (k'.wakeTick p).toNat =
      (k.cpuSchedulers c).localTick.toNat + (sleepTicks P ms).toNat := by
    rw [hwake, Function.update_self, BitVec.toNat_add]
    exact Nat.mod_eq_of_lt (by omega)
  rw [← isLeast_sleepTicks_iff hms, hsum]
  push_cast
  rw [add_sub_cancel_left]

/-- Twenty milliseconds at 1000 Hz. -/
theorem sleep_ticks_exact_iff_example :
    ∃ k', sleepBody (presetPlatform true) 0 1 20 (({} : Kernel).setTask 1 { status := .kRunning }) =
        .ok () k' ∧
      IsLeast (enoughTicks (presetPlatform true) 20) ((k'.wakeTick 1).toNat - 0 : ℤ) := by
  have hn : IsLeast (enoughTicks (presetPlatform true) 20) 20 :=
    (isLeast_enoughTicks (by decide) 20).mpr (by decide)
  obtain ⟨k', hrun, hiff⟩ := sleep_ticks_exact_iff (c := 0) (by decide) hn (by decide)
    (({} : Kernel).tasks_setTask_self 1 { status := .kRunning })
  exact ⟨k', hrun, hiff.mpr (by decide)⟩

/-- A duration of 18446744073709552 milliseconds at 1000 Hz: the product wraps, and the task
wakes after one tick. -/
theorem sleep_wraps_to_one_tick :
    ∃ k k', SysRun (presetPlatform true) (fun k op => op.Careful k) k ∧
      (SysOp.sleep 0 18446744073709552).Enabled k ∧
      (sleep (presetPlatform true) 0 18446744073709552 : KernelM Unit) k = .ok () k' ∧
      k.running 0 = some 1 ∧ (k.cpuSchedulers 0).localTick = 0 ∧ k'.wakeTick 1 = 1 ∧
      IsLeast (enoughTicks (presetPlatform true) 18446744073709552) 18446744073709552 ∧
      (1 : ℤ) ∉ enoughTicks (presetPlatform true) 18446744073709552 := by
  have h₀ := SysRun.start (P := presetPlatform true) (A := fun k op => op.Careful k)
  have h₁ := h₀.step (.initCurrentCore 0 0) ⟨⟨rfl, rfl, fun _ => rfl⟩, rfl⟩ trivial rfl
  have h₂ := h₁.step (.addTask 0 1 {}) ⟨rfl, rfl, rfl, rfl⟩ trivial rfl
  have h₃ := h₂.step (.schedule 0) ⟨0, rfl⟩ trivial rfl
  refine ⟨_, _, h₃, ⟨1, rfl, by decide⟩, rfl, rfl, rfl, rfl, ?_, ?_⟩
  · exact (isLeast_enoughTicks (by decide) _).mpr (by decide)
  · rintro ⟨-, hshort⟩
    exact absurd hshort (by decide)

end NaiLongKernel.Task
