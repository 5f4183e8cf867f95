import NaiLongKernel.Foundation.Interleaving
import NaiLongKernel.Foundation.OwnedFlag
import NaiLongKernel.Task.ControlBlock

/-!
# Mutexes

`Mutex::Lock`, `Mutex::TryLock` and `Mutex::UnLock` as run by any number of tasks, one
access to `locked_` or `owner_` at a time. The calls of the task manager in the loop of
`Lock` and at the end of `UnLock` are steps that do not touch the mutex; here a task may
come back from `Block` at any moment. Each task remembers whether its last successful call
took the mutex.
-/
namespace NaiLongKernel.Task

open Foundation

/-- `std::numeric_limits<Pid>::max()`. -/
def noOwner : Pid := BitVec.allOnes 64

structure Mutex where
  locked : Bool := false
  owner : Pid := noOwner
deriving DecidableEq, Repr

/-- Where a task is in a call. -/
inductive MutexPc where
  | outside
  /-- `Lock`: `IsLockedByCurrentTask`, in two loads. -/
  | lockTest
  | lockOwner
  /-- The weak exchange of the loop, and its body: `DisableInterrupt`, the two parts of
  `Block` and `EnableInterrupt`. -/
  | lockCas
  | lockFailed
  | lockBlocking
  | lockRegistered
  | lockResumed
  | lockStore
  | tryTest
  | tryOwner
  | tryCas
  | tryStore
  | unLockTest
  | unLockOwner
  | clearOwner
  | clearLocked
  /-- `Wakeup`. -/
  | waking
deriving DecidableEq, Repr

structure MutexUser where
  pc : MutexPc := .outside
  /-- Its last successful call was `Lock` or `TryLock`. -/
  held : Bool := false
deriving DecidableEq, Repr

inductive MutexEvent where
  | lock
  | tryLock
  | unLock
  | next
  /-- `compare_exchange_weak` fails although the mutex may be free. -/
  | spurious
deriving DecidableEq, Repr

/-- The end of a call. -/
inductive MutexReturned where
  | lock (result : Bool)
  | tryLock (result : Bool)
  | unLock (result : Bool)
deriving DecidableEq, Repr

namespace MutexUser

def goto (t : MutexUser) (pc : MutexPc) : MutexUser := { t with pc := pc }

def leave (held : Bool) : MutexUser := { pc := .outside, held := held }

end MutexUser

def Mutex.advance (pid : Pid) (m : Mutex) (t : MutexUser) :
    Option (Mutex × MutexUser × Option MutexReturned) :=
  match t.pc with
  | .outside => none
  | .lockTest =>
    if m.locked then some (m, t.goto .lockOwner, none) else some (m, t.goto .lockCas, none)
  | .lockOwner =>
    if m.owner = pid then some (m, t.goto .outside, some (.lock false))
    else some (m, t.goto .lockCas, none)
  | .lockCas =>
    if m.locked then some (m, t.goto .lockFailed, none)
    else some ({ m with locked := true }, t.goto .lockStore, none)
  | .lockFailed => some (m, t.goto .lockBlocking, none)
  | .lockBlocking => some (m, t.goto .lockRegistered, none)
  | .lockRegistered => some (m, t.goto .lockResumed, none)
  | .lockResumed => some (m, t.goto .lockCas, none)
  | .lockStore => some ({ m with owner := pid }, .leave true, some (.lock true))
  | .tryTest =>
    if m.locked then some (m, t.goto .tryOwner, none) else some (m, t.goto .tryCas, none)
  | .tryOwner =>
    if m.owner = pid then some (m, t.goto .outside, some (.tryLock false))
    else some (m, t.goto .tryCas, none)
  | .tryCas =>
    if m.locked then some (m, t.goto .outside, some (.tryLock false))
    else some ({ m with locked := true }, t.goto .tryStore, none)
  | .tryStore => some ({ m with owner := pid }, .leave true, some (.tryLock true))
  | .unLockTest =>
    if m.locked then some (m, t.goto .unLockOwner, none)
    else some (m, t.goto .outside, some (.unLock false))
  | .unLockOwner =>
    if m.owner = pid then some (m, t.goto .clearOwner, none)
    else some (m, t.goto .outside, some (.unLock false))
  | .clearOwner => some ({ m with owner := noOwner }, t.goto .clearLocked, none)
  | .clearLocked => some ({ m with locked := false }, t.goto .waking, none)
  | .waking => some (m, .leave false, some (.unLock true))

variable {ι : Type}

def mutexAccess (pid : ι → Pid) : Access Mutex ι MutexUser MutexEvent MutexReturned
  | _, .lock, m, t => if t.pc = .outside then some (m, t.goto .lockTest, none) else none
  | _, .tryLock, m, t => if t.pc = .outside then some (m, t.goto .tryTest, none) else none
  | _, .unLock, m, t => if t.pc = .outside then some (m, t.goto .unLockTest, none) else none
  | _, .spurious, m, t => if t.pc = .lockCas then some (m, t.goto .lockFailed, none) else none
  | i, .next, m, t => m.advance (pid i) t

def Threads.unlocked : Threads Mutex ι MutexUser := ⟨{}, fun _ => {}⟩

/-- What the task has of the mutex: the flag alone, or the flag and the owner register. -/
def MutexUser.phase (t : MutexUser) : FlagPhase :=
  match t.pc with
  | .lockStore | .tryStore | .clearLocked => .taken
  | .clearOwner => .named
  | .waking => .free
  | _ => .settled t.held

/-- The loop of `Lock`. -/
def MutexPc.waiting : MutexPc → Bool
  | .lockCas | .lockFailed | .lockBlocking | .lockRegistered | .lockResumed => true
  | _ => false

/-- What the place in the code says about the last successful call. -/
def MutexUser.Consistent (t : MutexUser) : Prop :=
  match t.pc with
  | .lockCas | .lockFailed | .lockBlocking | .lockRegistered | .lockResumed | .lockStore
  | .tryCas | .tryStore => t.held = false
  | .clearOwner | .clearLocked | .waking => t.held = true
  | _ => True

/-- One task at most has set the flag, and the registers show it. Pids are distinct among
the tasks `T` that use the mutex. -/
structure MutexSound (pid : ι → Pid) (T : Set ι) (s : Threads Mutex ι MutexUser) : Prop where
  owned : OwnedFlag pid T s.shared.locked s.shared.owner fun i => (s.thread i).phase
  consistent : ∀ i, (s.thread i).Consistent

/-- The pids of the tasks are distinct, and none is the value of a mutex without owner. -/
structure ProperPids (pid : ι → Pid) (T : Set ι) : Prop where
  distinct : Set.InjOn pid T
  ne_noOwner : ∀ i ∈ T, noOwner ≠ pid i

namespace MutexSound

variable {pid : ι → Pid} {T : Set ι} {s : Threads Mutex ι MutexUser} {m : Mutex} {i : ι}
  {t : MutexUser} {o : Option MutexReturned}

theorem unlocked (hpid : ProperPids pid T) : MutexSound pid T Threads.unlocked where
  owned := by
    constructor
    · simp [MutexUser.phase, Threads.unlocked]
    · simp [MutexUser.phase, Threads.unlocked]
    · intro i hi
      simpa [MutexUser.phase, Threads.unlocked] using hpid.ne_noOwner i hi
  consistent _ := trivial

theorem not_held (h : MutexSound pid T s) (hi : i ∈ T)
    (hphase : (s.thread i).phase = .settled (s.thread i).held)
    (htest : s.shared.locked = false ∨ s.shared.owner ≠ pid i) : (s.thread i).held = false := by
  by_contra hheld
  have hnamed : (s.thread i).phase = .named := by
    rw [hphase, Bool.eq_true_of_not_eq_false hheld]
    rfl
  rcases htest with hfree | hother
  · have hset := h.owned.flag_of_ne (i := i) (by simp [hnamed])
    rw [hfree] at hset
    cases hset
  · exact hother ((h.owned.named i hi).mp hnamed)

variable [DecidableEq ι]

theorem update (h : MutexSound pid T s)
    (howned : OwnedFlag pid T m.locked m.owner
      (Function.update (fun j => (s.thread j).phase) i t.phase))
    (hcons : t.Consistent) : MutexSound pid T ⟨m, Function.update s.thread i t⟩ where
  owned := by
    simp only [view_update]
    exact howned
  consistent := by
    intro j
    by_cases hj : j = i
    · subst hj
      simpa using hcons
    · simpa [hj] using h.consistent j

theorem keep (h : MutexSound pid T s) (hphase : t.phase = (s.thread i).phase)
    (hcons : t.Consistent) : MutexSound pid T ⟨s.shared, Function.update s.thread i t⟩ :=
  h.update (h.owned.keep hphase) hcons

theorem take (h : MutexSound pid T s) (hfree : s.shared.locked = false)
    (hphase : t.phase = .taken) (hcons : t.Consistent) :
    MutexSound pid T ⟨{ s.shared with locked := true }, Function.update s.thread i t⟩ := by
  apply h.update _ hcons
  rw [hphase]
  have howned := h.owned
  rw [hfree] at howned
  exact howned.acquire i

theorem advance (h : MutexSound pid T s) (hpid : ProperPids pid T) (hi : i ∈ T)
    (ha : s.shared.advance (pid i) (s.thread i) = some (m, t, o)) :
    MutexSound pid T ⟨m, Function.update s.thread i t⟩ := by
  have hcons := h.consistent i
  have hnot := h.not_held hi
  have hnamed := (h.owned.named i hi).mpr
  cases hpc : (s.thread i).pc with
  | outside => simp [Mutex.advance, hpc] at ha
  | lockTest | tryTest | unLockTest | lockOwner | tryOwner | unLockOwner =>
    simp only [Mutex.advance, hpc] at ha
    split at ha
    all_goals
      cases ha
      apply h.keep <;> simp_all [MutexUser.phase, MutexUser.Consistent, MutexUser.goto]
  | lockCas | tryCas =>
    simp only [Mutex.advance, hpc] at ha
    simp only [MutexUser.Consistent, hpc] at hcons
    split at ha
    · cases ha
      apply h.keep <;> simp [MutexUser.phase, MutexUser.Consistent, MutexUser.goto, hpc, hcons]
    · rename_i hfree
      cases ha
      exact h.take (Bool.eq_false_of_not_eq_true hfree) rfl hcons
  | lockFailed | lockBlocking | lockRegistered | lockResumed | waking =>
    simp only [Mutex.advance, hpc] at ha
    cases ha
    simp only [MutexUser.Consistent, hpc] at hcons
    apply h.keep <;>
      simp [MutexUser.phase, MutexUser.Consistent, MutexUser.goto, MutexUser.leave, hpc, hcons]
  | lockStore | tryStore =>
    simp only [Mutex.advance, hpc] at ha
    cases ha
    apply h.update (h.owned.name hpid.distinct hi (by simp [MutexUser.phase, hpc]))
    simp [MutexUser.Consistent, MutexUser.leave]
  | clearOwner =>
    simp only [Mutex.advance, hpc] at ha
    cases ha
    apply h.update (h.owned.unname hpid.ne_noOwner (by simp [MutexUser.phase, hpc]))
    simpa [MutexUser.Consistent, MutexUser.goto, hpc] using hcons
  | clearLocked =>
    simp only [Mutex.advance, hpc] at ha
    cases ha
    apply h.update (h.owned.release (by simp [MutexUser.phase, hpc]))
    simpa [MutexUser.Consistent, MutexUser.goto, hpc] using hcons

theorem access {e : MutexEvent} (h : MutexSound pid T s) (hpid : ProperPids pid T) (hi : i ∈ T)
    (ha : mutexAccess pid i e s.shared (s.thread i) = some (m, t, o)) :
    MutexSound pid T ⟨m, Function.update s.thread i t⟩ := by
  have hcons := h.consistent i
  cases e with
  | next => exact h.advance hpid hi ha
  | lock | tryLock | unLock | spurious =>
    simp only [mutexAccess] at ha
    split at ha
    · rename_i hpc
      cases ha
      simp only [MutexUser.Consistent, hpc] at hcons
      apply h.keep <;> simp [MutexUser.phase, MutexUser.Consistent, MutexUser.goto, hpc, hcons]
    · cases ha

end MutexSound

section Calls

variable {pid : ι → Pid} {T : Set ι} {s : Threads Mutex ι MutexUser} {i : ι}

/-- Between a successful `Lock` or `TryLock` and the moment at which `UnLock` gives the
mutex up. -/
def MutexUser.Inside (t : MutexUser) : Prop := t.held = true ∧ t.pc ≠ .waking

theorem MutexUser.Inside.phase_ne_free {t : MutexUser} (h : t.Inside) : t.phase ≠ .free := by
  obtain ⟨hheld, hwaking⟩ := h
  cases hpc : t.pc <;> simp_all [MutexUser.phase]

/-- What a call returns to a task, given whether the task held the mutex when it called. -/
def MutexReturned.Correct (held : Bool) : MutexReturned → Prop
  | .lock b => b = !held
  | .tryLock b => held = true → b = false
  | .unLock b => b = held

theorem MutexSound.returns {m : Mutex} {t : MutexUser} {o : MutexReturned}
    (h : MutexSound pid T s) (hi : i ∈ T)
    (ha : s.shared.advance (pid i) (s.thread i) = some (m, t, some o)) :
    o.Correct (s.thread i).held := by
  have hcons := h.consistent i
  have hnot := h.not_held hi
  have hnamed := (h.owned.named i hi).mpr
  cases hpc : (s.thread i).pc with
  | outside | lockFailed | lockBlocking | lockRegistered | lockResumed | clearOwner
  | clearLocked => simp [Mutex.advance, hpc] at ha
  | lockTest | tryTest | lockCas =>
    simp only [Mutex.advance, hpc] at ha
    split at ha <;> simp at ha
  | lockStore | tryStore | waking =>
    simp only [Mutex.advance, hpc] at ha
    cases ha
    simp only [MutexUser.Consistent, hpc] at hcons
    simp [MutexReturned.Correct, hcons]
  | lockOwner | tryOwner | tryCas | unLockTest | unLockOwner =>
    simp only [Mutex.advance, hpc] at ha
    split at ha
    all_goals
      simp only [Option.some.injEq, Prod.mk.injEq, reduceCtorEq, and_false] at ha
      try
        obtain ⟨-, -, rfl⟩ := ha
        simp_all [MutexReturned.Correct, MutexUser.phase]

/-- The accesses of `Lock` and `TryLock`. -/
def MutexPc.locking : MutexPc → Bool
  | .lockTest | .lockOwner | .lockCas | .lockFailed | .lockBlocking | .lockRegistered
  | .lockResumed | .lockStore | .tryTest | .tryOwner | .tryCas | .tryStore => true
  | _ => false

theorem MutexSound.unchanged {m : Mutex} {t : MutexUser} {o : Option MutexReturned}
    (h : MutexSound pid T s) (hheld : (s.thread i).held = true)
    (hlock : (s.thread i).pc.locking = true)
    (ha : s.shared.advance (pid i) (s.thread i) = some (m, t, o)) : m = s.shared := by
  have hcons := h.consistent i
  cases hpc : (s.thread i).pc with
  | outside | unLockTest | unLockOwner | clearOwner | clearLocked | waking =>
    rw [hpc] at hlock
    cases hlock
  | lockCas | lockFailed | lockBlocking | lockRegistered | lockResumed | lockStore | tryCas
  | tryStore =>
    simp only [MutexUser.Consistent, hpc, hheld] at hcons
    cases hcons
  | lockTest | lockOwner | tryTest | tryOwner =>
    simp only [Mutex.advance, hpc] at ha
    split at ha
    all_goals
      simp only [Option.some.injEq, Prod.mk.injEq] at ha
      exact ha.1.symm

/-- How many accesses a call takes at most, outside the loop of `Lock`. -/
def MutexPc.remaining : MutexPc → ℕ
  | .outside => 0
  | .lockTest => 4
  | .lockOwner => 3
  | .lockCas | .lockFailed | .lockBlocking | .lockRegistered | .lockResumed => 2
  | .lockStore => 1
  | .tryTest => 4
  | .tryOwner => 3
  | .tryCas => 2
  | .tryStore => 1
  | .unLockTest => 5
  | .unLockOwner => 4
  | .clearOwner => 3
  | .clearLocked => 2
  | .waking => 1

theorem Mutex.advance_proceeds (p : Pid) (m : Mutex) {t : MutexUser} (hpc : t.pc ≠ .outside)
    (hwait : t.pc.waiting = false) :
    ∃ m' t' o, m.advance p t = some (m', t', o) ∧
      (o = none → t'.pc.remaining < t.pc.remaining) := by
  cases hp : t.pc with
  | outside => exact absurd hp hpc
  | lockCas | lockFailed | lockBlocking | lockRegistered | lockResumed =>
    rw [hp] at hwait
    cases hwait
  | lockTest | lockOwner | tryTest | tryOwner | tryCas | unLockTest | unLockOwner =>
    simp only [Mutex.advance, hp]
    split <;> simp [MutexUser.goto, MutexPc.remaining]
  | lockStore | tryStore | clearOwner | clearLocked | waking =>
    simp [Mutex.advance, hp, MutexUser.goto, MutexPc.remaining]

theorem MutexSound.not_waiting (h : MutexSound pid T s) (hheld : (s.thread i).held = true) :
    (s.thread i).pc.waiting = false := by
  have hcons := h.consistent i
  cases hpc : (s.thread i).pc <;> simp_all [MutexUser.Consistent, MutexPc.waiting]

theorem MutexSound.settled (h : MutexSound pid Set.univ s)
    (hout : ∀ i, (s.thread i).pc = .outside) :
    (s.shared.locked = true ↔ ∃ i, (s.thread i).held = true) ∧
      ∀ i, (s.thread i).held = true → s.shared.owner = pid i := by
  have hphase : ∀ i, (s.thread i).phase = .settled (s.thread i).held := by
    intro i
    simp [MutexUser.phase, hout i]
  constructor
  · rw [h.owned.flag]
    apply exists_congr
    intro i
    rw [hphase i]
    simp
  · intro i hheld
    apply (h.owned.named i trivial).mp
    rw [hphase i, hheld]
    rfl

end Calls

section Runs

variable [DecidableEq ι] {pid : ι → Pid} {s : Threads Mutex ι MutexUser}

/-- Mutual exclusion and ownership, for any number of tasks and any interleaving of their
accesses, provided that no task has the pid that stands for no owner. -/
theorem mutex_excludes (hdistinct : Function.Injective pid) (hpid : ∀ i, pid i ≠ noOwner)
    (h : Interleaved (mutexAccess pid) (fun _ _ _ => True) Threads.unlocked s) :
    (∀ i j, (s.thread i).Inside → (s.thread j).Inside → i = j) ∧
    (∀ i s' r, s.move (mutexAccess pid) i .next = some (s', some r) →
      r.Correct (s.thread i).held) ∧
    (∀ i s' o, (s.thread i).held = true → (s.thread i).pc.locking = true →
      s.move (mutexAccess pid) i .next = some (s', o) → s'.shared = s.shared) ∧
    (∀ i, (s.thread i).pc ≠ .outside →
      (s.thread i).held = true ∨ (s.thread i).pc.waiting = false →
      ∃ s' o, s.move (mutexAccess pid) i .next = some (s', o) ∧
        (o = none → (s'.thread i).pc.remaining < (s.thread i).pc.remaining)) ∧
    ((∀ i, (s.thread i).pc = .outside) →
      (s.shared.locked = true ↔ ∃ i, (s.thread i).held = true) ∧
        ∀ i, (s.thread i).held = true → s.shared.owner = pid i) := by
  have hproper : ProperPids pid Set.univ :=
    ⟨hdistinct.injOn, fun i _ => (hpid i).symm⟩
  have hs : MutexSound pid Set.univ s :=
    h.invariant (MutexSound.unlocked hproper) fun _ _ _ _ _ _ hs _ ha =>
      hs.access hproper trivial ha
  refine ⟨?_, ?_, ?_, ?_, hs.settled⟩
  · intro i j hi hj
    exact hs.owned.excl i j hi.phase_ne_free hj.phase_ne_free
  · intro i s' r hr
    obtain ⟨m, t, ha, -⟩ := Threads.move_eq_some.mp hr
    exact hs.returns trivial ha
  · intro i s' o hheld hlock hmove
    obtain ⟨m, t, ha, rfl⟩ := Threads.move_eq_some.mp hmove
    exact hs.unchanged hheld hlock ha
  · intro i hpc hgo
    have hwait : (s.thread i).pc.waiting = false := hgo.elim hs.not_waiting (fun h => h)
    obtain ⟨m, t, o, ha, hless⟩ := Mutex.advance_proceeds (pid i) s.shared hpc hwait
    refine ⟨_, o, Threads.move_eq_some.mpr ⟨m, t, ha, rfl⟩, ?_⟩
    simpa using hless

end Runs

def pidPair (p : Pid) : Bool → Pid
  | false => 1
  | true => p

/-- The first task holds the mutex and calls `UnLock`, while the second is in the loop of
`Lock`. -/
theorem mutex_excludes_example : ∃ s : Threads Mutex Bool MutexUser,
    Interleaved (mutexAccess (pidPair 2)) (fun _ _ _ => True) Threads.unlocked s ∧
    ((s.thread false).held = true ∧ (s.thread false).pc = .unLockOwner ∧
      (s.thread true).pc = .lockFailed) ∧
    ∃ s' o, s.move (mutexAccess (pidPair 2)) false .next = some (s', o) ∧
      (o = none → (s'.thread false).pc.remaining < 4) := by
  have hrun : ∃ s : Threads Mutex Bool MutexUser,
      Interleaved (mutexAccess (pidPair 2)) (fun _ _ _ => True) Threads.unlocked s ∧
      ((s.thread false).held = true ∧ (s.thread false).pc = .unLockOwner ∧
        (s.thread true).pc = .lockFailed) := by
    apply Interleaved.exists_replay (fun _ _ _ => true) (fun _ _ _ _ => trivial)
      ((false, .lock) :: List.replicate 3 (false, .next) ++
        (true, .lock) :: List.replicate 3 (true, .next) ++ [(false, .unLock), (false, .next)])
    decide
  obtain ⟨s, hs, hheld, hpc, hwait⟩ := hrun
  refine ⟨s, hs, ⟨hheld, hpc, hwait⟩, ?_⟩
  have hproceeds := (mutex_excludes (by decide) (by decide) hs).2.2.2.1 false
  rw [hpc] at hproceeds
  exact hproceeds (by decide) (Or.inr rfl)

/-- A task whose pid stands for no owner can end the `Lock` of another task: `UnLock`
returns true to it although it does not hold the mutex. -/
theorem unLock_by_noOwner : ∃ s s' : Threads Mutex Bool MutexUser,
    Function.Injective (pidPair noOwner) ∧
    Interleaved (mutexAccess (pidPair noOwner)) (fun _ _ _ => True) Threads.unlocked s ∧
    (s.thread true).held = false ∧
    s.move (mutexAccess (pidPair noOwner)) true .next = some (s', some (.unLock true)) := by
  have hrun : ∃ s : Threads Mutex Bool MutexUser,
      Interleaved (mutexAccess (pidPair noOwner)) (fun _ _ _ => True) Threads.unlocked s ∧
      ((s.thread true).held = false ∧
        (s.move (mutexAccess (pidPair noOwner)) true .next).map (·.2) =
          some (some (.unLock true))) := by
    -- the first task has set the flag and not stored its pid yet
    apply Interleaved.exists_replay (fun _ _ _ => true) (fun _ _ _ _ => trivial)
      ((false, .lock) :: List.replicate 2 (false, .next) ++
        (true, .unLock) :: List.replicate 4 (true, .next))
    decide
  obtain ⟨s, hs, hheld, hreturn⟩ := hrun
  obtain ⟨⟨s', o⟩, hmove, ho⟩ := Option.map_eq_some_iff.mp hreturn
  obtain rfl : o = some (.unLock true) := ho
  exact ⟨s, s', by decide, hs, hheld, hmove⟩

end NaiLongKernel.Task
