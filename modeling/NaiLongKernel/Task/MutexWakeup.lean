import NaiLongKernel.Foundation.Reached
import NaiLongKernel.Task.Hosted
import NaiLongKernel.Task.Mutex

/-!
# Waiting for a mutex

Tasks of one core that lock and unlock one mutex, on top of the task manager: the loop of
`Lock` disables interrupts, enters the queue of the mutex and schedules; `UnLock` ends with
`Wakeup`. The running task makes one access at a time, and ticks come wherever interrupts
are enabled.
-/
namespace NaiLongKernel.Task

open Foundation

variable {P : Platform} {c : CoreId} {r : ResourceId}

/-- Between `DisableInterrupt` and `EnableInterrupt` in the loop of `Lock`. -/
def MutexPc.masked : MutexPc → Bool
  | .lockBlocking | .lockRegistered | .lockResumed => true
  | _ => false

/-- What the access asks of the task manager; `r` is the resource of the mutex. -/
def MutexPc.exec (c : CoreId) (r : ResourceId) : MutexPc → KernelM Unit
  | .lockBlocking => register c r
  | .lockRegistered => schedule c
  | .waking => wakeup c r
  | _ => pure ()

/-- The kernel and, over one mutex, the places of its users. -/
structure MutexMachine where
  kernel : Kernel
  users : Threads Mutex Ptr MutexUser

inductive MutexAction where
  | op (op : SysOp)
  /-- The running task makes an access in a call, or begins one. -/
  | access (e : MutexEvent)

namespace MutexMachine

def pc (m : MutexMachine) (p : Ptr) : MutexPc := (m.users.thread p).pc

def runKernel (m : MutexMachine) (x : KernelM Unit) (users : Threads Mutex Ptr MutexUser) :
    Option MutexMachine :=
  match x m.kernel with
  | .ok _ k => some ⟨k, users⟩
  | .error _ _ => none

def step (P : Platform) (c : CoreId) (r : ResourceId) (m : MutexMachine) :
    MutexAction → Option MutexMachine
  | .op op => m.runKernel (op.exec P) m.users
  | .access e =>
    match m.kernel.running c with
    | none => none
    | some p =>
      (m.users.move (mutexAccess m.kernel.pidOf) p e).bind fun u =>
        m.runKernel ((m.pc p).exec c r) u.1

/-- A task takes turns of `Lock` and `UnLock`, and does not use `TryLock`. -/
def InTurn (t : MutexUser) : MutexEvent → Bool
  | .lock => !t.held
  | .unLock => t.held
  | .tryLock => false
  | .next | .spurious => true

/-- A tick comes where interrupts are enabled, and other operations are called outside
`Lock` and `UnLock`. -/
def Enabled (P : Platform) (c : CoreId) (r : ResourceId) (m : MutexMachine) : MutexAction → Prop
  | .op op => op.Enabled m.kernel ∧ op.Local P c r ∧ ∀ p, m.kernel.running c = some p →
      m.pc p = .outside ∨ (m.pc p).masked = false ∧ op = .tickUpdate c
  | .access e => ∀ p, m.kernel.running c = some p →
      m.kernel.idle c ≠ some p ∧ InTurn (m.users.thread p) e = true

/-- When a task enters the queue of the mutex, the mutex is locked, or another task that is
not blocked on it is in `Lock` or `UnLock`; and no task that uses the mutex has the pid that
stands for no owner. -/
def Watched (c : CoreId) (r : ResourceId) (m : MutexMachine) : MutexAction → Prop
  | .op _ => True
  | .access _ => ∀ p, m.kernel.running c = some p → m.kernel.pidOf p ≠ noOwner ∧
      (m.pc p = .lockBlocking → m.users.shared.locked = true ∨
        ∃ q, q ≠ p ∧ m.pc q ≠ .outside ∧ ¬ m.kernel.BlockedOn r q)

def booted : MutexMachine := ⟨{}, Threads.unlocked⟩

/-- The states that the machine reaches by actions that `A` admits. -/
abbrev Run (P : Platform) (c : CoreId) (r : ResourceId) (A : MutexMachine → MutexAction → Prop) :
    MutexMachine → Prop :=
  Reached (step P c r) (fun m a => m.Enabled P c r a ∧ A m a) booted

end MutexMachine

def MutexUser.Ordered (t : MutexUser) : Prop :=
  match t.pc with
  | .outside => True
  | .lockTest | .lockOwner | .lockCas | .lockFailed | .lockBlocking | .lockRegistered
  | .lockResumed | .lockStore => t.held = false
  | .tryTest | .tryOwner | .tryCas | .tryStore => False
  | .unLockTest | .unLockOwner | .clearOwner | .clearLocked | .waking => t.held = true

/-- The mutex as seen by tasks that take turns: nothing depends on their pids. -/
structure MutexTurns (s : Threads Mutex Ptr MutexUser) : Prop where
  owned : OwnedFlag (fun _ => noOwner) ∅ s.shared.locked s.shared.owner
    fun p => (s.thread p).phase
  ordered : ∀ p, (s.thread p).Ordered
  owner : s.shared.owner = noOwner ∨ ∃ p, (s.thread p).phase = .named

namespace MutexTurns

variable {s : Threads Mutex Ptr MutexUser} {sh : Mutex} {p : Ptr} {t : MutexUser}
  {o : Option MutexReturned} {pid : Ptr → Pid}

theorem unlocked : MutexTurns Threads.unlocked where
  owned := by
    constructor
    · simp [MutexUser.phase, Threads.unlocked]
    · simp [MutexUser.phase, Threads.unlocked]
    · simp
  ordered _ := trivial
  owner := Or.inl rfl

theorem update (h : MutexTurns s)
    (howned : OwnedFlag (fun _ => noOwner) ∅ sh.locked sh.owner
      (Function.update (fun q => (s.thread q).phase) p t.phase))
    (hord : t.Ordered) (howner : sh.owner = noOwner ∨ t.phase = .named ∨
      sh.owner = s.shared.owner ∧ t.phase = (s.thread p).phase) :
    MutexTurns ⟨sh, Function.update s.thread p t⟩ where
  owned := by
    simp only [view_update]
    exact howned
  ordered := by
    intro q
    by_cases hq : q = p
    · subst hq
      simpa using hord
    · simpa [hq] using h.ordered q
  owner := by
    rcases howner with hno | hnamed | ⟨hsame, hphase⟩
    · exact Or.inl hno
    · exact Or.inr ⟨p, by simpa using hnamed⟩
    · refine h.owner.imp (fun hno => hsame.trans hno) ?_
      rintro ⟨q, hq⟩
      refine ⟨q, ?_⟩
      by_cases hqp : q = p
      · subst hqp
        simpa [hphase] using hq
      · simpa [hqp] using hq

theorem keep (h : MutexTurns s) (hphase : t.phase = (s.thread p).phase) (hord : t.Ordered) :
    MutexTurns ⟨s.shared, Function.update s.thread p t⟩ :=
  h.update (h.owned.keep hphase) hord (Or.inr (Or.inr ⟨rfl, hphase⟩))

theorem rename (h : MutexTurns s) (hp : (s.thread p).phase ≠ .free) (ht : t.phase ≠ .free)
    (hord : t.Ordered) {owner : Pid} (howner : owner = noOwner ∨ t.phase = .named) :
    MutexTurns ⟨{ s.shared with owner := owner }, Function.update s.thread p t⟩ := by
  apply h.update _ hord (howner.imp_right Or.inl)
  exact h.owned.rename hp ht (by simp) (by simp)

theorem locked_of_owner (h : MutexTurns s) (ho : s.shared.owner ≠ noOwner) :
    s.shared.locked = true := by
  obtain ⟨q, hq⟩ := h.owner.resolve_left ho
  exact h.owned.flag_of_ne (i := q) (by simp [hq])

theorem advance (h : MutexTurns s) (hpid : pid p ≠ noOwner)
    (ha : s.shared.advance (pid p) (s.thread p) = some (sh, t, o)) :
    MutexTurns ⟨sh, Function.update s.thread p t⟩ ∧
      (t.pc = .outside → sh.locked = true ∨ (s.thread p).pc = .waking) := by
  have hord := h.ordered p
  have hflag := h.owned.flag_of_ne (i := p)
  cases hpc : (s.thread p).pc with
  | outside => simp [Mutex.advance, hpc] at ha
  | tryTest | tryOwner | tryCas | tryStore => simp [MutexUser.Ordered, hpc] at hord
  | lockFailed | lockBlocking | lockRegistered | lockResumed | waking =>
    simp only [Mutex.advance, hpc] at ha
    cases ha
    simp only [MutexUser.Ordered, hpc] at hord
    constructor
    · apply h.keep <;>
        simp [MutexUser.phase, MutexUser.Ordered, MutexUser.goto, MutexUser.leave, hpc, hord]
    · simp [MutexUser.goto]
  | lockTest | unLockTest | unLockOwner =>
    simp only [Mutex.advance, hpc] at ha
    simp only [MutexUser.Ordered, hpc] at hord
    split at ha
    all_goals
      cases ha
      constructor
      · apply h.keep <;> simp_all [MutexUser.phase, MutexUser.Ordered, MutexUser.goto]
      · simp_all [MutexUser.phase, MutexUser.goto]
  | lockOwner =>
    simp only [Mutex.advance, hpc] at ha
    simp only [MutexUser.Ordered, hpc] at hord
    split at ha
    all_goals
      rename_i htest
      cases ha
      constructor
      · apply h.keep <;> simp [MutexUser.phase, MutexUser.Ordered, MutexUser.goto, hpc, hord]
    · exact fun _ => Or.inl (h.locked_of_owner (htest ▸ hpid))
    · simp [MutexUser.goto]
  | lockCas =>
    simp only [Mutex.advance, hpc] at ha
    simp only [MutexUser.Ordered, hpc] at hord
    split at ha
    · cases ha
      constructor
      · apply h.keep <;> simp [MutexUser.phase, MutexUser.Ordered, MutexUser.goto, hpc, hord]
      · simp [MutexUser.goto]
    · rename_i hfree
      cases ha
      have howned := h.owned
      rw [Bool.eq_false_of_not_eq_true hfree] at howned
      have hno : s.shared.owner = noOwner := by
        by_contra ho
        exact hfree (h.locked_of_owner ho)
      exact ⟨h.update (howned.acquire p) hord (Or.inl hno), by simp [MutexUser.goto]⟩
  | lockStore =>
    simp only [Mutex.advance, hpc] at ha
    cases ha
    have hphase : (s.thread p).phase ≠ .free := by simp [MutexUser.phase, hpc]
    constructor
    · apply h.rename hphase <;> simp [MutexUser.phase, MutexUser.Ordered, MutexUser.leave]
    · exact fun _ => Or.inl (hflag hphase)
  | clearOwner =>
    simp only [Mutex.advance, hpc] at ha
    cases ha
    simp only [MutexUser.Ordered, hpc] at hord
    constructor
    · apply h.rename <;> simp [MutexUser.phase, MutexUser.Ordered, MutexUser.goto, hpc, hord]
    · simp [MutexUser.goto]
  | clearLocked =>
    simp only [Mutex.advance, hpc] at ha
    cases ha
    simp only [MutexUser.Ordered, hpc] at hord
    have hphase : (s.thread p).phase = .taken := by simp [MutexUser.phase, hpc]
    -- the task that has the flag has already cleared the owner
    have hno : s.shared.owner = noOwner := by
      apply h.owner.resolve_right
      rintro ⟨q, hq⟩
      obtain rfl := h.owned.excl q p (by simp [hq]) (by simp [hphase])
      simp [hphase] at hq
    constructor
    · exact h.update (h.owned.release hphase) hord (Or.inl hno)
    · simp [MutexUser.goto]

theorem access {e : MutexEvent} (h : MutexTurns s) (hpid : pid p ≠ noOwner)
    (hturn : MutexMachine.InTurn (s.thread p) e = true)
    (ha : mutexAccess pid p e s.shared (s.thread p) = some (sh, t, o)) :
    MutexTurns ⟨sh, Function.update s.thread p t⟩ ∧
      (t.pc = .outside → sh.locked = true ∨ (s.thread p).pc = .waking) := by
  have hord := h.ordered p
  cases e with
  | next => exact h.advance hpid ha
  | tryLock => cases hturn
  | lock | unLock | spurious =>
    simp only [mutexAccess] at ha
    split at ha
    · rename_i hpc
      cases ha
      simp only [MutexUser.Ordered, hpc] at hord
      simp only [MutexMachine.InTurn, Bool.not_eq_true'] at hturn
      constructor
      · apply h.keep <;> simp [MutexUser.phase, MutexUser.Ordered, MutexUser.goto, hpc, hord, hturn]
      · simp [MutexUser.goto]
    · cases ha

end MutexTurns

theorem mutexAccess_registered {pid : Ptr → Pid} {p : Ptr} {e : MutexEvent} {sh sh' : Mutex}
    {t t' : MutexUser} {o : Option MutexReturned}
    (ha : mutexAccess pid p e sh t = some (sh', t', o)) :
    (t'.pc = .lockRegistered ↔ t.pc = .lockBlocking) ∧
      (t.pc = .lockBlocking ∨ t.pc = .lockRegistered → sh' = sh ∧ t'.pc ≠ .outside) := by
  cases e with
  | next =>
    simp only [mutexAccess, Mutex.advance] at ha
    cases hpc : t.pc <;> simp only [hpc] at ha <;> (try split at ha) <;>
      simp only [Option.some.injEq, Prod.mk.injEq, reduceCtorEq] at ha <;>
      obtain ⟨rfl, rfl, -⟩ := ha <;> simp [MutexUser.goto, MutexUser.leave]
  | lock | tryLock | unLock | spurious =>
    simp only [mutexAccess] at ha
    split at ha
    · rename_i hpc
      cases ha
      simp [MutexUser.goto, hpc]
    · cases ha

namespace MutexMachine

variable {m m' : MutexMachine} {p : Ptr}

structure Sound (c : CoreId) (r : ResourceId) (m : MutexMachine) : Prop where
  turns : MutexTurns m.users
  registered : ∀ p, m.pc p = .lockRegistered → Registered c r p m.kernel
  rest : (∀ p, m.pc p ≠ .lockRegistered) → AtRest c m.kernel
  /-- Whoever is blocked on the mutex has somebody to wake it. -/
  awaited : ∀ q, m.kernel.BlockedOn r q → m.users.shared.locked = true ∨
    ∃ q', m.pc q' ≠ .outside ∧ ¬ m.kernel.BlockedOn r q'

theorem runKernel_eq_some {x : KernelM Unit} {users : Threads Mutex Ptr MutexUser} :
    m.runKernel x users = some m' ↔ ∃ k, x m.kernel = .ok () k ∧ m' = ⟨k, users⟩ := by
  unfold runKernel
  cases hx : x m.kernel with
  | ok a k => simp [eq_comm]
  | error e k => simp

namespace Sound

theorem op {o : SysOp} (h : Sound c r m) (hen : m.Enabled P c r (.op o))
    (hstep : m.step P c r (.op o) = some m') : Sound c r m' := by
  obtain ⟨hop, hlocal, hplace⟩ := hen
  obtain ⟨k, hk, rfl⟩ := runKernel_eq_some.mp hstep
  -- a task that has just entered the queue is running, with interrupts disabled
  have hnone : ∀ p, m.pc p ≠ .lockRegistered := by
    intro p hp
    rcases hplace p (h.registered p hp).1 with hout | ⟨hmask, -⟩
    · rw [hp] at hout
      cases hout
    · rw [hp] at hmask
      cases hmask
  obtain ⟨hrest, hblocked⟩ := (hlocal.wp_exec hop (h.rest hnone)).of_ok hk
  refine ⟨h.turns, fun p hp => absurd hp (hnone p), fun _ => hrest, ?_⟩
  intro q hq
  refine (h.awaited q (hblocked q hq)).imp_right ?_
  rintro ⟨q', hq', hfree⟩
  exact ⟨q', hq', fun hb => hfree (hblocked q' hb)⟩

theorem update {k : Kernel} {sh : Mutex} {t : MutexUser} (h : Sound c r m)
    (hrun : m.kernel.running c = some p)
    (hturns : MutexTurns ⟨sh, Function.update m.users.thread p t⟩)
    (hreg : t.pc = .lockRegistered → Registered c r p k)
    (hrest : t.pc ≠ .lockRegistered → AtRest c k)
    (hawait : ∀ q, k.BlockedOn r q → sh.locked = true ∨
      t.pc ≠ .outside ∧ ¬ k.BlockedOn r p ∨
      ∃ q', q' ≠ p ∧ m.pc q' ≠ .outside ∧ ¬ k.BlockedOn r q') :
    Sound c r ⟨k, ⟨sh, Function.update m.users.thread p t⟩⟩ := by
  set m₁ : MutexMachine := ⟨k, ⟨sh, Function.update m.users.thread p t⟩⟩ with hm₁
  have pc_self : m₁.pc p = t.pc := by simp [hm₁, pc]
  have pc_ne : ∀ q, q ≠ p → m₁.pc q = m.pc q := by
    intro q hq
    simp [hm₁, pc, hq]
  refine ⟨hturns, ?_, ?_, ?_⟩
  · intro q hq
    by_cases hqp : q = p
    · subst hqp
      exact hreg (pc_self.symm.trans hq)
    · rw [pc_ne q hqp] at hq
      exact absurd (Option.some.inj ((h.registered q hq).1.symm.trans hrun)) hqp
  · intro hnone
    exact hrest (pc_self ▸ hnone p)
  · intro q hq
    rcases hawait q hq with hlocked | ⟨hin, hfree⟩ | ⟨q', hne, hin, hfree⟩
    · exact Or.inl hlocked
    · exact Or.inr ⟨p, pc_self.symm ▸ hin, hfree⟩
    · exact Or.inr ⟨q', (pc_ne q' hne).symm ▸ hin, hfree⟩

theorem atRest (h : Sound c r m) (hrun : m.kernel.running c = some p)
    (hp : m.pc p ≠ .lockRegistered) : AtRest c m.kernel := by
  apply h.rest
  intro q hq
  have hqp := Option.some.inj ((h.registered q hq).1.symm.trans hrun)
  exact hp (hqp ▸ hq)

theorem access {e : MutexEvent} (h : Sound c r m) (hen : m.Enabled P c r (.access e))
    (hwatched : m.Watched c r (.access e)) (hstep : m.step P c r (.access e) = some m') :
    Sound c r m' := by
  simp only [step] at hstep
  split at hstep
  · cases hstep
  · rename_i p hrun
    obtain ⟨hidle, hturn⟩ := hen p hrun
    obtain ⟨hpid, hwatch⟩ := hwatched p hrun
    obtain ⟨⟨users, o⟩, hmove, hexec⟩ := Option.bind_eq_some_iff.mp hstep
    obtain ⟨k, hk, rfl⟩ := runKernel_eq_some.mp hexec
    obtain ⟨sh, t, ha, rfl⟩ := Threads.move_eq_some.mp hmove
    obtain ⟨hturns, hout⟩ := h.turns.access hpid hturn ha
    obtain ⟨hreg, hsame⟩ := mutexAccess_registered ha
    by_cases hscheduling : m.pc p = .lockRegistered
    · -- the task gives up the core; what it waits for is as before
      obtain ⟨rfl, -⟩ := hsame (Or.inr hscheduling)
      have ht : t.pc ≠ .lockRegistered := fun he => by cases (hreg.mp he).symm.trans hscheduling
      have hp := h.registered p hscheduling
      rw [hscheduling] at hk
      obtain ⟨hrest, hblocked⟩ := hp.wp_schedule.of_ok hk
      apply h.update hrun hturns (fun he => absurd he ht) (fun _ => hrest)
      intro q hq
      refine (h.awaited q (hblocked q hq)).imp_right (fun hex => Or.inr ?_)
      obtain ⟨q', hin, hfree⟩ := hex
      refine ⟨q', ?_, hin, fun hb => hfree (hblocked q' hb)⟩
      rintro rfl
      exact hfree hp.blockedOn
    have hrest := h.atRest hrun hscheduling
    by_cases hblocking : m.pc p = .lockBlocking
    · -- the task enters the queue; somebody else is there to wake it
      obtain ⟨rfl, -⟩ := hsame (Or.inl hblocking)
      rw [hblocking] at hk
      obtain ⟨hregistered, -, hblocked⟩ := (hrest.wp_register hrun hidle).of_ok hk
      apply h.update hrun hturns (fun _ => hregistered) (fun hne => absurd (hreg.mpr hblocking) hne)
      intro _ _
      refine (hwatch hblocking).imp_right (fun hex => Or.inr ?_)
      obtain ⟨q', hne, hin, hfree⟩ := hex
      exact ⟨q', hne, hin, fun hb => (hblocked r q' hb).elim hfree hne⟩
    have ht : t.pc ≠ .lockRegistered := fun he => hblocking (hreg.mp he)
    by_cases hwaking : m.pc p = .waking
    · rw [hwaking] at hk
      obtain ⟨hrest', hnone⟩ := hrest.wp_wakeup.of_ok hk
      exact h.update hrun hturns (fun he => absurd he ht) (fun _ => hrest')
        (fun q hq => absurd hq (hnone q))
    · -- the kernel is not called; a task that leaves the call leaves the mutex locked
      have hk' : k = m.kernel := by
        have hpure : (m.pc p).exec c r = pure () := by
          cases hp : m.pc p <;> simp_all [MutexPc.exec]
        rw [hpure] at hk
        cases hk
        rfl
      subst hk'
      apply h.update hrun hturns (fun he => absurd he ht) (fun _ => hrest)
      intro q hq
      by_cases hleft : t.pc = .outside
      · exact Or.inl ((hout hleft).resolve_right hwaking)
      · exact Or.inr (Or.inl ⟨hleft, hrest.not_blockedOn hrun⟩)

end Sound

theorem Run.sound (h : Run P c r (fun m a => m.Watched c r a) m) : Sound c r m := by
  apply h.invariant
  · refine ⟨MutexTurns.unlocked, nofun, fun _ => AtRest.empty c, ?_⟩
    rintro q ⟨t, ht, -⟩
    cases ht
  · rintro m a m' hm ⟨hen, hwatched⟩ hstep
    cases a with
    | op o => exact hm.op hen hstep
    | access e => exact hm.access hen hwatched hstep

/-- No lost wakeup: in every run in which tasks enter the queue of the mutex only while it is
locked or another task is on its way in `Lock` or `UnLock`, nobody is blocked on a free mutex
once all other tasks have left these calls. -/
theorem no_lost_wakeup (h : Run P c r (fun m a => m.Watched c r a) m)
    (hfree : m.users.shared.locked = false)
    (hout : ∀ p, m.pc p = .outside ∨ m.kernel.BlockedOn r p) :
    ∀ p, ¬ m.kernel.BlockedOn r p := by
  intro p hp
  rcases (Run.sound h).awaited p hp with hlocked | ⟨q, hin, hq⟩
  · rw [hfree] at hlocked
    cases hlocked
  · exact (hout q).elim hin hq

section Replay

/-- The running task is one of the first `n`, and the action is a tick or an access that is
enabled. -/
def Replays (n : ℕ) (c : CoreId) (m : MutexMachine) (a : MutexAction) : Bool :=
  match m.kernel.running c, a with
  | some p, .op (.tickUpdate c') => p < n && c' == c && !(m.pc p).masked
  | some p, .access e => p < n && m.kernel.idle c != some p && InTurn (m.users.thread p) e
  | _, _ => false

theorem Replays.enabled {n : ℕ} {a : MutexAction} (h : Replays n c m a = true) :
    m.Enabled P c r a ∧ ∀ p, m.kernel.running c = some p → p < n := by
  unfold Replays at h
  split at h
  · rename_i p c' hrun
    simp only [Bool.and_eq_true, decide_eq_true_eq, beq_iff_eq, Bool.not_eq_true'] at h
    obtain ⟨⟨hp, rfl⟩, hmask⟩ := h
    refine ⟨⟨⟨p, hrun⟩, rfl, ?_⟩, ?_⟩
    · intro q hq
      obtain rfl := Option.mem_unique hrun hq
      exact Or.inr ⟨hmask, rfl⟩
    · intro q hq
      exact Option.mem_unique hrun hq ▸ hp
  · rename_i p e hrun
    simp only [Bool.and_eq_true, decide_eq_true_eq, bne_iff_ne] at h
    obtain ⟨⟨hp, hidle⟩, hturn⟩ := h
    refine ⟨?_, ?_⟩
    all_goals
      intro q hq
      obtain rfl := Option.mem_unique hrun hq
    · exact ⟨hidle, hturn⟩
    · exact hp
  · cases h

theorem Run.outside {n : ℕ} (h : Run P c r (fun m _ => ∀ p, m.kernel.running c = some p → p < n) m)
    (hp : n ≤ p) : m.pc p = .outside := by
  apply Reached.invariant (I := fun m => m.pc p = .outside) rfl _ h
  rintro m a m' hm ⟨-, hlt⟩ hstep
  cases a with
  | op o =>
    obtain ⟨k, -, rfl⟩ := runKernel_eq_some.mp hstep
    exact hm
  | access e =>
    simp only [step] at hstep
    split at hstep
    · cases hstep
    · rename_i q hrun
      obtain ⟨⟨users, o⟩, hmove, hexec⟩ := Option.bind_eq_some_iff.mp hstep
      obtain ⟨k, -, rfl⟩ := runKernel_eq_some.mp hexec
      obtain ⟨sh, t, -, rfl⟩ := Threads.move_eq_some.mp hmove
      have hne : p ≠ q := (lt_of_lt_of_le (hlt q hrun) hp).ne'
      simpa [pc, hne] using hm

def shortSlice : TaskControlBlock := { schedInfo := { timeSliceDefault := 1 } }

/-- Core 0 is initialised and given two such tasks, and task 1 runs. -/
def twoTasks : Option MutexMachine :=
  [MutexAction.op (.initCurrentCore 0 0), .op (.addTask 0 1 shortSlice),
    .op (.addTask 0 2 shortSlice), .op (.schedule 0)].foldlM
      (step (presetPlatform true) 0 ⟨7⟩) booted

theorem Run.exists_after_boot (A : MutexMachine → MutexAction → Prop)
    (hA : ∀ m o, (∀ p, m.kernel.running 0 = some p → p < 3) → A m (.op o))
    (check : MutexMachine → MutexAction → Bool)
    (hcheck : ∀ m a, check m a = true → m.Enabled (presetPlatform true) 0 ⟨7⟩ a ∧ A m a)
    (l : List MutexAction) {R : MutexMachine → Prop} [DecidablePred R]
    (hl : (twoTasks.bind fun m => l.foldlM (fun m a => if check m a
      then m.step (presetPlatform true) 0 ⟨7⟩ a else none) m).any (fun m => decide (R m)) = true) :
    ∃ m, Run (presetPlatform true) 0 ⟨7⟩ A m ∧ R m := by
  have hlt : ∀ {m : MutexMachine} {n : ℕ}, m.kernel.running 0 = some n → n < 3 →
      ∀ p, m.kernel.running 0 = some p → p < 3 := by
    intro m n hm hn p hp
    exact Option.mem_unique hm hp ▸ hn
  have h₀ : Run (presetPlatform true) 0 ⟨7⟩ A booted := .start
  have h₁ := h₀.step (MutexAction.op (.initCurrentCore 0 0))
    ⟨⟨⟨⟨rfl, rfl, fun _ => rfl⟩, rfl⟩, rfl, nofun⟩, hA _ _ nofun⟩ rfl
  have h₂ := h₁.step (MutexAction.op (.addTask 0 1 shortSlice))
    ⟨⟨⟨rfl, rfl, rfl, rfl⟩, ⟨rfl, rfl⟩, fun _ _ => Or.inl rfl⟩, hA _ _ (hlt rfl (by decide))⟩ rfl
  have h₃ := h₂.step (MutexAction.op (.addTask 0 2 shortSlice))
    ⟨⟨⟨rfl, rfl, rfl, rfl⟩, ⟨rfl, rfl⟩, fun _ _ => Or.inl rfl⟩, hA _ _ (hlt rfl (by decide))⟩ rfl
  have h₄ := h₃.step (MutexAction.op (.schedule 0))
    ⟨⟨⟨0, rfl⟩, rfl, fun _ _ => Or.inl rfl⟩, hA _ _ (hlt rfl (by decide))⟩ rfl
  exact h₄.exists_replay check (fun m a _ => hcheck m a) l hl

/-- All calls are over, or their tasks are blocked. -/
def Quiet (m : MutexMachine) : Prop :=
  m.users.shared.locked = false ∧ ∀ p < 3, m.pc p = .outside ∨ m.kernel.BlockedOn ⟨7⟩ p

instance (m : MutexMachine) : Decidable m.Quiet := by
  unfold Quiet
  infer_instance

/-- Task 2 waits for the mutex while task 1 has it, and gets it afterwards. -/
theorem no_lost_wakeup_example : ∃ m,
    Run (presetPlatform true) 0 ⟨7⟩ (fun m a => m.Watched 0 ⟨7⟩ a) m ∧ m.Quiet ∧
      ∀ p, ¬ m.kernel.BlockedOn ⟨7⟩ p := by
  have hrun : ∃ m, Run (presetPlatform true) 0 ⟨7⟩ (fun m a =>
      (∀ p, m.kernel.running 0 = some p → p < 3) ∧ m.Watched 0 ⟨7⟩ a) m ∧ m.Quiet := by
    apply Run.exists_after_boot _ (fun _ _ h => ⟨h, trivial⟩)
      (fun m a => Replays 3 0 m a && decide (∀ p ∈ m.kernel.running 0,
        m.kernel.pidOf p ≠ noOwner ∧ (m.pc p = .lockBlocking → m.users.shared.locked = true))) _
      (MutexAction.access .lock :: List.replicate 3 (.access .next) ++
        .op (.tickUpdate 0) :: .access .lock :: List.replicate 6 (.access .next) ++
        .access .unLock :: List.replicate 5 (.access .next) ++
        .op (.tickUpdate 0) :: List.replicate 3 (.access .next) ++
        .access .unLock :: List.replicate 5 (.access .next))
    · decide +kernel
    · intro m a h
      rw [Bool.and_eq_true, decide_eq_true_eq] at h
      obtain ⟨hen, hlt⟩ := Replays.enabled h.1
      refine ⟨hen, hlt, ?_⟩
      cases a with
      | op o => trivial
      | access e =>
        intro p hp
        obtain ⟨hpid, hlocked⟩ := h.2 p hp
        exact ⟨hpid, fun hpc => Or.inl (hlocked hpc)⟩
  obtain ⟨m, hm, hquiet⟩ := hrun
  have hwatched : Run (presetPlatform true) 0 ⟨7⟩ (fun m a => m.Watched 0 ⟨7⟩ a) m :=
    hm.mono (fun _ _ h => ⟨h.1, h.2.2⟩)
  refine ⟨m, hwatched, hquiet, no_lost_wakeup hwatched hquiet.1 ?_⟩
  intro p
  by_cases hp : p < 3
  · exact hquiet.2 p hp
  · exact Or.inl (Run.outside (hm.mono (fun _ _ h => ⟨h.1, h.2.1⟩)) (not_lt.mp hp))

/-- A tick comes after the failed exchange of task 2 and before `DisableInterrupt`. Task 1
unlocks and wakes nobody; then task 2 blocks on the free mutex. -/
theorem tick_before_disable_loses_wakeup : ∃ m,
    Run (presetPlatform true) 0 ⟨7⟩ (fun _ _ => True) m ∧ m.users.shared.locked = false ∧
      (∀ p, m.pc p = .outside ∨ m.kernel.BlockedOn ⟨7⟩ p) ∧ m.kernel.BlockedOn ⟨7⟩ 2 := by
  have hrun : ∃ m, Run (presetPlatform true) 0 ⟨7⟩
      (fun m _ => ∀ p, m.kernel.running 0 = some p → p < 3) m ∧
      (m.Quiet ∧ m.kernel.BlockedOn ⟨7⟩ 2) := by
    apply Run.exists_after_boot _ (fun _ _ h => h) (Replays 3 0) (fun _ _ => Replays.enabled)
      (MutexAction.access .lock :: List.replicate 3 (.access .next) ++
        .op (.tickUpdate 0) :: .access .lock :: List.replicate 3 (.access .next) ++
        .op (.tickUpdate 0) :: .access .unLock :: List.replicate 5 (.access .next) ++
        .op (.tickUpdate 0) :: List.replicate 2 (.access .next))
    decide +kernel
  obtain ⟨m, hm, ⟨hfree, hquiet⟩, hblocked⟩ := hrun
  refine ⟨m, hm.mono (fun _ _ h => ⟨h.1, trivial⟩), hfree, ?_, hblocked⟩
  intro p
  by_cases hp : p < 3
  · exact hquiet p hp
  · exact Or.inl (Run.outside hm (not_lt.mp hp))

end Replay

end MutexMachine

end NaiLongKernel.Task
