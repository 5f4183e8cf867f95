import NaiLongKernel.Task.Running
import NaiLongKernel.Task.SingleCore

/-!
# Saved contexts

One core after boot, with the code that it really executes. A continuation is a stack of
calls and belongs to the task for which it was started. `Schedule` makes another task the
running task under the lock; `UnLock` restores the interrupt flag, and only later are
interrupts disabled and `switch_to` called. A tick may come at every point at which
interrupts are enabled.
-/
namespace NaiLongKernel.Task

open Foundation

variable {α : Type} {k k' : Kernel} {c : CoreId} {p : Ptr}

/-- Where a call that has not returned will go on. -/
inductive Frame where
  /-- The first switch to a task jumps here; interrupts are enabled. -/
  | kernelThreadEntry
  /-- The code of the task itself. -/
  | task
  /-- `Block` before the lock, with the current task that it has read. -/
  | block (current : Ptr) (r : ResourceId)
  /-- `Sleep` before interrupts are disabled. -/
  | sleep (current : Ptr) (ms : BitVec 64)
  /-- `Sleep` before the lock; interrupts are disabled. -/
  | sleepLock (current : Ptr) (ms : BitVec 64)
  /-- `Schedule` before the lock. -/
  | schedule
  /-- `Schedule` after `UnLock`. -/
  | unlocked (current next : Ptr) (mustLeave : Bool)
  /-- `Schedule` before `switch_to`; interrupts are disabled. -/
  | switching (current next : Ptr) (mustLeave : Bool)
  /-- `Schedule` after `switch_to`. -/
  | switched
  /-- `Schedule` has found nothing to run. -/
  | parked
  /-- The return from the timer interrupt. -/
  | interruptReturn
deriving DecidableEq, Repr

def Frame.afterLock : Option (Ptr × Ptr × Bool) → Frame
  | some (current, next, mustLeave) => unlocked current next mustLeave
  | none => parked

/-- Code that has been started for the task `owner`, innermost call first. -/
structure Continuation where
  owner : Ptr
  calls : List Frame
deriving DecidableEq, Repr

/-- What `InitTaskContext` prepares. -/
def Continuation.fresh (p : Ptr) : Continuation := ⟨p, [.kernelThreadEntry]⟩

/-- A call of `switch_to`: the task whose context it saved into, and the owner of the
code that called it. -/
structure Switch where
  saved : Ptr
  executing : Ptr
deriving DecidableEq, Repr

structure Machine where
  kernel : Kernel
  intrEnabled : Bool
  code : Continuation
  taskContext : Ptr → Continuation
  switches : List Switch

structure Work where
  program : KernelM Unit
  leaves : Leaves program

inductive Action where
  | tick
  /-- The innermost call goes on. -/
  | next
  /-- The task calls `Schedule`, `Block` or `Sleep`. -/
  | schedule
  | block (r : ResourceId)
  | sleep (ms : BitVec 64)
  | setInterrupts (enabled : Bool)
  /-- The task creates a control block, with a fresh context. -/
  | create (p : Ptr) (t : TaskControlBlock)
  | work (w : Work)

namespace Machine

def booted (k : Kernel) (p : Ptr) : Machine :=
  ⟨k, false, .fresh p, .fresh, []⟩

def setCalls (calls : List Frame) (m : Machine) : Machine :=
  { m with code := { m.code with calls := calls } }

def runKernel {α : Type} (x : KernelM α) (m : Machine) : Option (α × Machine) :=
  match x m.kernel with
  | .ok a k => some (a, { m with kernel := k })
  | .error _ _ => none

/-- `switch_to(&current->task_context, &next->task_context)`. -/
def switchTo (current next : Ptr) (rest : List Frame) (m : Machine) : Machine :=
  { m with
    code := m.taskContext next
    taskContext := Function.update m.taskContext current ⟨m.code.owner, .switched :: rest⟩
    switches := ⟨current, m.code.owner⟩ :: m.switches }

variable (P : Platform) (c : CoreId)

/-- The innermost call goes on. A lock is released with the interrupt flag that it was
taken with, so the parts under a lock leave it as it is. -/
def goOn (m : Machine) : Option Machine :=
  match m.code.calls with
  | .kernelThreadEntry :: rest => some { m.setCalls (.task :: rest) with intrEnabled := true }
  | .block current r :: rest => do
    let (_, m) ← m.runKernel (blockBody c current r)
    return m.setCalls (.schedule :: rest)
  | .sleep current ms :: rest =>
    some { m.setCalls (.sleepLock current ms :: rest) with intrEnabled := false }
  | .sleepLock current ms :: rest => do
    let (_, m) ← m.runKernel (sleepBody P c current ms)
    return m.setCalls (.schedule :: rest)
  | .schedule :: rest => do
    let (chosen, m) ← m.runKernel (scheduleBody c)
    return { m.setCalls (.afterLock chosen :: rest) with
      intrEnabled := m.intrEnabled || chosen.isNone }
  | .unlocked current next mustLeave :: rest =>
    some { m.setCalls (.switching current next mustLeave :: rest) with intrEnabled := false }
  | .switching current next mustLeave :: rest =>
    if current ≠ next then some (m.switchTo current next rest)
    else if mustLeave then none
    else some (m.setCalls (.switched :: rest))
  | .switched :: rest => some { m.setCalls rest with intrEnabled := true }
  | .interruptReturn :: rest => some { m.setCalls rest with intrEnabled := true }
  | _ => none

/-- The timer interrupt: interrupts are disabled on entry, so `TickUpdate` comes to its
call of `Schedule` undisturbed. -/
def timer (m : Machine) : Option Machine := do
  if m.intrEnabled then
    let (needPreempt, m) ← m.runKernel (tickBody P c)
    let rest := .interruptReturn :: m.code.calls
    return { m.setCalls (if needPreempt then .schedule :: rest else rest) with intrEnabled := false }
  else none

def call (f : Ptr → Frame) (noTask notRunning : String) (m : Machine) : Option Machine := do
  let (current, m) ← m.runKernel (runningTask c noTask notRunning)
  return m.setCalls (f current :: m.code.calls)

def create (p : Ptr) (t : TaskControlBlock) (m : Machine) : Machine :=
  { m with
    kernel := m.kernel.setTask p t
    taskContext := Function.update m.taskContext p (.fresh p) }

def act (m : Machine) : Action → Option Machine
  | .schedule => some (m.setCalls (.schedule :: m.code.calls))
  | .block r => m.call c (.block · r) "Block: No current task to block"
      "Block: current task status must be kRunning"
  | .sleep ms => m.call c (fun current => if ms = 0 then .schedule else .sleep current ms)
      "Sleep: No current task to sleep" "Sleep: current task status must be kRunning"
  | .setInterrupts enabled => some { m with intrEnabled := enabled }
  | .create p t => if (m.kernel.tasks p).isNone then some (m.create p t) else none
  | .work w => do
    let (_, m) ← m.runKernel w.program
    return m
  | _ => none

def step (m : Machine) : Action → Option Machine
  | .tick => m.timer P c
  | .next => m.goOn P c
  | a => if m.code.calls.head? = some .task then m.act c a else none

end Machine

/-- The call does not wait for a switch to another task. -/
def Frame.Quiet : Frame → Prop
  | unlocked current next _ => current = next
  | switching current next _ => current = next
  | _ => True

def Frame.Nested : Frame → Prop
  | schedule => True
  | unlocked current next _ => current = next
  | switching current next _ => current = next
  | switched => True
  | interruptReturn => True
  | _ => False

/-- The running task is the one whose code is executed, unless the code is about to switch
to it and perhaps interrupted there. -/
inductive Settled (running : Option Ptr) (owner : Ptr) (calls : List Frame) : Prop where
  | quiet : running = some owner → (∀ f ∈ calls, f.Quiet) → Settled running owner calls
  | pending (above below : List Frame) (w : Frame) (next : Ptr) (mustLeave : Bool) :
      calls = above ++ w :: below →
      w = .unlocked owner next mustLeave ∨ w = .switching owner next mustLeave →
      owner ≠ next → running = some next → (∀ f ∈ above, f.Nested) →
      (∀ f ∈ below, f.Quiet) → Settled running owner calls

/-- Every context that is not in use belongs to its task, and every switch so far has saved
into the context of the code that called it. -/
structure Owned (c : CoreId) (m : Machine) : Prop where
  saved : ∀ q, q ≠ m.code.owner →
    (m.taskContext q).owner = q ∧ ∀ f ∈ (m.taskContext q).calls, f.Quiet
  switches : ∀ s ∈ m.switches, s.saved = s.executing
  settled : Settled (m.kernel.running c) m.code.owner m.code.calls

/-- When `Schedule` is entered although the running task is not the one whose code is
executed, the running task is alone. -/
def Machine.Undisturbed (c : CoreId) (m : Machine) (a : Action) : Prop :=
  a = .next → m.code.calls.head? = some .schedule → ∀ p, m.kernel.running c = some p →
    p ≠ m.code.owner → m.kernel.Alone c p

theorem Leaves.running {x : KernelM α} {a : α} (hx : Leaves x) (h : x k = .ok a k') :
    k'.running = k.running := by
  have hcpu : k'.perCpu = k.perCpu := (hx k).of_ok h
  funext c
  rw [Kernel.running, Kernel.running, hcpu]

namespace Machine

variable {m m' : Machine}

theorem taskContext_switchTo_self (m : Machine) (current next : Ptr) (rest : List Frame) :
    (m.switchTo current next rest).taskContext current = ⟨m.code.owner, .switched :: rest⟩ :=
  Function.update_self _ _ _

theorem taskContext_switchTo_ne (m : Machine) {current q : Ptr} (next : Ptr) (rest : List Frame)
    (h : q ≠ current) : (m.switchTo current next rest).taskContext q = m.taskContext q :=
  Function.update_of_ne h _ _

theorem of_runKernel {x : KernelM α} {a : α} (h : m.runKernel x = some (a, m')) :
    ∃ k', x m.kernel = .ok a k' ∧ m' = { m with kernel := k' } := by
  unfold runKernel at h
  split at h
  · rename_i hx
    cases h
    exact ⟨_, hx, rfl⟩
  · cases h

end Machine

theorem Frame.Nested.quiet {f : Frame} (h : f.Nested) : f.Quiet := by
  cases f <;> first | exact h | trivial

namespace Settled

variable {r : Option Ptr} {calls : List Frame} {f : Frame}

theorem push (h : Settled r p calls) (fs : List Frame) (hfs : ∀ f ∈ fs, f.Nested) :
    Settled r p (fs ++ calls) := by
  cases h with
  | quiet hr hq =>
    refine quiet hr (fun f hf => ?_)
    rcases List.mem_append.mp hf with hf | hf
    · exact (hfs f hf).quiet
    · exact hq f hf
  | pending above below w next b hc hw hne hr ha hb =>
    refine pending (fs ++ above) below w next b ?_ hw hne hr (fun f hf => ?_) hb
    · rw [hc, List.append_assoc]
    · exact (List.mem_append.mp hf).elim (hfs f) (ha f)

theorem pop (h : Settled r p (f :: calls)) (hf : f.Nested) : Settled r p calls := by
  cases h with
  | quiet hr hq => exact quiet hr (fun g hg => hq g (List.mem_cons_of_mem f hg))
  | pending above below w next b hc hw hne hr ha hb =>
    cases above with
    | nil =>
      obtain ⟨rfl, -⟩ := List.cons.inj hc
      rcases hw with rfl | rfl <;> exact absurd hf hne
    | cons g above =>
      obtain ⟨rfl, hrest⟩ := List.cons.inj hc
      exact pending above below w next b hrest hw hne hr
        (fun g hg => ha g (List.mem_cons_of_mem f hg)) hb

theorem of_top (h : Settled r p (f :: calls)) (hq : f.Quiet) (hf : ¬ f.Nested) :
    r = some p ∧ ∀ g ∈ calls, g.Quiet := by
  cases h with
  | quiet hr hq => exact ⟨hr, fun g hg => hq g (List.mem_cons_of_mem f hg)⟩
  | pending above below w next b hc hw hne hr ha hb =>
    cases above with
    | nil =>
      obtain ⟨rfl, -⟩ := List.cons.inj hc
      rcases hw with rfl | rfl <;> exact absurd hq hne
    | cons g above =>
      obtain ⟨rfl, -⟩ := List.cons.inj hc
      exact absurd (ha f List.mem_cons_self) hf

theorem of_pending (h : Settled r p (f :: calls)) (hq : ¬ f.Quiet) :
    ∃ next b, (f = .unlocked p next b ∨ f = .switching p next b) ∧ p ≠ next ∧ r = some next ∧
      ∀ g ∈ calls, g.Quiet := by
  cases h with
  | quiet hr hall => exact absurd (hall f List.mem_cons_self) hq
  | pending above below w next b hc hw hne hr ha hb =>
    cases above with
    | nil =>
      obtain ⟨rfl, rfl⟩ := List.cons.inj hc
      exact ⟨next, b, hw, hne, hr, hb⟩
    | cons g above =>
      obtain ⟨rfl, -⟩ := List.cons.inj hc
      exact absurd (ha f List.mem_cons_self).quiet hq

theorem quiet_cons (hr : r = some p) (hq : ∀ g ∈ calls, g.Quiet) (hf : f.Quiet) :
    Settled r p (f :: calls) := by
  refine quiet hr (fun g hg => ?_)
  rcases List.mem_cons.mp hg with rfl | hg
  · exact hf
  · exact hq g hg

theorem scheduleBody (h : Settled (k.running c) p (.schedule :: calls))
    (hcond : ∀ q, k.running c = some q → q ≠ p → k.Alone c q)
    {chosen : Option (Ptr × Ptr × Bool)} (hres : scheduleBody c k = .ok chosen k') :
    Settled (k'.running c) p (.afterLock chosen :: calls) := by
  have hrun := (wp_scheduleBody_running c k).of_ok hres
  by_cases hown : k.running c = some p
  · have hq : ∀ g ∈ calls, g.Quiet := by
      cases h with
      | quiet _ hq => exact fun g hg => hq g (List.mem_cons_of_mem _ hg)
      | pending above below w next b hc hw hne hr ha hb =>
        exact absurd (Option.mem_unique hown hr) hne
    match chosen, hrun with
    | none, hrun => exact quiet_cons (hrun.trans hown) hq trivial
    | some (current, next, b), ⟨hcur, hnext⟩ =>
      obtain rfl := Option.mem_unique hcur hown
      by_cases hne : current = next
      · subst hne
        exact quiet_cons hnext hq rfl
      · exact pending [] calls _ next b rfl (Or.inl rfl) hne hnext nofun hq
  · -- interrupted before a switch: the same task is picked again
    obtain ⟨q, hq, hqp⟩ : ∃ q, k.running c = some q ∧ q ≠ p := by
      cases h with
      | quiet hr _ => exact absurd hr hown
      | pending above below w next b hc hw hne hr ha hb => exact ⟨next, hr, Ne.symm hne⟩
    obtain ⟨b, rfl⟩ := (wp_scheduleBody_alone hq (hcond q hq hqp)).of_ok hres
    have hsame : k'.running c = k.running c := hrun.2.trans hrun.1.symm
    change Settled (k'.running c) p ([.unlocked q q b] ++ calls)
    rw [hsame]
    refine (h.pop trivial).push _ ?_
    intro f hf
    rw [List.mem_singleton.mp hf]
    rfl

end Settled

namespace Owned

open Machine

variable {P : Platform} {m m' : Machine}

theorem keep (h : Owned c m) (hctx : m'.taskContext = m.taskContext)
    (hsw : m'.switches = m.switches) (howner : m'.code.owner = m.code.owner)
    (hset : Settled (m'.kernel.running c) m.code.owner m'.code.calls) : Owned c m' := by
  refine ⟨?_, ?_, ?_⟩
  · rw [hctx, howner]
    exact h.saved
  · rw [hsw]
    exact h.switches
  · rw [howner]
    exact hset

theorem switchTo (h : Owned c m) {next : Ptr} {rest : List Frame} (hne : m.code.owner ≠ next)
    (hrun : m.kernel.running c = some next) (hrest : ∀ f ∈ rest, f.Quiet) :
    Owned c (m.switchTo m.code.owner next rest) := by
  obtain ⟨hnext, hquiet⟩ := h.saved next hne.symm
  have howner : (m.switchTo m.code.owner next rest).code.owner = next := hnext
  refine ⟨?_, ?_, ?_⟩
  · intro q hq
    rw [howner] at hq
    by_cases hold : q = m.code.owner
    · subst hold
      rw [taskContext_switchTo_self]
      refine ⟨rfl, fun f hf => ?_⟩
      rcases List.mem_cons.mp hf with rfl | hf
      · trivial
      · exact hrest f hf
    · rw [taskContext_switchTo_ne m next rest hold]
      exact h.saved q hold
  · intro s hs
    rcases List.mem_cons.mp hs with rfl | hs
    · rfl
    · exact h.switches s hs
  · exact Settled.quiet (by rw [howner]; exact hrun) hquiet

theorem timer (h : Owned c m) (hm : m.timer P c = some m') : Owned c m' := by
  unfold Machine.timer at hm
  split at hm
  · simp only [Option.bind_eq_bind, Option.bind_eq_some_iff, Option.pure_def, Option.some.injEq,
      Prod.exists] at hm
    obtain ⟨b, m₁, hk, rfl⟩ := hm
    obtain ⟨k', hk', rfl⟩ := of_runKernel hk
    refine h.keep rfl rfl rfl ?_
    have hset : Settled (k'.running c) m.code.owner m.code.calls := by
      rw [(Leaves.tickBody P c).running hk']
      exact h.settled
    cases b with
    | true => exact hset.push [.schedule, .interruptReturn] (by simp [Frame.Nested])
    | false => exact hset.push [.interruptReturn] (by simp [Frame.Nested])
  · cases hm

theorem locked (h : Owned c m) {x : KernelM Unit} (hx : Leaves x) {f : Frame} {rest : List Frame}
    (hcalls : m.code.calls = f :: rest) (hq : f.Quiet) (hf : ¬ f.Nested)
    (hm : (do let (_, m) ← m.runKernel x; return m.setCalls (.schedule :: rest)) = some m') :
    Owned c m' := by
  simp only [Option.bind_eq_bind, Option.bind_eq_some_iff, Option.pure_def, Option.some.injEq,
    Prod.exists] at hm
  obtain ⟨_, m₁, hk, rfl⟩ := hm
  obtain ⟨k', hk', rfl⟩ := of_runKernel hk
  have hset := h.settled
  rw [hcalls] at hset
  obtain ⟨hr, hrest⟩ := hset.of_top hq hf
  refine h.keep rfl rfl rfl (Settled.quiet_cons ?_ hrest trivial)
  change k'.running c = _
  rw [hx.running hk']
  exact hr

theorem goOn (h : Owned c m) (hcond : m.Undisturbed c .next) (hm : m.goOn P c = some m') :
    Owned c m' := by
  have hset := h.settled
  unfold Machine.goOn at hm
  split at hm
  case h_1 rest hcalls =>
    cases hm
    rw [hcalls] at hset
    obtain ⟨hr, hrest⟩ := hset.of_top trivial id
    exact h.keep rfl rfl rfl (Settled.quiet_cons hr hrest trivial)
  case h_2 current r rest hcalls => exact h.locked (aloof_perCpu.blockBody c current r) hcalls trivial id hm
  case h_3 current ms rest hcalls =>
    cases hm
    rw [hcalls] at hset
    obtain ⟨hr, hrest⟩ := hset.of_top trivial id
    exact h.keep rfl rfl rfl (Settled.quiet_cons hr hrest trivial)
  case h_4 current ms rest hcalls =>
    exact h.locked (Leaves.sleepBody P c current ms) hcalls trivial id hm
  case h_5 rest hcalls =>
    rw [hcalls] at hset
    simp only [Option.bind_eq_bind, Option.bind_eq_some_iff, Option.pure_def, Option.some.injEq,
      Prod.exists] at hm
    obtain ⟨chosen, m₁, hk, rfl⟩ := hm
    obtain ⟨k', hk', rfl⟩ := of_runKernel hk
    exact h.keep rfl rfl rfl (hset.scheduleBody (hcond rfl (by rw [hcalls]; rfl)) hk')
  case h_6 current next b rest hcalls =>
    cases hm
    rw [hcalls] at hset
    refine h.keep rfl rfl rfl ?_
    by_cases hne : current = next
    · exact (hset.pop (f := .unlocked current next b) hne).push [.switching current next b]
        (fun f hf => by rw [List.mem_singleton.mp hf]; exact hne)
    · rcases hset.of_pending hne with ⟨next', b', hw, hne', hr, hrest⟩
      rcases hw with hw | hw <;> cases hw
      exact Settled.pending [] rest _ next b rfl (Or.inr rfl) hne' hr nofun hrest
  case h_7 current next b rest hcalls =>
    rw [hcalls] at hset
    split at hm
    · rename_i hne
      cases hm
      rcases hset.of_pending (f := .switching current next b) hne with ⟨next', b', hw, hne', hr, hrest⟩
      rcases hw with hw | hw <;> cases hw
      exact h.switchTo hne' hr hrest
    · rename_i heq
      split at hm
      · cases hm
      · cases hm
        refine h.keep rfl rfl rfl ?_
        exact (hset.pop (f := .switching current next b) (not_not.mp heq)).push [.switched]
          (by simp [Frame.Nested])
  case h_8 rest hcalls =>
    cases hm
    rw [hcalls] at hset
    exact h.keep rfl rfl rfl (hset.pop trivial)
  case h_9 rest hcalls =>
    cases hm
    rw [hcalls] at hset
    exact h.keep rfl rfl rfl (hset.pop trivial)
  case h_10 => cases hm

theorem of_task (h : Owned c m) (htop : m.code.calls.head? = some .task) :
    m.kernel.running c = some m.code.owner ∧ ∀ f ∈ m.code.calls, f.Quiet := by
  have hset := h.settled
  cases hcalls : m.code.calls with
  | nil =>
    rw [hcalls] at htop
    cases htop
  | cons f rest =>
    rw [hcalls] at htop hset
    obtain rfl : f = .task := Option.some.inj htop
    obtain ⟨hr, hrest⟩ := hset.of_top trivial id
    refine ⟨hr, fun g hg => ?_⟩
    rcases List.mem_cons.mp hg with rfl | hg
    · trivial
    · exact hrest g hg

theorem call (h : Owned c m) (htop : m.code.calls.head? = some .task) {f : Ptr → Frame}
    {noTask notRunning : String} (hf : ∀ q, (f q).Quiet)
    (hm : m.call c f noTask notRunning = some m') : Owned c m' := by
  obtain ⟨hr, hq⟩ := h.of_task htop
  simp only [Machine.call, Option.bind_eq_bind, Option.bind_eq_some_iff, Option.pure_def,
    Option.some.injEq, Prod.exists] at hm
  obtain ⟨current, m₁, hk, rfl⟩ := hm
  obtain ⟨k', hk', rfl⟩ := of_runKernel hk
  refine h.keep rfl rfl rfl (Settled.quiet_cons ?_ hq (hf current))
  change k'.running c = _
  rw [Leaves.running (keeps_runningTask c noTask notRunning) hk']
  exact hr

theorem create (h : Owned c m) (p : Ptr) (t : TaskControlBlock) : Owned c (m.create p t) := by
  refine ⟨?_, h.switches, h.settled⟩
  intro q hq
  by_cases hqp : q = p
  · subst hqp
    have hctx : (m.create q t).taskContext q = .fresh q := Function.update_self _ _ _
    rw [hctx]
    exact ⟨rfl, fun f hf => by rw [List.mem_singleton.mp hf]; trivial⟩
  · have hctx : (m.create p t).taskContext q = m.taskContext q := Function.update_of_ne hqp _ _
    rw [hctx]
    exact h.saved q hq

theorem act (h : Owned c m) {a : Action} (htop : m.code.calls.head? = some .task)
    (hm : m.act c a = some m') : Owned c m' := by
  cases a with
  | tick | next => cases hm
  | schedule =>
    obtain ⟨hr, hq⟩ := h.of_task htop
    cases hm
    exact h.keep rfl rfl rfl (Settled.quiet_cons hr hq trivial)
  | block r =>
    rw [Machine.act] at hm
    refine h.call htop ?_ hm
    intro q
    trivial
  | sleep ms =>
    rw [Machine.act] at hm
    refine h.call htop (fun q => ?_) hm
    split <;> trivial
  | setInterrupts b =>
    cases hm
    exact h.keep rfl rfl rfl h.settled
  | create q t =>
    rw [Machine.act] at hm
    split at hm
    · cases hm
      exact h.create q t
    · cases hm
  | work w =>
    obtain ⟨hr, hq⟩ := h.of_task htop
    simp only [Machine.act, Option.bind_eq_bind, Option.bind_eq_some_iff, Option.pure_def,
      Option.some.injEq, Prod.exists] at hm
    obtain ⟨_, m₁, hk, rfl⟩ := hm
    obtain ⟨k', hk', rfl⟩ := of_runKernel hk
    refine h.keep rfl rfl rfl (Settled.quiet ?_ hq)
    change k'.running c = _
    rw [w.leaves.running hk']
    exact hr

theorem step (h : Owned c m) {a : Action} (hcond : m.Undisturbed c a) (hm : m.step P c a = some m') :
    Owned c m' := by
  unfold Machine.step at hm
  split at hm
  · exact h.timer hm
  · exact h.goOn hcond hm
  · split at hm
    · rename_i htop
      exact h.act htop hm
    · cases hm

end Owned

/-- The states of core `c` after boot, when the task `p` is entered first and every action
is one that `A` allows. -/
inductive MachineRun (P : Platform) (c : CoreId) (A : Machine → Action → Prop) (k : Kernel) (p : Ptr) :
    Machine → Prop where
  | booted : k.bootDone = true → k.running c = some p → MachineRun P c A k p (.booted k p)
  | step {m m' : Machine} (a : Action) : MachineRun P c A k p m → A m a → m.step P c a = some m' →
      MachineRun P c A k p m'

variable {P : Platform} {m : Machine}

theorem MachineRun.owned (h : MachineRun P c (fun m a => m.Undisturbed c a) k p m) : Owned c m := by
  induction h with
  | booted _ hrun =>
    have hfresh : ∀ q, ∀ f ∈ (Continuation.fresh q).calls, f.Quiet := by
      intro q f hf
      rw [List.mem_singleton.mp hf]
      trivial
    exact ⟨fun q _ => ⟨rfl, hfresh q⟩, nofun, Settled.quiet hrun (hfresh p)⟩
  | step a _ hA hm ih => exact ih.step hA hm

/-- As long as a running task that was chosen in an interrupted `Schedule` is alone whenever
the interrupt schedules, every `switch_to` saves into the context of the task whose code is
executed, and every other task has its own continuation. -/
theorem contexts_saved_by_owner (h : MachineRun P c (fun m a => m.Undisturbed c a) k p m) :
    (∀ s ∈ m.switches, s.saved = s.executing) ∧
      ∀ q, q ≠ m.code.owner → (m.taskContext q).owner = q :=
  ⟨h.owned.switches, fun q hq => (h.owned.saved q hq).1⟩

theorem MachineRun.actions {A : Machine → Action → Prop} {check : Machine → Action → Bool}
    (hcheck : ∀ m a, check m a = true → A m a) {as : List Action} {m' : Machine}
    (h : MachineRun P c A k p m)
    (hm : as.foldlM (fun m a => if check m a then m.step P c a else none) m = some m') :
    MachineRun P c A k p m' := by
  induction as generalizing m with
  | nil =>
    cases hm
    exact h
  | cons a as ih =>
    rw [List.foldlM_cons] at hm
    obtain ⟨m₁, hm₁, hm⟩ := Option.bind_eq_some_iff.mp hm
    split at hm₁
    · rename_i hA
      exact ih (h.step a (hcheck m a hA) hm₁) hm
    · cases hm₁

theorem MachineRun.exists_actions {A : Machine → Action → Prop} (check : Machine → Action → Bool)
    (hcheck : ∀ m a, check m a = true → A m a) (as : List Action) {R : Machine → Prop}
    [DecidablePred R] (hboot : k.bootDone = true) (hrun : k.running c = some p)
    (h : (as.foldlM (fun m a => if check m a then m.step P c a else none) (.booted k p)).any
      (fun m => decide (R m)) = true) : ∃ m, MachineRun P c A k p m ∧ R m := by
  cases hm : as.foldlM (fun m a => if check m a then m.step P c a else none) (.booted k p) with
  | none =>
    rw [hm] at h
    cases h
  | some m =>
    rw [hm] at h
    exact ⟨m, (MachineRun.booted hboot hrun).actions hcheck hm, of_decide_eq_true h⟩

/-- One task yields to another. -/
theorem contexts_saved_by_owner_example : ∃ added k, Reaches (presetPlatform true) 0 10 added k ∧
    ∃ m, MachineRun (presetPlatform true) 0 (fun m a => m.Undisturbed 0 a) k 1 m ∧
      m.switches.length = 1 ∧ ∀ s ∈ m.switches, s.saved = s.executing := by
  have h₀ := Reaches.init (P := presetPlatform true) (c := 0) (i := 10) rfl
  have h₁ := h₀.step (.addTask 1 {}) ⟨rfl, rfl, rfl, rfl, Or.inr rfl⟩ rfl
  have h₂ := h₁.step (.addTask 2 {}) ⟨rfl, rfl, rfl, rfl, Or.inr rfl⟩ rfl
  have h₃ := h₂.step .schedule trivial rfl
  -- `Schedule` is entered only by the running task
  have hcheck : ∀ (m : Machine) (a : Action), decide (m.code.calls.head? ≠ some .schedule ∨
      m.kernel.running 0 = some m.code.owner) = true → m.Undisturbed 0 a := by
    intro m a h _ htop q hq hne
    rcases of_decide_eq_true h with h | h
    · exact absurd htop h
    · exact absurd (Option.mem_unique hq h) hne
  have holds : ∀ k, (∃ m, MachineRun (presetPlatform true) 0 (fun m a => m.Undisturbed 0 a) k 1 m ∧
      m.switches.length = 1) → ∃ m, MachineRun (presetPlatform true) 0
        (fun m a => m.Undisturbed 0 a) k 1 m ∧
      m.switches.length = 1 ∧ ∀ s ∈ m.switches, s.saved = s.executing := by
    rintro k ⟨m, hm, hlen⟩
    exact ⟨m, hm, hlen, (contexts_saved_by_owner hm).1⟩
  refine ⟨_, _, h₃, holds _ (MachineRun.exists_actions _ hcheck
    [.next, .schedule, .next, .next, .next] rfl rfl ?_)⟩
  decide +kernel

/-- Task 1 sleeps for one tick, and task 2 blocks. The tick comes when `Schedule` has made
task 3 the running task and has not switched to it: the code of task 2 is saved as the
context of task 3. -/
theorem tick_before_switch_saves_wrong_context : ∃ added k, Reaches (presetPlatform true) 0 10 added k ∧
    ∃ m, MachineRun (presetPlatform true) 0 (fun _ _ => True) k 1 m ∧
      ⟨3, 2⟩ ∈ m.switches ∧ (m.taskContext 3).owner = 2 := by
  have h₀ := Reaches.init (P := presetPlatform true) (c := 0) (i := 10) rfl
  have h₁ := h₀.step (.addTask 1 {}) ⟨rfl, rfl, rfl, rfl, Or.inr rfl⟩ rfl
  have h₂ := h₁.step (.addTask 2 {}) ⟨rfl, rfl, rfl, rfl, Or.inr rfl⟩ rfl
  have h₃ := h₂.step (.addTask 3 {}) ⟨rfl, rfl, rfl, rfl, Or.inr rfl⟩ rfl
  have h₄ := h₃.step .schedule trivial rfl
  refine ⟨_, _, h₄, MachineRun.exists_actions (fun _ _ => true) (fun _ _ _ => trivial)
    [.next, .sleep 1, .next, .next, .next, .next, .next, .next, .block ⟨7⟩, .next, .next, .tick,
      .next, .next, .next] rfl rfl ?_⟩
  decide +kernel

end NaiLongKernel.Task
