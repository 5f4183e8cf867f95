import NaiLongKernel.Foundation.Reached
import NaiLongKernel.Task.Running
import NaiLongKernel.Task.SingleCore

/-!
# The end of a timer interrupt

One core after boot, from the acknowledgement of a tick through `Interrupt::Do`, the
registered handler, `TickUpdate` and `Schedule` to `switch_to`. The interrupt controller
knows the tick that is acknowledged and not ended, and signals no other as long as there
is one. On x86_64 the handler writes the end of interrupt first; on aarch64
`Interrupt::Do` writes it after the handler has returned.
-/
namespace NaiLongKernel.Arch

open Foundation NaiLongKernel.Task

inductive Architecture where
  | x86_64
  | aarch64
deriving DecidableEq, Repr

/-- Where a call that has not returned will go on. The calls of `Schedule` carry the tick on
whose behalf they are made. -/
inductive IrqFrame where
  /-- The first switch to a task jumps here; interrupts are enabled. -/
  | kernelThreadEntry
  /-- The code of the task itself. -/
  | task
  /-- The registered timer handler, at its start. -/
  | timerHandler (tick : ℕ)
  /-- `TickUpdate` before the lock. -/
  | tickUpdate (tick : ℕ)
  /-- `Schedule` before the lock. -/
  | schedule (cause : Option ℕ)
  /-- `Schedule` after `UnLock`. -/
  | unlocked (current next : Ptr) (mustLeave : Bool) (cause : Option ℕ)
  /-- `Schedule` before `switch_to`; interrupts are disabled. -/
  | switching (current next : Ptr) (mustLeave : Bool) (cause : Option ℕ)
  /-- `Schedule` after `switch_to`. -/
  | switched
  /-- `Schedule` has found nothing to run. -/
  | parked
  /-- `Interrupt::Do` after the handler has returned. -/
  | afterHandler (tick : ℕ)
  /-- The return from the interrupt. -/
  | interruptReturn
deriving DecidableEq, Repr

inductive IrqEvent where
  | acknowledged (tick : ℕ)
  | ended (tick : ℕ)
  /-- A call of `switch_to`. -/
  | switched (cause : Option ℕ)
deriving DecidableEq, Repr

structure IrqMachine where
  kernel : Kernel
  intrEnabled : Bool
  /-- The tick that is acknowledged and not ended. -/
  active : Option ℕ
  /-- How many ticks there have been. -/
  ticks : ℕ
  code : List IrqFrame
  taskContext : Ptr → List IrqFrame
  /-- What has happened, the newest first. -/
  trace : List IrqEvent

inductive IrqAction where
  | tick
  /-- The innermost call goes on. -/
  | next
  /-- The task calls `Schedule`. -/
  | schedule
  | setInterrupts (enabled : Bool)
  /-- The task creates a control block, with a fresh context. -/
  | create (p : Ptr) (t : TaskControlBlock)
  /-- The task changes the state of the kernel otherwise. -/
  | work (program : KernelM Unit)

namespace IrqMachine

def booted (k : Kernel) : IrqMachine :=
  ⟨k, false, none, 0, [.kernelThreadEntry], fun _ => [.kernelThreadEntry], []⟩

def setCode (code : List IrqFrame) (m : IrqMachine) : IrqMachine := { m with code := code }

def runKernel {α : Type} (x : KernelM α) (m : IrqMachine) : Option (α × IrqMachine) :=
  match x m.kernel with
  | .ok a k => some (a, { m with kernel := k })
  | .error _ _ => none

/-- The write to the EOI register of the APIC or to `ICC_EOIR1_EL1`. -/
def endOfInterrupt (m : IrqMachine) : IrqMachine :=
  { m with active := none, trace := (m.active.map .ended).toList ++ m.trace }

/-- `switch_to(&current->task_context, &next->task_context)`. -/
def switchTo (current next : Ptr) (cause : Option ℕ) (rest : List IrqFrame) (m : IrqMachine) :
    IrqMachine :=
  { m with
    code := m.taskContext next
    taskContext := Function.update m.taskContext current (.switched :: rest)
    trace := .switched cause :: m.trace }

variable (arch : Architecture) (P : Platform) (c : CoreId)

def goOn (m : IrqMachine) : Option IrqMachine :=
  match m.code with
  | .kernelThreadEntry :: rest => some { m.setCode (.task :: rest) with intrEnabled := true }
  | .timerHandler n :: rest =>
    match arch with
    | .x86_64 => some (m.endOfInterrupt.setCode (.tickUpdate n :: rest))
    | .aarch64 => some (m.setCode (.tickUpdate n :: rest))
  | .tickUpdate n :: rest => do
    let (needPreempt, m) ← m.runKernel (tickBody P c)
    return m.setCode (if needPreempt then .schedule (some n) :: rest else rest)
  | .schedule cause :: rest => do
    let (chosen, m) ← m.runKernel (scheduleBody c)
    match chosen with
    | some (current, next, mustLeave) => return m.setCode (.unlocked current next mustLeave cause :: rest)
    | none => return { m.setCode (.parked :: rest) with intrEnabled := true }
  | .unlocked current next mustLeave cause :: rest =>
    some { m.setCode (.switching current next mustLeave cause :: rest) with intrEnabled := false }
  | .switching current next mustLeave cause :: rest =>
    if current ≠ next then some (m.switchTo current next cause rest)
    else if mustLeave then none
    else some (m.setCode (.switched :: rest))
  | .switched :: rest => some { m.setCode rest with intrEnabled := true }
  | .afterHandler _ :: rest =>
    match arch with
    | .x86_64 => some (m.setCode rest)
    | .aarch64 => some (m.endOfInterrupt.setCode rest)
  | .interruptReturn :: rest => some { m.setCode rest with intrEnabled := true }
  | _ => none

/-- A tick is acknowledged; interrupts are disabled on entry. -/
def acknowledge (m : IrqMachine) : Option IrqMachine :=
  if m.intrEnabled ∧ m.active = none then
    some { m with
      intrEnabled := false
      active := some m.ticks
      ticks := m.ticks + 1
      code := .timerHandler m.ticks :: .afterHandler m.ticks :: .interruptReturn :: m.code
      trace := .acknowledged m.ticks :: m.trace }
  else none

def act (m : IrqMachine) : IrqAction → Option IrqMachine
  | .schedule => some (m.setCode (.schedule none :: m.code))
  | .setInterrupts enabled => some { m with intrEnabled := enabled }
  | .create p t =>
    if (m.kernel.tasks p).isNone then
      some { m with
        kernel := m.kernel.setTask p t
        taskContext := Function.update m.taskContext p [.kernelThreadEntry] }
    else none
  | .work x => do
    let (_, m) ← m.runKernel x
    return m
  | _ => none

def step (m : IrqMachine) : IrqAction → Option IrqMachine
  | .tick => m.acknowledge
  | .next => m.goOn arch P c
  | a => if m.code.head? = some .task then m.act a else none

/-- A switch on behalf of a tick comes after the end of that interrupt, and as long as a
tick is acknowledged and not ended, the code that is executed is inside its handler. -/
structure Completed (m : IrqMachine) : Prop where
  switches : ∀ newer older n, m.trace = newer ++ .switched (some n) :: older → .ended n ∈ older
  inside : ∀ n, m.active = some n → .afterHandler n ∈ m.code

end IrqMachine

namespace IrqFrame

def servedTick : IrqFrame → Option ℕ
  | timerHandler n => some n
  | tickUpdate n => some n
  | schedule cause => cause
  | unlocked _ _ _ cause => cause
  | switching _ _ _ cause => cause
  | _ => none

def Done (trace : List IrqEvent) (f : IrqFrame) : Prop :=
  ∀ n, f.servedTick = some n → .ended n ∈ trace

variable {trace trace' : List IrqEvent} {f : IrqFrame}

theorem Done.mono (h : f.Done trace) (hsub : trace ⊆ trace') : f.Done trace' :=
  fun n hn => hsub (h n hn)

theorem done_of_none (h : f.servedTick = none) : f.Done trace := by
  intro n hn
  rw [h] at hn
  cases hn

theorem Done.congr {g : IrqFrame} (h : f.Done trace) (hg : g.servedTick = f.servedTick) :
    g.Done trace := by
  intro n hn
  exact h n (hg ▸ hn)

end IrqFrame

open IrqFrame

/-- The calls above `Interrupt::Do` while tick `n` is not ended. -/
inductive Serving (arch : Architecture) (c : CoreId) (k : Kernel) (n : ℕ) : List IrqFrame → Prop where
  | handler : Serving arch c k n [timerHandler n]
  | tickUpdate : arch = .aarch64 → Serving arch c k n [tickUpdate n]
  | schedule (p : Ptr) : arch = .aarch64 → k.running c = some p → k.Alone c p →
      Serving arch c k n [schedule (some n)]
  | unlocked (p : Ptr) (b : Bool) : arch = .aarch64 → Serving arch c k n [unlocked p p b (some n)]
  | switching (p : Ptr) (b : Bool) : arch = .aarch64 → Serving arch c k n [switching p p b (some n)]
  | switched : arch = .aarch64 → Serving arch c k n [switched]
  | returned : arch = .aarch64 → Serving arch c k n []

namespace IrqMachine

variable {arch : Architecture} {P : Platform} {c : CoreId} {m m' : IrqMachine}

/-- The invariant: calls go on for ticks that have been ended, those of the handler of the
active tick apart. -/
structure Orderly (arch : Architecture) (c : CoreId) (m : IrqMachine) : Prop where
  switches : ∀ newer older n, m.trace = newer ++ .switched (some n) :: older → .ended n ∈ older
  contexts : ∀ q, ∀ f ∈ m.taskContext q, f.Done m.trace
  code : m.active = none ∧ (∀ f ∈ m.code, f.Done m.trace) ∨
    ∃ n calls rest, m.active = some n ∧ m.code = calls ++ afterHandler n :: rest ∧
      Serving arch c m.kernel n calls ∧ ∀ f ∈ rest, f.Done m.trace

/-- On aarch64 `TickUpdate` is entered only in states in which a tick keeps the running task. -/
def Calm (arch : Architecture) (c : CoreId) (m : IrqMachine) (a : IrqAction) : Prop :=
  arch = .aarch64 → a = .next → (∃ n, m.code.head? = some (.tickUpdate n)) → m.kernel.TickStays c

theorem Orderly.completed (h : m.Orderly arch c) : m.Completed := by
  refine ⟨h.switches, ?_⟩
  intro n hn
  rcases h.code with ⟨hnone, -⟩ | ⟨n', calls, rest, hactive, hcode, -, -⟩
  · rw [hnone] at hn
    cases hn
  · obtain rfl := Option.mem_unique hactive hn
    rw [hcode]
    simp

theorem of_runKernel {α : Type} {x : KernelM α} {a : α} (h : m.runKernel x = some (a, m')) :
    ∃ k', x m.kernel = .ok a k' ∧ m' = { m with kernel := k' } := by
  unfold runKernel at h
  split at h
  · rename_i hx
    cases h
    exact ⟨_, hx, rfl⟩
  · cases h

namespace Orderly

theorem switches_cons (h : m.Orderly arch c) {e : IrqEvent} (he : ∀ n, e = .switched (some n) → .ended n ∈ m.trace) :
    ∀ newer older n, e :: m.trace = newer ++ .switched (some n) :: older → .ended n ∈ older := by
  intro newer older n heq
  cases newer with
  | nil =>
    obtain ⟨rfl, rfl⟩ := List.cons.inj heq
    exact he n rfl
  | cons e' newer =>
    obtain ⟨-, heq⟩ := List.cons.inj heq
    exact h.switches newer older n heq

theorem idle (h : m.Orderly arch c) (hactive : m'.active = none) (htrace : m'.trace = m.trace)
    (hctx : m'.taskContext = m.taskContext) (hcode : ∀ f ∈ m'.code, f.Done m.trace) :
    m'.Orderly arch c := by
  refine ⟨?_, ?_, Or.inl ⟨hactive, ?_⟩⟩
  · rw [htrace]
    exact h.switches
  · rw [htrace, hctx]
    exact h.contexts
  · rw [htrace]
    exact hcode

theorem serving (h : m.Orderly arch c) {n : ℕ} {calls rest : List IrqFrame}
    (hactive : m'.active = some n) (htrace : m'.trace = m.trace)
    (hctx : m'.taskContext = m.taskContext) (hcode : m'.code = calls ++ afterHandler n :: rest)
    (hcalls : Serving arch c m'.kernel n calls) (hrest : ∀ f ∈ rest, f.Done m.trace) :
    m'.Orderly arch c := by
  refine ⟨?_, ?_, Or.inr ⟨n, calls, rest, hactive, hcode, hcalls, ?_⟩⟩
  · rw [htrace]
    exact h.switches
  · rw [htrace, hctx]
    exact h.contexts
  · rw [htrace]
    exact hrest

theorem ended (h : m.Orderly arch c) {n : ℕ} {code : List IrqFrame} (hactive : m.active = some n)
    (hcode : ∀ f ∈ code, f.Done (.ended n :: m.trace)) :
    (m.endOfInterrupt.setCode code).Orderly arch c := by
  have htrace : (m.endOfInterrupt.setCode code).trace = .ended n :: m.trace := by
    simp [endOfInterrupt, setCode, hactive]
  refine ⟨?_, ?_, Or.inl ⟨rfl, ?_⟩⟩
  · rw [htrace]
    exact h.switches_cons nofun
  · rw [htrace]
    exact fun q f hf => (h.contexts q f hf).mono (List.subset_cons_self _ _)
  · rw [htrace]
    exact hcode

theorem acknowledge (h : m.Orderly arch c) (hm : m.acknowledge = some m') : m'.Orderly arch c := by
  unfold IrqMachine.acknowledge at hm
  split at hm
  · rename_i hcond
    cases hm
    have hcode : ∀ f ∈ m.code, f.Done m.trace := by
      rcases h.code with ⟨-, hcode⟩ | ⟨n, calls, rest, hactive, -⟩
      · exact hcode
      · rw [hcond.2] at hactive
        cases hactive
    have hsub : m.trace ⊆ .acknowledged m.ticks :: m.trace := List.subset_cons_self _ _
    refine ⟨h.switches_cons nofun, fun q f hf => (h.contexts q f hf).mono hsub, Or.inr ?_⟩
    refine ⟨m.ticks, [timerHandler m.ticks], interruptReturn :: m.code, rfl, rfl, .handler, ?_⟩
    intro f hf
    rcases List.mem_cons.mp hf with rfl | hf
    · exact done_of_none rfl
    · exact (hcode f hf).mono hsub
  · cases hm

theorem switchTo (h : m.Orderly arch c) (hactive : m.active = none) {cause : Option ℕ}
    {rest : List IrqFrame} (current next : Ptr)
    (hcause : ∀ n, cause = some n → .ended n ∈ m.trace) (hrest : ∀ f ∈ rest, f.Done m.trace) :
    (m.switchTo current next cause rest).Orderly arch c := by
  have hsub : m.trace ⊆ .switched cause :: m.trace := List.subset_cons_self _ _
  refine ⟨h.switches_cons ?_, ?_, Or.inl ⟨hactive, ?_⟩⟩
  · rintro n hn
    cases hn
    exact hcause n rfl
  · intro q
    by_cases hq : q = current
    · subst hq
      have hctx : (m.switchTo q next cause rest).taskContext q = switched :: rest :=
        Function.update_self _ _ _
      rw [hctx, List.forall_mem_cons]
      exact ⟨done_of_none rfl, fun f hf => (hrest f hf).mono hsub⟩
    · have hctx : (m.switchTo current next cause rest).taskContext q = m.taskContext q :=
        Function.update_of_ne hq _ _
      rw [hctx]
      exact fun f hf => (h.contexts q f hf).mono hsub
  · exact fun f hf => (h.contexts next f hf).mono hsub

theorem goOn_idle (h : m.Orderly arch c) (hactive : m.active = none)
    (hdone : ∀ f ∈ m.code, f.Done m.trace) (hm : m.goOn arch P c = some m') : m'.Orderly arch c := by
  have hend : m.endOfInterrupt.trace = m.trace := by simp [endOfInterrupt, hactive]
  unfold IrqMachine.goOn at hm
  split at hm
  case h_1 rest hcode =>
    rw [hcode, List.forall_mem_cons] at hdone
    cases hm
    refine h.idle hactive rfl rfl (List.forall_mem_cons.mpr ⟨done_of_none rfl, hdone.2⟩)
  case h_2 n rest hcode =>
    rw [hcode, List.forall_mem_cons] at hdone
    have hnext : ∀ f ∈ tickUpdate n :: rest, f.Done m.trace :=
      List.forall_mem_cons.mpr ⟨hdone.1.congr rfl, hdone.2⟩
    cases arch with
    | x86_64 =>
      cases hm
      exact h.idle rfl hend rfl hnext
    | aarch64 =>
      cases hm
      exact h.idle hactive rfl rfl hnext
  case h_3 n rest hcode =>
    rw [hcode, List.forall_mem_cons] at hdone
    simp only [Option.bind_eq_bind, Option.bind_eq_some_iff, Option.pure_def, Option.some.injEq,
      Prod.exists] at hm
    obtain ⟨b, m₁, hk, rfl⟩ := hm
    obtain ⟨k', hk', rfl⟩ := of_runKernel hk
    refine h.idle hactive rfl rfl ?_
    cases b with
    | true => exact List.forall_mem_cons.mpr ⟨hdone.1.congr rfl, hdone.2⟩
    | false => exact hdone.2
  case h_4 cause rest hcode =>
    rw [hcode, List.forall_mem_cons] at hdone
    simp only [Option.bind_eq_bind, Option.bind_eq_some_iff, Prod.exists] at hm
    obtain ⟨chosen, m₁, hk, hm⟩ := hm
    obtain ⟨k', hk', rfl⟩ := of_runKernel hk
    cases chosen with
    | none =>
      cases hm
      exact h.idle hactive rfl rfl (List.forall_mem_cons.mpr ⟨done_of_none rfl, hdone.2⟩)
    | some r =>
      cases hm
      exact h.idle hactive rfl rfl (List.forall_mem_cons.mpr ⟨hdone.1.congr rfl, hdone.2⟩)
  case h_5 current next b cause rest hcode =>
    rw [hcode, List.forall_mem_cons] at hdone
    cases hm
    exact h.idle hactive rfl rfl (List.forall_mem_cons.mpr ⟨hdone.1.congr rfl, hdone.2⟩)
  case h_6 current next b cause rest hcode =>
    rw [hcode, List.forall_mem_cons] at hdone
    split at hm
    · cases hm
      exact h.switchTo hactive current next hdone.1 hdone.2
    · split at hm
      · cases hm
      · cases hm
        exact h.idle hactive rfl rfl (List.forall_mem_cons.mpr ⟨done_of_none rfl, hdone.2⟩)
  case h_7 rest hcode =>
    rw [hcode, List.forall_mem_cons] at hdone
    cases hm
    exact h.idle hactive rfl rfl hdone.2
  case h_8 n rest hcode =>
    rw [hcode, List.forall_mem_cons] at hdone
    cases arch with
    | x86_64 =>
      cases hm
      exact h.idle hactive rfl rfl hdone.2
    | aarch64 =>
      cases hm
      exact h.idle rfl hend rfl hdone.2
  case h_9 rest hcode =>
    rw [hcode, List.forall_mem_cons] at hdone
    cases hm
    exact h.idle hactive rfl rfl hdone.2
  case h_10 => cases hm

theorem goOn_serving (h : m.Orderly arch c) (hcalm : m.Calm arch c .next) {n : ℕ}
    {calls rest : List IrqFrame} (hactive : m.active = some n)
    (hcode : m.code = calls ++ afterHandler n :: rest) (hcalls : Serving arch c m.kernel n calls)
    (hrest : ∀ f ∈ rest, f.Done m.trace) (hm : m.goOn arch P c = some m') : m'.Orderly arch c := by
  have hended : ∀ f ∈ rest, f.Done (.ended n :: m.trace) :=
    fun f hf => (hrest f hf).mono (List.subset_cons_self _ _)
  cases hcalls with
  | handler =>
    simp only [IrqMachine.goOn, hcode, List.cons_append, List.nil_append] at hm
    cases arch with
    | x86_64 =>
      cases hm
      refine h.ended hactive (List.forall_mem_cons.mpr ⟨?_, List.forall_mem_cons.mpr ⟨?_, hended⟩⟩)
      · intro n' hn'
        obtain rfl : n = n' := Option.some.inj hn'
        exact List.mem_cons_self
      · exact done_of_none rfl
    | aarch64 =>
      cases hm
      exact h.serving hactive rfl rfl rfl (.tickUpdate rfl) hrest
  | tickUpdate harch =>
    have hstays : m.kernel.TickStays c := hcalm harch rfl ⟨n, by rw [hcode]; rfl⟩
    simp only [IrqMachine.goOn, hcode, List.cons_append, List.nil_append, Option.bind_eq_bind,
      Option.bind_eq_some_iff, Option.pure_def, Option.some.injEq, Prod.exists] at hm
    obtain ⟨b, m₁, hk, rfl⟩ := hm
    obtain ⟨k', hk', rfl⟩ := of_runKernel hk
    cases b with
    | true =>
      obtain ⟨p, hrun, halone⟩ := (wp_tickBody_stays hstays).of_ok hk' rfl
      exact h.serving hactive rfl rfl rfl (.schedule p harch hrun halone) hrest
    | false =>
      refine h.serving hactive rfl rfl ?_ (.returned harch) hrest
      rfl
  | schedule p harch hrun halone =>
    simp only [IrqMachine.goOn, hcode, List.cons_append, List.nil_append, Option.bind_eq_bind,
      Option.bind_eq_some_iff, Prod.exists] at hm
    obtain ⟨chosen, m₁, hk, hm⟩ := hm
    obtain ⟨k', hk', rfl⟩ := of_runKernel hk
    obtain ⟨b, rfl⟩ := (wp_scheduleBody_alone hrun halone).of_ok hk'
    cases hm
    exact h.serving hactive rfl rfl rfl (.unlocked p b harch) hrest
  | unlocked p b harch =>
    simp only [IrqMachine.goOn, hcode, List.cons_append, List.nil_append] at hm
    cases hm
    exact h.serving hactive rfl rfl rfl (.switching p b harch) hrest
  | switching p b harch =>
    simp only [IrqMachine.goOn, hcode, List.cons_append, List.nil_append, ne_eq, not_true_eq_false,
      if_false] at hm
    split at hm
    · cases hm
    · cases hm
      exact h.serving hactive rfl rfl rfl (.switched harch) hrest
  | switched harch =>
    simp only [IrqMachine.goOn, hcode, List.cons_append, List.nil_append] at hm
    cases hm
    refine h.serving hactive rfl rfl ?_ (.returned harch) hrest
    rfl
  | returned harch =>
    subst harch
    simp only [IrqMachine.goOn, hcode, List.nil_append] at hm
    cases hm
    exact h.ended hactive hended

theorem of_task (h : m.Orderly arch c) (htop : m.code.head? = some .task) :
    m.active = none ∧ ∀ f ∈ m.code, f.Done m.trace := by
  rcases h.code with hidle | ⟨n, calls, rest, -, hcode, hcalls, -⟩
  · exact hidle
  · rw [hcode] at htop
    cases hcalls <;> cases htop

theorem act (h : m.Orderly arch c) {a : IrqAction} (htop : m.code.head? = some .task)
    (hm : m.act a = some m') : m'.Orderly arch c := by
  obtain ⟨hactive, hdone⟩ := h.of_task htop
  cases a with
  | tick | next => cases hm
  | schedule =>
    cases hm
    exact h.idle hactive rfl rfl (List.forall_mem_cons.mpr ⟨done_of_none rfl, hdone⟩)
  | setInterrupts b =>
    cases hm
    exact h.idle hactive rfl rfl hdone
  | create p t =>
    rw [IrqMachine.act] at hm
    split at hm
    · cases hm
      refine ⟨h.switches, ?_, Or.inl ⟨hactive, hdone⟩⟩
      intro q
      by_cases hq : q = p
      · subst hq
        simp [done_of_none (f := .kernelThreadEntry) rfl]
      · simpa [Function.update_of_ne hq] using h.contexts q
    · cases hm
  | work x =>
    simp only [IrqMachine.act, Option.bind_eq_bind, Option.bind_eq_some_iff, Option.pure_def,
      Option.some.injEq, Prod.exists] at hm
    obtain ⟨_, m₁, hk, rfl⟩ := hm
    obtain ⟨k', hk', rfl⟩ := of_runKernel hk
    exact h.idle hactive rfl rfl hdone

theorem step (h : m.Orderly arch c) {a : IrqAction} (hcalm : m.Calm arch c a)
    (hm : m.step arch P c a = some m') : m'.Orderly arch c := by
  unfold IrqMachine.step at hm
  split at hm
  · exact h.acknowledge hm
  · rcases h.code with ⟨hactive, hdone⟩ | ⟨n, calls, rest, hactive, hcode, hcalls, hrest⟩
    · exact h.goOn_idle hactive hdone hm
    · exact h.goOn_serving hcalm hactive hcode hcalls hrest hm
  · split at hm
    · rename_i htop
      exact h.act htop hm
    · cases hm

end Orderly

theorem orderly_booted (k : Kernel) : (booted k).Orderly arch c := by
  have hentry : ∀ f ∈ [kernelThreadEntry], f.Done [] := by
    intro f hf
    rw [List.mem_singleton.mp hf]
    exact done_of_none rfl
  refine ⟨?_, fun q => hentry, Or.inl ⟨rfl, hentry⟩⟩
  intro newer older n htrace
  cases newer <;> cases htrace

end IrqMachine

variable {arch : Architecture} {P : Platform} {c : CoreId} {k : Kernel} {m : IrqMachine}

/-- The end of a timer interrupt is written before any switch on behalf of the tick, and no
task runs outside the handler while the tick is active: on x86_64 in every run, on aarch64
as long as every tick keeps the running task. -/
theorem interrupt_ended_before_switch
    (h : Reached (IrqMachine.step arch P c) (IrqMachine.Calm arch c) (IrqMachine.booted k) m) :
    m.Completed :=
  (h.invariant (IrqMachine.orderly_booted k) (fun _ _ _ hm hcalm hs => hm.step hcalm hs)).completed

/-- On x86_64 a tick preempts task 1 for task 2; on aarch64 a tick leaves task 1 time. -/
theorem interrupt_ended_before_switch_example :
    (∃ added k, Reaches (presetPlatform true) 0 10 added k ∧
      ∃ m, Reached (IrqMachine.step .x86_64 (presetPlatform true) 0) (IrqMachine.Calm .x86_64 0)
          (IrqMachine.booted k) m ∧
        m.trace = [.switched (some 0), .ended 0, .acknowledged 0] ∧ m.Completed) ∧
    ∃ added k, Reaches (presetPlatform true) 0 10 added k ∧
      ∃ m, Reached (IrqMachine.step .aarch64 (presetPlatform true) 0) (IrqMachine.Calm .aarch64 0)
          (IrqMachine.booted k) m ∧
        m.trace = [.ended 0, .acknowledged 0] ∧ m.Completed := by
  have holds : ∀ {arch k} {trace : List IrqEvent},
      (∃ m, Reached (IrqMachine.step arch (presetPlatform true) 0) (IrqMachine.Calm arch 0)
        (IrqMachine.booted k) m ∧ m.trace = trace) →
      ∃ m, Reached (IrqMachine.step arch (presetPlatform true) 0) (IrqMachine.Calm arch 0)
        (IrqMachine.booted k) m ∧ m.trace = trace ∧ m.Completed := by
    rintro arch k trace ⟨m, hm, ht⟩
    exact ⟨m, hm, ht, interrupt_ended_before_switch hm⟩
  have h₀ := Reaches.init (P := presetPlatform true) (c := 0) (i := 10) rfl
  constructor
  · have h₁ := h₀.step (.addTask 1 { schedInfo := { timeSliceDefault := 1 } })
      ⟨rfl, rfl, rfl, rfl, Or.inr rfl⟩ rfl
    have h₂ := h₁.step (.addTask 2 {}) ⟨rfl, rfl, rfl, rfl, Or.inr rfl⟩ rfl
    have h₃ := h₂.step .schedule trivial rfl
    refine ⟨_, _, h₃, holds (Reached.start.exists_replay (fun _ _ => true) ?_
      [.next, .tick, .next, .next, .next, .next, .next] ?_)⟩
    · exact fun _ _ _ _ harch => nomatch harch
    · decide +kernel
  · have h₁ := h₀.step (.addTask 1 {}) ⟨rfl, rfl, rfl, rfl, Or.inr rfl⟩ rfl
    have h₂ := h₁.step .schedule trivial rfl
    refine ⟨_, _, h₂, holds (Reached.start.exists_replay
      (fun m _ => (m.kernel.cpuSchedulers 0).sleepingTasks.isEmpty &&
        ((m.kernel.running 0).bind m.kernel.tasks).any (1 < ·.schedInfo.timeSliceRemaining)) ?_
      [.next, .tick, .next, .next, .next, .next] ?_)⟩
    · intro m _ _ hcheck _ _ _
      rw [Bool.and_eq_true, List.isEmpty_iff] at hcheck
      constructor
      · intro p t hp
        rw [hcheck.1] at hp
        cases hp
      · intro p t hrun ht _
        left
        simpa [hrun, ht] using hcheck.2
    · decide +kernel

/-- A tick preempts task 1 on aarch64. Task 2 runs, outside any handler, and the tick is
still active. -/
theorem switch_before_end_of_interrupt : ∃ added k, Reaches (presetPlatform true) 0 10 added k ∧
    ∃ m, Reached (IrqMachine.step .aarch64 (presetPlatform true) 0) (fun _ _ => True)
        (IrqMachine.booted k) m ∧
      m.trace = [.switched (some 0), .acknowledged 0] ∧ m.active = some 0 ∧ m.code = [.task] ∧
      ¬ m.Completed := by
  have h₀ := Reaches.init (P := presetPlatform true) (c := 0) (i := 10) rfl
  have h₁ := h₀.step (.addTask 1 { schedInfo := { timeSliceDefault := 1 } })
    ⟨rfl, rfl, rfl, rfl, Or.inr rfl⟩ rfl
  have h₂ := h₁.step (.addTask 2 {}) ⟨rfl, rfl, rfl, rfl, Or.inr rfl⟩ rfl
  have h₃ := h₂.step .schedule trivial rfl
  have fails : ∀ {k}, (∃ m, Reached (IrqMachine.step .aarch64 (presetPlatform true) 0) (fun _ _ => True)
        (IrqMachine.booted k) m ∧
      m.trace = [.switched (some 0), .acknowledged 0] ∧ m.active = some 0 ∧ m.code = [.task]) →
      ∃ m, Reached (IrqMachine.step .aarch64 (presetPlatform true) 0) (fun _ _ => True)
        (IrqMachine.booted k) m ∧
      m.trace = [.switched (some 0), .acknowledged 0] ∧ m.active = some 0 ∧ m.code = [.task] ∧
      ¬ m.Completed := by
    rintro k ⟨m, hm, htrace, hactive, hcode⟩
    refine ⟨m, hm, htrace, hactive, hcode, fun hdone => ?_⟩
    have hmem := hdone.inside 0 hactive
    rw [hcode] at hmem
    cases List.mem_singleton.mp hmem
  refine ⟨_, _, h₃, fails (Reached.start.exists_replay (fun _ _ => true) (fun _ _ _ _ => trivial)
    [.next, .tick, .next, .next, .next, .next, .next, .next] ?_)⟩
  decide +kernel

end NaiLongKernel.Arch
