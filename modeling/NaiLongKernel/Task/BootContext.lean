import NaiLongKernel.Foundation.Reached
import NaiLongKernel.Task.Contexts
import NaiLongKernel.Task.Lifetime

/-!
# The context of the boot code

Every core boots on a stack of its own, with its idle thread entered as the running task, and
leaves its boot code in its first `Schedule`. That call must not save into the context of the
idle thread, which holds the entry of the thread; it saves aside when the flag `boot_done` is
not set. There is one flag for all cores. The part of `Schedule` after the lock is taken apart
here: the flag is read, set, and then `switch_to` is called, and other cores go on in between.
-/
namespace NaiLongKernel.Task

open Foundation

variable {α : Type} {k k' : Kernel} {c c' : CoreId} {p q : Ptr}

section Kept

variable {γ : Type} {f : Kernel → γ}

theorem Aloof.scheduleBody (hf : Aloof f) (hcpu : ∀ k d, f (k.setCpu c d) = f k) :
    Keeps f (scheduleBody c) := by
  have hdispatch : ∀ current next, Keeps f (dispatch c current next) := by
    intro current next
    refine Keeps.bind (keeps_readTask _) fun _ => Keeps.bind (keeps_readTask _) fun _ => ?_
    refine Keeps.bind (keeps_assertMsg _ _) fun _ => Keeps.bind (keeps_assertMsg _ _) fun _ => ?_
    refine Keeps.bind (hf.updateTask _ fun _ => rfl) fun _ => ?_
    refine Keeps.bind (hf.modifySched c (fun _ => rfl) (fun _ => rfl)) fun _ => ?_
    exact Keeps.bind (Keeps.modify fun k => hcpu k _) fun _ => Keeps.pure _
  refine Keeps.bind (keeps_currentTask c _) fun current => ?_
  refine Keeps.bind (hf.requeueCurrent c current) fun _ => ?_
  refine Keeps.bind (hf.chooseNext c current) fun next => ?_
  cases next with
  | none => exact Keeps.pure _
  | some next =>
    refine Keeps.bind (hf.leaveCurrent c current next) fun _ => ?_
    exact Keeps.bind (hdispatch _ _) fun _ => Keeps.pure _

theorem Aloof.initBody (hf : Aloof f) {i : Ptr} (htask : ∀ k, f (k.setTask i idleTaskBlock) = f k)
    (hcpu : ∀ k d, f (k.setCpu c d) = f k) : Keeps f (initBody c i) := by
  have hrest : Keeps f (do
      modify (Kernel.setTask i idleTaskBlock)
      Task.enqueueTask c .kIdle i
      modify fun k => k.setCpu c { runningTask := some i, idleTask := some i } : KernelM Unit) :=
    Keeps.bind (Keeps.modify htask) fun _ =>
      Keeps.bind (hf.enqueueTask c .kIdle i) fun _ => Keeps.modify fun k => hcpu k _
  refine Keeps.bind Keeps.get fun k => ?_
  exact Keeps.ite (Keeps.bind (hf.modifySched c (fun _ => rfl) (fun _ => rfl)) fun _ => hrest) hrest

theorem aloof_running : Aloof fun k => k.running c :=
  ⟨fun _ _ => rfl, fun _ _ => rfl, fun _ _ _ => rfl⟩

/-- The addresses of the tasks, and those of `s`. -/
def Kernel.taskSet (s : Set Ptr) (k : Kernel) : Set Ptr := {q | q ∈ s ∨ k.tasks q ≠ none}

theorem aloof_taskSet (s : Set Ptr) : Aloof (Kernel.taskSet s) where
  setTask {k p t t'} ht _ := by
    ext q
    by_cases hq : q = p
    · simp [Kernel.taskSet, hq, ht]
    · simp [Kernel.taskSet, k.tasks_setTask_ne p t' hq]
  setSched _ _ := rfl
  table _ _ _ := rfl

end Kept

/-- The code that a core executes. -/
inductive Executing where
  | bootCode (c : CoreId)
  | thread (p : Ptr)
deriving DecidableEq, Repr

/-- What a `CalleeSavedContext` holds. -/
inductive SavedContext where
  | zero
  /-- The entry of a task, as `InitTaskContext` sets it. -/
  | entry (p : Ptr)
  /-- Code that has called `switch_to`. -/
  | code (e : Executing)
deriving DecidableEq, Repr

def SavedContext.resumes : SavedContext → Option Executing
  | zero => none
  | entry p => some (.thread p)
  | code e => some e

/-- What `prev_ctx` points to. -/
inductive Storage where
  | bootContext
  | taskContext (p : Ptr)
deriving DecidableEq, Repr

inductive ScheduleStage where
  | outside
  /-- After `UnLock`. -/
  | unlocked (current next : Ptr) (mustLeave : Bool)
  /-- `boot_done` has been read and was not set. -/
  | unset (current next : Ptr) (mustLeave : Bool)
  | chosen (current next : Ptr) (mustLeave : Bool) (prev : Storage) (force : Bool)
deriving DecidableEq, Repr

def ScheduleStage.readsFlag : ScheduleStage → Bool
  | unlocked _ _ _ => true
  | _ => false

def ScheduleStage.tasks : ScheduleStage → Option (Ptr × Ptr)
  | outside => none
  | unlocked current next _ => some (current, next)
  | unset current next _ => some (current, next)
  | chosen current next _ _ _ => some (current, next)

/-- How a call of `Schedule` ends: with a switch, of which `first` says whether it is the first
to the task, or without. -/
inductive ScheduleEnd where
  | switched (prev : Storage) (next : Ptr) (restored : SavedContext) (first : Bool)
  | stayed
deriving DecidableEq, Repr

structure ScheduleRecord where
  core : CoreId
  executing : Executing
  ending : ScheduleEnd
deriving DecidableEq, Repr

structure BootMachine where
  kernel : Kernel
  executing : CoreId → Executing
  stage : CoreId → ScheduleStage
  taskContext : Ptr → SavedContext
  bootContext : SavedContext
  /-- The tasks to which a core has switched. -/
  entered : Ptr → Bool
  log : List ScheduleRecord

inductive BootAction where
  /-- The boot code calls `InitCurrentCore`. -/
  | init (c : CoreId) (idleTask : Ptr)
  /-- A control block is constructed, with its context. -/
  | create (c : CoreId) (task : Ptr) (block : TaskControlBlock)
  | work (c : CoreId) (w : Work)
  /-- `Schedule` under the lock. -/
  | schedule (c : CoreId)
  /-- `Schedule` goes on. -/
  | next (c : CoreId)

def Work.addTask (P : Platform) (c : CoreId) (p : Ptr) : Work :=
  ⟨Task.addTask P c p, aloof_perCpu.addTask P c p⟩

namespace BootMachine

def booted : BootMachine where
  kernel := {}
  executing := .bootCode
  stage _ := .outside
  taskContext _ := .zero
  bootContext := .zero
  entered _ := false
  log := []

def setStage (c : CoreId) (s : ScheduleStage) (m : BootMachine) : BootMachine :=
  { m with stage := Function.update m.stage c s }

def save (c : CoreId) (m : BootMachine) : Storage → BootMachine
  | .bootContext => { m with bootContext := .code (m.executing c) }
  | .taskContext p =>
    { m with taskContext := Function.update m.taskContext p (.code (m.executing c)) }

/-- `switch_to(prev, &next->task_context)`. -/
def switchTo (c : CoreId) (prev : Storage) (next : Ptr) (m : BootMachine) : Option BootMachine :=
  let restored := (m.save c prev).taskContext next
  restored.resumes.map fun e =>
    { (m.save c prev).setStage c .outside with
      executing := Function.update m.executing c e
      entered := Function.update m.entered next true
      log := ⟨c, m.executing c, .switched prev next restored (!m.entered next)⟩ :: m.log }

def goOn (c : CoreId) (m : BootMachine) : Option BootMachine :=
  match m.stage c with
  | .outside => none
  | .unlocked current next mustLeave =>
    if m.kernel.bootDone then
      some (m.setStage c (.chosen current next mustLeave (.taskContext current) false))
    else
      some (m.setStage c (.unset current next mustLeave))
  | .unset current next mustLeave =>
    some { m.setStage c (.chosen current next mustLeave .bootContext true) with
      kernel := { m.kernel with bootDone := true } }
  | .chosen current next mustLeave prev force =>
    if force = true ∨ current ≠ next then m.switchTo c prev next
    else if mustLeave then none
    else some { m.setStage c .outside with log := ⟨c, m.executing c, .stayed⟩ :: m.log }

def runKernel (x : KernelM α) (f : α → BootMachine → Option BootMachine) (m : BootMachine) :
    Option BootMachine :=
  match x m.kernel with
  | .ok a k => f a { m with kernel := k }
  | .error _ _ => none

def construct (p : Ptr) (m : BootMachine) : BootMachine :=
  { m with taskContext := Function.update m.taskContext p (.entry p) }

def step (m : BootMachine) : BootAction → Option BootMachine
  | .init c idleTask => m.runKernel (initBody c idleTask) fun _ m => some (m.construct idleTask)
  | .create _ p t => some { m.construct p with kernel := m.kernel.setTask p t }
  | .work _ w => m.runKernel w.program fun _ m => some m
  | .schedule c => m.runKernel (scheduleBody c) fun chosen m =>
      chosen.map fun (current, next, mustLeave) => m.setStage c (.unlocked current next mustLeave)
  | .next c => m.goOn c

/-- A core makes one call at a time and is initialised once, by its boot code. A new control
block takes no address in use, nor that of a task that has run. -/
def Enabled (m : BootMachine) : BootAction → Prop
  | .init c i => m.executing c = .bootCode c ∧ m.stage c = .outside ∧ m.kernel.Uninitialised c ∧
      m.kernel.tasks i = none ∧ m.entered i = false
  | .create c p _ => m.stage c = .outside ∧ m.kernel.tasks p = none ∧ m.entered p = false
  | .work c _ => m.stage c = .outside
  | .schedule c => m.stage c = .outside
  | .next _ => True

/-- When the boot code of a core reads `boot_done`, no core has set it. -/
def FlagUnset (m : BootMachine) : BootAction → Prop
  | .next c => (m.stage c).readsFlag = true → m.executing c = .bootCode c → m.kernel.bootDone = false
  | _ => True

abbrev Run (A : BootMachine → BootAction → Prop) : BootMachine → Prop :=
  Reached step (fun m a => m.Enabled a ∧ A m a) booted

end BootMachine

/-- Boot code has been saved aside and left, and the first switch to a task starts it at its
entry. -/
structure ScheduleRecord.Aside (r : ScheduleRecord) : Prop where
  boot : ∀ c, r.executing = .bootCode c →
    ∃ next restored first, r.ending = .switched .bootContext next restored first
  first : ∀ prev next restored, r.ending = .switched prev next restored true →
    restored = .entry next

namespace BootMachine

variable {m m' : BootMachine}

/-- Boot code is in no context of a task, and in `Schedule` is about to be saved aside. -/
structure Sound (m : BootMachine) : Prop where
  outside : ∀ c, m.stage c = .outside → m.executing c = .bootCode c ∨
    ∃ p, m.executing c = .thread p ∧ m.entered p = true ∧ m.kernel.running c = some p
  inside : ∀ c current next, (m.stage c).tasks = some (current, next) →
    m.kernel.running c = some next ∧
      (m.executing c = .bootCode c ∨ m.executing c = .thread current ∧ m.entered current = true)
  chosen : ∀ c current next mustLeave prev force,
    m.stage c = .chosen current next mustLeave prev force →
      prev = .bootContext ∧ force = true ∨
      prev = .taskContext current ∧ force = false ∧ m.executing c ≠ .bootCode c
  contexts : ∀ q, m.taskContext q = .zero ∨ m.taskContext q = .entry q ∨
    m.entered q = true ∧ m.taskContext q = .code (.thread q)
  log : ∀ r ∈ m.log, r.Aside

theorem runKernel_eq_some {x : KernelM α} {f : α → BootMachine → Option BootMachine} :
    m.runKernel x f = some m' ↔ ∃ a k, x m.kernel = .ok a k ∧ f a { m with kernel := k } = some m' := by
  unfold runKernel
  cases hx : x m.kernel with
  | ok | error => simp

namespace Sound

theorem booted : Sound booted where
  outside _ _ := Or.inl rfl
  inside := nofun
  chosen := nofun
  contexts _ := Or.inl rfl
  log := nofun

theorem setKernel (h : Sound m) (hk : ∀ c, k.running c = m.kernel.running c ∨
    m.executing c = .bootCode c ∧ m.stage c = .outside) : Sound { m with kernel := k } where
  outside c hc := by
    refine (h.outside c hc).imp_right ?_
    rintro ⟨p, hp, hin, hrun⟩
    rcases hk c with hsame | ⟨hboot, -⟩
    · exact ⟨p, hp, hin, hsame.trans hrun⟩
    · cases hp.symm.trans hboot
  inside c current next hc := by
    obtain ⟨hrun, hexec⟩ := h.inside c current next hc
    rcases hk c with hsame | ⟨-, hout⟩
    · exact ⟨hsame.trans hrun, hexec⟩
    · have hnone : (m.stage c).tasks = some (current, next) := hc
      rw [hout] at hnone
      cases hnone
  chosen := h.chosen
  contexts := h.contexts
  log := h.log

theorem construct (h : Sound m) (p : Ptr) : Sound (m.construct p) where
  outside := h.outside
  inside := h.inside
  chosen := h.chosen
  contexts q := by
    by_cases hq : q = p
    · rw [hq]
      exact Or.inr (Or.inl (Function.update_self _ _ _))
    · have hsame : (m.construct p).taskContext q = m.taskContext q := Function.update_of_ne hq _ _
      rw [hsame]
      exact h.contexts q
  log := h.log

theorem setStage (h : Sound m) {current next : Ptr} {s : ScheduleStage}
    (hothers : ∀ c', c' ≠ c → k.running c' = m.kernel.running c')
    (hs : s.tasks = some (current, next)) (hrun : k.running c = some next)
    (hexec : m.executing c = .bootCode c ∨ m.executing c = .thread current ∧ m.entered current = true)
    (hchosen : ∀ mustLeave prev force, s = .chosen current next mustLeave prev force →
      prev = .bootContext ∧ force = true ∨
      prev = .taskContext current ∧ force = false ∧ m.executing c ≠ .bootCode c) :
    Sound { m.setStage c s with kernel := k } := by
  refine ⟨?_, ?_, ?_, h.contexts, h.log⟩
  · intro c' (hc' : Function.update m.stage c s c' = .outside)
    by_cases hc : c' = c
    · rw [hc, Function.update_self] at hc'
      rw [hc'] at hs
      cases hs
    · rw [Function.update_of_ne hc] at hc'
      refine (h.outside c' hc').imp_right ?_
      rintro ⟨p, hp, hin, hrun'⟩
      exact ⟨p, hp, hin, (hothers c' hc).trans hrun'⟩
  · intro c' current' next' (hc' : (Function.update m.stage c s c').tasks = _)
    by_cases hc : c' = c
    · rw [hc, Function.update_self, hs] at hc'
      cases hc'
      rw [hc]
      exact ⟨hrun, hexec⟩
    · rw [Function.update_of_ne hc] at hc'
      obtain ⟨hrun', hexec'⟩ := h.inside c' current' next' hc'
      exact ⟨(hothers c' hc).trans hrun', hexec'⟩
  · intro c' current' next' mustLeave prev force (hc' : Function.update m.stage c s c' = _)
    by_cases hc : c' = c
    · rw [hc, Function.update_self] at hc'
      rw [hc'] at hs
      cases hs
      rw [hc]
      exact hchosen mustLeave prev force hc'
    · rw [Function.update_of_ne hc] at hc'
      exact h.chosen c' current' next' mustLeave prev force hc'

theorem leave (h : Sound m) (e : Executing) (aside : SavedContext) {ctx : Ptr → SavedContext}
    {entered : Ptr → Bool} {r : ScheduleRecord} (hmono : ∀ p, m.entered p = true → entered p = true)
    (hself : e = .bootCode c ∨ ∃ p, e = .thread p ∧ entered p = true ∧ m.kernel.running c = some p)
    (hctx : ∀ q, ctx q = .zero ∨ ctx q = .entry q ∨ m.entered q = true ∧ ctx q = .code (.thread q))
    (hr : r.Aside) :
    Sound ⟨m.kernel, Function.update m.executing c e, Function.update m.stage c .outside, ctx, aside,
      entered, r :: m.log⟩ := by
  refine ⟨?_, ?_, ?_, ?_, ?_⟩
  · intro c' (hc' : Function.update m.stage c .outside c' = .outside)
    change Function.update m.executing c e c' = _ ∨ ∃ p, Function.update m.executing c e c' = _ ∧ _
    by_cases hc : c' = c
    · rw [hc, Function.update_self]
      exact hself
    · rw [Function.update_of_ne hc] at hc' ⊢
      refine (h.outside c' hc').imp_right ?_
      rintro ⟨p, hp, hin, hrun⟩
      exact ⟨p, hp, hmono p hin, hrun⟩
  · intro c' current next (hc' : (Function.update m.stage c .outside c').tasks = _)
    change _ ∧ (Function.update m.executing c e c' = _ ∨ Function.update m.executing c e c' = _ ∧ _)
    by_cases hc : c' = c
    · rw [hc, Function.update_self] at hc'
      cases hc'
    · rw [Function.update_of_ne hc] at hc' ⊢
      obtain ⟨hrun, hexec⟩ := h.inside c' current next hc'
      exact ⟨hrun, hexec.imp_right (fun hx => ⟨hx.1, hmono current hx.2⟩)⟩
  · intro c' current next mustLeave prev force (hc' : Function.update m.stage c .outside c' = _)
    change _ ∨ _ ∧ _ ∧ Function.update m.executing c e c' ≠ _
    by_cases hc : c' = c
    · rw [hc, Function.update_self] at hc'
      cases hc'
    · rw [Function.update_of_ne hc] at hc' ⊢
      exact h.chosen c' current next mustLeave prev force hc'
  · intro q
    exact (hctx q).imp_right (Or.imp_right (fun hx => ⟨hmono q hx.1, hx.2⟩))
  · intro r' hr'
    rcases List.mem_cons.mp hr' with rfl | hold
    · exact hr
    · exact h.log r' hold

theorem contexts_save (h : Sound m) {current next : Ptr} {mustLeave force : Bool} {prev : Storage}
    (hstage : m.stage c = .chosen current next mustLeave prev force) (q : Ptr) :
    (m.save c prev).taskContext q = .zero ∨ (m.save c prev).taskContext q = .entry q ∨
      m.entered q = true ∧ (m.save c prev).taskContext q = .code (.thread q) := by
  rcases h.chosen c current next mustLeave prev force hstage with ⟨rfl, -⟩ | ⟨rfl, -, hboot⟩
  · exact h.contexts q
  · obtain ⟨-, hexec⟩ := h.inside c current next (by rw [hstage]; rfl)
    obtain ⟨hthread, hin⟩ := hexec.resolve_left hboot
    change Function.update m.taskContext current _ q = _ ∨ Function.update m.taskContext current _ q = _ ∨
      _ ∧ Function.update m.taskContext current _ q = _
    by_cases hq : q = current
    · rw [hq, Function.update_self, hthread]
      exact Or.inr (Or.inr ⟨hin, rfl⟩)
    · rw [Function.update_of_ne hq]
      exact h.contexts q

theorem switchTo (h : Sound m) {current next : Ptr} {mustLeave force : Bool} {prev : Storage}
    (hstage : m.stage c = .chosen current next mustLeave prev force)
    (hm : m.switchTo c prev next = some m') : Sound m' := by
  obtain ⟨e, he, rfl⟩ := Option.map_eq_some_iff.mp hm
  obtain ⟨hrun, hexec⟩ := h.inside c current next (by rw [hstage]; rfl)
  have hsave := h.contexts_save hstage
  -- the context of the next task holds its entry or its own code
  have hnext : e = .thread next ∧
      (m.entered next = false → (m.save c prev).taskContext next = .entry next) := by
    rcases hsave next with hctx | hctx | ⟨hin, hctx⟩
    · rw [hctx] at he
      cases he
    · rw [hctx] at he
      exact ⟨(Option.some.inj he).symm, fun _ => hctx⟩
    · rw [hctx] at he
      refine ⟨(Option.some.inj he).symm, ?_⟩
      intro hout
      cases hin.symm.trans hout
  have haside : ScheduleRecord.Aside ⟨c, m.executing c,
      .switched prev next ((m.save c prev).taskContext next) (!m.entered next)⟩ := by
    constructor
    · intro c' (hc' : m.executing c = .bootCode c')
      rcases h.chosen c current next mustLeave prev force hstage with ⟨rfl, -⟩ | ⟨-, -, hboot⟩
      · exact ⟨next, _, _, rfl⟩
      · rcases hexec with hexec | ⟨hexec, -⟩
        · exact absurd hexec hboot
        · cases hc'.symm.trans hexec
    · intro prev' next' restored hr
      simp only [ScheduleEnd.switched.injEq, Bool.not_eq_true'] at hr
      obtain ⟨-, rfl, rfl, hout⟩ := hr
      exact hnext.2 hout
  have hmono : ∀ p, m.entered p = true → Function.update m.entered next true p = true := by
    intro p hp
    by_cases hpn : p = next
    · rw [hpn, Function.update_self]
    · rw [Function.update_of_ne hpn]
      exact hp
  have hleave := h.leave (c := c) e (m.save c prev).bootContext hmono
    (Or.inr ⟨next, hnext.1, Function.update_self _ _ _, hrun⟩) hsave haside
  cases prev <;> exact hleave

theorem goOn (h : Sound m) (hflag : m.FlagUnset (.next c)) (hm : m.goOn c = some m') : Sound m' := by
  unfold BootMachine.goOn at hm
  split at hm
  · cases hm
  · rename_i current next mustLeave hstage
    obtain ⟨hrun, hexec⟩ := h.inside c current next (by rw [hstage]; rfl)
    split at hm
    · rename_i hdone
      cases hm
      apply h.setStage (fun _ _ => rfl) rfl hrun hexec
      rintro _ _ _ ⟨⟩
      refine Or.inr ⟨rfl, rfl, ?_⟩
      intro hboot
      cases (hflag (by rw [hstage]; rfl) hboot).symm.trans hdone
    · cases hm
      exact h.setStage (fun _ _ => rfl) rfl hrun hexec nofun
  · rename_i current next mustLeave hstage
    cases hm
    obtain ⟨hrun, hexec⟩ := h.inside c current next (by rw [hstage]; rfl)
    apply h.setStage (k := { m.kernel with bootDone := true }) (fun _ _ => rfl) rfl hrun hexec
    rintro _ _ _ ⟨⟩
    exact Or.inl ⟨rfl, rfl⟩
  · rename_i current next mustLeave prev force hstage
    split at hm
    · exact h.switchTo hstage hm
    · rename_i hstay
      push Not at hstay
      obtain ⟨hforce, rfl⟩ := hstay
      split at hm
      · cases hm
      cases hm
      -- only the code of a task stays
      rcases h.chosen c current current mustLeave prev force hstage with ⟨-, rfl⟩ | ⟨-, -, hboot⟩
      · exact absurd rfl hforce
      obtain ⟨hrun, hexec⟩ := h.inside c current current (by rw [hstage]; rfl)
      obtain ⟨hthread, hin⟩ := hexec.resolve_left hboot
      have hleave := h.leave (c := c) (r := ⟨c, m.executing c, .stayed⟩) (m.executing c) m.bootContext
        (fun _ hp => hp) (Or.inr ⟨current, hthread, hin, hrun⟩)
        h.contexts ⟨?_, nofun⟩
      · rwa [Function.update_eq_self] at hleave
      · intro c' (hc' : m.executing c = .bootCode c')
        cases hc'.symm.trans hthread

theorem step {a : BootAction} (h : Sound m) (hen : m.Enabled a) (hflag : m.FlagUnset a)
    (hm : m.step a = some m') : Sound m' := by
  cases a with
  | init c i =>
    rw [BootMachine.step] at hm
    obtain ⟨_, k, hk, hm⟩ := runKernel_eq_some.mp hm
    cases hm
    refine (h.setKernel ?_).construct i
    intro c'
    by_cases hc : c' = c
    · rw [hc]
      exact Or.inr ⟨hen.1, hen.2.1⟩
    · exact Or.inl (((aloof_running.initBody (fun _ => rfl)
        fun k d => Kernel.running_setCpu_ne k c d hc) m.kernel).of_ok hk)
  | create c p t =>
    cases hm
    exact (h.construct p).setKernel fun _ => Or.inl rfl
  | work c w =>
    rw [BootMachine.step] at hm
    obtain ⟨_, k, hk, hm⟩ := runKernel_eq_some.mp hm
    cases hm
    exact h.setKernel fun c' => Or.inl (congrFun (w.leaves.running hk) c')
  | schedule c =>
    rw [BootMachine.step] at hm
    obtain ⟨chosen, k, hk, hm⟩ := runKernel_eq_some.mp hm
    obtain ⟨⟨current, next, mustLeave⟩, rfl, rfl⟩ := Option.map_eq_some_iff.mp hm
    obtain ⟨hcur, hnext⟩ := (wp_scheduleBody_running c m.kernel).of_ok hk
    have hexec : m.executing c = .bootCode c ∨
        m.executing c = .thread current ∧ m.entered current = true := by
      refine (h.outside c hen).imp_right ?_
      rintro ⟨p, hp, hin, hrun⟩
      obtain rfl := Option.mem_unique hcur hrun
      exact ⟨hp, hin⟩
    refine h.setStage (fun c' hc => ?_) rfl hnext hexec nofun
    exact ((aloof_running.scheduleBody fun k d => Kernel.running_setCpu_ne k c d hc) m.kernel).of_ok hk
  | next c => exact h.goOn hflag hm

end Sound

theorem Run.sound (h : Run (fun m a => m.FlagUnset a) m) : Sound m :=
  h.invariant Sound.booted fun _ _ _ hm hok hstep => hm.step hok.1 hok.2 hstep

section Refinement

theorem wp_switchTask_kernel (current next : Ptr) (mustLeave : Bool) (k : Kernel) :
    wp (switchTask current next mustLeave) (fun _ k' => k' = { k with bootDone := true } ∧
      (k.bootDone = true ∧ current = next ∧ mustLeave = false ∨
        (k.bootDone = true → current ≠ next) ∧ k.tasks next ≠ none)) (fun _ _ => True) k := by
  simp only [switchTask, wp_bind, wp_get, wp_ite, wp_modify, wp_assertMsg, wp_pure]
  split
  · rename_i hdone
    have hk : k = { k with bootDone := true } := by rw [← hdone]
    split
    · rename_i hne
      apply wp_readTask_tolerant
      intro _ _
      apply wp_readTask_tolerant
      intro t ht
      exact ⟨hk, Or.inr ⟨fun _ => hne, by simp [ht]⟩⟩
    · rename_i heq
      split
      · rename_i hleave
        exact ⟨hk, Or.inl ⟨hdone, not_not.mp heq, by simpa using hleave⟩⟩
      · trivial
  · rename_i hdone
    apply wp_readTask_tolerant
    intro t ht
    have hnext : k.tasks next = some t := ht
    exact ⟨rfl, Or.inr ⟨fun h => absurd h hdone, by simp [hnext]⟩⟩

theorem switchTo_eq_some (prev : Storage) {next : Ptr}
    (h : (m.save c prev).taskContext next ≠ .zero) : ∃ m', m.switchTo c prev next = some m' ∧
      m'.stage c = .outside ∧ m'.kernel = m.kernel := by
  obtain ⟨e, he⟩ : ∃ e, ((m.save c prev).taskContext next).resumes = some e := by
    cases hctx : (m.save c prev).taskContext next with
    | zero => exact absurd hctx h
    | entry p => exact ⟨.thread p, rfl⟩
    | code e => exact ⟨e, rfl⟩
  refine ⟨_, Option.map_eq_some_iff.mpr ⟨e, he, rfl⟩, ?_, ?_⟩
  · exact Function.update_self _ _ _
  · cases prev <;> rfl

theorem wp_schedule_steps (c : CoreId) (k : Kernel) :
    wp (schedule c : KernelM Unit) (fun _ k' => ∃ current next mustLeave k₁,
      scheduleBody c k = .ok (some (current, next, mustLeave)) k₁ ∧ k' = { k₁ with bootDone := true } ∧
        (k₁.bootDone = true ∧ current = next ∧ mustLeave = false ∨
          (k₁.bootDone = true → current ≠ next) ∧ k₁.tasks next ≠ none)) (fun _ _ => True) k := by
  simp only [schedule, lock_kernelM, unlock_kernelM, run_kernelM, wp_bind, wp_pure]
  cases hbody : scheduleBody c k with
  | error e k₁ => exact (wp_of_error hbody).mpr trivial
  | ok chosen k₁ =>
    rw [wp_of_ok hbody]
    cases chosen with
    | none => simp
    | some chosen =>
      obtain ⟨current, next, mustLeave⟩ := chosen
      apply (wp_switchTask_kernel current next mustLeave k₁).imp _
      rintro _ k' ⟨rfl, hstay⟩
      exact ⟨current, next, mustLeave, k₁, rfl, rfl, hstay⟩

theorem reaches_outside {current next : Ptr} {mustLeave : Bool}
    (hstage : m.stage c = .unlocked current next mustLeave)
    (hcase : m.kernel.bootDone = true ∧ current = next ∧ mustLeave = false ∨
      (m.kernel.bootDone = true → current ≠ next) ∧ m.taskContext next ≠ .zero) :
    ∃ m', Reached step (fun _ a => a = .next c) m m' ∧ m'.stage c = .outside ∧
      m'.kernel = { m.kernel with bootDone := true } := by
  have hset : ∀ s, (m.setStage c s).stage c = s := fun s => Function.update_self _ _ _
  have h₀ : Reached step (fun _ a => a = .next c) m m := .start
  cases hdone : m.kernel.bootDone with
  | false =>
    rw [hdone] at hcase
    obtain ⟨-, hctx⟩ := hcase.resolve_left nofun
    -- the flag is read and set, and the boot context takes the code
    set m₁ := m.setStage c (.unset current next mustLeave)
    set m₂ : BootMachine := { m₁.setStage c (.chosen current next mustLeave .bootContext true) with
      kernel := { m.kernel with bootDone := true } }
    have h₁ : m.step (.next c) = some m₁ := by simp [BootMachine.step, goOn, hstage, hdone, m₁]
    have hst₁ : m₁.stage c = .unset current next mustLeave := hset _
    have h₂ : m₁.step (.next c) = some m₂ := by
      simp only [BootMachine.step, goOn, hst₁]
      rfl
    have hst₂ : m₂.stage c = .chosen current next mustLeave .bootContext true :=
      Function.update_self _ _ _
    obtain ⟨m₃, h₃, hout, hk⟩ := switchTo_eq_some (m := m₂) (c := c) .bootContext hctx
    have h₃' : m₂.step (.next c) = some m₃ := by simp [BootMachine.step, goOn, hst₂, h₃]
    exact ⟨m₃, ((h₀.step _ rfl h₁).step _ rfl h₂).step _ rfl h₃', hout, hk⟩
  | true =>
    have hk : m.kernel = { m.kernel with bootDone := true } := by rw [← hdone]
    set m₁ := m.setStage c (.chosen current next mustLeave (.taskContext current) false)
    have h₁ : m.step (.next c) = some m₁ := by simp [BootMachine.step, goOn, hstage, hdone, m₁]
    have hst₁ : m₁.stage c = .chosen current next mustLeave (.taskContext current) false := hset _
    rcases hcase with ⟨-, hne, hleave⟩ | ⟨hne, hctx⟩
    · -- no switch
      set m₂ : BootMachine := { m₁.setStage c .outside with
        log := ⟨c, m₁.executing c, .stayed⟩ :: m₁.log }
      have h₂ : m₁.step (.next c) = some m₂ := by
        simp [BootMachine.step, goOn, hst₁, hne, hleave, m₂]
      exact ⟨m₂, (h₀.step _ rfl h₁).step _ rfl h₂, Function.update_self _ _ _, hk⟩
    · have hnext : (m₁.save c (.taskContext current)).taskContext next ≠ .zero := by
        change Function.update m.taskContext current _ next ≠ _
        rw [Function.update_of_ne (Ne.symm (hne hdone))]
        exact hctx
      obtain ⟨m₂, h₂, hout, hk₂⟩ := switchTo_eq_some _ hnext
      have h₂' : m₁.step (.next c) = some m₂ := by
        simp [BootMachine.step, goOn, hst₁, hne hdone, h₂]
      exact ⟨m₂, (h₀.step _ rfl h₁).step _ rfl h₂', hout, hk₂.trans hk⟩

/-- Every task has a context to switch to. -/
def HasContexts (m : BootMachine) : Prop := ∀ q, m.kernel.tasks q ≠ none → m.taskContext q ≠ .zero

/-- From any state in which every task has a context, the steps of one core on its own are the
`Schedule` of the kernel. -/
theorem reaches_schedule (hctx : m.HasContexts)
    (h : (schedule c : KernelM Unit) m.kernel = .ok () k') :
    ∃ m₁ m', m.step (.schedule c) = some m₁ ∧ Reached step (fun _ a => a = .next c) m₁ m' ∧
      m'.stage c = .outside ∧ m'.kernel = k' := by
  obtain ⟨current, next, mustLeave, k₁, hbody, rfl, hcase⟩ := (wp_schedule_steps c m.kernel).of_ok h
  set m₁ := { m with kernel := k₁ }.setStage c (.unlocked current next mustLeave)
  have h₁ : m.step (.schedule c) = some m₁ := by simp [BootMachine.step, runKernel, hbody, m₁]
  have htasks : k₁.taskSet ∅ = m.kernel.taskSet ∅ :=
    (((aloof_taskSet ∅).scheduleBody fun _ _ => rfl) m.kernel).of_ok hbody
  have hcase' : k₁.bootDone = true ∧ current = next ∧ mustLeave = false ∨
      (k₁.bootDone = true → current ≠ next) ∧ m.taskContext next ≠ .zero := by
    refine hcase.imp_right ?_
    rintro ⟨hne, hnext⟩
    have hmem : next ∈ m.kernel.taskSet ∅ := htasks ▸ Or.inr hnext
    exact ⟨hne, hctx next (hmem.resolve_left nofun)⟩
  obtain ⟨m', hreach, hout, hk⟩ := reaches_outside (m := m₁) (Function.update_self _ _ _) hcase'
  exact ⟨m₁, m', h₁, hreach, hout, hk⟩

/-- Tasks are made where their control blocks are constructed, and by no other work. -/
def KeepsTasks : BootAction → Prop
  | .work _ w => Keeps (Kernel.taskSet ∅) w.program
  | _ => True

theorem goOn_contexts (h : m.goOn c = some m') : m'.kernel.tasks = m.kernel.tasks ∧
    ∀ q, m.taskContext q ≠ .zero → m'.taskContext q ≠ .zero := by
  unfold goOn at h
  split at h
  · cases h
  · split at h <;> cases h <;> exact ⟨rfl, fun _ hq => hq⟩
  · cases h
    exact ⟨rfl, fun _ hq => hq⟩
  · rename_i current next mustLeave prev force _
    split at h
    · obtain ⟨e, -, rfl⟩ := Option.map_eq_some_iff.mp h
      cases prev with
      | bootContext => exact ⟨rfl, fun _ hq => hq⟩
      | taskContext p =>
        refine ⟨rfl, fun q hq => ?_⟩
        change Function.update m.taskContext p _ q ≠ _
        by_cases hqp : q = p
        · rw [hqp, Function.update_self]
          nofun
        · rwa [Function.update_of_ne hqp]
    · split at h
      · cases h
      · cases h
        exact ⟨rfl, fun _ hq => hq⟩

theorem construct_contexts {p : Ptr} (h : q = p ∨ m.taskContext q ≠ .zero) :
    (m.construct p).taskContext q ≠ .zero := by
  change Function.update m.taskContext p _ q ≠ _
  by_cases hq : q = p
  · rw [hq, Function.update_self]
    nofun
  · rw [Function.update_of_ne hq]
    exact h.resolve_left hq

theorem Run.hasContexts (h : Run (fun _ a => KeepsTasks a) m) : m.HasContexts := by
  apply h.invariant (fun _ hq => absurd rfl hq)
  rintro m a m' hm ⟨-, hkeeps⟩ hstep q hq
  cases a with
  | init c i =>
    rw [BootMachine.step] at hstep
    obtain ⟨_, k, hk, hstep⟩ := runKernel_eq_some.mp hstep
    cases hstep
    have hset : ∀ k : Kernel, (k.setTask i idleTaskBlock).taskSet {i} = k.taskSet {i} := by
      intro k
      ext x
      by_cases hx : x = i
      · simp [Kernel.taskSet, hx]
      · simp [Kernel.taskSet, k.tasks_setTask_ne i _ hx]
    have htasks : k.taskSet {i} = m.kernel.taskSet {i} :=
      (((aloof_taskSet {i}).initBody hset fun _ _ => rfl) m.kernel).of_ok hk
    have hmem : q ∈ m.kernel.taskSet {i} := htasks ▸ Or.inr hq
    exact construct_contexts (hmem.imp_right (hm q))
  | create c p t =>
    cases hstep
    refine construct_contexts (m := m) ?_
    by_cases hqp : q = p
    · exact Or.inl hqp
    · refine Or.inr (hm q ?_)
      rwa [← m.kernel.tasks_setTask_ne p t hqp]
  | work c w =>
    rw [BootMachine.step] at hstep
    obtain ⟨_, k, hk, hstep⟩ := runKernel_eq_some.mp hstep
    cases hstep
    have htasks : k.taskSet ∅ = m.kernel.taskSet ∅ := (hkeeps m.kernel).of_ok hk
    have hmem : q ∈ m.kernel.taskSet ∅ := htasks ▸ Or.inr hq
    exact hm q (hmem.resolve_left nofun)
  | schedule c =>
    rw [BootMachine.step] at hstep
    obtain ⟨_, k, hk, hstep⟩ := runKernel_eq_some.mp hstep
    obtain ⟨_, rfl, rfl⟩ := Option.map_eq_some_iff.mp hstep
    have htasks : k.taskSet ∅ = m.kernel.taskSet ∅ :=
      (((aloof_taskSet ∅).scheduleBody fun _ _ => rfl) m.kernel).of_ok hk
    have hmem : q ∈ m.kernel.taskSet ∅ := htasks ▸ Or.inr hq
    exact hm q (hmem.resolve_left nofun)
  | next c =>
    obtain ⟨htasks, hctx⟩ := goOn_contexts hstep
    exact hctx q (hm q (htasks ▸ hq))

end Refinement

/-- Boot code that finds the flag set is saved in the context of the idle thread, or left
without a switch. -/
theorem not_aside_of_flag_set {m₁ m₂ : BootMachine} (hreads : (m.stage c).readsFlag = true)
    (hboot : m.executing c = .bootCode c) (hdone : m.kernel.bootDone = true)
    (h₁ : m.step (.next c) = some m₁) (h₂ : m₁.step (.next c) = some m₂) :
    ∃ r ∈ m₂.log, ¬ r.Aside := by
  cases hstage : m.stage c with
  | outside | unset | chosen => rw [hstage] at hreads; cases hreads
  | unlocked current next mustLeave =>
    obtain rfl : m.setStage c (.chosen current next mustLeave (.taskContext current) false) = m₁ := by
      simpa [BootMachine.step, goOn, hstage, hdone] using h₁
    simp only [BootMachine.step, goOn, setStage, Function.update_self, Bool.false_eq_true, false_or,
      hboot] at h₂
    split at h₂
    · obtain ⟨e, -, rfl⟩ := Option.map_eq_some_iff.mp h₂
      refine ⟨_, List.mem_cons_self, ?_⟩
      intro hr
      obtain ⟨_, _, _, hend⟩ := hr.boot c hboot
      cases hend
    · split at h₂
      · cases h₂
      · cases h₂
        refine ⟨_, List.mem_cons_self, ?_⟩
        intro hr
        obtain ⟨_, _, _, hend⟩ := hr.boot c rfl
        cases hend

/-- For any number of cores and in every run in which the boot code of each core reads
`boot_done` before any core has set it: the first `Schedule` of a core saves its boot code aside
and switches, no context of a task holds boot code, and the first switch to a task, idle threads
among them, starts it at its entry. -/
theorem boot_code_saved_aside (h : Run (fun m a => m.FlagUnset a) m) :
    (∀ r ∈ m.log, (∀ c, r.executing = .bootCode c →
        ∃ next restored first, r.ending = .switched .bootContext next restored first) ∧
      ∀ prev next restored, r.ending = .switched prev next restored true → restored = .entry next) ∧
    (∀ c q, m.taskContext q ≠ .code (.bootCode c)) ∧
    ∀ c current next mustLeave prev force, m.stage c = .chosen current next mustLeave prev force →
      m.executing c = .bootCode c → prev = .bootContext ∧ force = true := by
  have hm := Run.sound h
  refine ⟨?_, ?_, ?_⟩
  · intro r hr
    exact ⟨(hm.log r hr).boot, (hm.log r hr).first⟩
  · intro c q hq
    rcases hm.contexts q with hctx | hctx | ⟨-, hctx⟩ <;> cases hq.symm.trans hctx
  · intro c current next mustLeave prev force hstage hboot
    exact (hm.chosen c current next mustLeave prev force hstage).resolve_right fun hx => hx.2.2 hboot

section Replay

instance (m : BootMachine) : (a : BootAction) → Decidable (m.Enabled a)
  | .init c i => inferInstanceAs (Decidable (m.executing c = .bootCode c ∧ m.stage c = .outside ∧
      m.kernel.Uninitialised c ∧ m.kernel.tasks i = none ∧ m.entered i = false))
  | .create c p _ => inferInstanceAs (Decidable (m.stage c = .outside ∧ m.kernel.tasks p = none ∧
      m.entered p = false))
  | .work c _ | .schedule c => inferInstanceAs (Decidable (m.stage c = .outside))
  | .next _ => inferInstanceAs (Decidable True)

instance (m : BootMachine) : (a : BootAction) → Decidable (m.FlagUnset a)
  | .next c => inferInstanceAs (Decidable ((m.stage c).readsFlag = true →
      m.executing c = .bootCode c → m.kernel.bootDone = false))
  | .init _ _ | .create _ _ _ | .work _ _ | .schedule _ => inferInstanceAs (Decidable True)

theorem Run.exists_replay {A : BootMachine → BootAction → Prop} [∀ m a, Decidable (A m a)]
    (l : List BootAction) {S : BootMachine → Prop} [DecidablePred S]
    (hl : (l.foldlM (fun m a => if decide (m.Enabled a ∧ A m a) then m.step a else none) booted).any
      (fun m => decide (S m)) = true) : ∃ m, Run A m ∧ S m :=
  Reached.exists_replay .start _ (fun _ _ _ hc => of_decide_eq_true hc) l hl

def startUp (c : CoreId) (idleTask task : Ptr) : List BootAction :=
  [.init c idleTask, .create c task {}, .work c (.addTask (presetPlatform true) c task)]

/-- Core 0 schedules its first task, in a state that it reaches from boot. -/
theorem reaches_schedule_example :
    ∃ m m₁ m' : BootMachine, Run (fun _ a => KeepsTasks a) m ∧ m.step (.schedule 0) = some m₁ ∧
      Reached step (fun _ a => a = .next 0) m₁ m' ∧ m'.kernel.running 0 = some 1 := by
  have h₀ : Run (fun _ a => KeepsTasks a) booted := .start
  have h₁ := h₀.step (.init 0 10) ⟨by decide, by trivial⟩ rfl
  have h₂ := h₁.step (.create 0 1 {}) ⟨by decide, by trivial⟩ rfl
  have h₃ := h₂.step (.work 0 (.addTask (presetPlatform true) 0 1))
    ⟨by decide, by exact (aloof_taskSet ∅).addTask _ 0 1⟩ rfl
  obtain ⟨m₁, m', hm₁, hreach, -, hk⟩ := reaches_schedule (Run.hasContexts h₃) (c := 0) rfl
  exact ⟨_, m₁, m', h₃, hm₁, hreach, by rw [hk]; rfl⟩

def blocks (c : CoreId) (task : Ptr) : List BootAction :=
  [.work c ⟨blockBody c task ⟨7⟩, aloof_perCpu.blockBody c task ⟨7⟩⟩, .schedule c, .next c, .next c]

def BothLeft (m : BootMachine) : Prop :=
  m.log.map (fun r => (r.executing, r.ending)) =
    [(.thread 1, .switched (.taskContext 1) 10 (.entry 10) true),
      (.bootCode 1, .switched .bootContext 2 (.entry 2) true),
      (.bootCode 0, .switched .bootContext 1 (.entry 1) true)]

instance (m : BootMachine) : Decidable m.BothLeft := by
  unfold BothLeft
  infer_instance

/-- Both cores read the flag before one of them sets it. -/
theorem boot_code_saved_aside_example :
    ∃ m, Run (fun m a => m.FlagUnset a) m ∧ m.BothLeft ∧
      ∀ c q, m.taskContext q ≠ .code (.bootCode c) := by
  have hrun : ∃ m, Run (fun m a => m.FlagUnset a) m ∧ m.BothLeft := by
    apply Run.exists_replay (startUp 0 10 1 ++ startUp 1 11 2 ++
      [.schedule 0, .schedule 1, .next 0, .next 1, .next 0, .next 0, .next 1, .next 1] ++ blocks 0 1)
    decide +kernel
  obtain ⟨m, hm, hleft⟩ := hrun
  exact ⟨m, hm, hleft, (boot_code_saved_aside hm).2.1⟩

/-- The idle thread of core 1, when it is switched to first, is the boot code. -/
def IdleLost (m : BootMachine) : Prop :=
  m.kernel.idle 1 = some 11 ∧
    ⟨1, .bootCode 1, .switched (.taskContext 11) 2 (.entry 2) true⟩ ∈ m.log ∧
    ⟨1, .thread 2, .switched (.taskContext 2) 11 (.code (.bootCode 1)) true⟩ ∈ m.log

instance (m : BootMachine) : Decidable m.IdleLost := by
  unfold IdleLost
  infer_instance

/-- Core 0 has left its boot code when core 1 calls `Schedule`: the boot code of core 1 is saved
over the entry of its idle thread. -/
theorem second_core_overwrites_idle : ∃ m, Run (fun _ _ => True) m ∧ m.IdleLost := by
  apply Run.exists_replay (startUp 0 10 1 ++ startUp 1 11 2 ++
    [.schedule 0, .next 0, .next 0, .next 0, .schedule 1, .next 1, .next 1] ++ blocks 1 2)
  decide +kernel

end Replay

end BootMachine

end NaiLongKernel.Task
