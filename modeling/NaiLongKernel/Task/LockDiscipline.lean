import NaiLongKernel.Task.Groups
import NaiLongKernel.Task.System

/-!
# Lock discipline

The operations with real spin locks. A lock held by the same core fails and is recorded,
as `kSpinLockRecursiveLock` is returned; a lock held by another core spins. An operation
that takes no lock twice does exactly what it does with granted locks and leaves the
locks as they were: `Follows` is this relation between the two readings of a program,
proved once for each operation from any state of the kernel.
-/
namespace NaiLongKernel.Task

open Foundation Locking

/-- The core that holds a lock, and whether its interrupts were enabled before. -/
structure Holder where
  core : CoreId
  savedIntrEnable : Bool
deriving DecidableEq, Repr

structure Sync where
  holder : LockId → Option Holder
  intrEnabled : CoreId → Bool
  /-- The attempts on a lock that the same core held. -/
  recursiveLocks : List (LockId × CoreId)

namespace Sync

def acquire (c : CoreId) (l : LockId) (s : Sync) : Sync :=
  { s with
    holder := Function.update s.holder l (some ⟨c, s.intrEnabled c⟩)
    intrEnabled := Function.update s.intrEnabled c false }

def release (c : CoreId) (l : LockId) (savedIntrEnable : Bool) (s : Sync) : Sync :=
  { s with
    holder := Function.update s.holder l none
    intrEnabled := if savedIntrEnable then Function.update s.intrEnabled c true
      else s.intrEnabled }

/-- No lock is held. -/
def free (intrEnabled : CoreId → Bool) : Sync := ⟨fun _ => none, intrEnabled, []⟩

variable {s : Sync} {c : CoreId} {l m : LockId}

theorem holder_acquire_self : (s.acquire c l).holder l = some ⟨c, s.intrEnabled c⟩ :=
  Function.update_self _ _ _

theorem holder_acquire_ne (h : m ≠ l) : (s.acquire c l).holder m = s.holder m :=
  Function.update_of_ne h _ _

theorem release_acquire (h : s.holder l = none) :
    (s.acquire c l).release c l (s.intrEnabled c) = s := by
  have hh : Function.update (Function.update s.holder l (some ⟨c, s.intrEnabled c⟩)) l none =
      s.holder := by
    rw [Function.update_idem, ← h, Function.update_eq_self]
  have hi : (if s.intrEnabled c then
      Function.update (Function.update s.intrEnabled c false) c true
      else Function.update s.intrEnabled c false) = s.intrEnabled := by
    cases hc : s.intrEnabled c with
    | true | false => simp [← hc]
  simp only [release, acquire, hh, hi]

end Sync

/-- Programs of core `c` with spin locks. -/
def SpinM (_ : CoreId) (α : Type) : Type := EStateM Fault (Kernel × Sync) α

namespace SpinM

variable {c : CoreId} {α : Type}

instance : Monad (SpinM c) := inferInstanceAs (Monad (EStateM Fault (Kernel × Sync)))

def run (x : KernelM α) : SpinM c α := fun (k, s) =>
  match x k with
  | .ok a k' => .ok a (k', s)
  | .error e k' => .error e (k', s)

/-- `SpinLock::Lock`. -/
def lock (l : LockId) : SpinM c Bool := fun (k, s) =>
  match s.holder l with
  | none => .ok true (k, s.acquire c l)
  | some h =>
    if h.core = c then .ok false (k, { s with recursiveLocks := (l, c) :: s.recursiveLocks })
    else .error (.spinning l) (k, s)

/-- `SpinLock::UnLock`: a lock that the core does not hold is left alone. -/
def unlock (l : LockId) : SpinM c Unit := fun (k, s) =>
  match s.holder l with
  | none => .ok () (k, s)
  | some h => .ok () (k, if h.core = c then s.release c l h.savedIntrEnable else s)

instance : Locking (SpinM c) where
  run := run
  lock := lock
  unlock := unlock

variable {β : Type} {x : SpinM c α} {f : α → SpinM c β} {z z' : Kernel × Sync}

theorem bind_of_ok {a : α} (h : x z = .ok a z') : (x >>= f) z = f a z' := by
  change EStateM.bind x f z = _
  simp only [EStateM.bind, h]

theorem bind_of_error {e : Fault} (h : x z = .error e z') : (x >>= f) z = .error e z' := by
  change EStateM.bind x f z = _
  simp only [EStateM.bind, h]

end SpinM

/-- From `k` the program `x` with spin locks does what `y` does with granted locks, takes
no lock twice and turns the locks from `s` into `s'`. -/
def Follows {c : CoreId} {α : Type} (x : SpinM c α) (y : KernelM α) (s s' : Sync) (k : Kernel) :
    Prop :=
  s'.recursiveLocks = s.recursiveLocks ∧
    match y k with
    | .ok a k' => x (k, s) = .ok a (k', s')
    | .error e k' => ∃ s'', x (k, s) = .error e (k', s'') ∧ s''.recursiveLocks = s.recursiveLocks

namespace Follows

variable {c : CoreId} {α β : Type} {s s₁ s₂ : Sync} {k : Kernel} {l : LockId}

protected theorem pure (a : α) : Follows (pure a : SpinM c α) (pure a) s s k := ⟨rfl, rfl⟩

protected theorem run (x : KernelM α) : Follows (run x : SpinM c α) (run x) s s k := by
  refine ⟨rfl, ?_⟩
  have hx : (Locking.run x : KernelM α) k = x k := rfl
  rw [hx]
  cases h : x k with
  | ok a k' => simp [Locking.run, SpinM.run, h]
  | error e k' => exact ⟨s, by simp [Locking.run, SpinM.run, h], rfl⟩

theorem lock (h : s.holder l = none) :
    Follows (lock l : SpinM c Bool) (lock l) s (s.acquire c l) k := by
  refine ⟨rfl, ?_⟩
  change SpinM.lock l (k, s) = _
  simp [SpinM.lock, h]

theorem unlock (h : s.holder l = none) :
    Follows (unlock l : SpinM c Unit) (unlock l) (s.acquire c l) s k := by
  refine ⟨rfl, ?_⟩
  change SpinM.unlock l (k, s.acquire c l) = _
  simp [SpinM.unlock, Sync.holder_acquire_self, Sync.release_acquire h]

protected theorem bind {x : SpinM c α} {y : KernelM α} {f : α → SpinM c β} {g : α → KernelM β}
    (hx : Follows x y s s₁ k)
    (hf : ∀ a k', y k = .ok a k' → Follows (f a) (g a) s₁ s₂ k')
    (hrec : s₂.recursiveLocks = s₁.recursiveLocks) :
    Follows (x >>= f) (y >>= g) s s₂ k := by
  refine ⟨hrec.trans hx.1, ?_⟩
  obtain ⟨hrec₁, hx⟩ := hx
  cases hy : y k with
  | error e k' =>
    rw [hy] at hx
    obtain ⟨s'', hx, hs''⟩ := hx
    have hyg : (y >>= g) k = .error e k' := by simp [bind, EStateM.bind, hy]
    rw [hyg]
    exact ⟨s'', SpinM.bind_of_error hx, hs''⟩
  | ok a k' =>
    rw [hy] at hx
    obtain ⟨-, hf⟩ := hf a k' hy
    have hyg : (y >>= g) k = g a k' := by simp [bind, EStateM.bind, hy]
    rw [hyg, SpinM.bind_of_ok hx, ← hrec₁]
    exact hf

theorem locks_eq {x : SpinM c α} {y : KernelM α} {a : α} {k' : Kernel} {s' : Sync}
    (h : Follows x y s s₁ k) (hx : x (k, s) = .ok a (k', s')) : s' = s₁ := by
  obtain ⟨-, h⟩ := h
  cases hy : y k with
  | ok b k₁ =>
    rw [hy] at h
    cases hx.symm.trans h
    rfl
  | error e k₁ =>
    rw [hy] at h
    obtain ⟨s'', h, -⟩ := h
    cases hx.symm.trans h

protected theorem ite {b : Prop} [Decidable b] {x x' : SpinM c α} {y y' : KernelM α}
    (hx : Follows x y s s₁ k) (hx' : Follows x' y' s s₁ k) :
    Follows (if b then x else x') (if b then y else y') s s₁ k := by
  by_cases hb : b
  · rw [if_pos hb, if_pos hb]
    exact hx
  · rw [if_neg hb, if_neg hb]
    exact hx'

theorem guard {x : SpinM c α} {y : KernelM α} (hl : s.holder l = none)
    (hx : Follows x y (s.acquire c l) (s.acquire c l) k) :
    Follows (lockGuard l x) (lockGuard l y) s s k := by
  refine Follows.bind (lock hl) ?_ rfl
  intro a k' ha
  cases ha
  exact Follows.bind hx (fun b _ _ => Follows.bind (unlock hl) (fun _ _ _ => Follows.pure b) rfl) rfl

theorem guard_run {x : KernelM α} (hl : s.holder l = none) :
    Follows (lockGuard l (run x) : SpinM c α) (lockGuard l (run x)) s s k :=
  guard hl (Follows.run x)

protected theorem klog (hlog : s.holder .kernelLog = none) :
    Follows (klog : SpinM c Unit) klog s s k := guard hlog (Follows.pure ())

end Follows

/-- From `k` the program loops in a guard of `l`, which its core holds. -/
def Hangs {c : CoreId} {α : Type} (x : SpinM c α) (l : LockId) (s : Sync) (k : Kernel) : Prop :=
  ∃ k' s', x (k, s) = .error (.lockHang l) (k', s') ∧
    s'.recursiveLocks = (l, c) :: s.recursiveLocks

namespace Hangs

variable {c : CoreId} {α β : Type} {s s₁ : Sync} {k k' : Kernel} {l m : LockId} {x : SpinM c α}
  {f : α → SpinM c β}

theorem held {b : Bool} (h : s.holder l = some ⟨c, b⟩) : Hangs (lockGuard l x) l s k := by
  have hlock : (lock l : SpinM c Bool) (k, s) =
      .ok false (k, { s with recursiveLocks := (l, c) :: s.recursiveLocks }) := by
    change SpinM.lock l (k, s) = _
    simp [SpinM.lock, h]
  refine ⟨k, { s with recursiveLocks := (l, c) :: s.recursiveLocks }, ?_, rfl⟩
  rw [lockGuard, SpinM.bind_of_ok hlock]
  rfl

theorem bind_left (h : Hangs x l s k) : Hangs (x >>= f) l s k := by
  rcases h with ⟨k', s', hx, hs'⟩
  exact ⟨k', s', SpinM.bind_of_error hx, hs'⟩

theorem bind_right {y : KernelM α} {a : α} (hx : Follows x y s s₁ k) (hy : y k = .ok a k')
    (h : Hangs (f a) l s₁ k') : Hangs (x >>= f) l s k := by
  obtain ⟨hrec, hx⟩ := hx
  rw [hy] at hx
  rcases h with ⟨k'', s', hf, hs'⟩
  exact ⟨k'', s', (SpinM.bind_of_ok hx).trans hf, by rw [hs', hrec]⟩

theorem guard (hm : s.holder m = none) (h : Hangs x l (s.acquire c m) k) :
    Hangs (lockGuard m x) l s k :=
  bind_right (Follows.lock hm) rfl (bind_left h)

end Hangs

/-- From `k` the program does not return. -/
def Stops {c : CoreId} {α : Type} (x : SpinM c α) (s : Sync) (k : Kernel) : Prop :=
  ∃ e z, x (k, s) = .error e z

namespace Stops

variable {c : CoreId} {α β : Type} {s s₁ : Sync} {k : Kernel} {m : LockId} {x : SpinM c α}
  {y : KernelM α} {f : α → SpinM c β}

theorem of_follows (hx : Follows x y s s₁ k) (h : wp y (fun _ _ => False) (fun _ _ => True) k) :
    Stops x s k := by
  obtain ⟨-, hx⟩ := hx
  cases hy : y k with
  | ok a k' => exact (h.of_ok hy).elim
  | error e k' =>
    rw [hy] at hx
    obtain ⟨s', hx, -⟩ := hx
    exact ⟨e, (k', s'), hx⟩

theorem bind_left (h : Stops x s k) : Stops (x >>= f) s k := by
  obtain ⟨e, z, hx⟩ := h
  exact ⟨e, z, SpinM.bind_of_error hx⟩

theorem bind_right (hx : Follows x y s s₁ k)
    (h : ∀ a k', y k = .ok a k' → Stops (f a) s₁ k') : Stops (x >>= f) s k := by
  obtain ⟨-, hx⟩ := hx
  cases hy : y k with
  | ok a k' =>
    rw [hy] at hx
    obtain ⟨e, z, hf⟩ := h a k' hy
    exact ⟨e, z, (SpinM.bind_of_ok hx).trans hf⟩
  | error e k' =>
    rw [hy] at hx
    obtain ⟨s', hx, -⟩ := hx
    exact bind_left ⟨e, (k', s'), hx⟩

theorem guard (hm : s.holder m = none) (h : Stops x (s.acquire c m) k) :
    Stops (lockGuard m x) s k := by
  refine bind_right (Follows.lock hm) ?_
  rintro _ _ ⟨⟩
  exact bind_left h

end Stops

section Operations

variable (P : Platform) {c : CoreId} {s : Sync} {k : Kernel} {p : Ptr}

theorem follows_schedule (hs : s.holder (.sched c) = none) :
    Follows (schedule c : SpinM c Unit) (schedule c) s s k := by
  refine Follows.bind (Follows.lock hs) (fun _ _ _ => ?_) rfl
  refine Follows.bind (Follows.run _) (fun r _ _ => ?_) rfl
  cases r with
  | none | some => exact Follows.bind (Follows.unlock hs) (fun _ _ _ => Follows.run _) rfl

theorem follows_tickUpdate (hs : s.holder (.sched c) = none) :
    Follows (tickUpdate P c : SpinM c Unit) (tickUpdate P c) s s k := by
  refine Follows.bind (Follows.guard_run hs) (fun b _ _ => ?_) rfl
  cases b with
  | false => exact Follows.pure ()
  | true => exact follows_schedule hs

theorem follows_sleep (hs : s.holder (.sched c) = none) (ms : BitVec 64) :
    Follows (sleep P c ms : SpinM c Unit) (sleep P c ms) s s k := by
  refine Follows.bind (Follows.run _) (fun current _ _ => ?_) rfl
  exact Follows.ite (follows_schedule hs)
    (Follows.bind (Follows.guard_run hs) (fun _ _ _ => follows_schedule hs) rfl)

theorem follows_logged {l : LockId} (hl : s.holder l = none) (hlog : s.holder .kernelLog = none)
    (hne : LockId.kernelLog ≠ l) (x : KernelM Unit) :
    Follows (lockGuard l (do run x; klog) : SpinM c Unit) (lockGuard l (do run x; klog)) s s k := by
  have hlog' : (s.acquire c l).holder .kernelLog = none := by rw [Sync.holder_acquire_ne hne, hlog]
  exact Follows.guard hl (Follows.bind (Follows.run _) (fun _ _ _ => Follows.klog hlog') rfl)

theorem follows_block (hs : s.holder (.sched c) = none) (hlog : s.holder .kernelLog = none)
    (r : ResourceId) : Follows (block c r : SpinM c Unit) (block c r) s s k := by
  refine Follows.bind (Follows.run _) (fun current _ _ => ?_) rfl
  exact Follows.bind (follows_logged hs hlog (by simp) _) (fun _ _ _ => follows_schedule hs) rfl

theorem follows_wakeup (hs : s.holder (.sched c) = none) (hlog : s.holder .kernelLog = none)
    (r : ResourceId) : Follows (wakeup c r : SpinM c Unit) (wakeup c r) s s k :=
  follows_logged hs hlog (by simp) _

theorem follows_addTask (hs : ∀ c', s.holder (.sched c') = none) (htab : s.holder .taskTable = none) :
    Follows (addTask P c p : SpinM c Unit) (addTask P c p) s s k := by
  refine Follows.bind (Follows.ite (Follows.run _) (Follows.pure ())) (fun _ _ _ => ?_) rfl
  refine Follows.bind (Follows.run _) (fun pid _ _ => ?_) rfl
  refine Follows.bind (Follows.guard_run htab) (fun _ _ _ => ?_) rfl
  refine Follows.bind (Follows.run _) (fun _ _ _ => ?_) rfl
  refine Follows.bind (Follows.run _) (fun t _ _ => ?_) rfl
  refine Follows.bind (Follows.lock (hs _)) (fun _ _ _ => ?_) rfl
  exact Follows.bind (Follows.run _) (fun _ _ _ => Follows.unlock (hs _)) rfl

theorem follows_destroyTask (hlog : s.holder .kernelLog = none) :
    Follows (destroyTask p : SpinM c Unit) (destroyTask p) s s k :=
  Follows.bind (Follows.run _) (fun _ _ _ => Follows.klog hlog) rfl

theorem follows_reapTask (htab : s.holder .taskTable = none) (hlog : s.holder .kernelLog = none) :
    Follows (reapTask p : SpinM c Unit) (reapTask p) s s k := by
  refine Follows.bind (Follows.run _) (fun t _ _ => ?_) rfl
  refine Follows.ite ?_ (Follows.klog hlog)
  refine Follows.bind (Follows.guard_run htab) (fun _ _ _ => ?_) rfl
  refine Follows.bind (follows_destroyTask hlog) (fun _ _ _ => ?_) rfl
  exact Follows.bind (Follows.run _) (fun _ _ _ => Follows.klog hlog) rfl

theorem follows_reparent (hlog : s.holder .kernelLog = none) (parent : Pid)
    (table : List (Pid × Ptr)) :
    Follows (reparent parent table : SpinM c Unit) (reparent parent table) s s k := by
  induction table generalizing k with
  | nil => exact Follows.pure ()
  | cons e rest ih =>
    refine Follows.bind (Follows.run _) (fun t _ _ => ?_) rfl
    refine Follows.ite ?_ ih
    refine Follows.bind (Follows.run _) (fun _ _ _ => ?_) rfl
    exact Follows.bind (Follows.klog hlog) (fun _ _ _ => ih) rfl

theorem follows_leaveFamily (htab : s.holder .taskTable = none)
    (hlog : s.holder .kernelLog = none) :
    Follows (leaveFamily p : SpinM c Unit) (leaveFamily p) s s k := by
  have hlog' : (s.acquire c .taskTable).holder .kernelLog = none := by
    rw [Sync.holder_acquire_ne (by simp), hlog]
  refine Follows.bind (Follows.run _) (fun t _ _ => ?_) rfl
  refine Follows.bind (Follows.ite (Follows.klog hlog) (Follows.pure ())) (fun _ _ _ => ?_) rfl
  refine Follows.bind (Follows.run _) (fun _ _ _ => ?_) rfl
  refine Follows.ite ?_ (Follows.pure ())
  refine Follows.bind (Follows.run _) (fun t _ _ => ?_) rfl
  refine Follows.bind (Follows.run _) (fun table _ _ => ?_) rfl
  exact Follows.guard htab (follows_reparent hlog' _ _)

/-- Without a parent nobody is woken. -/
theorem follows_settleExit (htab : s.holder .taskTable = none) (hlog : s.holder .kernelLog = none)
    (hpar : ∀ t, k.tasks p = some t → t.parentPid = 0) :
    Follows (settleExit c p : SpinM c Unit) (settleExit c p) s s k := by
  refine Follows.bind (Follows.run _) (fun t k' ht => ?_) rfl
  have ht0 : t.parentPid = 0 := by
    cases hk : k.tasks p with
    | none => simp [readTask, hk] at ht
    | some u =>
      rw [(EStateM.Result.ok.inj (ht.symm.trans (readTask_eq hk))).1]
      exact hpar u hk
  rw [if_neg (not_not.mpr ht0), if_neg (not_not.mpr ht0)]
  exact Follows.bind (Follows.run _) (fun _ _ _ => follows_reapTask htab hlog) rfl

theorem wp_leaveFamily_tolerant {t : TaskControlBlock} (ht : k.tasks p = some t) :
    wp (leaveFamily p : KernelM Unit)
      (fun _ k' => ∃ t', k'.tasks p = some t' ∧ t'.parentPid = k.exitParent p t)
      (fun _ _ => True) k := by
  simp only [leaveFamily, run_kernelM, klog_kernelM, ite_self, wp_bind, wp_readTask ht, wp_pure]
  refine wp_leaveThreadGroup_tolerant.imp ?_
  intro _ k₁ hr
  rcases hr.same p t ht with ⟨t₁, ht₁, hreg⟩
  have hpar₁ : t₁.parentPid = t.parentPid := by rw [hreg]
  rw [wp_ite, Kernel.exitParent]
  split
  · simp only [reparentChildren, run_kernelM, lockGuard_kernelM, wp_bind, wp_readTask ht₁, wp_get,
      wp_pure]
    refine wp_reparent _ _ (fun _ _ _ _ => trivial) ?_
    intro k₂ _ hpar
    rcases hpar p t₁ ht₁ with ⟨t₂, ht₂, hpar₂⟩
    refine ⟨t₂, ht₂, ?_⟩
    rw [hpar₂, adoptedParent, adoptedParent, hpar₁, hreg.profile.pid, hr.taskTable]
  · rw [wp_pure]
    exact ⟨t₁, ht₁, hpar₁⟩

theorem wp_runningTask_tolerant (noTask notRunning : String) :
    wp (runningTask c noTask notRunning) (fun p k' => k' = k ∧ k.running c = some p ∧
      ∃ t, k.tasks p = some t ∧ t.status = .kRunning) (fun _ _ => True) k := by
  simp only [runningTask, wp_bind, wp_currentTask]
  cases hrun : k.running c with
  | none => trivial
  | some p =>
    refine wp_readTask_tolerant (fun t ht => ?_)
    rw [wp_assertMsg]
    split
    · rename_i hst
      rw [wp_pure]
      exact ⟨rfl, rfl, t, ht, by simpa using hst⟩
    · trivial

theorem follows_exit (hs : s.holder (.sched c) = none) (htab : s.holder .taskTable = none)
    (hlog : s.holder .kernelLog = none) (exitCode : BitVec 32)
    (hpar : ∀ p t, k.running c = some p → k.tasks p = some t → t.status = .kRunning →
      k.exitParent p t = 0) :
    Follows (exit c exitCode : SpinM c Unit) (exit c exitCode) s s k := by
  have htab' : (s.acquire c (.sched c)).holder .taskTable = none := by
    rw [Sync.holder_acquire_ne (by simp), htab]
  have hlog' : (s.acquire c (.sched c)).holder .kernelLog = none := by
    rw [Sync.holder_acquire_ne (by simp), hlog]
  refine Follows.bind (Follows.run _) (fun current k₀ hcur => ?_) rfl
  refine Follows.bind (Follows.guard hs ?_) (fun _ _ _ => follows_schedule hs) rfl
  refine Follows.bind (Follows.run _) (fun _ k₁ hupd => ?_) rfl
  refine Follows.bind (follows_leaveFamily htab' hlog') (fun _ k₂ hfam => ?_) rfl
  refine follows_settleExit htab' hlog' ?_
  obtain ⟨rfl, hrun, t, ht, hst⟩ := (wp_runningTask_tolerant _ _).of_ok hcur
  have hk₁ : k₁ = k₀.setTask current { t with exitCode := exitCode } :=
    (EStateM.Result.ok.inj (hupd.symm.trans (updateTask_eq ht _))).2
  subst hk₁
  obtain ⟨t', ht', hpar'⟩ :=
    (wp_leaveFamily_tolerant (k₀.tasks_setTask_self current _)).of_ok hfam
  intro u hu
  rw [ht'] at hu
  cases hu
  exact hpar'.trans (hpar current t hrun ht hst)

/-- Without a parent the message after the deletion reads the deleted block. -/
theorem wp_reapTask_stops {t : TaskControlBlock} (ht : k.tasks p = some t) (hdead : isDead t = true) :
    wp (reapTask p : KernelM Unit) (fun _ _ => False) (fun _ _ => True) k := by
  simp only [reapTask, destroyTask, run_kernelM, lockGuard_kernelM, klog_kernelM, wp_bind,
    wp_readTask ht, hdead, if_true, wp_modify, wp_pure]
  have hgone : wp (deleteTask p) (fun _ k' => k'.tasks p = none) (fun _ _ => True)
      { k with taskTable := tableErase t.pid k.taskTable } := by
    simp only [deleteTask, wp_bind, wp_get, ht]
    refine wp_leaveThreadGroup_tolerant.imp (fun _ k' _ => ?_)
    refine wp_readTask_tolerant (fun t' _ => ?_)
    rw [wp_modify]
    exact Function.update_self _ _ _
  refine hgone.imp ?_
  intro _ k' hnone
  exact (wp_readTask_none hnone).mpr trivial

/-- `Exit` does not return: it locks the core's lock again, or uses the deleted block. -/
theorem exit_stops (hs : s.holder (.sched c) = none) (htab : s.holder .taskTable = none)
    (hlog : s.holder .kernelLog = none) (exitCode : BitVec 32) :
    Stops (exit c exitCode : SpinM c Unit) s k := by
  have htab' : (s.acquire c (.sched c)).holder .taskTable = none := by
    rw [Sync.holder_acquire_ne (by simp), htab]
  have hlog' : (s.acquire c (.sched c)).holder .kernelLog = none := by
    rw [Sync.holder_acquire_ne (by simp), hlog]
  refine Stops.bind_right (Follows.run _) (fun current k₀ _ => ?_)
  refine Stops.bind_left (Stops.guard hs ?_)
  refine Stops.bind_right (Follows.run _) (fun _ k₁ _ => ?_)
  refine Stops.bind_right (follows_leaveFamily htab' hlog') (fun _ k₂ _ => ?_)
  refine Stops.bind_right (Follows.run _) (fun t k₃ ht => ?_)
  by_cases hpar : t.parentPid = 0
  · dsimp only
    rw [if_neg (not_not.mpr hpar)]
    refine Stops.bind_right (Follows.run _) (fun _ k₄ hupd => ?_)
    refine Stops.of_follows (follows_reapTask htab' hlog') ?_
    cases hu : k₃.tasks current with
    | none => simp [updateTask, hu] at hupd
    | some u =>
      obtain rfl := (EStateM.Result.ok.inj (hupd.symm.trans (updateTask_eq hu _))).2
      exact wp_reapTask_stops (k₃.tasks_setTask_self current _) rfl
  · dsimp only
    rw [if_pos hpar]
    refine Stops.bind_right (Follows.run _) (fun _ k₄ _ => ?_)
    obtain ⟨k₅, s₅, hhang, -⟩ := Hangs.held Sync.holder_acquire_self
    exact Stops.bind_left ⟨_, _, hhang⟩

theorem follows_waitPass (hs : s.holder (.sched c) = none) (htab : s.holder .taskTable = none)
    (hlog : s.holder .kernelLog = none) (pid : Pid) (noHang untraced : Bool)
    (order : List (Pid × Ptr)) :
    Follows (waitPass c pid noHang untraced order : SpinM c WaitResult)
      (waitPass c pid noHang untraced order) s s k := by
  refine Follows.bind (Follows.run _) (fun current _ _ => ?_) rfl
  refine Follows.bind (Follows.guard_run htab) (fun scan _ _ => ?_) rfl
  cases scan with
  | stopped child => exact Follows.pure _
  | exited target =>
    refine Follows.bind (Follows.run _) (fun t _ _ => ?_) rfl
    refine Follows.bind (Follows.run _) (fun parent _ _ => ?_) rfl
    refine Follows.bind (Follows.run _) (fun _ _ _ => ?_) rfl
    refine Follows.bind (Follows.run _) (fun _ _ _ => ?_) rfl
    refine Follows.bind (Follows.guard_run htab) (fun _ _ _ => ?_) rfl
    refine Follows.bind (follows_destroyTask hlog) (fun _ _ _ => ?_) rfl
    exact Follows.bind (Follows.klog hlog) (fun _ _ _ => Follows.pure _) rfl
  | nothing =>
    refine Follows.ite (Follows.pure _) ?_
    refine Follows.bind (Follows.run _) (fun parent _ _ => ?_) rfl
    exact Follows.bind (follows_block hs hlog _) (fun _ _ _ => Follows.pure _) rfl

theorem follows_findTask (htab : s.holder .taskTable = none) (pid : Pid) :
    Follows (findTask pid : SpinM c (Option Ptr)) (findTask pid) s s k := Follows.guard_run htab

theorem follows_joinParentGroup (htab : s.holder .taskTable = none)
    (hlog : s.holder .kernelLog = none) (child parent : Ptr) :
    Follows (joinParentGroup child parent : SpinM c Unit) (joinParentGroup child parent) s s k := by
  refine Follows.bind (Follows.run _) (fun t _ _ => ?_) rfl
  refine Follows.ite (Follows.run _) ?_
  refine Follows.bind (follows_findTask htab _) (fun leader _ _ => ?_) rfl
  cases leader with
  | some leader => exact Follows.run _
  | none => exact Follows.bind (Follows.klog hlog) (fun _ _ _ => Follows.run _) rfl

theorem follows_cloneChild (hs : ∀ c', s.holder (.sched c') = none)
    (htab : s.holder .taskTable = none) (hlog : s.holder .kernelLog = none) (flags : BitVec 64)
    (newPid : Pid) (parent child : Ptr) :
    Follows (cloneChild P c flags newPid parent child : SpinM c (Except _ Pid))
      (cloneChild P c flags newPid parent child) s s k := by
  have habandon : ∀ pageTable k, Follows (abandonChild flags pageTable child : SpinM c (Except _ Pid))
      (abandonChild flags pageTable child) s s k := by
    intro pageTable k
    refine Follows.bind (Follows.klog hlog) (fun _ _ _ => ?_) rfl
    refine Follows.bind (Follows.run _) (fun _ _ _ => ?_) rfl
    exact Follows.bind (follows_destroyTask hlog) (fun _ _ _ => Follows.pure _) rfl
  have hpublish : ∀ k, Follows (publishChild P c newPid child : SpinM c (Except _ Pid))
      (publishChild P c newPid child) s s k := by
    intro k
    refine Follows.bind (Follows.guard_run htab) (fun _ _ _ => ?_) rfl
    refine Follows.bind (follows_addTask P hs htab) (fun _ _ _ => ?_) rfl
    exact Follows.bind (Follows.klog hlog) (fun _ _ _ => Follows.pure _) rfl
  refine Follows.bind (Follows.run _) (fun t _ _ => ?_) rfl
  refine Follows.bind (Follows.run _) (fun table _ _ => ?_) rfl
  cases table with
  | error _ =>
    refine Follows.bind (Follows.klog hlog) (fun _ _ _ => ?_) rfl
    exact Follows.bind (follows_destroyTask hlog) (fun _ _ _ => Follows.pure _) rfl
  | ok pageTable =>
    refine Follows.bind (Follows.run _) (fun _ _ _ => ?_) rfl
    refine Follows.bind (Follows.klog hlog) (fun _ _ _ => ?_) rfl
    refine Follows.bind (Follows.run _) (fun stack k₁ _ => ?_) rfl
    match stack with
    | .ok (some stack) => exact Follows.bind (Follows.run _) (fun _ k₂ _ => hpublish k₂) rfl
    | .ok none => exact habandon pageTable k₁
    | .error _ => exact habandon pageTable k₁

theorem follows_clone (hs : ∀ c', s.holder (.sched c') = none)
    (htab : s.holder .taskTable = none) (hlog : s.holder .kernelLog = none) (flags : BitVec 64)
    (child : Option Ptr) :
    Follows (clone P c flags child : SpinM c (Except _ Pid)) (clone P c flags child) s s k := by
  refine Follows.bind (Follows.run _) (fun running _ _ => ?_) rfl
  cases running with
  | none => exact Follows.bind (Follows.klog hlog) (fun _ _ _ => Follows.pure _) rfl
  | some parent =>
    refine Follows.bind (Follows.ite (Follows.klog hlog) (Follows.pure ())) (fun _ _ _ => ?_) rfl
    refine Follows.bind (Follows.run _) (fun newPid _ _ => ?_) rfl
    refine Follows.ite (Follows.bind (Follows.klog hlog) (fun _ _ _ => Follows.pure _) rfl) ?_
    cases child with
    | none => exact Follows.bind (Follows.klog hlog) (fun _ _ _ => Follows.pure _) rfl
    | some child =>
      refine Follows.bind (Follows.run _) (fun t _ _ => ?_) rfl
      refine Follows.bind (Follows.run _) (fun _ _ _ => ?_) rfl
      refine Follows.bind (Follows.ite (follows_joinParentGroup htab hlog child parent)
        (Follows.pure ())) (fun _ _ _ => ?_) rfl
      refine Follows.bind (Follows.klog hlog) (fun _ _ _ => ?_) rfl
      exact follows_cloneChild P hs htab hlog _ newPid parent child

end Operations

namespace SysOp

variable (P : Platform)

/-- A task that exits has no parent to wake. -/
def NoParentToWake (k : Kernel) : SysOp → Prop
  | exit c _ => ∀ p t, k.running c = some p → k.tasks p = some t → t.status = .kRunning →
      k.exitParent p t = 0
  | _ => True

theorem follows (op : SysOp) {s : Sync} {k : Kernel} (hfree : ∀ l, s.holder l = none)
    (hcond : op.NoParentToWake k) :
    Follows (op.exec P : SpinM op.core Unit) (op.exec P) s s k := by
  have hs : ∀ c, s.holder (.sched c) = none := fun c => hfree _
  cases op with
  | initCurrentCore c idleTask => exact Follows.guard_run (hs c)
  | addTask c task t =>
    exact Follows.bind (Follows.run _) (fun _ _ _ => follows_addTask P hs (hfree _)) rfl
  | clone c flags child =>
    exact Follows.bind (follows_clone P hs (hfree _) (hfree _) flags child)
      (fun _ _ _ => Follows.pure ()) rfl
  | schedule c => exact follows_schedule (hs c)
  | tickUpdate c => exact follows_tickUpdate P (hs c)
  | sleep c ms => exact follows_sleep P (hs c) ms
  | block c r => exact follows_block (hs c) (hfree _) r
  | wakeup c r => exact follows_wakeup (hs c) (hfree _) r
  | exit c exitCode => exact follows_exit (hs c) (hfree _) (hfree _) exitCode hcond
  | wait c pid noHang untraced order =>
    exact Follows.bind (follows_waitPass (hs c) (hfree _) (hfree _) pid noHang untraced order)
      (fun _ _ _ => Follows.pure ()) rfl
  | findTask c pid =>
    exact Follows.bind (follows_findTask (hfree _) pid) (fun _ _ _ => Follows.pure ()) rfl
  | allocPage | vmCall => exact Follows.run _

theorem noParentToWake_of_ne_exit {k : Kernel} (op : SysOp) (h : ¬ ∃ c exitCode, op = .exit c exitCode) :
    op.NoParentToWake k := by
  cases op with
  | exit c exitCode => exact absurd ⟨c, exitCode, rfl⟩ h
  | _ => trivial

end SysOp

/-- Runs of operations that return, with interrupts switched in between. -/
inductive LockRun (P : Platform) : Kernel → Sync → Prop
  | start (intrEnabled : CoreId → Bool) : LockRun P {} (Sync.free intrEnabled)
  | interrupts {k : Kernel} {s : Sync} (intrEnabled : CoreId → Bool) : LockRun P k s →
      LockRun P k { s with intrEnabled := intrEnabled }
  | step {k k' : Kernel} {s s' : Sync} (op : SysOp) : LockRun P k s →
      (op.exec P : SpinM op.core Unit) (k, s) = .ok () (k', s') → LockRun P k' s'

variable {P : Platform} {k : Kernel} {s : Sync}

theorem LockRun.free (h : LockRun P k s) :
    (∀ l, s.holder l = none) ∧ s.recursiveLocks = [] := by
  induction h with
  | start intrEnabled => exact ⟨fun _ => rfl, rfl⟩
  | interrupts intrEnabled _ ih => exact ih
  | @step k k' s s' op _ hex ih =>
    by_cases hop : ∃ c exitCode, op = .exit c exitCode
    · obtain ⟨c, exitCode, rfl⟩ := hop
      obtain ⟨e, z, hstop⟩ := exit_stops (k := k) (ih.1 _) (ih.1 _) (ih.1 _) exitCode
      cases hex.symm.trans hstop
    · rw [(op.follows P ih.1 (op.noParentToWake_of_ne_exit hop)).locks_eq hex]
      exact ih

end NaiLongKernel.Task
