import NaiLongKernel.Foundation.Interleaving
import NaiLongKernel.Foundation.OwnedFlag

/-!
# Spin locks

`SpinLock::Lock` and `SpinLock::UnLock` as run by any number of cores, one access at a
time: the accesses of a call to `locked_`, `core_id_` and `saved_intr_enable_` and to the
interrupt flag of the core are steps of their own. Beside what the code keeps, each core
remembers whether its last successful call was `Lock` and in which state its interrupts
were just before that call, and the lock remembers who wrote `saved_intr_enable_` last.
-/
namespace NaiLongKernel.Sync

open Foundation

/-- A core of a machine with `n` cores; the number of cores is a `size_t`. -/
structure Core (n : BitVec 64) where
  id : BitVec 64
  lt : id < n
deriving DecidableEq

/-- `std::numeric_limits<size_t>::max()`. -/
def noCore : BitVec 64 := BitVec.allOnes 64

variable {n : BitVec 64}

theorem Core.ext_id {c d : Core n} (h : c.id = d.id) : c = d := by
  cases c
  cases d
  cases h
  rfl

theorem Core.id_injOn : Set.InjOn (Core.id : Core n → BitVec 64) Set.univ :=
  fun _ _ _ _ h => Core.ext_id h

theorem Core.noCore_ne_id (c : Core n) : noCore ≠ c.id := by
  intro h
  have hlt := c.lt
  rw [← h, BitVec.lt_def] at hlt
  have hn : n.toNat < 2 ^ 64 := n.isLt
  simp [noCore] at hlt
  omega

inductive SpinLockError where
  | kSpinLockRecursiveLock
  | kSpinLockNotOwned
deriving DecidableEq, Repr

structure SpinLock where
  locked : Bool := false
  coreId : BitVec 64 := noCore
  savedIntrEnable : Bool := false

/-- The lock, and the core that has stored `saved_intr_enable_` last. -/
structure LockState (n : BitVec 64) extends SpinLock where
  lastSaver : Option (Core n) := none

/-- Where a core is in a call; the argument is the variable `intr_enable` of `Lock`. -/
inductive Pc where
  | outside
  /-- `Lock`: `GetInterruptStatus` and `DisableInterrupt`. -/
  | getStatus
  | disable (intrEnable : Bool)
  | testAndSet (intrEnable : Bool)
  /-- The flag was set already: is it set by this core? -/
  | loadOwner (intrEnable : Bool)
  /-- A recursive call puts the interrupt flag back and fails. -/
  | restore (intrEnable : Bool)
  | storeOwner (intrEnable : Bool)
  | storeSaved (intrEnable : Bool)
  /-- `UnLock`: `IsLockedByCurrentCore`, in two loads. -/
  | testLocked
  | testOwner
  | clearOwner
  | clearLocked
  | readSaved
  | enable
deriving DecidableEq, Repr

/-- A core: its place in the code, its interrupt flag and its history. -/
structure CoreState where
  pc : Pc := .outside
  intrEnable : Bool
  /-- Its last successful call was `Lock`. -/
  held : Bool := false
  /-- The interrupt flag when it last called `Lock`. -/
  called : Bool := false
  /-- The interrupt flag just before its last successful `Lock`. -/
  before : Bool := false
deriving DecidableEq, Repr

inductive Event where
  | lock
  | unLock
  /-- The core changes its interrupt flag between two calls. -/
  | setInterrupt (enable : Bool)
  | next
deriving DecidableEq, Repr

/-- The end of a call. -/
inductive Returned where
  | lock (result : Except SpinLockError Unit)
  | unLock (result : Except SpinLockError Unit)
deriving DecidableEq

namespace CoreState

def goto (t : CoreState) (pc : Pc) : CoreState := { t with pc := pc }

def acquired (t : CoreState) : CoreState :=
  { t with pc := .outside, held := true, before := t.called }

def released (t : CoreState) : CoreState := { t with pc := .outside, held := false }

end CoreState

def advance (c : Core n) (s : LockState n) (t : CoreState) :
    Option (LockState n × CoreState × Option Returned) :=
  match t.pc with
  | .outside => none
  | .getStatus => some (s, t.goto (.disable t.intrEnable), none)
  | .disable b => some (s, { t.goto (.testAndSet b) with intrEnable := false }, none)
  | .testAndSet b =>
    if s.locked then some (s, t.goto (.loadOwner b), none)
    else some ({ s with locked := true }, t.goto (.storeOwner b), none)
  | .loadOwner b =>
    if s.coreId = c.id then some (s, t.goto (.restore b), none)
    else some (s, t.goto (.testAndSet b), none)
  | .restore b =>
    some (s, { t.goto .outside with intrEnable := b || t.intrEnable },
      some (.lock (.error .kSpinLockRecursiveLock)))
  | .storeOwner b => some ({ s with coreId := c.id }, t.goto (.storeSaved b), none)
  | .storeSaved b =>
    some ({ s with savedIntrEnable := b, lastSaver := some c }, t.acquired, some (.lock (.ok ())))
  | .testLocked =>
    if s.locked then some (s, t.goto .testOwner, none)
    else some (s, t.goto .outside, some (.unLock (.error .kSpinLockNotOwned)))
  | .testOwner =>
    if s.coreId = c.id then some (s, t.goto .clearOwner, none)
    else some (s, t.goto .outside, some (.unLock (.error .kSpinLockNotOwned)))
  | .clearOwner => some ({ s with coreId := noCore }, t.goto .clearLocked, none)
  | .clearLocked => some ({ s with locked := false }, t.goto .readSaved, none)
  | .readSaved =>
    if s.savedIntrEnable then some (s, t.goto .enable, none)
    else some (s, t.released, some (.unLock (.ok ())))
  | .enable => some (s, { t.released with intrEnable := true }, some (.unLock (.ok ())))

/-- A core outside a call may begin one or change its interrupt flag. -/
def spinAccess : Access (LockState n) (Core n) CoreState Event Returned
  | _, .lock, s, t =>
    if t.pc = .outside then some (s, { t.goto .getStatus with called := t.intrEnable }, none)
    else none
  | _, .unLock, s, t => if t.pc = .outside then some (s, t.goto .testLocked, none) else none
  | _, .setInterrupt b, s, t =>
    if t.pc = .outside then some (s, { t with intrEnable := b }, none) else none
  | c, .next, s, t => advance c s t

def Threads.booted (intr : Core n → Bool) : Threads (LockState n) (Core n) CoreState :=
  ⟨{}, fun c => { intrEnable := intr c }⟩

/-- What the core has of the lock: the flag alone, or the flag and the owner register. -/
def CoreState.phase (t : CoreState) : FlagPhase :=
  match t.pc with
  | .storeOwner _ | .clearLocked => .taken
  | .storeSaved _ | .clearOwner => .named
  | .readSaved | .enable => .free
  | _ => .settled t.held

/-- What the place in the code says about the last successful call. -/
def CoreState.Consistent (t : CoreState) : Prop :=
  match t.pc with
  | .storeOwner _ | .storeSaved _ => t.held = false
  | .restore _ | .clearOwner | .clearLocked | .readSaved | .enable => t.held = true
  | _ => True

structure LockSound (s : Threads (LockState n) (Core n) CoreState) : Prop where
  owned : OwnedFlag Core.id Set.univ s.shared.locked s.shared.coreId fun c => (s.thread c).phase
  consistent : ∀ c, (s.thread c).Consistent

namespace LockSound

variable {s : Threads (LockState n) (Core n) CoreState} {sh : LockState n} {c : Core n}
  {t : CoreState} {o : Option Returned}

theorem update (h : LockSound s)
    (howned : OwnedFlag Core.id Set.univ sh.locked sh.coreId
      (Function.update (fun d => (s.thread d).phase) c t.phase))
    (hcons : t.Consistent) : LockSound ⟨sh, Function.update s.thread c t⟩ where
  owned := by
    simp only [view_update]
    exact howned
  consistent := by
    intro d
    by_cases hd : d = c
    · subst hd
      simpa using hcons
    · simpa [hd] using h.consistent d

theorem keep (h : LockSound s) (hl : sh.locked = s.shared.locked)
    (hc : sh.coreId = s.shared.coreId) (hphase : t.phase = (s.thread c).phase)
    (hcons : t.Consistent) : LockSound ⟨sh, Function.update s.thread c t⟩ := by
  apply h.update _ hcons
  rw [hl, hc]
  exact h.owned.keep hphase

theorem phase_of_coreId (h : LockSound s) (hid : s.shared.coreId = c.id) :
    (s.thread c).phase = .named :=
  (h.owned.named c trivial).mpr hid

theorem advance (h : LockSound s)
    (ha : advance c s.shared (s.thread c) = some (sh, t, o)) :
    LockSound ⟨sh, Function.update s.thread c t⟩ := by
  have hcons := h.consistent c
  have hnamed := h.phase_of_coreId (c := c)
  cases hpc : (s.thread c).pc with
  | outside => simp [Sync.advance, hpc] at ha
  | getStatus | disable b | restore b | storeSaved b | enable =>
    simp only [Sync.advance, hpc] at ha
    cases ha
    refine h.keep rfl rfl ?_ ?_ <;>
      simp [CoreState.phase, CoreState.Consistent, CoreState.goto, CoreState.acquired,
        CoreState.released, hpc]
  | loadOwner b | testLocked | testOwner | readSaved =>
    simp only [Sync.advance, hpc] at ha
    split at ha
    all_goals
      cases ha
      refine h.keep rfl rfl ?_ ?_ <;>
        simp_all [CoreState.phase, CoreState.Consistent, CoreState.goto, CoreState.released]
  | testAndSet b =>
    simp only [Sync.advance, hpc] at ha
    split at ha
    · cases ha
      refine h.keep rfl rfl ?_ ?_ <;> simp [CoreState.phase, CoreState.Consistent, CoreState.goto, hpc]
    · -- nobody has set the flag, and now it is this core
      rename_i hfree
      cases ha
      have howned := h.owned
      rw [Bool.eq_false_of_not_eq_true hfree] at howned
      have hphase := howned.free_of_flag c
      have hheld : (s.thread c).held = false := by simpa [CoreState.phase, hpc] using hphase
      exact h.update (howned.acquire c) hheld
  | storeOwner b =>
    simp only [Sync.advance, hpc] at ha
    cases ha
    apply h.update (h.owned.name Core.id_injOn trivial (by simp [CoreState.phase, hpc]))
    simpa [CoreState.Consistent, CoreState.goto, hpc] using hcons
  | clearOwner =>
    simp only [Sync.advance, hpc] at ha
    cases ha
    apply h.update (h.owned.unname (fun d _ => d.noCore_ne_id) (by simp [CoreState.phase, hpc]))
    simpa [CoreState.Consistent, CoreState.goto, hpc] using hcons
  | clearLocked =>
    simp only [Sync.advance, hpc] at ha
    cases ha
    apply h.update (h.owned.release (by simp [CoreState.phase, hpc]))
    simpa [CoreState.Consistent, CoreState.goto, hpc] using hcons

theorem access {e : Event} (h : LockSound s)
    (ha : spinAccess c e s.shared (s.thread c) = some (sh, t, o)) :
    LockSound ⟨sh, Function.update s.thread c t⟩ := by
  cases e with
  | next => exact h.advance ha
  | lock | unLock | setInterrupt b =>
    simp only [spinAccess] at ha
    split at ha
    · rename_i hpc
      cases ha
      refine h.keep rfl rfl ?_ ?_ <;> simp [CoreState.phase, CoreState.Consistent, CoreState.goto, hpc]
    · cases ha

theorem booted (intr : Core n → Bool) : LockSound (Threads.booted intr) where
  owned := by
    constructor
    · simp [CoreState.phase, Threads.booted]
    · simp [CoreState.phase, Threads.booted]
    · intro c _
      simpa [CoreState.phase, Threads.booted] using c.noCore_ne_id
  consistent _ := trivial

end LockSound

variable {allowed : Threads (LockState n) (Core n) CoreState → Core n → Event → Prop}
variable {intr : Core n → Bool} {s : Threads (LockState n) (Core n) CoreState}

theorem Interleaved.lockSound (h : Interleaved spinAccess allowed (Threads.booted intr) s) :
    LockSound s :=
  h.invariant (LockSound.booted intr) fun _ _ _ _ _ _ hs _ ha => hs.access ha

/-- Between a successful `Lock` and the moment at which its `UnLock` gives the lock up. -/
def CoreState.Inside (t : CoreState) : Prop := t.held = true ∧ t.pc ≠ .readSaved ∧ t.pc ≠ .enable

theorem CoreState.Inside.phase_ne_free {t : CoreState} (h : t.Inside) : t.phase ≠ .free := by
  obtain ⟨hheld, hread, henable⟩ := h
  cases hpc : t.pc <;> simp_all [CoreState.phase]

/-- What a call returns to a core, given whether the core held the lock when it called. -/
def Returned.Correct (held : Bool) : Returned → Prop
  | .lock r => r = .error .kSpinLockRecursiveLock ↔ held = true
  | .unLock r => r = .ok () ↔ held = true

theorem LockSound.returns {c : Core n} {sh : LockState n} {t : CoreState} {o : Returned}
    (h : LockSound s) (ha : Sync.advance c s.shared (s.thread c) = some (sh, t, some o)) :
    o.Correct (s.thread c).held := by
  have hcons := h.consistent c
  have hflag := h.owned.flag_of_ne (i := c)
  have hnamed := (h.owned.named c trivial).mp
  cases hpc : (s.thread c).pc with
  | outside | getStatus | disable b | storeOwner b | clearOwner | clearLocked =>
    simp [Sync.advance, hpc] at ha
  | testAndSet b | loadOwner b =>
    simp only [Sync.advance, hpc] at ha
    split at ha <;> simp at ha
  | restore b | storeSaved b | enable =>
    simp only [Sync.advance, hpc] at ha
    cases ha
    simp only [CoreState.Consistent, hpc] at hcons
    simp [Returned.Correct, hcons]
  | testLocked | testOwner | readSaved =>
    simp only [Sync.advance, hpc] at ha
    split at ha
    · simp at ha
    · rename_i htest
      cases ha
      simp_all [Returned.Correct, CoreState.phase, CoreState.Consistent]

/-- A core that does not hold the lock is in the loop of `Lock`. -/
def CoreState.spinning (t : CoreState) : Bool :=
  match t.pc with
  | .testAndSet _ | .loadOwner _ => !t.held
  | _ => false

def Pc.remaining : Pc → ℕ
  | .outside => 0
  | .getStatus => 5
  | .disable _ => 4
  | .testAndSet _ => 3
  | .loadOwner _ => 2
  | .restore _ => 1
  | .storeOwner _ => 2
  | .storeSaved _ => 1
  | .testLocked => 6
  | .testOwner => 5
  | .clearOwner => 4
  | .clearLocked => 3
  | .readSaved => 2
  | .enable => 1

theorem LockSound.proceeds {c : Core n} (h : LockSound s) (hpc : (s.thread c).pc ≠ .outside)
    (hspin : (s.thread c).spinning = false) :
    ∃ sh t o, Sync.advance c s.shared (s.thread c) = some (sh, t, o) ∧
      (o = none → t.pc.remaining < (s.thread c).pc.remaining) := by
  have hflag := h.owned.flag_of_ne (i := c)
  have hnamed := (h.owned.named c trivial).mp
  cases hp : (s.thread c).pc with
  | outside => exact absurd hp hpc
  | testAndSet b | loadOwner b =>
    simp_all [Sync.advance, CoreState.phase, CoreState.spinning, CoreState.goto, Pc.remaining]
  | testLocked | testOwner | readSaved =>
    simp only [Sync.advance, hp]
    split <;> simp [CoreState.goto, Pc.remaining]
  | getStatus | disable b | restore b | storeOwner b | storeSaved b | clearOwner | clearLocked
  | enable => simp [Sync.advance, hp, CoreState.goto, Pc.remaining]

/-- Mutual exclusion, exact recursion detection and ownership of `UnLock`, for any number of
cores and any interleaving of their accesses. -/
theorem spinLock_excludes
    (h : Interleaved spinAccess (fun _ _ _ => True) (Threads.booted intr) s) :
    (∀ c d, (s.thread c).Inside → (s.thread d).Inside → c = d) ∧
    (∀ c, (s.thread c).held = true → (s.thread c).pc = .outside →
      s.shared.locked = true ∧ s.shared.coreId = c.id) ∧
    (∀ c s' r, s.move spinAccess c .next = some (s', some r) → r.Correct (s.thread c).held) ∧
    (∀ c, (s.thread c).pc ≠ .outside → (s.thread c).spinning = false →
      ∃ s' o, s.move spinAccess c .next = some (s', o) ∧
        (o = none → (s'.thread c).pc.remaining < (s.thread c).pc.remaining)) := by
  have hs := Interleaved.lockSound h
  refine ⟨?_, ?_, ?_, ?_⟩
  · intro c d hc hd
    exact hs.owned.excl c d hc.phase_ne_free hd.phase_ne_free
  · intro c hheld hpc
    have hphase : (s.thread c).phase = .named := by simp [CoreState.phase, hpc, hheld]
    exact ⟨hs.owned.flag_of_ne (i := c) (by simp [hphase]), (hs.owned.named c trivial).mp hphase⟩
  · intro c s' r hr
    obtain ⟨sh, t, ha, -⟩ := Threads.move_eq_some.mp hr
    exact hs.returns ha
  · intro c hpc hspin
    obtain ⟨sh, t, o, ha, hless⟩ := hs.proceeds hpc hspin
    refine ⟨_, o, Threads.move_eq_some.mpr ⟨sh, t, ha, rfl⟩, ?_⟩
    simpa using hless

def firstCore : Core 2 := ⟨0, by decide⟩

def secondCore : Core 2 := ⟨1, by decide⟩

/-- The first core holds the lock and calls `Lock` again, while the second waits for it. -/
theorem spinLock_excludes_example : ∃ s : Threads (LockState 2) (Core 2) CoreState,
    Interleaved spinAccess (fun _ _ _ => True) (Threads.booted fun _ => true) s ∧
    ((s.thread firstCore).held = true ∧ (s.thread firstCore).pc = .restore false ∧
      (s.thread secondCore).spinning = true) ∧
    ∀ s' r, s.move spinAccess firstCore .next = some (s', some r) → r.Correct true := by
  have hrun : ∃ s : Threads (LockState 2) (Core 2) CoreState,
      Interleaved spinAccess (fun _ _ _ => True) (Threads.booted fun _ => true) s ∧
      ((s.thread firstCore).held = true ∧ (s.thread firstCore).pc = .restore false ∧
        (s.thread secondCore).spinning = true) := by
    apply Interleaved.exists_replay (fun _ _ _ => true) (fun _ _ _ _ => trivial)
      ((firstCore, .lock) :: List.replicate 5 (firstCore, .next) ++
        (secondCore, .lock) :: List.replicate 3 (secondCore, .next) ++
        (firstCore, .lock) :: List.replicate 4 (firstCore, .next))
    decide
  obtain ⟨s, hs, hheld, hpc, hspin⟩ := hrun
  refine ⟨s, hs, ⟨hheld, hpc, hspin⟩, ?_⟩
  have hreturns := (spinLock_excludes hs).2.2.1
  intro s' r hmove
  rw [← hheld]
  exact hreturns _ s' r hmove

/-- When a core reads `saved_intr_enable_` in `UnLock`, the core that stored it last had
called `Lock` with its interrupts in the same state, and the core has not enabled its
interrupts itself since it called `Lock` with interrupts disabled. -/
def RestoresOwn (s : Threads (LockState n) (Core n) CoreState) (c : Core n) (e : Event) : Prop :=
  e = .next → (s.thread c).pc = .readSaved →
    (∀ d, s.shared.lastSaver = some d → (s.thread d).before = (s.thread c).before) ∧
      ((s.thread c).intrEnable = true → (s.thread c).before = true)

/-- What the place in the code says about the interrupt flag at the last `Lock`. -/
def CoreState.Remembers (t : CoreState) : Prop :=
  match t.pc with
  | .getStatus => t.intrEnable = t.called
  | .disable b | .testAndSet b | .loadOwner b | .restore b | .storeOwner b | .storeSaved b =>
    b = t.called
  | .enable => t.before = true
  | _ => True

/-- If core `c` has stored `saved_intr_enable_` last, that is the state in which its `Lock` has
found the interrupts. -/
structure InterruptsKept (s : LockState n) (c : Core n) (t : CoreState) : Prop where
  saved : s.lastSaver = some c → s.savedIntrEnable = t.before
  stored : t.held = true → s.lastSaver.isSome
  remembers : t.Remembers

namespace InterruptsKept

variable {sh : LockState n} {c : Core n} {t : CoreState} {o : Option Returned}

theorem keep {s : LockState n} {t₀ : CoreState} (h : InterruptsKept s c t₀)
    (hs : sh.savedIntrEnable = s.savedIntrEnable) (hl : sh.lastSaver = s.lastSaver)
    (hbefore : t.before = t₀.before) (hheld : t.held = true → t₀.held = true)
    (hrem : t.Remembers) : InterruptsKept sh c t where
  saved := by
    rw [hs, hl, hbefore]
    exact h.saved
  stored := by
    rw [hl]
    exact fun held => h.stored (hheld held)
  remembers := hrem

theorem keep_all (h : ∀ d, InterruptsKept s.shared d (s.thread d))
    (hs : sh.savedIntrEnable = s.shared.savedIntrEnable)
    (hl : sh.lastSaver = s.shared.lastSaver) (hbefore : t.before = (s.thread c).before)
    (hheld : t.held = true → (s.thread c).held = true) (hrem : t.Remembers) (d : Core n) :
    InterruptsKept sh d (Function.update s.thread c t d) := by
  by_cases hd : d = c
  · subst hd
    rw [Function.update_self]
    exact (h d).keep hs hl hbefore hheld hrem
  · rw [Function.update_of_ne hd]
    exact (h d).keep hs hl rfl (fun held => held) (h d).remembers

theorem saved_eq (h : ∀ d, InterruptsKept s.shared d (s.thread d))
    (hheld : (s.thread c).held = true)
    (hlast : ∀ d, s.shared.lastSaver = some d → (s.thread d).before = (s.thread c).before) :
    s.shared.savedIntrEnable = (s.thread c).before := by
  obtain ⟨d, hd⟩ := Option.isSome_iff_exists.mp ((h c).stored hheld)
  rw [(h d).saved hd, hlast d hd]

theorem advance (hsound : LockSound s) (h : ∀ d, InterruptsKept s.shared d (s.thread d))
    (hlast : (s.thread c).pc = .readSaved →
      ∀ d, s.shared.lastSaver = some d → (s.thread d).before = (s.thread c).before)
    (ha : Sync.advance c s.shared (s.thread c) = some (sh, t, o)) (d : Core n) :
    InterruptsKept sh d (Function.update s.thread c t d) := by
  have hrem := (h c).remembers
  have hcons := hsound.consistent c
  cases hpc : (s.thread c).pc with
  | outside => simp [Sync.advance, hpc] at ha
  | getStatus | disable b | restore b | storeOwner b | clearOwner | clearLocked | enable =>
    simp only [Sync.advance, hpc] at ha
    cases ha
    apply keep_all h <;>
      simp_all [CoreState.Remembers, CoreState.goto, CoreState.released]
  | testAndSet b | loadOwner b | testLocked | testOwner =>
    simp only [Sync.advance, hpc] at ha
    split at ha
    all_goals
      cases ha
      apply keep_all h <;> simp_all [CoreState.Remembers, CoreState.goto]
  | readSaved =>
    have hheld : (s.thread c).held = true := by simpa [CoreState.Consistent, hpc] using hcons
    have hsaved := saved_eq h hheld (hlast hpc)
    simp only [Sync.advance, hpc] at ha
    split at ha
    all_goals
      cases ha
      apply keep_all h <;>
        simp_all [CoreState.Remembers, CoreState.goto, CoreState.released]
  | storeSaved b =>
    simp only [Sync.advance, hpc] at ha
    cases ha
    have hb : b = (s.thread c).called := by simpa [CoreState.Remembers, hpc] using hrem
    by_cases hd : d = c
    · subst hd
      rw [Function.update_self]
      exact ⟨fun _ => hb, fun _ => rfl, trivial⟩
    · rw [Function.update_of_ne hd]
      exact ⟨fun he => absurd (Option.some.inj he).symm hd, fun _ => rfl, (h d).remembers⟩

theorem access {e : Event} (hsound : LockSound s)
    (h : ∀ d, InterruptsKept s.shared d (s.thread d)) (hok : RestoresOwn s c e)
    (ha : spinAccess c e s.shared (s.thread c) = some (sh, t, o)) (d : Core n) :
    InterruptsKept sh d (Function.update s.thread c t d) := by
  cases e with
  | next => exact advance hsound h (fun hpc => (hok rfl hpc).1) ha d
  | lock | unLock | setInterrupt b =>
    simp only [spinAccess] at ha
    split at ha
    · rename_i hpc
      cases ha
      apply keep_all h <;> simp [CoreState.Remembers, CoreState.goto, hpc]
    · cases ha

end InterruptsKept

theorem Interleaved.interruptsKept
    (h : Interleaved spinAccess RestoresOwn (Threads.booted intr) s) :
    LockSound s ∧ ∀ c, InterruptsKept s.shared c (s.thread c) := by
  refine h.invariant (I := fun s => LockSound s ∧ ∀ c, InterruptsKept s.shared c (s.thread c))
    ⟨LockSound.booted intr, fun c => ?_⟩ ?_
  · constructor <;> simp [Threads.booted, CoreState.Remembers]
  · intro s c e sh t o hs hok ha
    exact ⟨hs.1.access ha, InterruptsKept.access hs.1 hs.2 hok ha⟩

/-- Under this condition every successful `UnLock` leaves the interrupt flag of its core as it
was just before the `Lock` that it ends. -/
theorem spinLock_restores_interrupts {c : Core n}
    {s' : Threads (LockState n) (Core n) CoreState}
    (h : Interleaved spinAccess RestoresOwn (Threads.booted intr) s)
    (hok : RestoresOwn s c .next)
    (hs : s.move spinAccess c .next = some (s', some (.unLock (.ok ())))) :
    (s'.thread c).intrEnable = (s'.thread c).before := by
  obtain ⟨hsound, hkept⟩ := Interleaved.interruptsKept h
  obtain ⟨sh, t, ha, rfl⟩ := Threads.move_eq_some.mp hs
  have hrem := (hkept c).remembers
  have hcons := hsound.consistent c
  simp only [Function.update_self]
  simp only [spinAccess] at ha
  cases hpc : (s.thread c).pc with
  | outside | getStatus | disable b | restore b | storeOwner b | storeSaved b | clearOwner
  | clearLocked => simp [Sync.advance, hpc] at ha
  | testAndSet b | loadOwner b | testLocked | testOwner =>
    simp only [Sync.advance, hpc] at ha
    split at ha <;> simp at ha
  | readSaved =>
    obtain ⟨hlast, hoff⟩ := hok rfl hpc
    have hheld : (s.thread c).held = true := by simpa [CoreState.Consistent, hpc] using hcons
    have hsaved := InterruptsKept.saved_eq hkept hheld hlast
    simp only [Sync.advance, hpc] at ha
    split at ha
    · simp at ha
    · -- nothing is restored, and nothing has to be
      rename_i hfalse
      cases ha
      have hbefore : (s.thread c).before = false := by simpa [hfalse] using hsaved.symm
      have hintr : (s.thread c).intrEnable = false := by simpa [hbefore] using hoff
      simp [CoreState.released, hbefore, hintr]
  | enable =>
    simp only [Sync.advance, hpc] at ha
    cases ha
    simp only [CoreState.Remembers, hpc] at hrem
    simp [CoreState.released, hrem]

instance (s : Threads (LockState n) (Core n) CoreState) (c : Core n) (e : Event) :
    Decidable (RestoresOwn s c e) := by
  have hdec : Decidable (∀ d, s.shared.lastSaver = some d →
      (s.thread d).before = (s.thread c).before) :=
    match h : s.shared.lastSaver with
    | none => .isTrue (by simp)
    | some d => decidable_of_iff ((s.thread d).before = (s.thread c).before) (by simp)
  unfold RestoresOwn
  infer_instance

/-- The second core has acquired the lock, but not stored its state, when the first reads. -/
theorem spinLock_restores_interrupts_example :
    ∃ s s' : Threads (LockState 2) (Core 2) CoreState,
      Interleaved spinAccess RestoresOwn (Threads.booted fun _ => true) s ∧
      s.move spinAccess firstCore .next = some (s', some (.unLock (.ok ()))) ∧
      (s.thread secondCore).pc = .storeSaved true ∧
      (s'.thread firstCore).intrEnable = (s'.thread firstCore).before := by
  have hrun : ∃ s : Threads (LockState 2) (Core 2) CoreState,
      Interleaved spinAccess RestoresOwn (Threads.booted fun _ => true) s ∧
      ((s.thread firstCore).pc = .enable ∧
        (s.thread secondCore).pc = .storeSaved true) := by
    apply Interleaved.exists_replay (fun s c e => decide (RestoresOwn s c e))
      (fun _ _ _ => of_decide_eq_true)
      ((firstCore, .lock) :: List.replicate 5 (firstCore, .next) ++
        (firstCore, .unLock) :: List.replicate 4 (firstCore, .next) ++
        (secondCore, .lock) :: List.replicate 4 (secondCore, .next) ++
        [(firstCore, .next)])
    decide
  obtain ⟨s, hs, hpc, hpc₁⟩ := hrun
  have hmove : ∃ s', s.move spinAccess firstCore .next =
      some (s', some (.unLock (.ok ()))) := by
    simp [Threads.move, spinAccess, advance, hpc]
  obtain ⟨s', hs'⟩ := hmove
  exact ⟨s, s', hs, hs', hpc₁, spinLock_restores_interrupts hs (by simp [RestoresOwn, hpc]) hs'⟩

/-- The first core locks with interrupts enabled. Between the clear of its `UnLock` and its read
of `saved_intr_enable_` the second, whose interrupts are disabled, acquires the lock: the
interrupts of the first stay disabled. -/
theorem unLock_restores_other_core :
    ∃ s s' : Threads (LockState 2) (Core 2) CoreState,
      Interleaved spinAccess (fun _ _ _ => True) (Threads.booted fun c => c.id == 0) s ∧
      s.move spinAccess firstCore .next = some (s', some (.unLock (.ok ()))) ∧
      (s'.thread firstCore).intrEnable = false ∧
      (s'.thread firstCore).before = true := by
  have hrun : ∃ s : Threads (LockState 2) (Core 2) CoreState,
      Interleaved spinAccess (fun _ _ _ => True) (Threads.booted fun c => c.id == 0) s ∧
      ((s.thread firstCore).pc = .readSaved ∧
        (s.thread firstCore).intrEnable = false ∧
        (s.thread firstCore).before = true ∧ s.shared.savedIntrEnable = false) := by
    apply Interleaved.exists_replay (fun _ _ _ => true) (fun _ _ _ _ => trivial)
      ((firstCore, .lock) :: List.replicate 5 (firstCore, .next) ++
        (firstCore, .unLock) :: List.replicate 4 (firstCore, .next) ++
        (secondCore, .lock) :: List.replicate 5 (secondCore, .next))
    decide
  obtain ⟨s, hs, hpc, hintr, hbefore, hsaved⟩ := hrun
  have hmove : s.move spinAccess firstCore .next = some (⟨s.shared,
      Function.update s.thread firstCore (s.thread firstCore).released⟩,
      some (.unLock (.ok ()))) := by
    simp [Threads.move, spinAccess, advance, hpc, hsaved]
  exact ⟨s, _, hs, hmove, by simpa [CoreState.released] using hintr,
    by simpa [CoreState.released] using hbefore⟩

end NaiLongKernel.Sync
