import NaiLongKernel.Task.ChildWait
import NaiLongKernel.Task.WaitContract

/-!
# Whether there is a child to wait for

A blocking `Wait` is a loop of passes, between which the caller is blocked on its own pid and
other tasks run. A child leaves the table only when its parent reaps it, and then `Wait`
returns; so a `Wait` that is called when there is a child that it is for has one in every pass,
and never blocks in vain. When there is none at the call it blocks all the same.
-/
namespace NaiLongKernel.Task

open Foundation

variable {P : Platform} {k k' : Kernel} {loc : Ptr → Option Slot} {p : Ptr}
  {t u : TaskControlBlock} {c : CoreId} {pid : Pid} {op : SysOp}

/-- The table lists a child of the task that the argument asks for, ended or not. -/
def Kernel.HasChild (k : Kernel) (pid : Pid) (caller : TaskControlBlock) : Prop :=
  ∃ e ∈ k.taskTable, ∃ u, k.tasks e.2 = some u ∧ WaitsFor pid.toInt caller u

/-- The task is in existence, as far as `Wait` goes by it, and so are its children. -/
structure Stays (p : Ptr) (t : TaskControlBlock) (k k' : Kernel) : Prop where
  self : ∃ t', k'.tasks p = some t' ∧ t'.pid = t.pid ∧ t'.pgid = t.pgid ∧ isDead t' = isDead t
  children : ∀ e ∈ k.taskTable, ∀ u, k.tasks e.2 = some u → u.parentPid = t.pid →
    e ∈ k'.taskTable ∧ ∃ u', k'.tasks e.2 = some u' ∧ SameKin u u'
  idle : (∀ c, k.idle c ≠ some p) → ∀ c, k'.idle c ≠ some p

theorem Stays.hasChild (h : Stays p t k k') {t' : TaskControlBlock} (ht' : k'.tasks p = some t')
    (hc : k.HasChild pid t) : k'.HasChild pid t' := by
  obtain ⟨e, he, u, hu, hpar, harg⟩ := hc
  obtain ⟨t'', ht'', hpid, hpgid, -⟩ := h.self
  obtain rfl := Option.mem_unique ht' ht''
  obtain ⟨he', u', hu', hkin⟩ := h.children e he u hu hpar
  refine ⟨e, he', u', hu', ?_, ?_⟩
  · rw [hkin.parentPid, hpar, hpid]
  · rw [hkin.pgid, hkin.pid, hpgid]
    exact harg

namespace Stays

theorem of_persists (ht : k.tasks p = some t) (h : Persists k k') : Stays p t k k' := by
  refine ⟨?_, ?_, ?_⟩
  · obtain ⟨t', ht', hs⟩ := h.same p t ht
    exact ⟨t', ht', hs.kin.pid, hs.kin.pgid, hs.dead⟩
  · intro e he u hu _
    obtain ⟨u', hu', hs⟩ := h.same e.2 u hu
    rw [h.taskTable]
    exact ⟨he, u', hu', hs.kin⟩
  · rw [h.idle]
    exact fun hi => hi

theorem trans {k'' : Kernel} {t' : TaskControlBlock} (h : Stays p t k k') (ht' : k'.tasks p = some t')
    (h' : Stays p t' k' k'') : Stays p t k k'' := by
  obtain ⟨t₁, ht₁, hpid, hpgid, hdead⟩ := h.self
  obtain rfl := Option.mem_unique ht' ht₁
  refine ⟨?_, ?_, fun hi => h'.idle (h.idle hi)⟩
  · obtain ⟨t₂, ht₂, hpid', hpgid', hdead'⟩ := h'.self
    exact ⟨t₂, ht₂, hpid'.trans hpid, hpgid'.trans hpgid, hdead'.trans hdead⟩
  · intro e he u hu hpar
    obtain ⟨he', u', hu', hkin⟩ := h.children e he u hu hpar
    obtain ⟨he'', u'', hu'', hkin'⟩ := h'.children e he' u' hu' (by rw [hkin.parentPid, hpar, hpid])
    exact ⟨he'', u'', hu'', hkin'.pid.trans hkin.pid, hkin'.pgid.trans hkin.pgid,
      hkin'.parentPid.trans hkin.parentPid⟩

theorem of_eq (ht : k.tasks p = some t) (htasks : k'.tasks = k.tasks)
    (htable : k'.taskTable = k.taskTable) (hcpu : k'.perCpu = k.perCpu) : Stays p t k k' := by
  refine ⟨⟨t, htasks ▸ ht, rfl, rfl, rfl⟩, ?_, ?_⟩
  · intro e he u hu _
    rw [htable, htasks]
    exact ⟨he, u, hu, SameKin.refl u⟩
  · intro hi c
    rw [Kernel.idle, hcpu]
    exact hi c

theorem of_new {q : Ptr} (ht : k.tasks p = some t) (hq : k.tasks q = none)
    (hsame : ∀ q', q' ≠ q → ∀ u, k.tasks q' = some u → ∃ u', k'.tasks q' = some u' ∧ Regrouped u u')
    (htable : ∀ e ∈ k.taskTable, e ∈ k'.taskTable)
    (hidle : (∀ c, k.idle c ≠ some p) → ∀ c, k'.idle c ≠ some p) : Stays p t k k' := by
  have hne : ∀ q' u, k.tasks q' = some u → q' ≠ q := by
    rintro q' u hu rfl
    cases hq.symm.trans hu
  refine ⟨?_, ?_, hidle⟩
  · obtain ⟨t', ht', hreg⟩ := hsame p (hne p t ht) t ht
    exact ⟨t', ht', hreg.kin.pid, hreg.kin.pgid, hreg.profile.isDead⟩
  · intro e he u hu _
    obtain ⟨u', hu', hreg⟩ := hsame e.2 (hne e.2 u hu) u hu
    exact ⟨htable e he, u', hu', hreg.kin⟩

theorem of_departed {q : Ptr} {v : TaskControlBlock} (ht : k.tasks p = some t) (hqp : p ≠ q)
    (hpid : v.pid ≠ t.pid) (hd : Departed q v k k') : Stays p t k k' := by
  refine ⟨?_, ?_, ?_⟩
  · obtain ⟨t', ht', he⟩ := hd.same p t ht
    refine ⟨t', ht', by rw [he], by rw [he], ?_⟩
    rw [he, isDead, isDead, if_neg hqp]
  · intro e he u hu hpar
    obtain ⟨u', hu', heq⟩ := hd.same e.2 u hu
    refine ⟨hd.taskTable ▸ he, u', hu', by rw [heq], by rw [heq], ?_⟩
    rw [heq]
    rcases k.inherited_eq_or v e.2 u with hkeep | ⟨-, -, hkid⟩
    · exact hkeep
    · exact absurd (hkid.symm.trans hpar) hpid
  · intro hi c
    rw [Kernel.idle, hd.rest]
    exact hi c

theorem of_reaped {q : Ptr} {v : TaskControlBlock} (ht : k.tasks p = some t) (halive : isDead t = false)
    (htab : Tabled k) (hst : Stable ∅ k loc) (hr : Reaped q v k k') (hpar : v.parentPid ≠ t.pid) :
    Stays p t k k' := by
  obtain ⟨hdead, hv, hd⟩ := id hr
  have hne : ∀ q' u, k.tasks q' = some u → u.parentPid = t.pid → q' ≠ q := by
    rintro q' u hu hkid rfl
    rw [Option.mem_unique hv hu] at hpar
    exact hpar hkid
  have hpq : p ≠ q := by
    rintro rfl
    rw [Option.mem_unique hv ht, halive] at hdead
    cases hdead
  refine ⟨?_, ?_, ?_⟩
  · obtain ⟨t', ht', hreg⟩ := hd.same p hpq t ht
    exact ⟨t', ht', hreg.kin.pid, hreg.kin.pgid, hreg.profile.isDead⟩
  · intro e he u hu hkid
    obtain ⟨u', hu', hreg⟩ := hd.same e.2 (hne e.2 u hu hkid) u hu
    exact ⟨htab.stays hst hr he (hne e.2 u hu hkid), u', hu', hreg.kin⟩
  · intro hi c
    rw [Kernel.idle, hd.perCpu]
    exact hi c

theorem of_effect (ht : k.tasks p = some t) (hidle : ∀ c, k.idle c ≠ some p) (htab : Tabled k)
    (hst : Stable ∅ k loc) (hen : op.Enabled k) (hfresh : op.FreshPid k)
    (hexit : ∀ c exitCode, op = .exit c exitCode → k.running c ≠ some p)
    (hwait : ∀ c pid noHang untraced order, op ≠ .wait c pid noHang untraced order)
    (he : op.Effect P k k') : Stays p t k k' := by
  cases he.outcome with
  | @initialised c i loc k' hi =>
    refine of_new ht hen.2 ?_ ?_ ?_
    · intro q hq u hu
      exact ⟨u, (hi.tasks_ne q hq).trans hu, Regrouped.refl u⟩
    · rw [hi.taskTable]
      exact fun _ he => he
    · intro hp c' hc'
      by_cases hcc : c' = c
      · rw [hcc, hi.idle] at hc'
        obtain rfl := Option.some.inj hc'
        cases hen.2.symm.trans ht
      · exact hp c' ((hi.idle_ne c' hcc).symm.trans hc')
  | added ha =>
    refine of_new ht hen.1 ?_ (Tabled.entries_kept hfresh trivial he) ?_
    · intro q hq u hu
      exact ⟨u, (ha.tasks_ne q hq).trans ((k.tasks_setTask_ne _ _ hq).trans hu), Regrouped.refl u⟩
    · rw [ha.idle]
      exact fun hp => hp
  | cloned hq _ _ hcl _ =>
    refine of_new ht (hen _ hq) hcl.same (Tabled.entries_kept hfresh trivial he) ?_
    rw [hcl.idle]
    exact fun hp => hp
  | @departed c exitCode q v k₁ k' hrun hv hd hp =>
    have hpq : p ≠ q := by
      rintro rfl
      exact hexit c exitCode rfl hrun
    have hqidle : ∀ c', k.idle c' ≠ some q := by
      obtain ⟨q', hrun', hne⟩ := hen
      obtain rfl := Option.mem_unique hrun hrun'
      exact hst.ne_idle hrun hne
    have hpid : v.pid ≠ t.pid := by
      intro heq
      have hmem := htab.listed q v hv hqidle
      rw [heq] at hmem
      exact hpq (htab.entry_inj (htab.listed p t ht hidle) hmem)
    have h₁ := of_departed ht hpq hpid hd
    obtain ⟨t₁, ht₁, -⟩ := h₁.self
    exact h₁.trans ht₁ (of_persists ht₁ hp)
  | reaped => exact absurd rfl (hwait _ _ _ _ _)
  | persists hp => exact of_persists ht hp
  | rest => exact of_eq ht rfl rfl rfl

end Stays

/-- The kernel, and the arguments of the `Wait` that a task is in: it has blocked in a pass
and makes the next one when it runs again. -/
structure WaitLoop where
  kernel : Kernel
  waiting : Ptr → Option (Pid × Bool)

namespace WaitLoop

def booted : WaitLoop := ⟨{}, fun _ => none⟩

def step (P : Platform) (m : WaitLoop) : SysOp → Option WaitLoop
  | .wait c pid noHang untraced order =>
    match (waitPass c pid noHang untraced order : KernelM WaitResult) m.kernel with
    | .ok r k => some ⟨k, fun p =>
        if m.kernel.running c = some p then
          if r = .blocked then some (pid, untraced) else none
        else m.waiting p⟩
    | .error _ _ => none
  | op => (op.next P m.kernel).map fun k => ⟨k, m.waiting⟩

/-- A task that is in `Wait` does not exit and makes no other call of `Wait`. -/
def Turn (m : WaitLoop) : SysOp → Prop
  | .exit c _ => ∀ p, m.kernel.running c = some p → m.waiting p = none
  | .wait c pid noHang untraced _ => ∀ p w, m.kernel.running c = some p → m.waiting p = some w →
      w = (pid, untraced) ∧ noHang = false
  | _ => True

/-- When a `Wait` that may block is called, the table lists a child that it is for. -/
def Expects (m : WaitLoop) : SysOp → Prop
  | .wait c pid noHang _ _ => noHang = false → ∀ p t, m.kernel.running c = some p →
      m.kernel.tasks p = some t → m.waiting p = none → m.kernel.HasChild pid t
  | _ => True

/-- The states that the operations allowed by `A` reach. -/
abbrev Run (P : Platform) (A : WaitLoop → SysOp → Prop) : WaitLoop → Prop :=
  Reached (step P) (fun m op => op.Enabled m.kernel ∧ m.Turn op ∧ A m op) booted

/-- New pids are not in use and exits are careful. -/
def Orderly (m : WaitLoop) (op : SysOp) : Prop := op.Careful m.kernel ∧ op.FreshPid m.kernel

/-- Task `p` lives, is not an idle thread, and has a child that it waits for. -/
structure Awaits (k : Kernel) (p : Ptr) (pid : Pid) (t : TaskControlBlock) : Prop where
  task : k.tasks p = some t
  alive : isDead t = false
  idle : ∀ c, k.idle c ≠ some p
  child : k.HasChild pid t

theorem Awaits.stays (h : Awaits k p pid t) (hs : Stays p t k k') : ∃ t', Awaits k' p pid t' := by
  obtain ⟨t', ht', -, -, hdead⟩ := hs.self
  exact ⟨t', ht', hdead.trans h.alive, hs.idle h.idle, hs.hasChild ht' h.child⟩

variable {m m' : WaitLoop}

theorem step_eq_some_of_wait {noHang untraced : Bool} {order : List (Pid × Ptr)}
    (h : m.step P (.wait c pid noHang untraced order) = some m') :
    ∃ r k, (waitPass c pid noHang untraced order : KernelM WaitResult) m.kernel = .ok r k ∧
      m' = ⟨k, fun p => if m.kernel.running c = some p then
        if r = .blocked then some (pid, untraced) else none else m.waiting p⟩ := by
  rw [step] at h
  split at h
  · rename_i r k hr
    exact ⟨r, k, hr, (Option.some.inj h).symm⟩
  · cases h

theorem step_eq_map (m : WaitLoop)
    (hop : ∀ c pid noHang untraced order, op ≠ .wait c pid noHang untraced order) :
    m.step P op = (op.next P m.kernel).map fun k => ⟨k, m.waiting⟩ := by
  cases op with
  | wait c pid noHang untraced order => exact absurd rfl (hop c pid noHang untraced order)
  | _ => rfl

theorem step_next (h : m.step P op = some m') : op.next P m.kernel = some m'.kernel := by
  by_cases hop : ∃ c pid noHang untraced order, op = .wait c pid noHang untraced order
  · obtain ⟨c, pid, noHang, untraced, order, rfl⟩ := hop
    obtain ⟨r, k, hr, rfl⟩ := step_eq_some_of_wait h
    rw [SysOp.next_eq_some]
    change EStateM.bind _ _ _ = _
    rw [EStateM.bind, hr]
    rfl
  · push Not at hop
    rw [step_eq_map m hop] at h
    obtain ⟨k, hk, rfl⟩ := Option.map_eq_some_iff.mp h
    exact hk

theorem step_waiting (hop : ∀ c pid noHang untraced order, op ≠ .wait c pid noHang untraced order)
    (h : m.step P op = some m') : m'.waiting = m.waiting := by
  rw [step_eq_map m hop] at h
  obtain ⟨k, hk, rfl⟩ := Option.map_eq_some_iff.mp h
  rfl

theorem Run.sysRun {A : WaitLoop → SysOp → Prop} (h : Run P A m)
    (hA : ∀ m op, A m op → m.Orderly op) :
    SysRun P (fun k op => op.Careful k ∧ op.FreshPid k) m.kernel := by
  apply h.invariant .start
  rintro m op m' hm ⟨hen, -, hok⟩ hstep
  exact hm.step op hen (hA m op hok) (SysOp.next_eq_some.mp (step_next hstep))

/-- Every task that has blocked in `Wait` has a child that it waits for. -/
def Sound (m : WaitLoop) : Prop := ∀ p pid untraced, m.waiting p = some (pid, untraced) →
  ∃ t, Awaits m.kernel p pid t

theorem Sound.child {noHang untraced : Bool} {order : List (Pid × Ptr)} (h : m.Sound)
    (hturn : m.Turn (.wait c pid noHang untraced order))
    (hexp : m.Expects (.wait c pid noHang untraced order)) (hrun : m.kernel.running c = some p)
    (ht : m.kernel.tasks p = some t) (hno : noHang = false) : m.kernel.HasChild pid t := by
  cases hw : m.waiting p with
  | none => exact hexp hno p t hrun ht hw
  | some w =>
    obtain ⟨rfl, -⟩ := hturn p w hrun hw
    obtain ⟨t', ha⟩ := h p pid untraced hw
    rw [Option.mem_unique ht ha.task]
    exact ha.child

theorem Sound.wait {noHang untraced : Bool} {order : List (Pid × Ptr)} (h : m.Sound)
    (hst : Stable ∅ m.kernel loc) (hl : Life m.kernel) (htab : Tabled m.kernel)
    (hen : (SysOp.wait c pid noHang untraced order).Enabled m.kernel)
    (hturn : m.Turn (.wait c pid noHang untraced order))
    (hexp : m.Expects (.wait c pid noHang untraced order))
    (hstep : m.step P (.wait c pid noHang untraced order) = some m') : m'.Sound := by
  obtain ⟨⟨p, hrun, hidle⟩, horder⟩ := hen
  obtain ⟨t, ht, hstatus⟩ := hst.running_of_ne_idle hrun hidle
  obtain ⟨r, k, hr, rfl⟩ := step_eq_some_of_wait hstep
  have hout := ((wp_waitPass hst hl.grouped hl.entries hrun hidle ht pid noHang untraced
    horder).of_ok hr).2
  have hnot := hst.ne_idle hrun hidle
  intro q pid' untraced' hq
  simp only [hrun, Option.some.injEq] at hq
  split at hq
  · -- the caller itself
    rename_i hpq
    subst hpq
    split at hq
    · rename_i hblocked
      subst hblocked
      cases hq
      obtain ⟨hno, hp, -⟩ := hout
      have halive : isDead t = false := by rw [isDead, hstatus]; rfl
      have hchild := h.child hturn hexp hrun ht hno
      exact Awaits.stays ⟨ht, halive, hnot, hchild⟩ (Stays.of_persists ht hp)
    · cases hq
  · -- another task that waits
    rename_i hpq
    obtain ⟨t', ha⟩ := h q pid' untraced' hq
    rcases hout.persists_or_reaped with hp | ⟨x, u, hmatch, hreap⟩
    · exact ha.stays (Stays.of_persists ha.task hp)
    · apply ha.stays (Stays.of_reaped ha.task ha.alive htab hst hreap _)
      intro heq
      have hmem := htab.listed p t ht hnot
      rw [← parent_of_pidMatches hmatch, heq] at hmem
      exact hpq (htab.entry_inj hmem (htab.listed q t' ha.task ha.idle))

theorem Run.sound (h : Run P (fun m op => m.Orderly op ∧ m.Expects op) m) : m.Sound := by
  induction h with
  | start => exact nofun
  | @step m m' op hm hok hstep ih =>
    obtain ⟨hen, hturn, ⟨hcare, hfresh⟩, hexp⟩ := hok
    have hk := Run.sysRun hm (fun _ _ hA => hA.1)
    obtain ⟨loc, hst, hl⟩ := (hk.mono (fun _ _ hA => hA.1)).invariant
    have hexec := SysOp.next_eq_some.mp (step_next hstep)
    obtain ⟨-, -, heff⟩ := SysOp.effect_of_exec hst hl hen hcare hexec
    by_cases hop : ∃ c pid noHang untraced order, op = .wait c pid noHang untraced order
    · obtain ⟨c, pid, noHang, untraced, order, rfl⟩ := hop
      exact Sound.wait ih hst hl hk.tabled hen hturn hexp hstep
    · push Not at hop
      intro p pid untraced hp
      rw [step_waiting hop hstep] at hp
      obtain ⟨t, ha⟩ := ih p pid untraced hp
      apply ha.stays (Stays.of_effect ha.task ha.idle hk.tabled hst hen hfresh _ hop heff)
      rintro c exitCode rfl hrun
      cases (hturn p hrun).symm.trans hp

/-- In every run in which a child to wait for is there whenever a `Wait` that may block is
called: a task that has blocked in `Wait` has such a child in every state until it returns,
and so has the caller in every pass. -/
theorem wait_blocks_with_child (h : Run P (fun m op => m.Orderly op ∧ m.Expects op) m) :
    (∀ p pid untraced, m.waiting p = some (pid, untraced) →
      ∃ t, m.kernel.tasks p = some t ∧ m.kernel.HasChild pid t) ∧
    ∀ c pid untraced order p t, m.Turn (.wait c pid false untraced order) →
      m.Expects (.wait c pid false untraced order) → m.kernel.running c = some p →
      m.kernel.tasks p = some t → m.kernel.HasChild pid t := by
  refine ⟨?_, ?_⟩
  · intro p pid untraced hp
    obtain ⟨t, ha⟩ := Run.sound h p pid untraced hp
    exact ⟨t, ha.task, ha.child⟩
  · intro c pid untraced order p t hturn hexp hrun ht
    exact Sound.child (Run.sound h) hturn hexp hrun ht rfl

section Replay

instance (arg : ℤ) (caller child : TaskControlBlock) : Decidable (WaitsFor arg caller child) := by
  unfold WaitsFor
  infer_instance

instance (k : Kernel) (pid : Pid) (t : TaskControlBlock) : Decidable (k.HasChild pid t) :=
  inferInstanceAs (Decidable (∃ e ∈ k.taskTable, ∃ u ∈ k.tasks e.2, WaitsFor pid.toInt t u))

instance (m : WaitLoop) : (op : SysOp) → Decidable (m.Turn op)
  | .exit c _ => inferInstanceAs (Decidable (∀ p ∈ m.kernel.running c, m.waiting p = none))
  | .wait c pid noHang untraced _ => decidable_of_iff (∀ p ∈ m.kernel.running c,
      (m.waiting p).all (fun w => decide (w = (pid, untraced) ∧ noHang = false)) = true) (by
        simp only [Option.all_eq_true, decide_eq_true_eq, Turn]
        exact ⟨fun h p w hp => h p hp w, fun h p hp w => h p w hp⟩)
  | .initCurrentCore _ _ | .addTask _ _ _ | .clone _ _ _ | .schedule _ | .tickUpdate _ | .sleep _ _
  | .block _ _ | .wakeup _ _ | .findTask _ _ | .allocPage _ | .vmCall _ _ _ =>
    inferInstanceAs (Decidable True)

instance (m : WaitLoop) : (op : SysOp) → Decidable (m.Expects op)
  | .wait c pid noHang _ _ => decidable_of_iff (noHang = false → ∀ p ∈ m.kernel.running c,
      ∀ t ∈ m.kernel.tasks p, m.waiting p = none → m.kernel.HasChild pid t)
      ⟨fun h hno p t hp => h hno p hp t, fun h hno p hp t => h hno p t hp⟩
  | .initCurrentCore _ _ | .addTask _ _ _ | .clone _ _ _ | .schedule _ | .tickUpdate _ | .sleep _ _
  | .block _ _ | .wakeup _ _ | .exit _ _ | .findTask _ _ | .allocPage _ | .vmCall _ _ _ =>
    inferInstanceAs (Decidable True)

theorem Run.exists_replay {A : WaitLoop → SysOp → Prop} [∀ m op, Decidable (A m op)]
    (l : List SysOp) {S : WaitLoop → Prop} [DecidablePred S]
    (hl : (l.foldlM (fun m op => if decide (op.Enabled m.kernel ∧ m.Turn op ∧ op.Settled m.kernel ∧
      op.FreshPid m.kernel ∧ A m op) then m.step P op else none) booted).any (fun m => decide (S m)) =
        true) : ∃ m, Run P (fun m op => m.Orderly op ∧ A m op) m ∧ S m := by
  refine Reached.exists_replay .start _ ?_ l hl
  intro m op hm hc
  obtain ⟨hen, hturn, hset, hfresh, hA⟩ := of_decide_eq_true hc
  obtain ⟨loc, hst, -⟩ := ((Run.sysRun hm (fun _ _ h => h.1)).mono (fun _ _ h => h.1)).invariant
  exact ⟨hen, hturn, ⟨hset.careful hst, hfresh⟩, hA⟩

/-- Task 1 waits for any child, and the child that is left in the table is task 3. -/
def WaitsAgain (m : WaitLoop) : Prop :=
  m.waiting 1 = some (-1, false) ∧ m.kernel.taskTable = [(1, 1), (3, 3)]

instance (m : WaitLoop) : Decidable m.WaitsAgain := by
  unfold WaitsAgain
  infer_instance

/-- Task 1 blocks, child 2 exits and is reaped, and task 1 waits for child 3. -/
theorem wait_blocks_with_child_example :
    ∃ m t, Run (presetPlatform true) (fun m op => m.Orderly op ∧ m.Expects op) m ∧ m.WaitsAgain ∧
      m.kernel.tasks 1 = some t ∧ m.kernel.HasChild (-1) t := by
  have hrun : ∃ m, Run (presetPlatform true) (fun m op => m.Orderly op ∧ m.Expects op) m ∧
      m.WaitsAgain := by
    apply Run.exists_replay [.initCurrentCore 0 0, .addTask 0 1 {}, .addTask 0 2 { parentPid := 1 },
      .addTask 0 3 { parentPid := 1 }, .schedule 0,
      .wait 0 (-1) false false [(1, 1), (2, 2), (3, 3)], .exit 0 7, .schedule 0,
      .wait 0 (-1) false false [(1, 1), (2, 2), (3, 3)], .wait 0 (-1) false false [(1, 1), (3, 3)]]
    decide +kernel
  obtain ⟨m, hm, hwait, htable⟩ := hrun
  obtain ⟨t, ht, hchild⟩ := (wait_blocks_with_child hm).1 1 (-1) false hwait
  exact ⟨m, t, hm, ⟨hwait, htable⟩, ht, hchild⟩

/-- Task 1 is blocked in `Wait` for any child and has none. -/
def WaitsForNobody (m : WaitLoop) : Prop :=
  m.waiting 1 = some (-1, false) ∧ ∃ t ∈ m.kernel.tasks 1,
    t.status = .kBlocked ∧ ¬ m.kernel.HasChild (-1) t

instance (m : WaitLoop) : Decidable m.WaitsForNobody := by
  unfold WaitsForNobody
  infer_instance

/-- `Wait` blocks a task without children. -/
theorem wait_blocks_without_child :
    ∃ m, Run (presetPlatform true) (fun m op => m.Orderly op) m ∧ m.WaitsForNobody := by
  have hrun : ∃ m, Run (presetPlatform true) (fun m op => m.Orderly op ∧ True) m ∧
      m.WaitsForNobody := by
    apply Run.exists_replay [.initCurrentCore 0 0, .addTask 0 1 {}, .schedule 0,
      .wait 0 (-1) false false [(1, 1)]]
    decide +kernel
  obtain ⟨m, hm, hnobody⟩ := hrun
  refine ⟨m, hm.mono ?_, hnobody⟩
  rintro m op ⟨hen, hturn, horderly, -⟩
  exact ⟨hen, hturn, horderly⟩

end Replay

end WaitLoop

end NaiLongKernel.Task
