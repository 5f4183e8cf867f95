import NaiLongKernel.Task.TaskTable

/-!
# The contract of `Wait`

The comments read the pid argument as a signed number: -1 for any child, 0 for the children
of the caller's process group, a positive number for the child with that pid, and a number
below -1 for the children of a process group. Pids are unsigned, so the last reading is never
taken, and the argument is compared with the pids then. `Wait` returns no error when there is
no child to wait for.
-/
namespace NaiLongKernel.Task

open Foundation

variable {P : Platform} {k k' : Kernel} {p : Ptr} {t u : TaskControlBlock} {c : CoreId} {pid : Pid}

/-- The task is a child of the caller that the argument asks for. -/
def WaitsFor (arg : ℤ) (caller child : TaskControlBlock) : Prop :=
  child.parentPid = caller.pid ∧
    (arg = -1 ∨ arg = 0 ∧ child.pgid = caller.pgid ∨ 0 < arg ∧ (child.pid.toNat : ℤ) = arg ∨
      arg < -1 ∧ (child.pgid.toNat : ℤ) = -arg)

/-- The table has the ended child `u` of the task with block `caller`. -/
def Kernel.EndedChild (k : Kernel) (caller u : TaskControlBlock) : Prop :=
  ∃ q, (u.pid, q) ∈ k.taskTable ∧ k.tasks q = some u ∧ u.parentPid = caller.pid ∧
    (u.status = .kZombie ∨ u.status = .kExited)

/-- The argument is not below -1; or the ended child of the caller whose pid it is, taken as an
unsigned number, is of the process group that it names; or the caller has no ended child with
that pid and none of that process group. -/
def Kernel.Selects (k : Kernel) (pid : Pid) (caller : TaskControlBlock) : Prop :=
  -1 ≤ pid.toInt ∨
    (∃ u, k.EndedChild caller u ∧ u.pid = pid ∧ (u.pgid.toNat : ℤ) = -pid.toInt) ∨
    ∀ u, k.EndedChild caller u → u.pid ≠ pid ∧ (u.pgid.toNat : ℤ) ≠ -pid.toInt

/-- What `Wait` promises of a pass: a child that it reports is an ended child that the argument
asks for, it is reported with its exit code, and its entry and no other has left the table; a
pass that does not hang reports none exactly when there is none; and when there is one, the
pass returns and reports a child. -/
def Kernel.KeepsContract (k : Kernel) (c : CoreId) (pid : Pid) (noHang : Bool)
    (order : List (Pid × Ptr)) (t : TaskControlBlock) : Prop :=
  (∀ r k', (waitPass c pid noHang false order : KernelM WaitResult) k = .ok r k' →
    match r with
    | .reaped child code => child ≠ 0 ∧ ∃ q u, (child, q) ∈ k.taskTable ∧ k.tasks q = some u ∧
        u.pid = child ∧ WaitsFor pid.toInt t u ∧ (u.status = .kZombie ∨ u.status = .kExited) ∧
        u.exitCode = code ∧ ∀ e, e ∈ k'.taskTable ↔ e ∈ k.taskTable ∧ e ≠ (child, q)
    | .stopped _ => False
    | .noChange => noHang = true ∧ k' = k
    | .blocked => noHang = false) ∧
  (noHang = true →
    ((waitPass c pid noHang false order : KernelM WaitResult) k = .ok .noChange k ↔
      ∀ u, k.EndedChild t u → ¬ WaitsFor pid.toInt t u)) ∧
  ((∃ u, k.EndedChild t u ∧ WaitsFor pid.toInt t u) → ∃ child code k',
    (waitPass c pid noHang false order : KernelM WaitResult) k = .ok (.reaped child code) k')

section Matching

theorem toInt_eq_neg_one_iff : pid.toInt = -1 ↔ pid = -1 := by
  constructor
  · intro h
    exact BitVec.eq_of_toInt_eq (h.trans rfl)
  · rintro rfl
    rfl

theorem toInt_eq_zero_iff : pid.toInt = 0 ↔ pid = 0 := by
  constructor
  · intro h
    exact BitVec.eq_of_toInt_eq (h.trans rfl)
  · rintro rfl
    rfl

theorem pidMatches_iff_of_ne (hone : pid ≠ -1) (hzero : pid ≠ 0) (caller child : TaskControlBlock) :
    pidMatches pid caller child = true ↔ child.parentPid = caller.pid ∧ child.pid = pid := by
  rw [pidMatches, if_neg hone, if_neg hzero, Bool.and_eq_true, beq_iff_eq, beq_iff_eq]

theorem pidMatches_iff_of_le (h : -1 ≤ pid.toInt) (caller child : TaskControlBlock) :
    pidMatches pid caller child = true ↔ WaitsFor pid.toInt caller child := by
  have hlow : ¬ pid.toInt < -1 := by omega
  by_cases hone : pid.toInt = -1
  · have hp := toInt_eq_neg_one_iff.mp hone
    simp [pidMatches, WaitsFor, hp]
  by_cases hzero : pid.toInt = 0
  · have hp := toInt_eq_zero_iff.mp hzero
    subst hp
    simp [pidMatches, WaitsFor]
  have hpos : 0 < pid.toInt := by omega
  have hnat : pid.toInt = pid.toNat := by
    rw [BitVec.toInt_eq_toNat_cond] at hpos ⊢
    split at hpos
    · rename_i hlt
      rw [if_pos hlt]
    · have := pid.isLt
      omega
  have hne : pid ≠ -1 := fun he => hone (toInt_eq_neg_one_iff.mpr he)
  have hne' : pid ≠ 0 := fun he => hzero (toInt_eq_zero_iff.mpr he)
  have hpid : (child.pid.toNat : ℤ) = pid.toInt ↔ child.pid = pid := by
    rw [hnat, Nat.cast_inj]
    exact ⟨BitVec.eq_of_toNat_eq, congrArg _⟩
  rw [pidMatches_iff_of_ne hne hne']
  simp [WaitsFor, hone, hzero, hlow, hpos, hpid]

theorem pidMatches_iff_of_lt (h : pid.toInt < -1) (caller child : TaskControlBlock) :
    pidMatches pid caller child = true ↔ child.parentPid = caller.pid ∧ child.pid = pid := by
  have hne : pid ≠ -1 := fun he => by rw [toInt_eq_neg_one_iff.mpr he] at h; omega
  have hne' : pid ≠ 0 := fun he => by rw [toInt_eq_zero_iff.mpr he] at h; omega
  exact pidMatches_iff_of_ne hne hne' caller child

theorem waitsFor_iff_of_lt (h : pid.toInt < -1) (caller child : TaskControlBlock) :
    WaitsFor pid.toInt caller child ↔
      child.parentPid = caller.pid ∧ (child.pgid.toNat : ℤ) = -pid.toInt := by
  rw [WaitsFor]
  refine and_congr_right ?_
  intro _
  constructor
  · rintro (h' | ⟨h', -⟩ | ⟨h', -⟩ | ⟨-, hg⟩)
    · omega
    · omega
    · omega
    · exact hg
  · intro hg
    exact Or.inr (Or.inr (Or.inr ⟨h, hg⟩))

theorem Kernel.reapable_iff :
    k.Reapable pid t ↔ ∃ u, k.EndedChild t u ∧ pidMatches pid t u = true := by
  constructor
  · rintro ⟨q, u, hmem, hu, hm, hdead⟩
    exact ⟨u, ⟨q, hmem, hu, parent_of_pidMatches hm, by simpa [isDead] using hdead⟩, hm⟩
  · rintro ⟨u, ⟨q, hmem, hu, -, hst⟩, hm⟩
    exact ⟨q, u, hmem, hu, hm, by simpa [isDead] using hst⟩

/-- The ended children that the code takes are asked for, and one is asked for only where the
code takes one. -/
def Kernel.Agrees (k : Kernel) (pid : Pid) (t : TaskControlBlock) : Prop :=
  (∀ u, k.EndedChild t u → pidMatches pid t u = true → WaitsFor pid.toInt t u) ∧
    ((∃ u, k.EndedChild t u ∧ WaitsFor pid.toInt t u) → k.Reapable pid t)

theorem Kernel.EndedChild.eq_of_pid (hkeys : (k.taskTable.map Prod.fst).Nodup)
    (hu : k.EndedChild t u) {v : TaskControlBlock} (hv : k.EndedChild t v) (h : u.pid = v.pid) :
    u = v := by
  obtain ⟨q, hq, htask, -⟩ := hu
  obtain ⟨q', hq', htask', -⟩ := hv
  have hentry : (u.pid, q) = (v.pid, q') := List.inj_on_of_nodup_map hkeys hq hq' h
  rw [(Prod.mk.inj hentry).2] at htask
  exact Option.mem_unique htask htask'

theorem Kernel.agrees_iff_selects (hkeys : (k.taskTable.map Prod.fst).Nodup) :
    k.Agrees pid t ↔ k.Selects pid t := by
  by_cases hle : -1 ≤ pid.toInt
  · refine iff_of_true ⟨?_, ?_⟩ (Or.inl hle)
    · intro u _ hm
      exact (pidMatches_iff_of_le hle t u).mp hm
    · rintro ⟨u, hu, hw⟩
      exact Kernel.reapable_iff.mpr ⟨u, hu, (pidMatches_iff_of_le hle t u).mpr hw⟩
  have hlt : pid.toInt < -1 := by omega
  simp only [Kernel.Agrees, Kernel.Selects, hle, false_or, Kernel.reapable_iff,
    pidMatches_iff_of_lt hlt, waitsFor_iff_of_lt hlt]
  constructor
  · rintro ⟨htaken, hasked⟩
    by_cases hex : ∃ u, k.EndedChild t u ∧ u.pid = pid
    · obtain ⟨u, hu, hpid⟩ := hex
      have hparent : u.parentPid = t.pid := hu.choose_spec.2.2.1
      exact Or.inl ⟨u, hu, hpid, (htaken u hu ⟨hparent, hpid⟩).2⟩
    · refine Or.inr fun u hu => ⟨fun hpid => hex ⟨u, hu, hpid⟩, fun hg => ?_⟩
      obtain ⟨v, hv, -, hpid⟩ := hasked ⟨u, hu, hu.choose_spec.2.2.1, hg⟩
      exact hex ⟨v, hv, hpid⟩
  · rintro (⟨u, hu, hpid, hg⟩ | hnone)
    · have hparent : u.parentPid = t.pid := hu.choose_spec.2.2.1
      refine ⟨?_, fun _ => ⟨u, hu, hparent, hpid⟩⟩
      rintro v hv ⟨hv', hvpid⟩
      obtain rfl : u = v := hu.eq_of_pid hkeys hv (hpid.trans hvpid.symm)
      exact ⟨hparent, hg⟩
    · refine ⟨?_, ?_⟩
      · rintro v hv ⟨-, hvpid⟩
        exact absurd hvpid (hnone v hv).1
      · rintro ⟨v, hv, -, hg⟩
        exact absurd hg (hnone v hv).2

end Matching

section Pass

theorem waitPass_noChange_iff {order : List (Pid × Ptr)}
    (h : SysRun P (fun k op => op.Careful k) k) (hrun : k.running c = some p)
    (hidle : k.idle c ≠ some p) (ht : k.tasks p = some t) (horder : order.Perm k.taskTable) :
    (waitPass c pid true false order : KernelM WaitResult) k = .ok .noChange k ↔
      ¬ k.Reapable pid t := by
  obtain ⟨loc, hst, hl⟩ := h.invariant
  have hpass := wp_waitPass hst hl.grouped hl.entries hrun hidle ht pid true false horder
  constructor
  · intro hr
    exact (hpass.of_ok hr).2.2.2
  · intro hnone
    obtain ⟨r, k', hr, -, hpassed⟩ := (wp_mono hpass (fun _ _ hp => hp)
      (fun _ _ hfail => Bool.noConfusion hfail.2.1)).returns
    cases r with
    | reaped child code =>
      obtain ⟨q, u, hmem, hm, rfl, -, hdead, hu, -⟩ := hpassed
      exact absurd ⟨q, u, hmem, hu, hm, hdead⟩ hnone
    | stopped child => cases hpassed.1
    | noChange => rw [hr, hpassed.2.1]
    | blocked => cases hpassed.1

/-- Where the table has a child that the code takes, the pass returns and reports one. -/
theorem exists_waitPass_reaped (noHang : Bool) {order : List (Pid × Ptr)}
    (h : SysRun P (fun k op => op.Careful k) k) (hrun : k.running c = some p)
    (hidle : k.idle c ≠ some p) (ht : k.tasks p = some t) (horder : order.Perm k.taskTable)
    (hre : k.Reapable pid t) :
    ∃ u k', pidMatches pid t u = true ∧
      (waitPass c pid noHang false order : KernelM WaitResult) k =
        .ok (.reaped u.pid u.exitCode) k' := by
  obtain ⟨loc, hst, hl⟩ := h.invariant
  have hpass := wp_waitPass hst hl.grouped hl.entries hrun hidle ht pid noHang false horder
  obtain ⟨r, k', hr, -, hpassed⟩ := (wp_mono hpass (fun _ _ hp => hp)
    (fun _ _ hfail => hfail.2.2 hre)).returns
  cases r with
  | reaped child code =>
    obtain ⟨q, u, -, hm, rfl, rfl, -⟩ := hpassed
    exact ⟨u, k', hm, hr⟩
  | stopped child => cases hpassed.1
  | noChange | blocked => exact absurd hre hpassed.2.2

/-- In every reachable state, for every caller, every argument and every order in which the
walk meets the entries: a pass of `Wait` does what it promises exactly when the argument is
one that the code reads as it is meant, or the difference meets no ended child. -/
theorem wait_reaps_matching (pid : Pid) (noHang : Bool) {order : List (Pid × Ptr)}
    (h : SysRun P (fun k op => op.Careful k) k) (hrun : k.running c = some p)
    (hidle : k.idle c ≠ some p) (ht : k.tasks p = some t)
    (hkeys : (k.taskTable.map Prod.fst).Nodup) (hzero : ∀ e ∈ k.taskTable, e.1 ≠ 0)
    (horder : order.Perm k.taskTable) :
    k.KeepsContract c pid noHang order t ↔ k.Selects pid t := by
  obtain ⟨loc, hst, hl⟩ := h.invariant
  have hpass := wp_waitPass hst hl.grouped hl.entries hrun hidle ht pid noHang false horder
  rw [← Kernel.agrees_iff_selects hkeys]
  constructor
  · rintro ⟨hreap, -, hfinds⟩
    refine ⟨?_, ?_⟩
    · intro u hu hm
      by_cases hle : -1 ≤ pid.toInt
      · exact (pidMatches_iff_of_le hle t u).mp hm
      have hlt : pid.toInt < -1 := by omega
      -- the pass reports a child with the same pid, so it is this one
      obtain ⟨v, k', hm', hr⟩ := exists_waitPass_reaped noHang h hrun hidle ht horder
        (Kernel.reapable_iff.mpr ⟨u, hu, hm⟩)
      obtain ⟨-, q', w, hmem, hw, hpid, hasked, hstatus, -⟩ := hreap _ k' hr
      rw [pidMatches_iff_of_lt hlt] at hm hm'
      have hended : k.EndedChild t w := ⟨q', hpid.symm ▸ hmem, hw, hasked.1, hstatus⟩
      rw [hu.eq_of_pid hkeys hended (hm.2.trans (hm'.2.symm.trans hpid.symm))]
      exact hasked
    · intro hex
      obtain ⟨child, code, k', hr⟩ := hfinds hex
      obtain ⟨q, u, hmem, hm, rfl, -, hdead, hu, -⟩ := (hpass.of_ok hr).2
      exact ⟨q, u, hmem, hu, hm, hdead⟩
  · rintro ⟨htaken, hasked⟩
    refine ⟨?_, ?_, ?_⟩
    · intro r k' hr
      have hpassed := (hpass.of_ok hr).2
      cases r with
      | reaped child code =>
        obtain ⟨q, u, hmem, hm, rfl, rfl, hdead, hu, hd⟩ := hpassed
        have hstatus : u.status = .kZombie ∨ u.status = .kExited := by simpa [isDead] using hdead
        have hended : k.EndedChild t u := ⟨q, hmem, hu, parent_of_pidMatches hm, hstatus⟩
        refine ⟨hzero _ hmem, q, u, hmem, hu, rfl, htaken u hended hm, hstatus, rfl, ?_⟩
        intro e
        rw [hd.taskTable, tableErase, List.mem_filter, bne_iff_ne]
        refine and_congr_right ?_
        intro he
        refine not_congr ⟨fun hkey => ?_, fun heq => heq ▸ rfl⟩
        exact List.inj_on_of_nodup_map hkeys he hmem hkey
      | stopped child => cases hpassed.1
      | noChange => exact ⟨hpassed.1, hpassed.2.1⟩
      | blocked => exact hpassed.1
    · rintro rfl
      rw [waitPass_noChange_iff h hrun hidle ht horder]
      constructor
      · intro hnone u hu hw
        exact hnone (hasked ⟨u, hu, hw⟩)
      · intro hnone hre
        obtain ⟨u, hu, hm⟩ := Kernel.reapable_iff.mp hre
        exact hnone u hu (htaken u hu hm)
    · intro hex
      obtain ⟨u, k', -, hr⟩ := exists_waitPass_reaped noHang h hrun hidle ht horder (hasked hex)
      exact ⟨u.pid, u.exitCode, k', hr⟩

/-- Task 1 runs and its child, task 2 of process group 5, has ended. -/
def Kernel.OneZombie (k : Kernel) : Prop :=
  k.running 0 = some 1 ∧ k.idle 0 ≠ some 1 ∧ k.taskTable = [(1, 1), (2, 2)] ∧
    (k.tasks 1).map (fun t => (t.pid, t.parentPid)) = some (1, 0) ∧
    (k.tasks 2).map (fun t => (t.pid, t.pgid, t.parentPid, t.status)) = some (2, 5, 1, .kZombie)

instance (k : Kernel) : Decidable k.OneZombie := by
  unfold Kernel.OneZombie
  infer_instance

theorem exists_oneZombie : ∃ k t u, SysRun (presetPlatform true) (fun k op => op.Careful k) k ∧
    k.OneZombie ∧ k.tasks 1 = some t ∧ t.pid = 1 ∧ k.tasks 2 = some u ∧ u.pid = 2 ∧ u.pgid = 5 ∧
    k.EndedChild t u := by
  obtain ⟨k, hk, hz⟩ : ∃ k, SysRun (presetPlatform true) (fun k op => op.Careful k) k ∧
      k.OneZombie := by
    apply SysRun.exists_careful [.initCurrentCore 0 0, .addTask 0 1 {},
      .addTask 0 2 { parentPid := 1, pgid := 5 }, .schedule 0, .schedule 0, .exit 0 7]
    decide +kernel
  obtain ⟨-, -, htable, h₁, h₂⟩ := id hz
  obtain ⟨t, ht, hfields⟩ := Option.map_eq_some_iff.mp h₁
  obtain ⟨u, hu, hfields'⟩ := Option.map_eq_some_iff.mp h₂
  simp only [Prod.mk.injEq] at hfields hfields'
  obtain ⟨hpid, -⟩ := hfields
  obtain ⟨hpid', hpgid', hpar', hst'⟩ := hfields'
  refine ⟨k, t, u, hk, hz, ht, hpid, hu, hpid', hpgid', 2, ?_, hu, hpar'.trans hpid.symm, Or.inl hst'⟩
  rw [htable, hpid']
  decide

/-- The theorem for any child of task 1: `Wait(-1)` reports task 2. -/
theorem wait_reaps_matching_example :
    ∃ k, SysRun (presetPlatform true) (fun k op => op.Careful k) k ∧ k.OneZombie ∧
      ∃ child code k', (waitPass 0 (-1) true false k.taskTable : KernelM WaitResult) k =
        .ok (.reaped child code) k' ∧ ∃ q, (child, q) ∈ k.taskTable ∧ (child, q) ∉ k'.taskTable := by
  obtain ⟨k, t, u, hk, hz, ht, -, -, -, -, hu⟩ := exists_oneZombie
  obtain ⟨hrun, hidle, htable, -⟩ := id hz
  obtain ⟨hreap, -, hfinds⟩ := (wait_reaps_matching (-1) true hk hrun hidle ht
    (by rw [htable]; decide) (by rw [htable]; decide) (List.Perm.refl _)).mpr (Or.inl (by decide))
  obtain ⟨child, code, k', hr⟩ := hfinds ⟨u, hu, hu.choose_spec.2.2.1, Or.inl rfl⟩
  obtain ⟨-, q, v, hmem, -, -, -, -, -, hrest⟩ := hreap _ k' hr
  exact ⟨k, hk, hz, child, code, k', hr, q, hmem, fun h => ((hrest _).mp h).2 rfl⟩

/-- `Wait(-5)` finds no child, though the child of process group 5 has ended. -/
theorem wait_ignores_process_group :
    ∃ k t u, SysRun (presetPlatform true) (fun k op => op.Careful k) k ∧ k.running 0 = some 1 ∧
      k.tasks 1 = some t ∧ (2, 2) ∈ k.taskTable ∧ k.tasks 2 = some u ∧ u.status = .kZombie ∧
      WaitsFor (BitVec.toInt (-5 : Pid)) t u ∧
      (waitPass 0 (-5) true false k.taskTable : KernelM WaitResult) k = .ok .noChange k := by
  obtain ⟨k, t, u, hk, hz, ht, hpid, hu, hpid', hpgid', hended⟩ := exists_oneZombie
  obtain ⟨hrun, hidle, htable, -, h₂⟩ := id hz
  simp only [hu, Option.map_some, Option.some.injEq, Prod.mk.injEq] at h₂
  refine ⟨k, t, u, hk, hrun, ht, by rw [htable]; decide, hu, h₂.2.2.2, ?_, ?_⟩
  · rw [waitsFor_iff_of_lt (by decide), hpgid']
    exact ⟨hended.choose_spec.2.2.1, rfl⟩
  · rw [waitPass_noChange_iff hk hrun hidle ht (List.Perm.refl _)]
    rintro ⟨q, v, hmem, -, hm, -⟩
    rw [pidMatches_iff_of_lt (by decide)] at hm
    rw [htable, hm.2] at hmem
    revert hmem
    simp

end Pass

end NaiLongKernel.Task
