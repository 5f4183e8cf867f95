import NaiLongKernel.Task.TaskTable

/-!
# Parents and children

A zombie waits for its parent to reap it. In a run with an init task that never exits, every
task in the table that has a parent has a live one, provided that the tasks that exit are
thread-group leaders or have no children: `Exit` hands only the children of leaders over.
-/
namespace NaiLongKernel.Task

open Foundation

/-- A task of the table that has not ended has this pid. -/
def Kernel.Alive (k : Kernel) (pid : Pid) : Prop :=
  ∃ e ∈ k.taskTable, ∃ u, k.tasks e.2 = some u ∧ u.pid = pid ∧ isDead u = false

/-- The tasks of the table that have a parent have a live one. -/
def Kernel.Parented (k : Kernel) : Prop :=
  ∀ e ∈ k.taskTable, ∀ t, k.tasks e.2 = some t → t.parentPid ≠ 0 → k.Alive t.parentPid

/-- New tasks have a live parent or none and a pid that is not in use. The init task lives and
does not exit, and a task that exits is a thread-group leader or has no children. -/
def SysOp.Orderly (k : Kernel) : SysOp → Prop
  | addTask _ _ t => (t.parentPid = 0 ∨ k.Alive t.parentPid) ∧ k.lookup (k.pidFor t) = none
  | exit c _ => ∀ p t, k.running c = some p → k.tasks p = some t →
      t.pid ≠ kInitPid ∧ k.Alive kInitPid ∧
        (t.isThreadGroupLeader = true ∨
          ∀ e ∈ k.taskTable, ∀ u, k.tasks e.2 = some u → u.parentPid ≠ t.pid)
  | _ => True

variable {k k' : Kernel} {loc loc' : Ptr → Option Slot} {p : Ptr} {t u : TaskControlBlock}
  {c : CoreId} {B : Set CoreId} {pid : Pid}

/-- Every task but the idle threads is in the table, once, and has a live parent if any. -/
structure Family (k : Kernel) : Prop where
  keys : (k.taskTable.map Prod.fst).Nodup
  listed : ∀ p t, k.tasks p = some t → (∀ c, k.idle c ≠ some p) → (t.pid, p) ∈ k.taskTable
  threads : ∀ c p, k.idle c = some p → (∀ e ∈ k.taskTable, e.2 ≠ p) ∧
    ∃ t, k.tasks p = some t ∧ t.pid = 0 ∧ t.parentPid = 0
  parented : k.Parented

namespace Family

theorem tabled (h : Family k) : Tabled k := ⟨h.keys, h.listed, fun c p hp => (h.threads c p hp).1⟩

theorem keep (h : Family k)
    (hsame : ∀ q u, k.tasks q = some u → ∃ u', k'.tasks q = some u' ∧ u'.pid = u.pid ∧
      u'.parentPid = u.parentPid ∧ isDead u' = isDead u)
    (hfree : ∀ q, k.tasks q = none → k'.tasks q = none) (hidle : k'.idle = k.idle)
    (htable : k'.taskTable = k.taskTable) : Family k' := by
  have htab : Tabled k' := h.tabled.keep
    (fun q _ hu' => (exists_before (hsame q) (hfree q) hu').imp fun _ hb => ⟨hb.1, hb.2.1⟩) hidle htable
  refine ⟨htab.keys, htab.listed, ?_, ?_⟩
  · intro c q hq
    have hne := htab.apart c q hq
    rw [hidle] at hq
    obtain ⟨-, u, hu, hpid, hpar⟩ := h.threads c q hq
    obtain ⟨u', hu', hpid', hpar', -⟩ := hsame q u hu
    exact ⟨hne, u', hu', hpid'.trans hpid, hpar'.trans hpar⟩
  · intro e he u' hu' hne
    rw [htable] at he
    obtain ⟨u, hu, -, hpar, -⟩ := exists_before (hsame e.2) (hfree e.2) hu'
    rw [hpar] at hne ⊢
    obtain ⟨d, hd, v, hv, hpid, hdead⟩ := h.parented e he u hu hne
    obtain ⟨v', hv', hpid', -, hdead'⟩ := hsame d.2 v hv
    exact ⟨d, by rw [htable]; exact hd, v', hv', hpid'.trans hpid, hdead'.trans hdead⟩

theorem persists (h : Family k) (hp : Persists k k') : Family k' := by
  refine h.keep ?_ hp.free hp.idle hp.taskTable
  intro q u hu
  obtain ⟨u', hu', hs⟩ := hp.same q u hu
  exact ⟨u', hu', hs.pid, by rw [hs.fields], hs.dead⟩

theorem congr (h : Family k) (htasks : k'.tasks = k.tasks) (hcpu : k'.perCpu = k.perCpu)
    (htable : k'.taskTable = k.taskTable) : Family k' := by
  refine h.keep ?_ ?_ ?_ htable
  · intro q u hu
    rw [htasks]
    exact ⟨u, hu, rfl, rfl, rfl⟩
  · intro q hq
    rw [htasks]
    exact hq
  · funext c
    rw [Kernel.idle, Kernel.idle, hcpu]

theorem initialised (h : Family k) (hl : Life k) (hp : k.tasks p = none) (hc : k.idle c = none)
    (hi : Initialised B c p k loc k') : Family k' := by
  have htab := h.tabled.initialised hl hp hc hi
  obtain ⟨t, ht, hready, hsame⟩ := hi.task
  have hne : ∀ q u, k.tasks q = some u → q ≠ p := by
    rintro q u hu rfl
    rw [hp] at hu
    cases hu
  refine ⟨htab.keys, htab.listed, ?_, ?_⟩
  · intro c' q hq
    refine ⟨htab.apart c' q hq, ?_⟩
    by_cases hcc : c' = c
    · rw [hcc, hi.idle] at hq
      obtain rfl := Option.some.inj hq
      exact ⟨t, ht, by rw [hsame.fields]; rfl, by rw [hsame.fields]; rfl⟩
    · rw [hi.idle_ne c' hcc] at hq
      obtain ⟨-, u, hu, hzero⟩ := h.threads c' q hq
      exact ⟨u, (hi.tasks_ne q (hne q u hu)).trans hu, hzero⟩
  · intro e he u hu hpar
    rw [hi.taskTable] at he
    obtain ⟨v, hv, -⟩ := hl.entries e he
    rw [hi.tasks_ne e.2 (hne e.2 v hv)] at hu
    obtain ⟨d, hd, w, hw, hrest⟩ := h.parented e he u hu hpar
    exact ⟨d, by rw [hi.taskTable]; exact hd, w, (hi.tasks_ne d.2 (hne d.2 w hw)).trans hw, hrest⟩

theorem insert (h : Family k) (hl : Life k) (hp : k.tasks p = none) (hlook : k.lookup pid = none)
    (ht : k'.tasks p = some t) (hpid : t.pid = pid) (hpar : t.parentPid = 0 ∨ k.Alive t.parentPid)
    (hsame : ∀ q, q ≠ p → ∀ u, k.tasks q = some u → ∃ u', k'.tasks q = some u' ∧ u'.pid = u.pid ∧
      u'.parentPid = u.parentPid ∧ isDead u' = isDead u)
    (hfree : ∀ q, q ≠ p → k.tasks q = none → k'.tasks q = none) (hidle : k'.idle = k.idle)
    (htable : k'.taskTable = tableSet pid p k.taskTable) : Family k' := by
  have hne : ∀ q u, k.tasks q = some u → q ≠ p := by
    rintro q u hu rfl
    rw [hp] at hu
    cases hu
  have hnot : ∀ c, k.idle c ≠ some p := by
    intro c hc
    obtain ⟨-, u, hu, -⟩ := h.threads c p hc
    exact hne p u hu rfl
  have back : ∀ q, q ≠ p → ∀ u', k'.tasks q = some u' → ∃ u, k.tasks q = some u ∧ u'.pid = u.pid ∧
      u'.parentPid = u.parentPid ∧ isDead u' = isDead u :=
    fun q hq u' hu' => exists_before (hsame q hq) (hfree q hq) hu'
  have htab : Tabled k' := h.tabled.insert hnot hlook ht hpid
    (fun q hq u' hu' => (back q hq u' hu').imp fun _ hb => ⟨hb.1, hb.2.1⟩) hidle htable
  rw [Kernel.tableSet_of_lookup hlook] at htable
  have alive : ∀ pid, k.Alive pid → k'.Alive pid := by
    rintro pid ⟨d, hd, v, hv, hpid, hdead⟩
    obtain ⟨v', hv', hpid', -, hdead'⟩ := hsame d.2 (hne d.2 v hv) v hv
    refine ⟨d, ?_, v', hv', hpid'.trans hpid, hdead'.trans hdead⟩
    rw [htable]
    exact List.mem_append_left _ hd
  refine ⟨htab.keys, htab.listed, ?_, ?_⟩
  · intro c q hq
    have hapart := htab.apart c q hq
    rw [hidle] at hq
    obtain ⟨-, u, hu, hzero, hzero'⟩ := h.threads c q hq
    obtain ⟨u', hu', hpid', hpar', -⟩ := hsame q (hne q u hu) u hu
    exact ⟨hapart, u', hu', hpid'.trans hzero, hpar'.trans hzero'⟩
  · intro e he u' hu' hpos
    rw [htable] at he
    rcases List.mem_append.mp he with hold | hnew
    · obtain ⟨u, hu, -⟩ := hl.entries e hold
      obtain ⟨v, hv, -, hpar', -⟩ := back e.2 (hne e.2 u hu) u' hu'
      rw [hpar'] at hpos ⊢
      exact alive _ (h.parented e hold v hv hpos)
    · rw [List.mem_singleton.mp hnew, ht] at hu'
      obtain rfl := Option.some.inj hu'
      exact alive _ (hpar.resolve_left hpos)

theorem added {target : CoreId} (h : Family k) (hl : Life k) (hp : k.tasks p = none)
    (hpar : t.parentPid = 0 ∨ k.Alive t.parentPid) (hlook : k.lookup (k.pidFor t) = none)
    (ha : Added B target p t (k.setTask p t) loc k' loc') : Family k' := by
  obtain ⟨t', ht', -, hsame⟩ := ha.task
  have htasks : ∀ q, q ≠ p → k'.tasks q = k.tasks q :=
    fun q hq => (ha.tasks_ne q hq).trans (k.tasks_setTask_ne p t hq)
  have hpar' : t'.parentPid = t.parentPid := by
    rw [hsame.fields]
    rfl
  refine h.insert hl hp hlook ht' hsame.pid (by rwa [hpar']) ?_ ?_ ha.idle ha.taskTable
  · intro q hq u hu
    exact ⟨u, (htasks q hq).trans hu, rfl, rfl, rfl⟩
  · intro q hq hu
    exact (htasks q hq).trans hu

theorem parent_of_clone (h : Family k) (hst : Stable ∅ k loc) (hrun : k.running c = some p)
    (ht : k.tasks p = some t) (flags : BitVec 64) :
    (k.childOf flags t).parentPid = 0 ∨ k.Alive (k.childOf flags t).parentPid := by
  have hchild : (k.childOf flags t).parentPid =
      if CloneFlags.has flags CloneFlags.kCloneParent then t.parentPid else t.pid := by
    rw [Kernel.childOf]
    split <;> rfl
  rw [hchild]
  by_cases hi : k.idle c = some p
  · -- an idle thread has neither pid nor parent
    obtain ⟨-, u, hu, hpid, hpar⟩ := h.threads c p hi
    obtain rfl := Option.mem_unique ht hu
    left
    split
    · exact hpar
    · exact hpid
  · have hmem := h.listed p t ht (hst.ne_idle hrun hi)
    obtain ⟨u, hu, hrunning⟩ := hst.running_of_ne_idle hrun hi
    obtain rfl := Option.mem_unique ht hu
    split
    · by_cases hpar : t.parentPid = 0
      · exact Or.inl hpar
      · exact Or.inr (h.parented _ hmem t ht hpar)
    · exact Or.inr ⟨_, hmem, t, ht, rfl, isDead_of_running hrunning⟩

theorem cloned (h : Family k) (hl : Life k) (hp : k.tasks p = none)
    (hpar : u.parentPid = 0 ∨ k.Alive u.parentPid) (hcl : Cloned c p u k loc k' loc') :
    Family k' := by
  obtain ⟨u', hu', -, he⟩ := hcl.block
  have hpar' : u'.parentPid = u.parentPid := by rw [he]
  refine h.insert hl hp hcl.fresh hu' (by rw [he]) (by rwa [hpar']) ?_ hcl.free hcl.idle hcl.taskTable
  intro q hq v hv
  obtain ⟨v', hv', hr⟩ := hcl.same q hq v hv
  exact ⟨v', hv', hr.profile.pid, by rw [hr], hr.profile.isDead⟩

theorem alive_departed (hd : Departed p t k k') (ht : k.tasks p = some t) (hne : pid ≠ t.pid)
    (ha : k.Alive pid) : k'.Alive pid := by
  obtain ⟨d, hmem, v, hv, hpid, hdead⟩ := ha
  have hdp : d.2 ≠ p := by
    intro heq
    rw [heq, ht] at hv
    exact hne (by rw [← hpid, ← Option.some.inj hv])
  obtain ⟨v', hv', hs⟩ := hd.profile hdp hv
  exact ⟨d, by rw [hd.taskTable]; exact hmem, v', hv', hs.pid.trans hpid, hs.isDead.trans hdead⟩

theorem departed (h : Family k) (hd : Departed p t k k') (ht : k.tasks p = some t)
    (hinit : t.pid ≠ kInitPid) (halive : k.Alive kInitPid)
    (hkids : t.isThreadGroupLeader = true ∨
      ∀ e ∈ k.taskTable, ∀ u, k.tasks e.2 = some u → u.parentPid ≠ t.pid) : Family k' := by
  have hidle : k'.idle = k.idle := by
    funext c
    rw [Kernel.idle, hd.rest]
    rfl
  have htab := h.tabled.departed hd
  refine ⟨htab.keys, htab.listed, ?_, ?_⟩
  · intro c q hq
    rw [hidle] at hq
    obtain ⟨hnot, u, hu, hpid, hpar⟩ := h.threads c q hq
    obtain ⟨u', hu', he⟩ := hd.same q u hu
    -- an idle thread is not in the table and so is not handed over
    have hkeep : k.inherited t q u = u.parentPid := by
      have hmem : ¬ (u.parentPid = t.pid ∧ q ∈ k.taskTable.map Prod.snd) := by
        rintro ⟨-, hmem⟩
        obtain ⟨e, he, heq⟩ := List.mem_map.mp hmem
        exact hnot e he heq
      rw [Kernel.inherited, adoptedParent, if_neg hmem, ite_self]
    rw [hd.taskTable]
    exact ⟨hnot, u', hu', by rw [he, hpid], by rw [he, hkeep, hpar]⟩
  · intro e he u' hu' hpos
    rw [hd.taskTable] at he
    obtain ⟨u, hu, hu'⟩ := hd.back hu'
    have hpar : u'.parentPid = k.inherited t e.2 u := by rw [hu']
    rw [hpar] at hpos ⊢
    by_cases hchild : u.parentPid = t.pid
    · -- a child of the exiting task, which is then a leader
      have hleader : t.isThreadGroupLeader = true :=
        hkids.resolve_right (fun hno => hno e he u hu hchild)
      have hinh : k.inherited t e.2 u = kInitPid := by
        rw [Kernel.inherited, if_pos hleader, adoptedParent,
          if_pos ⟨hchild, List.mem_map_of_mem he⟩]
      rw [hinh]
      exact alive_departed hd ht hinit.symm halive
    · have hinh : k.inherited t e.2 u = u.parentPid := by
        rw [Kernel.inherited, adoptedParent]
        split
        · exact if_neg (fun hc => hchild hc.1)
        · rfl
      rw [hinh] at hpos ⊢
      exact alive_departed hd ht hchild (h.parented e he u hu hpos)

theorem reaped (h : Family k) (hst : Stable ∅ k loc) (hr : Reaped p t k k') :
    Family k' := by
  have htab := h.tabled.reaped hst hr
  have hstays := fun {e} => h.tabled.stays hst hr (e := e)
  obtain ⟨hdead, ht, hd⟩ := hr
  have htable : k'.taskTable = tableErase t.pid k.taskTable := hd.taskTable
  have hidle : k'.idle = k.idle := by
    funext c
    rw [Kernel.idle, hd.perCpu]
    rfl
  refine ⟨htab.keys, htab.listed, ?_, ?_⟩
  · intro c q hq
    have hapart := htab.apart c q hq
    rw [hidle] at hq
    obtain ⟨-, u, hu, hpid, hpar⟩ := h.threads c q hq
    have hqp : q ≠ p := fun heq => (hst.unused_of_dead ht hdead).idle c (heq ▸ hq)
    obtain ⟨u', hu', hreg⟩ := hd.same q hqp u hu
    exact ⟨hapart, u', hu', hreg.profile.pid.trans hpid, by rw [hreg]; exact hpar⟩
  · intro e he u' hu' hpos
    rw [htable] at he
    obtain ⟨u, hu, hreg⟩ := hd.back hu'
    have hpar : u'.parentPid = u.parentPid := by rw [hreg]
    rw [hpar] at hpos ⊢
    obtain ⟨d, hmem', v, hv, hpid, hlive⟩ := h.parented e (List.mem_of_mem_filter he) u hu hpos
    -- the parent lives, so it is not the one reaped
    have hdp : d.2 ≠ p := by
      intro heq
      rw [heq, ht] at hv
      rw [← Option.some.inj hv, hdead] at hlive
      cases hlive
    obtain ⟨v', hv', hreg'⟩ := hd.same d.2 hdp v hv
    exact ⟨d, hstays hmem' hdp, v', hv', hreg'.profile.pid.trans hpid,
      hreg'.profile.isDead.trans hlive⟩

variable {P : Platform} {op : SysOp}

theorem effect (h : Family k) (hl : Life k) (hst : Stable ∅ k loc) (hen : op.Enabled k)
    (hord : op.Orderly k) (he : op.Effect P k k') : Family k' := by
  cases he.outcome with
  | initialised hi => exact h.initialised hl hen.2 hen.1.idle hi
  | added ha => exact h.added hl hen.1 hord.1 hord.2 ha
  | cloned hq hrun ht hcl _ =>
    refine h.cloned hl (hen _ hq) ?_ hcl
    exact h.parent_of_clone hst hrun ht _
  | departed hrun ht hd hp =>
    obtain ⟨hinit, halive, hkids⟩ := hord _ _ hrun ht
    exact (h.departed hd ht hinit halive hkids).persists hp
  | reaped _ hr => exact h.reaped hst hr
  | persists hp => exact h.persists hp
  | rest => exact h.congr rfl rfl rfl

theorem empty : Family {} := by
  refine ⟨List.nodup_nil, ?_, ?_, ?_⟩
  · intro p t ht
    cases ht
  · intro c p hp
    cases hp
  · intro e he
    cases he

end Family

variable {P : Platform}

theorem SysRun.family (h : SysRun P (fun k op => op.Careful k ∧ op.Orderly k) k) : Family k :=
  h.induction (fun _ _ hA => hA.1) Family.empty
    (fun _ _ _ _ hst hl hf hen hA he => hf.effect hl hst hen hA.2 he)

/-- In every run whose steps are careful and orderly, each task in the table with a parent has
the pid of a live task of the table as parent. -/
theorem parents_alive (h : SysRun P (fun k op => op.Careful k ∧ op.Orderly k) k) :
    ∀ e ∈ k.taskTable, ∀ t, k.tasks e.2 = some t → t.parentPid ≠ 0 →
      ∃ e' ∈ k.taskTable, ∃ u, k.tasks e'.2 = some u ∧ u.pid = t.parentPid ∧
        u.status ≠ .kZombie ∧ u.status ≠ .kExited := by
  intro e he t ht hpar
  obtain ⟨e', he', u, hu, hpid, hdead⟩ := h.family.parented e he t ht hpar
  exact ⟨e', he', u, hu, hpid, isDead_eq_false_iff.mp hdead⟩

section Replay

instance (k : Kernel) (pid : Pid) : Decidable (k.Alive pid) :=
  inferInstanceAs (Decidable (∃ e ∈ k.taskTable, ∃ u ∈ k.tasks e.2, u.pid = pid ∧ isDead u = false))

instance (k : Kernel) : (op : SysOp) → Decidable (op.Orderly k)
  | .addTask _ _ t => inferInstanceAs (Decidable ((t.parentPid = 0 ∨ k.Alive t.parentPid) ∧
      k.lookup (k.pidFor t) = none))
  | .exit c _ => decidable_of_iff (∀ p ∈ k.running c, ∀ t ∈ k.tasks p,
      t.pid ≠ kInitPid ∧ k.Alive kInitPid ∧ (t.isThreadGroupLeader = true ∨
        ∀ e ∈ k.taskTable, ∀ u ∈ k.tasks e.2, u.parentPid ≠ t.pid))
      ⟨fun h p t hp ht => h p hp t ht, fun h p hp t ht => h p t hp ht⟩
  | .initCurrentCore _ _ | .clone _ _ _ | .schedule _ | .tickUpdate _ | .sleep _ _ | .block _ _
  | .wakeup _ _ | .wait _ _ _ _ _ | .findTask _ _ | .allocPage _ | .vmCall _ _ _ =>
    inferInstanceAs (Decidable True)

/-- A leader exits and its child goes to the init task. -/
theorem parents_alive_example :
    ∃ k, SysRun (presetPlatform true) (fun k op => op.Careful k ∧ op.Orderly k) k ∧
      ((3, 3) ∈ k.taskTable ∧ (k.tasks 3).map (·.parentPid) = some 1) ∧
      ∀ e ∈ k.taskTable, ∀ t, k.tasks e.2 = some t → t.parentPid ≠ 0 →
        ∃ e' ∈ k.taskTable, ∃ u, k.tasks e'.2 = some u ∧ u.pid = t.parentPid ∧
          u.status ≠ .kZombie ∧ u.status ≠ .kExited := by
  have hrun : ∃ k, SysRun (presetPlatform true) (fun k op => op.Careful k ∧ op.Orderly k) k ∧
      ((3, 3) ∈ k.taskTable ∧ (k.tasks 3).map (·.parentPid) = some 1) := by
    apply SysRun.exists_replay (fun k op => op.Orderly k)
      [.initCurrentCore 0 0, .addTask 0 1 {}, .addTask 0 2 { parentPid := 1 },
        .addTask 0 3 { parentPid := 2 }, .schedule 0, .schedule 0, .exit 0 7]
    decide +kernel
  obtain ⟨k, hk, hchild⟩ := hrun
  exact ⟨k, hk, hchild, parents_alive hk⟩

/-- A thread that is not the leader of its group exits, and its child keeps it as parent. -/
theorem exit_of_thread_orphans_child :
    ∃ k, SysRun (presetPlatform true) (fun k op => op.Careful k) k ∧
      k.taskTable = [(1, 1), (2, 2), (3, 3)] ∧ (k.tasks 3).map (·.parentPid) = some 2 ∧
      (k.tasks 2).map (·.status) = some .kZombie ∧ (k.tasks 1).map (·.status) = some .kReady := by
  have hrun : ∃ k, SysRun (presetPlatform true) (fun k op => op.Careful k ∧ True) k ∧
      (k.taskTable = [(1, 1), (2, 2), (3, 3)] ∧ (k.tasks 3).map (·.parentPid) = some 2 ∧
        (k.tasks 2).map (·.status) = some .kZombie ∧ (k.tasks 1).map (·.status) = some .kReady) := by
    apply SysRun.exists_replay (fun _ _ => True)
      [.initCurrentCore 0 0, .addTask 0 1 {}, .addTask 0 2 { parentPid := 1, tgid := 1 },
        .addTask 0 3 { parentPid := 2 }, .schedule 0, .schedule 0, .exit 0 7]
    decide +kernel
  obtain ⟨k, hk, horphan⟩ := hrun
  exact ⟨k, hk.mono (fun _ _ h => h.1), horphan⟩

end Replay

end NaiLongKernel.Task
