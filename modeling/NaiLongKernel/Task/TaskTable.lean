import NaiLongKernel.Task.Lifetime

/-!
# The task table

Pids come from the caller of `AddTask` or from a counter, and both kinds meet in one table
that is written without a look at what is there. As long as the counter meets no pid in use,
the table lists every task but the idle threads exactly once, under its own pid.
-/
namespace NaiLongKernel.Task

open Foundation

variable {k k' : Kernel} {loc loc' : Ptr → Option Slot} {p : Ptr} {t u : TaskControlBlock}
  {c : CoreId} {B : Set CoreId} {pid : Pid}

/-- The block `t` is that of a task in existence which `AddTask` or `Clone` has added: all
control blocks but those of the idle threads are. -/
def Kernel.Enrolled (k : Kernel) (p : Ptr) (t : TaskControlBlock) : Prop :=
  k.tasks p = some t ∧ ∀ c, k.idle c ≠ some p

/-- The table lists the enrolled tasks, once, and no idle thread. -/
structure Tabled (k : Kernel) : Prop where
  keys : (k.taskTable.map Prod.fst).Nodup
  listed : ∀ p t, k.tasks p = some t → (∀ c, k.idle c ≠ some p) → (t.pid, p) ∈ k.taskTable
  apart : ∀ c p, k.idle c = some p → ∀ e ∈ k.taskTable, e.2 ≠ p

namespace SysOp

/-- The pid of a new task is not in use, whether preset or next in the counter. -/
def FreshPid (k : Kernel) : SysOp → Prop
  | addTask _ _ t => k.lookup (k.pidFor t) = none
  | _ => True

/-- A pid that the caller of `AddTask` presets is not in use. -/
def FreshPreset (k : Kernel) : SysOp → Prop
  | addTask _ _ t => t.pid ≠ 0 → k.lookup t.pid = none
  | _ => True

/-- The operations that bring new tasks. -/
def Enrols : SysOp → Prop
  | addTask _ _ _ => True
  | clone _ _ _ => True
  | _ => False

end SysOp

namespace Tabled

theorem empty : Tabled {} := by
  refine ⟨List.nodup_nil, ?_, ?_⟩
  · intro p t ht
    cases ht
  · intro c p hp
    cases hp

theorem entry_inj (h : Tabled k) {q : Ptr} (hp : (pid, p) ∈ k.taskTable)
    (hq : (pid, q) ∈ k.taskTable) : p = q :=
  congrArg Prod.snd (List.inj_on_of_nodup_map h.keys hp hq rfl)

theorem lookup_of_mem (h : Tabled k) (hp : (pid, p) ∈ k.taskTable) : k.lookup pid = some p := by
  cases hl : k.lookup pid with
  | none => exact absurd rfl (Kernel.not_mem_of_lookup hl _ hp)
  | some q =>
    obtain ⟨e, he, rfl⟩ := Option.map_eq_some_iff.mp hl
    have hkey : e.1 = pid := by simpa using List.find?_some he
    have hmem : (pid, e.2) ∈ k.taskTable := hkey ▸ List.mem_of_find?_eq_some he
    rw [h.entry_inj hmem hp]

theorem keep (h : Tabled k)
    (hback : ∀ q u', k'.tasks q = some u' → ∃ u, k.tasks q = some u ∧ u'.pid = u.pid)
    (hidle : k'.idle = k.idle) (htable : k'.taskTable = k.taskTable) : Tabled k' := by
  refine ⟨by rw [htable]; exact h.keys, ?_, ?_⟩
  · intro q u' hu' hi
    obtain ⟨u, hu, hpid⟩ := hback q u' hu'
    rw [hidle] at hi
    rw [hpid, htable]
    exact h.listed q u hu hi
  · intro c q hq
    rw [hidle] at hq
    rw [htable]
    exact h.apart c q hq

theorem persists (h : Tabled k) (hp : Persists k k') : Tabled k' := by
  refine h.keep ?_ hp.idle hp.taskTable
  intro q u' hu'
  exact (exists_before (hp.same q) (hp.free q) hu').imp fun _ hu => ⟨hu.1, hu.2.pid⟩

theorem congr (h : Tabled k) (htasks : k'.tasks = k.tasks) (hcpu : k'.perCpu = k.perCpu)
    (htable : k'.taskTable = k.taskTable) : Tabled k' := by
  refine h.keep ?_ ?_ htable
  · intro q u hu
    rw [htasks] at hu
    exact ⟨u, hu, rfl⟩
  · funext c
    rw [Kernel.idle, Kernel.idle, hcpu]

theorem initialised (h : Tabled k) (hl : Life k) (hp : k.tasks p = none) (hc : k.idle c = none)
    (hi : Initialised B c p k loc k') : Tabled k' := by
  refine ⟨by rw [hi.taskTable]; exact h.keys, ?_, ?_⟩
  · intro q u hu hq
    have hqp : q ≠ p := by
      rintro rfl
      exact hq c hi.idle
    rw [hi.tasks_ne q hqp] at hu
    rw [hi.taskTable]
    refine h.listed q u hu ?_
    intro c' hc'
    by_cases hcc : c' = c
    · rw [hcc, hc] at hc'
      cases hc'
    · exact hq c' ((hi.idle_ne c' hcc).trans hc')
  · intro c' q hq
    rw [hi.taskTable]
    by_cases hcc : c' = c
    · rw [hcc, hi.idle] at hq
      obtain rfl := Option.some.inj hq
      intro e he heq
      obtain ⟨u, hu, -⟩ := hl.entries e he
      rw [heq, hp] at hu
      cases hu
    · rw [hi.idle_ne c' hcc] at hq
      exact h.apart c' q hq

theorem insert (h : Tabled k) (hnot : ∀ c, k.idle c ≠ some p) (hlook : k.lookup pid = none)
    (ht : k'.tasks p = some t) (hpid : t.pid = pid)
    (hback : ∀ q, q ≠ p → ∀ u', k'.tasks q = some u' → ∃ u, k.tasks q = some u ∧ u'.pid = u.pid)
    (hidle : k'.idle = k.idle) (htable : k'.taskTable = tableSet pid p k.taskTable) :
    Tabled k' := by
  rw [Kernel.tableSet_of_lookup hlook] at htable
  refine ⟨?_, ?_, ?_⟩
  · rw [htable, List.map_append, List.map_singleton, List.nodup_append]
    refine ⟨h.keys, List.nodup_singleton _, ?_⟩
    intro a ha b hb heq
    obtain ⟨e, he, rfl⟩ := List.mem_map.mp ha
    rw [List.mem_singleton] at hb
    exact Kernel.not_mem_of_lookup hlook e he (heq.trans hb)
  · intro q u' hu' hi
    rw [htable]
    by_cases hq : q = p
    · rw [hq, ht] at hu'
      rw [← Option.some.inj hu', hpid, hq]
      exact List.mem_append_right _ List.mem_cons_self
    · obtain ⟨u, hu, hpid'⟩ := hback q hq u' hu'
      rw [hidle] at hi
      rw [hpid']
      exact List.mem_append_left _ (h.listed q u hu hi)
  · intro c q hq e he
    rw [hidle] at hq
    rw [htable] at he
    rcases List.mem_append.mp he with hold | hnew
    · exact h.apart c q hq e hold
    · rw [List.mem_singleton.mp hnew]
      rintro rfl
      exact hnot c hq

theorem added {target : CoreId} (h : Tabled k) (hnot : ∀ c, k.idle c ≠ some p)
    (hlook : k.lookup (k.pidFor t) = none) (ha : Added B target p t (k.setTask p t) loc k' loc') :
    Tabled k' := by
  obtain ⟨t', ht', -, hsame⟩ := ha.task
  refine h.insert hnot hlook ht' hsame.pid ?_ ha.idle ha.taskTable
  intro q hq u hu
  rw [ha.tasks_ne q hq, k.tasks_setTask_ne p t hq] at hu
  exact ⟨u, hu, rfl⟩

theorem cloned (h : Tabled k) (hnot : ∀ c, k.idle c ≠ some p) (hcl : Cloned c p u k loc k' loc') :
    Tabled k' := by
  obtain ⟨u', hu', -, he⟩ := hcl.block
  refine h.insert hnot hcl.fresh hu' (by rw [he]) ?_ hcl.idle hcl.taskTable
  intro q hq v' hv'
  exact (exists_before (hcl.same q hq) (hcl.free q hq) hv').imp fun _ hv => ⟨hv.1, hv.2.profile.pid⟩

theorem departed (h : Tabled k) (hd : Departed p t k k') : Tabled k' := by
  refine h.keep ?_ ?_ hd.taskTable
  · intro q u' hu'
    obtain ⟨u, hu, he⟩ := hd.back hu'
    exact ⟨u, hu, by rw [he]⟩
  · funext c
    rw [Kernel.idle, hd.rest]
    rfl

theorem stays (h : Tabled k) (hst : Stable ∅ k loc) (hr : Reaped p t k k') {e : Pid × Ptr}
    (he : e ∈ k.taskTable) (hep : e.2 ≠ p) : e ∈ k'.taskTable := by
  obtain ⟨hdead, ht, hd⟩ := hr
  have htable : k'.taskTable = tableErase t.pid k.taskTable := hd.taskTable
  have hmem : (t.pid, p) ∈ k.taskTable := h.listed p t ht (hst.unused_of_dead ht hdead).idle
  rw [htable]
  refine List.mem_filter.mpr ⟨he, bne_iff_ne.mpr ?_⟩
  intro heq
  have he' : (t.pid, e.2) ∈ k.taskTable := heq ▸ he
  exact hep (h.entry_inj he' hmem)

theorem reaped (h : Tabled k) (hst : Stable ∅ k loc) (hr : Reaped p t k k') : Tabled k' := by
  have hstays := fun {e} => h.stays hst hr (e := e)
  obtain ⟨hdead, ht, hd⟩ := hr
  have htable : k'.taskTable = tableErase t.pid k.taskTable := hd.taskTable
  have hidle : k'.idle = k.idle := by
    funext c
    rw [Kernel.idle, hd.perCpu]
    rfl
  refine ⟨?_, ?_, ?_⟩
  · rw [htable]
    exact h.keys.sublist ((List.filter_sublist (p := fun e : Pid × Ptr => e.1 != t.pid)).map Prod.fst)
  · intro q u' hu' hi
    have hqp : q ≠ p := by
      rintro rfl
      cases hd.gone.symm.trans hu'
    obtain ⟨u, hu, hreg⟩ := hd.back hu'
    rw [hidle] at hi
    rw [hreg.profile.pid]
    exact hstays (h.listed q u hu hi) hqp
  · intro c q hq e he
    rw [hidle] at hq
    rw [htable] at he
    exact h.apart c q hq e (List.mem_of_mem_filter he)

variable {P : Platform} {op : SysOp}

theorem effect (h : Tabled k) (hl : Life k) (hst : Stable ∅ k loc) (hen : op.Enabled k)
    (hfresh : op.FreshPid k) (he : op.Effect P k k') : Tabled k' := by
  cases he.outcome with
  | initialised hi => exact h.initialised hl hen.2 hen.1.idle hi
  | added ha => exact h.added (hst.unused_of_none hen.1).idle hfresh ha
  | cloned hq _ _ hcl _ => exact h.cloned (hst.unused_of_none (hen _ hq)).idle hcl
  | departed _ _ hd hp => exact (h.departed hd).persists hp
  | reaped _ hr => exact h.reaped hst hr
  | persists hp => exact h.persists hp
  | rest => exact h.congr rfl rfl rfl

theorem entries_kept (hfresh : op.FreshPid k) (hop : op.Enrols) (he : op.Effect P k k') :
    ∀ e ∈ k.taskTable, e ∈ k'.taskTable := by
  have append : ∀ {pid : Pid} {p : Ptr}, k.lookup pid = none →
      k'.taskTable = tableSet pid p k.taskTable → ∀ e ∈ k.taskTable, e ∈ k'.taskTable := by
    intro pid p hlook htable e he
    rw [htable, Kernel.tableSet_of_lookup hlook]
    exact List.mem_append_left _ he
  cases op with
  | addTask c task t =>
    obtain ⟨_, _, ha⟩ := he
    exact append hfresh ha.taskTable
  | clone c flags child =>
    obtain ⟨r, _, _, he⟩ := he
    cases he with
    | noTask | noPid | noBlock | noTable | noStack => exact fun _ he => he
    | cloned _ _ _ _ _ _ hcl _ _ => exact append hcl.fresh hcl.taskTable
  | _ => exact hop.elim

end Tabled

variable {P : Platform}

theorem SysRun.tabled (h : SysRun P (fun k op => op.Careful k ∧ op.FreshPid k) k) : Tabled k :=
  h.induction (fun _ _ hA => hA.1) Tabled.empty
    (fun _ _ _ _ hst hl ht hen hA he => ht.effect hl hst hen hA.2 he)

/-- In every run whose new pids are not in use and whose exits are careful: the tasks have
different pids, the table lists exactly them, `FindTask` finds them, and new ones displace none. -/
theorem pids_identify_tasks (h : SysRun P (fun k op => op.Careful k ∧ op.FreshPid k) k) :
    (∀ p q t u, k.Enrolled p t → k.Enrolled q u → t.pid = u.pid → p = q) ∧
    (∀ pid p, (pid, p) ∈ k.taskTable ↔ ∃ t, k.Enrolled p t ∧ t.pid = pid) ∧
    (∀ p t, k.Enrolled p t → (findTask t.pid : KernelM (Option Ptr)) k = .ok (some p) k) ∧
    ∀ (op : SysOp) k', op.Enabled k → op.Careful k → op.FreshPid k → op.Enrols →
      (op.exec P : KernelM Unit) k = .ok () k' → ∀ e ∈ k.taskTable, e ∈ k'.taskTable := by
  have htab := h.tabled
  obtain ⟨loc, hst, hl⟩ := (h.mono (fun _ _ hA => hA.1)).invariant
  refine ⟨?_, ?_, ?_, ?_⟩
  · rintro p q t u ⟨ht, hp⟩ ⟨hu, hq⟩ heq
    have hmem := htab.listed p t ht hp
    rw [heq] at hmem
    exact htab.entry_inj hmem (htab.listed q u hu hq)
  · intro pid p
    constructor
    · intro he
      obtain ⟨t, ht, hpid⟩ := hl.entries _ he
      exact ⟨t, ⟨ht, fun c hc => htab.apart c p hc _ he rfl⟩, hpid⟩
    · rintro ⟨t, ⟨ht, hp⟩, rfl⟩
      exact htab.listed p t ht hp
  · rintro p t ⟨ht, hp⟩
    rw [← htab.lookup_of_mem (htab.listed p t ht hp)]
    rfl
  · intro op k' hen hcare hfresh hop hexec
    obtain ⟨-, -, he⟩ := SysOp.effect_of_exec hst hl hen hcare hexec
    exact Tabled.entries_kept hfresh hop he

section Replay

instance (k : Kernel) : (op : SysOp) → Decidable (op.FreshPid k)
  | .addTask _ _ t => inferInstanceAs (Decidable (k.lookup (k.pidFor t) = none))
  | .initCurrentCore _ _ | .clone _ _ _ | .schedule _ | .tickUpdate _ | .sleep _ _ | .block _ _
  | .wakeup _ _ | .wait _ _ _ _ _ | .findTask _ _ | .allocPage _ | .vmCall _ _ _ | .exit _ _ =>
    inferInstanceAs (Decidable True)

end Replay

/-- A task with a preset pid, two with allocated pids, and one that has ended and been reaped. -/
theorem pids_identify_tasks_example :
    ∃ k, SysRun (presetPlatform true) (fun k op => op.Careful k ∧ op.FreshPid k) k ∧
      k.taskTable = [(7, 3), (1, 1)] ∧
      ∀ p t, k.Enrolled p t → (findTask t.pid : KernelM (Option Ptr)) k = .ok (some p) k := by
  have hrun : ∃ k, SysRun (presetPlatform true) (fun k op => op.Careful k ∧ op.FreshPid k) k ∧
      k.taskTable = [(7, 3), (1, 1)] := by
    apply SysRun.exists_replay (fun k op => op.FreshPid k)
      [.initCurrentCore 0 0, .addTask 0 3 { pid := 7 }, .addTask 0 1 {},
        .addTask 0 2 { parentPid := 1 }, .schedule 0, .schedule 0, .schedule 0, .exit 0 5,
        .schedule 0, .wait 0 (-1) true false [(7, 3), (1, 1), (2, 2)]]
    decide +kernel
  obtain ⟨k, hk, htable⟩ := hrun
  exact ⟨k, hk, htable, (pids_identify_tasks hk).2.2.1⟩

/-- The counter reaches the preset pid 1 of task 1, and the new task 2 takes its place in the
table. -/
theorem addTask_displaces :
    ∃ k, SysRun (presetPlatform true) (fun k op => op.Careful k ∧ op.FreshPreset k) k ∧
      k.taskTable = [(1, 2)] ∧ (∃ t, k.Enrolled 1 t ∧ t.pid = 1) ∧ ∃ t, k.Enrolled 2 t ∧ t.pid = 1 := by
  have h₀ := SysRun.start (P := presetPlatform true)
    (A := fun k op => op.Careful k ∧ op.FreshPreset k)
  have h₁ := h₀.step (.initCurrentCore 0 0) ⟨⟨rfl, rfl, fun _ => rfl⟩, rfl⟩ ⟨trivial, trivial⟩ rfl
  have h₂ := h₁.step (.addTask 0 1 { pid := 1 }) ⟨rfl, rfl, rfl, rfl⟩ ⟨trivial, fun _ => rfl⟩ rfl
  have h₃ := h₂.step (.addTask 0 2 {}) ⟨rfl, rfl, rfl, rfl⟩ ⟨trivial, fun h => absurd rfl h⟩ rfl
  refine ⟨_, h₃, rfl, ⟨_, ⟨rfl, ?_⟩, rfl⟩, ⟨_, ⟨rfl, ?_⟩, rfl⟩⟩
  · rintro (_ | c) hc <;> cases hc
  · rintro (_ | c) hc <;> cases hc

end NaiLongKernel.Task
