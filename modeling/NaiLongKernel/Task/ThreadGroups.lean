import NaiLongKernel.Task.TaskTable

/-!
# Thread groups as lists

`Clone` puts a new thread behind the leader of the group, which it finds by the group's id.
While the leader has not left, the live tasks of one group form one doubly linked list. A
leader that has left is still found until it is reaped, and what joins it then is apart
from the other threads.
-/
namespace NaiLongKernel.Task

open Foundation

variable {P : Platform} {k k' : Kernel} {loc loc' : Ptr → Option Slot} {p q : Ptr}
  {t u : TaskControlBlock} {c : CoreId} {B : Set CoreId} {g : Pid}

/-- The loops of `GetThreadGroupSize` over one of the two links. -/
def countThreads (link : TaskControlBlock → Option Ptr) : ℕ → Option Ptr → ℕ → KernelM ℕ
  | _, none, count => pure count
  | 0, some _, _ => throw .diverges
  | fuel + 1, some curr, count => do
    let t ← readTask curr
    countThreads link fuel (link t) (count + 1)

/-- `GetThreadGroupSize`, with at most `fuel` rounds for each of its loops. -/
def getThreadGroupSize (fuel : ℕ) (task : Ptr) : KernelM ℕ := do
  let t ← readTask task
  if t.tgid = 0 then
    return 1
  else
    let count ← countThreads (·.threadGroupPrev) fuel t.threadGroupPrev 1
    countThreads (·.threadGroupNext) fuel t.threadGroupNext count

/-- The task has joined the group and has not left it. -/
def Kernel.InGroup (k : Kernel) (g : Pid) (p : Ptr) : Prop :=
  ∃ t, k.Enrolled p t ∧ isDead t = false ∧ t.tgid = g

theorem Kernel.InGroup.unique {g' : Pid} (h : k.InGroup g p) (h' : k.InGroup g' p) : g = g' := by
  obtain ⟨t, ⟨ht, -⟩, -, rfl⟩ := h
  obtain ⟨u, ⟨hu, -⟩, -, rfl⟩ := h'
  rw [Option.mem_unique ht hu]

theorem Kernel.inGroup_congr (hidle : ∀ c, k'.idle c = some q ↔ k.idle c = some q)
    (hsame : ∀ u, k.tasks q = some u → ∃ u', k'.tasks q = some u' ∧ isDead u' = isDead u ∧
      u'.tgid = u.tgid)
    (hfree : k.tasks q = none → k'.tasks q = none) (g : Pid) : k'.InGroup g q ↔ k.InGroup g q := by
  constructor
  · rintro ⟨u', ⟨hu', hi⟩, hlive, rfl⟩
    obtain ⟨u, hu, hdead, htgid⟩ := exists_before hsame hfree hu'
    exact ⟨u, ⟨hu, fun c hc => hi c ((hidle c).mpr hc)⟩, hdead.symm.trans hlive, htgid.symm⟩
  · rintro ⟨u, ⟨hu, hi⟩, hlive, rfl⟩
    obtain ⟨u', hu', hdead, htgid⟩ := hsame u hu
    exact ⟨u', ⟨hu', fun c hc => hi c ((hidle c).mp hc)⟩, hdead.trans hlive, htgid⟩

/-- New groups get ids that no live task has, and new threads are put behind a task that is
still in its group. -/
def SysOp.KeepsGroups (k : Kernel) : SysOp → Prop
  | addTask _ _ t => ∀ p, ¬k.InGroup (k.identified t).tgid p
  | clone c flags _ => ∀ parent t, k.running c = some parent → k.tasks parent = some t →
      if CloneFlags.has (completeFlags flags) CloneFlags.kCloneThread then
        ∃ leader g, k.joinTarget (completeFlags flags) parent t = some leader ∧ g ≠ 0 ∧
          k.InGroup g leader
      else ∀ p, ¬k.InGroup k.pidAllocator p
  | _ => True

/-- The tasks of each group form a row, and all other tasks have no links. -/
structure ThreadRows (k : Kernel) : Prop where
  rows : ∀ g, ∃ l, (∀ p, p ∈ l ↔ k.InGroup g p) ∧ Row k.next k.prev l
  loose : ∀ p, (∀ g, ¬k.InGroup g p) → k.next p = none ∧ k.prev p = none
  alone : ∀ p q, k.InGroup 0 p → k.InGroup 0 q → p = q

namespace ThreadRows

theorem empty : ThreadRows {} := by
  have hno : ∀ g p, ¬({} : Kernel).InGroup g p := by
    rintro g p ⟨t, ⟨ht, -⟩, -⟩
    cases ht
  refine ⟨fun g => ⟨[], fun p => ?_, .nil⟩, fun _ _ => ⟨rfl, rfl⟩, ?_⟩
  · exact ⟨nofun, fun hp => (hno g p hp).elim⟩
  · exact fun p q hp => (hno 0 p hp).elim

theorem keep (h : ThreadRows k) (hin : ∀ g p, k'.InGroup g p ↔ k.InGroup g p)
    (hn : k'.next = k.next) (hp : k'.prev = k.prev) : ThreadRows k' := by
  refine ⟨?_, ?_, ?_⟩
  · intro g
    obtain ⟨l, hl, hrow⟩ := h.rows g
    rw [hn, hp]
    exact ⟨l, fun p => (hl p).trans (hin g p).symm, hrow⟩
  · intro p hno
    rw [hn, hp]
    exact h.loose p (fun g hg => hno g ((hin g p).mpr hg))
  · intro p q hp hq
    exact h.alone p q ((hin 0 p).mp hp) ((hin 0 q).mp hq)

theorem remove (h : ThreadRows k) (hlink : k.Grouped) (hp : k.InGroup g p)
    (hin : ∀ g q, k'.InGroup g q ↔ k.InGroup g q ∧ q ≠ p)
    (hn : k'.next = Function.update (bypass k.next (k.prev p) (k.next p)) p none)
    (hpr : k'.prev = Function.update (bypass k.prev (k.next p) (k.prev p)) p none) :
    ThreadRows k' := by
  obtain ⟨l, hl, hrow⟩ := h.rows g
  have hpl : p ∈ l := (hl p).mpr hp
  have hout : ∀ q, q ∉ l → k'.next q = k.next q ∧ k'.prev q = k.prev q := by
    intro q hq
    rw [hn, hpr]
    exact hrow.remove_ne hlink hpl hq
  refine ⟨?_, ?_, fun a b ha hb => h.alone a b ((hin 0 a).mp ha).1 ((hin 0 b).mp hb).1⟩
  · intro g'
    by_cases hg : g' = g
    · subst hg
      refine ⟨l.erase p, ?_, by rw [hn, hpr]; exact hrow.remove hlink hpl⟩
      intro q
      rw [hrow.nodup.mem_erase_iff, hl, hin, and_comm]
    · obtain ⟨l', hl', hrow'⟩ := h.rows g'
      have hapart : ∀ q ∈ l', q ∉ l :=
        fun q hq' hq => hg (((hl' q).mp hq').unique ((hl q).mp hq))
      refine ⟨l', ?_, hrow'.congr (fun q hq => (hout q (hapart q hq)).1)
        (fun q hq => (hout q (hapart q hq)).2)⟩
      intro q
      rw [hl', hin]
      refine ⟨fun hq => ⟨hq, ?_⟩, fun hq => hq.1⟩
      rintro rfl
      exact hg (hq.unique hp)
  · intro q hno
    by_cases hqp : q = p
    · rw [hqp, hn, hpr]
      exact ⟨Function.update_self _ _ _, Function.update_self _ _ _⟩
    · have hno' : ∀ g, ¬k.InGroup g q := fun g hg => hno g ((hin g q).mpr ⟨hg, hqp⟩)
      have hq := hout q (fun hq => hno' g ((hl q).mp hq))
      rw [hq.1, hq.2]
      exact h.loose q hno'

theorem insert {leader : Ptr} (h : ThreadRows k) (hl : k.InGroup g leader)
    (hg : g ≠ 0) (hnew : ∀ g, ¬k.InGroup g p)
    (hin : ∀ g' q, k'.InGroup g' q ↔ k.InGroup g' q ∨ g' = g ∧ q = p)
    (hn : k'.next = Function.update (Function.update k.next p (k.next leader)) leader (some p))
    (hpr : k'.prev = Function.update (bypass k.prev (k.next leader) (some p)) p (some leader)) :
    ThreadRows k' := by
  obtain ⟨l, hmem, hrow⟩ := h.rows g
  have hll : leader ∈ l := (hmem leader).mpr hl
  have hpl : p ∉ l := fun hp => hnew g ((hmem p).mp hp)
  have hout : ∀ q, q ∉ l → q ≠ p → k'.next q = k.next q ∧ k'.prev q = k.prev q := by
    intro q hq hqp
    rw [hn, hpr]
    exact hrow.insertAfter_ne hll hq hqp
  refine ⟨?_, ?_, ?_⟩
  · intro g'
    by_cases hgg : g' = g
    · subst hgg
      obtain ⟨l', hrow', hperm⟩ := hrow.insertAfter hll hpl
      refine ⟨l', ?_, by rw [hn, hpr]; exact hrow'⟩
      intro q
      rw [hperm.mem_iff, List.mem_cons, hmem, hin]
      simp only [true_and]
      exact or_comm
    · obtain ⟨l', hl', hrow'⟩ := h.rows g'
      have hapart : ∀ q ∈ l', q ∉ l ∧ q ≠ p := by
        intro q hq'
        refine ⟨fun hq => hgg (((hl' q).mp hq').unique ((hmem q).mp hq)), ?_⟩
        rintro rfl
        exact hnew g' ((hl' q).mp hq')
      refine ⟨l', ?_, hrow'.congr (fun q hq => (hout q (hapart q hq).1 (hapart q hq).2).1)
        (fun q hq => (hout q (hapart q hq).1 (hapart q hq).2).2)⟩
      intro q
      rw [hl', hin]
      simp [hgg]
  · intro q hno
    have hqp : q ≠ p := by
      rintro rfl
      exact hno g ((hin g q).mpr (Or.inr ⟨rfl, rfl⟩))
    have hno' : ∀ g, ¬k.InGroup g q := fun g hg => hno g ((hin g q).mpr (Or.inl hg))
    have hq := hout q (fun hq => hno' g ((hmem q).mp hq)) hqp
    rw [hq.1, hq.2]
    exact h.loose q hno'
  · intro a b ha hb
    have old : ∀ a, k'.InGroup 0 a → k.InGroup 0 a :=
      fun a ha => ((hin 0 a).mp ha).resolve_right (fun hc => hg hc.1.symm)
    exact h.alone a b (old a ha) (old b hb)

theorem found (h : ThreadRows k) (hempty : ∀ q, ¬k.InGroup g q) (hnew : ∀ g, ¬k.InGroup g p)
    (hin : ∀ g' q, k'.InGroup g' q ↔ k.InGroup g' q ∨ g' = g ∧ q = p)
    (hn : k'.next = k.next) (hpr : k'.prev = k.prev) : ThreadRows k' := by
  obtain ⟨hnp, hpp⟩ := h.loose p hnew
  refine ⟨?_, ?_, ?_⟩
  · intro g'
    rw [hn, hpr]
    by_cases hgg : g' = g
    · subst hgg
      refine ⟨[p], ?_, .singleton hnp hpp⟩
      intro q
      simp [hin, hempty q]
    · obtain ⟨l, hl, hrow⟩ := h.rows g'
      refine ⟨l, ?_, hrow⟩
      intro q
      rw [hl, hin]
      simp [hgg]
  · intro q hno
    rw [hn, hpr]
    exact h.loose q (fun g hg => hno g ((hin g q).mpr (Or.inl hg)))
  · intro a b ha hb
    rcases (hin 0 a).mp ha with ha' | ⟨rfl, rfl⟩
    · rcases (hin 0 b).mp hb with hb' | ⟨rfl, rfl⟩
      · exact h.alone a b ha' hb'
      · exact (hempty a ha').elim
    · rcases (hin 0 b).mp hb with hb' | ⟨-, rfl⟩
      · exact (hempty b hb').elim
      · rfl

theorem persists (h : ThreadRows k) (hp : Persists k k') : ThreadRows k' := by
  refine h.keep ?_ hp.next hp.prev
  intro g q
  refine Kernel.inGroup_congr (fun c => by rw [hp.idle]) ?_ (hp.free q) g
  intro u hu
  obtain ⟨u', hu', hs⟩ := hp.same q u hu
  exact ⟨u', hu', hs.dead, by rw [hs.fields]⟩

theorem congr (h : ThreadRows k) (htasks : k'.tasks = k.tasks) (hcpu : k'.perCpu = k.perCpu) :
    ThreadRows k' := by
  refine h.keep ?_ (Kernel.next_congr htasks) (Kernel.prev_congr htasks)
  intro g q
  refine Kernel.inGroup_congr (fun c => by rw [Kernel.idle, Kernel.idle, hcpu]) ?_ ?_ g
  · intro u hu
    exact ⟨u, by rw [htasks, hu], rfl, rfl⟩
  · intro hq
    rw [htasks, hq]

theorem links_alloc (hp : k.tasks p = none) (ht : k'.tasks p = some t)
    (htasks : ∀ q, q ≠ p → k'.tasks q = k.tasks q) (hn : t.threadGroupNext = none)
    (hpr : t.threadGroupPrev = none) : k'.next = k.next ∧ k'.prev = k.prev := by
  refine ⟨?_, ?_⟩
  · funext q
    by_cases hq : q = p
    · rw [hq, Kernel.next_eq ht, hn, Kernel.next_of_none hp]
    · rw [Kernel.next, Kernel.next, htasks q hq]
  · funext q
    by_cases hq : q = p
    · rw [hq, Kernel.prev_eq ht, hpr, Kernel.prev_of_none hp]
    · rw [Kernel.prev, Kernel.prev, htasks q hq]

theorem not_inGroup_of_none (hp : k.tasks p = none) (g : Pid) : ¬k.InGroup g p := by
  rintro ⟨t, ⟨ht, -⟩, -⟩
  cases hp.symm.trans ht

theorem initialised (h : ThreadRows k) (hp : k.tasks p = none) (hc : k.idle c = none)
    (hi : Initialised B c p k loc k') : ThreadRows k' := by
  obtain ⟨t, ht, -, hsame⟩ := hi.task
  obtain ⟨hn, hpr⟩ := links_alloc hp ht hi.tasks_ne (by rw [hsame.fields]; rfl)
    (by rw [hsame.fields]; rfl)
  refine h.keep ?_ hn hpr
  intro g q
  by_cases hq : q = p
  · subst hq
    refine ⟨?_, fun hin => (not_inGroup_of_none hp g hin).elim⟩
    rintro ⟨_, ⟨-, hno⟩, -⟩
    exact (hno c hi.idle).elim
  · refine Kernel.inGroup_congr ?_ ?_ ?_ g
    · intro c'
      by_cases hcc : c' = c
      · rw [hcc, hi.idle, hc]
        exact ⟨fun he => (hq (Option.some.inj he).symm).elim, nofun⟩
      · rw [hi.idle_ne c' hcc]
    · intro u hu
      exact ⟨u, (hi.tasks_ne q hq).trans hu, rfl, rfl⟩
    · intro hu
      exact (hi.tasks_ne q hq).trans hu

theorem inGroup_new (hp : k.tasks p = none) (hnot : ∀ c, k.idle c ≠ some p)
    (ht : k'.tasks p = some t) (hlive : isDead t = false) (hidle : k'.idle = k.idle)
    (hsame : ∀ q, q ≠ p → ∀ u, k.tasks q = some u → ∃ u', k'.tasks q = some u' ∧
      isDead u' = isDead u ∧ u'.tgid = u.tgid)
    (hfree : ∀ q, q ≠ p → k.tasks q = none → k'.tasks q = none) (g : Pid) (q : Ptr) :
    k'.InGroup g q ↔ k.InGroup g q ∨ g = t.tgid ∧ q = p := by
  by_cases hq : q = p
  · subst hq
    constructor
    · rintro ⟨u, ⟨hu, -⟩, -, rfl⟩
      rw [Option.mem_unique hu ht]
      exact Or.inr ⟨rfl, rfl⟩
    · rintro (hin | ⟨rfl, -⟩)
      · exact (not_inGroup_of_none hp g hin).elim
      · exact ⟨t, ⟨ht, by rw [hidle]; exact hnot⟩, hlive, rfl⟩
  · rw [Kernel.inGroup_congr (fun c => by rw [hidle]) (hsame q hq) (hfree q hq) g]
    simp [hq]

theorem added {target : CoreId} (h : ThreadRows k) (hp : k.tasks p = none)
    (hnot : ∀ c, k.idle c ≠ some p) (hn : t.threadGroupNext = none) (hpr : t.threadGroupPrev = none)
    (hfresh : ∀ q, ¬k.InGroup (k.identified t).tgid q)
    (ha : Added B target p t (k.setTask p t) loc k' loc') : ThreadRows k' := by
  obtain ⟨t', ht', hready, hsame⟩ := ha.task
  have htasks : ∀ q, q ≠ p → k'.tasks q = k.tasks q :=
    fun q hq => (ha.tasks_ne q hq).trans (k.tasks_setTask_ne p t hq)
  obtain ⟨hnext, hprev⟩ := links_alloc hp ht' htasks (by rw [hsame.fields]; exact hn)
    (by rw [hsame.fields]; exact hpr)
  have htgid : t'.tgid = (k.identified t).tgid := by
    rw [hsame.fields]
    rfl
  refine h.found hfresh (not_inGroup_of_none hp) ?_ hnext hprev
  rw [← htgid]
  refine inGroup_new hp hnot ht' (isDead_of_ready hready) ha.idle ?_ ?_
  · intro q hq u hu
    exact ⟨u, (htasks q hq).trans hu, rfl, rfl⟩
  · intro q hq hu
    exact (htasks q hq).trans hu

theorem cloned {child parent : Ptr} {flags : BitVec 64} {pageTable : Option Memory.Addr}
    {stack : Memory.Addr} (h : ThreadRows k) (hp : k.tasks child = none)
    (hnot : ∀ c, k.idle c ≠ some child) (ht : k.tasks parent = some t)
    (hkeeps : if CloneFlags.has flags CloneFlags.kCloneThread then
        ∃ leader g, k.joinTarget flags parent t = some leader ∧ g ≠ 0 ∧ k.InGroup g leader
      else ∀ p, ¬k.InGroup k.pidAllocator p)
    (hcl : Cloned c child { k.childOf flags t with pageTable := pageTable, kernelStack := some stack }
      k loc k' loc')
    (hj : k.JoinedBehind child (k.joinTarget flags parent t) k') : ThreadRows k' := by
  obtain ⟨u', hu', hready, he⟩ := hcl.block
  have hin := inGroup_new hp hnot hu' (isDead_of_ready hready) hcl.idle
    (fun q hq v hv => by
      obtain ⟨v', hv', hr⟩ := hcl.same q hq v hv
      exact ⟨v', hv', hr.profile.isDead, by rw [hr]⟩) hcl.free
  have htgid : u'.tgid = if (k.childOf flags t).tgid = 0 then (k.childOf flags t).pid
      else (k.childOf flags t).tgid := by rw [he]
  by_cases hthread : CloneFlags.has flags CloneFlags.kCloneThread = true
  · -- a thread of the group of the task it is put behind
    rw [if_pos hthread] at hkeeps
    obtain ⟨leader, g, htarget, hg, hleader⟩ := hkeeps
    have hgroup : k.groupOf t = g := by
      obtain ⟨l, ⟨hl, -⟩, -, rfl⟩ := hleader
      rw [Kernel.joinTarget, if_pos hthread] at htarget
      rw [Kernel.groupOf]
      split at htarget
      · obtain rfl := Option.some.inj htarget
        rw [if_pos (by assumption), Option.mem_unique ht hl]
      · rw [if_neg (by assumption), htarget, Option.bind_some, hl]
    have hself : u'.tgid = g := by
      rw [htgid, Kernel.childOf, if_pos hthread, ← hgroup, if_neg]
      rw [hgroup]
      exact hg
    rw [hself] at hin
    have hne : leader ≠ child := by
      rintro rfl
      exact not_inGroup_of_none hp g hleader
    rw [htarget] at hj
    obtain ⟨hn, hpr⟩ := Linked.eq_insertAfter hcl.grouped hne hj.place hj.next hj.prev
    exact h.insert hleader hg (not_inGroup_of_none hp) hin hn hpr
  · -- a process, with a group of its own
    rw [if_neg hthread] at hkeeps
    have hself : u'.tgid = k.pidAllocator := by
      have htgid' : (k.childOf flags t).tgid = k.pidAllocator := by
        rw [Kernel.childOf, if_neg hthread]
        exact if_neg hthread
      have hpid' : (k.childOf flags t).pid = k.pidAllocator := by
        rw [Kernel.childOf, if_neg hthread]
        rfl
      rw [htgid, htgid', hpid', ite_self]
    rw [hself] at hin
    rw [Kernel.joinTarget, if_neg hthread] at hj
    have hn : k'.next = k.next := by
      rw [← hj.next, hj.place, bypass, ← hj.loose rfl, Function.update_eq_self]
    have hpr : k'.prev = k.prev := by
      rw [← hj.prev, hj.loose rfl, hj.place, bypass, ← hj.place, Function.update_eq_self]
    exact h.found hkeeps (not_inGroup_of_none hp) hin hn hpr

theorem departed (h : ThreadRows k) (hlink : k.Grouped) (ht : k.tasks p = some t)
    (hnot : ∀ c, k.idle c ≠ some p) (hlive : isDead t = false) (hd : Departed p t k k') :
    ThreadRows k' := by
  have hidle : k'.idle = k.idle := by
    funext c
    rw [Kernel.idle, hd.rest]
    rfl
  refine h.remove (g := t.tgid) hlink ⟨t, ⟨ht, hnot⟩, hlive, rfl⟩ ?_ hd.next hd.prev
  intro g q
  by_cases hq : q = p
  · subst hq
    refine ⟨?_, fun hc => (hc.2 rfl).elim⟩
    rintro ⟨u, ⟨hu, -⟩, hl, -⟩
    obtain ⟨u', hu', -, hz⟩ := hd.self ht
    obtain rfl := Option.mem_unique hu hu'
    rw [isDead, hz] at hl
    cases hl
  · rw [Kernel.inGroup_congr (fun c => by rw [hidle]) ?_ (hd.free q) g]
    · simp [hq]
    · intro u hu
      obtain ⟨u', hu', he⟩ := hd.same q u hu
      rw [if_neg hq] at he
      exact ⟨u', hu', by rw [he]; rfl, by rw [he]⟩

theorem reaped (h : ThreadRows k) (hr : Reaped p t k k') : ThreadRows k' := by
  obtain ⟨hdead, ht, hd⟩ := hr
  have hidle : k'.idle = k.idle := by
    funext c
    rw [Kernel.idle, hd.perCpu]
    rfl
  have hno : ∀ g, ¬k.InGroup g p := by
    rintro g ⟨u, ⟨hu, -⟩, hl, -⟩
    rw [← Option.mem_unique ht hu, hdead] at hl
    cases hl
  -- an ended task has no links any more
  obtain ⟨hn, hpr⟩ := h.loose p hno
  have hnext : k'.next = Function.update (bypass k.next (k.prev p) (k.next p)) p none := hd.next
  have hprev : k'.prev = Function.update (bypass k.prev (k.next p) (k.prev p)) p none := hd.prev
  refine h.keep ?_ ?_ ?_
  · intro g q
    by_cases hq : q = p
    · subst hq
      exact iff_of_false (not_inGroup_of_none hd.gone g) (hno g)
    · refine Kernel.inGroup_congr (k := k) (fun c => by rw [hidle]) ?_ (hd.free q) g
      intro u hu
      obtain ⟨u', hu', hr⟩ := hd.same q hq u hu
      exact ⟨u', hu', hr.profile.isDead, by rw [hr]⟩
  · rw [hnext, hpr, bypass, ← hn, Function.update_eq_self]
  · rw [hprev, hn, bypass, ← hpr, Function.update_eq_self]

variable {op : SysOp}

theorem effect (h : ThreadRows k) (hl : Life k) (hst : Stable ∅ k loc) (hen : op.Enabled k)
    (hkeeps : op.KeepsGroups k) (he : op.Effect P k k') : ThreadRows k' := by
  cases he.outcome with
  | initialised hi => exact h.initialised hen.2 hen.1.idle hi
  | added ha =>
    obtain ⟨hfree, -, hn, hpr⟩ := hen
    exact h.added hfree (hst.unused_of_none hfree).idle hn hpr hkeeps ha
  | cloned hq hrun ht hcl hj =>
    have hfree := hen _ hq
    exact h.cloned hfree (hst.unused_of_none hfree).idle ht (hkeeps _ _ hrun ht) hcl hj
  | @departed c _ p t _ _ hrun ht hd hp =>
    obtain ⟨q, hq, hidle⟩ := hen
    obtain rfl := Option.mem_unique hrun hq
    obtain ⟨u, hu, hrunning⟩ := hst.running_of_ne_idle hrun hidle
    obtain rfl := Option.mem_unique ht hu
    exact (h.departed hl.grouped ht (hst.ne_idle hrun hidle) (isDead_of_running hrunning) hd).persists hp
  | reaped _ hr => exact h.reaped hr
  | persists hp => exact h.persists hp
  | rest => exact h.congr rfl rfl

end ThreadRows

theorem SysRun.threadRows (h : SysRun P (fun k op => op.Careful k ∧ op.KeepsGroups k) k) :
    ThreadRows k :=
  h.induction (fun _ _ hA => hA.1) ThreadRows.empty
    (fun _ _ _ _ hst hl ht hen hA he => ht.effect hl hst hen hA.2 he)

theorem wp_countThreads (link : TaskControlBlock → Option Ptr) {l : List Ptr} {f : Ptr → Option Ptr}
    (hf : ∀ p ∈ l, ∃ t, k.tasks p = some t ∧ link t = f p)
    (hchain : l.IsChain (fun a b => f a = some b)) (hlast : ∀ a ∈ l.getLast?, f a = none)
    {fuel : ℕ} (hfuel : l.length ≤ fuel) (count : ℕ) {E : Fault → Kernel → Prop} :
    wp (countThreads link fuel l.head? count) (fun n k' => n = count + l.length ∧ k' = k) E k := by
  induction l generalizing fuel count with
  | nil =>
    rw [List.head?_nil, countThreads, wp_pure]
    exact ⟨rfl, rfl⟩
  | cons p l ih =>
    obtain ⟨t, ht, hlink⟩ := hf p List.mem_cons_self
    obtain ⟨hnext, hrest⟩ := List.isChain_cons.mp hchain
    have hhead : f p = l.head? := by
      cases l with
      | nil => exact hlast p rfl
      | cons q l => exact hnext q rfl
    have hlast' : ∀ a ∈ l.getLast?, f a = none := by
      intro a ha
      exact hlast a (by rw [List.getLast?_cons, ha]; rfl)
    cases fuel with
    | zero => cases hfuel
    | succ fuel =>
      rw [List.head?_cons, countThreads, wp_bind, wp_readTask ht, hlink, hhead]
      apply (ih (fun q hq => hf q (List.mem_cons_of_mem p hq)) hrest hlast'
        (Nat.le_of_succ_le_succ hfuel) (count + 1)).imp _
      rintro n k' ⟨rfl, rfl⟩
      exact ⟨by rw [List.length_cons]; omega, rfl⟩

theorem wp_getThreadGroupSize {l : List Ptr} (hrow : Row k.next k.prev l) (hlink : k.Grouped)
    (hlive : ∀ q ∈ l, ∃ t, k.tasks q = some t) (hp : p ∈ l) (ht : k.tasks p = some t)
    (hzero : t.tgid = 0 → l.length = 1) {fuel : ℕ} (hfuel : l.length ≤ fuel)
    {E : Fault → Kernel → Prop} :
    wp (getThreadGroupSize fuel p) (fun n k' => n = l.length ∧ k' = k) E k := by
  rw [getThreadGroupSize, wp_bind, wp_readTask ht, wp_ite]
  split
  · rename_i htgid
    rw [wp_pure]
    exact ⟨(hzero htgid).symm, rfl⟩
  · obtain ⟨l₁, l₂, rfl⟩ := List.append_of_mem hp
    have hnext := (Kernel.next_eq ht).symm.trans hrow.next_eq
    have hprev := (Kernel.prev_eq ht).symm.trans (hrow.prev_eq hlink)
    obtain ⟨hc₁, hc₂, -⟩ := List.isChain_append.mp hrow.chain
    have hlen : (l₁ ++ p :: l₂).length = l₁.length + (l₂.length + 1) := by
      rw [List.length_append, List.length_cons]
    rw [hlen] at hfuel ⊢
    -- backwards over the tasks before
    have hback : l₁.reverse.IsChain (fun a b => k.prev a = some b) := by
      rw [List.isChain_reverse]
      exact hc₁.imp (fun a b hab => (hlink a b).mp hab)
    rw [wp_bind, hprev, ← List.head?_reverse]
    refine (wp_countThreads (f := k.prev) (·.threadGroupPrev) ?_ hback ?_ ?_ 1).imp ?_
    · intro q hq
      obtain ⟨u, hu⟩ := hlive q (List.mem_append_left _ (List.mem_reverse.mp hq))
      exact ⟨u, hu, (Kernel.prev_eq hu).symm⟩
    · intro a ha
      rw [List.getLast?_reverse] at ha
      exact hrow.first a (by rw [List.head?_append, ha]; rfl)
    · rw [List.length_reverse]
      omega
    -- and forwards over those behind
    rintro n k' ⟨rfl, rfl⟩
    rw [hnext]
    refine (wp_countThreads (f := k'.next) (·.threadGroupNext) ?_ (List.isChain_cons.mp hc₂).2
      ?_ ?_ _).imp ?_
    · intro q hq
      obtain ⟨u, hu⟩ := hlive q (List.mem_append_right _ (List.mem_cons_of_mem p hq))
      exact ⟨u, hu, (Kernel.next_eq hu).symm⟩
    · intro a ha
      exact hrow.last a (by rw [List.getLast?_append, List.getLast?_cons, ha]; rfl)
    · omega
    · rintro m k'' ⟨rfl, rfl⟩
      rw [List.length_reverse]
      exact ⟨by omega, rfl⟩

/-- In every run whose steps keep the groups, the tasks of each group form one list: links are
inverse to each other, each task is reached from each other one, and `GetThreadGroupSize` of
any of them returns their number. -/
theorem thread_groups_are_lists (h : SysRun P (fun k op => op.Careful k ∧ op.KeepsGroups k) k)
    (g : Pid) : ∃ l : List Ptr, (∀ p, p ∈ l ↔ k.InGroup g p) ∧ Row k.next k.prev l ∧
      (∀ p q, k.next p = some q ↔ k.prev q = some p) ∧
      (∀ p ∈ l, ∀ q ∈ l,
        Relation.ReflTransGen (fun a b => k.next a = some b ∨ k.prev a = some b) p q) ∧
      ∀ p ∈ l, ∀ fuel, l.length ≤ fuel → getThreadGroupSize fuel p k = .ok l.length k := by
  have hrows := h.threadRows
  obtain ⟨loc, hst, hl⟩ := (h.mono (fun _ _ hA => hA.1)).invariant
  obtain ⟨l, hmem, hrow⟩ := hrows.rows g
  refine ⟨l, hmem, hrow, hl.grouped, fun p hp q hq => hrow.reaches hl.grouped hp hq, ?_⟩
  intro p hp fuel hfuel
  have hlive : ∀ q ∈ l, ∃ t, k.tasks q = some t := by
    intro q hq
    obtain ⟨t, ⟨ht, -⟩, -⟩ := (hmem q).mp hq
    exact ⟨t, ht⟩
  obtain ⟨t, ⟨ht, -⟩, -, htgid⟩ := (hmem p).mp hp
  have hzero : t.tgid = 0 → l.length = 1 := by
    intro hz
    have hg : g = 0 := htgid.symm.trans hz
    subst hg
    have heq : l = List.replicate l.length p := List.eq_replicate_iff.mpr
      ⟨rfl, fun q hq => hrows.alone q p ((hmem q).mp hq) ((hmem p).mp hp)⟩
    have hle : l.length ≤ 1 := List.nodup_replicate.mp (heq ▸ hrow.nodup)
    have hpos := List.length_pos_of_mem hp
    omega
  obtain ⟨n, k', hk', rfl, rfl⟩ :=
    (wp_getThreadGroupSize hrow hl.grouped hlive hp ht hzero hfuel (E := fun _ _ => False)).returns
  exact hk'

/-- Task 1 and a thread of it. The run takes the assertion of `AddTask` on the status of the thread
as passed. -/
theorem thread_groups_are_lists_example :
    ∃ k, SysRun (presetPlatform false) (fun k op => op.Careful k ∧ op.KeepsGroups k) k ∧
      k.InGroup 1 1 ∧ k.InGroup 1 2 ∧ ∃ l : List Ptr, (∀ p, p ∈ l ↔ k.InGroup 1 p) ∧
        Row k.next k.prev l ∧
        ∀ p ∈ l, ∀ fuel, l.length ≤ fuel → getThreadGroupSize fuel p k = .ok l.length k := by
  have h₀ := SysRun.start (P := presetPlatform false)
    (A := fun k op => op.Careful k ∧ op.KeepsGroups k)
  have h₁ := h₀.step (.initCurrentCore 0 0) ⟨⟨rfl, rfl, fun _ => rfl⟩, rfl⟩ ⟨trivial, trivial⟩ rfl
  have h₂ := h₁.step (.addTask 0 1 {}) ⟨rfl, rfl, rfl, rfl⟩ ⟨trivial, by
    rintro (_ | p) ⟨t, ⟨ht, hi⟩, -⟩
    · exact hi 0 rfl
    · cases ht⟩ rfl
  have h₃ := h₂.step (.schedule 0) ⟨0, rfl⟩ ⟨trivial, trivial⟩ rfl
  have h₄ := h₃.step (.clone 0 CloneFlags.kCloneThread (some 2))
    (by
      rintro p ⟨⟩
      rfl)
    ⟨trivial, by
      intro parent t hrun ht
      cases hrun
      cases ht
      exact ⟨1, 1, rfl, by decide, _, ⟨rfl, by rintro (_ | c) hc <;> cases hc⟩, rfl, rfl⟩⟩ rfl
  obtain ⟨l, hmem, hrow, -, -, hsize⟩ := thread_groups_are_lists h₄ 1
  exact ⟨_, h₄, ⟨_, ⟨rfl, by rintro (_ | c) hc <;> cases hc⟩, rfl, rfl⟩,
    ⟨_, ⟨rfl, by rintro (_ | c) hc <;> cases hc⟩, rfl, rfl⟩, l, hmem, hrow, hsize⟩

/-- A leader that has left is found by its thread 2, and the new thread 3 is put behind it: the
live threads 2 and 3 of the group are in no common list, and thread 3 counts the leader. The run
takes the assertion of `AddTask` on the status of the threads as passed. -/
theorem clone_joins_departed_leader :
    ∃ k, SysRun (presetPlatform false) (fun k op => op.Careful k) k ∧ k.InGroup 1 2 ∧ k.InGroup 1 3 ∧
      (¬∃ l : List Ptr, (∀ p, p ∈ l ↔ k.InGroup 1 p) ∧ Row k.next k.prev l) ∧
      (getThreadGroupSize 5 2).run' k = some 1 ∧ (getThreadGroupSize 5 3).run' k = some 2 := by
  have hrun : ∃ k, SysRun (presetPlatform false) (fun k op => op.Careful k ∧ op.FreshPid k) k ∧
      (k.taskTable = [(1, 1), (2, 2), (3, 3)] ∧ k.next 2 = none ∧ k.prev 2 = none ∧
      (∃ t ∈ k.tasks 2, isDead t = false ∧ t.tgid = 1) ∧
      (∃ t ∈ k.tasks 3, isDead t = false ∧ t.tgid = 1) ∧
      (getThreadGroupSize 5 2).run' k = some 1 ∧ (getThreadGroupSize 5 3).run' k = some 2) := by
    apply SysRun.exists_replay (fun k op => op.FreshPid k)
      [.initCurrentCore 0 0, .addTask 0 1 { parentPid := 9 }, .schedule 0,
        .clone 0 CloneFlags.kCloneThread (some 2), .exit 0 0,
        .clone 0 CloneFlags.kCloneThread (some 3)]
    decide +kernel
  obtain ⟨k, hk, htable, hn, hp, ⟨t₂, ht₂, hlive₂, hg₂⟩, ⟨t₃, ht₃, hlive₃, hg₃⟩, hsize₂, hsize₃⟩ := hrun
  have hnot : ∀ e ∈ k.taskTable, ∀ c, k.idle c ≠ some e.2 :=
    fun e he c hc => hk.tabled.apart c e.2 hc e he rfl
  rw [htable] at hnot
  have h₂ : k.InGroup 1 2 := ⟨t₂, ⟨ht₂, hnot (2, 2) (by decide)⟩, hlive₂, hg₂⟩
  have h₃ : k.InGroup 1 3 := ⟨t₃, ⟨ht₃, hnot (3, 3) (by decide)⟩, hlive₃, hg₃⟩
  refine ⟨k, hk.mono (fun _ _ hA => hA.1), h₂, h₃, ?_, hsize₂, hsize₃⟩
  rintro ⟨l, hmem, hrow⟩
  obtain ⟨loc, -, hl⟩ := (hk.mono (fun _ _ hA => hA.1)).invariant
  -- thread 2 has no neighbour
  obtain ⟨l₁, l₂, rfl⟩ := List.append_of_mem ((hmem 2).mpr h₂)
  rw [hrow.next_eq, List.head?_eq_none_iff] at hn
  rw [hrow.prev_eq hl.grouped, List.getLast?_eq_none_iff] at hp
  have hthree := (hmem 3).mpr h₃
  rw [hn, hp] at hthree
  revert hthree
  decide

end NaiLongKernel.Task
