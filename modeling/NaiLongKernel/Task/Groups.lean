import NaiLongKernel.Foundation.Links
import NaiLongKernel.Task.Arrival

/-!
# Thread groups, parents and deletion

The programs that change what tasks know of each other: thread-group links, parents, and
the end of a control block. They leave cores and queues alone, and so keep `Stable`; the
links of all tasks stay inverse to each other.
-/
namespace NaiLongKernel.Task

open Foundation

/-- Every control block stays and changes within `R`; nothing else changes. -/
structure Rewrites (R : TaskControlBlock → TaskControlBlock → Prop) (k k' : Kernel) : Prop where
  same : ∀ p t, k.tasks p = some t → ∃ t', k'.tasks p = some t' ∧ R t t'
  free : ∀ p, k.tasks p = none → k'.tasks p = none
  rest : k' = { k with tasks := k'.tasks }

variable {k k' k'' : Kernel} {loc : Ptr → Option Slot} {p : Ptr} {t t' : TaskControlBlock}
  {c : CoreId} {B : Set CoreId} {R S : TaskControlBlock → TaskControlBlock → Prop}
  {E : Fault → Kernel → Prop} {Q : Unit → Kernel → Prop}

namespace Rewrites

theorem cpuSchedulers (h : Rewrites R k k') : k'.cpuSchedulers = k.cpuSchedulers := by rw [h.rest]

theorem perCpu (h : Rewrites R k k') : k'.perCpu = k.perCpu := by rw [h.rest]

theorem taskTable (h : Rewrites R k k') : k'.taskTable = k.taskTable := by rw [h.rest]

theorem refl (hR : ∀ t, R t t) (k : Kernel) : Rewrites R k k :=
  ⟨fun _ t ht => ⟨t, ht, hR t⟩, fun _ h => h, rfl⟩

theorem trans (h : Rewrites R k k') (h' : Rewrites R k' k'')
    (hR : ∀ t t' t'', R t t' → R t' t'' → R t t'') : Rewrites R k k'' := by
  refine ⟨?_, fun p hp => h'.free p (h.free p hp), by rw [h'.rest, h.rest]⟩
  intro p t ht
  rcases h.same p t ht with ⟨t', ht', hr⟩
  rcases h'.same p t' ht' with ⟨t'', ht'', hr'⟩
  exact ⟨t'', ht'', hR t t' t'' hr hr'⟩

theorem mono (h : Rewrites R k k') (hRS : ∀ t t', R t t' → S t t') : Rewrites S k k' :=
  { h with same := fun p t ht => (h.same p t ht).imp (fun _ ⟨ht', hr⟩ => ⟨ht', hRS _ _ hr⟩) }

theorem setTask (hR : ∀ t, R t t) (ht : k.tasks p = some t) (hr : R t t') :
    Rewrites R k (k.setTask p t') := by
  refine ⟨?_, ?_, rfl⟩
  · intro q u hu
    by_cases hq : q = p
    · subst hq
      rw [k.tasks_setTask_self]
      exact ⟨t', rfl, Option.mem_unique ht hu ▸ hr⟩
    · rw [k.tasks_setTask_ne p t' hq]
      exact ⟨u, hu, hR u⟩
  · intro q hq
    have hqp : q ≠ p := by
      rintro rfl
      rw [ht] at hq
      cases hq
    rw [k.tasks_setTask_ne p t' hqp]
    exact hq

end Rewrites

/-- Nothing that scheduling looks at has changed, nor the pid. -/
structure SameProfile (t t' : TaskControlBlock) : Prop where
  pid : t'.pid = t.pid
  status : t'.status = t.status
  policy : t'.policy = t.policy
  schedInfo : t'.schedInfo = t.schedInfo
  blockedOn : t'.blockedOn = t.blockedOn

theorem SameProfile.refl (t : TaskControlBlock) : SameProfile t t := ⟨rfl, rfl, rfl, rfl, rfl⟩

/-- Only the links of the thread group have changed. -/
def Regrouped (t t' : TaskControlBlock) : Prop :=
  t' = { t with threadGroupNext := t'.threadGroupNext, threadGroupPrev := t'.threadGroupPrev }

theorem Regrouped.refl (t : TaskControlBlock) : Regrouped t t := rfl

theorem Regrouped.trans (t t' t'' : TaskControlBlock) (h : Regrouped t t')
    (h' : Regrouped t' t'') : Regrouped t t'' := by
  rw [Regrouped] at *
  rw [h', h]

theorem Regrouped.profile (h : Regrouped t t') : SameProfile t t' := by
  rw [Regrouped] at h
  rw [h]
  exact ⟨rfl, rfl, rfl, rfl, rfl⟩

theorem SameProfile.isDead (h : SameProfile t t') : isDead t' = isDead t := by
  rw [Task.isDead, Task.isDead, h.status]

theorem SameProfile.agrees {s : Slot} (h : SameProfile t t') (ha : s.Agrees t) : s.Agrees t' := by
  cases s with
  | ready c policy => exact ⟨h.status.trans ha.1, h.policy.trans ha.2⟩
  | sleeping c => exact h.status.trans ha
  | blocked c r => exact ⟨h.status.trans ha.1, h.blockedOn.trans ha.2⟩

theorem Stable.reprofile (h : Stable B k loc)
    (hsame : ∀ p t, k.tasks p = some t → ∃ t', k'.tasks p = some t' ∧ SameProfile t t')
    (hfree : ∀ p, k.tasks p = none → k'.tasks p = none)
    (hscheds : k'.cpuSchedulers = k.cpuSchedulers) (hcpu : k'.perCpu = k.perCpu) :
    Stable B k' loc := by
  obtain ⟨hidle, hrunning, hheld, hslot⟩ := Kernel.views_of_eq hscheds hcpu
  have hwake : k'.wakesLater = k.wakesLater := by
    have hkey : ∀ a, k'.wakeTick a = k.wakeTick a := by
      intro a
      cases ha : k.tasks a with
      | none => rw [Kernel.wakeTick, Kernel.wakeTick, ha, hfree a ha]
      | some t =>
        rcases hsame a t ha with ⟨t', ht', hs⟩
        rw [Kernel.wakeTick_eq ha, Kernel.wakeTick_eq ht', hs.schedInfo]
    funext a b
    rw [Kernel.wakesLater, Kernel.wakesLater, hkey, hkey]
  have idle_task : ∀ q, (∃ t, k.tasks q = some t ∧ t.policy = .kIdle ∧ isDead t = false) →
      ∃ t, k'.tasks q = some t ∧ t.policy = .kIdle ∧ isDead t = false := by
    rintro q ⟨t, ht, hpol, hdead⟩
    rcases hsame q t ht with ⟨t', ht', hs⟩
    exact ⟨t', ht', hs.policy.trans hpol, hs.isDead.trans hdead⟩
  refine ⟨⟨⟨?_, ?_, ?_, ?_⟩, ?_, ?_⟩, ?_, ?_, ?_, ?_⟩
  · rw [hslot]
    exact h.located
  · intro q s hq
    rcases h.agrees q s hq with ⟨t, ht, ha⟩
    rcases hsame q t ht with ⟨t', ht', hs⟩
    exact ⟨t', ht', hs.agrees ha⟩
  · rw [hwake, hscheds]
    exact h.heap
  · rw [hscheds]
    exact h.kinds
  · intro c q hq
    rw [hidle] at hq
    exact (h.thread c q hq).imp_right (idle_task q)
  · intro c q hq
    rw [hheld] at hq
    rw [hidle]
    exact (h.inHand c q hq).imp_left (idle_task q)
  · rw [hidle]
    exact h.idle_inj
  · intro c q hq
    rw [hrunning] at hq
    rcases h.runs c q hq with ⟨t, ht, hst⟩
    rcases hsame q t ht with ⟨t', ht', hs⟩
    rw [hidle]
    exact ⟨t', ht', by rwa [hs.status]⟩
  · rw [hrunning]
    exact h.runs_inj
  · rw [hrunning, hidle]
    exact h.runs_home

theorem Stable.rewrites (h : Stable B k loc) (hr : Rewrites SameProfile k k') : Stable B k' loc :=
  h.reprofile hr.same hr.free hr.cpuSchedulers hr.perCpu

theorem Stable.congr (h : Stable B k loc) (htasks : k'.tasks = k.tasks)
    (hscheds : k'.cpuSchedulers = k.cpuSchedulers) (hcpu : k'.perCpu = k.perCpu) :
    Stable B k' loc := by
  apply h.reprofile _ _ hscheds hcpu
  · intro p t ht
    rw [htasks]
    exact ⟨t, ht, SameProfile.refl t⟩
  · intro p hp
    rw [htasks]
    exact hp

section Links

def Kernel.next (k : Kernel) (p : Ptr) : Option Ptr := (k.tasks p).bind (·.threadGroupNext)

def Kernel.prev (k : Kernel) (p : Ptr) : Option Ptr := (k.tasks p).bind (·.threadGroupPrev)

theorem Kernel.next_eq (ht : k.tasks p = some t) : k.next p = t.threadGroupNext := by
  rw [Kernel.next, ht]
  rfl

theorem Kernel.prev_eq (ht : k.tasks p = some t) : k.prev p = t.threadGroupPrev := by
  rw [Kernel.prev, ht]
  rfl

theorem Kernel.next_setTask (k : Kernel) (p : Ptr) (t : TaskControlBlock) :
    (k.setTask p t).next = Function.update k.next p t.threadGroupNext := by
  funext q
  by_cases hq : q = p
  · subst hq
    rw [Function.update_self, Kernel.next_eq (k.tasks_setTask_self q t)]
  · rw [Function.update_of_ne hq, Kernel.next, Kernel.next, k.tasks_setTask_ne p t hq]

theorem Kernel.prev_setTask (k : Kernel) (p : Ptr) (t : TaskControlBlock) :
    (k.setTask p t).prev = Function.update k.prev p t.threadGroupPrev := by
  funext q
  by_cases hq : q = p
  · subst hq
    rw [Function.update_self, Kernel.prev_eq (k.tasks_setTask_self q t)]
  · rw [Function.update_of_ne hq, Kernel.prev, Kernel.prev, k.tasks_setTask_ne p t hq]

theorem Kernel.next_congr (h : k'.tasks = k.tasks) : k'.next = k.next := by
  funext q
  rw [Kernel.next, Kernel.next, h]

theorem Kernel.prev_congr (h : k'.tasks = k.tasks) : k'.prev = k.prev := by
  funext q
  rw [Kernel.prev, Kernel.prev, h]

/-- The links of the tasks agree with each other, and so lead to tasks. -/
def Kernel.Grouped (k : Kernel) : Prop := Linked k.next k.prev

theorem Kernel.Grouped.setTask (h : k.Grouped) (ht : k.tasks p = some t)
    (hn : t'.threadGroupNext = t.threadGroupNext) (hp : t'.threadGroupPrev = t.threadGroupPrev) :
    (k.setTask p t').Grouped := by
  rw [Kernel.Grouped, Kernel.next_setTask, Kernel.prev_setTask, hn, hp, ← Kernel.next_eq ht,
    ← Kernel.prev_eq ht, Function.update_eq_self, Function.update_eq_self]
  exact h

theorem Kernel.exists_of_next {q : Ptr} (h : k.next p = some q) : ∃ t, k.tasks p = some t := by
  cases ht : k.tasks p with
  | none =>
    rw [Kernel.next, ht] at h
    cases h
  | some t => exact ⟨t, rfl⟩

theorem Kernel.exists_of_prev {q : Ptr} (h : k.prev p = some q) : ∃ t, k.tasks p = some t := by
  cases ht : k.tasks p with
  | none =>
    rw [Kernel.prev, ht] at h
    cases h
  | some t => exact ⟨t, rfl⟩

theorem wp_updateIf_next {o : Option Ptr} (v : Option Ptr)
    (ho : ∀ q, o = some q → ∃ u, k.tasks q = some u)
    (hQ : ∀ k', Rewrites Regrouped k k' → k'.next = bypass k.next o v → k'.prev = k.prev → Q () k') :
    wp (updateIf o fun u => { u with threadGroupNext := v }) Q E k := by
  cases o with
  | none =>
    rw [updateIf, wp_pure]
    exact hQ k (Rewrites.refl Regrouped.refl k) rfl rfl
  | some q =>
    rcases ho q rfl with ⟨u, hu⟩
    rw [updateIf, wp_updateTask hu]
    refine hQ _ (Rewrites.setTask Regrouped.refl hu rfl) (k.next_setTask q _) ?_
    rw [k.prev_setTask, ← Kernel.prev_eq hu, Function.update_eq_self]

theorem wp_updateIf_prev {o : Option Ptr} (v : Option Ptr)
    (ho : ∀ q, o = some q → ∃ u, k.tasks q = some u)
    (hQ : ∀ k', Rewrites Regrouped k k' → k'.next = k.next → k'.prev = bypass k.prev o v → Q () k') :
    wp (updateIf o fun u => { u with threadGroupPrev := v }) Q E k := by
  cases o with
  | none =>
    rw [updateIf, wp_pure]
    exact hQ k (Rewrites.refl Regrouped.refl k) rfl rfl
  | some q =>
    rcases ho q rfl with ⟨u, hu⟩
    rw [updateIf, wp_updateTask hu]
    refine hQ _ (Rewrites.setTask Regrouped.refl hu rfl) ?_ (k.prev_setTask q _)
    rw [k.next_setTask, ← Kernel.next_eq hu, Function.update_eq_self]

theorem wp_setNext (ht : k.tasks p = some t) (v : Option Ptr)
    (hQ : ∀ k', Rewrites Regrouped k k' → k'.next = Function.update k.next p v → k'.prev = k.prev →
      Q () k') :
    wp (updateTask p fun u => { u with threadGroupNext := v }) Q E k :=
  wp_updateIf_next (o := some p) v (fun _ hq => ⟨t, Option.some.inj hq ▸ ht⟩) hQ

theorem wp_setPrev (ht : k.tasks p = some t) (v : Option Ptr)
    (hQ : ∀ k', Rewrites Regrouped k k' → k'.next = k.next → k'.prev = Function.update k.prev p v →
      Q () k') :
    wp (updateTask p fun u => { u with threadGroupPrev := v }) Q E k :=
  wp_updateIf_prev (o := some p) v (fun _ hq => ⟨t, Option.some.inj hq ▸ ht⟩) hQ

theorem wp_leaveThreadGroup (h : k.Grouped) (ht : k.tasks p = some t)
    (hQ : ∀ k', Rewrites Regrouped k k' →
      k'.next = Function.update (bypass k.next (k.prev p) (k.next p)) p none →
      k'.prev = Function.update (bypass k.prev (k.next p) (k.prev p)) p none → Q () k') :
    wp (leaveThreadGroup p) Q E k := by
  simp only [leaveThreadGroup, wp_bind, wp_readTask ht]
  rw [← Kernel.prev_eq ht, ← Kernel.next_eq ht]
  refine wp_updateIf_next _ (fun q hq => Kernel.exists_of_next ((h q p).mpr hq)) ?_
  intro k₁ hr₁ hn₁ hp₁
  rcases hr₁.same p t ht with ⟨t₁, ht₁, -⟩
  have hnext : t₁.threadGroupNext = k.next p := by
    rw [← Kernel.next_eq ht₁, hn₁, bypass_eq, ite_self]
  have hprev : t₁.threadGroupPrev = k.prev p := by rw [← Kernel.prev_eq ht₁, hp₁]
  rw [wp_readTask ht₁, hnext, hprev]
  refine wp_updateIf_prev _ ?_ ?_
  · intro q hq
    rcases Kernel.exists_of_prev ((h p q).mp hq) with ⟨u, hu⟩
    exact (hr₁.same q u hu).imp (fun _ hu' => hu'.1)
  · intro k₂ hr₂ hn₂ hp₂
    rcases hr₂.same p t₁ ht₁ with ⟨t₂, ht₂, -⟩
    rw [wp_updateTask ht₂]
    have hr₃ : Rewrites Regrouped k₂ (k₂.setTask p { t₂ with
        threadGroupPrev := none, threadGroupNext := none }) :=
      Rewrites.setTask Regrouped.refl ht₂ rfl
    refine hQ _ ((hr₁.trans hr₂ Regrouped.trans).trans hr₃ Regrouped.trans) ?_ ?_
    · rw [Kernel.next_setTask, hn₂, hn₁]
    · rw [Kernel.prev_setTask, hp₂, hp₁]

theorem Kernel.Grouped.left (h : k.Grouped)
    (hn : k'.next = Function.update (bypass k.next (k.prev p) (k.next p)) p none)
    (hp : k'.prev = Function.update (bypass k.prev (k.next p) (k.prev p)) p none) :
    k'.Grouped := by
  rw [Kernel.Grouped, hn, hp]
  exact h.remove p

section Partial

theorem wp_readTask_tolerant {Q : TaskControlBlock → Kernel → Prop}
    (hQ : ∀ t, k.tasks p = some t → Q t k) : wp (readTask p) Q (fun _ _ => True) k := by
  cases ht : k.tasks p with
  | none => exact (wp_readTask_none ht).mpr trivial
  | some t => exact (wp_readTask ht).mpr (hQ t ht)

theorem Rewrites.wp_updateTask (h : Rewrites Regrouped k k') {f : TaskControlBlock → TaskControlBlock}
    (hf : ∀ t, Regrouped t (f t)) :
    wp (updateTask p f) (fun _ k'' => Rewrites Regrouped k k'') (fun _ _ => True) k' := by
  cases ht : k'.tasks p with
  | none => exact (wp_updateTask_none ht).mpr trivial
  | some t =>
    rw [Task.wp_updateTask ht]
    exact h.trans (Rewrites.setTask Regrouped.refl ht (hf t)) Regrouped.trans

theorem Rewrites.wp_updateIf (h : Rewrites Regrouped k k') {o : Option Ptr}
    {f : TaskControlBlock → TaskControlBlock} (hf : ∀ t, Regrouped t (f t)) :
    wp (updateIf o f) (fun _ k'' => Rewrites Regrouped k k'') (fun _ _ => True) k' := by
  cases o with
  | none => exact (wp_pure _).mpr h
  | some q => exact h.wp_updateTask hf

/-- Leaving the group changes only links, whatever they are. -/
theorem wp_leaveThreadGroup_tolerant :
    wp (leaveThreadGroup p) (fun _ k' => Rewrites Regrouped k k') (fun _ _ => True) k := by
  simp only [leaveThreadGroup, wp_bind]
  refine wp_readTask_tolerant (fun _ _ => ?_)
  have h₀ : Rewrites Regrouped k k := Rewrites.refl Regrouped.refl k
  refine wp_mono (h₀.wp_updateIf (fun _ => rfl)) ?_ (fun _ _ h => h)
  intro _ k₁ h₁
  refine wp_readTask_tolerant (fun _ _ => ?_)
  refine wp_mono (h₁.wp_updateIf (fun _ => rfl)) ?_ (fun _ _ h => h)
  intro _ k₂ h₂
  exact h₂.wp_updateTask (fun _ => rfl)

end Partial

theorem wp_joinThreadGroup (h : k.Grouped) {leader : Ptr} {l : TaskControlBlock} (hne : leader ≠ p)
    (hl : k.tasks leader = some l) (ht : k.tasks p = some t) (hnext : t.threadGroupNext = none)
    (hQ : ∀ k', Rewrites Regrouped (k.setTask p { t with tgid := l.tgid }) k' →
      k'.next = Function.update (Function.update k.next p (k.next leader)) leader (some p) →
      k'.prev = Function.update (bypass k.prev (k.next leader) (some p)) p (some leader) →
      Q () k') :
    wp (joinThreadGroup p leader) Q E k := by
  simp only [joinThreadGroup, wp_bind, wp_ite, if_neg hne]
  rw [wp_readTask hl, wp_updateTask ht]
  set k₁ := k.setTask p { t with tgid := l.tgid } with hk₁
  have hn₁ : k₁.next = k.next := by
    rw [hk₁, Kernel.next_setTask, ← Kernel.next_eq ht, Function.update_eq_self]
  have hp₁ : k₁.prev = k.prev := by
    rw [hk₁, Kernel.prev_setTask, ← Kernel.prev_eq ht, Function.update_eq_self]
  have ht₁ : k₁.tasks p = some { t with tgid := l.tgid } := k.tasks_setTask_self p _
  have hl₁ : k₁.tasks leader = some l := (k.tasks_setTask_ne p _ hne).trans hl
  -- the last two writes, once the old successor points back to the task
  have finish : ∀ k₂, Rewrites Regrouped k₁ k₂ →
      k₂.next = Function.update k.next p (k.next leader) →
      k₂.prev = bypass k.prev (k.next leader) (some p) →
      wp (updateTask leader fun u => { u with threadGroupNext := some p })
        (fun _ k₃ => wp (updateTask p fun u => { u with threadGroupPrev := some leader }) Q E k₃)
        E k₂ := by
    intro k₂ hr₂ hn₂ hp₂
    rcases hr₂.same leader l hl₁ with ⟨l₂, hl₂, -⟩
    refine wp_setNext hl₂ _ ?_
    intro k₃ hr₃ hn₃ hp₃
    have hr := hr₂.trans hr₃ Regrouped.trans
    rcases hr.same p _ ht₁ with ⟨t₃, ht₃, -⟩
    refine wp_setPrev ht₃ _ ?_
    intro k₄ hr₄ hn₄ hp₄
    refine hQ k₄ (hr.trans hr₄ Regrouped.trans) ?_ ?_
    · rw [hn₄, hn₃, hn₂]
    · rw [hp₄, hp₃, hp₂]
  rw [← Kernel.next_eq hl]
  split
  · refine wp_setNext ht₁ _ ?_
    intro k₂ hr₂ hn₂ hp₂
    refine wp_updateIf_prev _ ?_ ?_
    · intro q hq
      rcases Kernel.exists_of_prev ((h leader q).mp hq) with ⟨u, hu⟩
      by_cases hqp : q = p
      · subst hqp
        rcases hr₂.same q _ ht₁ with ⟨u', hu', -⟩
        exact ⟨u', hu'⟩
      · rcases hr₂.same q u ((k.tasks_setTask_ne p _ hqp).trans hu) with ⟨u', hu', -⟩
        exact ⟨u', hu'⟩
    · intro k₃ hr₃ hn₃ hp₃
      refine finish k₃ (hr₂.trans hr₃ Regrouped.trans) ?_ ?_
      · rw [hn₃, hn₂, hn₁]
      · rw [hp₃, hp₂, hp₁]
  · rename_i hnone
    have hnone' : k.next leader = none := by simpa using hnone
    refine finish k₁ (Rewrites.refl Regrouped.refl k₁) ?_ ?_
    · rw [hn₁, hnone', ← hnext, ← Kernel.next_eq ht, Function.update_eq_self]
    · rw [hp₁, hnone']
      rfl

end Links

section Parents

/-- Only the parent of the task has changed. -/
def Readopted (t t' : TaskControlBlock) : Prop := t' = { t with parentPid := t'.parentPid }

theorem Readopted.refl (t : TaskControlBlock) : Readopted t t := rfl

theorem Readopted.trans (t t' t'' : TaskControlBlock) (h : Readopted t t') (h' : Readopted t' t'') :
    Readopted t t'' := by
  rw [Readopted] at *
  rw [h', h]

theorem Rewrites.next_of_readopted (h : Rewrites Readopted k k') : k'.next = k.next := by
  funext q
  cases hq : k.tasks q with
  | none => rw [Kernel.next, Kernel.next, hq, h.free q hq]
  | some t =>
    rcases h.same q t hq with ⟨t', ht', hr⟩
    rw [Kernel.next_eq hq, Kernel.next_eq ht', hr]

theorem Rewrites.prev_of_readopted (h : Rewrites Readopted k k') : k'.prev = k.prev := by
  funext q
  cases hq : k.tasks q with
  | none => rw [Kernel.prev, Kernel.prev, hq, h.free q hq]
  | some t =>
    rcases h.same q t hq with ⟨t', ht', hr⟩
    rw [Kernel.prev_eq hq, Kernel.prev_eq ht', hr]

/-- The parent of a task after the children of `parent` in the table have gone to the
init task. -/
def adoptedParent (parent : Pid) (table : List (Pid × Ptr)) (p : Ptr) (t : TaskControlBlock) : Pid :=
  if t.parentPid = parent ∧ p ∈ table.map Prod.snd then kInitPid else t.parentPid

theorem adoptedParent_cons_ne (parent : Pid) (table : List (Pid × Ptr)) (t : TaskControlBlock)
    {e : Pid × Ptr} (hp : p ≠ e.2) :
    adoptedParent parent (e :: table) p t = adoptedParent parent table p t := by
  simp [adoptedParent, hp]

/-- An entry of the table without a control block must be a tolerated fault. -/
theorem wp_reparent (parent : Pid) (table : List (Pid × Ptr))
    (h : ∀ e ∈ table, k.tasks e.2 = none → ∀ k', E (.useAfterFree e.2) k')
    (hQ : ∀ k', Rewrites Readopted k k' → (∀ p t, k.tasks p = some t → ∃ t', k'.tasks p = some t' ∧
      t'.parentPid = adoptedParent parent table p t) → Q () k') :
    wp (reparent parent table : KernelM Unit) Q E k := by
  induction table generalizing k with
  | nil =>
    rw [reparent, wp_pure]
    exact hQ k (Rewrites.refl Readopted.refl k)
      (fun p t ht => ⟨t, ht, by rw [adoptedParent, if_neg (fun hc => by cases hc.2)]⟩)
  | cons e rest ih =>
    cases ht : k.tasks e.2 with
    | none =>
      simp only [reparent, run_kernelM, wp_bind, wp_readTask_none ht]
      exact h e List.mem_cons_self ht k
    | some t =>
    have hrest : ∀ {k₁}, Rewrites Readopted k k₁ → ∀ e' ∈ rest, k₁.tasks e'.2 = none →
        ∀ k', E (.useAfterFree e'.2) k' := by
      intro k₁ hr e' he' hn
      cases hu : k.tasks e'.2 with
      | none => exact h e' (List.mem_cons_of_mem e he') hu
      | some u =>
        rcases hr.same e'.2 u hu with ⟨u', hu', -⟩
        cases hn.symm.trans hu'
    simp only [reparent, run_kernelM, klog_kernelM, wp_bind, wp_readTask ht, wp_ite,
      wp_updateTask ht, wp_pure]
    split
    · rename_i heq
      have hr : Rewrites Readopted k (k.setTask e.2 { t with parentPid := kInitPid }) :=
        Rewrites.setTask Readopted.refl ht rfl
      refine ih (hrest hr) ?_
      intro k' hr' hpar
      refine hQ k' (hr.trans hr' Readopted.trans) ?_
      intro p u hu
      by_cases hp : p = e.2
      · subst hp
        obtain rfl := Option.mem_unique ht hu
        rcases hpar e.2 _ (k.tasks_setTask_self e.2 _) with ⟨u', hu', hpid⟩
        have hinit : adoptedParent parent rest e.2 { t with parentPid := kInitPid } = kInitPid :=
          ite_self _
        have hgoal : adoptedParent parent (e :: rest) e.2 t = kInitPid := if_pos ⟨heq, by simp⟩
        exact ⟨u', hu', by rw [hpid, hinit, hgoal]⟩
      · rcases hpar p u (by rw [k.tasks_setTask_ne e.2 _ hp, hu]) with ⟨u', hu', hpid⟩
        exact ⟨u', hu', by rw [hpid, adoptedParent_cons_ne parent rest u hp]⟩
    · rename_i hne
      refine ih (hrest (Rewrites.refl Readopted.refl k)) ?_
      intro k' hr' hpar
      refine hQ k' hr' ?_
      intro p u hu
      rcases hpar p u hu with ⟨u', hu', hpid⟩
      refine ⟨u', hu', ?_⟩
      by_cases hp : p = e.2
      · subst hp
        obtain rfl := Option.mem_unique ht hu
        rw [hpid, adoptedParent, adoptedParent, if_neg (fun hc => hne hc.1),
          if_neg (fun hc => hne hc.1)]
      · rw [hpid, adoptedParent_cons_ne parent rest u hp]

/-- The parent that an exiting task has when it looks for one: a thread-group leader has
first handed its children in the table to the init task, itself included. -/
def Kernel.exitParent (k : Kernel) (p : Ptr) (t : TaskControlBlock) : Pid :=
  if t.isThreadGroupLeader then adoptedParent t.pid k.taskTable p t else t.parentPid

/-- The parent of `q` when the task with block `t` has left its family. -/
def Kernel.inherited (k : Kernel) (t : TaskControlBlock) (q : Ptr) (u : TaskControlBlock) : Pid :=
  if t.isThreadGroupLeader then adoptedParent t.pid k.taskTable q u else u.parentPid

/-- A task gets a new parent only as a child of a leader. -/
theorem Kernel.inherited_eq_or (k : Kernel) (t : TaskControlBlock) (q : Ptr) (u : TaskControlBlock) :
    k.inherited t q u = u.parentPid ∨
      k.inherited t q u = kInitPid ∧ t.isThreadGroupLeader = true ∧ u.parentPid = t.pid := by
  rw [Kernel.inherited]
  split
  · rename_i hleader
    rw [adoptedParent]
    split
    · rename_i hchild
      exact Or.inr ⟨rfl, hleader, hchild.1⟩
    · exact Or.inl rfl
  · exact Or.inl rfl

/-- The task with block `t` has left its thread group, and its children have gone to the init
task when it was a leader. -/
structure LeftFamily (t : TaskControlBlock) (k k' : Kernel) : Prop where
  same : ∀ q u, k.tasks q = some u → ∃ u', k'.tasks q = some u' ∧ u' = { u with
    parentPid := k.inherited t q u
    threadGroupNext := u'.threadGroupNext
    threadGroupPrev := u'.threadGroupPrev }
  free : ∀ q, k.tasks q = none → k'.tasks q = none
  grouped : k'.Grouped
  rest : k' = { k with tasks := k'.tasks }

theorem wp_leaveFamily (hg : k.Grouped) (hentries : ∀ e ∈ k.taskTable, ∃ u, k.tasks e.2 = some u)
    (ht : k.tasks p = some t)
    (hQ : ∀ k', LeftFamily t k k' →
      k'.next = Function.update (bypass k.next (k.prev p) (k.next p)) p none →
      k'.prev = Function.update (bypass k.prev (k.next p) (k.prev p)) p none → Q () k') :
    wp (leaveFamily p : KernelM Unit) Q E k := by
  simp only [leaveFamily, run_kernelM, klog_kernelM, ite_self, wp_bind, wp_readTask ht, wp_pure,
    wp_ite]
  refine wp_leaveThreadGroup hg ht ?_
  intro k₁ hr hn hp
  have hg₁ : k₁.Grouped := hg.left hn hp
  split
  · rename_i hleader
    rcases hr.same p t ht with ⟨t₁, ht₁, hreg⟩
    have hentries₁ : ∀ e ∈ k₁.taskTable, k₁.tasks e.2 = none → ∀ k', E (.useAfterFree e.2) k' := by
      intro e he hnone
      rw [hr.taskTable] at he
      rcases hentries e he with ⟨u, hu⟩
      rcases hr.same e.2 u hu with ⟨u₁, hu₁, -⟩
      cases hnone.symm.trans hu₁
    simp only [reparentChildren, run_kernelM, lockGuard_kernelM, wp_bind, wp_readTask ht₁, wp_get,
      wp_pure]
    refine wp_reparent t₁.pid k₁.taskTable hentries₁ ?_
    intro k₂ hr₂ hpar
    refine hQ k₂ ⟨?_, fun q hq => hr₂.free q (hr.free q hq), ?_, by rw [hr₂.rest, hr.rest]⟩
      (hr₂.next_of_readopted.trans hn) (hr₂.prev_of_readopted.trans hp)
    · intro q u hu
      rcases hr.same q u hu with ⟨u₁, hu₁, hru⟩
      rcases hr₂.same q u₁ hu₁ with ⟨u₂, hu₂, hra⟩
      rcases hpar q u₁ hu₁ with ⟨u₂', hu₂', hpid⟩
      obtain rfl := Option.mem_unique hu₂ hu₂'
      refine ⟨u₂, hu₂, ?_⟩
      have hinh : u₂.parentPid = k.inherited t q u := by
        rw [hpid, Kernel.inherited, if_pos hleader, hr.taskTable, hreg, hru]
        rfl
      rw [← hinh, hra, hru]
    · rw [Kernel.Grouped, hr₂.next_of_readopted, hr₂.prev_of_readopted]
      exact hg₁
  · rename_i hleader
    refine hQ k₁ ⟨?_, hr.free, hg₁, hr.rest⟩ hn hp
    intro q u hu
    rcases hr.same q u hu with ⟨u₁, hu₁, hru⟩
    rw [Kernel.inherited, if_neg hleader]
    exact ⟨u₁, hu₁, hru⟩

end Parents

/-- A control block that nothing uses any more has been deleted. -/
structure Deleted (p : Ptr) (t : TaskControlBlock) (k k' : Kernel) : Prop where
  gone : k'.tasks p = none
  same : ∀ q, q ≠ p → ∀ u, k.tasks q = some u → ∃ u', k'.tasks q = some u' ∧ Regrouped u u'
  free : ∀ q, k.tasks q = none → k'.tasks q = none
  next : k'.next = Function.update (bypass k.next (k.prev p) (k.next p)) p none
  prev : k'.prev = Function.update (bypass k.prev (k.next p) (k.prev p)) p none
  rest : k' = { k with
    tasks := k'.tasks
    vm := releaseMemory t k.vm
    deletions := ⟨p, k.perCpu, k.cpuSchedulers⟩ :: k.deletions }

namespace Deleted

theorem grouped (h : Deleted p t k k') (hg : k.Grouped) : k'.Grouped := hg.left h.next h.prev

theorem back (h : Deleted p t k k') {q : Ptr} {u' : TaskControlBlock} (hu' : k'.tasks q = some u') :
    ∃ u, k.tasks q = some u ∧ Regrouped u u' := by
  have hq : q ≠ p := by
    rintro rfl
    cases h.gone.symm.trans hu'
  exact exists_before (h.same q hq) (h.free q) hu'

theorem cpuSchedulers (h : Deleted p t k k') : k'.cpuSchedulers = k.cpuSchedulers := by rw [h.rest]

theorem perCpu (h : Deleted p t k k') : k'.perCpu = k.perCpu := by rw [h.rest]

theorem taskTable (h : Deleted p t k k') : k'.taskTable = k.taskTable := by rw [h.rest]

theorem deletions (h : Deleted p t k k') :
    k'.deletions = ⟨p, k.perCpu, k.cpuSchedulers⟩ :: k.deletions := by rw [h.rest]

end Deleted

theorem wp_deleteTask (h : Stable B k loc) (hg : k.Grouped) (hu : Unused k loc p)
    (ht : k.tasks p = some t)
    (hQ : ∀ k', Stable B k' loc → Deleted p t k k' → Q () k') : wp (deleteTask p) Q E k := by
  simp only [deleteTask, wp_bind, wp_get, ht]
  refine wp_leaveThreadGroup hg ht ?_
  intro k₁ hr hn hp
  rcases hr.same p t ht with ⟨t₁, ht₁, hreg⟩
  rw [wp_readTask ht₁, wp_modify]
  have h₁ : Stable B k₁ loc := h.rewrites (hr.mono (fun _ _ => Regrouped.profile))
  have hu₁ : Unused k₁ loc p := hu.congr hr.cpuSchedulers hr.perCpu
  set k₂ : Kernel := { k₁ with
    vm := releaseMemory t₁ k₁.vm
    tasks := Function.update k₁.tasks p none
    deletions := ⟨p, k₁.perCpu, k₁.cpuSchedulers⟩ :: k₁.deletions } with hk₂
  have hself : k₂.tasks p = none := Function.update_self _ _ _
  have hne : ∀ q, q ≠ p → k₂.tasks q = k₁.tasks q := fun q hq => Function.update_of_ne hq _ _
  refine hQ k₂ (h₁.updateUnused hu₁ none rfl rfl rfl) ⟨hself, ?_, ?_, ?_, ?_, ?_⟩
  · intro q hq u hu
    rcases hr.same q u hu with ⟨u', hu', hreg⟩
    exact ⟨u', (hne q hq).trans hu', hreg⟩
  · intro q hq
    by_cases hqp : q = p
    · rw [hqp, hself]
    · exact (hne q hqp).trans (hr.free q hq)
  · rw [← hn]
    funext q
    by_cases hqp : q = p
    · rw [hqp, hn, Function.update_self, Kernel.next, hself]
      rfl
    · rw [Kernel.next, Kernel.next, hne q hqp]
  · rw [← hp]
    funext q
    by_cases hqp : q = p
    · rw [hqp, hp, Function.update_self, Kernel.prev, hself]
      rfl
    · rw [Kernel.prev, Kernel.prev, hne q hqp]
  · -- the links are not among the fields that the destructor reads
    have hmem : releaseMemory t₁ k₁.vm = releaseMemory t k.vm := by
      rw [hreg, hr.rest]
      rfl
    rw [hk₂, hmem, hr.rest]

end NaiLongKernel.Task
