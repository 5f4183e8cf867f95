import NaiLongKernel.Task.Waiting

/-!
# Cores between operations

`Stable` holds when no core is inside an operation: every core runs a task of its own,
which is `kRunning` or the idle thread of that core. A core inside an operation is
listed as busy, and its task may have any status. The operations that only schedule are
proved once, for every invariant that is closed under their effects.
-/
namespace NaiLongKernel.Task

open Foundation

/-- Every core that is not busy runs a task, and no two cores run the same one. -/
structure Stable (busy : Set CoreId) (k : Kernel) (loc : Ptr → Option Slot) : Prop
    extends Sound k loc where
  idle_inj : ∀ c c' p, k.idle c = some p → k.idle c' = some p → c = c'
  runs : ∀ c p, k.running c = some p → ∃ t, k.tasks p = some t ∧
    (c ∉ busy → t.status = .kRunning ∨ k.idle c = some p)
  runs_inj : ∀ c c' p, k.running c = some p → k.running c' = some p → c = c'
  runs_home : ∀ c c' p, k.running c = some p → k.idle c' = some p → c = c'

variable {k k' : Kernel} {loc loc' : Ptr → Option Slot} {p : Ptr} {t t' : TaskControlBlock}
  {c : CoreId} {B B' : Set CoreId} {X : Set Ptr}

namespace Stable

/-- The task of a core that is not busy is in no queue. -/
theorem loc_running (h : Stable B k loc) (hc : c ∉ B) (hrun : k.running c = some p) :
    loc p = none := by
  rcases h.runs c p hrun with ⟨t, ht, hst⟩
  rcases hst hc with hr | hi
  · exact h.loc_of_running ht hr
  · exact (h.thread c p hi).1

theorem keep (h : Stable B k loc) (hs : Sound k' loc') (ho : Only c X k k')
    (hrunning : k'.running = k.running) (hB : ∀ c', c' ∉ B' → c' ∉ B)
    (hst : ∀ c' q u u', c' ∉ B' → k.running c' = some q → k.tasks q = some u →
      k'.tasks q = some u' → u.status = .kRunning → u'.status = .kRunning) :
    Stable B' k' loc' := by
  refine { hs with idle_inj := ?_, runs := ?_, runs_inj := ?_, runs_home := ?_ }
  · rw [ho.idle]
    exact h.idle_inj
  · intro c' q hq
    rw [hrunning] at hq
    rcases h.runs c' q hq with ⟨u, hu, hrun⟩
    rcases ho.same q u hu with ⟨u', hu', -⟩
    refine ⟨u', hu', ?_⟩
    intro hc
    rw [ho.idle]
    exact (hrun (hB c' hc)).imp_left (hst c' q u u' hc hq hu hu')
  · rw [hrunning]
    exact h.runs_inj
  · rw [hrunning, ho.idle]
    exact h.runs_home

theorem awakened {s : Slot} (h : Stable B k loc) (ha : Awakened s k loc k' loc') :
    Stable B k' loc' := by
  refine h.keep ha.sound ha.only ha.running (fun _ hc => hc) ?_
  intro c' q u u' hc hq hu hu' hr
  have hne : loc q ≠ some s := by
    rw [h.loc_running hc hq]
    exact nofun
  rw [ha.only.tasks q hne, hu] at hu'
  exact Option.some.inj hu' ▸ hr

theorem charged (h : Stable B k loc) (hch : Charged c loc k k') : Stable B k' loc := by
  refine h.keep hch.sound hch.only hch.running (fun _ hc => hc) ?_
  intro c' q u u' hc hq hu hu' hr
  rcases hch.status q u hu with ⟨v, hv, hst⟩
  rw [← Option.mem_unique hv hu', hst, hr]

theorem suspended {s : Slot} (h : Stable ∅ k loc) (hrun : k.running s.core = some p)
    (hs : Suspended p s k loc k' loc') : Stable {s.core} k' loc' := by
  refine h.keep hs.sound hs.only hs.running (fun _ _ => Set.notMem_empty _) ?_
  intro c' q u u' hc hq hu hu' hr
  have hne : q ≠ p := by
    rintro rfl
    exact hc (h.runs_inj c' s.core q hq hrun)
  rw [hs.only.tasks q hne, hu] at hu'
  exact Option.some.inj hu' ▸ hr

theorem enqueued {policy : SchedPolicy} (h : Stable B k loc) (hr : ∀ c', k.running c' ≠ some p)
    (he : Enqueued c p policy k loc k' loc') : Stable B k' loc' := by
  refine h.keep he.sound he.only he.running (fun _ hc => hc) ?_
  intro c' q u u' _ hq hu hu' hst
  have hne : q ≠ p := fun heq => hr c' (heq ▸ hq)
  rw [he.only.tasks q hne, hu] at hu'
  exact Option.some.inj hu' ▸ hst

theorem candidate (h : Stable {c} k loc) {next : Ptr} (hn : k.Candidate loc c next) :
    (∀ c', k.running c' = some next → c' = c) ∧ ∀ c', k.idle c' = some next → c' = c := by
  rcases hn with hi | ⟨u, hu, hready, hfrom⟩
  · exact ⟨fun c' hr => h.runs_home c' c next hr hi, fun c' hi' => h.idle_inj c' c next hi' hi⟩
  · have hidle : ∀ c', k.idle c' = some next → c' = c := by
      intro c' hi
      rcases hfrom with ⟨policy, hl⟩ | hheld
      · rw [(h.thread c' next hi).1] at hl
        cases hl
      · exact (h.inHand c next hheld).2 c' hi
    refine ⟨?_, hidle⟩
    intro c' hr
    by_contra hc
    rcases h.runs c' next hr with ⟨v, hv, hst⟩
    rcases hst hc with hrunning | hi
    · rw [← Option.mem_unique hu hv, hready] at hrunning
      cases hrunning
    · exact hc (hidle c' hi)

theorem scheduled (h : Stable {c} k loc) {current next : Ptr} (hrun : k.running c = some current)
    (hs : Scheduled c current t next k loc k' loc') : Stable ∅ k' loc' := by
  have hnext : (∀ c', k.running c' = some next → c' = c) ∧ ∀ c', k.idle c' = some next → c' = c := by
    rcases hs.source with rfl | hn
    · exact ⟨fun c' hr => h.runs_inj c' c next hr hrun,
        fun c' hi => (h.runs_home c c' next hrun hi).symm⟩
    · exact h.candidate hn
  refine { hs.sound with idle_inj := ?_, runs := ?_, runs_inj := ?_, runs_home := ?_ }
  · rw [hs.only.idle]
    exact h.idle_inj
  · intro c' q hq
    by_cases hc : c' = c
    · subst hc
      rw [hs.running] at hq
      rcases hs.next_running with ⟨u, hu, hst⟩
      cases hq
      exact ⟨u, hu, fun _ => Or.inl hst⟩
    · rw [hs.only.running c' hc] at hq
      rcases h.runs c' q hq with ⟨u, hu, hst⟩
      have hq' : q ∉ ({current, next} : Set Ptr) := by
        rintro (rfl | rfl)
        · exact hc (h.runs_inj c' c q hq hrun)
        · exact hc (hnext.1 c' hq)
      rw [hs.only.tasks q hq', hs.only.idle]
      exact ⟨u, hu, fun _ => hst hc⟩
  · intro c₁ c₂ q h₁ h₂
    by_cases hc₁ : c₁ = c <;> by_cases hc₂ : c₂ = c
    · rw [hc₁, hc₂]
    · subst hc₁
      rw [hs.running] at h₁
      rw [hs.only.running c₂ hc₂] at h₂
      cases h₁
      exact absurd (hnext.1 c₂ h₂) hc₂
    · subst hc₂
      rw [hs.running] at h₂
      rw [hs.only.running c₁ hc₁] at h₁
      cases h₂
      exact absurd (hnext.1 c₁ h₁) hc₁
    · rw [hs.only.running c₁ hc₁] at h₁
      rw [hs.only.running c₂ hc₂] at h₂
      exact h.runs_inj c₁ c₂ q h₁ h₂
  · intro c₁ c₂ q h₁ h₂
    rw [hs.only.idle] at h₂
    by_cases hc₁ : c₁ = c
    · subst hc₁
      rw [hs.running] at h₁
      cases h₁
      exact (hnext.2 c₂ h₂).symm
    · rw [hs.only.running c₁ hc₁] at h₁
      exact h.runs_home c₁ c₂ q h₁ h₂

theorem mono (h : Stable B k loc) (hB : B ⊆ B') : Stable B' k loc := by
  refine { h.toSound with
    idle_inj := h.idle_inj, runs := ?_, runs_inj := h.runs_inj, runs_home := h.runs_home }
  intro c p hr
  rcases h.runs c p hr with ⟨t, ht, hst⟩
  exact ⟨t, ht, fun hc => hst (fun hb => hc (hB hb))⟩

theorem busy (h : Stable ∅ k loc) (c : CoreId) : Stable {c} k loc := h.mono (Set.empty_subset _)

/-- A task that is not an idle thread has status `kRunning` when it runs. -/
theorem running_of_ne_idle (h : Stable ∅ k loc) (hrun : k.running c = some p)
    (hidle : k.idle c ≠ some p) : ∃ t, k.tasks p = some t ∧ t.status = .kRunning := by
  rcases h.runs c p hrun with ⟨t, ht, hst⟩
  exact ⟨t, ht, (hst (Set.notMem_empty c)).resolve_right hidle⟩

theorem ne_idle (h : Stable B k loc) (hrun : k.running c = some p) (hidle : k.idle c ≠ some p)
    (c' : CoreId) : k.idle c' ≠ some p := by
  intro hi
  obtain rfl := h.runs_home c c' p hrun hi
  exact hidle hi

end Stable

theorem Stable.empty : Stable ∅ {} (fun _ => none) := by
  refine ⟨⟨⟨⟨?_, ?_⟩, ?_, ?_, ?_⟩, ?_, ?_⟩, ?_, ?_, ?_, ?_⟩
  · intro s
    cases s <;> exact List.nodup_nil
  · intro s q
    cases s <;> simp [Kernel.slot, Slot.content]
  · intro q s hq
    cases hq
  · intro c
    exact isHeap_nil _
  · intro c policy s hs
    cases hs
  all_goals intros; rename_i h; cases h

/-- An invariant of core `c` that scheduling, waiting in one of the queues `S` and waking
keep; `E` describes the states in which a core stops for good. -/
structure Closed (c : CoreId) (S : Set Slot) (I : Kernel → (Ptr → Option Slot) → Prop)
    (E : Fault → Kernel → Prop) : Prop where
  scheduled : ∀ {k loc k' loc' current next t}, Stable {c} k loc → I k loc →
    k.running c = some current → k.tasks current = some t →
    Scheduled c current t next k loc k' loc' → I k' loc'
  awakened : ∀ {s k loc k' loc'}, s.core = c → Sound k loc → I k loc →
    Awakened s k loc k' loc' → I k' loc'
  charged : ∀ {k loc k'}, I k loc → Charged c loc k k' → I k' loc
  suspended : ∀ {p s k loc k' loc'}, s ∈ S → s.core = c → I k loc → k.running c = some p →
    k.idle c ≠ some p → Suspended p s k loc k' loc' → I k' loc'
  parked : ∀ {k loc k' X}, I k loc → k.idle c = none → Only c X k k' → E .parked k'
  diverges : ∀ {k loc k' X p u current t}, I k loc → k.running c = some current →
    k.tasks current = some t → k.held c = some p → (p = current → t.status ≠ .kRunning) →
    k.tasks p = some u → u.status ≠ .kReady → Only c X k k' → E .diverges k'
  noScheduler : ∀ {k loc k' X policy}, I k loc → (k.cpuSchedulers c).schedulers policy = none →
    Only c X k k' → E (.assertFailed "Wakeup: scheduler must not be null") k'

namespace Closed

variable {S : Set Slot} {I : Kernel → (Ptr → Option Slot) → Prop} {E : Fault → Kernel → Prop}

theorem and {S' : Set Slot} {I' : Kernel → (Ptr → Option Slot) → Prop} {E' : Fault → Kernel → Prop}
    (h : Closed c S I E) (h' : Closed c S' I' E') :
    Closed c (S ∩ S') (fun k loc => I k loc ∧ I' k loc) (fun e k => E e k ∧ E' e k) where
  scheduled hst hi hrun ht hs := ⟨h.scheduled hst hi.1 hrun ht hs, h'.scheduled hst hi.2 hrun ht hs⟩
  awakened hc hs hi ha := ⟨h.awakened hc hs hi.1 ha, h'.awakened hc hs hi.2 ha⟩
  charged hi hch := ⟨h.charged hi.1 hch, h'.charged hi.2 hch⟩
  suspended hS hc hi hrun hidle hs :=
    ⟨h.suspended hS.1 hc hi.1 hrun hidle hs, h'.suspended hS.2 hc hi.2 hrun hidle hs⟩
  parked hi hidle ho := ⟨h.parked hi.1 hidle ho, h'.parked hi.2 hidle ho⟩
  diverges hi hrun ht hheld hne hu hnr ho :=
    ⟨h.diverges hi.1 hrun ht hheld hne hu hnr ho, h'.diverges hi.2 hrun ht hheld hne hu hnr ho⟩
  noScheduler hi hnone ho := ⟨h.noScheduler hi.1 hnone ho, h'.noScheduler hi.2 hnone ho⟩

theorem wp_schedule (hI : Closed c S I E) (h : Stable {c} k loc) (hi : I k loc)
    (hrun : k.running c = some p)
    (hcur : ∀ t, k.tasks p = some t → t.status = .kReady → loc p = none) :
    wp (schedule c) (fun _ k' => ∃ loc', Stable ∅ k' loc' ∧ I k' loc') E k := by
  rcases h.runs c p hrun with ⟨t, ht, -⟩
  refine Task.wp_schedule h.toSound hrun ht (hcur t ht) ?_ ?_ ?_
  · intro next k' loc' hs
    exact ⟨loc', h.scheduled hrun hs, hI.scheduled h hi hrun ht hs⟩
  · intro hnone k' ho
    exact hI.parked hi hnone ho
  · intro q u hheld hne hu hnr k' ho
    exact hI.diverges hi hrun ht hheld hne hu hnr ho

theorem wp_schedule_stable (hI : Closed c S I E) (h : Stable ∅ k loc) (hi : I k loc)
    (hrun : k.running c = some p) :
    wp (schedule c) (fun _ k' => ∃ loc', Stable ∅ k' loc' ∧ I k' loc') E k :=
  hI.wp_schedule (h.busy c) hi hrun (fun _ _ _ => h.loc_running (Set.notMem_empty c) hrun)

/-- `Schedule` after the current task has gone to wait. -/
theorem wp_schedule_suspended (hI : Closed c S I E) (h : Stable ∅ k loc) (hi : I k loc)
    (hrun : k.running c = some p) (hidle : k.idle c ≠ some p) {s : Slot} (hS : s ∈ S)
    (hc : s.core = c) (hs : Suspended p s k loc k' loc') (hwait : ∀ policy, s ≠ .ready c policy) :
    wp (schedule c) (fun _ k' => ∃ loc', Stable ∅ k' loc' ∧ I k' loc') E k' := by
  subst hc
  refine hI.wp_schedule (h.suspended hrun hs) (hI.suspended hS rfl hi hrun hidle hs)
    (by rw [hs.running, hrun]) ?_
  intro t ht hready
  -- a waiting task is not ready
  rcases hs.sound.agrees p s hs.loc_self with ⟨u, hu, hag⟩
  obtain rfl := Option.mem_unique ht hu
  cases s with
  | ready c policy => exact absurd rfl (hwait policy)
  | sleeping c => cases hready.symm.trans hag
  | blocked c r => cases hready.symm.trans hag.1

variable (P : Platform)

/-- A tick leaves the current task as it is, unless it ends with `Schedule`. -/
theorem wp_tickUpdate_stages (hI : Closed c S I E) (h : Stable B k loc) (hi : I k loc)
    (hrun : k.running c = some p) (ht : k.tasks p = some t) (hawake : loc p ≠ some (.sleeping c))
    {Q : Unit → Kernel → Prop}
    (hQ : ∀ k₂ loc₂ t₂, Stable B k₂ loc₂ → I k₂ loc₂ → k₂.running c = some p → loc₂ p = loc p →
      k₂.tasks p = some t₂ → t₂.status = t.status → Q () k₂ ∧ wp (schedule c) Q E k₂) :
    wp (tickUpdate P c) Q E k := by
  simp only [tickUpdate, lockGuard_kernelM, run_kernelM, wp_bind]
  refine (wp_tickBody P h.toSound ?_).imp ?_
  · intro q hq
    obtain rfl := Option.mem_unique hrun hq
    exact ⟨hawake, t, ht⟩
  · rintro b k₂ ⟨k₁, loc₁, ha, hch⟩
    have hloc : loc₁ p = loc p := (ha.moved p).resolve_right (fun hm => hawake hm.1)
    have ht₁ : k₁.tasks p = some t := (ha.only.tasks p hawake).trans ht
    obtain ⟨t₂, ht₂, hst⟩ := hch.status p t ht₁
    have hrun₂ : k₂.running c = some p := by rw [hch.running, ha.running, hrun]
    obtain ⟨hret, hsched⟩ := hQ k₂ loc₁ t₂ ((h.awakened ha).charged hch)
      (hI.charged (hI.awakened rfl h.toSound hi ha) hch) hrun₂ hloc ht₂ hst
    rw [wp_ite, wp_pure]
    split
    · exact hsched
    · exact hret

theorem wp_tickUpdate (hI : Closed c S I E) (h : Stable ∅ k loc) (hi : I k loc)
    (hrun : k.running c = some p) :
    wp (tickUpdate P c) (fun _ k' => ∃ loc', Stable ∅ k' loc' ∧ I k' loc') E k := by
  obtain ⟨t, ht, -⟩ := h.runs c p hrun
  have hnone := h.loc_running (Set.notMem_empty c) hrun
  apply hI.wp_tickUpdate_stages P h hi hrun ht
  · rw [hnone]
    exact nofun
  · intro k₂ loc₂ _ h₂ hi₂ hrun₂ _ _ _
    exact ⟨⟨loc₂, h₂, hi₂⟩, hI.wp_schedule_stable h₂ hi₂ hrun₂⟩

theorem wp_runningTask (h : Stable ∅ k loc) (hrun : k.running c = some p)
    (hidle : k.idle c ≠ some p) {noTask notRunning : String} {Q : Ptr → Kernel → Prop}
    (hQ : Q p k) : wp (runningTask c noTask notRunning) Q E k := by
  rcases h.running_of_ne_idle hrun hidle with ⟨t, ht, hst⟩
  simp only [runningTask, wp_bind, wp_currentTask, hrun, wp_readTask ht, wp_assertMsg, hst,
    beq_self_eq_true, if_true, wp_pure]
  exact hQ

theorem wp_sleep (hI : Closed c S I E) (h : Stable ∅ k loc) (hi : I k loc)
    (hrun : k.running c = some p) (hidle : k.idle c ≠ some p) (hS : .sleeping c ∈ S)
    (ms : BitVec 64) :
    wp (sleep P c ms) (fun _ k' => ∃ loc', Stable ∅ k' loc' ∧ I k' loc') E k := by
  simp only [sleep, lockGuard_kernelM, run_kernelM, wp_bind]
  refine wp_runningTask h hrun hidle ?_
  rw [wp_ite]
  split
  · exact hI.wp_schedule_stable h hi hrun
  · rcases h.running_of_ne_idle hrun hidle with ⟨t, ht, hst⟩
    rw [wp_bind]
    refine (wp_sleepBody P h.toSound ht hst (h.ne_idle hrun hidle) ms).imp ?_
    rintro _ k₁ ⟨loc₁, hs⟩
    exact hI.wp_schedule_suspended h hi hrun hidle hS rfl hs (fun _ => by simp)

theorem wp_block (hI : Closed c S I E) (h : Stable ∅ k loc) (hi : I k loc)
    (hrun : k.running c = some p) (hidle : k.idle c ≠ some p) (r : ResourceId)
    (hS : .blocked c r ∈ S) :
    wp (block c r) (fun _ k' => ∃ loc', Stable ∅ k' loc' ∧ I k' loc') E k := by
  rcases h.running_of_ne_idle hrun hidle with ⟨t, ht, hst⟩
  simp only [block, lockGuard_kernelM, run_kernelM, klog_kernelM, wp_bind, wp_pure]
  refine wp_runningTask h hrun hidle ?_
  refine (wp_blockBody h.toSound ht hst (h.ne_idle hrun hidle) r).imp ?_
  rintro _ k₁ ⟨loc₁, hs⟩
  exact hI.wp_schedule_suspended h hi hrun hidle hS rfl hs (fun _ => by simp)

theorem wp_wakeup (hI : Closed c S I E) (h : Stable B k loc) (hi : I k loc) (r : ResourceId) :
    wp (wakeup c r) (fun _ k' => ∃ loc', Stable B k' loc' ∧ I k' loc' ∧
      Awakened (.blocked c r) k loc k' loc' ∧ ∀ p, loc' p ≠ some (.blocked c r)) E k := by
  simp only [wakeup, lockGuard_kernelM, run_kernelM, klog_kernelM, wp_bind, wp_pure]
  refine (wp_wakeupBody r h.toSound ?_).imp ?_
  · intro policy hnone k' ho
    exact hI.noScheduler hi hnone ho
  · rintro _ k' ⟨loc', ha, hnone⟩
    exact ⟨loc', h.awakened ha, hI.awakened rfl h.toSound hi ha, ha, hnone⟩

end Closed

end NaiLongKernel.Task
