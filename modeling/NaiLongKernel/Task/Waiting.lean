import NaiLongKernel.Task.Scheduling

/-!
# Waiting and waking

`Sleep` and `Block` take the current task out of the running; ticks and `Wakeup` bring
the tasks of one queue back. Both ways of waking are described by `Awakened`, for the
sleepers of a core and for the tasks blocked on a resource.
-/
namespace NaiLongKernel.Task

open Foundation

variable {k k' k'' : Kernel} {loc loc' loc'' : Ptr → Option Slot} {p : Ptr}
  {t t' : TaskControlBlock} {c : CoreId} {E : Fault → Kernel → Prop}

/-- Tasks of the queue `s` have become ready and gone to the queues of their policies. -/
structure Awakened (s : Slot) (k : Kernel) (loc : Ptr → Option Slot) (k' : Kernel)
    (loc' : Ptr → Option Slot) : Prop where
  sound : Sound k' loc'
  only : Only s.core {p | loc p = some s} k k'
  running : k'.running = k.running
  scheds : ∀ policy, ((k'.cpuSchedulers s.core).schedulers policy).isSome =
    ((k.cpuSchedulers s.core).schedulers policy).isSome
  moved : ∀ q, loc' q = loc q ∨
    loc q = some s ∧ ∃ t, k.tasks q = some t ∧ loc' q = k.home s.core t.policy
  woken : ∀ q, loc q = some s → loc' q ≠ some s → ∃ t, k'.tasks q = some t ∧ t.status = .kReady
  held : (∀ q t, loc q = some s → k.tasks q = some t → t.policy ≠ .kIdle) →
    k'.held s.core = k.held s.core
  taken : ∀ q, k'.held s.core = some q →
    k.held s.core = some q ∨ loc q = some s ∧ loc' q ≠ some s

theorem Kernel.home_congr (h : ∀ policy, ((k'.cpuSchedulers c).schedulers policy).isSome =
    ((k.cpuSchedulers c).schedulers policy).isSome) (policy : SchedPolicy) :
    k'.home c policy = k.home c policy := by
  rw [Kernel.home, Kernel.home, h]

namespace Awakened

variable {s : Slot}

theorem refl (h : Sound k loc) : Awakened s k loc k loc :=
  ⟨h, Only.refl _ _ _, rfl, fun _ => rfl, fun _ => Or.inl rfl, fun _ hq hne => absurd hq hne,
    fun _ => rfl, fun _ hq => Or.inl hq⟩

theorem back (h : Awakened s k loc k' loc') (q : Ptr) (hq : loc' q = some s) : loc q = some s := by
  rcases h.moved q with he | ⟨hl, -⟩
  · rw [← he, hq]
  · exact hl

theorem trans (h : Awakened s k loc k' loc') (h' : Awakened s k' loc' k'' loc'') :
    Awakened s k loc k'' loc'' := by
  refine ⟨h'.sound, h.only.trans (h'.only.mono h.back), h'.running.trans h.running,
    fun policy => (h'.scheds policy).trans (h.scheds policy), ?_, ?_, ?_, ?_⟩
  · intro q
    rcases h'.moved q with he | ⟨hl, t', ht', hq⟩
    · rw [he]
      exact h.moved q
    · rcases h.only.back ht' with ⟨t, ht, hsame⟩
      exact Or.inr ⟨h.back q hl, t, ht, by rw [hq, Kernel.home_congr h.scheds, hsame.policy]⟩
  · intro q hq hne
    by_cases hq' : loc' q = some s
    · exact h'.woken q hq' hne
    · rw [h'.only.tasks q hq']
      exact h.woken q hq hq'
  · intro hpol
    rw [← h.held hpol]
    refine h'.held ?_
    intro q t' hl ht'
    rcases h.only.back ht' with ⟨t, ht, hsame⟩
    rw [hsame.policy]
    exact hpol q t (h.back q hl) ht
  · intro q hq
    rcases h'.taken q hq with hq' | ⟨hl, hne⟩
    · rcases h.taken q hq' with hold | ⟨hl, hne⟩
      · exact Or.inl hold
      · exact Or.inr ⟨hl, fun he => hne (h'.back q he)⟩
    · exact Or.inr ⟨h.back q hl, hne⟩

end Awakened

theorem Placed.mem_of_loc (h : Placed k loc) {s : Slot} (hl : loc p = some s) : p ∈ k.slot s :=
  (h.located.mem_iff s p).mpr hl

theorem wp_awaken {s : Slot} (h : Sound k loc) (hl : loc p = some s) (ht : k.tasks p = some t)
    {d : CpuSchedData} (hk : Placed (k.setSched s.core d) (Function.update loc p none))
    (hd : d.schedulers = (k.cpuSchedulers s.core).schedulers) (hs : SameTask t t')
    (hready : t'.status = .kReady) :
    wp (enqueueTask s.core t.policy p)
      (fun _ k' => ∃ loc', Awakened s k loc k' loc' ∧
        d.SameWaiting (k'.cpuSchedulers s.core))
      E ((k.setSched s.core d).setTask p t') := by
  have hnone : Function.update loc p none p = none := Function.update_self _ _ _
  have hheld : (k.setSched s.core d).held s.core = k.held s.core := by
    rw [Kernel.held, Kernel.cpuSchedulers_setSched_self, hd]
    rfl
  have hk₁ : Sound (k.setSched s.core d) (Function.update loc p none) := by
    refine h.transfer (Only.setSched (X := ∅) d) hk ?_ (fun q hq => Or.inl (hheld ▸ hq))
    intro c' q hq
    by_cases hqp : q = p
    · rw [hqp, hnone]
    · rw [Function.update_of_ne hqp]
      exact (h.thread c' q hq).1
  have hk₂ : Sound ((k.setSched s.core d).setTask p t') (Function.update loc p none) :=
    hk₁.setTask_free ht hs hnone
  rw [← hs.policy]
  refine (wp_enqueueTask hk₂ (Kernel.tasks_setTask_self _ p t') hready hnone ?_).imp ?_
  · intro c' hc'
    rw [(h.thread c' p hc').1] at hl
    cases hl
  · rintro _ k' ⟨loc', he⟩
    have hsub : ({p} : Set Ptr) ⊆ {q | loc q = some s} := by
      rintro q rfl
      exact hl
    have ho : Only s.core {q | loc q = some s} k ((k.setSched s.core d).setTask p t') :=
      (Only.setSched d).trans (Only.setTask ht hl hs)
    have hself : ((k.setSched s.core d).setTask p t').cpuSchedulers s.core = d :=
      k.cpuSchedulers_setSched_self s.core d
    have hw := he.waiting
    rw [hself] at hw
    have hsome : ∀ policy, ((((k.setSched s.core d).setTask p t').cpuSchedulers s.core).schedulers
        policy).isSome = ((k.cpuSchedulers s.core).schedulers policy).isSome := by
      intro policy
      rw [hself, hd]
    refine ⟨loc', ⟨he.sound, ho.trans (he.only.mono hsub), he.running, ?_, ?_, ?_, ?_, ?_⟩, hw⟩
    · intro policy
      rw [hw.2.2.2 policy, hd]
    · intro q
      by_cases hqp : q = p
      · subst hqp
        exact Or.inr ⟨hl, t, ht, by rw [he.loc_self, Kernel.home_congr hsome, hs.policy]⟩
      · exact Or.inl (by rw [he.loc_ne q hqp, Function.update_of_ne hqp])
    · intro q hq hne
      by_cases hqp : q = p
      · rw [hqp]
        exact he.ready
      · rw [he.loc_ne q hqp, Function.update_of_ne hqp] at hne
        exact absurd hq hne
    · intro hpol
      have hne : t'.policy ≠ .kIdle := by
        rw [hs.policy]
        exact hpol p t hl ht
      exact (he.held hne).trans hheld
    · intro q hq
      rcases he.held_back hq with hold | ⟨rfl, hpol⟩
      · exact Or.inl (hheld.symm.trans hold)
      · refine Or.inr ⟨hl, ?_⟩
        rw [he.loc_self, Kernel.home, if_neg (fun hc => hc.1 hpol)]
        simp

variable (P : Platform)

/-- The sleepers that are due leave the heap; `fuel` covers the whole heap. -/
theorem wp_wakeSleepers (h : Sound k loc) (fuel : ℕ)
    (hfuel : (k.cpuSchedulers c).sleepingTasks.length < fuel)
    (hcur : ∀ q, k.running c = some q → loc q ≠ some (.sleeping c)) :
    wp (wakeSleepers P c fuel)
      (fun _ k' => ∃ loc', Awakened (.sleeping c) k loc k' loc') E k := by
  induction fuel generalizing k loc with
  | zero => omega
  | succ fuel ih =>
    simp only [wakeSleepers, wp_bind, wp_get]
    cases hl : (k.cpuSchedulers c).sleepingTasks with
    | nil =>
      rw [wp_pure]
      exact ⟨loc, Awakened.refl h⟩
    | cons task rest =>
      have hmem : task ∈ k.slot (.sleeping c) := by
        change task ∈ (k.cpuSchedulers c).sleepingTasks
        rw [hl]
        exact List.mem_cons_self
      have hloc : loc task = some (.sleeping c) := (h.located.mem_iff _ task).mp hmem
      rcases h.tasks_of_mem hmem with ⟨t, ht, hst⟩
      have hne : k.running c ≠ some task := fun hrun => hcur task hrun hloc
      simp only [wp_bind, wp_readTask ht, wp_ite, wp_pure, wp_modifySched]
      split
      · exact ⟨loc, Awakened.refl h⟩
      · have hs : SameTask t (t.setStatus .kReady) := ⟨rfl, by rw [isDead, isDead, hst]; rfl⟩
        have ht₁ : ∀ d, (k.setSched c d).tasks task = some t := fun _ => ht
        rw [wp_updateTask (ht₁ _)]
        refine (wp_awaken (s := .sleeping c) h hloc ht (h.toPlaced.wake P.heap hl) rfl hs rfl).imp
          ?_
        rintro _ k₁ ⟨loc₁, ha, hw⟩
        have hlen : (P.heap.pop k.wakesLater (task :: rest)).length = rest.length := by
          have hheap := h.heap c
          rw [hl] at hheap
          have hperm := P.heap.pop_perm _ k.wakesLater_strict hheap
          simpa using hperm.length_eq.symm
        refine (ih ha.sound ?_ ?_).imp ?_
        · have hsl : (k₁.cpuSchedulers c).sleepingTasks =
              P.heap.pop k.wakesLater (k.cpuSchedulers c).sleepingTasks := hw.1
          rw [hl, List.length_cons] at hfuel
          rw [hsl, hl, hlen]
          omega
        · intro q hq hq'
          rw [ha.running] at hq
          exact hcur q hq (ha.back q hq')
        · rintro _ k₂ ⟨loc₂, ha'⟩
          exact ⟨loc₂, ha.trans ha'⟩

/-- The counters of the running task have changed. -/
structure Charged (c : CoreId) (loc : Ptr → Option Slot) (k k' : Kernel) : Prop where
  sound : Sound k' loc
  only : Only c {q | k.running c = some q} k k'
  running : k'.running = k.running
  scheds : k'.cpuSchedulers = k.cpuSchedulers
  status : ∀ q t, k.tasks q = some t → ∃ t', k'.tasks q = some t' ∧ t'.status = t.status

theorem Charged.refl (h : Sound k loc) : Charged c loc k k :=
  ⟨h, Only.refl _ _ _, rfl, rfl, fun _ t ht => ⟨t, ht, rfl⟩⟩

theorem wp_chargeTick (h : Sound k loc) (b : Bool)
    (hcur : ∀ q, k.running c = some q → ∃ t, k.tasks q = some t) :
    wp (chargeTick c b) (fun _ k' => Charged c loc k k') E k := by
  simp only [chargeTick, wp_bind, wp_get]
  cases hr : k.running c with
  | none =>
    rw [wp_pure]
    exact Charged.refl h
  | some current =>
    rcases hcur current hr with ⟨t, ht⟩
    simp only [wp_bind, wp_readTask ht, wp_ite, wp_updateTask ht, wp_get, wp_pure]
    split
    · rename_i hst
      have hl : loc current = none := h.loc_of_running ht hst
      rw [wp_readTask (k.tasks_setTask_self current _)]
      refine ⟨h.setTask_free ht ⟨rfl, rfl⟩ hl, Only.setTask ht hr ⟨rfl, rfl⟩, rfl, rfl, ?_⟩
      intro q u hu
      by_cases hq : q = current
      · subst hq
        rw [k.tasks_setTask_self]
        exact ⟨_, rfl, by rw [Option.mem_unique hu ht]⟩
      · rw [k.tasks_setTask_ne current _ hq]
        exact ⟨u, hu, rfl⟩
    · exact Charged.refl h

theorem Awakened.setCounters {s : Slot} (h : Sound k loc) {d : CpuSchedData}
    (hs : d.schedulers = (k.cpuSchedulers s.core).schedulers)
    (hsl : d.sleepingTasks = (k.cpuSchedulers s.core).sleepingTasks)
    (hb : d.blockedTasks = (k.cpuSchedulers s.core).blockedTasks) :
    Awakened s k loc (k.setSched s.core d) loc := by
  have hheld : (k.setSched s.core d).held s.core = k.held s.core := by
    rw [Kernel.held, Kernel.cpuSchedulers_setSched_self, hs]
    rfl
  refine ⟨h.setCounters hs hsl hb, Only.setSched d, rfl, ?_, fun _ => Or.inl rfl,
    fun _ hq hne => absurd hq hne, fun _ => hheld, fun q hq => Or.inl (hheld ▸ hq)⟩
  intro policy
  rw [Kernel.cpuSchedulers_setSched_self, hs]

/-- A tick wakes sleepers and charges the running task, which may be waiting already, but
not for a tick. -/
theorem wp_tickBody (h : Sound k loc)
    (hcur : ∀ q, k.running c = some q → loc q ≠ some (.sleeping c) ∧ ∃ t, k.tasks q = some t) :
    wp (tickBody P c) (fun _ k' => ∃ k₁ loc', Awakened (.sleeping c) k loc k₁ loc' ∧
      Charged c loc' k₁ k') E k := by
  have hcount : Awakened (.sleeping c) k loc
      (k.setSched c { k.cpuSchedulers c with localTick := (k.cpuSchedulers c).localTick + 1 }) loc :=
    Awakened.setCounters h rfl rfl rfl
  simp only [tickBody, wp_bind, wp_modifySched, wp_get]
  refine (wp_wakeSleepers P hcount.sound _ (Nat.lt_succ_self _) (fun q hq => (hcur q hq).1)).imp
    ?_
  rintro b k₁ ⟨loc₁, ha⟩
  have hk₁ := hcount.trans ha
  refine (wp_chargeTick hk₁.sound b ?_).imp (fun _ k' hc => ⟨k₁, loc₁, hk₁, hc⟩)
  intro q hq
  rw [hk₁.running] at hq
  rcases hcur q hq with ⟨-, t, ht⟩
  rcases hk₁.only.same q t ht with ⟨t', ht', -⟩
  exact ⟨t', ht'⟩

/-- The current task has gone to the queue `s` to wait. -/
structure Suspended (p : Ptr) (s : Slot) (k : Kernel) (loc : Ptr → Option Slot) (k' : Kernel)
    (loc' : Ptr → Option Slot) : Prop where
  sound : Sound k' loc'
  only : Only s.core {p} k k'
  running : k'.running = k.running
  scheds : ∀ policy, ((k'.cpuSchedulers s.core).schedulers policy).isSome =
    ((k.cpuSchedulers s.core).schedulers policy).isSome
  loc_ne : ∀ q, q ≠ p → loc' q = loc q
  loc_self : loc' p = some s
  held : k'.held s.core = k.held s.core ∨ k.held s.core = some p ∧ k'.held s.core = none
  asleep : ∀ c, s = .sleeping c → k'.held c ≠ some p

theorem Suspended.of_placed {s : Slot} (h : Sound k loc) (hthread : ∀ c', k.idle c' ≠ some p)
    (hplaced : Placed k' (Function.update loc p (some s))) (ho : Only s.core {p} k k')
    (hrunning : k'.running = k.running)
    (hscheds : ∀ policy, ((k'.cpuSchedulers s.core).schedulers policy).isSome =
      ((k.cpuSchedulers s.core).schedulers policy).isSome)
    (hheld : k'.held s.core = k.held s.core ∨ k.held s.core = some p ∧ k'.held s.core = none)
    (hasleep : ∀ c, s = .sleeping c → k'.held c ≠ some p) :
    Suspended p s k loc k' (Function.update loc p (some s)) := by
  refine ⟨h.transfer ho hplaced ?_ ?_, ho, hrunning, hscheds,
    fun q hq => Function.update_of_ne hq _ _, Function.update_self _ _ _, hheld, hasleep⟩
  · intro c' q hq
    have hqp : q ≠ p := by
      rintro rfl
      exact hthread c' hq
    rw [Function.update_of_ne hqp]
    exact (h.thread c' q hq).1
  · intro q hq
    rcases hheld with he | ⟨-, he⟩
    · exact Or.inl (he ▸ hq)
    · rw [he] at hq
      cases hq

theorem wp_blockBody (h : Sound k loc) (ht : k.tasks p = some t) (hrun : t.status = .kRunning)
    (hthread : ∀ c', k.idle c' ≠ some p) (r : ResourceId) :
    wp (blockBody c p r) (fun _ k' => ∃ loc', Suspended p (.blocked c r) k loc k' loc') E k := by
  have hl : loc p = none := h.loc_of_running ht hrun
  set t' : TaskControlBlock := { t with status := .kBlocked, blockedOn := r } with ht'
  have hs : SameTask t t' := ⟨rfl, by rw [isDead_of_running hrun]; rfl⟩
  have h₁ : Sound (k.setTask p t') loc := h.setTask_free ht hs hl
  have ho : Only c {p} k (k.setTask p t') := Only.setTask ht rfl hs
  simp only [blockBody, wp_bind, wp_updateTask ht, wp_modifySched]
  refine ⟨_, Suspended.of_placed h hthread
    (h₁.toPlaced.block (c := c) hl (k.tasks_setTask_self p t') rfl rfl)
    (ho.trans (Only.setSched _)) rfl ?_ (Or.inl ?_) (by simp)⟩
  · intro policy
    change ((Kernel.cpuSchedulers _ c).schedulers policy).isSome = _
    rw [Kernel.cpuSchedulers_setSched_self]
    rfl
  · change Kernel.held _ c = k.held c
    rw [Kernel.held, Kernel.cpuSchedulers_setSched_self]
    rfl

theorem Suspended.sleep (h : Sound k loc) (hthread : ∀ c', k.idle c' ≠ some p) (hl : loc p = none)
    (hk' : Placed k' loc) (ho : Only c {p} k k') (hrunning : k'.running = k.running)
    (ht : k'.tasks p = some t) (hrun : t.status = .kRunning)
    (hscheds : ∀ policy, ((k'.cpuSchedulers c).schedulers policy).isSome =
      ((k.cpuSchedulers c).schedulers policy).isSome)
    (hheld : k'.held c = k.held c ∨ k.held c = some p ∧ k'.held c = none)
    (hasleep : k'.held c ≠ some p) :
    Suspended p (.sleeping c) k loc
      ((k'.setTask p (t.setStatus .kSleeping)).setSched c { k'.cpuSchedulers c with
        sleepingTasks := P.heap.push (k'.setTask p (t.setStatus .kSleeping)).wakesLater
          (k'.cpuSchedulers c).sleepingTasks p })
      (Function.update loc p (some (.sleeping c))) := by
  have hs : SameTask t (t.setStatus .kSleeping) := ⟨rfl, by rw [isDead_of_running hrun]; rfl⟩
  have hp : Placed (k'.setTask p (t.setStatus .kSleeping)) loc := by
    refine hk'.setTask ?_ (Or.inl hl)
    intro s hs
    rw [hl] at hs
    cases hs
  have hd : ∀ d, ((k'.setTask p (t.setStatus .kSleeping)).setSched c d).cpuSchedulers
      (Slot.sleeping c).core = d := fun d => Kernel.cpuSchedulers_setSched_self _ c d
  refine Suspended.of_placed h hthread
    (hp.sleep (c := c) P.heap hl (Kernel.tasks_setTask_self _ p _) rfl)
    ((ho.trans (Only.setTask ht rfl hs)).trans (Only.setSched _)) hrunning ?_ ?_ ?_
  · intro policy
    rw [hd]
    exact hscheds policy
  · rw [Kernel.held, hd]
    exact hheld
  · rintro c' ⟨⟩
    rw [Kernel.held, Kernel.cpuSchedulers_setSched_self]
    exact hasleep

theorem wp_sleepBody (h : Sound k loc) (ht : k.tasks p = some t) (hrun : t.status = .kRunning)
    (hthread : ∀ c', k.idle c' ≠ some p) (ms : BitVec 64) :
    wp (sleepBody P c p ms) (fun _ k' => ∃ loc', Suspended p (.sleeping c) k loc k' loc') E k := by
  have hl : loc p = none := h.loc_of_running ht hrun
  have inHand_policy : k.held c = some p → t.policy = .kIdle := by
    intro hheld
    obtain ⟨⟨u, hu, hpol, -⟩, -⟩ := h.inHand c p hheld
    exact Option.mem_unique ht hu ▸ hpol
  set t₁ := t.setWakeTick ((k.cpuSchedulers c).localTick + sleepTicks P ms) with ht₁
  have ht₁' : (k.setTask p t₁).tasks p = some t₁ := k.tasks_setTask_self p t₁
  have h₁ : Sound (k.setTask p t₁) loc := h.setTask_free ht ⟨rfl, rfl⟩ hl
  have ho₁ : Only c {p} k (k.setTask p t₁) := Only.setTask ht rfl ⟨rfl, rfl⟩
  simp only [sleepBody, wp_bind, wp_get, wp_updateTask ht]
  rw [wp_readTask ht₁', Kernel.cpuSchedulers_setTask]
  cases hs : (k.cpuSchedulers c).schedulers t.policy with
  | none =>
    have hs' : (k.cpuSchedulers c).schedulers t₁.policy = none := hs
    simp only [hs', wp_bind, wp_get, wp_updateTask ht₁', wp_modifySched]
    have hasleep : k.held c ≠ some p := by
      intro hheld
      rw [inHand_policy hheld] at hs
      simp [Kernel.held, hs] at hheld
    have hsl := Suspended.sleep P h hthread hl h₁.toPlaced ho₁ rfl ht₁' hrun (fun _ => rfl)
      (Or.inl rfl) hasleep
    exact ⟨_, hsl⟩
  | some s =>
    -- the scheduler does not have the running task in its queue, but may hold it
    have hs' : (k.cpuSchedulers c).schedulers t₁.policy = some s := hs
    have hq : p ∉ s.queue := by
      rw [← Kernel.slot_ready hs]
      exact h.located.not_mem hl _
    have hp₂ := h₁.toPlaced.setScheduler (c := c) hs' (Scheduler.queue_dequeue_of_not_mem hq)
      (s.isIdle_dequeue p)
    have ht₂ : ((k.setTask p t₁).setSched c ((k.cpuSchedulers c).setScheduler t₁.policy
        (s.dequeue p))).tasks p = some t₁ := ht₁'
    simp only [hs', wp_bind, wp_get, wp_modifySched, Kernel.cpuSchedulers_setTask, wp_updateTask ht₂]
    refine ⟨_, Suspended.sleep P h hthread hl hp₂ (ho₁.trans (Only.setSched _)) rfl ht₂ hrun
      ?_ ?_ ?_⟩
    · intro policy
      rw [Kernel.cpuSchedulers_setSched_self]
      exact (CpuSchedData.sameWaiting_setScheduler hs' _).2.2.2 policy
    · by_cases hidle : t₁.policy = .kIdle
      · rw [hidle] at hs'
        rw [hidle, Kernel.held_setScheduler_idle, Scheduler.held_dequeue, Kernel.held_eq hs']
        split
        · rename_i hheld
          exact Or.inr ⟨hheld, rfl⟩
        · exact Or.inl rfl
      · exact Or.inl (Kernel.held_setScheduler_ne (c := c) _ (s.dequeue p) hidle)
    · by_cases hidle : t₁.policy = .kIdle
      · rw [hidle, Kernel.held_setScheduler_idle, Scheduler.held_dequeue]
        split
        · simp
        · assumption
      · intro hheld
        have hsame := Kernel.held_setScheduler_ne (c := c) (k.setTask p t₁) (s.dequeue p) hidle
        exact hidle (inHand_policy (hsame.symm.trans hheld))

theorem wp_wakeAll (r : ResourceId) (waiting : List Ptr) (h : Sound k loc)
    (hb : (k.cpuSchedulers c).blockedTasks r = some waiting)
    (hE : ∀ policy, (k.cpuSchedulers c).schedulers policy = none → ∀ k',
      Only c {p | loc p = some (.blocked c r)} k k' →
      E (.assertFailed "Wakeup: scheduler must not be null") k') :
    wp (wakeAll c r waiting) (fun _ k' => ∃ loc', Awakened (.blocked c r) k loc k' loc' ∧
      (k'.cpuSchedulers c).blockedTasks r = some []) E k := by
  induction waiting generalizing k loc with
  | nil =>
    rw [wakeAll, wp_pure]
    exact ⟨loc, Awakened.refl h, hb⟩
  | cons task rest ih =>
    have hmem : task ∈ k.slot (.blocked c r) := by
      change task ∈ ((k.cpuSchedulers c).blockedTasks r).getD []
      rw [hb]
      exact List.mem_cons_self
    have hloc : loc task = some (.blocked c r) := (h.located.mem_iff _ task).mp hmem
    rcases h.tasks_of_mem hmem with ⟨t, ht, hag⟩
    have ht₁ : ∀ d, (k.setSched c d).tasks task = some t := fun _ => ht
    set t' : TaskControlBlock := { t with status := .kReady, blockedOn := ⟨0⟩ } with ht'
    have hs : SameTask t t' := ⟨rfl, (isDead_of_ready rfl).trans hag.not_dead.symm⟩
    have hplaced := h.toPlaced.unblock hb
    have ho : Only c {p | loc p = some (.blocked c r)} k
        ((k.setSched c ((k.cpuSchedulers c).setBlocked r (some rest))).setTask task t') :=
      (Only.setSched _).trans (Only.setTask ht hloc hs)
    simp only [wakeAll, wp_bind, wp_modifySched, wp_readTask (ht₁ _), wp_assertMsg, hag.1, hag.2,
      beq_self_eq_true, if_true, wp_updateTask (ht₁ _), wp_get, Kernel.cpuSchedulers_setTask,
      Kernel.cpuSchedulers_setSched_self]
    cases hsome : (k.cpuSchedulers c).schedulers t.policy with
    | none =>
      have hn : ((k.cpuSchedulers c).setBlocked r (some rest)).schedulers t.policy = none := hsome
      rw [hn]
      exact hE _ hsome _ ho
    | some s =>
      have hn : ((k.cpuSchedulers c).setBlocked r (some rest)).schedulers t.policy = some s := hsome
      rw [hn]
      simp only [Option.isSome_some, if_true]
      refine (wp_awaken (s := .blocked c r) h hloc ht hplaced rfl hs rfl).imp ?_
      rintro _ k₁ ⟨loc₁, ha, hw⟩
      have hb₁ : (k₁.cpuSchedulers c).blockedTasks r = some rest := by
        have hblocked : (k₁.cpuSchedulers c).blockedTasks =
            ((k.cpuSchedulers c).setBlocked r (some rest)).blockedTasks := hw.2.1
        rw [hblocked, blockedTasks_setBlocked_self]
      refine (ih ha.sound hb₁ ?_).imp ?_
      · intro policy hpol k' ho'
        have hnone := ha.scheds policy
        change ((k₁.cpuSchedulers c).schedulers policy).isSome = _ at hnone
        rw [hpol, Option.isSome_none, eq_comm, Option.isSome_eq_false_iff,
          Option.isNone_iff_eq_none] at hnone
        exact hE policy hnone k' (ha.only.trans (ho'.mono ha.back))
      · rintro _ k' ⟨loc', ha', hend⟩
        exact ⟨loc', ha.trans ha', hend⟩

theorem wp_wakeupBody (r : ResourceId) (h : Sound k loc)
    (hE : ∀ policy, (k.cpuSchedulers c).schedulers policy = none → ∀ k',
      Only c {p | loc p = some (.blocked c r)} k k' →
      E (.assertFailed "Wakeup: scheduler must not be null") k') :
    wp (wakeupBody c r) (fun _ k' => ∃ loc', Awakened (.blocked c r) k loc k' loc' ∧
      ∀ p, loc' p ≠ some (.blocked c r)) E k := by
  -- nothing waits on the resource any more
  have none_left : ∀ {k' loc'}, Sound k' loc' →
      ((k'.cpuSchedulers c).blockedTasks r).getD [] = [] →
      ∀ p, loc' p ≠ some (.blocked c r) := by
    intro k' loc' hk' hnil p hp
    have hmem := hk'.toPlaced.mem_of_loc hp
    change p ∈ ((k'.cpuSchedulers c).blockedTasks r).getD [] at hmem
    rw [hnil] at hmem
    cases hmem
  simp only [wakeupBody, wp_bind, wp_get]
  cases hb : (k.cpuSchedulers c).blockedTasks r with
  | none =>
    rw [wp_pure]
    exact ⟨loc, Awakened.refl h, none_left h (by rw [hb]; rfl)⟩
  | some waiting =>
    rw [wp_bind]
    refine (wp_wakeAll r waiting h hb hE).imp ?_
    rintro _ k₁ ⟨loc₁, ha, hend⟩
    rw [wp_modifySched]
    have hnil : ((k₁.cpuSchedulers c).blockedTasks r).getD [] = [] := by rw [hend]; rfl
    have hd : (k₁.setSched c ((k₁.cpuSchedulers c).setBlocked r none)).cpuSchedulers
        (Slot.blocked c r).core = (k₁.cpuSchedulers c).setBlocked r none :=
      Kernel.cpuSchedulers_setSched_self _ c _
    have hheld : (k₁.setSched c ((k₁.cpuSchedulers c).setBlocked r none)).held c = k₁.held c := by
      rw [Kernel.held, Kernel.cpuSchedulers_setSched_self]
      rfl
    have herase : Awakened (.blocked c r) k₁ loc₁
        (k₁.setSched c ((k₁.cpuSchedulers c).setBlocked r none)) loc₁ := by
      refine ⟨?_, Only.setSched _, rfl, fun policy => by rw [hd]; rfl, fun _ => Or.inl rfl,
        fun _ hq hne => absurd hq hne, fun _ => hheld, fun q hq => Or.inl (hheld ▸ hq)⟩
      exact ha.sound.transfer (Only.setSched (X := ∅) _) (ha.sound.toPlaced.eraseBlocked hnil)
        (fun c' q hq => (ha.sound.thread c' q hq).1) (fun q hq => Or.inl (hheld ▸ hq))
    exact ⟨loc₁, ha.trans herase, none_left ha.sound hnil⟩

end NaiLongKernel.Task
