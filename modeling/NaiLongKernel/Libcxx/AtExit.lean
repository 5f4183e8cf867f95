import NaiLongKernel.Foundation.Reached

/-!
# Registered destructors

`__cxa_atexit` stores a destructor in a table, and `__cxa_finalize` calls those of one function,
or all of them. A call for one function marks the entries that it called; a call for all does
not, so that a later call finds them again.
-/
namespace NaiLongKernel.Libcxx

open Foundation

def kMaxAtExitFuncsCount : ℕ := 128

structure AtexitFuncEntry where
  destructorFunc : BitVec 64
  objPtr : BitVec 64
deriving DecidableEq, Repr

/-- The first `atexit_func_count` entries of `atexit_funcs`. -/
structure AtExit where
  atexitFuncs : List AtexitFuncEntry := []
deriving DecidableEq, Repr

/-- A destructor is called, with the index of its entry. -/
structure Call where
  idx : ℕ
  entry : AtexitFuncEntry
deriving DecidableEq, Repr

namespace AtExit

def cxaAtexit (destructorFunc objPtr : BitVec 64) (s : AtExit) : ℤ × AtExit :=
  if s.atexitFuncs.length ≥ kMaxAtExitFuncsCount then (-1, s)
  else (0, ⟨s.atexitFuncs ++ [⟨destructorFunc, objPtr⟩]⟩)

/-- The loop for all destructors, down from index `i`. -/
def finalizeAll (funcs : List AtexitFuncEntry) : ℕ → List Call
  | 0 => []
  | i + 1 =>
    match funcs[i]? with
    | none => finalizeAll funcs i
    | some e =>
      if e.destructorFunc ≠ 0 then ⟨i, e⟩ :: finalizeAll funcs i else finalizeAll funcs i

/-- The loop for one destructor, down from index `i`. -/
def finalizeOne (destructorFunc : BitVec 64) :
    ℕ → List AtexitFuncEntry → List Call × List AtexitFuncEntry
  | 0, funcs => ([], funcs)
  | i + 1, funcs =>
    match funcs[i]? with
    | none => finalizeOne destructorFunc i funcs
    | some e =>
      if e.destructorFunc = destructorFunc then
        let r := finalizeOne destructorFunc i (funcs.set i { e with destructorFunc := 0 })
        (⟨i, e⟩ :: r.1, r.2)
      else finalizeOne destructorFunc i funcs

def cxaFinalize (destructorFunc : BitVec 64) (s : AtExit) : List Call × AtExit :=
  if destructorFunc = 0 then (finalizeAll s.atexitFuncs s.atexitFuncs.length, s)
  else
    let r := finalizeOne destructorFunc s.atexitFuncs.length s.atexitFuncs
    (r.1, ⟨r.2⟩)

/-- The entry is called by `__cxa_finalize` with this argument. -/
def Selects (destructorFunc : BitVec 64) (e : AtexitFuncEntry) : Prop :=
  if destructorFunc = 0 then e.destructorFunc ≠ 0 else e.destructorFunc = destructorFunc

instance (destructorFunc : BitVec 64) : DecidablePred (Selects destructorFunc) := fun _ => by
  unfold Selects
  infer_instance

end AtExit

/-- The entries of a table that are taken, from index `i` down. -/
def scanBelow (table : List AtexitFuncEntry) (p : ℕ → AtexitFuncEntry → Prop)
    [∀ k e, Decidable (p k e)] (i : ℕ) : List Call :=
  (List.range i).reverse.filterMap fun k =>
    table[k]?.bind fun e => if p k e then some ⟨k, e⟩ else none

def scan (table : List AtexitFuncEntry) (p : ℕ → AtexitFuncEntry → Prop)
    [∀ k e, Decidable (p k e)] : List Call := scanBelow table p table.length

/-- A table with what happened to it: the accepted registrations in order, the numbers of those
that were invoked, and how many there were when all were last called for. -/
structure History where
  state : AtExit := {}
  registered : List AtexitFuncEntry := []
  invoked : List ℕ := []
  swept : ℕ := 0
deriving DecidableEq

inductive AtExitOp where
  | cxaAtexit (destructorFunc objPtr : BitVec 64)
  | cxaFinalize (destructorFunc : BitVec 64)

namespace History

/-- What `__cxa_finalize` is asked to invoke: the registrations not yet invoked, of one function
or of all, the latest first. -/
def due (h : History) (destructorFunc : BitVec 64) : List Call :=
  scan h.registered fun k e =>
    k ∉ h.invoked ∧ (destructorFunc = 0 ∨ e.destructorFunc = destructorFunc)

def calls (h : History) (destructorFunc : BitVec 64) : List Call :=
  (h.state.cxaFinalize destructorFunc).1

/-- The call invokes what it is asked to, and nothing a second time. -/
def Lawful (h : History) (destructorFunc : BitVec 64) : Prop :=
  h.calls destructorFunc = h.due destructorFunc ∧
    (h.invoked ++ (h.calls destructorFunc).map Call.idx).Nodup

instance (h : History) (destructorFunc : BitVec 64) : Decidable (h.Lawful destructorFunc) := by
  unfold Lawful
  infer_instance

/-- The call selects only registrations made since all were last called for. -/
def Fresh (h : History) (destructorFunc : BitVec 64) : Prop :=
  ∀ c ∈ scan h.state.atexitFuncs (fun _ => AtExit.Selects destructorFunc), h.swept ≤ c.idx

instance (h : History) (destructorFunc : BitVec 64) : Decidable (h.Fresh destructorFunc) := by
  unfold Fresh
  infer_instance

def step (h : History) : AtExitOp → Option History
  | .cxaAtexit destructorFunc objPtr =>
    let r := h.state.cxaAtexit destructorFunc objPtr
    some { h with
      state := r.2
      registered := if r.1 = 0 then h.registered ++ [⟨destructorFunc, objPtr⟩] else h.registered }
  | .cxaFinalize destructorFunc =>
    let r := h.state.cxaFinalize destructorFunc
    some { h with
      state := r.2
      invoked := h.invoked ++ r.1.map Call.idx
      swept := if destructorFunc = 0 then h.registered.length else h.swept }

/-- Registered functions are not null, and calls are for fresh registrations. -/
def Allowed (h : History) : AtExitOp → Prop
  | .cxaAtexit destructorFunc _ => destructorFunc ≠ 0
  | .cxaFinalize destructorFunc => h.Fresh destructorFunc

instance (h : History) : DecidablePred h.Allowed := fun op => by
  cases op <;> (unfold Allowed; infer_instance)

end History

section Scan

variable {table other : List AtexitFuncEntry} {p q : ℕ → AtexitFuncEntry → Prop}
  [∀ k e, Decidable (p k e)] [∀ k e, Decidable (q k e)]

theorem scanBelow_succ (i : ℕ) : scanBelow table p (i+1) =
    (table[i]?.bind fun e => if p i e then some ⟨i, e⟩ else none).toList ++
      scanBelow table p i := by
  rw [scanBelow, List.range_succ, List.reverse_append, List.reverse_singleton,
    List.singleton_append, List.filterMap_cons]
  cases table[i]?.bind fun e => if p i e then some (Call.mk i e) else none <;> rfl

theorem mem_scan {c : Call} :
    c ∈ scan table p ↔ table[c.idx]? = some c.entry ∧ p c.idx c.entry := by
  simp only [scan, scanBelow, List.mem_filterMap, List.mem_reverse, List.mem_range,
    Option.bind_eq_some_iff, Option.ite_none_right_eq_some, Option.some.injEq]
  constructor
  · rintro ⟨k, _, e, he, hp, rfl⟩
    exact ⟨he, hp⟩
  · rintro ⟨he, hp⟩
    exact ⟨c.idx, (List.getElem?_eq_some_iff.mp he).1, c.entry, he, hp, rfl⟩

theorem nodup_idx_scan : ((scan table p).map Call.idx).Nodup := by
  rw [scan, scanBelow, List.map_filterMap]
  refine List.Nodup.filterMap ?_ (List.nodup_reverse.mpr List.nodup_range)
  intro k k' i hk hk'
  simp only [Option.mem_def, Option.map_eq_some_iff, Option.bind_eq_some_iff,
    Option.ite_none_right_eq_some, Option.some.injEq] at hk hk'
  obtain ⟨_, ⟨_, _, _, rfl⟩, rfl⟩ := hk
  obtain ⟨_, ⟨_, _, _, rfl⟩, h⟩ := hk'
  exact h.symm

theorem scan_congr (hlen : table.length = other.length)
    (h : ∀ k e, (table[k]? = some e ∧ p k e) ↔ (other[k]? = some e ∧ q k e)) :
    scan table p = scan other q := by
  rw [scan, scan, hlen, scanBelow, scanBelow]
  refine List.filterMap_congr fun k _ => Option.ext fun c => ?_
  simp only [Option.bind_eq_some_iff, Option.ite_none_right_eq_some, Option.some.injEq]
  constructor
  · rintro ⟨e, he, hp, rfl⟩
    exact ⟨e, ((h k e).mp ⟨he, hp⟩).1, ((h k e).mp ⟨he, hp⟩).2, rfl⟩
  · rintro ⟨e, he, hq, rfl⟩
    exact ⟨e, ((h k e).mpr ⟨he, hq⟩).1, ((h k e).mpr ⟨he, hq⟩).2, rfl⟩

end Scan

namespace AtExit

variable {destructorFunc : BitVec 64}

theorem finalizeAll_eq (funcs : List AtexitFuncEntry) (i : ℕ) :
    finalizeAll funcs i = scanBelow funcs (fun _ e => e.destructorFunc ≠ 0) i := by
  induction i with
  | zero => rfl
  | succ i ih =>
    rw [finalizeAll, scanBelow_succ, ih]
    cases funcs[i]? with
    | none => rfl
    | some e =>
      simp only [Option.bind_some]
      split <;> rfl

theorem finalizeOne_calls (i : ℕ) (funcs : List AtexitFuncEntry) :
    (finalizeOne destructorFunc i funcs).1 =
      scanBelow funcs (fun _ e => e.destructorFunc = destructorFunc) i := by
  induction i generalizing funcs with
  | zero => rfl
  | succ i ih =>
    rw [finalizeOne, scanBelow_succ]
    cases hi : funcs[i]? with
    | none => exact ih funcs
    | some e =>
      by_cases he : e.destructorFunc = destructorFunc
      · have hbelow : scanBelow (funcs.set i { e with destructorFunc := 0 })
            (fun _ e => e.destructorFunc = destructorFunc) i =
            scanBelow funcs (fun _ e => e.destructorFunc = destructorFunc) i := by
          refine List.filterMap_congr fun k hk => ?_
          have hk : k < i := List.mem_range.mp (List.mem_reverse.mp hk)
          rw [List.getElem?_set_ne (by omega)]
        simp only [if_pos he, ih, hbelow, Option.bind_some, Option.toList_some,
          List.singleton_append]
      · simp only [if_neg he, ih, Option.bind_some, Option.toList_none, List.nil_append]

theorem finalizeOne_funcs (i : ℕ) (funcs : List AtexitFuncEntry) (k : ℕ) :
    (finalizeOne destructorFunc i funcs).2[k]? = funcs[k]?.map fun e =>
      if k < i ∧ e.destructorFunc = destructorFunc then { e with destructorFunc := 0 } else e := by
  induction i generalizing funcs with
  | zero => simp [finalizeOne]
  | succ i ih =>
    rw [finalizeOne]
    cases hi : funcs[i]? with
    | none =>
      rw [ih]
      by_cases hk : k = i
      · simp [hk, hi]
      · have hlt : k < i ↔ k < i + 1 := by omega
        simp only [hlt]
    | some e =>
      by_cases he : e.destructorFunc = destructorFunc
      · simp only [if_pos he, ih]
        by_cases hk : k = i
        · subst hk
          have hlen := (List.getElem?_eq_some_iff.mp hi).1
          simp [List.getElem?_set_self hlen, hi, he]
        · have hlt : k < i ↔ k < i + 1 := by omega
          rw [List.getElem?_set_ne (by omega)]
          simp only [hlt]
      · simp only [if_neg he, ih]
        by_cases hk : k = i
        · simp [hk, hi, he]
        · have hlt : k < i ↔ k < i + 1 := by omega
          simp only [hlt]

theorem finalizeOne_length (i : ℕ) (funcs : List AtexitFuncEntry) :
    (finalizeOne destructorFunc i funcs).2.length = funcs.length := by
  fun_induction finalizeOne destructorFunc i funcs with
  | case1 => rfl
  | case2 _ _ _ ih => exact ih
  | case3 _ _ _ _ _ r ih => exact ih.trans List.length_set
  | case4 _ _ _ _ _ ih => exact ih

theorem calls_eq_scan (s : AtExit) :
    (s.cxaFinalize destructorFunc).1 = scan s.atexitFuncs (fun _ => Selects destructorFunc) := by
  rw [cxaFinalize]
  by_cases h0 : destructorFunc = 0
  · rw [if_pos h0, finalizeAll_eq]
    simp only [scan, scanBelow, Selects, if_pos h0]
  · rw [if_neg h0]
    simp only [finalizeOne_calls, scan, scanBelow, Selects, if_neg h0]

end AtExit

namespace History

variable {h : History} {destructorFunc : BitVec 64}

/-- How the table records the history. Below `swept` everything was invoked, but only a call for
one function has marked it. -/
structure Recorded (h : History) : Prop where
  length : h.state.atexitFuncs.length = h.registered.length
  bounded : h.registered.length ≤ kMaxAtExitFuncsCount
  nonnull : ∀ e ∈ h.registered, e.destructorFunc ≠ 0
  entry : ∀ k e, h.registered[k]? = some e → h.swept ≤ k → h.state.atexitFuncs[k]? =
    some (if k ∈ h.invoked then { e with destructorFunc := 0 } else e)
  swept_invoked : ∀ k < h.swept, k ∈ h.invoked
  invoked_lt : ∀ k ∈ h.invoked, k < h.registered.length
  nodup : h.invoked.Nodup

namespace Recorded

theorem selects_iff (hr : h.Recorded) {k : ℕ} (hk : h.swept ≤ k) (e : AtexitFuncEntry) :
    (h.state.atexitFuncs[k]? = some e ∧ AtExit.Selects destructorFunc e) ↔
      (h.registered[k]? = some e ∧
        k ∉ h.invoked ∧ (destructorFunc = 0 ∨ e.destructorFunc = destructorFunc)) := by
  cases hreg : h.registered[k]? with
  | none =>
    have hnone : h.state.atexitFuncs[k]? = none := by
      rw [List.getElem?_eq_none_iff, hr.length]
      exact List.getElem?_eq_none_iff.mp hreg
    simp [hnone]
  | some e' =>
    have hne : e'.destructorFunc ≠ 0 := hr.nonnull e' (List.mem_of_getElem? hreg)
    rw [hr.entry k e' hreg hk]
    by_cases hinv : k ∈ h.invoked
    · -- a marked entry is selected by no call
      rw [if_pos hinv]
      simp only [hinv, not_true_eq_false, false_and, and_false, iff_false]
      rintro ⟨⟨rfl⟩, hsel⟩
      rw [AtExit.Selects] at hsel
      split at hsel
      · exact hsel rfl
      · rename_i h0
        exact h0 hsel.symm
    · rw [if_neg hinv]
      simp only [hinv, not_false_eq_true, true_and]
      refine and_congr_right ?_
      rintro ⟨rfl⟩
      rw [AtExit.Selects]
      split
      · rename_i h0
        exact ⟨fun _ => .inl h0, fun _ => hne⟩
      · rename_i h0
        exact ⟨.inr, fun h => h.resolve_left h0⟩

theorem calls_eq_due (hr : h.Recorded) (hf : h.Fresh destructorFunc) :
    h.calls destructorFunc = h.due destructorFunc := by
  rw [calls, AtExit.calls_eq_scan, due]
  refine scan_congr hr.length fun k e => ?_
  by_cases hk : h.swept ≤ k
  · exact hr.selects_iff hk e
  · constructor
    · rintro ⟨he, hsel⟩
      exact absurd (hf ⟨k, e⟩ (mem_scan.mpr ⟨he, hsel⟩)) hk
    · rintro ⟨_, hinv, _⟩
      exact absurd (hr.swept_invoked k (by omega)) hinv

theorem mem_due {c : Call} : c ∈ h.due destructorFunc ↔ h.registered[c.idx]? = some c.entry ∧
    c.idx ∉ h.invoked ∧ (destructorFunc = 0 ∨ c.entry.destructorFunc = destructorFunc) := mem_scan

theorem nodup_append_due (hr : h.Recorded) :
    (h.invoked ++ (h.due destructorFunc).map Call.idx).Nodup := by
  refine List.Nodup.append hr.nodup nodup_idx_scan ?_
  intro k hk hdue
  obtain ⟨c, hc, rfl⟩ := List.mem_map.mp hdue
  exact (mem_due.mp hc).2.1 hk

theorem lawful_iff (hr : h.Recorded) : h.Lawful destructorFunc ↔ h.Fresh destructorFunc := by
  constructor
  · rintro ⟨hcalls, _⟩ c hc
    -- an entry below `swept` was invoked, so that it is not due
    by_contra hlt
    rw [calls, AtExit.calls_eq_scan] at hcalls
    rw [hcalls] at hc
    exact (mem_due.mp hc).2.1 (hr.swept_invoked _ (by omega))
  · intro hf
    have hcalls := hr.calls_eq_due hf
    exact ⟨hcalls, hcalls ▸ hr.nodup_append_due⟩

theorem cxaAtexit_eq_zero_iff (hr : h.Recorded) (objPtr : BitVec 64) :
    (h.state.cxaAtexit destructorFunc objPtr).1 = 0 ↔
      h.registered.length < kMaxAtExitFuncsCount := by
  rw [AtExit.cxaAtexit, hr.length]
  split
  · simp only [reduceCtorEq, false_iff, not_lt]
    assumption
  · simp only [true_iff]
    omega

theorem cxaAtexit {objPtr : BitVec 64} {h' : History} (hr : h.Recorded)
    (hne : destructorFunc ≠ 0) (hs : h.step (.cxaAtexit destructorFunc objPtr) = some h') :
    h'.Recorded := by
  have hlen := hr.length
  rw [step, AtExit.cxaAtexit] at hs
  by_cases hfull : h.state.atexitFuncs.length ≥ kMaxAtExitFuncsCount
  · rw [if_pos hfull] at hs
    obtain ⟨rfl⟩ := hs
    exact hr
  · rw [if_neg hfull] at hs
    obtain ⟨rfl⟩ := hs
    refine ⟨?_, ?_, ?_, ?_, hr.swept_invoked, ?_, hr.nodup⟩
    · simp [hlen]
    · simp only [if_true, List.length_append, List.length_singleton]
      omega
    · intro e he
      rcases List.mem_append.mp he with he | he
      · exact hr.nonnull e he
      · rw [List.mem_singleton.mp he]
        exact hne
    · intro k e he hk
      simp only [if_true] at he ⊢
      by_cases hlt : k < h.registered.length
      · rw [List.getElem?_append_left hlt] at he
        rw [List.getElem?_append_left (by omega)]
        exact hr.entry k e he hk
      · -- the new registration, which was not invoked
        have hnot : k ∉ h.invoked := fun hk => hlt (hr.invoked_lt k hk)
        rw [if_neg hnot, ← he, List.getElem?_append_right (by omega),
          List.getElem?_append_right (by omega), hlen]
    · intro k hk
      have := hr.invoked_lt k hk
      simp only [if_true, List.length_append, List.length_singleton]
      omega

theorem cxaFinalize {h' : History} (hr : h.Recorded) (hf : h.Fresh destructorFunc)
    (hs : h.step (.cxaFinalize destructorFunc) = some h') : h'.Recorded := by
  have hcalls : (h.state.cxaFinalize destructorFunc).1 = h.due destructorFunc :=
    hr.calls_eq_due hf
  obtain ⟨rfl⟩ := hs
  have hlt : ∀ k ∈ h.invoked ++ (h.due destructorFunc).map Call.idx,
      k < h.registered.length := by
    intro k hk
    rcases List.mem_append.mp hk with hk | hk
    · exact hr.invoked_lt k hk
    · obtain ⟨c, hc, rfl⟩ := List.mem_map.mp hk
      exact (List.getElem?_eq_some_iff.mp (mem_due.mp hc).1).1
  by_cases h0 : destructorFunc = 0
  · refine ⟨?_, hr.bounded, hr.nonnull, ?_, ?_, ?_, ?_⟩
    · simpa only [AtExit.cxaFinalize, if_pos h0] using hr.length
    · -- nothing was registered since
      intro k e he hk
      simp only [if_pos h0] at hk
      exact absurd (List.getElem?_eq_some_iff.mp he).1 (not_lt.mpr hk)
    · intro k hk
      simp only [if_pos h0] at hk
      rw [hcalls, List.mem_append]
      by_cases hinv : k ∈ h.invoked
      · exact .inl hinv
      · refine .inr (List.mem_map.mpr ⟨⟨k, h.registered.get ⟨k, hk⟩⟩, ?_, rfl⟩)
        exact mem_due.mpr ⟨List.getElem?_eq_getElem hk, hinv, .inl h0⟩
    · rw [hcalls]
      exact hlt
    · rw [hcalls]
      exact hr.nodup_append_due
  · refine ⟨?_, hr.bounded, hr.nonnull, ?_, ?_, ?_, ?_⟩
    · simpa only [AtExit.cxaFinalize, if_neg h0, AtExit.finalizeOne_length] using hr.length
    · intro k e he hk
      simp only [if_neg h0] at hk
      have hlen : k < h.state.atexitFuncs.length := by
        rw [hr.length]
        exact (List.getElem?_eq_some_iff.mp he).1
      have hmem : k ∈ (h.due destructorFunc).map Call.idx ↔
          k ∉ h.invoked ∧ e.destructorFunc = destructorFunc := by
        constructor
        · intro hdue
          obtain ⟨c, hc, rfl⟩ := List.mem_map.mp hdue
          obtain ⟨hc₁, hc₂, hc₃⟩ := mem_due.mp hc
          obtain ⟨rfl⟩ := hc₁.symm.trans he
          exact ⟨hc₂, hc₃.resolve_left h0⟩
        · rintro ⟨hinv, heq⟩
          exact List.mem_map.mpr ⟨⟨k, e⟩, mem_due.mpr ⟨he, hinv, .inr heq⟩, rfl⟩
      simp only [AtExit.cxaFinalize, if_neg h0, AtExit.finalizeOne_funcs, hr.entry k e he hk,
        Option.map_some, Option.some.injEq, hlen, true_and] at hcalls ⊢
      simp only [hcalls, List.mem_append, hmem]
      -- the entry was marked before, is marked by this call, or stays as it is
      by_cases hinv : k ∈ h.invoked
      · simp [hinv]
      · by_cases heq : e.destructorFunc = destructorFunc <;> simp [hinv, heq]
    · intro k hk
      simp only [if_neg h0] at hk
      exact List.mem_append_left _ (hr.swept_invoked k hk)
    · rw [hcalls]
      exact hlt
    · rw [hcalls]
      exact hr.nodup_append_due

end Recorded

/-- A table and its history, from the empty one. -/
abbrev Run (h : History) : Prop := Reached step Allowed {} h

theorem Run.recorded (hrun : h.Run) : h.Recorded := by
  refine hrun.invariant ⟨rfl, by decide, by simp, by simp, by simp, by simp, by simp⟩ ?_
  intro h op h' hr hok hs
  cases op with
  | cxaAtexit destructorFunc objPtr => exact hr.cxaAtexit hok hs
  | cxaFinalize destructorFunc => exact hr.cxaFinalize hok hs

/-- No registration is invoked twice, and a call invokes what it is asked to, exactly as long as
no call comes back to a registration that a call for all has invoked. -/
theorem destructors_run_once (h : History) (hrun : h.Run) :
    h.invoked.Nodup ∧
    (∀ destructorFunc objPtr, (h.state.cxaAtexit destructorFunc objPtr).1 = 0 ↔
      h.registered.length < kMaxAtExitFuncsCount) ∧
    ∀ destructorFunc, h.Lawful destructorFunc ↔ h.Fresh destructorFunc :=
  ⟨hrun.recorded.nodup, fun _ objPtr => hrun.recorded.cxaAtexit_eq_zero_iff objPtr,
    fun _ => hrun.recorded.lawful_iff⟩

/-- Two functions are registered and called, one by name; the table then takes a third. -/
def mixedCalls : List AtExitOp :=
  [.cxaAtexit 1 10, .cxaAtexit 2 20, .cxaAtexit 1 30, .cxaFinalize 1, .cxaFinalize 0,
    .cxaAtexit 3 40, .cxaFinalize 3]

theorem destructors_run_once_mixedCalls : ∃ h : History,
    (h.invoked.Nodup ∧
      (∀ destructorFunc objPtr, (h.state.cxaAtexit destructorFunc objPtr).1 = 0 ↔
        h.registered.length < kMaxAtExitFuncsCount) ∧
      ∀ destructorFunc, h.Lawful destructorFunc ↔ h.Fresh destructorFunc) ∧
    h.invoked = [2, 0, 1, 3] := by
  have hstart : Run {} := .start
  obtain ⟨h, hrun, hinv⟩ := hstart.exists_replay (fun h op => decide (h.Allowed op))
    (fun _ _ _ hok => of_decide_eq_true hok) mixedCalls (R := fun h => h.invoked = [2, 0, 1, 3])
    (by decide +kernel)
  exact ⟨h, destructors_run_once h hrun, hinv⟩

/-- After a call for all destructors, a second one invokes them again. -/
theorem finalize_all_twice :
    [AtExitOp.cxaAtexit 1 10, .cxaFinalize 0].foldlM step {} =
        some ⟨⟨[⟨1, 10⟩]⟩, [⟨1, 10⟩], [0], 1⟩ ∧
      ¬ (⟨⟨[⟨1, 10⟩]⟩, [⟨1, 10⟩], [0], 1⟩ : History).Lawful 0 := by
  decide +kernel

end History

end NaiLongKernel.Libcxx
