import NaiLongKernel.Memory.Descent

/-!
# A page directory refines a partial map

`translate` reads the leaf entry that maps an address. `MapPage` and `UnmapPage`
change it at the given address and nowhere else, `GetMapping` reads it, so that
after any sequence of calls the directory holds the last mapping of each address.
-/
namespace NaiLongKernel.Memory

open Foundation Foundation.Radix

variable (A : Allocator) {vm vm' : Vm} {root va : Addr} {T : PageTree (kPageTableLevels - 1)}

theorem wp_assertTable {Q : Unit → Vm → Prop} {E : VmStop → Vm → Prop} {table : Addr}
    {message : String} (h : table ≠ 0) : wp (assertTable table message) Q E vm ↔ Q () vm := by
  rw [assertTable, if_neg h, wp_pure]

theorem wp_findOrReport {allocate : Bool} {code : ErrorCode} {Q : Addr × ℕ → Vm → Prop}
    {E : VmStop → Vm → Prop} :
    wp (findOrReport A root va allocate code) Q E vm ↔
      wp (walkTables A va allocate (kPageTableLevels - 1) root)
        (fun t vm' => Q (t, indices va 0) vm') (fun e vm' => E (e.reported code) vm') vm := by
  simp only [wp, findOrReport, findPageTableEntry, bind, EStateM.bind]
  cases walkTables A va allocate (kPageTableLevels - 1) root vm <;> rfl

theorem wp_find {code : ErrorCode} {Q : Addr × ℕ → Vm → Prop} {E : VmStop → Vm → Prop} :
    wp (findOrReport A root va false code) Q E vm ↔
      match walk x86 vm.mem (kPageTableLevels - 1) root (indices va) with
      | some t => Q (t, indices va 0) vm
      | none => E (.unexpected code) vm := by
  rw [wp_findOrReport]
  simp only [wp, walkTables_find]
  cases walk x86 vm.mem (kPageTableLevels - 1) root (indices va) <;> rfl

theorem translate_of_walk {t : Addr}
    (hw : walk x86 vm.mem (kPageTableLevels - 1) root (indices va) = some t) :
    translate vm root va =
      if isPageTableEntryValid (vm.mem t (indices va 0)) then some (vm.mem t (indices va 0))
      else none := by
  simp [translate, lookup, hw, Option.filter, isSome_decode]

theorem translate_of_no_walk
    (hw : walk x86 vm.mem (kPageTableLevels - 1) root (indices va) = none) :
    translate vm root va = none := by
  simp [translate, lookup, hw]

theorem getEntry_eq (hroot : root ≠ 0) : getEntry A root va vm =
    match translate vm root va with
    | some pte => .ok pte vm
    | none => .error (.unexpected .kVmPageNotMapped) vm := by
  apply wp.eq_result
  simp only [getEntry, wp_bind, wp_assertTable hroot, wp_find]
  cases hw : walk x86 vm.mem (kPageTableLevels - 1) root (indices va) with
  | none => simp only [translate_of_no_walk hw]
  | some t =>
    simp only [translate_of_walk hw, wp_get, wp_ite, wp_pure, wp_throw]
    split <;> rfl

theorem getMapping_eq (hroot : root ≠ 0) : getMapping A root va vm =
    match translate vm root va with
    | some pte => .ok (pageTableEntryToPhysical pte) vm
    | none => .error (.unexpected .kVmPageNotMapped) vm := by
  simp only [getMapping, bind, EStateM.bind, getEntry_eq A hroot]
  cases translate vm root va <;> rfl

theorem samePath_iff {va' : Addr} (h : IsCanonical va) (h' : IsCanonical va') :
    SamePath (kPageTableLevels - 1) (indices va) (indices va') ↔ va' = va := by
  constructor
  · intro hs
    exact (canonical_ext h h' hs).symm
  · rintro rfl k _
    rfl

theorem Owns.translate_eq (h : Owns vm (kPageTableLevels - 1) root T) (va : Addr) :
    translate vm root va = view x86 (kPageTableLevels - 1) T (indices va) := (h.view_eq va).symm

theorem Owns.translate_same {T' : PageTree (kPageTableLevels - 1)}
    (h' : Owns vm' (kPageTableLevels - 1) root T') (h : Owns vm (kPageTableLevels - 1) root T)
    (hview : view x86 (kPageTableLevels - 1) T' = view x86 (kPageTableLevels - 1) T) (va : Addr) :
    translate vm' root va = translate vm root va := by
  rw [h'.translate_eq, h.translate_eq, hview]

/-- From `vm` to `vm'` the translation of `va` becomes `r`, and no other changes. -/
def Remaps (vm vm' : Vm) (root va : Addr) (r : Option (BitVec 64)) : Prop :=
  ∀ va', IsCanonical va' → translate vm' root va' = if va' = va then r else translate vm root va'

theorem Owns.remaps_writeLeaf {t : Addr} (h : Owns vm (kPageTableLevels - 1) root T)
    (hva : IsCanonical va) (hw : walk x86 vm.mem (kPageTableLevels - 1) root (indices va) = some t)
    (pte : BitVec 64) :
    Remaps vm (vm.writeEntry t (indices va 0) pte) root va
      ((some pte).filter (isPageTableEntryValid ·)) := by
  intro va' hva'
  have hentry : (entry (kPageTableLevels - 1) T (indices va)).isSome := by
    rw [h.rep.entry_eq_walk (indices_lt va), hw]
    rfl
  rw [(Evolves.writeLeaf _ h (indices_lt va) hw pte).owns.translate_eq, h.translate_eq]
  by_cases he : va' = va
  · rw [if_pos he, view_setLeaf_same _ _ _ hentry ((samePath_iff hva hva').mpr he)]
    simp only [isSome_decode]
  · rw [if_neg he, view_setLeaf_other]
    exact fun hs => he ((samePath_iff hva hva').mp hs)

theorem Remaps.after {vm₁ : Vm} {r : Option (BitVec 64)} (h : Remaps vm₁ vm' root va r)
    (hsame : ∀ va', translate vm₁ root va' = translate vm root va') : Remaps vm vm' root va r := by
  intro va' hva'
  rw [h va' hva', hsame]

/-- `MapPage` keeps the tables of the directory, whatever its arguments. When it fails it has
only added empty tables; it does not succeed with fewer pages than the path lacks tables. -/
theorem wp_mapPage_extends (h : Owns vm (kPageTableLevels - 1) root T) (va pa : Addr)
    (flags : BitVec 32) :
    wp (mapPage A root va pa flags)
      (fun _ vm' => (∃ T', Extends vm vm' (kPageTableLevels - 1) root T T') ∧
        ∀ m, A.failsAfter m vm.calls vm.live = true →
          kPageTableLevels ≤ (tablePath vm root va).length + m)
      (fun e vm' => e = .unexpected .kVmMapFailed ∧
        ∃ T', Descends va vm vm' (kPageTableLevels - 1) root T T') vm := by
  simp only [mapPage, wp_bind, wp_assertTable h.root_nonnull, wp_findOrReport, wp_get, wp_ite,
    wp_pure, wp_modify, tablePath, h.rep.path_eq (indices_lt va)]
  refine wp_mono (wp_walkTables_alloc A va h) ?_ ?_
  · rintro t vm₁ ⟨hw, ⟨T₁, hT₁⟩, hbudget⟩
    split
    · exact ⟨⟨T₁, hT₁.toExtends⟩, hbudget⟩
    · exact ⟨⟨_, hT₁.toExtends.trans (Extends.writeLeaf _ hT₁.owns (indices_lt va) hw _)⟩, hbudget⟩
  · rintro e vm₁ ⟨rfl, T₁, hT₁⟩
    exact ⟨rfl, T₁, hT₁⟩

theorem wp_mapPage (h : Owns vm (kPageTableLevels - 1) root T) (hva : IsCanonical va) {pa : Addr}
    (hpa : IsPage pa) {flags : BitVec 32}
    (hflags : isPageTableEntryValid (flags.setWidth 64) = true) :
    wp (mapPage A root va pa flags)
      (fun _ vm' => ∃ pte, pageTableEntryToPhysical pte = pa ∧
        (flags.toNat < 2^12 → pte &&& ((1#64 <<< kPteAttributeBits) - 1) = flags.setWidth 64) ∧
        Remaps vm vm' root va (some pte))
      (fun _ _ => True) vm := by
  simp only [mapPage, wp_bind, wp_assertTable h.root_nonnull, wp_findOrReport, wp_get, wp_ite,
    wp_pure, wp_modify]
  refine wp_mono (wp_walkTables_alloc A va h) ?_ (fun _ _ _ => trivial)
  rintro t vm₁ ⟨hw, ⟨T₁, hT₁⟩, -⟩
  have hsame₁ := hT₁.owns.translate_same h hT₁.view
  split
  · rename_i hskip
    refine ⟨_, hskip.2.1, fun _ => hskip.2.2, ?_⟩
    intro va' _
    by_cases he : va' = va
    · rw [if_pos he, he, translate_of_walk hw, if_pos hskip.1]
    · rw [if_neg he, hsame₁]
  · refine ⟨_, toPhysical_toEntry hpa (flags.setWidth 64), ?_, ?_⟩
    · intro hlow
      rw [attributes_toEntry]
      apply BitVec.eq_of_toNat_eq
      have hmask : (0xFFF#64).toNat = 2 ^ 12 - 1 := rfl
      rw [BitVec.toNat_and, BitVec.toNat_setWidth, hmask, Nat.and_two_pow_sub_one_eq_mod]
      omega
    have hr := hT₁.owns.remaps_writeLeaf hva hw
      (physicalToPageTableEntry pa (flags.setWidth 64))
    rw [Option.filter_some, valid_toEntry, hflags] at hr
    exact hr.after hsame₁

theorem wp_mapPage_shortfall (hroot : root ≠ 0) (va pa : Addr) (flags : BitVec 32) (vm : Vm) :
    wp (mapPage A root va pa flags) (fun _ vm' => vm'.shortfall = vm.shortfall)
      (fun _ vm' => vm'.shortfall = vm.shortfall + 1) vm := by
  simp only [mapPage, wp_bind, wp_assertTable hroot, wp_findOrReport, wp_get, wp_ite, wp_pure, wp_modify]
  refine (wp_walkTables_shortfall A va _ root vm).imp ?_
  intro t vm₁ h
  split <;> exact h

theorem wp_unmapPage (h : Owns vm (kPageTableLevels - 1) root T) (va : Addr) :
    wp (unmapPage A root va)
      (fun _ vm' => (translate vm root va).isSome ∧
        (∃ T', Extends vm vm' (kPageTableLevels - 1) root T T') ∧
        (IsCanonical va → Remaps vm vm' root va none))
      (fun e vm' => e = .unexpected .kVmPageNotMapped ∧ vm' = vm ∧ translate vm root va = none)
      vm := by
  simp only [unmapPage, wp_bind, wp_assertTable h.root_nonnull, wp_find]
  cases hw : walk x86 vm.mem (kPageTableLevels - 1) root (indices va) with
  | none => exact ⟨trivial, trivial, translate_of_no_walk hw⟩
  | some t =>
    simp only [wp_get, wp_ite, wp_modify, wp_throw, translate_of_walk hw]
    split
    · exact ⟨rfl, ⟨_, Extends.writeLeaf _ h (indices_lt va) hw 0⟩,
        fun hva => h.remaps_writeLeaf hva hw 0⟩
    · exact ⟨trivial, trivial, rfl⟩

/-- A call on one page directory. -/
inductive VmCall where
  | mapPage (va pa : Addr) (flags : BitVec 32)
  | unmapPage (va : Addr)
  | getMapping (va : Addr)
deriving DecidableEq, Repr

namespace VmCall

def address : VmCall → Addr
  | mapPage va _ _ => va
  | unmapPage va => va
  | getMapping va => va

/-- Canonical addresses, frames below 2^52, flags below 2^12 with the valid bit. -/
def Valid : VmCall → Prop
  | mapPage va pa flags => IsCanonical va ∧ IsPage pa ∧ flags.toNat < 2^12 ∧
      isPageTableEntryValid (flags.setWidth 64) = true
  | unmapPage va => IsCanonical va
  | getMapping va => IsCanonical va

instance (c : VmCall) : Decidable c.Valid := by
  cases c <;> unfold Valid <;> infer_instance

def exec (root : Addr) : VmCall → VmM Unit
  | mapPage va pa flags => Memory.mapPage A root va pa flags
  | unmapPage va => Memory.unmapPage A root va
  | getMapping va => do
    let _ ← Memory.getMapping A root va

/-- Whether the call succeeds, and the memory after it. -/
def step (root : Addr) (c : VmCall) (vm : Vm) : Bool × Vm :=
  match c.exec A root vm with
  | .ok _ vm' => (true, vm')
  | .error _ vm' => (false, vm')

/-- What the call does to a translation when it succeeds. -/
def effect (va : Addr) (old : Option Addr) : VmCall × Bool → Option Addr
  | (mapPage va' pa _, true) => if va' = va then some pa else old
  | (unmapPage va', true) => if va' = va then none else old
  | _ => old

end VmCall

/-- The calls in order, with the log of them, latest first, and the memory reached. -/
def runCalls (root : Addr) (calls : List VmCall) (vm : Vm) : List (VmCall × Bool) × Vm :=
  calls.foldl (fun r c => ((c, (c.step A root r.2).1) :: r.1, (c.step A root r.2).2)) ([], vm)

/-- The frame of the last successful call on `va`, if that was a `MapPage`. -/
def lastMapping (va : Addr) : List (VmCall × Bool) → Option Addr
  | [] => none
  | e :: log => VmCall.effect va (lastMapping va log) e

/-- The frame that maps `va`. -/
def mapping (vm : Vm) (root va : Addr) : Option Addr :=
  (translate vm root va).map pageTableEntryToPhysical

theorem Remaps.mapping {r : Option (BitVec 64)} (h : Remaps vm vm' root va r) {va' : Addr}
    (hva' : IsCanonical va') : Memory.mapping vm' root va' =
      if va = va' then r.map pageTableEntryToPhysical else Memory.mapping vm root va' := by
  unfold Memory.mapping
  rw [h va' hva']
  by_cases he : va' = va
  · rw [if_pos he, if_pos he.symm]
  · rw [if_neg he, if_neg (Ne.symm he)]

section Frames

theorem exists_samePath {ix : ℕ → ℕ} (hix : ∀ k, ix k < kEntriesPerTable) :
    ∃ va, IsCanonical va ∧ SamePath (kPageTableLevels - 1) (indices va) ix := by
  have h₀ : ix 0 < 512 := hix 0
  have h₁ : ix 1 < 512 := hix 1
  have h₂ : ix 2 < 512 := hix 2
  have h₃ : ix 3 < 512 := hix 3
  obtain ⟨low, hlow⟩ : ∃ low, low = (((ix 3 * 512 + ix 2) * 512 + ix 1) * 512 + ix 0) * 4096 := ⟨_, rfl⟩
  -- bit 47 is copied into the bits above it
  obtain ⟨va, hva⟩ : ∃ va : Addr, va.toNat = if low < 2^47 then low else low + (2^64 - 2^48) := by
    refine ⟨BitVec.ofNat 64 (if low < 2^47 then low else low + (2^64 - 2^48)), ?_⟩
    rw [BitVec.toNat_ofNat]
    apply Nat.mod_eq_of_lt
    split <;> omega
  refine ⟨va, ?_, ?_⟩
  · unfold IsCanonical
    split at hva <;> omega
  · intro k hk
    have hk : k ≤ 3 := hk
    rw [indices, toNat_virtualPageNumber, hva]
    split <;> interval_cases k <;> omega

theorem Owns.mapping_eq_bind (h : Owns vm (kPageTableLevels - 1) root T) {ix : ℕ → ℕ}
    (hpath : SamePath (kPageTableLevels - 1) (indices va) ix) :
    mapping vm root va = (view x86 (kPageTableLevels - 1) T ix).bind x86.decode := by
  rw [mapping, h.translate_eq, view_congr hpath]
  cases hview : view x86 (kPageTableLevels - 1) T ix with
  | none => rfl
  | some pte =>
    have hvalid := (Option.filter_eq_some_iff.mp hview).2
    rw [isSome_decode] at hvalid
    exact (decode_of_valid hvalid).symm

theorem Owns.mem_leaves_iff (h : Owns vm (kPageTableLevels - 1) root T) {x : Addr} :
    x ∈ leaves x86 (kPageTableLevels - 1) T ↔ ∃ va, IsCanonical va ∧ mapping vm root va = some x := by
  constructor
  · rintro ⟨ix, hix, pte, hview, hdecode⟩
    obtain ⟨va, hva, hpath⟩ := exists_samePath hix
    refine ⟨va, hva, ?_⟩
    rw [h.mapping_eq_bind hpath, hview]
    exact hdecode
  · rintro ⟨va, -, hx⟩
    rw [h.mapping_eq_bind (fun _ _ => rfl)] at hx
    obtain ⟨pte, hview, hdecode⟩ := Option.bind_eq_some_iff.mp hx
    exact ⟨indices va, indices_lt va, pte, hview, hdecode⟩

theorem Owns.sole (h : Owns vm (kPageTableLevels - 1) root T)
    (honce : ∀ va va', IsCanonical va → IsCanonical va' → ∀ x, mapping vm root va = some x →
      mapping vm root va' = some x → va = va') : Sole x86 (kPageTableLevels - 1) T := by
  intro ix jx hix hjx v w hv hw hvw k hk
  obtain ⟨va, hva, hpath⟩ := exists_samePath hix
  obtain ⟨va', hva', hpath'⟩ := exists_samePath hjx
  obtain ⟨x, hx⟩ := Option.isSome_iff_exists.mp (Option.filter_eq_some_iff.mp hv).2
  have hmap : mapping vm root va = some x := by
    rw [h.mapping_eq_bind hpath, hv]
    exact hx
  have hmap' : mapping vm root va' = some x := by
    rw [h.mapping_eq_bind hpath', hw]
    exact hvw.symm.trans hx
  rw [← hpath k hk, ← hpath' k hk, honce va va' hva hva' x hmap hmap']

end Frames

/-- A frame is returned, or the error that the page is not mapped. -/
def answer (pa : Option Addr) (vm : Vm) : EStateM.Result VmStop Vm Addr :=
  match pa with
  | some pa => .ok pa vm
  | none => .error (.unexpected .kVmPageNotMapped) vm

theorem getMapping_eq_answer (hroot : root ≠ 0) :
    getMapping A root va vm = answer (mapping vm root va) vm := by
  rw [getMapping_eq A hroot, mapping]
  cases translate vm root va <;> rfl

theorem VmCall.step_getMapping (hroot : root ≠ 0) (va : Addr) :
    (VmCall.step A root (.getMapping va) vm).2 = vm := by
  simp only [step, exec, bind, EStateM.bind, getMapping_eq A hroot]
  cases translate vm root va <;> rfl

theorem VmCall.step_extends (h : Owns vm (kPageTableLevels - 1) root T) (c : VmCall) :
    ∃ T', Extends vm (c.step A root vm).2 (kPageTableLevels - 1) root T T' := by
  cases c with
  | mapPage va pa flags =>
    have hspec := wp_mapPage_extends A h va pa flags
    simp only [step, exec]
    cases hrun : Memory.mapPage A root va pa flags vm with
    | ok _ vm' => exact (hspec.of_ok hrun).1
    | error e vm' =>
      rcases hspec.of_error hrun with ⟨-, T', hT'⟩
      exact ⟨T', hT'.toExtends⟩
  | unmapPage va =>
    have hspec := wp_unmapPage A h va
    simp only [step, exec]
    cases hrun : Memory.unmapPage A root va vm with
    | ok _ vm' => exact (hspec.of_ok hrun).2.1
    | error e vm' =>
      rcases hspec.of_error hrun with ⟨-, rfl, -⟩
      exact ⟨T, Extends.refl h⟩
  | getMapping va =>
    rw [step_getMapping A h.root_nonnull]
    exact ⟨T, Extends.refl h⟩

theorem VmCall.step_mapping (h : Owns vm (kPageTableLevels - 1) root T) {c : VmCall}
    (hc : c.Valid) (hva : IsCanonical va) : mapping (c.step A root vm).2 root va =
      VmCall.effect va (mapping vm root va) (c, (c.step A root vm).1) := by
  cases c with
  | mapPage va' pa flags =>
    rcases hc with ⟨hva', hpa, -, hflags⟩
    simp only [step, exec]
    cases hrun : Memory.mapPage A root va' pa flags vm with
    | ok _ vm' =>
      rcases (wp_mapPage A h hva' hpa hflags).of_ok hrun with ⟨pte, rfl, -, hr⟩
      exact hr.mapping hva
    | error e vm' =>
      rcases (wp_mapPage_extends A h va' pa flags).of_error hrun with ⟨-, _, hT'⟩
      simp only [Memory.mapping, hT'.owns.translate_same h hT'.view, effect]
  | unmapPage va' =>
    simp only [step, exec]
    cases hrun : Memory.unmapPage A root va' vm with
    | ok _ vm' => exact (((wp_unmapPage A h va').of_ok hrun).2.2 hc).mapping hva
    | error e vm' =>
      rcases (wp_unmapPage A h va').of_error hrun with ⟨-, rfl, -⟩
      rfl
  | getMapping va' =>
    rw [step_getMapping A h.root_nonnull]
    rfl

theorem runCalls_concat (root : Addr) (calls : List VmCall) (c : VmCall) (vm : Vm) :
    runCalls A root (calls ++ [c]) vm =
      ((c, (c.step A root (runCalls A root calls vm).2).1) :: (runCalls A root calls vm).1,
        (c.step A root (runCalls A root calls vm).2).2) := by
  simp [runCalls, List.foldl_append]

theorem runCalls_extends (h : Owns vm (kPageTableLevels - 1) root T) (calls : List VmCall) :
    ∃ T', Extends vm (runCalls A root calls vm).2 (kPageTableLevels - 1) root T T' := by
  induction calls using List.reverseRecOn with
  | nil => exact ⟨T, Extends.refl h⟩
  | append_singleton calls c ih =>
    rcases ih with ⟨T₁, hT₁⟩
    rcases VmCall.step_extends A hT₁.owns c with ⟨T₂, hT₂⟩
    rw [runCalls_concat]
    exact ⟨T₂, hT₁.trans hT₂⟩

/-- After a run from an empty directory the mapping is the last one of the log. -/
theorem runCalls_mapping (h : Owns vm (kPageTableLevels - 1) root T)
    (hempty : ∀ va, IsCanonical va → mapping vm root va = none) {calls : List VmCall}
    (hcalls : ∀ c ∈ calls, c.Valid) (hva : IsCanonical va) :
    mapping (runCalls A root calls vm).2 root va = lastMapping va (runCalls A root calls vm).1 := by
  induction calls using List.reverseRecOn with
  | nil => exact hempty va hva
  | append_singleton calls c ih =>
    have hprev : ∀ d ∈ calls, d.Valid := fun d hd => hcalls d (List.mem_append_left _ hd)
    rcases runCalls_extends A h calls with ⟨T₁, hT₁⟩
    rw [runCalls_concat, VmCall.step_mapping A hT₁.owns (hcalls c (by simp)) hva, ih hprev,
      lastMapping]

theorem VmCall.effect_of_ne {c : VmCall} {ok : Bool} {old : Option Addr} (hne : c.address ≠ va) :
    VmCall.effect va old (c, ok) = old := by
  cases c <;> cases ok <;> simp_all [effect, address]

/-- After any calls on a zeroed root, `GetMapping` gives the last mapping of each
address, `UnmapPage` succeeds exactly on the mapped ones, a call on one address
leaves the others, and mapping again overrides. -/
theorem directory_refines_partialMap (hroot : root ≠ 0) (hlive : root ∈ vm.live)
    (hzero : ∀ i < kEntriesPerTable, vm.mem root i = 0) (calls : List VmCall)
    (hcalls : ∀ c ∈ calls, c.Valid) (va : Addr) (hva : IsCanonical va) :
    let log := (runCalls A root calls vm).1
    let vm' := (runCalls A root calls vm).2
    getMapping A root va vm' = answer (lastMapping va log) vm' ∧
    ((∃ vm'', unmapPage A root va vm' = .ok () vm'') ↔ (lastMapping va log).isSome) ∧
    (∀ c : VmCall, c.Valid → c.address ≠ va →
      getMapping A root va (c.step A root vm').2 =
        answer (lastMapping va log) (c.step A root vm').2) ∧
    (∀ pa flags vm'', (VmCall.mapPage va pa flags).Valid →
      mapPage A root va pa flags vm' = .ok () vm'' → getMapping A root va vm'' = .ok pa vm'') := by
  have hempty : ∀ va', IsCanonical va' → mapping vm root va' = none := by
    intro va' _
    rw [mapping, (Owns.blank hzero hlive hroot).translate_eq, view_blankTree]
    rfl
  rcases runCalls_extends A (Owns.blank hzero hlive hroot) calls with ⟨T', hT'⟩
  have hmap := runCalls_mapping A (Owns.blank hzero hlive hroot) hempty hcalls hva
  intro log vm'
  refine ⟨?_, ?_, ?_, ?_⟩
  · rw [getMapping_eq_answer A hroot, hmap]
  · rw [← hmap, mapping, Option.isSome_map]
    have hspec := wp_unmapPage A hT'.owns va
    constructor
    · rintro ⟨vm'', hrun⟩
      exact (hspec.of_ok hrun).1
    · intro hsome
      cases hrun : unmapPage A root va vm' with
      | ok _ vm'' => exact ⟨vm'', rfl⟩
      | error e vm'' =>
        rw [(hspec.of_error hrun).2.2] at hsome
        cases hsome
  · intro c hc hne
    rw [getMapping_eq_answer A hroot, VmCall.step_mapping A hT'.owns hc hva,
      VmCall.effect_of_ne hne, hmap]
  · rintro pa flags vm'' ⟨-, hpa, -, hflags⟩ hrun
    rcases (wp_mapPage A hT'.owns hva hpa hflags).of_ok hrun with ⟨pte, rfl, -, hr⟩
    rw [getMapping_eq A hroot, hr va hva, if_pos rfl]

/-- The theorem at an empty root with one page mapped and one call that fails. -/
theorem directory_refines_partialMap_example :
    let calls := [VmCall.unmapPage 0x400000, VmCall.mapPage 0x400000 0x9000 7]
    getMapping pageSequence 0x1000 0x400000 (runCalls pageSequence 0x1000 calls zeroedRoot).2 =
      answer (lastMapping 0x400000 (runCalls pageSequence 0x1000 calls zeroedRoot).1)
        (runCalls pageSequence 0x1000 calls zeroedRoot).2 :=
  (directory_refines_partialMap pageSequence (by decide) (by decide) (fun _ _ => rfl) _ (by decide)
    _ (by decide)).1

end NaiLongKernel.Memory
