import NaiLongKernel.Memory.Mapping

/-!
# Mapping a range of physical memory

`MapMMIO` maps the pages from the one that holds the first byte of the range to the one that
holds the last, each to itself. It stops at the first page that cannot be mapped.
-/
namespace NaiLongKernel.Memory

open Foundation Foundation.Radix

variable (A : Allocator)

/-- The loop of `MapMMIO`. Each turn advances by a page. -/
def mapIdentity (pageDir endPage : Addr) (flags : BitVec 32) : (fuel : ℕ) → (addr : Addr) → VmM Unit
  | 0, _ => pure ()
  | fuel+1, addr =>
    if addr < endPage then do
      mapPage A pageDir addr addr flags
      mapIdentity pageDir endPage flags fuel (addr + BitVec.ofNat 64 kPageSize)
    else pure ()

/-- The bounds are aligned, so that their distance in pages is fuel enough. -/
def mapMmio (kernelPageDir physAddr : Addr) (size : BitVec 64) (flags : BitVec 32) : VmM Addr := do
  let startPage := pageAlign physAddr
  let endPage := pageAlignUp (physAddr + size)
  mapIdentity A kernelPageDir endPage flags ((endPage.toNat - startPage.toNat) / kPageSize) startPage
  return physAddr

def MapsToSelf (vm : Vm) (pageDir : Addr) (flags : BitVec 32) (va : Addr) : Prop :=
  ∃ pte, translate vm pageDir va = some pte ∧ pageTableEntryToPhysical pte = va ∧
    pte &&& ((1#64 <<< kPteAttributeBits) - 1) = flags.setWidth 64

/-- The page holds an address of the range, or lies around it if the range is empty. -/
def Covers (physAddr : Addr) (size : BitVec 64) (va : Addr) : Prop :=
  va.toNat < physAddr.toNat + size.toNat ∧ physAddr.toNat < va.toNat + kPageSize

instance (physAddr : Addr) (size : BitVec 64) (va : Addr) : Decidable (Covers physAddr size va) :=
  inferInstanceAs (Decidable (_ ∧ _))

variable {vm : Vm} {root : Addr} {T : PageTree (kPageTableLevels - 1)} {flags : BitVec 32}

/-- What the loop has done to the pages from `addr` up to `endPage` when it ends. -/
def IdentityFrom (vm vm' : Vm) (root : Addr) (flags : BitVec 32) (addr endPage : Addr) : Prop :=
  ∀ va, IsCanonical va → (addr ≤ va ∧ va < endPage → MapsToSelf vm' root flags va) ∧
    (¬ (addr ≤ va ∧ va < endPage) → translate vm' root va = translate vm root va)

/-- The same when it stops early: each page as before or mapped to itself. -/
def PartlyIdentity (vm vm' : Vm) (root : Addr) (flags : BitVec 32) (addr endPage : Addr) : Prop :=
  ∀ va, IsCanonical va → translate vm' root va = translate vm root va ∨
    (addr ≤ va ∧ va < endPage) ∧ MapsToSelf vm' root flags va

theorem identityFrom_refl {addr endPage : Addr} (h : ¬ addr < endPage) (vm : Vm) :
    IdentityFrom vm vm root flags addr endPage := by
  intro va _
  refine ⟨?_, fun _ => rfl⟩
  rintro ⟨hle, hlt⟩
  rw [BitVec.lt_def] at h hlt
  rw [BitVec.le_def] at hle
  omega

theorem toNat_add_pageSize {addr : Addr} (h : addr.toNat < 2^47) :
    (addr + BitVec.ofNat 64 kPageSize).toNat = addr.toNat + 4096 := by
  have hsize : BitVec.ofNat 64 kPageSize = 4096#64 := rfl
  rw [hsize]
  bv_omega

section Turn

variable {vm₁ vm' : Vm} {addr endPage : Addr} {pte : BitVec 64}
variable (haligned : addr.toNat % 4096 = 0) (hlt : addr < endPage) (hbound : endPage.toNat ≤ 2^47)
  (hpage : pageTableEntryToPhysical pte = addr)
  (hattr : pte &&& ((1#64 <<< kPteAttributeBits) - 1) = flags.setWidth 64)
  (hmap : Remaps vm vm₁ root addr (some pte))
include haligned hlt hbound

theorem next_page_iff {va : Addr} (hva : IsCanonical va) :
    (addr ≤ va ∧ va < endPage) ↔ va = addr ∨ (addr + BitVec.ofNat 64 kPageSize ≤ va ∧ va < endPage) := by
  rw [BitVec.lt_def] at hlt
  rw [BitVec.le_def, BitVec.le_def, BitVec.lt_def, ← BitVec.toNat_inj, toNat_add_pageSize (by omega)]
  obtain ⟨hmod, -⟩ := hva
  omega

include hpage hattr hmap

theorem IdentityFrom.turn
    (h : IdentityFrom vm₁ vm' root flags (addr + BitVec.ofNat 64 kPageSize) endPage) :
    IdentityFrom vm vm' root flags addr endPage := by
  intro va hva
  obtain ⟨hin, hout⟩ := h va hva
  have hnow := hmap va hva
  rw [next_page_iff haligned hlt hbound hva]
  by_cases he : va = addr
  · subst he
    rw [if_pos rfl] at hnow
    refine ⟨fun _ => ?_, fun hnot => absurd (Or.inl rfl) hnot⟩
    by_cases hlater : va + BitVec.ofNat 64 kPageSize ≤ va ∧ va < endPage
    · exact hin hlater
    · exact ⟨pte, (hout hlater).trans hnow, hpage, hattr⟩
  · rw [if_neg he] at hnow
    refine ⟨fun h => hin (h.resolve_left he), fun hnot => ?_⟩
    exact (hout fun hlater => hnot (Or.inr hlater)).trans hnow

theorem PartlyIdentity.turn
    (h : PartlyIdentity vm₁ vm' root flags (addr + BitVec.ofNat 64 kPageSize) endPage) :
    PartlyIdentity vm vm' root flags addr endPage := by
  intro va hva
  have hnow := hmap va hva
  rw [next_page_iff haligned hlt hbound hva]
  obtain hkeep | ⟨hin, hself⟩ := h va hva
  · by_cases he : va = addr
    · subst he
      rw [if_pos rfl] at hnow
      exact Or.inr ⟨Or.inl rfl, pte, hkeep.trans hnow, hpage, hattr⟩
    · rw [if_neg he] at hnow
      exact Or.inl (hkeep.trans hnow)
  · exact Or.inr ⟨Or.inr hin, hself⟩

end Turn

theorem wp_mapIdentity (h : Owns vm (kPageTableLevels - 1) root T) (hlow : flags.toNat < 2^12)
    (hvalid : isPageTableEntryValid (flags.setWidth 64) = true) {addr endPage : Addr} {k fuel : ℕ}
    (haligned : addr.toNat % 4096 = 0) (hend : endPage.toNat - addr.toNat = 4096 * k)
    (hbound : endPage.toNat ≤ 2^47) (hfuel : k ≤ fuel) :
    wp (mapIdentity A root endPage flags fuel addr)
      (fun _ vm' => IdentityFrom vm vm' root flags addr endPage)
      (fun e vm' => e = .unexpected .kVmMapFailed ∧ PartlyIdentity vm vm' root flags addr endPage) vm := by
  induction k generalizing vm addr fuel T with
  | zero =>
    have hstop : ¬ addr < endPage := by
      rw [BitVec.lt_def]
      omega
    cases fuel with
    | zero =>
      rw [mapIdentity, wp_pure]
      exact identityFrom_refl hstop vm
    | succ fuel =>
      rw [mapIdentity, if_neg hstop, wp_pure]
      exact identityFrom_refl hstop vm
  | succ k ih =>
    obtain ⟨fuel, rfl⟩ : ∃ n, fuel = n + 1 := ⟨fuel - 1, by omega⟩
    have hlt : addr < endPage := by
      rw [BitVec.lt_def]
      omega
    have hnext : (addr + BitVec.ofNat 64 kPageSize).toNat = addr.toNat + 4096 :=
      toNat_add_pageSize (by omega)
    have hcanon : IsCanonical addr := ⟨haligned, Or.inl (by omega)⟩
    have hpage : IsPage addr := ⟨haligned, by omega⟩
    rw [mapIdentity, if_pos hlt, wp_bind]
    refine wp_mono (wp_and (wp_mapPage A h hcanon hpage hvalid) (wp_mapPage_extends A h addr addr flags))
      ?_ ?_
    · rintro _ vm₁ ⟨⟨pte, hphys, hattr, hmap⟩, ⟨T₁, hT₁⟩, -⟩
      refine wp_mono (ih hT₁.owns (by omega) (by omega) (by omega)) ?_ ?_
      · intro _ vm' hrest
        exact hrest.turn haligned hlt hbound hphys (hattr hlow) hmap
      · rintro e vm' ⟨he, hrest⟩
        exact ⟨he, hrest.turn haligned hlt hbound hphys (hattr hlow) hmap⟩
    · rintro e vm₁ ⟨-, he, T₁, hT₁⟩
      exact ⟨he, fun va _ => Or.inl (hT₁.owns.translate_same h hT₁.view va)⟩

theorem covers_iff {physAddr : Addr} {size : BitVec 64}
    (hrange : physAddr.toNat + size.toNat + 4095 < 2^47) {va : Addr} (hva : IsCanonical va) :
    (pageAlign physAddr ≤ va ∧ va < pageAlignUp (physAddr + size)) ↔ Covers physAddr size va := by
  have hsum : (physAddr + size).toNat = physAddr.toNat + size.toNat := by
    rw [BitVec.toNat_add]
    exact Nat.mod_eq_of_lt (by omega)
  rw [BitVec.le_def, BitVec.lt_def, toNat_pageAlign, toNat_pageAlignUp (by omega), hsum, Covers, kPageSize]
  obtain ⟨hmod, -⟩ := hva
  omega

/-- `MapMMIO` maps the pages that the range covers to themselves, with its flags, and no other
page. When it fails, a page of the range is as before or mapped to itself, and every other
page is as before. -/
theorem mapMmio_covers (h : Owns vm (kPageTableLevels - 1) root T) (physAddr : Addr)
    (size : BitVec 64) (hrange : physAddr.toNat + size.toNat + 4095 < 2^47) (flags : BitVec 32)
    (hlow : flags.toNat < 2^12) (hvalid : isPageTableEntryValid (flags.setWidth 64) = true) :
    match mapMmio A root physAddr size flags vm with
    | .ok r vm' => r = physAddr ∧ ∀ va, IsCanonical va →
        (Covers physAddr size va → MapsToSelf vm' root flags va) ∧
        (¬ Covers physAddr size va → translate vm' root va = translate vm root va)
    | .error e vm' => e = .unexpected .kVmMapFailed ∧ ∀ va, IsCanonical va →
        translate vm' root va = translate vm root va ∨
          Covers physAddr size va ∧ MapsToSelf vm' root flags va := by
  have hsum : (physAddr + size).toNat = physAddr.toNat + size.toNat := by
    rw [BitVec.toNat_add]
    exact Nat.mod_eq_of_lt (by omega)
  have hstart := toNat_pageAlign physAddr
  have hend := toNat_pageAlignUp (a := physAddr + size) (by omega)
  rw [hsum] at hend
  have hspec : wp (mapMmio A root physAddr size flags)
      (fun r vm' => r = physAddr ∧
        IdentityFrom vm vm' root flags (pageAlign physAddr) (pageAlignUp (physAddr + size)))
      (fun e vm' => e = .unexpected .kVmMapFailed ∧
        PartlyIdentity vm vm' root flags (pageAlign physAddr) (pageAlignUp (physAddr + size))) vm := by
    rw [mapMmio, wp_bind]
    refine wp_mono (wp_mapIdentity A h hlow hvalid (k := ((pageAlignUp (physAddr + size)).toNat -
      (pageAlign physAddr).toNat) / kPageSize) ?_ ?_ ?_ le_rfl) ?_ ?_
    · omega
    · rw [kPageSize]
      omega
    · omega
    · intro _ vm' hmaps
      rw [wp_pure]
      exact ⟨rfl, hmaps⟩
    · intro e vm' he
      exact he
  revert hspec
  rw [wp]
  cases mapMmio A root physAddr size flags vm with
  | ok r vm' =>
    rintro ⟨hr, hmaps⟩
    refine ⟨hr, fun va hva => ?_⟩
    have hpage := hmaps va hva
    rwa [covers_iff hrange hva] at hpage
  | error e vm' =>
    rintro ⟨he, hmaps⟩
    refine ⟨he, fun va hva => ?_⟩
    have hpage := hmaps va hva
    rwa [covers_iff hrange hva] at hpage

/-- A range over the middle of two pages, in an empty directory. -/
theorem mapMmio_covers_example : ∃ vm',
    mapMmio pageSequence 0x1000 0x401800 0x1000 3 zeroedRoot = .ok 0x401800 vm' ∧
      MapsToSelf vm' 0x1000 3 0x401000 ∧ MapsToSelf vm' 0x1000 3 0x402000 ∧
      translate vm' 0x1000 0x403000 = translate zeroedRoot 0x1000 0x403000 := by
  obtain ⟨vm', hrun⟩ : ∃ vm',
    mapMmio pageSequence 0x1000 0x401800 0x1000 3 zeroedRoot = .ok 0x401800 vm' := ⟨_, rfl⟩
  have hroot : Owns zeroedRoot (kPageTableLevels - 1) 0x1000 _ :=
    Owns.blank (fun _ _ => rfl) (by decide) (by decide)
  have hmaps := mapMmio_covers pageSequence hroot 0x401800 0x1000 (by decide) 3 (by decide) (by decide)
  rw [hrun] at hmaps
  obtain ⟨-, hpages⟩ := hmaps
  exact ⟨vm', hrun, (hpages 0x401000 (by decide)).1 (by decide), (hpages 0x402000 (by decide)).1 (by decide),
    (hpages 0x403000 (by decide)).2 (by decide)⟩

/-- An empty range that does not start at a page: the page around its start is mapped,
although it holds no address of the range. -/
theorem mapMmio_empty_range : ∃ vm',
    mapMmio pageSequence 0x1000 0x401800 0 3 zeroedRoot = .ok 0x401800 vm' ∧
      (∀ x : Addr, ¬ (0x401800 ≤ x.toNat ∧ x.toNat < 0x401800 + (0 : BitVec 64).toNat)) ∧
      translate zeroedRoot 0x1000 0x401000 = none ∧ (translate vm' 0x1000 0x401000).isSome := by
  refine ⟨_, rfl, ?_, by decide +kernel, by decide +kernel⟩
  intro x hx
  have hzero : (0 : BitVec 64).toNat = 0 := rfl
  omega

end NaiLongKernel.Memory
