import Mathlib.Tactic

/-!
# The x86_64 page-table format

Entry encoding and index extraction of the four-level format, and the arithmetic
facts about them: an entry built from a page gives that page back, and a canonical
page-aligned address is determined by its four indices.
-/
namespace NaiLongKernel.Memory

abbrev Addr := BitVec 64

def kValid : BitVec 64 := 1#64 <<< 0
def kWrite : BitVec 64 := 1#64 <<< 1
def kUser : BitVec 64 := 1#64 <<< 2
def kRead : BitVec 64 := 1#64 <<< 9
def kExec : BitVec 64 := 1#64 <<< 10

def kPageSize : ℕ := 4096
def kPteAttributeBits : ℕ := 12
def kPageOffsetBits : ℕ := 12
def kVpnBits : ℕ := 9
def kVpnMask : BitVec 64 := 0x1FF#64
def kPageTableLevels : ℕ := 4
def kEntriesPerTable : ℕ := kPageSize / 8

/-- Bits 12 to 51 of an entry, which hold the physical address. -/
def kPhysicalMask : BitVec 64 := 0x000FFFFFFFFFF000#64

def physicalToPageTableEntry (physicalAddr flags : BitVec 64) : BitVec 64 :=
  (physicalAddr &&& kPhysicalMask) ||| (flags &&& 0xFFF#64) ||| (flags &&& (1#64 <<< 63))

def pageTableEntryToPhysical (pte : BitVec 64) : Addr := pte &&& kPhysicalMask

def isPageTableEntryValid (pte : BitVec 64) : Bool := pte &&& kValid != 0#64

def getVirtualPageNumber (virtualAddr : Addr) (level : ℕ) : BitVec 64 :=
  (virtualAddr >>> (kPageOffsetBits + level * kVpnBits)) &&& kVpnMask

def pageAlign (addr : Addr) : Addr := addr &&& ~~~(BitVec.ofNat 64 kPageSize - 1)

def pageAlignUp (addr : Addr) : Addr :=
  (addr + BitVec.ofNat 64 kPageSize - 1) &&& ~~~(BitVec.ofNat 64 kPageSize - 1)

def getTableEntryPermissions : BitVec 64 := kValid ||| kWrite ||| kUser ||| kRead ||| kExec

def getUserPagePermissions (readable writable executable : Bool) : BitVec 64 :=
  let flags := kValid ||| kUser
  let flags := if readable then flags ||| kRead else flags
  let flags := if writable then flags ||| kWrite else flags
  if executable then flags ||| kExec else flags

/-- Page-aligned and below 2^52. -/
def IsPage (a : Addr) : Prop := a.toNat % 4096 = 0 ∧ a.toNat < 2^52

/-- Page-aligned, with bits 63 to 47 all equal. -/
def IsCanonical (va : Addr) : Prop :=
  va.toNat % 4096 = 0 ∧ (va.toNat < 2^47 ∨ 2^64 - 2^47 ≤ va.toNat)

instance (a : Addr) : Decidable (IsPage a) := inferInstanceAs (Decidable (_ ∧ _))
instance (va : Addr) : Decidable (IsCanonical va) := inferInstanceAs (Decidable (_ ∧ _))

theorem physicalMask_getLsbD : ∀ i : Fin 64,
    kPhysicalMask.getLsbD i = decide (12 ≤ i.val ∧ i.val < 52) := by
  decide

theorem isPage_iff_mask (a : Addr) : IsPage a ↔ a &&& kPhysicalMask = a := by
  have hmask : (a &&& kPhysicalMask = a) ↔ ∀ i < 64, a.getLsbD i = true → 12 ≤ i ∧ i < 52 := by
    constructor
    · intro h i hi ha
      have hb := congrArg (BitVec.getLsbD · i) h
      simp only [BitVec.getLsbD_and, ha, Bool.true_and] at hb
      simpa using (physicalMask_getLsbD ⟨i, hi⟩).symm.trans hb
    · intro h
      apply BitVec.eq_of_getLsbD_eq
      intro i hi
      rw [BitVec.getLsbD_and, physicalMask_getLsbD ⟨i, hi⟩]
      cases ha : a.getLsbD i with
      | false => rfl
      | true => simpa using h i hi ha
  rw [hmask]
  constructor
  · rintro ⟨hal, hlt⟩ i hi ha
    constructor
    · by_contra hlow
      have hbit : (a.toNat % 2^12).testBit i = false := by
        rw [show (2 : ℕ)^12 = 4096 from rfl, hal]
        exact Nat.zero_testBit i
      rw [Nat.testBit_mod_two_pow] at hbit
      rw [BitVec.getLsbD] at ha
      simp [ha] at hbit
      omega
    · by_contra hhigh
      have hbit : a.toNat.testBit i = false :=
        Nat.testBit_lt_two_pow (lt_of_lt_of_le hlt (Nat.pow_le_pow_right (by omega) (by omega)))
      rw [BitVec.getLsbD, hbit] at ha
      cases ha
  · intro h
    constructor
    · have hz : a.toNat % 2^12 = 0 := by
        apply Nat.eq_of_testBit_eq
        intro i
        rw [Nat.testBit_mod_two_pow, Nat.zero_testBit]
        by_cases hi : i < 12
        · cases ha : a.toNat.testBit i with
          | false => simp
          | true =>
            have := (h i (by omega) ha).1
            omega
        · simp [hi]
      exact hz
    · apply Nat.lt_pow_two_of_testBit
      intro i hi
      by_contra ha
      rw [Bool.not_eq_false] at ha
      by_cases h64 : i < 64
      · have := (h i h64 ha).2
        omega
      · have hlt : a.toNat < 2^i := lt_of_lt_of_le a.isLt (Nat.pow_le_pow_right (by omega) (by omega))
        rw [Nat.testBit_lt_two_pow hlt] at ha
        cases ha

private theorem or_and_distrib (x y z : BitVec 64) : (x ||| y) &&& z = (x &&& z) ||| (y &&& z) := by
  ext i
  simp [Bool.and_or_distrib_right]

theorem toPhysical_toEntry {pa : Addr} (hpa : IsPage pa) (flags : BitVec 64) :
    pageTableEntryToPhysical (physicalToPageTableEntry pa flags) = pa := by
  rw [isPage_iff_mask] at hpa
  have hlow : 0xFFF#64 &&& kPhysicalMask = 0 := by decide
  have hnx : (1#64 <<< 63) &&& kPhysicalMask = 0 := by decide
  unfold pageTableEntryToPhysical physicalToPageTableEntry
  rw [hpa, or_and_distrib, or_and_distrib, BitVec.and_assoc, hlow, BitVec.and_assoc, hnx, hpa]
  simp

theorem valid_toEntry (pa flags : BitVec 64) :
    isPageTableEntryValid (physicalToPageTableEntry pa flags) = isPageTableEntryValid flags := by
  have hmask : kPhysicalMask &&& kValid = 0 := by decide
  have hlow : 0xFFF#64 &&& kValid = kValid := by decide
  have hnx : (1#64 <<< 63) &&& kValid = 0 := by decide
  unfold isPageTableEntryValid physicalToPageTableEntry
  rw [or_and_distrib, or_and_distrib, BitVec.and_assoc, hmask, BitVec.and_assoc, hlow, BitVec.and_assoc, hnx]
  simp

theorem attributes_toEntry (pa flags : BitVec 64) :
    physicalToPageTableEntry pa flags &&& ((1#64 <<< kPteAttributeBits) - 1) = flags &&& 0xFFF#64 := by
  have hmask : (1#64 <<< kPteAttributeBits) - 1 = 0xFFF#64 := by decide
  have hphys : kPhysicalMask &&& 0xFFF#64 = 0 := by decide
  have hlow : 0xFFF#64 &&& 0xFFF#64 = 0xFFF#64 := by decide
  have hnx : (1#64 <<< 63) &&& 0xFFF#64 = 0 := by decide
  unfold physicalToPageTableEntry
  rw [hmask, or_and_distrib, or_and_distrib, BitVec.and_assoc, hphys, BitVec.and_assoc, hlow,
    BitVec.and_assoc, hnx]
  simp

theorem pageMask_getLsbD : ∀ i : Fin 64,
    (~~~(BitVec.ofNat 64 kPageSize - 1)).getLsbD i = decide (12 ≤ i.val) := by
  decide

theorem toNat_pageAlign (a : Addr) : (pageAlign a).toNat = a.toNat / 4096 * 4096 := by
  have hshift : pageAlign a = (a >>> 12) <<< 12 := by
    apply BitVec.eq_of_getLsbD_eq
    intro i hi
    rw [pageAlign, BitVec.getLsbD_and, pageMask_getLsbD ⟨i, hi⟩]
    by_cases h : 12 ≤ i
    · simp [h, hi, show ¬ i < 12 by omega]
    · simp [h, show i < 12 by omega]
  have ha := a.isLt
  rw [hshift, BitVec.toNat_shiftLeft, BitVec.toNat_ushiftRight, Nat.shiftRight_eq_div_pow,
    Nat.shiftLeft_eq]
  omega

theorem toNat_pageAlignUp {a : Addr} (h : a.toNat + 4095 < 2 ^ 64) :
    (pageAlignUp a).toNat = (a.toNat + 4095) / 4096 * 4096 := by
  have hsum : (a + BitVec.ofNat 64 kPageSize - 1).toNat = a.toNat + 4095 := by
    have hsize : BitVec.ofNat 64 kPageSize = 4096 := rfl
    rw [hsize]
    bv_omega
  have halign := toNat_pageAlign (a + BitVec.ofNat 64 kPageSize - 1)
  rwa [hsum] at halign

theorem toNat_virtualPageNumber (va : Addr) (level : ℕ) :
    (getVirtualPageNumber va level).toNat = va.toNat / 2^(12 + level*9) % 512 := by
  unfold getVirtualPageNumber kVpnMask kPageOffsetBits kVpnBits
  rw [BitVec.toNat_and, BitVec.toNat_ushiftRight, Nat.shiftRight_eq_div_pow]
  exact Nat.and_two_pow_sub_one_eq_mod _ 9

theorem virtualPageNumber_lt (va : Addr) (level : ℕ) :
    (getVirtualPageNumber va level).toNat < kEntriesPerTable := by
  rw [toNat_virtualPageNumber]
  exact Nat.mod_lt _ (by decide)

/-- The four indices determine a canonical page-aligned address. -/
theorem canonical_ext {va va' : Addr} (h : IsCanonical va) (h' : IsCanonical va')
    (hv : ∀ k ≤ 3, (getVirtualPageNumber va k).toNat = (getVirtualPageNumber va' k).toNat) :
    va = va' := by
  have h0 := hv 0 (by omega)
  have h1 := hv 1 (by omega)
  have h2 := hv 2 (by omega)
  have h3 := hv 3 (by omega)
  simp only [toNat_virtualPageNumber] at h0 h1 h2 h3
  norm_num at h0 h1 h2 h3
  obtain ⟨ha, hc⟩ := h
  obtain ⟨ha', hc'⟩ := h'
  have hlt := va.isLt
  have hlt' := va'.isLt
  apply BitVec.eq_of_toNat_eq
  omega

end NaiLongKernel.Memory
