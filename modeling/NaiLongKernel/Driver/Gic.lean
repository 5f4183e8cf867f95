import NaiLongKernel.Foundation.Registers

/-!
# The interrupt controller GIC

The distributor and the redistributors have one bit for every interrupt that says whether it
is enabled, and one that says whether it is pending. A read of the registers `ICENABLERn` and
`ICPENDRn` gives these bits, and a write of a one clears; the driver reads, adds a bit and
writes back. Targets, priorities and configurations are fields of a few bits, packed into
words that are plain memory.
-/
namespace NaiLongKernel.Driver

open Foundation

/-! ## The device -/

/-- What the register at an offset does; `n` is the number of its word. -/
inductive GicReg where
  | setEnable (n : ℕ)
  | clearEnable (n : ℕ)
  | setPending (n : ℕ)
  | clearPending (n : ℕ)
  /-- Any other register; it keeps what is written. -/
  | cell
deriving DecidableEq, Repr

/-- The enable and the pending bits, 32 to a word, and the other registers by their offsets. -/
structure GicBank where
  enabled : ℕ → BitVec 32
  pending : ℕ → BitVec 32
  cells : BitVec 32 → BitVec 32

namespace GicBank

def load (bank : GicBank) (off : BitVec 32) : GicReg → BitVec 32
  | .setEnable n => bank.enabled n
  | .clearEnable n => bank.enabled n
  | .setPending n => bank.pending n
  | .clearPending n => bank.pending n
  | .cell => bank.cells off

def setEnabled (bank : GicBank) (n : ℕ) (word : BitVec 32) : GicBank :=
  { bank with enabled := Function.update bank.enabled n word }

def setPending (bank : GicBank) (n : ℕ) (word : BitVec 32) : GicBank :=
  { bank with pending := Function.update bank.pending n word }

def setCell (bank : GicBank) (off val : BitVec 32) : GicBank :=
  { bank with cells := Function.update bank.cells off val }

theorem cells_setCell (bank : GicBank) (off val : BitVec 32) :
    (bank.setCell off val).cells = Function.update bank.cells off val := rfl

def store (bank : GicBank) (off val : BitVec 32) : GicReg → GicBank
  | .setEnable n => bank.setEnabled n (bank.enabled n ||| val)
  | .clearEnable n => bank.setEnabled n (bank.enabled n &&& ~~~val)
  | .setPending n => bank.setPending n (bank.pending n ||| val)
  | .clearPending n => bank.setPending n (bank.pending n &&& ~~~val)
  | .cell => bank.setCell off val

def isEnabled (bank : GicBank) (i : ℕ) : Bool := bitOf bank.enabled i

def isPending (bank : GicBank) (i : ℕ) : Bool := bitOf bank.pending i

end GicBank

/-- The offset of a word, which a parameter of type `uint32_t` receives. -/
def wordOffset (base n : BitVec 32) : BitVec 32 :=
  (base.setWidth 64 + n.setWidth 64 * 4).setWidth 32

/-! ## The distributor -/

namespace Gicd

def kISENABLERn : BitVec 32 := 0x0100
def kISENABLERn_SIZE : BitVec 32 := 32

def kICENABLERn : BitVec 32 := 0x0180
def kICENABLERn_SIZE : BitVec 32 := 32

def kICPENDRn : BitVec 32 := 0x0280
def kICPENDRn_SIZE : BitVec 32 := 32

def kIPRIORITYRn : BitVec 32 := 0x0400
def kIPRIORITYRn_SIZE : BitVec 32 := 4
def kIPRIORITYRn_BITS : BitVec 32 := 8
def kIPRIORITYRn_BITS_MASK : BitVec 32 := 0xFF

def kITARGETSRn : BitVec 32 := 0x0800
def kITARGETSRn_SIZE : BitVec 32 := 4
def kITARGETSRn_BITS : BitVec 32 := 8

def kICFGRn : BitVec 32 := 0x0C00
def kICFGRn_SIZE : BitVec 32 := 16
def kICFGRn_BITS : BitVec 32 := 2
def kICFGRn_BITS_MASK : BitVec 32 := 0x3
def kICFGRn_LevelSensitive : BitVec 32 := 0

/-- The registers of the distributor: 32 words for each of the four functions. -/
def reg (off : BitVec 32) : GicReg :=
  let n := off.toNat % 0x80 / 4
  if off < 0x100 then .cell
  else if off < 0x180 then .setEnable n
  else if off < 0x200 then .clearEnable n
  else if off < 0x280 then .setPending n
  else if off < 0x300 then .clearPending n
  else .cell

def read (bank : GicBank) (off : BitVec 32) : BitVec 32 := bank.load off (reg off)

def write (bank : GicBank) (off val : BitVec 32) : GicBank := bank.store off val (reg off)

/-- A word is read, the bit of the interrupt is added, and the word is written back. -/
def addBit (bank : GicBank) (base size intid : BitVec 32) : GicBank :=
  let word := read bank (wordOffset base (intid / size))
  let word := word ||| 1#32 <<< (intid % size)
  write bank (wordOffset base (intid / size)) word

def enable (bank : GicBank) (intid : BitVec 32) : GicBank :=
  addBit bank kISENABLERn kISENABLERn_SIZE intid

def disable (bank : GicBank) (intid : BitVec 32) : GicBank :=
  addBit bank kICENABLERn kICENABLERn_SIZE intid

def clear (bank : GicBank) (intid : BitVec 32) : GicBank :=
  addBit bank kICPENDRn kICPENDRn_SIZE intid

/-- The fields of `w` bits that are packed into the words from an offset on. -/
structure Layout (w : ℕ) where
  base : BitVec 32
  size : BitVec 32
  bits : BitVec 32
  bits_eq : bits.toNat = w
  fits : size.toNat * w = 32
  base_ge : 0x300 ≤ base.toNat
  base_lt : base.toNat < 0x1000

def prioLayout : Layout 8 where
  base := kIPRIORITYRn
  size := kIPRIORITYRn_SIZE
  bits := kIPRIORITYRn_BITS
  bits_eq := by decide
  fits := by decide
  base_ge := by decide
  base_lt := by decide

def targetLayout : Layout 8 where
  base := kITARGETSRn
  size := kITARGETSRn_SIZE
  bits := kITARGETSRn_BITS
  bits_eq := by decide
  fits := by decide
  base_ge := by decide
  base_lt := by decide

def configLayout : Layout 2 where
  base := kICFGRn
  size := kICFGRn_SIZE
  bits := kICFGRn_BITS
  bits_eq := by decide
  fits := by decide
  base_ge := by decide
  base_lt := by decide

/-- A word is read, the mask is cleared and the value is set at the field of the interrupt, and
the word is written back. -/
def setField {w : ℕ} (layout : Layout w) (bank : GicBank) (mask intid value : BitVec 32) :
    GicBank :=
  let shift := intid % layout.size * layout.bits
  let word := read bank (wordOffset layout.base (intid / layout.size))
  let word := word &&& ~~~(mask <<< shift)
  write bank (wordOffset layout.base (intid / layout.size)) (word ||| value <<< shift)

def setPrio (bank : GicBank) (intid prio : BitVec 32) : GicBank :=
  setField prioLayout bank kIPRIORITYRn_BITS_MASK intid prio

def setConfig (bank : GicBank) (intid config : BitVec 32) : GicBank :=
  setField configLayout bank kICFGRn_BITS_MASK intid config

/-- The mask is the one of the configuration fields, which have two bits. -/
def setTarget (bank : GicBank) (intid cpuid : BitVec 32) : GicBank :=
  setField targetLayout bank kICFGRn_BITS_MASK intid (1#32 <<< cpuid)

def setupSPI (bank : GicBank) (intid cpuid : BitVec 32) : GicBank :=
  let bank := setConfig bank intid kICFGRn_LevelSensitive
  let bank := setPrio bank intid 0
  let bank := setTarget bank intid cpuid
  let bank := clear bank intid
  enable bank intid

end Gicd

/-! ## The redistributors -/

/-- The frames of the redistributors, by their numbers from the base address on. -/
abbrev Redistributors := ℕ → GicBank

namespace Gicr

def kSTRIDE : BitVec 32 := 0x20000
def kISENABLER0 : BitVec 32 := 0x10100
def kISENABLER0_SIZE : BitVec 32 := 32
def kICENABLER0 : BitVec 32 := 0x10180
def kICENABLER0_SIZE : BitVec 32 := 32
def kICPENDR0 : BitVec 32 := 0x10280
def kICPENDR0_SIZE : BitVec 32 := 32
def kIPRIORITYRn : BitVec 32 := 0x10400
def kIPRIORITYRn_SIZE : BitVec 32 := 4
def kIPRIORITYRn_BITS : BitVec 32 := 8
def kIPRIORITYRn_BITS_MASK : BitVec 32 := 0xFF

/-- The registers of one frame: a word for each of the four functions. -/
def reg (off : ℕ) : GicReg :=
  if off = 0x10100 then .setEnable 0
  else if off = 0x10180 then .clearEnable 0
  else if off = 0x10200 then .setPending 0
  else if off = 0x10280 then .clearPending 0
  else .cell

/-- The distance from the base address; the product is one of 32 bits. -/
def distance (cpuid off : BitVec 32) : ℕ := (cpuid * kSTRIDE).toNat + off.toNat

def read (r : Redistributors) (cpuid off : BitVec 32) : BitVec 32 :=
  let place := distance cpuid off
  (r (place / 0x20000)).load (BitVec.ofNat 32 (place % 0x20000)) (reg (place % 0x20000))

def write (r : Redistributors) (cpuid off val : BitVec 32) : Redistributors :=
  let place := distance cpuid off
  Function.update r (place / 0x20000)
    ((r (place / 0x20000)).store (BitVec.ofNat 32 (place % 0x20000)) val (reg (place % 0x20000)))

def addBit (r : Redistributors) (off size intid cpuid : BitVec 32) : Redistributors :=
  let word := read r cpuid off
  let word := word ||| 1#32 <<< (intid % size)
  write r cpuid off word

def enable (r : Redistributors) (intid cpuid : BitVec 32) : Redistributors :=
  addBit r kISENABLER0 kISENABLER0_SIZE intid cpuid

def disable (r : Redistributors) (intid cpuid : BitVec 32) : Redistributors :=
  addBit r kICENABLER0 kICENABLER0_SIZE intid cpuid

def clear (r : Redistributors) (intid cpuid : BitVec 32) : Redistributors :=
  addBit r kICPENDR0 kICPENDR0_SIZE intid cpuid

def setPrio (r : Redistributors) (intid cpuid prio : BitVec 32) : Redistributors :=
  let shift := intid % kIPRIORITYRn_SIZE * kIPRIORITYRn_BITS
  let ip := read r cpuid (wordOffset kIPRIORITYRn (intid / kIPRIORITYRn_SIZE))
  let ip := ip &&& ~~~(kIPRIORITYRn_BITS_MASK <<< shift)
  let ip := ip ||| prio <<< shift
  write r cpuid (wordOffset kIPRIORITYRn (intid / kIPRIORITYRn_SIZE)) ip

def setupPPI (r : Redistributors) (intid cpuid : BitVec 32) : Redistributors :=
  let r := setPrio r intid cpuid 0
  let r := clear r intid cpuid
  enable r intid cpuid

def setupSGI (r : Redistributors) (intid cpuid : BitVec 32) : Redistributors :=
  let r := setPrio r intid cpuid 0
  let r := clear r intid cpuid
  enable r intid cpuid

end Gicr

/-! ## What the registers of one word do -/

theorem toNat_wordOffset {base n : BitVec 32} (h : base.toNat + 4 * n.toNat < 2 ^ 32) :
    (wordOffset base n).toNat = base.toNat + 4 * n.toNat := by
  have hfour : (4 : BitVec 64).toNat = 4 := rfl
  simp only [wordOffset, BitVec.toNat_setWidth, BitVec.toNat_add, BitVec.toNat_mul, hfour]
  omega

namespace GicBank

variable {bank bank' : GicBank} {intid : ℕ}

/-- The enable bit of the interrupt is cleared, and no other bit is changed. -/
def OnlyDisables (bank bank' : GicBank) (intid : ℕ) : Prop :=
  (∀ i, bank'.isEnabled i = (bank.isEnabled i && decide (i ≠ intid))) ∧
    ∀ i, bank'.isPending i = bank.isPending i

/-- The pending bit of the interrupt is cleared, and no other bit is changed. -/
def OnlyClears (bank bank' : GicBank) (intid : ℕ) : Prop :=
  (∀ i, bank'.isPending i = (bank.isPending i && decide (i ≠ intid))) ∧
    ∀ i, bank'.isEnabled i = bank.isEnabled i

/-- The bits of all other interrupts are what they were. -/
def LeavesOthers (bank bank' : GicBank) (intid : ℕ) : Prop :=
  ∀ i, i ≠ intid → bank'.isEnabled i = bank.isEnabled i ∧ bank'.isPending i = bank.isPending i

/-- No other interrupt of the same word is enabled. -/
def AloneEnabled (bank : GicBank) (intid : ℕ) : Prop :=
  ∀ i, i ≠ intid → i / 32 = intid / 32 → bank.isEnabled i = false

/-- No other interrupt of the same word is pending. -/
def AlonePending (bank : GicBank) (intid : ℕ) : Prop :=
  ∀ i, i ≠ intid → i / 32 = intid / 32 → bank.isPending i = false

theorem onlyDisables_iff (he : bank'.enabled = Function.update bank.enabled (intid / 32) 0)
    (hp : bank'.pending = bank.pending) :
    bank.OnlyDisables bank' intid ↔ bank.AloneEnabled intid := by
  simp only [OnlyDisables, isEnabled, isPending, he, hp, implies_true, and_true]
  exact clearWord_only_iff

theorem onlyClears_iff (hp : bank'.pending = Function.update bank.pending (intid / 32) 0)
    (he : bank'.enabled = bank.enabled) :
    bank.OnlyClears bank' intid ↔ bank.AlonePending intid := by
  simp only [OnlyClears, isEnabled, isPending, he, hp, implies_true, and_true]
  exact clearWord_only_iff

theorem leavesOthers_iff
    (he : bank'.enabled = Function.update bank.enabled (intid / 32)
      (bank.enabled (intid / 32) ||| 1#32 <<< (intid % 32)))
    (hp : bank'.pending = Function.update bank.pending (intid / 32) 0) :
    bank.LeavesOthers bank' intid ↔ bank.AlonePending intid := by
  have henabled : ∀ i, i ≠ intid → bank'.isEnabled i = bank.isEnabled i := by
    intro i hi
    rw [isEnabled, he, bitOf_setBit (by omega)]
    simp [hi, isEnabled]
  have hself : bank'.isPending intid = false := by
    rw [isPending, hp, bitOf, Function.update_self]
    simp
  have hclears : bank.AlonePending intid ↔
      ∀ i, bank'.isPending i = (bank.isPending i && decide (i ≠ intid)) := by
    simp only [isPending, hp]
    exact clearWord_only_iff.symm
  rw [hclears]
  constructor
  · intro h i
    by_cases hi : i = intid
    · simp [hi, hself]
    · simpa [hi] using (h i hi).2
  · intro h i hi
    exact ⟨henabled i hi, by simpa [hi] using h i⟩

/-! A word is read, one bit is added, and the word is written back. -/

theorem store_load_setEnable (off bit : BitVec 32) (n : ℕ) :
    bank.store off (bank.load off (.setEnable n) ||| bit) (.setEnable n) =
      bank.setEnabled n (bank.enabled n ||| bit) := by
  simp only [load, store]
  rw [← BitVec.or_assoc, BitVec.or_self]

theorem store_load_clearEnable (off bit : BitVec 32) (n : ℕ) :
    bank.store off (bank.load off (.clearEnable n) ||| bit) (.clearEnable n) =
      bank.setEnabled n 0 := by
  simp only [load, store, and_not_or_self]

theorem store_load_clearPending (off bit : BitVec 32) (n : ℕ) :
    bank.store off (bank.load off (.clearPending n) ||| bit) (.clearPending n) =
      bank.setPending n 0 := by
  simp only [load, store, and_not_or_self]

end GicBank

/-! ## One interrupt at a time -/

namespace Gicd

variable {bank : GicBank} {intid : BitVec 32}

theorem toNat_wordOffset_div {base size : BitVec 32} (hbase : base < 0x1000) (h : intid < 1024) :
    (wordOffset base (intid / size)).toNat = base.toNat + 4 * (intid.toNat / size.toNat) := by
  have hle : intid.toNat / size.toNat ≤ intid.toNat := Nat.div_le_self _ _
  have hb : base.toNat < 0x1000 := hbase
  have hi : intid.toNat < 1024 := h
  rw [toNat_wordOffset, BitVec.toNat_udiv]
  rw [BitVec.toNat_udiv]
  omega

theorem reg_setEnable {off : BitVec 32} {n : ℕ} (h : off.toNat = 0x100 + 4 * n) (hn : n < 32) :
    reg off = .setEnable n := by
  have hword : off.toNat % 0x80 / 4 = n := by omega
  simp only [reg, hword]
  rw [if_neg (by bv_omega), if_pos (by bv_omega)]

theorem reg_clearEnable {off : BitVec 32} {n : ℕ} (h : off.toNat = 0x180 + 4 * n) (hn : n < 32) :
    reg off = .clearEnable n := by
  have hword : off.toNat % 0x80 / 4 = n := by omega
  simp only [reg, hword]
  rw [if_neg (by bv_omega), if_neg (by bv_omega), if_pos (by bv_omega)]

theorem reg_clearPending {off : BitVec 32} {n : ℕ} (h : off.toNat = 0x280 + 4 * n) (hn : n < 32) :
    reg off = .clearPending n := by
  have hword : off.toNat % 0x80 / 4 = n := by omega
  simp only [reg, hword]
  rw [if_neg (by bv_omega), if_neg (by bv_omega), if_neg (by bv_omega), if_neg (by bv_omega),
    if_pos (by bv_omega)]

theorem reg_cell {off : BitVec 32} (h : 0x300 ≤ off.toNat) : reg off = .cell := by
  simp only [reg]
  rw [if_neg (by bv_omega), if_neg (by bv_omega), if_neg (by bv_omega), if_neg (by bv_omega),
    if_neg (by bv_omega)]

theorem read_cell {off : BitVec 32} (h : 0x300 ≤ off.toNat) : read bank off = bank.cells off := by
  rw [read, reg_cell h]
  rfl

theorem write_cell {off val : BitVec 32} (h : 0x300 ≤ off.toNat) :
    write bank off val = bank.setCell off val := by
  rw [write, reg_cell h]
  rfl

theorem enable_eq (h : intid < 1024) :
    enable bank intid = bank.setEnabled (intid.toNat / 32)
      (bank.enabled (intid.toNat / 32) ||| 1#32 <<< (intid.toNat % 32)) := by
  have hreg : reg (wordOffset kISENABLERn (intid / kISENABLERn_SIZE)) =
      .setEnable (intid.toNat / 32) :=
    reg_setEnable (toNat_wordOffset_div (by decide) h) (by bv_omega)
  simp only [enable, addBit, read, write, hreg, GicBank.store_load_setEnable]
  rfl

theorem disable_eq (h : intid < 1024) :
    disable bank intid = bank.setEnabled (intid.toNat / 32) 0 := by
  have hreg : reg (wordOffset kICENABLERn (intid / kICENABLERn_SIZE)) =
      .clearEnable (intid.toNat / 32) :=
    reg_clearEnable (toNat_wordOffset_div (by decide) h) (by bv_omega)
  simp only [disable, addBit, read, write, hreg, GicBank.store_load_clearEnable]

theorem clear_eq (h : intid < 1024) :
    clear bank intid = bank.setPending (intid.toNat / 32) 0 := by
  have hreg : reg (wordOffset kICPENDRn (intid / kICPENDRn_SIZE)) =
      .clearPending (intid.toNat / 32) :=
    reg_clearPending (toNat_wordOffset_div (by decide) h) (by bv_omega)
  simp only [clear, addBit, read, write, hreg, GicBank.store_load_clearPending]

theorem Layout.size_pos {w : ℕ} (layout : Layout w) : 0 < layout.size.toNat := by
  have hfits := layout.fits
  rw [Nat.pos_iff_ne_zero]
  intro hzero
  simp [hzero] at hfits

/-- The offset of the word that holds the field of an interrupt. -/
def Layout.offset {w : ℕ} (layout : Layout w) (intid : BitVec 32) : BitVec 32 :=
  wordOffset layout.base (intid / layout.size)

theorem Layout.toNat_offset {w : ℕ} (layout : Layout w) (h : intid < 1024) :
    (layout.offset intid).toNat = layout.base.toNat + 4 * (intid.toNat / layout.size.toNat) :=
  toNat_wordOffset_div layout.base_lt h

theorem setField_eq {w : ℕ} (layout : Layout w) (h : intid < 1024) (mask value : BitVec 32) :
    setField layout bank mask intid value = bank.setCell (layout.offset intid)
      (patch (bank.cells (layout.offset intid)) mask value
        (intid.toNat % layout.size.toNat * w)) := by
  have hoff : 0x300 ≤ (layout.offset intid).toNat := by
    rw [layout.toNat_offset h]
    exact le_trans layout.base_ge (Nat.le_add_right _ _)
  have hshift : (intid % layout.size * layout.bits).toNat =
      intid.toNat % layout.size.toNat * w := by
    have hfits := layout.fits
    have hlt : intid.toNat % layout.size.toNat < layout.size.toNat :=
      Nat.mod_lt _ layout.size_pos
    have hle := Nat.mul_le_mul_right w hlt.le
    rw [BitVec.toNat_mul, BitVec.toNat_umod, layout.bits_eq, Nat.mod_eq_of_lt (by omega)]
  simp only [setField, patch, BitVec.shiftLeft_eq', hshift]
  rw [← Layout.offset, read_cell hoff, write_cell hoff]

theorem setupSPI_eq (bank : GicBank) (h : intid < 1024) (cpuid : BitVec 32) :
    ∃ cells, setupSPI bank intid cpuid =
      { enabled := (enable bank intid).enabled, pending := (clear bank intid).pending, cells } := by
  simp only [setupSPI, setConfig, setPrio, setTarget, setField_eq _ h, clear_eq h, enable_eq h]
  exact ⟨_, rfl⟩

end Gicd

namespace Gicr

variable {r : Redistributors} {intid cpuid off : BitVec 32}

/-- The frame of a processor. -/
def frame (cpuid : BitVec 32) : ℕ := (cpuid * kSTRIDE).toNat / 0x20000

theorem distance_eq (cpuid : BitVec 32) (h : off.toNat < 0x20000) :
    distance cpuid off / 0x20000 = frame cpuid ∧ distance cpuid off % 0x20000 = off.toNat := by
  have hstride : kSTRIDE.toNat = 0x20000 := rfl
  simp only [distance, frame, BitVec.toNat_mul, hstride]
  omega

theorem read_eq (h : off.toNat < 0x20000) :
    read r cpuid off = (r (frame cpuid)).load off (reg off.toNat) := by
  obtain ⟨hframe, hoff⟩ := distance_eq cpuid h
  simp only [read, hframe, hoff, BitVec.ofNat_toNat, BitVec.setWidth_eq]

theorem write_eq (h : off.toNat < 0x20000) (val : BitVec 32) :
    write r cpuid off val =
      Function.update r (frame cpuid) ((r (frame cpuid)).store off val (reg off.toNat)) := by
  obtain ⟨hframe, hoff⟩ := distance_eq cpuid h
  simp only [write, hframe, hoff, BitVec.ofNat_toNat, BitVec.setWidth_eq]

theorem addBit_eq (h : off.toNat < 0x20000) :
    addBit r off 32 intid cpuid = Function.update r (frame cpuid) ((r (frame cpuid)).store off
      ((r (frame cpuid)).load off (reg off.toNat) ||| 1#32 <<< (intid.toNat % 32))
      (reg off.toNat)) := by
  simp only [addBit, read_eq h, write_eq h]
  rfl

theorem enable_eq : enable r intid cpuid = Function.update r (frame cpuid)
    ((r (frame cpuid)).setEnabled 0
      ((r (frame cpuid)).enabled 0 ||| 1#32 <<< (intid.toNat % 32))) :=
  (addBit_eq (by decide)).trans (congrArg _ (GicBank.store_load_setEnable _ _ 0))

theorem disable_eq :
    disable r intid cpuid = Function.update r (frame cpuid) ((r (frame cpuid)).setEnabled 0 0) :=
  (addBit_eq (by decide)).trans (congrArg _ (GicBank.store_load_clearEnable _ _ 0))

theorem clear_eq :
    clear r intid cpuid = Function.update r (frame cpuid) ((r (frame cpuid)).setPending 0 0) :=
  (addBit_eq (by decide)).trans (congrArg _ (GicBank.store_load_clearPending _ _ 0))

theorem setPrio_eq (r : Redistributors) (cpuid : BitVec 32) (h : intid < 32) (prio : BitVec 32) :
    ∃ off val, setPrio r intid cpuid prio =
      Function.update r (frame cpuid) ((r (frame cpuid)).setCell off val) := by
  have hbase : kIPRIORITYRn.toNat = 0x10400 := rfl
  have hdiv : (intid / kIPRIORITYRn_SIZE).toNat = intid.toNat / 4 := BitVec.toNat_udiv
  have hi : intid.toNat < 32 := h
  have hword : (wordOffset kIPRIORITYRn (intid / kIPRIORITYRn_SIZE)).toNat =
      0x10400 + 4 * (intid.toNat / 4) := by
    rw [toNat_wordOffset (by omega), hbase, hdiv]
  have hreg : reg (wordOffset kIPRIORITYRn (intid / kIPRIORITYRn_SIZE)).toNat = .cell := by
    rw [hword, reg, if_neg (by omega), if_neg (by omega), if_neg (by omega), if_neg (by omega)]
  simp only [setPrio]
  rw [write_eq (by omega), hreg]
  exact ⟨_, _, rfl⟩

theorem setupPPI_eq (r : Redistributors) (cpuid : BitVec 32) (h : intid < 32) :
    ∃ cells, setupPPI r intid cpuid = Function.update r (frame cpuid)
      { enabled := (enable r intid cpuid (frame cpuid)).enabled
        pending := (clear r intid cpuid (frame cpuid)).pending
        cells } := by
  obtain ⟨off, val, hprio⟩ := setPrio_eq r cpuid h 0
  simp only [setupPPI, hprio, clear_eq, enable_eq, Function.update_self, Function.update_idem]
  exact ⟨_, rfl⟩

end Gicr

/-- The frames of the other processors are what they were, and the two banks of this one are
related. -/
def Redistributors.Within (r r' : Redistributors) (cpuid : BitVec 32)
    (rel : GicBank → GicBank → Prop) : Prop :=
  (∀ f, f ≠ Gicr.frame cpuid → r' f = r f) ∧ rel (r (Gicr.frame cpuid)) (r' (Gicr.frame cpuid))

theorem Redistributors.within_update {r : Redistributors} {cpuid : BitVec 32}
    {rel : GicBank → GicBank → Prop} {bank : GicBank} :
    Redistributors.Within r (Function.update r (Gicr.frame cpuid) bank) cpuid rel ↔
      rel (r (Gicr.frame cpuid)) bank := by
  rw [Within, Function.update_self]
  exact and_iff_right fun f hf => Function.update_of_ne hf _ _

/-- `Disable` clears the enable bits, and `Clear` and the functions that set up an interrupt
clear the pending bits, of all interrupts of the word. -/
theorem gic_touches_one_iff (bank : GicBank) (r : Redistributors) (intid cpuid : BitVec 32) :
    (intid < 1024 →
      (bank.OnlyDisables (Gicd.disable bank intid) intid.toNat ↔
        bank.AloneEnabled intid.toNat) ∧
      (bank.OnlyClears (Gicd.clear bank intid) intid.toNat ↔ bank.AlonePending intid.toNat) ∧
      (bank.LeavesOthers (Gicd.setupSPI bank intid cpuid) intid.toNat ↔
        bank.AlonePending intid.toNat)) ∧
    (intid < 32 →
      (Redistributors.Within r (Gicr.disable r intid cpuid) cpuid
          (·.OnlyDisables · intid.toNat) ↔
        (r (Gicr.frame cpuid)).AloneEnabled intid.toNat) ∧
      (Redistributors.Within r (Gicr.clear r intid cpuid) cpuid (·.OnlyClears · intid.toNat) ↔
        (r (Gicr.frame cpuid)).AlonePending intid.toNat) ∧
      (Redistributors.Within r (Gicr.setupPPI r intid cpuid) cpuid
          (·.LeavesOthers · intid.toNat) ↔
        (r (Gicr.frame cpuid)).AlonePending intid.toNat) ∧
      (Redistributors.Within r (Gicr.setupSGI r intid cpuid) cpuid
          (·.LeavesOthers · intid.toNat) ↔
        (r (Gicr.frame cpuid)).AlonePending intid.toNat)) := by
  constructor
  · intro h
    refine ⟨?_, ?_, ?_⟩
    · rw [Gicd.disable_eq h]
      exact GicBank.onlyDisables_iff rfl rfl
    · rw [Gicd.clear_eq h]
      exact GicBank.onlyClears_iff rfl rfl
    · obtain ⟨cells, hsetup⟩ := Gicd.setupSPI_eq bank h cpuid
      rw [hsetup, Gicd.enable_eq h, Gicd.clear_eq h]
      exact GicBank.leavesOthers_iff rfl rfl
  · intro h
    have hword : intid.toNat / 32 = 0 := Nat.div_eq_of_lt h
    have hsetup : Redistributors.Within r (Gicr.setupPPI r intid cpuid) cpuid
        (·.LeavesOthers · intid.toNat) ↔ (r (Gicr.frame cpuid)).AlonePending intid.toNat := by
      obtain ⟨cells, hsetup⟩ := Gicr.setupPPI_eq r cpuid h
      rw [hsetup, Redistributors.within_update, Gicr.enable_eq, Gicr.clear_eq]
      simp only [Function.update_self]
      apply GicBank.leavesOthers_iff
      · rw [hword]
        rfl
      · rw [hword]
        rfl
    refine ⟨?_, ?_, hsetup, hsetup⟩
    · rw [Gicr.disable_eq, Redistributors.within_update]
      apply GicBank.onlyDisables_iff
      · rw [hword]
        rfl
      · rfl
    · rw [Gicr.clear_eq, Redistributors.within_update]
      apply GicBank.onlyClears_iff
      · rw [hword]
        rfl
      · rfl

/-- Interrupt 33 alone is enabled and pending. -/
theorem gic_touches_one_iff_example :
    let bank : GicBank := ⟨fun _ => 1#32 <<< 1, fun _ => 1#32 <<< 1, fun _ => 0⟩
    bank.OnlyDisables (Gicd.disable bank 33) 33 ∧ bank.OnlyClears (Gicd.clear bank 33) 33 ∧
      bank.LeavesOthers (Gicd.setupSPI bank 33 0) 33 ∧
      Redistributors.Within (fun _ => bank) (Gicr.setupPPI (fun _ => bank) 1 2) 2
        (·.LeavesOthers · 1) := by
  intro bank
  have halone : ∀ k, k % 32 = 1 → ∀ i, i ≠ k → i / 32 = k / 32 →
      bitOf (fun _ => 1#32 <<< 1) i = false := by
    intro k hk i hne hword
    rw [bitOf, getLsbD_one_shiftLeft (by decide)]
    exact decide_eq_false fun hbit => mod_ne_of_div_eq hne hword (hbit.trans hk.symm)
  obtain ⟨hdisable, hclear, hsetup⟩ := (gic_touches_one_iff bank (fun _ => bank) 33 0).1 (by decide)
  obtain ⟨-, -, hppi, -⟩ := (gic_touches_one_iff bank (fun _ => bank) 1 2).2 (by decide)
  exact ⟨hdisable.mpr (halone 33 rfl), hclear.mpr (halone 33 rfl), hsetup.mpr (halone 33 rfl),
    hppi.mpr (halone 1 rfl)⟩

/-- With 33 and 34 enabled and pending, disabling 33 disables 34, and clearing or setting up 33
clears 34. -/
theorem gic_touches_neighbour :
    let bank : GicBank := ⟨fun _ => 6, fun _ => 6, fun _ => 0⟩
    bank.isEnabled 34 = true ∧ bank.isPending 34 = true ∧
      (Gicd.disable bank 33).isEnabled 34 = false ∧ (Gicd.clear bank 33).isPending 34 = false ∧
      (Gicd.setupSPI bank 33 0).isPending 34 = false ∧
      (Gicr.disable (fun _ => bank) 1 0 0).isEnabled 2 = false ∧
      (Gicr.setupSGI (fun _ => bank) 1 0 0).isPending 2 = false := by
  decide

end NaiLongKernel.Driver
