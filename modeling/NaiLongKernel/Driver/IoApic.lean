import Mathlib.Data.BitVec
import Mathlib.Tactic

/-!
# The redirection table of the IO APIC

An entry of the table has 64 bits and is written as two words of 32 bits, each through a
register that selects and a window. The functions of `IoApic` run on a bus that keeps what
the device was after every single write, because the device may deliver an interrupt between
any two of them.
-/
namespace NaiLongKernel.Driver

/-- The register that selects, and the registers behind the window. -/
structure IoApicDevice where
  select : BitVec 32
  regs : BitVec 32 → BitVec 32

/-- The device, and what it was after each write, latest last. -/
structure IoApicBus where
  device : IoApicDevice
  seen : List IoApicDevice

abbrev IoApicM := StateM IoApicBus

namespace IoApic

def kRegSel : BitVec 32 := 0x00
def kRegWin : BitVec 32 := 0x10
def kRegVer : BitVec 32 := 0x01
def kRedTblBase : BitVec 32 := 0x10
def kVectorMask : BitVec 64 := 0xFF
def kMaskBit : BitVec 64 := 1 <<< 16
def kDestApicIdShift : ℕ := 56
def kDestApicIdMask : BitVec 64 := 0xFF
def kDefaultIoApicBase : BitVec 64 := 0xFEC00000

end IoApic

namespace IoApicDevice

/-- A write of 32 bits to the device at its default address. -/
def store (d : IoApicDevice) (addr : BitVec 64) (data : BitVec 32) : IoApicDevice :=
  if addr = IoApic.kDefaultIoApicBase + IoApic.kRegSel.setWidth 64 then
    { d with select := data }
  else if addr = IoApic.kDefaultIoApicBase + IoApic.kRegWin.setWidth 64 then
    { d with regs := Function.update d.regs d.select data }
  else d

def load (d : IoApicDevice) (addr : BitVec 64) : BitVec 32 :=
  if addr = IoApic.kDefaultIoApicBase + IoApic.kRegWin.setWidth 64 then d.regs d.select
  else d.select

end IoApicDevice

namespace IoApic

/-- `io::Out<uint32_t>`. -/
def out (addr : BitVec 64) (data : BitVec 32) : IoApicM Unit :=
  modify fun bus => ⟨bus.device.store addr data, bus.seen ++ [bus.device.store addr data]⟩

/-- `io::In<uint32_t>`. -/
def inp (addr : BitVec 64) : IoApicM (BitVec 32) := do
  return (← get).device.load addr

def read (reg : BitVec 32) : IoApicM (BitVec 32) := do
  out (kDefaultIoApicBase + kRegSel.setWidth 64) reg
  inp (kDefaultIoApicBase + kRegWin.setWidth 64)

def write (reg value : BitVec 32) : IoApicM Unit := do
  out (kDefaultIoApicBase + kRegSel.setWidth 64) reg
  out (kDefaultIoApicBase + kRegWin.setWidth 64) value

def lowReg (irq : BitVec 8) : BitVec 32 := kRedTblBase + irq.setWidth 32 * 2

def highReg (irq : BitVec 8) : BitVec 32 := lowReg irq + 1

def readRedirectionEntry (irq : BitVec 8) : IoApicM (BitVec 64) := do
  let low ← read (lowReg irq)
  let high ← read (highReg irq)
  return high.setWidth 64 <<< 32 ||| low.setWidth 64

def writeRedirectionEntry (irq : BitVec 8) (value : BitVec 64) : IoApicM Unit := do
  let low := (value &&& 0xFFFFFFFF).setWidth 32
  let high := (value >>> 32 &&& 0xFFFFFFFF).setWidth 32
  write (lowReg irq) low
  write (highReg irq) high

def getMaxRedirectionEntries : IoApicM (BitVec 32) := do
  return ((← read kRegVer) >>> 16 &&& 0xFF) + 1

/-- The entry that `SetIrqRedirection` builds. -/
def redirection (vector : BitVec 8) (destinationApicId : BitVec 32) (mask : Bool) : BitVec 64 :=
  let entry := vector.setWidth 64 &&& kVectorMask
  let entry := if mask then entry ||| kMaskBit else entry
  entry ||| (destinationApicId.setWidth 64 &&& kDestApicIdMask) <<< kDestApicIdShift

/-- The check that the three operations begin with. -/
def checked (irq : BitVec 8) (body : IoApicM Unit) : IoApicM Unit := do
  let maxEntries ← getMaxRedirectionEntries
  if irq.setWidth 32 ≥ maxEntries then
    return
  body

def setIrqRedirection (irq vector : BitVec 8) (destinationApicId : BitVec 32) (mask : Bool) :
    IoApicM Unit :=
  checked irq do
    writeRedirectionEntry irq (redirection vector destinationApicId mask)

def maskIrq (irq : BitVec 8) : IoApicM Unit :=
  checked irq do
    let entry ← readRedirectionEntry irq
    writeRedirectionEntry irq (entry ||| kMaskBit)

def unmaskIrq (irq : BitVec 8) : IoApicM Unit :=
  checked irq do
    let entry ← readRedirectionEntry irq
    writeRedirectionEntry irq (entry &&& ~~~kMaskBit)

end IoApic

/-- An operation with its arguments. -/
inductive IrqOp where
  | setIrqRedirection (irq vector : BitVec 8) (destinationApicId : BitVec 32) (mask : Bool)
  | maskIrq (irq : BitVec 8)
  | unmaskIrq (irq : BitVec 8)
deriving DecidableEq, Repr

namespace IrqOp

def irq : IrqOp → BitVec 8
  | setIrqRedirection irq _ _ _ => irq
  | maskIrq irq => irq
  | unmaskIrq irq => irq

def exec : IrqOp → IoApicM Unit
  | setIrqRedirection irq vector destination mask =>
    IoApic.setIrqRedirection irq vector destination mask
  | maskIrq irq => IoApic.maskIrq irq
  | unmaskIrq irq => IoApic.unmaskIrq irq

/-- The device after the operation. -/
def after (op : IrqOp) (d : IoApicDevice) : IoApicDevice := (op.exec.run ⟨d, []⟩).2.device

/-- What the device is after each write of the operation. -/
def seen (op : IrqOp) (d : IoApicDevice) : List IoApicDevice := (op.exec.run ⟨d, []⟩).2.seen

end IrqOp

/-! ## Entries -/

namespace IoApicDevice

variable (d : IoApicDevice) {irq other : BitVec 8} {low high value : BitVec 32}

/-- The entry that the device delivers an interrupt by. -/
def entry (irq : BitVec 8) : BitVec 64 :=
  d.regs (IoApic.highReg irq) ++ d.regs (IoApic.lowReg irq)

/-- Bit 16. -/
def masked (irq : BitVec 8) : Bool := (d.entry irq).getLsbD 16

/-- The number of entries. -/
def entries : BitVec 32 := (d.regs IoApic.kRegVer >>> 16 &&& 0xFF) + 1

/-- The device with another register selected. -/
def choose (reg : BitVec 32) : IoApicDevice := { d with select := reg }

/-- The device after one register was selected and written. -/
def put (reg value : BitVec 32) : IoApicDevice := ⟨reg, Function.update d.regs reg value⟩

@[simp] theorem regs_choose (reg : BitVec 32) : (d.choose reg).regs = d.regs := rfl

theorem regs_put (reg value : BitVec 32) :
    (d.put reg value).regs = Function.update d.regs reg value := rfl

@[simp] theorem entry_choose (reg : BitVec 32) : (d.choose reg).entry irq = d.entry irq := rfl

@[simp] theorem choose_choose (reg reg' : BitVec 32) :
    (d.choose reg).choose reg' = d.choose reg' := rfl

@[simp] theorem put_choose (reg reg' value : BitVec 32) :
    (d.choose reg).put reg' value = d.put reg' value := rfl

theorem store_select (reg : BitVec 32) :
    d.store (IoApic.kDefaultIoApicBase + IoApic.kRegSel.setWidth 64) reg = d.choose reg := by
  simp [store, choose]

theorem store_window (reg value : BitVec 32) :
    (d.choose reg).store (IoApic.kDefaultIoApicBase + IoApic.kRegWin.setWidth 64) value =
      d.put reg value := by
  simp [store, choose, put, IoApic.kRegWin, IoApic.kRegSel]

theorem load_window (reg : BitVec 32) :
    (d.choose reg).load (IoApic.kDefaultIoApicBase + IoApic.kRegWin.setWidth 64) = d.regs reg := by
  simp [load, choose]

theorem entry_congr {d d' : IoApicDevice} (h : d'.regs = d.regs) (irq : BitVec 8) :
    d'.entry irq = d.entry irq := by
  rw [entry, entry, h]

/-! The words of the table are registers of their own. -/

theorem lowReg_ne_highReg : IoApic.lowReg irq ≠ IoApic.highReg other := by
  simp only [IoApic.lowReg, IoApic.highReg, IoApic.kRedTblBase]
  bv_omega

theorem lowReg_injective (h : IoApic.lowReg irq = IoApic.lowReg other) : irq = other := by
  simp only [IoApic.lowReg, IoApic.kRedTblBase] at h
  bv_omega

theorem highReg_injective (h : IoApic.highReg irq = IoApic.highReg other) : irq = other :=
  lowReg_injective (add_right_cancel h)

theorem entry_put_low (irq : BitVec 8) (low : BitVec 32) :
    (d.put (IoApic.lowReg irq) low).entry irq = d.regs (IoApic.highReg irq) ++ low := by
  rw [entry, regs_put, Function.update_self, Function.update_of_ne lowReg_ne_highReg.symm]

theorem entry_put_low_of_ne (h : other ≠ irq) :
    (d.put (IoApic.lowReg irq) low).entry other = d.entry other := by
  rw [entry, regs_put, Function.update_of_ne lowReg_ne_highReg.symm,
    Function.update_of_ne fun he => h (lowReg_injective he), entry]

theorem entry_put_high :
    (d.put (IoApic.highReg irq) high).entry irq = high ++ d.regs (IoApic.lowReg irq) := by
  rw [entry, regs_put, Function.update_self, Function.update_of_ne lowReg_ne_highReg]

theorem entry_put_high_of_ne (h : other ≠ irq) :
    (d.put (IoApic.highReg irq) high).entry other = d.entry other := by
  rw [entry, regs_put, Function.update_of_ne fun he => h (highReg_injective he),
    Function.update_of_ne lowReg_ne_highReg, entry]

theorem append_eq_iff {v : BitVec 64} :
    high ++ low = v ↔ high = v.extractLsb' 32 32 ∧ low = v.extractLsb' 0 32 := by
  constructor
  · rintro rfl
    constructor
    · rw [BitVec.extractLsb'_append_eq_of_le (by rfl)]
      simp
    · rw [BitVec.extractLsb'_append_eq_of_add_le (by rfl)]
      simp
  · rintro ⟨rfl, rfl⟩
    rw [BitVec.extractLsb'_append_extractLsb'_eq_extractLsb' (by rfl)]
    simp

/-- The device after both words of an entry were written. -/
def putEntry (irq : BitVec 8) (value : BitVec 64) : IoApicDevice :=
  (d.put (IoApic.lowReg irq) (value.extractLsb' 0 32)).put (IoApic.highReg irq)
    (value.extractLsb' 32 32)

theorem entry_putEntry (value : BitVec 64) : (d.putEntry irq value).entry irq = value := by
  rw [putEntry, entry_put_high, regs_put, Function.update_self]
  exact append_eq_iff.mpr ⟨rfl, rfl⟩

theorem entry_putEntry_of_ne (value : BitVec 64) (h : other ≠ irq) :
    (d.putEntry irq value).entry other = d.entry other := by
  rw [putEntry, entry_put_high_of_ne _ h, entry_put_low_of_ne _ h]

end IoApicDevice

/-! ## What an operation writes -/

theorem setWidth_and_low (value : BitVec 64) :
    (value &&& 0xFFFFFFFF).setWidth 32 = value.setWidth 32 := by
  apply BitVec.eq_of_toNat_eq
  have hmod := Nat.and_two_pow_sub_one_eq_mod value.toNat 32
  have hones : (0xFFFFFFFF : BitVec 64).toNat = 2 ^ 32 - 1 := rfl
  simp only [BitVec.toNat_setWidth, BitVec.toNat_and]
  rw [hones, hmod, Nat.mod_mod]

theorem shiftLeft_or_eq_append (high low : BitVec 32) :
    high.setWidth 64 <<< 32 ||| low.setWidth 64 = high ++ low := by
  apply BitVec.eq_of_getLsbD_eq
  intro i hi
  simp only [BitVec.getLsbD_or, BitVec.getLsbD_shiftLeft, BitVec.getLsbD_setWidth,
    BitVec.getLsbD_append]
  by_cases h : i < 32
  · simp [h, hi]
  · have hsub : i - 32 < 64 := by omega
    have hlow : low.getLsbD i = false := low.getLsbD_of_ge i (by omega)
    simp [h, hi, hsub, hlow]

theorem run_bind_of_eq {σ α β : Type} {x : StateM σ α} {f : α → StateM σ β} {s t : σ} {a : α}
    (h : x.run s = (a, t)) : (x >>= f).run s = (f a).run t := by
  rw [StateT.run_bind, h]
  rfl

namespace IoApic

variable (d : IoApicDevice) (seen : List IoApicDevice) (irq : BitVec 8)

theorem run_read (reg : BitVec 32) :
    (read reg).run ⟨d, seen⟩ = (d.regs reg, ⟨d.choose reg, seen ++ [d.choose reg]⟩) := by
  rw [← d.load_window reg, ← d.store_select reg]
  rfl

theorem run_write (reg value : BitVec 32) :
    (write reg value).run ⟨d, seen⟩ =
      ((), ⟨d.put reg value, seen ++ [d.choose reg] ++ [d.put reg value]⟩) := by
  rw [← d.store_window reg value, ← d.store_select reg]
  rfl

theorem run_readRedirectionEntry :
    (readRedirectionEntry irq).run ⟨d, seen⟩ = (d.entry irq,
      ⟨d.choose (highReg irq), seen ++ [d.choose (lowReg irq)] ++ [d.choose (highReg irq)]⟩) := by
  rw [readRedirectionEntry, run_bind_of_eq (run_read d seen _), run_bind_of_eq (run_read _ _ _),
    IoApicDevice.entry, ← shiftLeft_or_eq_append]
  rfl

theorem run_writeRedirectionEntry (value : BitVec 64) :
    (writeRedirectionEntry irq value).run ⟨d, seen⟩ = ((), ⟨d.putEntry irq value, seen ++
      [d.choose (lowReg irq)] ++ [d.put (lowReg irq) (value.extractLsb' 0 32)] ++
        [(d.put (lowReg irq) (value.extractLsb' 0 32)).choose (highReg irq)] ++
        [d.putEntry irq value]⟩) := by
  have hlow : (value &&& 0xFFFFFFFF).setWidth 32 = value.extractLsb' 0 32 :=
    setWidth_and_low value
  have hhigh : (value >>> 32 &&& 0xFFFFFFFF).setWidth 32 = value.extractLsb' 32 32 := by
    rw [setWidth_and_low, BitVec.setWidth_ushiftRight_eq_extractLsb]
  simp only [writeRedirectionEntry, hlow, hhigh]
  rw [run_bind_of_eq (run_write d seen _ _), run_write]
  rfl

theorem run_checked (body : IoApicM Unit) :
    (checked irq body).run ⟨d, seen⟩ =
      if irq.setWidth 32 < d.entries then
        body.run ⟨d.choose kRegVer, seen ++ [d.choose kRegVer]⟩
      else ((), ⟨d.choose kRegVer, seen ++ [d.choose kRegVer]⟩) := by
  have hmax : getMaxRedirectionEntries.run ⟨d, seen⟩ =
      (d.entries, ⟨d.choose kRegVer, seen ++ [d.choose kRegVer]⟩) := by
    rw [getMaxRedirectionEntries, run_bind_of_eq (run_read d seen _)]
    rfl
  rw [checked, run_bind_of_eq hmax]
  by_cases h : irq.setWidth 32 < d.entries
  · rw [if_pos h, if_neg (BitVec.not_le.mpr h)]
  · rw [if_neg h, if_pos (BitVec.not_lt.mp h)]
    rfl

end IoApic

namespace IrqOp

variable (op : IrqOp) (d : IoApicDevice)

/-- The entry that the operation writes. -/
def written : IrqOp → IoApicDevice → BitVec 64
  | setIrqRedirection _ vector destination mask, _ => IoApic.redirection vector destination mask
  | maskIrq irq, d => d.entry irq ||| IoApic.kMaskBit
  | unmaskIrq irq, d => d.entry irq &&& ~~~IoApic.kMaskBit

/-- The number of the interrupt is below the number of entries. -/
def Valid : Prop := op.irq.setWidth 32 < d.entries

instance : Decidable (op.Valid d) := inferInstanceAs (Decidable (_ < _))

theorem run_of_not_valid (h : ¬op.Valid d) :
    op.exec.run ⟨d, []⟩ = ((), ⟨d.choose IoApic.kRegVer, [d.choose IoApic.kRegVer]⟩) := by
  cases op <;> exact (IoApic.run_checked d [] _ _).trans (if_neg h)

/-- A valid operation selects registers, and then writes the two words of one entry. -/
theorem run_of_valid (h : op.Valid d) :
    ∃ before, (∀ s ∈ before, s.regs = d.regs) ∧ ∃ d' : IoApicDevice, d'.regs = d.regs ∧
      op.exec.run ⟨d, []⟩ =
        (IoApic.writeRedirectionEntry op.irq (op.written d)).run ⟨d', before⟩ := by
  have hchange : ∀ f : BitVec 64 → BitVec 64, (IoApic.checked op.irq do
      let entry ← IoApic.readRedirectionEntry op.irq
      IoApic.writeRedirectionEntry op.irq (f entry)).run ⟨d, []⟩ =
        (IoApic.writeRedirectionEntry op.irq (f (d.entry op.irq))).run
          ⟨d.choose (IoApic.highReg op.irq), [d.choose IoApic.kRegVer,
            d.choose (IoApic.lowReg op.irq), d.choose (IoApic.highReg op.irq)]⟩ := by
    intro f
    refine ((IoApic.run_checked d [] _ _).trans (if_pos h)).trans ?_
    exact run_bind_of_eq (IoApic.run_readRedirectionEntry _ _ _)
  cases op with
  | setIrqRedirection irq vector destination mask =>
    refine ⟨[d.choose IoApic.kRegVer], by simp, d.choose IoApic.kRegVer, rfl, ?_⟩
    exact (IoApic.run_checked d [] _ _).trans (if_pos h)
  | maskIrq irq => exact ⟨_, by simp, _, d.regs_choose _, hchange (· ||| IoApic.kMaskBit)⟩
  | unmaskIrq irq => exact ⟨_, by simp, _, d.regs_choose _, hchange (· &&& ~~~IoApic.kMaskBit)⟩

end IrqOp

/-! ## No entry is delivered by half -/

/-- What the device shows during the operation: each entry is masked, or is what it was before
the operation, or is what the operation writes. -/
def IrqOp.Whole (op : IrqOp) (before now : IoApicDevice) : Prop :=
  ∀ irq, now.masked irq = true ∨ now.entry irq = before.entry irq ∨
    irq = op.irq ∧ now.entry irq = op.written before

/-- This holds after every single write of every operation of a sequence. -/
def NeverTorn : IoApicDevice → List IrqOp → Prop
  | _, [] => True
  | d, op :: ops => (∀ now ∈ op.seen d, op.Whole d now) ∧ NeverTorn (op.after d) ops

/-- A redirection that is not masked changes at most one word of its entry. -/
def IrqOp.Careful (d : IoApicDevice) : IrqOp → Prop
  | setIrqRedirection irq vector destination mask =>
    irq.setWidth 32 < d.entries → mask = true ∨
      (d.entry irq).extractLsb' 32 32 =
        (IoApic.redirection vector destination mask).extractLsb' 32 32 ∨
      (d.entry irq).extractLsb' 0 32 =
        (IoApic.redirection vector destination mask).extractLsb' 0 32
  | maskIrq _ => True
  | unmaskIrq _ => True

def CarefulRun : IoApicDevice → List IrqOp → Prop
  | _, [] => True
  | d, op :: ops => op.Careful d ∧ CarefulRun (op.after d) ops

namespace IrqOp

variable {op : IrqOp} {d now : IoApicDevice}

theorem Whole.of_regs (h : now.regs = d.regs) : op.Whole d now :=
  fun irq => .inr (.inl (IoApicDevice.entry_congr h irq))

theorem Whole.congr {now' : IoApicDevice} (h : now.regs = now'.regs) :
    op.Whole d now ↔ op.Whole d now' := by
  have hentry : ∀ irq, now.entry irq = now'.entry irq := IoApicDevice.entry_congr h
  simp only [Whole, IoApicDevice.masked, hentry]

theorem whole_putEntry : op.Whole d (d.putEntry op.irq (op.written d)) := by
  intro irq
  by_cases hirq : irq = op.irq
  · subst hirq
    exact .inr (.inr ⟨rfl, d.entry_putEntry _⟩)
  · exact .inr (.inl (d.entry_putEntry_of_ne _ hirq))

/-- Between the two writes the entry has its old high word and its new low word. -/
theorem whole_put_low_iff :
    op.Whole d (d.put (IoApic.lowReg op.irq) ((op.written d).extractLsb' 0 32)) ↔
      ((op.written d).getLsbD 16 = true ∨
        (d.entry op.irq).extractLsb' 32 32 = (op.written d).extractLsb' 32 32 ∨
        (d.entry op.irq).extractLsb' 0 32 = (op.written d).extractLsb' 0 32) := by
  have hhigh : d.regs (IoApic.highReg op.irq) = (d.entry op.irq).extractLsb' 32 32 :=
    (IoApicDevice.append_eq_iff.mp rfl).1
  have hentry := d.entry_put_low op.irq ((op.written d).extractLsb' 0 32)
  rw [hhigh] at hentry
  have hmask : (d.put (IoApic.lowReg op.irq) ((op.written d).extractLsb' 0 32)).masked op.irq =
      (op.written d).getLsbD 16 := by
    rw [IoApicDevice.masked, hentry, BitVec.getLsbD_append]
    simp
  constructor
  · intro h
    obtain h | h | ⟨-, h⟩ := h op.irq
    · exact .inl (hmask.symm.trans h)
    · exact .inr (.inr (IoApicDevice.append_eq_iff.mp (hentry.symm.trans h)).2.symm)
    · exact .inr (.inl (IoApicDevice.append_eq_iff.mp (hentry.symm.trans h)).1)
  · intro h irq
    by_cases hirq : irq = op.irq
    · subst hirq
      rw [hmask, hentry, IoApicDevice.append_eq_iff, IoApicDevice.append_eq_iff]
      obtain h | h | h := h
      · exact .inl h
      · exact .inr (.inr ⟨rfl, h, rfl⟩)
      · exact .inr (.inl ⟨rfl, h.symm⟩)
    · exact .inr (.inl (d.entry_put_low_of_ne hirq))

theorem getLsbD_redirection (vector : BitVec 8) (destination : BitVec 32) (mask : Bool) :
    (IoApic.redirection vector destination mask).getLsbD 16 = mask := by
  have hbit : IoApic.kMaskBit.getLsbD 16 = true := by decide
  cases mask <;> simp [IoApic.redirection, IoApic.kVectorMask, IoApic.kDestApicIdShift, hbit]

/-- Masking and unmasking leave the high word, so they never write half an entry. -/
theorem careful_iff (h : op.Valid d) :
    op.Careful d ↔ ((op.written d).getLsbD 16 = true ∨
      (d.entry op.irq).extractLsb' 32 32 = (op.written d).extractLsb' 32 32 ∨
      (d.entry op.irq).extractLsb' 0 32 = (op.written d).extractLsb' 0 32) := by
  cases op with
  | setIrqRedirection irq vector destination mask =>
    rw [written, getLsbD_redirection]
    exact ⟨fun hcareful => hcareful h, fun hor _ => hor⟩
  | maskIrq irq =>
    have hbit : IoApic.kMaskBit.getLsbD 16 = true := by decide
    refine iff_of_true trivial (.inl ?_)
    rw [written, BitVec.getLsbD_or, hbit, Bool.or_true]
  | unmaskIrq irq =>
    have hones : (~~~IoApic.kMaskBit).extractLsb' 32 32 = BitVec.allOnes 32 := by decide
    refine iff_of_true trivial (.inr (.inl ?_))
    rw [written, BitVec.extractLsb'_and, hones, BitVec.and_allOnes]
    rfl

theorem forall_seen_whole_iff : (∀ now ∈ op.seen d, op.Whole d now) ↔ op.Careful d := by
  by_cases h : op.Valid d
  · obtain ⟨before, hbefore, d', hregs, hrun⟩ := op.run_of_valid d h
    rw [IoApic.run_writeRedirectionEntry] at hrun
    have hput : ∀ reg value, (d'.put reg value).regs = (d.put reg value).regs := by
      intro reg value
      rw [IoApicDevice.regs_put, IoApicDevice.regs_put, hregs]
    have hlast : (d'.putEntry op.irq (op.written d)).regs =
        (d.putEntry op.irq (op.written d)).regs := by
      rw [IoApicDevice.putEntry, IoApicDevice.regs_put, hput]
      rfl
    rw [careful_iff h, ← whole_put_low_iff, seen, hrun]
    simp only [List.mem_append, List.mem_singleton]
    constructor
    · intro hall
      exact (Whole.congr (hput _ _)).mp (hall _ (.inl (.inl (.inr rfl))))
    · intro hmid now hnow
      obtain (((hnow | rfl) | rfl) | rfl) | rfl := hnow
      · exact .of_regs (hbefore now hnow)
      · exact .of_regs hregs
      · exact (Whole.congr (hput _ _)).mpr hmid
      · exact (Whole.congr (hput _ _)).mpr hmid
      · exact (Whole.congr hlast).mpr whole_putEntry
  · have hcareful : op.Careful d := by
      cases op with
      | setIrqRedirection irq vector destination mask => exact fun hlt => (h hlt).elim
      | maskIrq | unmaskIrq => trivial
    refine iff_of_true ?_ hcareful
    rw [seen, op.run_of_not_valid d h]
    intro now hnow
    rw [List.mem_singleton.mp hnow]
    exact .of_regs (d.regs_choose _)

end IrqOp

/-- An entry is delivered by half exactly when a redirection that is not masked changes both
of its words: the low word is written first, with the new vector and the mask bit clear. -/
theorem routes_never_torn_iff (d : IoApicDevice) (ops : List IrqOp) :
    NeverTorn d ops ↔ CarefulRun d ops := by
  induction ops generalizing d with
  | nil => exact Iff.rfl
  | cons op ops ih => exact and_congr IrqOp.forall_seen_whole_iff (ih (op.after d))

/-- A masked entry gets vector 0x41 and destination 1: between the two writes it is live with
the new vector and destination 0. -/
theorem redirection_torn :
    let d : IoApicDevice :=
      ⟨0, fun reg => if reg = 1 then 0x170011 else if reg = 0x12 then 0x10000 else 0⟩
    let op := IrqOp.setIrqRedirection 1 0x41 1 false
    op.Valid d ∧ d.entry 1 = 0x10000 ∧ op.written d = 0x0100000000000041 ∧
      (op.seen d).map (fun now => now.entry 1) =
        [0x10000, 0x10000, 0x41, 0x41, 0x0100000000000041] ∧ ¬NeverTorn d [op] := by
  intro d op
  refine ⟨by decide, by decide, by decide, by decide, ?_⟩
  rintro ⟨hwhole, -⟩
  have hcareful : ¬op.Careful d := by
    simp only [op, IrqOp.Careful]
    decide
  exact hcareful (IrqOp.forall_seen_whole_iff.mp hwhole)

end NaiLongKernel.Driver
