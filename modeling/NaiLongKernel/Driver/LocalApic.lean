import Mathlib.Tactic

/-!
# Interprocessor interrupts of the local APIC

The four commands of `LocalApic` write the interrupt command register (ICR), which is one
model specific register in x2APIC mode and two words of memory in xAPIC mode. They are
modelled as the accesses they make, in order; the variables have the widths that C++ gives
them, and a compound assignment cuts its value down to the width of its variable. The
device turns accesses into the interrupts that it sends.
-/
namespace NaiLongKernel.Driver

/-- An access to the device. The loops that wait until the delivery status is clear only
read; such a loop is one access. -/
inductive ApicAccess where
  /-- `cpu_io::msr::apic::WriteIcr`. -/
  | writeIcr (icr : BitVec 64)
  | waitIcr (mask : BitVec 32)
  /-- `io::Out<uint32_t>`. -/
  | out (addr : BitVec 64) (data : BitVec 32)
  | waitIn (addr : BitVec 64) (mask : BitVec 32)
deriving DecidableEq, Repr

structure LocalApic where
  isX2apicMode : Bool := false
  apicBase : BitVec 64 := 0xFEE00000
deriving DecidableEq, Repr

namespace LocalApic

def kXApicIcrLowOffset : BitVec 32 := 0x300
def kXApicIcrHighOffset : BitVec 32 := 0x310
def kApicIdMask : BitVec 32 := 0xFF
def kIcrDeliveryStatusBit : BitVec 32 := 0x1000
def kIcrDestShift : BitVec 32 := 24
def kIcrBroadcastMode : BitVec 32 := 0xC0000
def kInitIpiMode : BitVec 32 := 0x500
def kSipiMode : BitVec 32 := 0x600

/-- The write of x2APIC mode and the loop after it. -/
def writeAndWait (icr : BitVec 64) : List ApicAccess :=
  [.writeIcr icr, .waitIcr kIcrDeliveryStatusBit]

/-- The two writes of xAPIC mode and the loop after them. -/
def outAndWait (apic : LocalApic) (icrHigh icrLow : BitVec 32) : List ApicAccess :=
  [.out (apic.apicBase + kXApicIcrHighOffset.setWidth 64) icrHigh,
    .out (apic.apicBase + kXApicIcrLowOffset.setWidth 64) icrLow,
    .waitIn (apic.apicBase + kXApicIcrLowOffset.setWidth 64) kIcrDeliveryStatusBit]

def sendIpi (apic : LocalApic) (destinationApicId : BitVec 32) (vector : BitVec 8) :
    List ApicAccess :=
  if apic.isX2apicMode then
    let icr : BitVec 64 := vector.setWidth 64
    let icr : BitVec 64 := icr ||| destinationApicId.setWidth 64 <<< 32
    writeAndWait icr
  else
    let icrHigh := (destinationApicId &&& kApicIdMask) <<< kIcrDestShift
    let icrLow : BitVec 32 := vector.setWidth 32
    apic.outAndWait icrHigh icrLow

def broadcastIpi (apic : LocalApic) (vector : BitVec 8) : List ApicAccess :=
  if apic.isX2apicMode then
    let icr : BitVec 64 := vector.setWidth 64
    let icr : BitVec 64 := icr ||| 0x80000
    writeAndWait icr
  else
    let icrLow : BitVec 32 := vector.setWidth 32 ||| kIcrBroadcastMode
    apic.outAndWait 0 icrLow

def sendInitIpi (apic : LocalApic) (destinationApicId : BitVec 32) : List ApicAccess :=
  if apic.isX2apicMode then
    -- `auto` makes this variable a `uint32_t`, so the assignment drops the upper half
    let icr : BitVec 32 := kInitIpiMode
    let icr : BitVec 32 := (icr.setWidth 64 ||| destinationApicId.setWidth 64 <<< 32).setWidth 32
    writeAndWait (icr.setWidth 64)
  else
    let icrHigh := (destinationApicId &&& kApicIdMask) <<< kIcrDestShift
    let icrLow := kInitIpiMode
    apic.outAndWait icrHigh icrLow

def sendStartupIpi (apic : LocalApic) (destinationApicId : BitVec 32) (startPage : BitVec 8) :
    List ApicAccess :=
  if apic.isX2apicMode then
    -- a `uint32_t` again: `start_page` is promoted to the type of `kSipiMode`
    let icr : BitVec 32 := kSipiMode ||| startPage.setWidth 32
    let icr : BitVec 32 := (icr.setWidth 64 ||| destinationApicId.setWidth 64 <<< 32).setWidth 32
    writeAndWait (icr.setWidth 64)
  else
    let icrHigh := (destinationApicId &&& kApicIdMask) <<< kIcrDestShift
    let icrLow : BitVec 32 := kSipiMode ||| startPage.setWidth 32
    apic.outAndWait icrHigh icrLow

end LocalApic

/-- A command with its arguments. -/
inductive IpiCommand where
  | sendIpi (destinationApicId : BitVec 32) (vector : BitVec 8)
  | broadcastIpi (vector : BitVec 8)
  | sendInitIpi (destinationApicId : BitVec 32)
  | sendStartupIpi (destinationApicId : BitVec 32) (startPage : BitVec 8)
deriving DecidableEq, Repr

def IpiCommand.accesses (apic : LocalApic) : IpiCommand → List ApicAccess
  | .sendIpi destination vector => apic.sendIpi destination vector
  | .broadcastIpi vector => apic.broadcastIpi vector
  | .sendInitIpi destination => apic.sendInitIpi destination
  | .sendStartupIpi destination startPage => apic.sendStartupIpi destination startPage

def IpiCommand.destination? : IpiCommand → Option (BitVec 32)
  | .sendIpi destination _ => some destination
  | .broadcastIpi _ => none
  | .sendInitIpi destination => some destination
  | .sendStartupIpi destination _ => some destination

/-! ## The device -/

/-- The fields of the ICR that say which interrupt is sent to whom. -/
structure Ipi where
  vector : BitVec 8
  deliveryMode : BitVec 3
  shorthand : BitVec 2
  destination : BitVec 32
deriving DecidableEq, Repr

/-- The low word, which is the same in both modes, and a destination. -/
def Ipi.ofLow (low destination : BitVec 32) : Ipi where
  vector := low.extractLsb' 0 8
  deliveryMode := low.extractLsb' 8 3
  shorthand := low.extractLsb' 18 2
  destination := destination

/-- A write of the 64-bit register, with the destination in bits 32 to 63. -/
def Ipi.ofIcr (icr : BitVec 64) : Ipi :=
  .ofLow (icr.extractLsb' 0 32) (icr.extractLsb' 32 32)

/-- A write of the low word, with the destination in bits 24 to 31 of the high word. -/
def Ipi.ofWords (high low : BitVec 32) : Ipi :=
  .ofLow low ((high.extractLsb' 24 8).setWidth 32)

/-- The interrupts that accesses to a device at address `base` send: the high word keeps what
was written last, and the write of the low word sends. -/
def sent (base : BitVec 64) : BitVec 32 → List ApicAccess → List Ipi
  | _, [] => []
  | high, .writeIcr icr :: rest => .ofIcr icr :: sent base high rest
  | high, .out addr data :: rest =>
    if addr = base + 0x310 then sent base data rest
    else if addr = base + 0x300 then .ofWords high data :: sent base high rest
    else sent base high rest
  | high, .waitIcr _ :: rest => sent base high rest
  | high, .waitIn _ _ :: rest => sent base high rest

/-- Two interrupts that reach the same processors. The destination counts only when there is
no shorthand. -/
def Ipi.Same (a b : Ipi) : Prop :=
  a.vector = b.vector ∧ a.deliveryMode = b.deliveryMode ∧ a.shorthand = b.shorthand ∧
    (a.shorthand = 0 → a.destination = b.destination)

instance (a b : Ipi) : Decidable (a.Same b) := by
  unfold Ipi.Same
  infer_instance

namespace LocalApic

variable (apic : LocalApic) (high : BitVec 32)

@[simp] theorem sent_outAndWait (icrHigh icrLow : BitVec 32) :
    sent apic.apicBase high (apic.outAndWait icrHigh icrLow) = [.ofWords icrHigh icrLow] := by
  have hhigh : kXApicIcrHighOffset.setWidth 64 = 0x310 := by decide
  have hlow : kXApicIcrLowOffset.setWidth 64 = 0x300 := by decide
  simp [outAndWait, sent, hhigh, hlow]

end LocalApic

/-! ## What the two modes send -/

theorem Ipi.ofIcr_wide (low destination : BitVec 32) :
    Ipi.ofIcr (low.setWidth 64 ||| destination.setWidth 64 <<< 32) = .ofLow low destination := by
  have hlow : (low.setWidth 64 ||| destination.setWidth 64 <<< 32).extractLsb' 0 32 = low := by
    ext i hi
    have hi' : i < 64 := by omega
    simp [hi, hi']
  have hhigh : (low.setWidth 64 ||| destination.setWidth 64 <<< 32).extractLsb' 32 32 =
      destination := by
    ext i hi
    have hsum : 32 + i < 64 := by omega
    simp [hi, hsum]
  rw [Ipi.ofIcr, hlow, hhigh]

theorem Ipi.ofIcr_narrow (low destination : BitVec 32) :
    Ipi.ofIcr (((low.setWidth 64 ||| destination.setWidth 64 <<< 32).setWidth 32).setWidth 64) =
      .ofLow low 0 := by
  have hcut : (low.setWidth 64 ||| destination.setWidth 64 <<< 32).setWidth 32 = low := by
    ext i hi
    simp
  rw [hcut]
  simpa using Ipi.ofIcr_wide low 0

theorem Ipi.ofWords_high {destination : BitVec 32} (low : BitVec 32) (h : destination ≤ 0xFF) :
    Ipi.ofWords ((destination &&& LocalApic.kApicIdMask) <<< LocalApic.kIcrDestShift) low =
      .ofLow low destination := by
  have hlt : destination.toNat < 2 ^ 8 := Nat.lt_succ_of_le (BitVec.le_def.mp h)
  have hmask : destination &&& LocalApic.kApicIdMask = destination := by
    apply BitVec.eq_of_toNat_eq
    rw [BitVec.toNat_and]
    exact Nat.and_two_pow_sub_one_of_lt_two_pow hlt
  have hdest : ((destination <<< LocalApic.kIcrDestShift).extractLsb' 24 8).setWidth 32 =
      destination := by
    apply BitVec.eq_of_toNat_eq
    simp [LocalApic.kIcrDestShift, Nat.shiftLeft_eq, Nat.shiftRight_eq_div_pow]
    omega
  rw [hmask, Ipi.ofWords, hdest]

/-- The command sends one interrupt in each of the two modes, and the two are the same. -/
def IpiCommand.Agrees (apic : LocalApic) (command : IpiCommand) : Prop :=
  ∀ high, ∃ a b,
    sent apic.apicBase high (command.accesses { apic with isX2apicMode := true }) = [a] ∧
    sent apic.apicBase high (command.accesses { apic with isX2apicMode := false }) = [b] ∧
    a.Same b

theorem IpiCommand.agrees_iff {apic : LocalApic} {command : IpiCommand} {a b : Ipi}
    (ha : ∀ high,
      sent apic.apicBase high (command.accesses { apic with isX2apicMode := true }) = [a])
    (hb : ∀ high,
      sent apic.apicBase high (command.accesses { apic with isX2apicMode := false }) = [b]) :
    command.Agrees apic ↔ a.Same b := by
  constructor
  · intro h
    obtain ⟨a', b', ha', hb', hsame⟩ := h 0
    rw [ha] at ha'
    rw [hb] at hb'
    cases ha'
    cases hb'
    exact hsame
  · intro h high
    exact ⟨a, b, ha high, hb high, h⟩

theorem LocalApic.shorthand_of_mode {mode : BitVec 32} (hmode : mode.extractLsb' 18 2 = 0)
    (vector : BitVec 8) : (mode ||| vector.setWidth 32).extractLsb' 18 2 = 0 := by
  rw [BitVec.extractLsb'_or, hmode]
  ext i hi
  have hi' : 8 ≤ 18 + i := by omega
  simp [BitVec.getLsbD_of_ge vector (18 + i) hi']

theorem Ipi.same_ofLow {low : BitVec 32} (hlow : low.extractLsb' 18 2 = 0) (d e : BitVec 32) :
    (Ipi.ofLow low d).Same (.ofLow low e) ↔ d = e := by
  simp [Ipi.Same, Ipi.ofLow, hlow]

/-- The commands whose x2APIC write says what the xAPIC writes say. -/
def IpiCommand.Encodable : IpiCommand → Prop
  | .sendIpi _ _ => True
  | .broadcastIpi _ => False
  | .sendInitIpi destination => destination = 0
  | .sendStartupIpi destination _ => destination = 0

namespace IpiCommand

variable (apic : LocalApic) {destination : BitVec 32}

theorem sendIpi_agrees (h : destination ≤ 0xFF) (vector : BitVec 8) :
    (sendIpi destination vector).Agrees apic := by
  have hwide : vector.setWidth 64 = (vector.setWidth 32).setWidth 64 := by
    simp
  intro high
  refine ⟨.ofLow (vector.setWidth 32) destination, .ofLow (vector.setWidth 32) destination,
    ?_, ?_, rfl, rfl, rfl, fun _ => rfl⟩
  · rw [← Ipi.ofIcr_wide, ← hwide]
    rfl
  · rw [← Ipi.ofWords_high _ h]
    exact LocalApic.sent_outAndWait { apic with isX2apicMode := false } high _ _

theorem broadcastIpi_not_agrees (vector : BitVec 8) : ¬(broadcastIpi vector).Agrees apic := by
  rw [agrees_iff (a := .ofIcr (vector.setWidth 64 ||| 0x80000))
    (b := .ofWords 0 (vector.setWidth 32 ||| LocalApic.kIcrBroadcastMode))]
  · intro h
    have hshort : ((vector.setWidth 64 ||| 0x80000#64).extractLsb' 0 32).extractLsb' 18 2 =
        (vector.setWidth 32 ||| LocalApic.kIcrBroadcastMode).extractLsb' 18 2 := h.2.2.1
    revert hshort
    revert vector
    decide +kernel
  · intro high
    rfl
  · intro high
    exact LocalApic.sent_outAndWait { apic with isX2apicMode := false } high _ _

theorem sendInitIpi_agrees_iff (h : destination ≤ 0xFF) :
    (sendInitIpi destination).Agrees apic ↔ destination = 0 := by
  have hshort : LocalApic.kInitIpiMode.extractLsb' 18 2 = 0 := by decide
  rw [agrees_iff (a := .ofLow LocalApic.kInitIpiMode 0)
    (b := .ofLow LocalApic.kInitIpiMode destination), Ipi.same_ofLow hshort]
  · exact eq_comm
  · intro high
    rw [← Ipi.ofIcr_narrow _ destination]
    rfl
  · intro high
    rw [← Ipi.ofWords_high _ h]
    exact LocalApic.sent_outAndWait { apic with isX2apicMode := false } high _ _

theorem sendStartupIpi_agrees_iff (h : destination ≤ 0xFF) (startPage : BitVec 8) :
    (sendStartupIpi destination startPage).Agrees apic ↔ destination = 0 := by
  have hmode : LocalApic.kSipiMode.extractLsb' 18 2 = 0 := by decide
  rw [agrees_iff (a := .ofLow (LocalApic.kSipiMode ||| startPage.setWidth 32) 0)
    (b := .ofLow (LocalApic.kSipiMode ||| startPage.setWidth 32) destination),
    Ipi.same_ofLow (LocalApic.shorthand_of_mode hmode startPage)]
  · exact eq_comm
  · intro high
    rw [← Ipi.ofIcr_narrow _ destination]
    rfl
  · intro high
    rw [← Ipi.ofWords_high _ h]
    exact LocalApic.sent_outAndWait { apic with isX2apicMode := false } high _ _

end IpiCommand

/-- `BroadcastIpi` asks for all processors in x2APIC mode and for all others in xAPIC mode;
`SendInitIpi` and `SendStartupIpi` reach processor 0 only in x2APIC mode. -/
theorem same_interrupt_iff (apic : LocalApic) (command : IpiCommand)
    (h : ∀ d, command.destination? = some d → d ≤ 0xFF) :
    command.Agrees apic ↔ command.Encodable := by
  cases command with
  | sendIpi destination vector =>
    exact iff_of_true (IpiCommand.sendIpi_agrees apic (h destination rfl) vector) trivial
  | broadcastIpi vector =>
    exact iff_of_false (IpiCommand.broadcastIpi_not_agrees apic vector) id
  | sendInitIpi destination =>
    exact IpiCommand.sendInitIpi_agrees_iff apic (h destination rfl)
  | sendStartupIpi destination startPage =>
    exact IpiCommand.sendStartupIpi_agrees_iff apic (h destination rfl) startPage

theorem same_interrupt_iff_example :
    (IpiCommand.sendIpi 0xFF 0xF0).Agrees {} ∧ (IpiCommand.sendStartupIpi 0 8).Agrees {} := by
  constructor
  · apply (same_interrupt_iff {} (.sendIpi 0xFF 0xF0) ?_).mpr trivial
    rintro d ⟨⟩
    decide
  · apply (same_interrupt_iff {} (.sendStartupIpi 0 8) ?_).mpr rfl
    rintro d ⟨⟩
    decide

/-- The startup interrupt for processor 1 goes to processor 0 in x2APIC mode. -/
theorem startup_loses_destination :
    (1 : BitVec 32) ≤ 0xFF ∧ ¬(IpiCommand.sendStartupIpi 1 8).Agrees {} ∧
      ¬(IpiCommand.sendInitIpi 1).Agrees {} ∧ ¬(IpiCommand.broadcastIpi 0xF0).Agrees {} := by
  refine ⟨by decide, ?_, ?_, ?_⟩
  · rw [IpiCommand.sendStartupIpi_agrees_iff {} (by decide)]
    decide
  · rw [IpiCommand.sendInitIpi_agrees_iff {} (by decide)]
    decide
  · exact IpiCommand.broadcastIpi_not_agrees {} 0xF0

end NaiLongKernel.Driver
