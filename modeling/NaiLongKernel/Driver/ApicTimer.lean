import NaiLongKernel.Driver.LocalApic

/-!
# The timer of the local APIC

`SetupOneShotTimer` turns a delay into a count and a divider, and `EnableTimer` writes them
to the device. The count is computed in a variable of 32 bits, so the test that should
choose the larger divider never succeeds.
-/
namespace NaiLongKernel.Driver

/-- A write of one of the timer's registers, in the two modes. -/
inductive TimerAccess where
  /-- `cpu_io::msr::apic::WriteTimerDivide`. -/
  | writeTimerDivide (value : BitVec 32)
  | writeLvtTimer (value : BitVec 32)
  | writeTimerInitCount (value : BitVec 32)
  /-- `io::Out<uint32_t>`. -/
  | out (addr : BitVec 64) (data : BitVec 32)
deriving DecidableEq, Repr

namespace LocalApic

def kXApicLvtTimerOffset : BitVec 32 := 0x320
def kXApicTimerInitCountOffset : BitVec 32 := 0x380
def kXApicTimerDivideOffset : BitVec 32 := 0x3E0
def kLvtPeriodicMode : BitVec 32 := 0x20000
def kDefaultApicClockHz : BitVec 32 := 0x5F5E100
def kTimerDivideBy1 : BitVec 32 := 0x0B
def kTimerDivideBy16 : BitVec 32 := 0x03
def kMicrosecondsPerSecond : BitVec 32 := 0xF4240

def enableTimer (apic : LocalApic) (initialCount divideValue : BitVec 32) (vector : BitVec 8)
    (periodic : Bool) : List TimerAccess :=
  let lvtTimer : BitVec 32 := vector.setWidth 32
  let lvtTimer := if periodic then lvtTimer ||| kLvtPeriodicMode else lvtTimer
  if apic.isX2apicMode then
    [.writeTimerDivide divideValue, .writeLvtTimer lvtTimer, .writeTimerInitCount initialCount]
  else
    [.out (apic.apicBase + kXApicTimerDivideOffset.setWidth 64) divideValue,
      .out (apic.apicBase + kXApicLvtTimerOffset.setWidth 64) lvtTimer,
      .out (apic.apicBase + kXApicTimerInitCountOffset.setWidth 64) initialCount]

def setupOneShotTimer (apic : LocalApic) (microseconds : BitVec 32) (vector : BitVec 8) :
    List TimerAccess :=
  -- `auto` makes the count a `uint32_t`, as its factors are
  let initialCount : BitVec 32 := kDefaultApicClockHz / kMicrosecondsPerSecond * microseconds
  if initialCount > 0xFFFFFFFF then
    apic.enableTimer (kDefaultApicClockHz / 16 / kMicrosecondsPerSecond * microseconds)
      kTimerDivideBy16 vector false
  else
    apic.enableTimer initialCount kTimerDivideBy1 vector false

end LocalApic

/-! ## The device -/

/-- The registers of the timer. -/
structure ApicTimer where
  divide : BitVec 32
  lvt : BitVec 32
  initialCount : BitVec 32
deriving DecidableEq, Repr

def ApicTimer.apply (base : BitVec 64) (timer : ApicTimer) : TimerAccess → ApicTimer
  | .writeTimerDivide value => { timer with divide := value }
  | .writeLvtTimer value => { timer with lvt := value }
  | .writeTimerInitCount value => { timer with initialCount := value }
  | .out addr data =>
    if addr = base + 0x3E0 then { timer with divide := data }
    else if addr = base + 0x320 then { timer with lvt := data }
    else if addr = base + 0x380 then { timer with initialCount := data }
    else timer

def ApicTimer.after (base : BitVec 64) (timer : ApicTimer) (accesses : List TimerAccess) :
    ApicTimer :=
  accesses.foldl (ApicTimer.apply base) timer

/-- The factor that bits 0, 1 and 3 of the divide register stand for. -/
def ApicTimer.divider (timer : ApicTimer) : ℕ :=
  let code := (timer.divide.getLsbD 3).toNat * 4 + (timer.divide.extractLsb' 0 2).toNat
  2 ^ ((code + 1) % 8)

/-- The ticks of a clock of 100 MHz in a number of microseconds. -/
def clockTicks (microseconds : BitVec 32) : ℕ := 100 * microseconds.toNat

/-- The delay that is programmed is the requested one up to one divided tick. -/
def ApicTimer.Delays (timer : ApicTimer) (microseconds : BitVec 32) : Prop :=
  timer.initialCount.toNat * timer.divider ≤ clockTicks microseconds ∧
    clockTicks microseconds - timer.initialCount.toNat * timer.divider < timer.divider

instance (timer : ApicTimer) (microseconds : BitVec 32) : Decidable (timer.Delays microseconds) :=
  inferInstanceAs (Decidable (_ ∧ _))

namespace LocalApic

variable (apic : LocalApic) (timer : ApicTimer)

theorem after_enableTimer (initialCount divideValue : BitVec 32) (vector : BitVec 8)
    (periodic : Bool) :
    ∃ lvt, timer.after apic.apicBase (apic.enableTimer initialCount divideValue vector periodic) =
      ⟨divideValue, lvt, initialCount⟩ := by
  have hdivide : kXApicTimerDivideOffset.setWidth 64 = 0x3E0 := by decide
  have hlvt : kXApicLvtTimerOffset.setWidth 64 = 0x320 := by decide
  have hcount : kXApicTimerInitCountOffset.setWidth 64 = 0x380 := by decide
  cases hmode : apic.isX2apicMode with
  | true => simp [enableTimer, hmode, ApicTimer.after, ApicTimer.apply]
  | false => simp [enableTimer, hmode, ApicTimer.after, ApicTimer.apply, hdivide, hlvt, hcount]

theorem setupOneShotTimer_eq (microseconds : BitVec 32) (vector : BitVec 8) :
    apic.setupOneShotTimer microseconds vector =
      apic.enableTimer (100 * microseconds) kTimerDivideBy1 vector false := by
  have hfactor : kDefaultApicClockHz / kMicrosecondsPerSecond = 100 := by decide
  have hmax : ¬100 * microseconds > 0xFFFFFFFF := by
    bv_omega
  simp only [setupOneShotTimer, hfactor, if_neg hmax]

end LocalApic

theorem ApicTimer.divider_by_one (lvt initialCount : BitVec 32) :
    (ApicTimer.mk LocalApic.kTimerDivideBy1 lvt initialCount).divider = 1 := by
  simp [ApicTimer.divider, LocalApic.kTimerDivideBy1]

/-- The delay is right exactly when its number of ticks is a number of 32 bits. -/
theorem one_shot_delay_iff (apic : LocalApic) (timer : ApicTimer) (microseconds : BitVec 32)
    (vector : BitVec 8) :
    (timer.after apic.apicBase (apic.setupOneShotTimer microseconds vector)).Delays microseconds ↔
      microseconds.toNat ≤ 42949672 := by
  rw [LocalApic.setupOneShotTimer_eq]
  obtain ⟨lvt, hafter⟩ := apic.after_enableTimer timer (100 * microseconds)
    LocalApic.kTimerDivideBy1 vector false
  rw [hafter, ApicTimer.Delays, ApicTimer.divider_by_one]
  have hcount : (100 * microseconds).toNat = clockTicks microseconds % 2 ^ 32 :=
    BitVec.toNat_mul 100 microseconds
  simp only [hcount, clockTicks]
  omega

/-- A delay of 42.949673 seconds becomes one of 40 nanoseconds. -/
theorem one_shot_delay_wraps :
    let timer := ApicTimer.after 0xFEE00000 ⟨0, 0, 0⟩ (LocalApic.setupOneShotTimer {} 42949673 0xF0)
    timer.initialCount = 4 ∧ timer.divider = 1 ∧ ¬timer.Delays 42949673 := by
  decide

end NaiLongKernel.Driver
