import NaiLongKernel.Foundation.Outcome
import NaiLongKernel.Libc.Memory

/-!
# Queries of the device tree

`KernelFdt` asks libfdt for nodes and properties and decodes the bytes of the properties
itself. Every byte it reads is read through `readByte`, which fails outside the property.
-/
namespace NaiLongKernel.Fdt

open Foundation Libc

def text (s : String) : List Byte := s.toList.map fun c => BitVec.ofNat 8 c.toNat

/-- What libfdt says of a tree that `fdt_check_header` accepts. A property is its data.
Node offsets grow along the tree; a negative offset is an error. -/
structure Libfdt where
  /-- `fdt_path_offset`. -/
  pathOffset : List Byte → ℤ
  /-- `fdt_get_alias`. -/
  getAlias : List Byte → Option (List Byte)
  /-- `fdt_next_node`. -/
  nextNode : ℤ → ℤ
  /-- `fdt_node_offset_by_compatible`. -/
  nodeOffsetByCompatible : ℤ → List Byte → ℤ
  /-- `fdt_get_property`, `fdt_getprop`. -/
  getProperty : ℤ → String → Option (List Byte)
  totalsize : ℕ
  nextNode_grows : ∀ {start}, 0 ≤ nextNode start →
    start < nextNode start ∧ nextNode start < totalsize
  compatible_grows : ∀ {start compatible}, 0 ≤ nodeOffsetByCompatible start compatible →
    start < nodeOffsetByCompatible start compatible ∧
      nodeOffsetByCompatible start compatible < totalsize
  /-- The tree begins with a header of 28 bytes or more, and a property with one of 12. -/
  property_fits : ∀ {offset name data}, getProperty offset name = some data →
    data.length + 40 ≤ totalsize
  /-- `INT_MAX`. -/
  totalsize_lt : totalsize < 2 ^ 31

inductive ErrorCode where
  | kFdtNodeNotFound
  | kFdtParseFailed
  | kFdtPropertyNotFound
  | kFdtInvalidPropertySize
deriving DecidableEq, Repr

/-- Why a query ends without a value. -/
inductive FdtStop where
  /-- `std::unexpected(Error(code))`. -/
  | refused (code : ErrorCode)
  /-- A byte behind the end of a property is read. -/
  | outside
  /-- A sum does not fit in an `int`. -/
  | overflow
  | diverges
deriving DecidableEq, Repr

abbrev FdtM := EStateM FdtStop Unit

/-! ## Reading a property -/

def readByte (data : List Byte) (i : ℕ) : FdtM Byte :=
  match data[i]? with
  | some b => return b
  | none => throw .outside

/-- `memcpy` out of a property. -/
def readBytes (data : List Byte) (off : ℕ) : ℕ → FdtM (List Byte)
  | 0 => return []
  | n + 1 => do
    let b ← readByte data off
    let rest ← readBytes data (off + 1) n
    return b :: rest

/-- `fdt64_to_cpu` of bytes that were copied into a variable. -/
def bigEndian (bytes : List Byte) : BitVec 64 :=
  bytes.foldl (fun acc b => acc <<< 8 ||| b.setWidth 64) 0

def loadBeU64 (data : List Byte) (off : ℕ) : FdtM (BitVec 64) := do
  return bigEndian (← readBytes data off 8)

def loadBeU32 (data : List Byte) (off : ℕ) : FdtM (BitVec 32) := do
  return (bigEndian (← readBytes data off 4)).setWidth 32

/-- `strcmp` of a property, from its byte `i` on, and a literal. -/
def strcmpFrom (data : List Byte) : ℕ → List Byte → FdtM ℤ
  | i, [] => do
    let b ← readByte data i
    return b.toNat
  | i, c :: literal => do
    let b ← readByte data i
    if b ≠ 0 ∧ b = c then
      strcmpFrom data (i + 1) literal
    else
      return b.toNat - c.toNat

def strcmp (data : List Byte) (literal : List Byte) : FdtM ℤ := strcmpFrom data 0 literal

/-- The conversion `%s` of the log reads up to the null byte. -/
def printString : List Byte → FdtM Unit
  | [] => throw .outside
  | b :: rest => if b = 0 then return else printString rest

/-- A sum of numbers of type `int`. -/
def addInt (a b : ℕ) : FdtM ℕ :=
  if a + b < 2 ^ 31 then return a + b else throw .overflow

def kPairBytes : ℕ := 16

/-- The loop over the pairs of a `reg` property, which `GetRegProperty` and `GetSerial` have. -/
def regLoop (data : List Byte) : ℕ → ℕ → BitVec 64 × BitVec 64 → FdtM (BitVec 64 × BitVec 64)
  | 0, _, _ => throw .diverges
  | fuel + 1, off, reg => do
    if (← addInt off kPairBytes) ≤ data.length then
      let base ← loadBeU64 data off
      let size ← loadBeU64 data (off + 8)
      regLoop data fuel (← addInt off kPairBytes) (base, size)
    else
      return reg

def decodeReg (data : List Byte) : FdtM (BitVec 64 × BitVec 64) :=
  regLoop data (data.length + 1) 0 (0, 0)

def kTripletBytes : ℕ := 12

/-- The loop that logs the triplets of an `interrupts` property. -/
def tripletLoop (data : List Byte) : ℕ → ℕ → FdtM Unit
  | 0, _ => throw .diverges
  | fuel + 1, off => do
    if (← addInt off kTripletBytes) ≤ data.length then
      let _type ← loadBeU32 data off
      let _intid ← loadBeU32 data (off + 4)
      let _trigger ← loadBeU32 data (off + 8)
      let _cpuidMask ← loadBeU32 data (off + 8)
      tripletLoop data fuel (← addInt off kTripletBytes)
    else
      return

/-! ## Finding nodes and properties -/

section Queries

variable (lib : Libfdt)

def needProperty (offset : ℤ) (name : String) : FdtM (List Byte) :=
  match lib.getProperty offset name with
  | some data => return data
  | none => throw (.refused .kFdtPropertyNotFound)

def checkOffset (offset : ℤ) : FdtM ℤ :=
  if offset < 0 then throw (.refused .kFdtNodeNotFound) else return offset

def findNode (path : List Byte) : FdtM ℤ := checkOffset (lib.pathOffset path)

def findCompatibleNode (compatible : List Byte) : FdtM ℤ :=
  checkOffset (lib.nodeOffsetByCompatible (-1) compatible)

/-- The loop of `FindEnabledCompatibleNode`. -/
def enabledLoop (compatible : List Byte) : ℕ → ℤ → FdtM ℤ
  | 0, _ => throw .diverges
  | fuel + 1, start => do
    let offset ← checkOffset (lib.nodeOffsetByCompatible start compatible)
    match lib.getProperty offset "status" with
    | none => return offset
    | some status =>
      if (← strcmp status (text "okay")) = 0 then
        return offset
      else if (← strcmp status (text "ok")) = 0 then
        return offset
      else
        enabledLoop compatible fuel offset

def findEnabledCompatibleNode (compatible : List Byte) : FdtM ℤ :=
  enabledLoop lib compatible (lib.totalsize + 1) (-1)

def getRegProperty (offset : ℤ) : FdtM (BitVec 64 × BitVec 64) := do
  decodeReg (← needProperty lib offset "reg")

/-- `FDT_ERR_NOTFOUND`. -/
def fdtErrNotfound : ℤ := 1

/-- The loop of `CountNodesByDeviceType`. -/
def countLoop (deviceType : List Byte) : ℕ → ℤ → ℕ → FdtM ℕ
  | 0, _, _ => throw .diverges
  | fuel + 1, start, count => do
    let offset := lib.nextNode start
    if offset < 0 then
      if offset ≠ -fdtErrNotfound then
        throw (.refused .kFdtParseFailed)
      else
        return count
    else
      match lib.getProperty offset "device_type" with
      | none => countLoop deviceType fuel offset count
      | some type =>
        if (← strcmp type deviceType) = 0 then
          countLoop deviceType fuel offset (count + 1)
        else
          countLoop deviceType fuel offset count

def countNodesByDeviceType (deviceType : List Byte) : FdtM ℕ :=
  countLoop lib deviceType (lib.totalsize + 1) (-1) 0

def kPsciCpuOnFuncId : BitVec 64 := 0xC4000003
def kPsciCpuOffFuncId : BitVec 64 := 0x84000002
def kPsciCpuSuspendFuncId : BitVec 64 := 0xC4000001

def validateId (offset : ℤ) (name : String) (expected : BitVec 64) : FdtM Unit := do
  match lib.getProperty offset name with
  | none => return
  | some data =>
    if 4 ≤ data.length then
      let id ← loadBeU32 data 0
      if id.setWidth 64 ≠ expected then
        throw (.refused .kFdtPropertyNotFound)

def validatePsciFunctionIds (offset : ℤ) : FdtM Unit := do
  validateId lib offset "cpu_on" kPsciCpuOnFuncId
  validateId lib offset "cpu_off" kPsciCpuOffFuncId
  validateId lib offset "cpu_suspend" kPsciCpuSuspendFuncId

/-! ## The queries -/

def getCoreCount : FdtM ℕ := do
  let count ← countNodesByDeviceType lib (text "cpu")
  if count = 0 then
    throw (.refused .kFdtNodeNotFound)
  return count

def checkPSCI : FdtM Unit := do
  let offset ← findNode lib (text "/psci")
  let method ← needProperty lib offset "method"
  printString method
  if (← strcmp method (text "smc")) ≠ 0 then
    throw (.refused .kFdtPropertyNotFound)
  else
    validatePsciFunctionIds lib offset

def getMemory : FdtM (BitVec 64 × BitVec 64) := do
  getRegProperty lib (← findNode lib (text "/memory"))

/-- The path in the buffer: up to its null byte, without the baud rate behind a colon. -/
def consolePath (buffer : List Byte) : List Byte :=
  (buffer.takeWhile (· ≠ 0)).takeWhile (· ≠ 0x3A)

/-- The node of the console: a path, or an alias behind an ampersand. -/
def consoleOffset (path : List Byte) : ℤ :=
  if path.head? = some 0x26 then
    match lib.getAlias path.tail with
    | some aliased => lib.pathOffset aliased
    | none => -1
  else
    lib.pathOffset path

/-- The first part of `GetSerial`: the node that `stdout-path` names. -/
def findConsole : FdtM ℤ := do
  let chosen ← findNode lib (text "/chosen")
  let stdoutPath ← needProperty lib chosen "stdout-path"
  if stdoutPath.length = 0 then
    throw (.refused .kFdtPropertyNotFound)
  let copyLen := if 256 ≤ stdoutPath.length then 255 else stdoutPath.length
  let buffer ← readBytes stdoutPath 0 copyLen
  checkOffset (consoleOffset lib (consolePath buffer))

/-- The first cell of `interrupts`, or zero. -/
def firstCell (data : List Byte) : FdtM (BitVec 32) :=
  if 4 ≤ data.length then loadBeU32 data 0 else return 0

def getSerial : FdtM (BitVec 64 × BitVec 64 × BitVec 32) := do
  let stdoutOffset ← findConsole lib
  let (base, size) ← decodeReg (← needProperty lib stdoutOffset "reg")
  let interrupts ← needProperty lib stdoutOffset "interrupts"
  return (base, size, ← firstCell interrupts)

def getTimebaseFrequency : FdtM (BitVec 32) := do
  let offset ← findNode lib (text "/cpus")
  let data ← needProperty lib offset "timebase-frequency"
  if data.length ≠ 4 then
    throw (.refused .kFdtInvalidPropertySize)
  else
    loadBeU32 data 0

/-- A pair of `reg` that is zero when the property does not reach it. -/
def regPairOrZero (data : List Byte) (off : ℕ) : FdtM (BitVec 64 × BitVec 64) := do
  if off + 16 ≤ data.length then
    return (← loadBeU64 data off, ← loadBeU64 data (off + 8))
  else
    return (0, 0)

def getGIC : FdtM ((BitVec 64 × BitVec 64) × BitVec 64 × BitVec 64) := do
  let offset ← findCompatibleNode lib (text "arm,gic-v3")
  let data ← needProperty lib offset "reg"
  let dist ← regPairOrZero data 0
  let redist ← regPairOrZero data 16
  return (dist, redist)

def cellIndex (compatible : List Byte) : Option ℕ :=
  if compatible = text "arm,armv8-timer" then some 7
  else if compatible = text "arm,pl011" then some 1
  else none

/-- With `debug` as under `NAILONG_KERNEL_DEBUG`. -/
def getAarch64Intid (debug : Bool) (compatible : List Byte) : FdtM (BitVec 64) := do
  let offset ← findEnabledCompatibleNode lib compatible
  let data ← needProperty lib offset "interrupts"
  if debug then
    tripletLoop data (data.length + 1) 0
  match cellIndex compatible with
  | none => return 0
  | some cell =>
    if (cell + 1) * 4 ≤ data.length then
      return (← loadBeU32 data (cell * 4)).setWidth 64
    else
      return 0

def findPlic : FdtM ℤ :=
  let offset := lib.nodeOffsetByCompatible (-1) (text "sifive,plic-1.0.0")
  if offset < 0 then findCompatibleNode lib (text "riscv,plic0") else return offset

def getPlic : FdtM ((BitVec 64 × BitVec 64) × BitVec 32 × BitVec 32) := do
  let offset ← findPlic lib
  let extended ← needProperty lib offset "interrupts-extended"
  let contextCount := BitVec.ofNat 32 (extended.length / 4 / 2)
  let data ← needProperty lib offset "riscv,ndev"
  if data.length < 4 then
    throw (.refused .kFdtInvalidPropertySize)
  let ndev ← loadBeU32 data 0
  let reg ← getRegProperty lib offset
  return (reg, ndev, contextCount)

end Queries

end NaiLongKernel.Fdt
