import NaiLongKernel.Foundation.Outcome
import NaiLongKernel.Memory.PageTableEntry

/-!
# Page-table operations

The operations of `VirtualMemory` on a memory of page-sized tables. A table is
named by its page address and read by index. `aligned_alloc` is any allocator that
returns null or a page outside the live ones; each call is numbered, so that it may
answer differently every time. Calls of `aligned_free` and of `DestroyPageDirectory`
are recorded.
-/
namespace NaiLongKernel.Memory

inductive ErrorCode where
  | kVmAllocationFailed
  | kVmMapFailed
  | kVmPageNotMapped
  | kTaskNoCurrentTask
  | kTaskPidAllocationFailed
  | kTaskAllocationFailed
  | kTaskPageTableCloneFailed
  | kTaskKernelStackAllocationFailed
deriving DecidableEq, Repr

/-- How an operation ends without a value: an error code is returned, or a failed
assertion stops the core. -/
inductive VmStop where
  | unexpected (code : ErrorCode)
  | assertFailed (message : String)
deriving DecidableEq, Repr

/-- `aligned_alloc(kPageSize, kPageSize)`: the answer to the `n`-th call. -/
structure Allocator where
  alloc : ℕ → List Addr → Option Addr
  alloc_fresh : ∀ n live a, alloc n live = some a → IsPage a ∧ a ≠ 0 ∧ a ∉ live

/-- A call of `aligned_free`. -/
structure FreeCall where
  page : Addr
  /-- The page is a frame found in a leaf entry, not a table or a stack. -/
  frame : Bool
  /-- The page was live at the call. -/
  wasLive : Bool
deriving DecidableEq, Repr

/-- A call of `DestroyPageDirectory`. -/
structure Destruction where
  root : Addr
  /-- The root was live at the call. -/
  wasLive : Bool
deriving DecidableEq, Repr

structure Vm where
  /-- The words of each table, by index. -/
  mem : Addr → ℕ → BitVec 64
  /-- The pages handed out and not yet freed. -/
  live : List Addr
  calls : ℕ
  /-- The calls of `aligned_free`, latest first. -/
  freed : List FreeCall
  /-- The calls of `DestroyPageDirectory`, latest first. -/
  destroyed : List Destruction

abbrev VmM := EStateM VmStop Vm

variable (A : Allocator)

def alignedAlloc : VmM (Option Addr) := fun vm =>
  match A.alloc vm.calls vm.live with
  | none => .ok none { vm with calls := vm.calls + 1 }
  | some a => .ok (some a) { vm with calls := vm.calls + 1, live := a :: vm.live }

def Vm.alignedFree (a : Addr) (frame : Bool) (vm : Vm) : Vm :=
  { vm with
    live := vm.live.filter (· != a)
    freed := ⟨a, frame, decide (a ∈ vm.live)⟩ :: vm.freed }

@[simp] theorem Vm.alignedFree_mem (a : Addr) (frame : Bool) (vm : Vm) :
    (vm.alignedFree a frame).mem = vm.mem := rfl

def Vm.writeEntry (table : Addr) (i : ℕ) (pte : BitVec 64) (vm : Vm) : Vm :=
  { vm with mem := Function.update vm.mem table (Function.update (vm.mem table) i pte) }

/-- `memset(table, 0, kPageSize)`. -/
def Vm.clearTable (table : Addr) (vm : Vm) : Vm :=
  { vm with mem := Function.update vm.mem table (fun _ => 0) }

/-- Allocate a table and clear it; null is the allocation error. -/
def allocTable : VmM Addr := do
  match ← alignedAlloc A with
  | none => throw (.unexpected .kVmAllocationFailed)
  | some table =>
    modify (Vm.clearTable table)
    return table

def assertTable (table : Addr) (message : String) : VmM Unit :=
  if table = 0 then throw (.assertFailed message) else pure ()

/-- The descent of `FindPageTableEntry` from `level` down to the leaf table. -/
def walkTables (virtualAddr : Addr) (allocate : Bool) : (level : ℕ) → Addr → VmM Addr
  | 0, table => pure table
  | level+1, table => do
    let vpn := (getVirtualPageNumber virtualAddr (level+1)).toNat
    let pte := (← get).mem table vpn
    if isPageTableEntryValid pte then
      walkTables virtualAddr allocate level (pageTableEntryToPhysical pte)
    else if allocate then
      let newTable ← allocTable A
      modify (Vm.writeEntry table vpn
        (physicalToPageTableEntry newTable getTableEntryPermissions))
      walkTables virtualAddr allocate level newTable
    else
      throw (.unexpected .kVmPageNotMapped)

/-- The leaf table and the index in it. -/
def findPageTableEntry (pageDir virtualAddr : Addr) (allocate : Bool) : VmM (Addr × ℕ) := do
  let table ← walkTables A virtualAddr allocate (kPageTableLevels - 1) pageDir
  return (table, (getVirtualPageNumber virtualAddr 0).toNat)

/-- An error code is replaced by `code`. -/
def VmStop.reported (code : ErrorCode) : VmStop → VmStop
  | .unexpected _ => .unexpected code
  | .assertFailed message => .assertFailed message

/-- The descent, with any error of it reported under one code. -/
def findOrReport (pageDir virtualAddr : Addr) (allocate : Bool) (code : ErrorCode) :
    VmM (Addr × ℕ) := fun vm =>
  match findPageTableEntry A pageDir virtualAddr allocate vm with
  | .ok entry vm => .ok entry vm
  | .error stop vm => .error (stop.reported code) vm

def mapPage (pageDir virtualAddr physicalAddr : Addr) (flags : BitVec 32) : VmM Unit := do
  assertTable pageDir "MapPage: page_dir is null"
  let (table, i) ← findOrReport A pageDir virtualAddr true .kVmMapFailed
  let pte := (← get).mem table i
  -- the same mapping again is skipped, any other is overwritten
  if isPageTableEntryValid pte ∧ pageTableEntryToPhysical pte = physicalAddr ∧
      pte &&& ((1#64 <<< kPteAttributeBits) - 1) = flags.setWidth 64 then
    pure ()
  else
    modify (Vm.writeEntry table i (physicalToPageTableEntry physicalAddr (flags.setWidth 64)))

def unmapPage (pageDir virtualAddr : Addr) : VmM Unit := do
  assertTable pageDir "UnmapPage: page_dir is null"
  let (table, i) ← findOrReport A pageDir virtualAddr false .kVmPageNotMapped
  let pte := (← get).mem table i
  if isPageTableEntryValid pte then
    modify (Vm.writeEntry table i 0)
  else
    throw (.unexpected .kVmPageNotMapped)

/-- The valid leaf entry that `GetMapping` finds. -/
def getEntry (pageDir virtualAddr : Addr) : VmM (BitVec 64) := do
  assertTable pageDir "GetMapping: page_dir is null"
  let (table, i) ← findOrReport A pageDir virtualAddr false .kVmPageNotMapped
  let pte := (← get).mem table i
  if isPageTableEntryValid pte then
    return pte
  else
    throw (.unexpected .kVmPageNotMapped)

def getMapping (pageDir virtualAddr : Addr) : VmM Addr := do
  return pageTableEntryToPhysical (← getEntry A pageDir virtualAddr)

/-- One turn of the loop of `RecursiveFreePageTable`. -/
def freeEntry (freeChild : Addr → Vm → Vm) (table : Addr) (vm : Vm) (i : ℕ) : Vm :=
  let pte := vm.mem table i
  if isPageTableEntryValid pte then
    (freeChild (pageTableEntryToPhysical pte) vm).writeEntry table i 0
  else vm

def recursiveFreePageTable (freePages : Bool) : (level : ℕ) → Addr → Vm → Vm
  | 0, table, vm =>
    if table = 0 then vm else
      ((List.range kEntriesPerTable).foldl
        (freeEntry (fun pa vm => if freePages then vm.alignedFree pa true else vm)
          table) vm).alignedFree table false
  | level+1, table, vm =>
    if table = 0 then vm else
      let vm := (List.range kEntriesPerTable).foldl
        (freeEntry (recursiveFreePageTable freePages level) table) vm
      -- the root is left to `DestroyPageDirectory`
      if level + 1 < kPageTableLevels - 1 then vm.alignedFree table false else vm

def destroyPageDirectory (pageDir : Addr) (freePages : Bool) (vm : Vm) : Vm :=
  if pageDir = 0 then vm
  else
    { (recursiveFreePageTable freePages (kPageTableLevels - 1) pageDir vm).alignedFree pageDir false with
      destroyed := ⟨pageDir, decide (pageDir ∈ vm.live)⟩ :: vm.destroyed }

/-- When `x` returns an error code, clean up before returning it. -/
def onUnexpected (cleanup : Vm → Vm) {α : Type} (x : VmM α) : VmM α := fun vm =>
  match x vm with
  | .ok a vm => .ok a vm
  | .error (.unexpected code) vm => .error (.unexpected code) (cleanup vm)
  | .error (.assertFailed message) vm => .error (.assertFailed message) vm

/-- One turn of the loop of `RecursiveClonePageTable` above the leaf level. -/
def cloneTableEntry (cloneChild : Addr → Addr → VmM Unit) (srcTable dstTable : Addr) (i : ℕ) :
    VmM Unit := do
  let srcPte := (← get).mem srcTable i
  if isPageTableEntryValid srcPte then
    let dstNext ← allocTable A
    onUnexpected (Vm.alignedFree dstNext false)
      (cloneChild (pageTableEntryToPhysical srcPte) dstNext)
    modify (Vm.writeEntry dstTable i (physicalToPageTableEntry dstNext getTableEntryPermissions))

/-- One turn of the loop of `RecursiveClonePageTable` at the leaf level. -/
def cloneLeafEntry (copyMappings : Bool) (srcTable dstTable : Addr) (i : ℕ) : VmM Unit := do
  let srcPte := (← get).mem srcTable i
  if isPageTableEntryValid srcPte ∧ copyMappings then
    modify (Vm.writeEntry dstTable i srcPte)

def recursiveClonePageTable (copyMappings : Bool) : (level : ℕ) → Addr → Addr → VmM Unit
  | 0, srcTable, dstTable => do
    assertTable srcTable "RecursiveClonePageTable: src_table is null"
    assertTable dstTable "RecursiveClonePageTable: dst_table is null"
    (List.range kEntriesPerTable).forM (cloneLeafEntry copyMappings srcTable dstTable)
  | level+1, srcTable, dstTable => do
    assertTable srcTable "RecursiveClonePageTable: src_table is null"
    assertTable dstTable "RecursiveClonePageTable: dst_table is null"
    (List.range kEntriesPerTable).forM
      (cloneTableEntry A (recursiveClonePageTable copyMappings level) srcTable dstTable)

def clonePageDirectory (srcPageDir : Addr) (copyMappings : Bool) : VmM Addr := do
  assertTable srcPageDir "ClonePageDirectory: source page directory is nullptr"
  let dstPageDir ← allocTable A
  onUnexpected (destroyPageDirectory dstPageDir false)
    (recursiveClonePageTable A copyMappings (kPageTableLevels - 1) srcPageDir dstPageDir)
  return dstPageDir

/-- The allocator that hands out the pages after the first in order. -/
def pageSequence : Allocator where
  alloc n live :=
    let a : Addr := BitVec.ofNat 64 (kPageSize * (n+1))
    if IsPage a ∧ a ≠ 0 ∧ a ∉ live then some a else none
  alloc_fresh n live a h := by
    rcases Option.ite_none_right_eq_some.mp h with ⟨hfresh, ha⟩
    exact Option.some.inj ha ▸ hfresh

/-- The pages after the first in order, up to the call `n`. -/
def scarcePages (n : ℕ) : Allocator where
  alloc k live := if k < n then pageSequence.alloc k live else none
  alloc_fresh k live a h := pageSequence.alloc_fresh k live a (Option.ite_none_right_eq_some.mp h).2

def zeroedRoot : Vm := ⟨fun _ _ => 0, [0x1000], 1, [], []⟩

end NaiLongKernel.Memory
