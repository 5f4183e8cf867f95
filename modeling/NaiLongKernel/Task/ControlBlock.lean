import Mathlib.Tactic

/-!
# Task control blocks

The record kept for a task and the small types it is made of, with the field
defaults of the header. Pointers to control blocks are natural numbers, and a null
pointer is `none`; all machine words keep their width.
-/
namespace NaiLongKernel.Task

abbrev Pid := BitVec 64
abbrev Ptr := ℕ
abbrev CoreId := ℕ

inductive TaskStatus where
  | kUnInit
  | kReady
  | kRunning
  | kSleeping
  | kBlocked
  | kExited
  | kZombie
deriving DecidableEq, Repr

/-- `kPolicyCount` is a bound, not a policy, and no task carries it. -/
inductive SchedPolicy where
  | kRealTime
  | kNormal
  | kIdle
deriving DecidableEq, Repr

inductive ResourceType where
  | kNone
  | kMutex
  | kSemaphore
  | kCondVar
  | kChildExit
  | kIoComplete
  | kFutex
  | kSignal
  | kTimer
  | kInterrupt
deriving DecidableEq, Repr

def ResourceType.code : ResourceType → BitVec 64
  | .kNone => 0x00
  | .kMutex => 0x01
  | .kSemaphore => 0x02
  | .kCondVar => 0x03
  | .kChildExit => 0x04
  | .kIoComplete => 0x05
  | .kFutex => 0x06
  | .kSignal => 0x07
  | .kTimer => 0x08
  | .kInterrupt => 0x09

/-- A resource is its raw value: type in bits 63..56, data in bits 55..0. -/
structure ResourceId where
  value : BitVec 64
deriving DecidableEq, Repr

def ResourceId.kDataMask : BitVec 64 := 0x00FFFFFFFFFFFFFF

def ResourceId.make (type : ResourceType) (data : BitVec 64) : ResourceId :=
  ⟨(type.code <<< 56) ||| (data &&& kDataMask)⟩

namespace CloneFlags

def kCloneAll : BitVec 64 := 0
def kCloneVm : BitVec 64 := 0x00000100
def kCloneFiles : BitVec 64 := 0x00000400
def kCloneSighand : BitVec 64 := 0x00000800
def kCloneParent : BitVec 64 := 0x00008000
def kCloneThread : BitVec 64 := 0x00010000

/-- `flags & flag` used as a condition. -/
def has (flags flag : BitVec 64) : Bool := flags &&& flag != 0

end CloneFlags

structure SchedInfo where
  priority : ℤ := 10
  basePriority : ℤ := 10
  inheritedPriority : ℤ := 0
  wakeTick : BitVec 64 := 0
  timeSliceRemaining : BitVec 64 := 10
  timeSliceDefault : BitVec 64 := 10
  totalRuntime : BitVec 64 := 0
  contextSwitches : BitVec 64 := 0
deriving DecidableEq, Repr

/-- The member of the scheduler union that the schedulers here use. -/
structure CfsData where
  vruntime : BitVec 64 := 0
  weight : BitVec 32 := 0
deriving DecidableEq, Repr

structure TaskControlBlock where
  name : String := "Unnamed Task"
  pid : Pid := 0
  parentPid : Pid := 0
  pgid : Pid := 0
  sid : Pid := 0
  tgid : Pid := 0
  threadGroupNext : Option Ptr := none
  threadGroupPrev : Option Ptr := none
  status : TaskStatus := .kUnInit
  policy : SchedPolicy := .kNormal
  exitCode : BitVec 32 := 0
  cloneFlags : BitVec 64 := CloneFlags.kCloneAll
  schedInfo : SchedInfo := {}
  cfs : CfsData := {}
  kernelStack : Option (BitVec 64) := none
  pageTable : Option (BitVec 64) := none
  cpuAffinity : BitVec 64 := BitVec.allOnes 64
  blockedOn : ResourceId := ⟨0⟩
deriving DecidableEq, Repr

namespace TaskControlBlock

def isThreadGroupLeader (t : TaskControlBlock) : Bool := t.pid == t.tgid

/-- `GetThreadGroupSize() > 1`: the walks in both directions count a neighbour. -/
def hasOtherThreads (t : TaskControlBlock) : Bool :=
  t.tgid != 0 && (t.threadGroupPrev.isSome || t.threadGroupNext.isSome)

def setStatus (st : TaskStatus) (t : TaskControlBlock) : TaskControlBlock := { t with status := st }

/-- `time_slice_remaining = time_slice_default`. -/
def resetSlice (t : TaskControlBlock) : TaskControlBlock :=
  { t with schedInfo := { t.schedInfo with
      timeSliceRemaining := t.schedInfo.timeSliceDefault } }

/-- A tick has been charged to the task. -/
def charged (t : TaskControlBlock) : TaskControlBlock :=
  { t with schedInfo := { t.schedInfo with
      totalRuntime := t.schedInfo.totalRuntime + 1
      timeSliceRemaining := if 0 < t.schedInfo.timeSliceRemaining
        then t.schedInfo.timeSliceRemaining - 1 else t.schedInfo.timeSliceRemaining } }

def setWakeTick (wake : BitVec 64) (t : TaskControlBlock) : TaskControlBlock :=
  { t with schedInfo := { t.schedInfo with wakeTick := wake } }

end TaskControlBlock

end NaiLongKernel.Task
