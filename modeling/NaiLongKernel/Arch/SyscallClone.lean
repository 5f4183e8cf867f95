import NaiLongKernel.Task.Publication

/-!
# The trap frame of a new task

The system calls `clone` and `fork` on riscv64. `Syscall` reads the call from the trap frame,
`Clone` copies the frame to the kernel stack of the child and changes it there, and `Syscall`
then sets the return value and steps over the `ecall`, in the frame of the parent. Frames,
contexts and the integers at the TID pointers are objects of different types, so that a write
to one leaves the others.
-/
namespace NaiLongKernel.Arch

open Foundation Memory NaiLongKernel.Task

structure TrapContext where
  (ra sp gp tp t0 t1 t2 s0 s1 : BitVec 64)
  (a0 a1 a2 a3 a4 a5 a6 a7 : BitVec 64)
  (s2 s3 s4 s5 s6 s7 s8 s9 s10 s11 t3 t4 t5 t6 : BitVec 64)
  (f0 f1 f2 f3 f4 f5 f6 f7 f8 f9 f10 f11 f12 f13 f14 f15 : BitVec 64)
  (f16 f17 f18 f19 f20 f21 f22 f23 f24 f25 f26 f27 f28 f29 f30 f31 fcsr : BitVec 64)
  (sstatus sepc stval scause : BitVec 64)
deriving DecidableEq, Repr, Inhabited

structure CalleeSavedContext where
  (ra sp s0 s1 s2 s3 s4 s5 s6 s7 s8 s9 s10 s11 : BitVec 64 := 0)
  (fs0 fs1 fs2 fs3 fs4 fs5 fs6 fs7 fs8 fs9 fs10 fs11 : BitVec 64 := 0)
deriving DecidableEq, Repr

/-- `InitTaskContext` for a trap frame; the addresses of `kernel_thread_entry` and `trap_return`
are those of the image. -/
def initTaskContext (kernelThreadEntry trapReturn trapContextPtr stackTop : Addr) :
    CalleeSavedContext where
  ra := kernelThreadEntry
  s0 := trapReturn
  s1 := trapContextPtr
  sp := stackTop

def kDefaultKernelStackSize : BitVec 64 := 16 * 1024

def trapContextSize : BitVec 64 := 544

def SYSCALL_CLONE : BitVec 64 := 220
def SYSCALL_FORK : BitVec 64 := 1220

def frameAddress (kernelStack : Addr) : Addr := kernelStack + kDefaultKernelStackSize - trapContextSize

structure TrapMachine where
  kernel : Kernel
  trapContextPtr : Ptr → Option Addr
  taskContext : Ptr → CalleeSavedContext
  /-- The trap frames in memory. -/
  trapContext : Addr → TrapContext
  /-- The integers at the TID pointers. -/
  tid : Addr → BitVec 32

def TrapMachine.updateFrame (a : Addr) (f : TrapContext → TrapContext) (m : TrapMachine) :
    TrapMachine :=
  { m with trapContext := Function.update m.trapContext a (f (m.trapContext a)) }

inductive TrapStop where
  | fault (e : Fault)
  /-- A system call that is left out here. -/
  | leftOut

abbrev TrapM := EStateM TrapStop TrapMachine

def runKernel {α : Type} (x : KernelM α) : TrapM α := fun m =>
  match x m.kernel with
  | .ok a k => .ok a { m with kernel := k }
  | .error e k => .error (.fault e) { m with kernel := k }

/-- The arguments of `Clone` beside the frame of the caller; null pointers are 0. -/
structure CloneArgs where
  (flags userStack parentTid childTid tls : BitVec 64 := 0)
deriving DecidableEq, Repr

def writeTid (ptr : Addr) (pid : Pid) (tid : Addr → BitVec 32) : Addr → BitVec 32 :=
  if ptr ≠ 0 then Function.update tid ptr (pid.setWidth 32) else tid

/-- What `Clone` writes when the child has its kernel stack. The context of the child is as the
constructor of the control block leaves it. -/
def TrapMachine.cloneFrame (args : CloneArgs) (parentContext : Addr) (child : Ptr) (stack : Addr)
    (newPid : Pid) (m : TrapMachine) : TrapMachine :=
  let childContext := frameAddress stack
  let m := m.updateFrame childContext fun _ => m.trapContext parentContext
  let m := m.updateFrame childContext fun frame =>
    if args.userStack ≠ 0 then { frame with sp := args.userStack } else frame
  let m := m.updateFrame childContext fun frame =>
    if args.tls ≠ 0 then { frame with tp := args.tls } else frame
  let m := m.updateFrame parentContext fun frame => { frame with a0 := newPid }
  let m := m.updateFrame childContext fun frame => { frame with a0 := 0 }
  { m with
    trapContextPtr := Function.update m.trapContextPtr child (some childContext)
    taskContext := Function.update m.taskContext child {}
    tid := writeTid args.childTid newPid (writeTid args.parentTid newPid m.tid) }

def kernelStackOf (k : Kernel) (p : Ptr) : Option Addr := (k.tasks p).bind (·.kernelStack)

variable (P : Platform) (c : CoreId)

/-- `Clone` with a trap frame. The frame is written before the child is published, which does
not read it. -/
def cloneTask (child : Option Ptr) (args : CloneArgs) (parentContext : Addr) :
    TrapM (Except ErrorCode Pid) := do
  let result ← runKernel (clone P c args.flags child)
  match result, child with
  | .ok newPid, some p =>
    match kernelStackOf (← get).kernel p with
    | some stack => modify (TrapMachine.cloneFrame args parentContext p stack newPid)
    | none => pure ()
    return .ok newPid
  | _, _ => return result

/-- `sys_clone`, and `sys_fork` with null arguments. -/
def sysClone (child : Option Ptr) (args : CloneArgs) : TrapM (BitVec 32) := do
  let m ← get
  match (m.kernel.running c).bind m.trapContextPtr with
  | none => return -1
  | some parentContext =>
    match ← cloneTask P c child args parentContext with
    | .error _ => return -1
    | .ok childPid => return if childPid = 0 then 0 else childPid.setWidth 32

def TrapContext.cloneArgs (frame : TrapContext) : Option CloneArgs :=
  if frame.a7 = SYSCALL_CLONE then some ⟨frame.a0, frame.a1, frame.a2, frame.a3, frame.a4⟩
  else if frame.a7 = SYSCALL_FORK then some {}
  else none

/-- `Syscall` with a call of `clone` or `fork`. -/
def syscall (child : Option Ptr) (context : Addr) : TrapM Unit := do
  match ((← get).trapContext context).cloneArgs with
  | none => throw .leftOut
  | some args =>
    let ret ← sysClone P c child args
    modify (TrapMachine.updateFrame context fun frame => { frame with a0 := ret.signExtend 64 })
    modify (TrapMachine.updateFrame context fun frame => { frame with sepc := frame.sepc + 4 })

variable {P c} {k k' : Kernel} {loc : Ptr → Option Slot} {p parent : Ptr} {t : TaskControlBlock}
  {m m' : TrapMachine} {context : Addr} {args : CloneArgs}

theorem wp_runKernel {α : Type} {x : KernelM α} {Q : α → TrapMachine → Prop}
    {E : TrapStop → TrapMachine → Prop} :
    wp (runKernel x) Q E m ↔
      wp x (fun a k => Q a { m with kernel := k }) (fun e k => E (.fault e) { m with kernel := k })
        m.kernel := by
  cases hx : x m.kernel with
  | ok a k =>
    have hrun : runKernel x m = .ok a { m with kernel := k } := by rw [runKernel, hx]
    rw [wp_of_ok hrun, wp_of_ok hx]
  | error e k =>
    have hrun : runKernel x m = .error (.fault e) { m with kernel := k } := by rw [runKernel, hx]
    rw [wp_of_error hrun, wp_of_error hx]

theorem frameAddress_inj {s s' : Addr} : frameAddress s = frameAddress s' ↔ s = s' := by
  rw [frameAddress, frameAddress]
  constructor
  · intro h
    bv_omega
  · exact fun h => h ▸ rfl

namespace TrapMachine

@[simp] theorem updateFrame_self (m : TrapMachine) (a : Addr) (f : TrapContext → TrapContext) :
    (m.updateFrame a f).trapContext a = f (m.trapContext a) := Function.update_self _ _ _

theorem updateFrame_ne (m : TrapMachine) {a b : Addr} (h : b ≠ a) (f : TrapContext → TrapContext) :
    (m.updateFrame a f).trapContext b = m.trapContext b := Function.update_of_ne h _ _

end TrapMachine

/-- The frame at the entry to `Syscall`, with the return value 0 and the stack and thread pointers
that are given. -/
def childFrame (args : CloneArgs) (frame : TrapContext) : TrapContext :=
  { frame with
    a0 := 0
    sp := if args.userStack ≠ 0 then args.userStack else frame.sp
    tp := if args.tls ≠ 0 then args.tls else frame.tp }

theorem cloneFrame_child {stack : Addr} (newPid : Pid) (hne : frameAddress stack ≠ context) :
    (m.cloneFrame args context p stack newPid).trapContext (frameAddress stack) =
      childFrame args (m.trapContext context) := by
  simp only [TrapMachine.cloneFrame, TrapMachine.updateFrame_self, TrapMachine.updateFrame_ne _ hne,
    childFrame]
  split <;> split <;> rfl

theorem cloneFrame_parent {stack : Addr} (newPid : Pid) (hne : context ≠ frameAddress stack) :
    (m.cloneFrame args context p stack newPid).trapContext context =
      { m.trapContext context with a0 := newPid } := by
  simp only [TrapMachine.cloneFrame, TrapMachine.updateFrame_self, TrapMachine.updateFrame_ne _ hne]

/-- The frames and contexts after the system call; `stack` is the kernel stack of the child. -/
structure Forked (context : Addr) (args : CloneArgs) (child : Ptr) (stack : Addr) (m m' : TrapMachine) :
    Prop where
  kernelStack : kernelStackOf m'.kernel child = some stack
  pointer : m'.trapContextPtr child = some (frameAddress stack)
  /-- The child has the frame at the entry, which is at the `ecall`. -/
  childFrame : m'.trapContext (frameAddress stack) = Arch.childFrame args (m.trapContext context)
  parentFrame : m'.trapContext context = { m.trapContext context with
    a0 := (m.kernel.pidAllocator.setWidth 32).signExtend 64
    sepc := (m.trapContext context).sepc + 4 }
  /-- Nothing has been written to the context of the child. -/
  taskContext : m'.taskContext child = {}

theorem wp_cloneTask {child : Ptr} (context : Addr) (hst : Stable ∅ m.kernel loc) (hl : Life m.kernel)
    (hrun : m.kernel.running c = some parent) (ht : m.kernel.tasks parent = some t)
    (hpid : m.kernel.pidAllocator ≠ 0) (hfresh : m.kernel.lookup m.kernel.pidAllocator = none)
    (hdir : ∀ root, t.pageTable = some root → ∃ T, Owns m.kernel.vm (kPageTableLevels - 1) root T)
    (hchild : m.kernel.tasks child = none) (halloc : m.kernel.Allocates P args.flags t)
    (hcheck : P.checkStatus = false) :
    wp (cloneTask P c (some child) args context) (fun r m' => r = .ok m.kernel.pidAllocator ∧
      ∃ k stack, stack ∉ m.kernel.vm.live ∧ kernelStackOf k child = some stack ∧
        m' = { m with kernel := k }.cloneFrame args context child stack m.kernel.pidAllocator)
      (fun _ _ => False) m := by
  rw [cloneTask, wp_bind, wp_runKernel]
  apply wp_mono (wp_clone_allocated hst hl hrun ht hpid hfresh hdir hchild halloc)
  · rintro r k ⟨-, rfl, pageTable, stack, vm, vm', loc', hok, hstack, hcl⟩
    obtain ⟨v, hv, -, hblock⟩ := hcl.block
    have hof : kernelStackOf k child = some stack := by
      rw [kernelStackOf, hv, Option.bind_some, hblock]
    have hnew : stack ∉ m.kernel.vm.live := by
      rw [alignedAlloc] at hstack
      split at hstack
      · cases hstack
      · rename_i a ha
        cases hstack
        exact fun hl => (P.allocator.alloc_fresh _ _ _ ha).2.2
          ((wp_childPageTable_live hdir).of_ok hok _ hl)
    simp only [wp_bind, wp_get, hof, wp_modify, wp_pure]
    exact ⟨trivial, k, stack, hnew, hof, rfl⟩
  · rintro e k ⟨hcheck', -⟩
    cases hcheck.symm.trans hcheck'

/-- The system calls `clone` and `fork` in a reachable state, with any trap frame of the running
task and any arguments, when nothing that `Clone` depends on is missing: they return, and the child
has on its own kernel stack the frame as it was at the entry, with the return value 0 and the stack
and thread pointers given; its program counter is still that of the `ecall`, which the parent has
left behind, and its context is all zero and not what `InitTaskContext` sets. -/
theorem forked_child_at_ecall {child : Ptr} {s : Addr}
    (h : SysRun P (fun k op => op.Careful k) m.kernel) (hrun : m.kernel.running c = some parent)
    (ht : m.kernel.tasks parent = some t) (hptr : m.trapContextPtr parent = some context)
    (hs : s ∈ m.kernel.vm.live) (hcontext : context = frameAddress s)
    (hargs : (m.trapContext context).cloneArgs = some args)
    (hpid : m.kernel.pidAllocator ≠ 0) (hfresh : m.kernel.lookup m.kernel.pidAllocator = none)
    (hdir : ∀ root, t.pageTable = some root → ∃ T, Owns m.kernel.vm (kPageTableLevels - 1) root T)
    (hchild : m.kernel.tasks child = none) (halloc : m.kernel.Allocates P args.flags t)
    (hcheck : P.checkStatus = false) :
    ∃ m' stack, syscall P c (some child) context m = .ok () m' ∧
      Forked context args child stack m m' ∧
      (m'.trapContext (frameAddress stack)).sepc ≠ (m'.trapContext context).sepc ∧
      ∀ kernelThreadEntry trapReturn, kernelThreadEntry ≠ 0 → m'.taskContext child ≠
        initTaskContext kernelThreadEntry trapReturn (frameAddress stack)
          (stack + kDefaultKernelStackSize) := by
  obtain ⟨loc, hst, hl⟩ := h.invariant
  have hwp : wp (syscall P c (some child) context) (fun _ m' => ∃ stack,
      Forked context args child stack m m') (fun _ _ => False) m := by
    have hbind : (m.kernel.running c).bind m.trapContextPtr = some context := by
      rw [hrun]
      exact hptr
    simp only [syscall, sysClone, wp_bind, wp_get, hargs, hbind]
    apply (wp_cloneTask context hst hl hrun ht hpid hfresh hdir hchild halloc
      hcheck).imp _
    rintro _ m₁ ⟨rfl, k, stack, hnew, hof, rfl⟩
    have hne : frameAddress stack ≠ context := by
      rw [hcontext, Ne, frameAddress_inj]
      rintro rfl
      exact hnew hs
    simp only [wp_pure, wp_modify, if_neg hpid]
    refine ⟨stack, hof, Function.update_self _ _ _, ?_, ?_, Function.update_self _ _ _⟩
    · rw [TrapMachine.updateFrame_ne _ hne, TrapMachine.updateFrame_ne _ hne, cloneFrame_child _ hne]
    · rw [TrapMachine.updateFrame_self, TrapMachine.updateFrame_self, cloneFrame_parent _ hne.symm]
  obtain ⟨_, m', hrun', stack, hf⟩ := hwp.returns
  refine ⟨m', stack, hrun', hf, ?_, ?_⟩
  · rw [hf.childFrame, hf.parentFrame]
    change (m.trapContext context).sepc ≠ (m.trapContext context).sepc + 4
    bv_omega
  · intro kernelThreadEntry trapReturn hentry heq
    rw [hf.taskContext] at heq
    exact hentry (congrArg CalleeSavedContext.ra heq).symm

section Replay

def calling (k : Kernel) : TrapMachine where
  kernel := k
  trapContextPtr p := if p = 1 then some (frameAddress 0x1000) else none
  taskContext _ := {}
  trapContext _ := { (default : TrapContext) with a7 := SYSCALL_FORK, sepc := 0x8000 }
  tid _ := 0

def firstTask : List SysOp :=
  [.initCurrentCore 0 0, .allocPage 0, .addTask 0 1 { kernelStack := some 0x1000 }, .schedule 0]

/-- Core 0 runs task 1, the next pid is 2, and the page 0x1000 is in use. -/
def FirstRuns (k : Kernel) : Prop :=
  k.running 0 = some 1 ∧ k.pidAllocator = 2 ∧ k.lookup 2 = none ∧ k.tasks 2 = none ∧
    k.vm.calls = 1 ∧ k.vm.live = [0x1000] ∧ ∃ t ∈ k.tasks 1, t.pageTable = none

instance (k : Kernel) : Decidable (FirstRuns k) := by
  unfold FirstRuns
  infer_instance

theorem forked_child_at_ecall_example :
    ∃ k, SysRun (presetPlatform false) (fun k op => op.Careful k) k ∧ FirstRuns k ∧
      ∃ m' stack, syscall (presetPlatform false) 0 (some 2) (frameAddress 0x1000) (calling k) =
          .ok () m' ∧
        Forked (frameAddress 0x1000) {} 2 stack (calling k) m' := by
  have hk : ∃ k, SysRun (presetPlatform false) (fun k op => op.Careful k) k ∧ FirstRuns k := by
    apply SysRun.exists_careful firstTask
    decide +kernel
  obtain ⟨k, hk, hfirst⟩ := hk
  obtain ⟨hrun, hpid, hlook, hchild, hcalls, hlive, t, ht, hpt⟩ := id hfirst
  have halloc : k.Allocates (presetPlatform false) 0 t := by
    apply Kernel.Allocates.of_no_table hpt
    rw [hcalls, hlive]
    decide
  have hdir : ∀ root, t.pageTable = some root → ∃ T, Owns k.vm (kPageTableLevels - 1) root T := by
    intro root hroot
    cases hpt.symm.trans hroot
  obtain ⟨m', stack, hcall, hf, -⟩ := forked_child_at_ecall (m := calling k) (s := 0x1000) hk hrun ht rfl
    (hlive ▸ List.mem_singleton_self _) rfl rfl (by rw [show (calling k).kernel = k from rfl, hpid]; decide)
    (by rw [show (calling k).kernel = k from rfl, hpid]; exact hlook) hdir hchild halloc rfl
  exact ⟨k, hk, hfirst, m', stack, hcall, hf⟩

/-- The child of the first task will call `fork` again, and its context has not been set. -/
def Repeats (m' : TrapMachine) : Prop :=
  m'.trapContextPtr 2 = some (frameAddress 0x2000) ∧
    (m'.trapContext (frameAddress 0x2000)).sepc = 0x8000 ∧
    (m'.trapContext (frameAddress 0x1000)).sepc = 0x8004 ∧ m'.taskContext 2 = {}

instance (m' : TrapMachine) : Decidable (Repeats m') := by
  unfold Repeats
  infer_instance

theorem fork_child_repeats_ecall :
    ∃ k m', SysRun (presetPlatform false) (fun k op => op.Careful k) k ∧ FirstRuns k ∧
      syscall (presetPlatform false) 0 (some 2) (frameAddress 0x1000) (calling k) = .ok () m' ∧
      Repeats m' := by
  have hk : ∃ k, SysRun (presetPlatform false) (fun k op => op.Careful k) k ∧ FirstRuns k ∧
      (match syscall (presetPlatform false) 0 (some 2) (frameAddress 0x1000) (calling k) with
      | .ok _ m' => decide (Repeats m')
      | .error _ _ => false) = true := by
    apply SysRun.exists_careful firstTask
    decide +kernel
  obtain ⟨k, hk, hfirst, hcall⟩ := hk
  cases hx : syscall (presetPlatform false) 0 (some 2) (frameAddress 0x1000) (calling k) with
  | ok _ m' =>
    rw [hx] at hcall
    exact ⟨k, m', hk, hfirst, hx, of_decide_eq_true hcall⟩
  | error e m' =>
    rw [hx] at hcall
    cases hcall

end Replay

end NaiLongKernel.Arch
