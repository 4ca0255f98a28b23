import Mathlib.Logic.Function.Basic
import AlmeidaOS.Kernel.Lib.Memory
import AlmeidaOS.Kernel.Mm.Init

/-!
# `kernel/task/process.c`: tasks

A task is a page table, two stacks and the registers it goes on with. `create_process` builds one
whose page table maps the program and its stack in the lower half and shares the upper half with the
kernel; `process_context_swtich` moves register values between the frame of an interrupt and the
tasks it switches.

Task structures are kept apart from the bytes of memory, by their addresses. What the frame of an
interrupt holds of the control registers is left out: nothing here reads it.
-/

namespace AlmeidaOS.Kernel

/-- `registers_64_t`. -/
structure Registers64 where
  r15 : Nat
  r14 : Nat
  r13 : Nat
  r12 : Nat
  r11 : Nat
  r10 : Nat
  r9 : Nat
  r8 : Nat
  rsi : Nat
  rdi : Nat
  rbp : Nat
  rdx : Nat
  rcx : Nat
  rbx : Nat
  rax : Nat
deriving DecidableEq, Repr

/-- Zeroed registers. -/
def Registers64.zero : Registers64 := ⟨0, 0, 0, 0, 0, 0, 0, 0, 0, 0, 0, 0, 0, 0, 0⟩

/-- `interrupt_stack_frame_t`. -/
structure InterruptStackFrame where
  regs : Registers64
  trapNumber : Nat
  errorCode : Nat
  rip : Nat
  cs : Nat
  rflags : Nat
  rsp : Nat
  ss : Nat
deriving DecidableEq, Repr

/-- `mm_vm_area_t`. -/
structure VmArea where
  iniAddr : Nat
  finiAddr : Nat
  pgtable : PageTable
deriving DecidableEq, Repr

/-- `stack_area_t`. -/
structure StackArea where
  physAddr : Nat
  virtAddr : Nat
  length : Nat
deriving DecidableEq, Repr

/-- `task_struct_t`. -/
structure TaskStruct where
  pid : Nat
  state : Nat
  vmArea : VmArea
  taskStackArea : StackArea
  kernelStackArea : StackArea
  regs : Registers64
  rip : Nat
  cs : Nat
  rflags : Nat
  rsp : Nat
  ss : Nat
deriving DecidableEq, Repr

/-- `TASK_RUNNING`. -/
def taskRunning : Nat := 0

/-- `GDT64_SEGMENT_SELECTOR_USER_DATA`. -/
def gdt64SegmentSelectorUserData : Nat := 0x18

/-- `GDT64_SEGMENT_SELECTOR_USER_CODE`. -/
def gdt64SegmentSelectorUserCode : Nat := 0x20

/-- `DPL_RING_3`. -/
def dplRing3 : Nat := 0x03

/-! ## Creating a task -/

/-- `PID_MAX`. -/
def pidMax : Nat := 1024

/-- `find_free_pid`, over `pid_map`. -/
def findFreePid (pidMap : Nat → Bool) : Outcome (Nat × (Nat → Bool)) :=
  match (List.range' 1 (pidMax - 1)).find? fun i => !pidMap i with
  | none => .error .bugOn
  | some i => .ok (i, Function.update pidMap i true)

/-- The fields `create_process` fills in: the registers are those the program starts with. -/
def startedTask (pid : Nat) (pgtable : PageTable) (taskStackArea kernelStackArea : StackArea) : TaskStruct where
  pid := pid
  state := taskRunning
  vmArea := ⟨0x0, 0x100000 * 10, pgtable⟩
  taskStackArea := taskStackArea
  kernelStackArea := kernelStackArea
  regs := .zero
  rip := 0x41000
  cs := gdt64SegmentSelectorUserCode ||| dplRing3
  rflags := 0x202
  rsp := 0x40000
  ss := gdt64SegmentSelectorUserData ||| dplRing3

/-- `sizeof(task_struct_t)`. -/
def sizeofTaskStruct : Nat := 272

/-- The flags of a page the program may use. -/
def userBits : Nat := pageStdBits ||| pageUserSupervisorBit

/-- `create_process`: the address of the task, its structure, and what the kernel keeps. -/
def createProcess (shiftBits fuel : Nat) (s : KernelMem) (pidMap : Nat → Bool) (textPhyAddr : Nat) :
    Outcome (Nat × TaskStruct × KernelMem × (Nat → Bool)) := do
  let (task, s) ← kmalloc shiftBits fuel s sizeofTaskStruct kmemDefault
  let (pid, pidMap) ← findFreePid pidMap
  let pgtSpcReq := pagingCalcSpaceNeeded (0x100000 * 10 - 0x0)
  let pfdbSpcReq := pageframeCalcSpaceNeeded pgtSpcReq
  let (pages, s) ← kmalloc shiftBits fuel s pgtSpcReq kmemDefault
  let uPagesStructRg : MemMapRegion := ⟨← pa pages, pgtSpcReq, 0⟩
  let (nodes, s) ← kmalloc shiftBits fuel s pfdbSpcReq kmemDefault
  let uPfdbStructRg : MemMapRegion := ⟨← pa nodes, pfdbSpcReq, 0⟩
  let (mem, pgtable) ← pagingInit s.mem uPagesStructRg uPfdbStructRg
  let elfProgSize := 0x8000
  let (mem, pgtable) ← pagingContiguousMap shiftBits userBits fuel mem pgtable textPhyAddr
    (Word.add textPhyAddr elfProgSize) 0x40000
  let (taskStack, s) ← kmalloc shiftBits fuel { s with mem := mem } stackSize (kmemDefault ||| kmemZero)
  let taskStackArea : StackArea := ⟨← pa taskStack, taskStack, stackSize⟩
  let (mem, pgtable) ← pagingContiguousMap shiftBits userBits fuel s.mem pgtable taskStackArea.physAddr
    (Word.add taskStackArea.physAddr taskStackArea.length) 0x3e000
  let (kernelStack, s) ← kmalloc shiftBits fuel { s with mem := mem } stackSize (kmemDefault ||| kmemZero)
  let kernelStackArea : StackArea := ⟨← pa kernelStack, kernelStack, stackSize⟩
  -- the entries of the higher half
  let mem := memcpy (linear (Word.add pgtable.virtRoot (256 * 8))) (linear (Word.add s.pgtable.virtRoot (256 * 8)))
    (256 * 8) s.mem
  pure (task, startedTask pid pgtable taskStackArea kernelStackArea, { s with mem := mem }, pidMap)

/-- The address of the program that `kmain` creates every task with. -/
def programTextAddr : Nat := 0x1C000

/-! ## Switching tasks -/

/-- What switching loads into the processor: `CR3`, and `rsp0` of the task state segment. -/
structure Cpu where
  cr3 : Nat
  rsp0 : Nat
deriving DecidableEq, Repr

/-- `launch_process`. -/
def launchProcess (task : TaskStruct) : Cpu where
  rsp0 := Word.add task.kernelStackArea.virtAddr stackSize
  cr3 := task.vmArea.pgtable.physRoot

/-- The frame takes over the registers of the task. -/
def loadTask (intFrame : InterruptStackFrame) (next : TaskStruct) : InterruptStackFrame :=
  { intFrame with
    regs := next.regs, ss := next.ss, cs := next.cs, rflags := next.rflags, rsp := next.rsp, rip := next.rip }

/-- The task takes over the registers of the frame. -/
def saveTask (curr : TaskStruct) (intFrame : InterruptStackFrame) : TaskStruct :=
  { curr with
    rsp := intFrame.rsp, rip := intFrame.rip, ss := intFrame.ss, cs := intFrame.cs, regs := intFrame.regs,
    rflags := intFrame.rflags }

/-- `process_context_swtich`, with tasks given by their addresses; `curr` may be `NULL`. -/
def processContextSwtich (tasks : Nat → TaskStruct) (intFrame : InterruptStackFrame) (curr next : Nat) :
    (Nat → TaskStruct) × InterruptStackFrame × Cpu :=
  if curr = 0 then (tasks, loadTask intFrame (tasks next), launchProcess (tasks next))
  else
    let tasks := Function.update tasks curr (saveTask (tasks curr) intFrame)
    (tasks, loadTask intFrame (tasks next), launchProcess (tasks next))

end AlmeidaOS.Kernel
