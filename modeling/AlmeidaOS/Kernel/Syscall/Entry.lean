import AlmeidaOS.Base.Machine
import AlmeidaOS.Kernel.Task.Process

/-!
# `kernel/syscall/syscall.asm` and `init.c`: entering the kernel

`syscall_entry` is what the `SYSCALL` instruction jumps to, with the stack of the user still in place.
It pushes the stack pointer, moves to the kernel's stack, pushes the general registers, which make up
the argument of `syscall_handler`, and after the call takes them back. Memory is what the address
space of the task shows, user and kernel.
-/

namespace AlmeidaOS.Kernel

/-- `Kernel.New.Start.VirtualAddress`. -/
def kernelNewStartVirtualAddress : UInt64 := 0xffff800000200000

/-- The registers of `pushaq`, in its order. -/
def pushaqRegs : List Reg :=
  [.rax, .rbx, .rcx, .rdx, .rbp, .rdi, .rsi, .r8, .r9, .r10, .r11, .r12, .r13, .r14, .r15]

/-- The registers `syscall_entry` pops, in its order: all but `rax`. -/
def restoredRegs : List Reg :=
  [.r15, .r14, .r13, .r12, .r11, .r10, .r9, .r8, .rsi, .rdi, .rbp, .rdx, .rcx, .rbx]

/-- `syscall_entry`, up to its `sysret`; `next` is the address after the call. -/
def syscallEntry (next : UInt64) : List Instr :=
  [.push .rsp, .mov .rsp kernelNewStartVirtualAddress] ++ pushaqRegs.map .push ++ [.call next] ++
    restoredRegs.map .pop ++ [.add .rsp 8, .pop .rsp]

/-- The `registers_64_t` at an address. -/
def registersAt (m : Mem) (a : Nat) : Registers64 where
  r15 := m.load64 a
  r14 := m.load64 (a + 8)
  r13 := m.load64 (a + 16)
  r12 := m.load64 (a + 24)
  r11 := m.load64 (a + 32)
  r10 := m.load64 (a + 40)
  r9 := m.load64 (a + 48)
  r8 := m.load64 (a + 56)
  rsi := m.load64 (a + 64)
  rdi := m.load64 (a + 72)
  rbp := m.load64 (a + 80)
  rdx := m.load64 (a + 88)
  rcx := m.load64 (a + 96)
  rbx := m.load64 (a + 104)
  rax := m.load64 (a + 112)

/-- The call `syscall_handler` makes. -/
inductive SyscallRequest where
  | write (string length : UInt64)
  | getpid
  | time
deriving DecidableEq, Repr

/-- The `switch` of `syscall_handler`. -/
def syscallHandler (regs : Registers64) : Outcome SyscallRequest :=
  if regs.rax = 1 then .ok (.write (.ofNat regs.rdi) (.ofNat regs.rsi))
  else if regs.rax = 39 then .ok .getpid
  else if regs.rax = 201 then .ok .time
  -- `fatal()`
  else .error .bugOn

end AlmeidaOS.Kernel
