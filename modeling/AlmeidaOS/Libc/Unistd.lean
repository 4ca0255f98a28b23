import AlmeidaOS.Base.Machine

/-!
# `libc/unistd` and `libc/internals/syscall.c`: asking the kernel

A user program asks the kernel through `syscall`, which puts the number of the system call in `rax` and
the arguments in further registers before the `SYSCALL` instruction. The functions are modelled up to
that instruction; `next` is the address after it and `rflags` are the flags.
-/

namespace AlmeidaOS.Libc

/-- `syscall`, up to its `SYSCALL`. -/
def syscall (next rflags nrNumber rdi rsi rdx r10 r8 r9 : UInt64) (m : Machine) : Machine :=
  (((((((m.set .rax nrNumber).set .rdi rdi).set .rsi rsi).set .rdx rdx).set .r10 r10).set .r8 r8).set .r9 r9).syscall
    next rflags

/-- `write`. -/
def write (next rflags string length : UInt64) (m : Machine) : Machine :=
  syscall next rflags 1 string length 0 0 0 0 m

/-- `getpid`. -/
def getpid (next rflags : UInt64) (m : Machine) : Machine := syscall next rflags 39 0 0 0 0 0 0 m

/-- `time`. -/
def time (next rflags : UInt64) (m : Machine) : Machine := syscall next rflags 201 0 0 0 0 0 0 m

end AlmeidaOS.Libc
