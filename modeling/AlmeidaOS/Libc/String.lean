import AlmeidaOS.Kernel.Lib.Memory

/-!
# `libc/string`: moving memory

The library that user programs are linked with has its own `memcpy`, `memset` and `memmove`. They have
the bodies of the kernel's, with `memset` to 0 where the kernel says `memzero`.
-/

namespace AlmeidaOS.Libc

/-- `memmove`. -/
def memmove (dst src size : Nat) (m : Mem) : Mem := Kernel.memmove dst src size m

end AlmeidaOS.Libc
