import AlmeidaOS.Base.StringOps
import AlmeidaOS.Base.Word

/-!
# `kernel/lib/string.c`: moving memory

`memcpy` is `rep movsq` and `rep movsb`, always forward, and `memset` is `rep stosb`. `memmove` copies
with `memcpy` and then clears what it takes to be the part of the source that is not part of the
destination. Pointers are 64-bit words.
-/

namespace AlmeidaOS.Kernel

/-- `memcpy`: eight bytes at a time, and the remainder byte by byte. -/
def memcpy (dst src size : Nat) (m : Mem) : Mem :=
  let (rdi, rsi, m) := repMovs 64 8 (size >>> 3) dst src m
  (repMovs 64 1 (size &&& 7) rdi rsi m).2.2

/-- `memset`. -/
def memset (buf : Nat) (value : UInt8) (size : Nat) (m : Mem) : Mem := repStos 64 1 value.toNat size buf m

/-- `memzero`. -/
def memzero (dst size : Nat) (m : Mem) : Mem := memset dst 0 size m

/-- `memmove`. -/
def memmove (dst src size : Nat) (m : Mem) : Mem :=
  if src = dst then m
  else
    let m := memcpy dst src size m
    if (dst > src ∧ Word.add src size < dst) ∨ (src > dst ∧ Word.add dst size < src) then memzero src size m
    else if dst > src then memzero src (Word.sub size (Word.sub dst src)) m
    else
      let behind := Word.sub (Word.add src size) (Word.add dst size)
      memzero (Word.add src behind) behind m

end AlmeidaOS.Kernel
