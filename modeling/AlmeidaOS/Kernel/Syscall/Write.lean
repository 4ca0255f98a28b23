import AlmeidaOS.Kernel.Lib.Vsnprintf
import AlmeidaOS.Kernel.Mm.Kmem

/-!
# `kernel/syscall/write.c`: `sys_write`

The user's string is copied to a block of the kernel's allocator, and the block is printed as a format
string. `kmalloc` leaves in the block what was there before, and `printk` finds its arguments in
registers and on the stack, where nobody has put any.
-/

namespace AlmeidaOS.Kernel

/-- `PRINTK_INFO_LEVEL`, also the level that is logged. -/
def printkInfoLevel : Nat := 1

/-- What `sys_write` finds: the kernel's memory, the memory of the task at its virtual addresses, and
in place of the arguments of `printk` the words in registers and on the stack, with the strings at the
addresses they may be taken for. -/
structure WriteState where
  kernel : KernelMem
  user : Mem
  args : VaList
  strings : Nat → CString

theorem CString.nil_nonzero : ∀ c ∈ ([] : List UInt8), c ≠ 0 := by simp

/-- The string at an address, when it ends before the end of memory. -/
def cstringAt (m : Mem) : Nat → Nat → Outcome CString
  | 0, _ => .error .outOfBounds
  | left + 1, a =>
    if null : m a = 0 then .ok ⟨[], CString.nil_nonzero⟩
    else do
      let rest ← cstringAt m left (a + 1)
      pure ⟨m a :: rest.chars, List.forall_mem_cons.mpr ⟨null, rest.nonzero⟩⟩

/-- `sys_write` up to its `printk_info(content)`: the block, the kernel's memory, and the text sent to
the console. -/
def sysWritePrint (shiftBits fuel : Nat) (s : WriteState) (string length : Nat) :
    Outcome (Nat × KernelMem × List UInt8) := do
  bugOn (length = 0 ∨ string = 0)
  let (content, kernel) ← kmalloc shiftBits fuel s.kernel length kmemDefault
  let bytes := (List.range length).map fun i => s.user (string + i)
  let mem := kernel.mem.write (linear content) bytes
  let fmt ← cstringAt mem (2 ^ 64 - linear content) (linear content)
  let text ← printkText printkInfoLevel printkInfoLevel fmt s.strings s.args
  pure (content, { kernel with mem := mem }, text)

/-- `sys_write`: the value returned, the kernel's memory, and the text sent to the console. -/
def sysWrite (shiftBits fuel : Nat) (s : WriteState) (string length : Nat) :
    Outcome (Nat × KernelMem × List UInt8) := do
  let (content, kernel, text) ← sysWritePrint shiftBits fuel s string length
  let kernel ← kfree fuel kernel content
  pure (length, kernel, text)

end AlmeidaOS.Kernel
