import AlmeidaOS.Kernel.Syscall.Entry
import AlmeidaOS.Libc.Unistd

/-!
# A system call and the registers of the user

`syscall_handler` finds the registers of the user in its argument, so what a program asks for through
the library is what the handler serves (`syscallHandler_asks`), and after the call `syscall_entry` has
them back, with the result in `rax`. The stack pointer is another matter. It was pushed on the
stack of the user, and `pop rsp` reads the stack of the kernel: the word at the address where that
stack begins, which nobody stored. So the stack pointer is restored exactly when that word happens to
hold it.
-/

namespace AlmeidaOS.Kernel

/-- The machine at the first instruction of `syscall_handler`. -/
def atHandler (next : UInt64) (m : Machine) : Machine :=
  (((m.push (m.regs .rsp)).set .rsp kernelNewStartVirtualAddress).pushes pushaqRegs).push next

/-- The machine at `sysret`, from the one the handler left. -/
def atSysret (left : Machine) : Machine :=
  ((left.pops restoredRegs).set .rsp ((left.pops restoredRegs).regs .rsp + 8)).pop .rsp

theorem run_syscallEntry (handler : Machine → Outcome Machine) (next : UInt64) (m : Machine) :
    Instr.run handler (syscallEntry next) m = handler (atHandler next m) >>= fun left => .ok (atSysret left) :=
  Instr.run_frame kernelNewStartVirtualAddress next pushaqRegs restoredRegs

/-! ## Entering -/

/-- Where the stack of the kernel begins. -/
def stackStart : Nat := 0xffff800000200000

section Entry

variable {next : UInt64} {m left : Machine}

/-- The machine on the kernel's stack, before the registers are pushed. -/
theorem switched_sp (m : Machine) (v : UInt64) : ((m.push v).set .rsp kernelNewStartVirtualAddress).sp = stackStart := by
  rw [Machine.sp, Machine.set_self]
  rfl

theorem stack_not_mem : .rsp ∉ pushaqRegs ∧ .rsp ∉ restoredRegs := by decide

theorem pushed_sp (m : Machine) (v : UInt64) :
    (((m.push v).set .rsp kernelNewStartVirtualAddress).pushes pushaqRegs).sp = stackStart - 120 := by
  have room : 8 * pushaqRegs.length ≤ ((m.push v).set .rsp kernelNewStartVirtualAddress).sp := by
    rw [switched_sp]
    decide
  rw [Machine.pushes_sp room, switched_sp]
  rfl

theorem atHandler_sp (next : UInt64) (m : Machine) : (atHandler next m).sp = stackStart - 128 := by
  rw [atHandler, Machine.push_sp _ (by rw [pushed_sp]; decide), pushed_sp]
  rfl

/-- The words of the registers pushed. -/
theorem atHandler_word (next : UInt64) (m : Machine) {i : Nat} {r : Reg} (here : pushaqRegs[i]? = some r) :
    (atHandler next m).mem.load64 (stackStart - 8 * (i + 1)) = (m.regs r).toNat := by
  have lt : i < 15 := (List.getElem?_eq_some_iff.mp here).1
  have other : r ≠ .rsp := fun same => stack_not_mem.1 (same ▸ List.mem_of_getElem? here)
  have room : 8 * pushaqRegs.length ≤ ((m.push (m.regs .rsp)).set .rsp kernelNewStartVirtualAddress).sp := by
    rw [switched_sp]
    decide
  have word := Machine.pushes_load64 stack_not_mem.1 room here
  rw [switched_sp, Machine.set_of_ne _ _ other, Machine.push_regs _ other] at word
  rw [atHandler, Machine.push_load64_above _ (by rw [pushed_sp]; decide), word]
  rw [pushed_sp, stackStart]
  omega

/-- The word where the kernel's stack begins is the one that was there before. -/
theorem atHandler_start (next : UInt64) (m : Machine) :
    (atHandler next m).mem.load64 stackStart = (m.push (m.regs .rsp)).mem.load64 stackStart := by
  have room : 8 * pushaqRegs.length ≤ ((m.push (m.regs .rsp)).set .rsp kernelNewStartVirtualAddress).sp := by
    rw [switched_sp]
    decide
  rw [atHandler, Machine.push_load64_above _ (by rw [pushed_sp]; decide) (by rw [pushed_sp]; decide),
    Machine.pushes_load64_above room (by rw [switched_sp])]
  rfl

/-- The registers of the user, as `registers_64_t`. -/
def userRegisters (m : Machine) : Registers64 where
  r15 := (m.regs .r15).toNat
  r14 := (m.regs .r14).toNat
  r13 := (m.regs .r13).toNat
  r12 := (m.regs .r12).toNat
  r11 := (m.regs .r11).toNat
  r10 := (m.regs .r10).toNat
  r9 := (m.regs .r9).toNat
  r8 := (m.regs .r8).toNat
  rsi := (m.regs .rsi).toNat
  rdi := (m.regs .rdi).toNat
  rbp := (m.regs .rbp).toNat
  rdx := (m.regs .rdx).toNat
  rcx := (m.regs .rcx).toNat
  rbx := (m.regs .rbx).toNat
  rax := (m.regs .rax).toNat

/-- The argument of `syscall_handler`, which is passed in memory above the return address. -/
def handlerArgument (entered : Machine) : Registers64 := registersAt entered.mem (entered.sp + 8)

/-- The handler finds the registers of the user. -/
theorem handlerArgument_atHandler (next : UInt64) (m : Machine) :
    handlerArgument (atHandler next m) = userRegisters m := by
  have word := fun (i : Nat) (r : Reg) (here : pushaqRegs[i]? = some r) => atHandler_word next m here
  rw [handlerArgument, atHandler_sp, registersAt, userRegisters, Registers64.mk.injEq]
  exact ⟨word 14 .r15 rfl, word 13 .r14 rfl, word 12 .r13 rfl, word 11 .r12 rfl, word 10 .r11 rfl, word 9 .r10 rfl,
    word 8 .r9 rfl, word 7 .r8 rfl, word 6 .rsi rfl, word 5 .rdi rfl, word 4 .rbp rfl, word 3 .rdx rfl,
    word 2 .rcx rfl, word 1 .rbx rfl, word 0 .rax rfl⟩

/-- A program asks for a system call with the function of the library that has its name. -/
def SyscallRequest.asks (next rflags : UInt64) : SyscallRequest → Machine → Machine
  | .write string length => Libc.write next rflags string length
  | .getpid => Libc.getpid next rflags
  | .time => Libc.time next rflags

theorem userRegisters_syscall (next rflags nrNumber rdi rsi rdx r10 r8 r9 : UInt64) (m : Machine) :
    (userRegisters (Libc.syscall next rflags nrNumber rdi rsi rdx r10 r8 r9 m)).rax = nrNumber.toNat ∧
      (userRegisters (Libc.syscall next rflags nrNumber rdi rsi rdx r10 r8 r9 m)).rdi = rdi.toNat ∧
      (userRegisters (Libc.syscall next rflags nrNumber rdi rsi rdx r10 r8 r9 m)).rsi = rsi.toNat := by
  simp [userRegisters, Libc.syscall, Machine.syscall, Machine.set_self, Machine.set_of_ne]

/-- The handler serves what the program has asked for. -/
theorem syscallHandler_asks (request : SyscallRequest) (next rflags ret : UInt64) (m : Machine) :
    syscallHandler (handlerArgument (atHandler ret (request.asks next rflags m))) = .ok request := by
  rw [handlerArgument_atHandler]
  cases request with
  | write string length =>
    obtain ⟨rax, rdi, rsi⟩ := userRegisters_syscall next rflags 1 string length 0 0 0 0 m
    simp [syscallHandler, SyscallRequest.asks, Libc.write, rax, rdi, rsi]
  | getpid => simp [syscallHandler, SyscallRequest.asks, Libc.getpid, userRegisters_syscall]
  | time => simp [syscallHandler, SyscallRequest.asks, Libc.time, userRegisters_syscall]

/-! ## Returning -/

/-- What is assumed of `syscall_handler`, from its first instruction to its return: it obeys the
System V convention, restores the stack pointer and leaves the saved registers alone. -/
structure HandlerReturns (entered left : Machine) : Prop where
  stack : left.sp = entered.sp + 8
  calleeSaved : ∀ r ∈ [.rbx, .rbp, .r12, .r13, .r14, .r15], left.regs r = entered.regs r
  argument : ∀ x, entered.sp + 8 ≤ x → x < entered.sp + 8 + 120 → left.mem x = entered.mem x

theorem restored_saved : ∀ i < 14, restoredRegs[i]? = pushaqRegs[14 - i]? := by decide

theorem HandlerReturns.left_sp (returns : HandlerReturns (atHandler next m) left) : left.sp = stackStart - 120 := by
  rw [returns.stack, atHandler_sp]
  rfl

theorem HandlerReturns.room (returns : HandlerReturns (atHandler next m) left) :
    left.sp + 8 * restoredRegs.length < 2 ^ 64 := by
  rw [returns.left_sp]
  decide

theorem HandlerReturns.pops_regs (returns : HandlerReturns (atHandler next m) left) {r : Reg}
    (mem : r ∈ restoredRegs) : (left.pops restoredRegs).regs r = m.regs r := by
  obtain ⟨i, here⟩ := List.mem_iff_getElem?.mp mem
  have lt : i < 14 := (List.getElem?_eq_some_iff.mp here).1
  have saved : pushaqRegs[14 - i]? = some r := by rw [← restored_saved i lt, here]
  have word := atHandler_word next m saved
  have kept : left.mem.load64 (left.sp + 8 * i) = (m.regs r).toNat := by
    rw [← word, returns.left_sp]
    have place : stackStart - 120 + 8 * i = stackStart - 8 * (14 - i + 1) := by
      unfold stackStart
      omega
    rw [place]
    refine Mem.load_congr fun x lower upper => returns.argument x ?_ ?_
    · rw [atHandler_sp]
      unfold stackStart at lower ⊢
      omega
    · rw [atHandler_sp]
      unfold stackStart at upper ⊢
      omega
  rw [Machine.pops_regs (by decide) stack_not_mem.2 returns.room here, kept]
  exact UInt64.ofNat_toNat

theorem HandlerReturns.atSysret_regs (returns : HandlerReturns (atHandler next m) left) {r : Reg}
    (stack : r ≠ .rsp) (result : r ≠ .rax) : (atSysret left).regs r = m.regs r := by
  rw [atSysret, Machine.pop_regs stack stack, Machine.set_of_ne _ _ stack]
  refine returns.pops_regs ?_
  cases r with
  | rax => exact absurd rfl result
  | rsp => exact absurd rfl stack
  | _ => decide

theorem atSysret_rax (left : Machine) : (atSysret left).regs .rax = left.regs .rax := by
  rw [atSysret, Machine.pop_regs (by decide) (by decide), Machine.set_of_ne _ _ (by decide),
    Machine.pops_other (by decide) (by decide)]

/-- The stack pointer comes from the word where the kernel's stack begins. -/
theorem HandlerReturns.atSysret_rsp (returns : HandlerReturns (atHandler next m) left) :
    (atSysret left).sp = left.mem.load64 stackStart := by
  have popped := Machine.pops_sp stack_not_mem.2 returns.room
  rw [returns.left_sp] at popped
  have top : ((left.pops restoredRegs).set .rsp ((left.pops restoredRegs).regs .rsp + 8)).sp = stackStart := by
    rw [Machine.sp, Machine.set_self, UInt64.toNat_add]
    rw [Machine.sp] at popped
    rw [popped]
    rfl
  rw [Machine.sp, atSysret, Machine.pop_self, top]
  show UInt64.toNat (Mem.load64 (left.pops restoredRegs).mem stackStart).toUInt64 = _
  rw [Machine.pops_mem]
  exact Nat.mod_eq_of_lt (Mem.load64_lt ..)

/-- The handler sees the registers of the user, and at `sysret` they are what they were, the stack
pointer included, with the handler's result in `rax`. -/
structure PreservesRegisters (m entered left sysret : Machine) : Prop where
  seen : handlerArgument entered = userRegisters m
  restored : ∀ r, r ≠ .rax → sysret.regs r = m.regs r
  result : sysret.regs .rax = left.regs .rax

end Entry

/-- **System calls and the user's registers.** For every state of the machine and every handler that
keeps to the convention: `syscall_entry` comes to its `sysret`, and the registers are preserved exactly
when the word where the kernel's stack begins holds the stack pointer of the user. -/
theorem syscall_preserves_iff (handler : Machine → Outcome Machine) (next : UInt64) (m left : Machine)
    (returned : handler (atHandler next m) = .ok left) (returns : HandlerReturns (atHandler next m) left) :
    ∃ sysret, Instr.run handler (syscallEntry next) m = .ok sysret ∧
      (PreservesRegisters m (atHandler next m) left sysret ↔ left.mem.load64 stackStart = m.sp) := by
  refine ⟨atSysret left, by rw [run_syscallEntry, returned, ok_bind], fun preserves => ?_, fun word => ?_⟩
  · rw [← returns.atSysret_rsp, Machine.sp, preserves.restored .rsp (by decide)]
    rfl
  · refine ⟨handlerArgument_atHandler next m, fun r result => ?_, atSysret_rax left⟩
    by_cases stack : r = .rsp
    · subst stack
      refine UInt64.toNat_inj.mp ?_
      exact returns.atSysret_rsp.trans word
    · exact returns.atSysret_regs stack result

/-! ### A user with its stack at `0x40000` -/

/-- The machine of a user, with a word in memory where the kernel's stack begins. -/
def userMachine (word : Nat) : Machine where
  regs := fun r => if r = .rsp then 0x40000 else 0
  mem := (⟨fun _ => 0⟩ : Mem).store64 stackStart word

/-- A handler that returns `7` at once. -/
def answerSeven (m : Machine) : Machine := (m.set .rax 7).set .rsp (m.regs .rsp + 8)

theorem answerSeven_returns (next : UInt64) (m : Machine) :
    HandlerReturns (atHandler next m) (answerSeven (atHandler next m)) where
  stack := by
    have entered := atHandler_sp next m
    rw [answerSeven, Machine.sp, Machine.set_self, UInt64.toNat_add]
    rw [Machine.sp] at entered ⊢
    rw [entered]
    rfl
  calleeSaved := by
    intro r mem
    have other : r ≠ .rsp ∧ r ≠ .rax := by
      constructor
      · rintro rfl
        exact absurd mem (by decide)
      · rintro rfl
        exact absurd mem (by decide)
    rw [answerSeven, Machine.set_of_ne _ _ other.1, Machine.set_of_ne _ _ other.2]
  argument := fun _ _ _ => rfl

theorem userMachine_word (next : UInt64) {word : Nat} (lt : word < 2 ^ 64) :
    (answerSeven (atHandler next (userMachine word))).mem.load64 stackStart = word := by
  show (atHandler next (userMachine word)).mem.load64 stackStart = word
  have user : (userMachine word).regs .rsp = 0x40000 := by simp only [userMachine, if_true]
  have push : ((userMachine word).regs .rsp - 8).toNat = 0x3fff8 := by
    rw [user]
    rfl
  rw [atHandler_start]
  show ((userMachine word).mem.store64 ((userMachine word).regs .rsp - 8).toNat _).load64 stackStart = word
  rw [push, Mem.load64_store64_of_disjoint (.inr (by decide))]
  exact Mem.load64_store64 lt

/-- The call preserves the registers when the word is the stack pointer. -/
theorem syscall_preserves_lucky_word :
    ∃ sysret, Instr.run (fun m => .ok (answerSeven m)) (syscallEntry 0) (userMachine 0x40000) = .ok sysret ∧
      PreservesRegisters (userMachine 0x40000) (atHandler 0 (userMachine 0x40000))
        (answerSeven (atHandler 0 (userMachine 0x40000))) sysret := by
  obtain ⟨sysret, run, iff⟩ := syscall_preserves_iff (fun m => .ok (answerSeven m)) 0 (userMachine 0x40000) _ rfl
    (answerSeven_returns 0 _)
  exact ⟨sysret, run, iff.mpr (userMachine_word 0 (by decide))⟩

/-- With the first bytes of the kernel's file there, the user goes on with them as its stack pointer. -/
theorem syscall_loses_stack_pointer :
    ∃ sysret, Instr.run (fun m => .ok (answerSeven m)) (syscallEntry 0) (userMachine 0x00010102464c457f) = .ok sysret ∧
      HandlerReturns (atHandler 0 (userMachine 0x00010102464c457f))
        (answerSeven (atHandler 0 (userMachine 0x00010102464c457f))) ∧
      ¬ PreservesRegisters (userMachine 0x00010102464c457f) (atHandler 0 (userMachine 0x00010102464c457f))
        (answerSeven (atHandler 0 (userMachine 0x00010102464c457f))) sysret := by
  have returns := answerSeven_returns 0 (userMachine 0x00010102464c457f)
  refine ⟨_, by rw [run_syscallEntry, ok_bind], returns, fun preserves => ?_⟩
  have lost := returns.atSysret_rsp
  rw [userMachine_word 0 (by decide), Machine.sp, preserves.restored .rsp (by decide)] at lost
  exact absurd lost (by decide)

end AlmeidaOS.Kernel
