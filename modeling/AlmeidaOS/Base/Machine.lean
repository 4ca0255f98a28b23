import Mathlib.Logic.Function.Basic
import AlmeidaOS.Base.Bytes
import AlmeidaOS.Base.Outcome

/-!
# A machine with a stack

The general registers of a 64-bit processor, a memory, and the instructions a routine needs that saves
registers on the stack, calls a function and restores them. The function called is a parameter: it
takes the machine from its first instruction to the one after its return, or does not return.

Pushing registers leaves their values in the words below the stack pointer, the first one highest
(`pushes_load64`), and popping takes the words from the stack pointer on (`pops_regs`).
-/

namespace AlmeidaOS

/-- The general registers. -/
inductive Reg where
  | rax | rbx | rcx | rdx | rbp | rdi | rsi | r8 | r9 | r10 | r11 | r12 | r13 | r14 | r15 | rsp
deriving DecidableEq, Repr

/-- Registers and memory. -/
structure Machine where
  regs : Reg → UInt64
  mem : Mem

namespace Machine

/-- The stack pointer. -/
def sp (m : Machine) : Nat := (m.regs .rsp).toNat

def set (m : Machine) (r : Reg) (v : UInt64) : Machine := { m with regs := Function.update m.regs r v }

/-- The value is stored below the stack pointer, which moves down to it. -/
def push (m : Machine) (v : UInt64) : Machine :=
  { m.set .rsp (m.regs .rsp - 8) with mem := m.mem.store64 (m.regs .rsp - 8).toNat v.toNat }

/-- The `SYSCALL` instruction: the address of the next instruction and the flags are kept in registers. -/
def syscall (m : Machine) (next rflags : UInt64) : Machine := (m.set .rcx next).set .r11 rflags

/-- The stack pointer moves up, and the register takes the word it pointed to. -/
def pop (m : Machine) (r : Reg) : Machine := (m.set .rsp (m.regs .rsp + 8)).set r (m.mem.load64 m.sp).toUInt64

end Machine

/-- The instructions. -/
inductive Instr where
  | push (r : Reg)
  | pop (r : Reg)
  | mov (r : Reg) (v : UInt64)
  | add (r : Reg) (v : UInt64)
  | call (next : UInt64)
deriving DecidableEq, Repr

/-- What an instruction does; `next` is the address of the instruction after the call. -/
def Instr.exec (callee : Machine → Outcome Machine) : Instr → Machine → Outcome Machine
  | .push r, m => pure (m.push (m.regs r))
  | .pop r, m => pure (m.pop r)
  | .mov r v, m => pure (m.set r v)
  | .add r v, m => pure (m.set r (m.regs r + v))
  | .call next, m => callee (m.push next)

/-- What a list of instructions does. -/
def Instr.run (callee : Machine → Outcome Machine) : List Instr → Machine → Outcome Machine
  | [], m => pure m
  | i :: is, m => i.exec callee m >>= Instr.run callee is

namespace Machine

/-- Registers pushed one after the other. -/
def pushes (m : Machine) : List Reg → Machine
  | [] => m
  | r :: rs => (m.push (m.regs r)).pushes rs

/-- Registers popped one after the other. -/
def pops (m : Machine) : List Reg → Machine
  | [] => m
  | r :: rs => (m.pop r).pops rs

variable {m : Machine} {r : Reg} {rs : List Reg}

theorem set_self (m : Machine) (r : Reg) (v : UInt64) : (m.set r v).regs r = v := Function.update_self ..

theorem set_of_ne (m : Machine) {q : Reg} (v : UInt64) (other : q ≠ r) : (m.set r v).regs q = m.regs q :=
  Function.update_of_ne other ..

/-! ## Pushing -/

theorem push_sp (v : UInt64) (room : 8 ≤ m.sp) : (m.push v).sp = m.sp - 8 := by
  show ((m.set .rsp (m.regs .rsp - 8)).regs .rsp).toNat = _
  rw [set_self]
  exact UInt64.toNat_sub_of_le _ _ room

theorem push_regs (v : UInt64) (other : r ≠ .rsp) : (m.push v).regs r = m.regs r := set_of_ne m _ other

theorem push_load64 (v : UInt64) (room : 8 ≤ m.sp) : (m.push v).mem.load64 (m.sp - 8) = v.toNat := by
  rw [← push_sp v room]
  show (m.mem.store64 (m.regs .rsp - 8).toNat v.toNat).load64 ((m.set .rsp (m.regs .rsp - 8)).regs .rsp).toNat = _
  rw [set_self]
  exact Mem.load64_store64 v.toNat_lt

theorem push_load64_above (v : UInt64) (room : 8 ≤ m.sp) {a : Nat} (above : m.sp ≤ a) :
    (m.push v).mem.load64 a = m.mem.load64 a := by
  have here : (m.regs .rsp - 8).toNat = m.sp - 8 := UInt64.toNat_sub_of_le _ _ room
  show (m.mem.store64 (m.regs .rsp - 8).toNat v.toNat).load64 a = _
  rw [here]
  exact Mem.load64_store64_of_disjoint (by omega)

theorem pushes_sp (room : 8 * rs.length ≤ m.sp) : (m.pushes rs).sp = m.sp - 8 * rs.length := by
  induction rs generalizing m with
  | nil => rfl
  | cons r rs ih =>
    rw [List.length_cons] at room ⊢
    have first := push_sp (m.regs r) (show 8 ≤ m.sp by omega)
    rw [pushes, ih (by omega), first]
    omega

theorem pushes_load64_above (room : 8 * rs.length ≤ m.sp) {a : Nat} (above : m.sp ≤ a) :
    (m.pushes rs).mem.load64 a = m.mem.load64 a := by
  induction rs generalizing m with
  | nil => rfl
  | cons r rs ih =>
    rw [List.length_cons] at room
    have first := push_sp (m.regs r) (show 8 ≤ m.sp by omega)
    rw [pushes, ih (by omega) (by omega), push_load64_above _ (by omega) above]

/-- The registers pushed are in the words below the stack pointer. -/
theorem pushes_load64 (stack : .rsp ∉ rs) (room : 8 * rs.length ≤ m.sp) {i : Nat} (here : rs[i]? = some r) :
    (m.pushes rs).mem.load64 (m.sp - 8 * (i + 1)) = (m.regs r).toNat := by
  induction rs generalizing m i with
  | nil => cases here
  | cons q rs ih =>
    rw [List.length_cons] at room
    have first := push_sp (m.regs q) (show 8 ≤ m.sp by omega)
    cases i with
    | zero =>
      obtain rfl : q = r := Option.some.inj here
      rw [pushes, pushes_load64_above (by omega) (by omega), Nat.zero_add, Nat.mul_one,
        push_load64 _ (by omega)]
    | succ i =>
      have later : rs[i]? = some r := here
      have apart : r ≠ .rsp := fun same => stack (List.mem_cons_of_mem _ (same ▸ List.mem_of_getElem? later))
      have word := ih (fun mem => stack (List.mem_cons_of_mem _ mem))
        (show 8 * rs.length ≤ (m.push (m.regs q)).sp by omega) later
      rw [first, push_regs _ apart] at word
      have place : m.sp - 8 * (i + 1 + 1) = m.sp - 8 - 8 * (i + 1) := by omega
      rw [pushes, ← word, place]

/-! ## Popping -/

theorem pop_sp (stack : r ≠ .rsp) (room : m.sp + 8 < 2 ^ 64) : (m.pop r).sp = m.sp + 8 := by
  show ((m.pop r).regs .rsp).toNat = _
  rw [pop, set_of_ne _ _ (Ne.symm stack), set_self, UInt64.toNat_add]
  exact Nat.mod_eq_of_lt room

theorem pop_self (m : Machine) (r : Reg) : (m.pop r).regs r = (m.mem.load64 m.sp).toUInt64 := set_self ..

theorem pop_regs {q : Reg} (other : q ≠ r) (stack : q ≠ .rsp) : (m.pop r).regs q = m.regs q := by
  rw [pop, set_of_ne _ _ other, set_of_ne _ _ stack]

theorem pops_mem (m : Machine) (rs : List Reg) : (m.pops rs).mem = m.mem := by
  induction rs generalizing m with
  | nil => rfl
  | cons r rs ih => exact ih (m.pop r)

theorem pops_sp (stack : .rsp ∉ rs) (room : m.sp + 8 * rs.length < 2 ^ 64) :
    (m.pops rs).sp = m.sp + 8 * rs.length := by
  induction rs generalizing m with
  | nil => rfl
  | cons r rs ih =>
    rw [List.length_cons] at room ⊢
    have first : (m.pop r).sp = m.sp + 8 :=
      pop_sp (fun same => stack (same ▸ List.mem_cons_self ..)) (by omega)
    rw [pops, ih (fun mem => stack (List.mem_cons_of_mem _ mem)) (by omega), first]
    omega

theorem pops_other (outside : r ∉ rs) (stack : r ≠ .rsp) : (m.pops rs).regs r = m.regs r := by
  induction rs generalizing m with
  | nil => rfl
  | cons q rs ih =>
    rw [List.mem_cons, not_or] at outside
    rw [pops, ih outside.2, pop_regs outside.1 stack]

/-- The registers popped take the words from the stack pointer on. -/
theorem pops_regs (distinct : rs.Nodup) (stack : .rsp ∉ rs) (room : m.sp + 8 * rs.length < 2 ^ 64) {i : Nat}
    (here : rs[i]? = some r) : (m.pops rs).regs r = (m.mem.load64 (m.sp + 8 * i)).toUInt64 := by
  induction rs generalizing m i with
  | nil => cases here
  | cons q rs ih =>
    rw [List.nodup_cons] at distinct
    rw [List.length_cons] at room
    have above : .rsp ∉ rs := fun mem => stack (List.mem_cons_of_mem _ mem)
    have first : (m.pop q).sp = m.sp + 8 :=
      pop_sp (fun same => stack (same ▸ List.mem_cons_self ..)) (by omega)
    cases i with
    | zero =>
      obtain rfl : q = r := Option.some.inj here
      have apart : q ≠ .rsp := fun same => stack (same ▸ List.mem_cons_self ..)
      rw [pops, pops_other distinct.1 apart, pop_self]
      rfl
    | succ i =>
      rw [pops, ih distinct.2 above (by omega) here, first]
      have sum : m.sp + 8 + 8 * i = m.sp + 8 * (i + 1) := by omega
      rw [sum]
      rfl

end Machine

/-! ## Running -/

namespace Instr

variable {callee : Machine → Outcome Machine} {m : Machine}

theorem run_append (is js : List Instr) : run callee (is ++ js) m = run callee is m >>= run callee js := by
  induction is generalizing m with
  | nil => rfl
  | cons i is ih =>
    rw [List.cons_append, run, run]
    cases i.exec callee m with
    | error fault => rfl
    | ok m' => exact ih

theorem run_pushes (rs : List Reg) : run callee (rs.map .push) m = .ok (m.pushes rs) := by
  induction rs generalizing m with
  | nil => rfl
  | cons r rs ih => exact ih

theorem run_pops (rs : List Reg) : run callee (rs.map .pop) m = .ok (m.pops rs) := by
  induction rs generalizing m with
  | nil => rfl
  | cons r rs ih => exact ih

/-- A routine that moves to a stack of its own, saves registers there, calls, takes registers back and
pops the stack pointer. -/
theorem run_frame (stack next : UInt64) (saved restored : List Reg) :
    run callee ([.push .rsp, .mov .rsp stack] ++ saved.map .push ++ [.call next] ++ restored.map .pop ++
        [.add .rsp 8, .pop .rsp]) m =
      callee ((((m.push (m.regs .rsp)).set .rsp stack).pushes saved).push next) >>= fun left =>
        .ok (((left.pops restored).set .rsp ((left.pops restored).regs .rsp + 8)).pop .rsp) := by
  simp only [run_append, run_pushes, run, exec, pure_eq_ok, ok_bind]
  generalize callee _ = returned
  cases returned with
  | error fault => simp only [error_bind]
  | ok left => simp only [ok_bind, run_pops]

end Instr

end AlmeidaOS
