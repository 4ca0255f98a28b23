import AlmeidaOS.Laws.Task.Process

/-!
# Address spaces over whole runs

A run begins with `mm_init` and goes on with any calls of `kmalloc`, `kfree` and `create_process` that
return, in any order. In between the kernel writes to what is its own, and the programs of the tasks write
to whatever their page tables let them. `RunKept` is the invariant: the kernel's page table and the allocator
as `KernelKept` has them, every task's table as `TaskKept` has it, and the blocks of all of them apart.

The allocator's header, three variables of the kernel and the structures of the tasks are kept apart from the
bytes of memory, so those bytes are nobody's to write to here; that no step does is `RunKept.step_apart`. The
registers that switching tasks saves in a structure are left out: nothing here reads them.

* `linear_map_kept`: what the kernel's table maps in the upper half is the linear map, out of reach for a
  program, and a block that `kmalloc` returns is mapped.
* `tasks_share_kernel_half`: every task sees the kernel's half as the kernel does, and nothing changes the
  lower half of a task that is there.
* `programs_are_confined`: a program reaches the pages of its stack and those of the program, at the
  addresses it was linked for, and nothing else; of what the kernel holds it reaches the program only.
* `calls_keep_contents`: no call changes what the program, a block that is out or a program's stack holds.
* `kmalloc_returns_iff_free` and `create_process_returns`: what calls need to return.
-/

namespace AlmeidaOS.Kernel

open Radix

/-! ## Runs -/

/-- The kernel, the blocks that `kmalloc` has returned and `kfree` has not taken back, by their physical
addresses, the tasks created so far, the last one first, each with the address of its structure, and `pid_map`. -/
structure KernelRun where
  state : KernelMem
  live : List Grant
  tasks : List (Nat × TaskStruct)
  pidMap : Nat → Bool

/-- Just after `mm_init`. -/
def KernelRun.start (s : KernelMem) : KernelRun := ⟨s, [], [], fun _ => false⟩

/-- The root of a task's page table. -/
def TaskStruct.root (task : TaskStruct) : Nat := task.vmArea.pgtable.physRoot

/-- An address the processor accepts. -/
def Canonical (v : Nat) : Prop := v < 2 ^ 47 ∨ 0xffff800000000000 ≤ v ∧ v < 2 ^ 64

/-- Where a program's access to an address goes through a page table. -/
def userTranslate (m : Mem) (root v : Nat) : Option Nat := (userWalk m root v).map fun page => page.1 + v % 4096

/-- The bytes that a program reaches through a page table. -/
def userReach (m : Mem) (root : Nat) : Set Nat := {x | ∃ v, Canonical v ∧ userTranslate m root v = some x}

/-- The bytes of a task's stack. -/
def stackBytes (t : Nat × TaskStruct) : Set Nat :=
  {x | t.2.taskStackArea.physAddr ≤ x ∧ x < t.2.taskStackArea.physAddr + stackSize}

/-- The bytes of the stack the kernel uses for a task. -/
def kernelStackBytes (t : Nat × TaskStruct) : Set Nat :=
  {x | t.2.kernelStackArea.physAddr ≤ x ∧ x < t.2.kernelStackArea.physAddr + stackSize}

/-- The bytes of a task's structure. -/
def structBytes (t : Nat × TaskStruct) : Set Nat := {x | linear t.1 ≤ x ∧ x < linear t.1 + sizeofTaskStruct}

/-- The bytes asked for of a block that is out. -/
def Grant.bytesOf (g : Grant) : Set Nat := {x | g.ptr ≤ x ∧ x < g.ptr + g.bytes}

/-- The bytes that are the kernel's `own` from the start: what the memory map reserves, but for what is kept apart
from memory, the allocator's header and the variables. -/
def kernelBytes (image : KernelImage) (s : KernelMem) (map : PhysMap) : Set Nat :=
  reservedBytes s map \ (staticBytes image ∪ headerBytes s)

/-- The bytes that the kernel may write to between calls: its `own`, those of blocks that are out, and those of the
tasks' kernel stacks. -/
def kernelReach (own : Set Nat) (r : KernelRun) : Set Nat :=
  {x | x ∈ own ∨ (∃ g ∈ r.live, x ∈ g.bytesOf) ∨ ∃ t ∈ r.tasks, x ∈ kernelStackBytes t}

/-- All that is written to between calls, by the kernel or by a program. -/
def betweenCalls (own : Set Nat) (r : KernelRun) : Set Nat :=
  {x | x ∈ kernelReach own r ∨ ∃ t ∈ r.tasks, x ∈ stackBytes t}

/-- What the program, the blocks that are out and the stacks of the programs hold. -/
def contents (r : KernelRun) : Set Nat :=
  {x | x ∈ programBytes ∨ (∃ g ∈ r.live, x ∈ g.bytesOf) ∨ ∃ t ∈ r.tasks, x ∈ stackBytes t}

/-- What the kernel holds beside its page tables: some bytes from the start, blocks that are out, and the structures
and the kernel stacks of the tasks. -/
def kernelHolds (start : Set Nat) (r : KernelRun) : Set Nat :=
  {x | x ∈ start ∨ (∃ g ∈ r.live, x ∈ g.bytesOf) ∨ ∃ t ∈ r.tasks, x ∈ structBytes t ∨ x ∈ kernelStackBytes t}

/-- One call that returns. -/
inductive KernelCall (shiftBits : Nat) (r : KernelRun) : KernelRun → Prop
  | malloc {fuel bytes flags ptr : Nat} {s : KernelMem}
      (run : kmalloc shiftBits fuel r.state bytes flags = .ok (ptr, s)) :
      KernelCall shiftBits r { r with state := s, live := ⟨linear ptr, bytes⟩ :: r.live }
  | free {fuel ptr bytes : Nat} {s : KernelMem} (ours : ⟨linear ptr, bytes⟩ ∈ r.live)
      (run : kfree fuel r.state ptr = .ok s) :
      KernelCall shiftBits r { r with state := s, live := r.live.erase ⟨linear ptr, bytes⟩ }
  | create {fuel ptr : Nat} {task : TaskStruct} {s : KernelMem} {pidMap : Nat → Bool}
      (run : createProcess shiftBits fuel r.state r.pidMap programTextAddr = .ok (ptr, task, s, pidMap)) :
      KernelCall shiftBits r { r with state := s, tasks := (ptr, task) :: r.tasks, pidMap := pidMap }

/-- A call, the kernel writing to what it may write to, or the program of a task writing to what it reaches. -/
inductive KernelStep (shiftBits : Nat) (own : Set Nat) (r : KernelRun) : KernelRun → Prop
  | call {r' : KernelRun} (call : KernelCall shiftBits r r') : KernelStep shiftBits own r r'
  | kernel {mem : Mem} (same : r.state.mem.SameOff (kernelReach own r) mem) :
      KernelStep shiftBits own r { r with state := { r.state with mem := mem } }
  | program {mem : Mem} {t : Nat × TaskStruct} (there : t ∈ r.tasks)
      (same : r.state.mem.SameOff (userReach r.state.mem t.2.root) mem) :
      KernelStep shiftBits own r { r with state := { r.state with mem := mem } }

theorem KernelCall.tasks_sub {w : Nat} {r r' : KernelRun} (call : KernelCall w r r') : ∀ t ∈ r.tasks, t ∈ r'.tasks := by
  cases call with
  | malloc => exact fun _ there => there
  | free => exact fun _ there => there
  | create => exact fun _ there => List.mem_cons_of_mem _ there

theorem KernelStep.tasks_sub {w : Nat} {own : Set Nat} {r r' : KernelRun} (step : KernelStep w own r r') :
    ∀ t ∈ r.tasks, t ∈ r'.tasks := by
  cases step with
  | call call => exact call.tasks_sub
  | kernel => exact fun _ there => there
  | program => exact fun _ there => there

/-! ## The pages of a program -/

theorem firstWriter_cons (c : PageCall) (calls : List PageCall) (v : Nat) : firstWriter (c :: calls) v =
    if samePage c.vAddr v then some (c.pDestAddr / 4096 * 4096, c.flags) else firstWriter calls v := by
  simp only [firstWriter, List.find?_cons]
  by_cases page : samePage c.vAddr v <;> simp [page]

theorem firstWriter_append (calls calls' : List PageCall) (v : Nat) :
    firstWriter (calls ++ calls') v = (firstWriter calls v).or (firstWriter calls' v) := by
  rw [firstWriter, List.find?_append, Option.map_or]
  rfl

/-- What a row of calls maps. -/
theorem firstWriter_rowCalls {flags p v₀ n v : Nat} (aligned : 4096 ∣ p) (aligned' : 4096 ∣ v₀)
    (low : v₀ + 4096 * n < 2 ^ 47) (lower : v < 2 ^ 47) : firstWriter (rowCalls flags p v₀ n) v =
      if v₀ ≤ v ∧ v < v₀ + 4096 * n then some (p + (v - v₀) / 4096 * 4096, flags) else none := by
  induction n generalizing p v₀ with
  | zero =>
    rw [if_neg (by omega)]
    rfl
  | succ n ih =>
    rw [Nat.mul_succ, ← Nat.add_assoc] at low ⊢
    have word : v₀ + 4096 < 2 ^ 64 := by omega
    have rest := @ih (p + 4096) (v₀ + 4096) (by omega) (by omega) (by omega)
    rw [rowCalls_succ (by omega), firstWriter_cons, Word.add_of_lt word, rest]
    dsimp only
    have here : samePage v₀ v ↔ v₀ ≤ v ∧ v < v₀ + 4096 := by
      unfold samePage
      omega
    by_cases first : v₀ ≤ v ∧ v < v₀ + 4096
    · rw [if_pos (here.mpr first), if_pos (by omega)]
      congr 2
      omega
    · rw [if_neg (mt here.mp first)]
      by_cases later : v₀ + 4096 ≤ v ∧ v < v₀ + 4096 + 4096 * n
      · rw [if_pos later, if_pos (by omega)]
        congr 2
        omega
      · rw [if_neg later, if_neg (by omega)]

/-- The program's nine pages, and the two of the stack below them. -/
def userPage (stack v : Nat) : Option Nat :=
  if 0x40000 ≤ v ∧ v < 0x49000 then some (programTextAddr + (v - 0x40000))
  else if 0x3e000 ≤ v ∧ v < 0x40000 then some (stack + (v - 0x3e000))
  else none

/-- The third call for the stack is for a page that is the program's already. -/
theorem firstWriter_userCalls {stack v : Nat} (aligned : 4096 ∣ stack) (lower : v < 2 ^ 47) :
    firstWriter (userCalls programTextAddr stack) v = (userPage stack v).map fun x => (x / 4096 * 4096, userBits) := by
  rw [userCalls, firstWriter_append, firstWriter_rowCalls (by decide) (by decide) (by decide) lower,
    firstWriter_rowCalls aligned (by decide) (by decide) lower, userPage]
  unfold programTextAddr
  by_cases text : 0x40000 ≤ v ∧ v < 0x49000
  · rw [if_pos (by omega), if_pos text, Option.some_or, Option.map_some]
    congr 2
    omega
  · rw [if_neg (by omega), if_neg text, Option.none_or]
    by_cases own : 0x3e000 ≤ v ∧ v < 0x40000
    · rw [if_pos (by omega), if_pos own, Option.map_some]
      congr 2
      omega
    · rw [if_neg (by omega), if_neg own, Option.map_none]

theorem userCalls_flags {text stack : Nat} {c : PageCall} (mem : c ∈ userCalls text stack) : c.flags = userBits := by
  rcases List.mem_append.mp mem with row | row
  · obtain ⟨i, -, rfl⟩ := mem_rowCalls.mp row
    rfl
  · obtain ⟨i, -, rfl⟩ := mem_rowCalls.mp row
    rfl

/-- The offset into a page is that of the address. -/
theorem userPage_spec {stack v x : Nat} (aligned : 4096 ∣ stack) (page : userPage stack v = some x) :
    x % 4096 = v % 4096 ∧ v < 2 ^ 47 ∧ (x ∈ programBytes ∨ stack ≤ x ∧ x < stack + stackSize) := by
  unfold userPage at page
  unfold stackSize pageSize
  split at page
  · obtain rfl := Option.some.inj page
    unfold programTextAddr
    exact ⟨by omega, by omega, .inl ⟨by unfold programTextAddr; omega, by unfold programTextAddr; omega⟩⟩
  · split at page
    · obtain rfl := Option.some.inj page
      exact ⟨by omega, by omega, .inr ⟨by omega, by omega⟩⟩
    · cases page

/-! ## The invariant -/

/-- A grant is for the frames of a task's page table or for their nodes. -/
def Grant.IsTable (g : Grant) : Prop := g ∈ tableGrants g.ptr g.ptr

theorem Grant.IsTable.bytes {g : Grant} (table : g.IsTable) :
    g.bytes ≠ stackSize ∧ g.bytes ≠ sizeofTaskStruct := by
  obtain ⟨ptr, bytes⟩ := g
  simp only [Grant.IsTable, tableGrants, List.mem_cons, List.not_mem_nil, or_false, Grant.mk.injEq, true_and] at table
  dsimp only
  rcases table with rfl | rfl
  · decide
  · decide

theorem Grant.IsTable.ne_stack {g : Grant} (table : g.IsTable) {p : Nat} : (⟨p, stackSize⟩ : Grant) ≠ g :=
  fun same => table.bytes.1 (same ▸ rfl)

theorem Grant.IsTable.ne_struct {g : Grant} (table : g.IsTable) {p : Nat} : (⟨p, sizeofTaskStruct⟩ : Grant) ≠ g :=
  fun same => table.bytes.2 (same ▸ rfl)

theorem isTable_of_mem {pages nodes : Nat} {g : Grant} (mem : g ∈ tableGrants pages nodes) : g.IsTable := by
  simp only [tableGrants, List.mem_cons, List.not_mem_nil, or_false, Grant.IsTable] at mem ⊢
  rcases mem with rfl | rfl <;> simp

/-- A task between calls: its blocks are among those of the tasks and apart from the kernel's pool, and its page
table is in two of them. -/
def Tasked (K : Pool) (k : Nat) (blocks : List Grant) (m : Mem) (t : Nat × TaskStruct) : Prop :=
  ∃ pages nodes, (∀ g ∈ taskGrants (linear t.1) pages nodes t.2.taskStackArea.physAddr t.2.kernelStackArea.physAddr,
      g ∈ blocks ∧ ∀ x, g.owns x → x ∉ K.Bytes) ∧
    TaskKept K k (tableGrants pages nodes) m t.2.vmArea.pgtable (userCalls programTextAddr t.2.taskStackArea.physAddr)

/-- The addresses of the blocks of a task that are no tables. -/
def taskPtrs (t : Nat × TaskStruct) : List Nat :=
  [t.2.kernelStackArea.physAddr, t.2.taskStackArea.physAddr, linear t.1]

/-- What holds between calls, with the kernel's table in the pool `K` with the root `k`. The fixed blocks are those
of the tasks and those from before, which hold what is `reserved`. -/
structure RunKept (w : Nat) (reserved : Set Nat) (K : Pool) (k : Nat) (boot blocks : List Grant) (calls : List PageCall)
    (r : KernelRun) : Prop where
  kept : KernelKept w K k (blocks ++ boot) r.state r.live calls
  linear : ∀ c ∈ calls, LinearCall c
  rooted : entries r.state.mem k kernelSlot ≠ 0
  owned : ∀ x ∈ reserved, x ∉ K.Bytes ∧ ∃ g ∈ boot, g.owns x
  program : programBytes ⊆ reserved
  tasks : ∀ t ∈ r.tasks, Tasked K k blocks r.state.mem t
  nodup : ∀ t ∈ r.tasks, (taskPtrs t).Nodup
  apart : r.tasks.Pairwise fun t t' => (taskPtrs t).Disjoint (taskPtrs t')
  pids : r.tasks.Pairwise fun t t' => t.2.pid ≠ t'.2.pid
  taken : ∀ t ∈ r.tasks, 1 ≤ t.2.pid ∧ t.2.pid < pidMax ∧ r.pidMap t.2.pid = true
  only : ∀ pid, r.pidMap pid = true → ∃ t ∈ r.tasks, t.2.pid = pid

theorem ptr_of_taskPtrs {t : Nat × TaskStruct} {p : Nat} (pages nodes : Nat) (mem : p ∈ taskPtrs t) :
    ∃ g ∈ taskGrants (linear t.1) pages nodes t.2.taskStackArea.physAddr t.2.kernelStackArea.physAddr, g.ptr = p := by
  simp only [taskPtrs, List.mem_cons, List.not_mem_nil, or_false] at mem
  rcases mem with same | same | same
  · exact ⟨⟨t.2.kernelStackArea.physAddr, stackSize⟩, by simp [taskGrants], same.symm⟩
  · exact ⟨⟨t.2.taskStackArea.physAddr, stackSize⟩, by simp [taskGrants], same.symm⟩
  · exact ⟨⟨linear t.1, sizeofTaskStruct⟩, by simp [taskGrants], same.symm⟩

section Tasks

variable {K : Pool} {k : Nat} {blocks : List Grant} {m m' : Mem} {t : Nat × TaskStruct}

/-- A task stays as it is when what is written to lies off the tables. -/
theorem Tasked.keep (tasked : Tasked K k blocks m t) {bytes : Set Nat} {blocks' : List Grant}
    (writes : Writes K k bytes m m') (off : ∀ g ∈ blocks, g.IsTable → ∀ x, g.owns x → x ∉ bytes)
    (there : entries m k kernelSlot ≠ 0) (sub : ∀ g ∈ blocks, g ∈ blocks') : Tasked K k blocks' m' t := by
  obtain ⟨pages, nodes, parts, P, root, built, table⟩ := tasked
  refine ⟨pages, nodes, fun g mem => ⟨sub g (parts g mem).1, (parts g mem).2⟩, P, root, built,
    table.keep writes ?_ there⟩
  intro g mem
  refine off g (parts g ?_).1 (isTable_of_mem mem)
  exact List.mem_cons_of_mem _ (List.mem_cons_of_mem _ (List.mem_append_left _ mem))

/-- The lower half of a task is the program and its stack, to a walk that admits their flags. -/
theorem Tasked.walk_lower {admits : Nat → Bool} (zero : admits 0 = false)
    (user : ∀ e, e % 4096 = userBits % 4096 → admits e = true) (tasked : Tasked K k blocks m t)
    (aligned : 4096 ∣ t.2.taskStackArea.physAddr) {v : Nat} (lower : v < 2 ^ 47) : walkThrough admits m t.2.root v =
      (userPage t.2.taskStackArea.physAddr v).map fun x => (x / 4096 * 4096, userBits) := by
  obtain ⟨pages, nodes, parts, P, root, built, table⟩ := tasked
  have all : ∀ c ∈ userCalls programTextAddr t.2.taskStackArea.physAddr, ∀ e, e % 4096 = c.flags % 4096 →
      admits e = true := fun c mem e same => user e (by rw [same, userCalls_flags mem])
  rw [TaskStruct.root, table.walk_lower zero all lower, firstWriter_userCalls aligned lower]

/-- To the program too: all entries on the way are there for it. -/
theorem Tasked.userTranslate_lower (tasked : Tasked K k blocks m t) (aligned : 4096 ∣ t.2.taskStackArea.physAddr) {v : Nat}
    (lower : v < 2 ^ 47) : userTranslate m t.2.root v = userPage t.2.taskStackArea.physAddr v := by
  have user : ∀ e, e % 4096 = userBits % 4096 → userPresent e = true := by
    intro e same
    rw [userPresent_iff, user_of_flags same]
    exact ⟨present_of_flags (by decide) same, by decide⟩
  rw [userTranslate, userWalk, tasked.walk_lower (by decide) user aligned lower, Option.map_map]
  cases page : userPage t.2.taskStackArea.physAddr v with
  | none => rfl
  | some x =>
    rw [Option.map_some, Function.comp_apply, ← (userPage_spec aligned page).1, Nat.div_add_mod']

end Tasks

section Steps

variable {w k : Nat} {reserved own : Set Nat} {K : Pool} {boot blocks : List Grant} {calls : List PageCall}
  {r r' : KernelRun} (inv : RunKept w reserved K k boot blocks calls r)

include inv

/-- The block of a task is told from a table by its size. -/
theorem RunKept.task_owned {t : Nat × TaskStruct} (there : t ∈ r.tasks) {x : Nat}
    (inside : x ∈ structBytes t ∨ x ∈ kernelStackBytes t ∨ x ∈ stackBytes t) : x ∉ K.Bytes ∧
      (∃ g ∈ blocks, g.owns x) ∧ ∀ g ∈ blocks, g.IsTable → ¬ g.owns x := by
  obtain ⟨pages, nodes, parts, -⟩ := inv.tasks t there
  obtain ⟨g, part, other, owns⟩ : ∃ g ∈ taskGrants (Kernel.linear t.1) pages nodes t.2.taskStackArea.physAddr
      t.2.kernelStackArea.physAddr, (∀ g' : Grant, g'.IsTable → g ≠ g') ∧ g.owns x := by
    rcases inside with struct | kernel | stack
    · exact ⟨⟨Kernel.linear t.1, sizeofTaskStruct⟩, by simp [taskGrants, tableGrants], fun g' table => table.ne_struct,
        Grant.owns_of_lt struct.1 struct.2⟩
    · exact ⟨⟨_, stackSize⟩, by simp [taskGrants], fun g' table => table.ne_stack, Grant.owns_of_lt kernel.1 kernel.2⟩
    · exact ⟨⟨_, stackSize⟩, by simp [taskGrants], fun g' table => table.ne_stack, Grant.owns_of_lt stack.1 stack.2⟩
  obtain ⟨mem, off⟩ := parts g part
  refine ⟨off x owns, ⟨g, mem, owns⟩, fun g' mem' table => ?_⟩
  exact inv.kept.held.disjoint_of_ne (List.mem_append_right _ (List.mem_append_left _ mem))
    (List.mem_append_right _ (List.mem_append_left _ mem')) (other g' table) owns

/-- What is held is owned by a block that is no table, and is none of the kernel's pool. -/
theorem RunKept.betweenCalls_owned {x : Nat} (mem : x ∈ betweenCalls reserved r) : x ∉ K.Bytes ∧
    (∃ g ∈ r.live ++ (blocks ++ boot), g.owns x) ∧ ∀ g ∈ blocks, g.IsTable → ¬ g.owns x := by
  have held := inv.kept.held
  have of_task : ∀ t ∈ r.tasks, x ∈ structBytes t ∨ x ∈ kernelStackBytes t ∨ x ∈ stackBytes t → x ∉ K.Bytes ∧
      (∃ g ∈ r.live ++ (blocks ++ boot), g.owns x) ∧ ∀ g ∈ blocks, g.IsTable → ¬ g.owns x := by
    intro t there inside
    obtain ⟨off, ⟨g, memg, owns⟩, tables⟩ := inv.task_owned there inside
    exact ⟨off, ⟨g, List.mem_append_right _ (List.mem_append_left _ memg), owns⟩, tables⟩
  rcases mem with (mine | ⟨g, memg, lower, upper⟩ | ⟨t, there, stack⟩) | ⟨t, there, stack⟩
  · obtain ⟨off, g, memg, owns⟩ := inv.owned x mine
    refine ⟨off, ⟨g, List.mem_append_right _ (List.mem_append_right _ memg), owns⟩, fun g' mem' _ owns' => ?_⟩
    rw [← List.append_assoc] at held
    exact held.disjoint (List.mem_append_right _ mem') memg owns' owns
  · have owns := Grant.owns_of_lt lower upper
    refine ⟨fun pool => ?_, ⟨g, List.mem_append_left _ memg, owns⟩, fun g' mem' _ => ?_⟩
    · obtain ⟨g', mem', owns'⟩ := inv.kept.housed x pool
      exact held.disjoint memg mem' owns owns'
    · exact held.disjoint memg (List.mem_append_left _ mem') owns
  · exact of_task t there (.inr (.inl stack))
  · exact of_task t there (.inr (.inr stack))

/-- What is reserved is neither in a block that is out nor a task's. -/
theorem RunKept.reserved_apart {x : Nat} (mine : x ∈ reserved) :
    x ∉ kernelHolds ∅ r ∧ ∀ t ∈ r.tasks, x ∉ stackBytes t := by
  have held := inv.kept.held
  obtain ⟨-, g, boot, owns⟩ := inv.owned x mine
  rw [← List.append_assoc] at held
  have of_task : ∀ t ∈ r.tasks, ¬ (x ∈ structBytes t ∨ x ∈ kernelStackBytes t ∨ x ∈ stackBytes t) := by
    intro t there inside
    obtain ⟨-, ⟨g', mem, owns'⟩, -⟩ := inv.task_owned there inside
    exact held.disjoint (List.mem_append_right _ mem) boot owns' owns
  refine ⟨?_, fun t there stack => of_task t there (.inr (.inr stack))⟩
  rintro (none | ⟨g', live, here⟩ | ⟨t, there, inside⟩)
  · exact none
  · exact held.disjoint (List.mem_append_left _ live) boot (Grant.owns_of_lt here.1 here.2) owns
  · exact of_task t there (inside.imp_right .inl)

/-- The stack of a task is a block of its own. -/
theorem RunKept.stack_block {t : Nat × TaskStruct} (there : t ∈ r.tasks) :
    (⟨t.2.taskStackArea.physAddr, stackSize⟩ : Grant) ∈ blocks := by
  obtain ⟨pages, nodes, parts, -⟩ := inv.tasks t there
  exact (parts _ (by simp [taskGrants])).1

/-- Stacks begin on pages of the managed memory. -/
theorem RunKept.stack_inside {t : Nat × TaskStruct} (there : t ∈ r.tasks) :
    4096 ∣ t.2.taskStackArea.physAddr ∧ ∀ x ∈ stackBytes t, x < r.state.alloc.contentMemReg.length := by
  obtain ⟨aligned, inside⟩ :=
    inv.kept.held.inside inv.kept.base (List.mem_append_right _ (List.mem_append_left _ (inv.stack_block there)))
  refine ⟨aligned, fun x here => ?_⟩
  have owns : (⟨t.2.taskStackArea.physAddr, stackSize⟩ : Grant).owns x := Grant.owns_of_lt here.1 here.2
  rw [inv.kept.sized.length]
  exact Nat.lt_of_lt_of_le owns.2 inside

/-- What a program reaches is a page of its own, at the address that is for it. -/
theorem RunKept.userTranslate_eq {t : Nat × TaskStruct} (there : t ∈ r.tasks) {v : Nat} (canonical : Canonical v) :
    userTranslate r.state.mem t.2.root v = userPage t.2.taskStackArea.physAddr v := by
  have aligned := (inv.stack_inside there).1
  rcases canonical with lower | ⟨lower, upper⟩
  · exact (inv.tasks t there).userTranslate_lower aligned lower
  · -- the kernel's half is out of reach
    obtain ⟨pages, nodes, parts, P, root, built, table⟩ := inv.tasks t there
    have nothing : userPage t.2.taskStackArea.physAddr v = none := by
      rw [userPage, if_neg (by omega), if_neg (by omega)]
    rw [nothing, userTranslate, Option.map_eq_none_iff, ← Option.not_isSome_iff_eq_none, Option.isSome_iff_exists]
    rintro ⟨⟨frame, flags⟩, found⟩
    rw [TaskStruct.root, table.table.physRoot] at found
    obtain ⟨walked, user⟩ := walk_of_userWalk found
    rw [← table.table.physRoot] at walked
    rcases table.walk_upper lower upper with none | same
    · cases none.symm.trans walked
    · rw [same, ← inv.kept.table.physRoot] at walked
      exact user (inv.kept.walk_linear inv.linear lower upper walked).2

theorem RunKept.userReach_sub {t : Nat × TaskStruct} (there : t ∈ r.tasks) :
    ∀ x ∈ userReach r.state.mem t.2.root, x ∈ programBytes ∨ x ∈ stackBytes t := by
  rintro x ⟨v, canonical, found⟩
  rw [inv.userTranslate_eq there canonical] at found
  exact (userPage_spec (inv.stack_inside there).1 found).2.2

theorem RunKept.userReach_between {t : Nat × TaskStruct} (there : t ∈ r.tasks) :
    ∀ x ∈ userReach r.state.mem t.2.root, x ∈ betweenCalls reserved r := fun x mem =>
  (inv.userReach_sub there x mem).elim (fun text => .inl (.inl (inv.program text))) fun stack => .inr ⟨t, there, stack⟩

theorem RunKept.contents_between {x : Nat} (mem : x ∈ contents r) : x ∈ betweenCalls reserved r := by
  rcases mem with text | block | stack
  · exact .inl (.inl (inv.program text))
  · exact .inl (.inr (.inl block))
  · exact .inr stack

/-- What stays when something is written to that lies off the tables. -/
theorem RunKept.keeps {bytes : Set Nat} {blocks' : List Grant} {m : Mem} (writes : Writes K k bytes r.state.mem m)
    (off : ∀ g ∈ blocks, g.IsTable → ∀ x, g.owns x → x ∉ bytes) (sub : ∀ g ∈ blocks, g ∈ blocks') :
    entries m k kernelSlot ≠ 0 ∧ ∀ t ∈ r.tasks, Tasked K k blocks' m t := by
  refine ⟨?_, fun t there => (inv.tasks t there).keep writes off inv.rooted sub⟩
  rw [writes.root _ inv.rooted]
  exact inv.rooted

/-- Writing to what is held. -/
theorem RunKept.write {bytes : Set Nat} {m : Mem} (same : r.state.mem.SameOff bytes m)
    (inside : ∀ x ∈ bytes, x ∈ betweenCalls reserved r) :
    RunKept w reserved K k boot blocks calls { r with state := { r.state with mem := m } } ∧
      (Stocked K k r.state → Stocked K k { r.state with mem := m }) := by
  obtain ⟨kept, writes, stocks⟩ := inv.kept.write same fun x pool mem => (inv.betweenCalls_owned (inside x mem)).1 pool
  obtain ⟨rooted, tasks⟩ := inv.keeps writes
    (fun g mem table x owns there => (inv.betweenCalls_owned (inside x there)).2.2 g mem table owns) fun _ mem => mem
  exact ⟨{ inv with kept := kept, rooted := rooted, tasks := tasks }, stocks⟩

omit inv in
theorem Ample.mono {fixed fixed' : List Grant} {s : KernelMem} (ample : Ample K k fixed s)
    (sub : ∀ g ∈ fixed, g ∈ fixed') : Ample K k fixed' s :=
  ⟨ample.stocked, ample.last.imp fun g found => ⟨sub g found.1, found.2⟩⟩

/-- The invariant holds of the second state too, with the same allocator, and a pool that was stocked is. -/
def Continues (w : Nat) (reserved : Set Nat) (K : Pool) (k : Nat) (boot blocks : List Grant) (r r' : KernelRun) : Prop :=
  r'.state.alloc = r.state.alloc ∧ ∃ blocks' calls', RunKept w reserved K k boot blocks' calls' r' ∧
    (Ample K k (blocks ++ boot) r.state → Ample K k (blocks' ++ boot) r'.state)

omit inv in
theorem tables_owned : ∀ g ∈ blocks, g.IsTable → ∀ x, g.owns x → x ∉ unowned (r.live ++ (blocks ++ boot)) :=
  fun g mem _ _ owns free => free g (List.mem_append_right _ (List.mem_append_left _ mem)) owns

/-- Calls write to what no block owns, and to the kernel's pool. -/
theorem RunKept.still {m : Mem} (writes : Writes K k (unowned (r.live ++ (blocks ++ boot))) r.state.mem m) :
    ∀ x ∈ betweenCalls reserved r, m x = r.state.mem x := by
  intro x mem
  obtain ⟨off, ⟨g, out, owns⟩, -⟩ := inv.betweenCalls_owned mem
  exact writes.same x fun there => there.elim off fun free => free g out owns

theorem RunKept.malloc {fuel bytes flags ptr : Nat} {s : KernelMem}
    (run : kmalloc w fuel r.state bytes flags = .ok (ptr, s)) :
    Continues w reserved K k boot blocks r { r with state := s, live := ⟨Kernel.linear ptr, bytes⟩ :: r.live } ∧
      ∀ x ∈ betweenCalls reserved r, s.mem x = r.state.mem x := by
  obtain ⟨-, new, build, -⟩ := ((Building.begin inv.kept).kmalloc fuel bytes flags (k := 12) (n := 0)).post _ run
  obtain ⟨rooted, tasks⟩ := inv.keeps build.writes tables_owned fun _ mem => mem
  have linear : ∀ c ∈ calls ++ new, LinearCall c := List.forall_mem_append.mpr ⟨inv.linear, build.linear⟩
  exact ⟨⟨build.alloc, blocks, calls ++ new,
    { inv with kept := build.kept, linear := linear, rooted := rooted, tasks := tasks }, build.ample⟩,
    inv.still build.writes⟩

/-- The identifiers that are taken when a task gets one that was not. -/
theorem RunKept.taken_cons {t : Nat × TaskStruct} (pos : 1 ≤ t.2.pid) (lt : t.2.pid < pidMax) : ∀ t' ∈ t :: r.tasks,
    1 ≤ t'.2.pid ∧ t'.2.pid < pidMax ∧ Function.update r.pidMap t.2.pid true t'.2.pid = true := by
  refine List.forall_mem_cons.mpr ⟨⟨pos, lt, Function.update_self ..⟩, fun t' there => ?_⟩
  obtain ⟨pos', lt', taken⟩ := inv.taken t' there
  refine ⟨pos', lt', ?_⟩
  by_cases same : t'.2.pid = t.2.pid
  · rw [same]
    exact Function.update_self ..
  · exact (Function.update_of_ne same ..).trans taken

theorem RunKept.only_cons {t : Nat × TaskStruct} {pid : Nat} (set : Function.update r.pidMap t.2.pid true pid = true) :
    ∃ t' ∈ t :: r.tasks, t'.2.pid = pid := by
  by_cases same : pid = t.2.pid
  · exact ⟨t, List.mem_cons_self .., same.symm⟩
  · obtain ⟨t', there, found⟩ := inv.only pid ((Function.update_of_ne same ..).symm.trans set)
    exact ⟨t', List.mem_cons_of_mem _ there, found⟩

/-- The blocks of a new task are none of another's. -/
theorem RunKept.new_disjoint {t : Nat × TaskStruct} {s : KernelMem} {pages nodes : Nat} {new : List PageCall}
    (build : Building w K k (blocks ++ boot) r.live calls r.state s (taskGrants (Kernel.linear t.1) pages nodes
      t.2.taskStackArea.physAddr t.2.kernelStackArea.physAddr) new) :
    ∀ t' ∈ r.tasks, (taskPtrs t).Disjoint (taskPtrs t') := by
  intro t' there p here old
  obtain ⟨g, mem, rfl⟩ := ptr_of_taskPtrs pages nodes here
  obtain ⟨pages', nodes', parts, -⟩ := inv.tasks t' there
  obtain ⟨g', mem', same⟩ := ptr_of_taskPtrs pages' nodes' old
  -- the first byte of the one would be owned by the other
  refine (build.own mem g.owns_ptr).1 g' (List.mem_append_right _ (List.mem_append_left _ (parts g' mem').1)) ?_
  rw [← same]
  exact g'.owns_ptr

theorem RunKept.create {fuel ptr : Nat} {task : TaskStruct} {s : KernelMem} {pidMap : Nat → Bool}
    (run : createProcess w fuel r.state r.pidMap programTextAddr = .ok (ptr, task, s, pidMap)) :
    Continues w reserved K k boot blocks r { r with state := s, tasks := (ptr, task) :: r.tasks, pidMap := pidMap } ∧
      ∀ x ∈ betweenCalls reserved r, s.mem x = r.state.mem x := by
  obtain ⟨⟨⟨pos, lt, free⟩, rfl⟩, pages, nodes, new, build, table⟩ :=
    (inv.kept.createProcess r.pidMap (by decide)).post _ run
  have more : ∀ g ∈ blocks, g ∈ taskGrants (Kernel.linear ptr) pages nodes task.taskStackArea.physAddr
      task.kernelStackArea.physAddr ++ blocks := fun g mem => List.mem_append_right _ mem
  obtain ⟨rooted, tasks⟩ := inv.keeps build.writes tables_owned more
  have nodup : (taskPtrs (ptr, task)).Nodup := by
    have ptrs := build.kept.held.ptr_nodup
    rw [List.map_append, List.map_append] at ptrs
    refine (List.Nodup.of_append_left (List.Nodup.of_append_left ptrs)).sublist ?_
    simp [taskPtrs, taskGrants, tableGrants]
  have kept := build.kept.fix
  rw [← List.append_assoc] at kept
  refine ⟨⟨build.alloc, _, calls ++ new, { inv with
      kept := kept
      linear := List.forall_mem_append.mpr ⟨inv.linear, build.linear⟩
      rooted := rooted
      tasks := List.forall_mem_cons.mpr ⟨⟨pages, nodes, fun g mem => ?_, table⟩, tasks⟩
      nodup := List.forall_mem_cons.mpr ⟨nodup, inv.nodup⟩
      apart := List.pairwise_cons.mpr ⟨inv.new_disjoint build, inv.apart⟩
      pids := List.pairwise_cons.mpr ⟨fun t there same => ?_, inv.pids⟩
      taken := inv.taken_cons pos lt
      only := fun pid set => inv.only_cons set }, fun ample => ?_⟩, inv.still build.writes⟩
  · exact ⟨List.mem_append_left _ mem, fun x owns => (build.own mem owns).2⟩
  · have := (inv.taken t there).2.2
    rw [← same, free] at this
    cases this
  · refine (build.ample ample).mono fun g mem => ?_
    rw [List.append_assoc]
    exact List.mem_append_right _ mem

/-- What a call leaves. -/
theorem RunKept.call (call : KernelCall w r r') : Continues w reserved K k boot blocks r r' ∧
    ∀ x ∈ betweenCalls reserved r, r'.state.mem x = r.state.mem x := by
  cases call with
  | malloc run => exact inv.malloc run
  | free ours run =>
    obtain ⟨kept, h, rfl⟩ := inv.kept.kfree ours run
    exact ⟨⟨rfl, blocks, calls, { inv with kept := kept }, fun ample => ⟨ample.stocked, ample.last⟩⟩, fun _ _ => rfl⟩
  | create run => exact inv.create run

omit inv in
theorem betweenCalls_mono (mine : own ⊆ reserved) : betweenCalls own r ⊆ betweenCalls reserved r := by
  rintro x ((here | other) | stack)
  · exact .inl (.inl (mine here))
  · exact .inl (.inr other)
  · exact .inr stack

/-- Every step keeps the invariant. -/
theorem RunKept.step (mine : own ⊆ reserved) (step : KernelStep w own r r') :
    Continues w reserved K k boot blocks r r' := by
  cases step with
  | call call => exact (inv.call call).1
  | kernel same =>
    obtain ⟨after, stocks⟩ := inv.write same fun x mem => betweenCalls_mono mine (.inl mem)
    exact ⟨rfl, blocks, calls, after, fun ample => ⟨stocks ample.stocked, ample.last⟩⟩
  | program there same =>
    obtain ⟨after, stocks⟩ := inv.write same (inv.userReach_between there)
    exact ⟨rfl, blocks, calls, after, fun ample => ⟨stocks ample.stocked, ample.last⟩⟩

/-- No step writes, through memory, to what is reserved and kept apart from memory. -/
theorem RunKept.step_apart (text : programBytes ⊆ own) (step : KernelStep w own r r') {x : Nat} (mem : x ∈ reserved)
    (other : x ∉ own) : r'.state.mem x = r.state.mem x := by
  obtain ⟨apart, off⟩ := inv.reserved_apart mem
  cases step with
  | call call => exact (inv.call call).2 x (.inl (.inl mem))
  | kernel same =>
    refine same x ?_
    rintro (mine | block | ⟨t, there, stack⟩)
    · exact other mine
    · exact apart (.inr (.inl block))
    · exact apart (.inr (.inr ⟨t, there, .inr stack⟩))
  | program there same =>
    refine same x fun reached => ?_
    rcases inv.userReach_sub there x reached with program | stack
    · exact other (text program)
    · exact off _ there stack

/-- A whole run. -/
theorem RunKept.run (mine : own ⊆ reserved) (run : Relation.ReflTransGen (KernelStep w own) r r') :
    Continues w reserved K k boot blocks r r' := by
  refine run_invariant (P := Continues w reserved K k boot blocks r) run ⟨rfl, blocks, calls, inv, id⟩ ?_
  rintro a b ⟨same₁, blocks₁, calls₁, inv₁, ample₁⟩ step
  obtain ⟨same₂, blocks₂, calls₂, inv₂, ample₂⟩ := inv₁.step mine step
  exact ⟨same₂.trans same₁, blocks₂, calls₂, inv₂, ample₂ ∘ ample₁⟩

/-- An identifier names one task. -/
theorem RunKept.eq_of_pid {t t' : Nat × TaskStruct} (there : t ∈ r.tasks) (there' : t' ∈ r.tasks)
    (same : t.2.pid = t'.2.pid) : t = t' := by
  have : Std.Symm fun t t' : Nat × TaskStruct => t.2.pid ≠ t'.2.pid := ⟨fun _ _ differ => differ.symm⟩
  by_contra other
  exact inv.pids.forall there there' other same

/-- Tasks with different identifiers have no block in common. -/
theorem RunKept.ptrs_disjoint {t t' : Nat × TaskStruct} (there : t ∈ r.tasks) (there' : t' ∈ r.tasks)
    (pid : t'.2.pid ≠ t.2.pid) : (taskPtrs t).Disjoint (taskPtrs t') := by
  have : Std.Symm fun t t' => (taskPtrs t).Disjoint (taskPtrs t') := ⟨fun _ _ disjoint => disjoint.symm⟩
  exact inv.apart.forall there there' fun same => pid (congrArg (fun t => t.2.pid) same).symm

/-- The stack of a program is neither a kernel stack nor a structure, of its own task or of another. -/
theorem RunKept.stack_ne {t t' : Nat × TaskStruct} (there : t ∈ r.tasks) (there' : t' ∈ r.tasks) :
    t.2.taskStackArea.physAddr ≠ t'.2.kernelStackArea.physAddr ∧ t.2.taskStackArea.physAddr ≠ Kernel.linear t'.1 := by
  by_cases pid : t'.2.pid = t.2.pid
  · obtain rfl := inv.eq_of_pid there there' pid.symm
    have nodup := inv.nodup t there
    simp only [taskPtrs, List.nodup_cons, List.mem_cons, List.not_mem_nil, or_false, not_or] at nodup
    exact ⟨Ne.symm nodup.1.1, nodup.2.1⟩
  · have disjoint := inv.ptrs_disjoint there there' pid
    have mine : t.2.taskStackArea.physAddr ∈ taskPtrs t := by simp [taskPtrs]
    exact ⟨fun same => disjoint mine (by simp [taskPtrs, same]), fun same => disjoint mine (by simp [taskPtrs, same])⟩

/-- The stack of a program and a task's block at another address have no byte in common. -/
theorem RunKept.stack_off_block {t t' : Nat × TaskStruct} (there : t ∈ r.tasks) (there' : t' ∈ r.tasks) {p bytes x : Nat}
    (part : ∀ pages nodes, (⟨p, bytes⟩ : Grant) ∈ taskGrants (Kernel.linear t'.1) pages nodes
      t'.2.taskStackArea.physAddr t'.2.kernelStackArea.physAddr) (other : t.2.taskStackArea.physAddr ≠ p)
    (here : x ∈ stackBytes t) : ¬ (p ≤ x ∧ x < p + bytes) := by
  rintro ⟨lower, upper⟩
  obtain ⟨pages', nodes', parts', -⟩ := inv.tasks t' there'
  refine inv.kept.held.disjoint_of_ne (List.mem_append_right _ (List.mem_append_left _ (inv.stack_block there)))
    (List.mem_append_right _ (List.mem_append_left _ (parts' _ (part pages' nodes')).1)) (fun same => ?_)
    (Grant.owns_of_lt here.1 here.2) (Grant.owns_of_lt lower upper)
  exact other (congrArg Grant.ptr same)

/-- The stack of a program is nobody else's. -/
theorem RunKept.stack_apart {t : Nat × TaskStruct} (there : t ∈ r.tasks) {x : Nat} (here : x ∈ stackBytes t) :
    x ∉ kernelHolds reserved r ∧ ∀ t' ∈ r.tasks, t'.2.pid ≠ t.2.pid → x ∉ stackBytes t' := by
  refine ⟨?_, fun t' there' pid => inv.stack_off_block there there' (fun _ _ => by simp [taskGrants]) (fun same => ?_) here⟩
  · rintro (start | ⟨g, live, inside⟩ | ⟨t', there', struct | kernel⟩)
    · exact (inv.reserved_apart start).2 t there here
    · exact inv.kept.held.disjoint live (List.mem_append_left _ (inv.stack_block there))
        (Grant.owns_of_lt inside.1 inside.2) (Grant.owns_of_lt here.1 here.2)
    · exact inv.stack_off_block there there' (fun _ _ => by simp [taskGrants]) (inv.stack_ne there there').2 here struct
    · exact inv.stack_off_block there there' (fun _ _ => by simp [taskGrants]) (inv.stack_ne there there').1 here kernel
  · have mine : t.2.taskStackArea.physAddr ∈ taskPtrs t := by simp [taskPtrs]
    exact inv.ptrs_disjoint there there' pid mine (by simp [taskPtrs, same])

/-- What a program reaches is none of the kernel's and of the tasks' page tables. -/
theorem RunKept.reach_off_tables {t : Nat × TaskStruct} (there : t ∈ r.tasks) {x : Nat}
    (mem : x ∈ userReach r.state.mem t.2.root) : x ∉ K.Bytes ∧ ∀ g ∈ blocks, g.IsTable → ¬ g.owns x := by
  obtain ⟨off, -, tables⟩ := inv.betweenCalls_owned (inv.userReach_between there x mem)
  exact ⟨off, tables⟩

/-- Of what the kernel holds, a program reaches the program only. -/
theorem RunKept.reach_apart {t : Nat × TaskStruct} (there : t ∈ r.tasks) {x : Nat}
    (mem : x ∈ userReach r.state.mem t.2.root) : x ∉ kernelHolds (reserved \ programBytes) r := by
  rcases inv.userReach_sub there x mem with text | stack
  · rintro (start | other)
    · exact start.2 text
    · exact (inv.reserved_apart (inv.program text)).1 (.inr other)
  · rintro (start | other)
    · exact (inv.stack_apart there stack).1 (.inl start.1)
    · exact (inv.stack_apart there stack).1 (.inr other)

/-- With fewer than 1023 tasks an identifier is free. -/
theorem RunKept.free_pid (few : r.tasks.length < pidMax - 1) :
    ∃ pid, 1 ≤ pid ∧ pid < pidMax ∧ r.pidMap pid = false := by
  by_contra none
  have all : Finset.Ico 1 pidMax ⊆ (r.tasks.map fun t => t.2.pid).toFinset := by
    intro pid mem
    obtain ⟨pos, lt⟩ := Finset.mem_Ico.mp mem
    obtain ⟨t, there, rfl⟩ := inv.only pid (by
      by_contra free
      exact none ⟨pid, pos, lt, by simpa using free⟩)
    exact List.mem_toFinset.mpr (List.mem_map_of_mem there)
  have many := (Finset.card_le_card all).trans (List.toFinset_card_le _)
  rw [Nat.card_Ico, List.length_map] at many
  omega

end Steps

/-! ## The results -/

section Results

variable {shiftBits fuel : Nat} {rands : Nat → Nat → Nat} {image : KernelImage} {before : Header} {mem : Mem}
  {memBlocks : MemMapBlock} {s : KernelMem} {map : PhysMap} {r : KernelRun}

theorem kernelBytes_sub : kernelBytes image s map ⊆ reservedBytes s map := fun _ mem => mem.1

theorem Boots.run_kept (boots : Boots shiftBits fuel rands image before mem memBlocks s map)
    (run : Relation.ReflTransGen (KernelStep shiftBits (kernelBytes image s map)) (.start s) r) :
    r.state.alloc = s.alloc ∧ ∃ K k boot blocks calls, RunKept shiftBits (reservedBytes s map) K k boot blocks calls r ∧
      (BootSupplied image s map → Ample K k (blocks ++ boot) r.state) := by
  obtain ⟨K, k, boot, calls, kept, linears, rooted, reserved, ample⟩ := boots.kept
  have start : RunKept shiftBits (reservedBytes s map) K k boot [] calls (.start s) :=
    { kept := kept
      linear := linears
      rooted := rooted
      owned := fun x mem => ⟨(reserved x mem).2.1, (reserved x mem).1⟩
      program := fun x mem => (boots.program mem).1
      tasks := fun _ none => absurd none List.not_mem_nil
      nodup := fun _ none => absurd none List.not_mem_nil
      apart := .nil
      pids := .nil
      taken := fun _ none => absurd none List.not_mem_nil
      only := fun _ set => nomatch set }
  obtain ⟨same, blocks, calls', inv, keeps⟩ := start.run kernelBytes_sub run
  exact ⟨same, K, k, boot, blocks, calls', inv, fun given => keeps (ample given)⟩

/-- The machine with 2 GiB boots and creates a task, and has room for more. -/
theorem twoGib_task : ∃ s map r, Boots 36 (2 ^ 31) (fun _ _ => 0) twoGibImage ⟨fun _ => .zero⟩ ⟨fun _ => 0⟩ twoGib s map ∧
    BootSupplied twoGibImage s map ∧ KernelCall 36 (.start s) r ∧ r.tasks.length = 1 ∧
    r.state.alloc.contentMemReg.length = 2 ^ 31 ∧ ∃ S : Finset Nat, 5 ≤ S.card ∧
      ∀ i ∈ S, FreeBlock r.state.alloc r.state.header 15 i := by
  obtain ⟨s, map, boots, supplied, alloc, room⟩ := twoGib_boots ⟨fun _ => .zero⟩ ⟨fun _ => 0⟩
  obtain ⟨-, K, k, boot, blocks, calls, inv, ample⟩ := boots.run_kept .refl
  have kept : KernelKept 36 K k (blocks ++ boot) s [] calls := inv.kept
  have order : s.alloc.maxPowOrder = 31 := by rw [alloc]
  have many : Room s.alloc s.header 15 70 := room.finer (by decide) (by rw [order]; decide)
  have create : Delivers (CreateGiven (2 ^ 31) K k (blocks ++ boot) s fun _ => false) _ _ :=
    kept.createProcess (fun _ => false) (show programTextAddr + 0x8000 < 2 ^ 40 by decide)
  obtain ⟨⟨ptr, task, s', pidMap'⟩, run⟩ := create.returns ⟨ample supplied, by rw [order], by rw [order]; decide,
    many.mono (by decide), 1, by decide, by decide, rfl⟩
  obtain ⟨-, pages, nodes, new, build, -⟩ := create.post _ run
  have after := build.kept
  refine ⟨s, map, _, boots, supplied, .create run, rfl, ?_, ?_⟩
  · show s'.alloc.contentMemReg.length = 2 ^ 31
    rw [build.alloc, alloc]
    rfl
  · have small : Capped 15 (taskGrants (linear ptr) pages nodes task.taskStackArea.physAddr
        task.kernelStackArea.physAddr) := by
      simp only [Capped, taskGrants, tableGrants, List.cons_append, List.nil_append, List.forall_mem_cons]
      exact ⟨by decide, by decide, by decide, by decide, by decide, fun _ none => absurd none List.not_mem_nil⟩
    have left := build.room 15 5 (by decide) small (many.mono (show 5 + 5 ≤ 70 by decide))
    refine left.free after.sized after.base after.slots ?_
    rw [build.alloc, order]
    decide

/-- What the kernel's page table maps in the upper half is the linear map, and programs may not use it; and when
`kmalloc` returns a block that is not a raw one, every page that meets the bytes asked for is mapped. -/
def MapsLinearly (shiftBits : Nat) (r : KernelRun) : Prop :=
  (∀ v frame flags, 0xffff800000000000 ≤ v → v < 2 ^ 64 →
    walk r.state.mem r.state.pgtable.physRoot v = some (frame, flags) →
      frame + v % 4096 = v - 0xffff800000000000 ∧ flags &&& pageUserSupervisorBit = 0) ∧
  ∀ fuel bytes flags ptr s, kmalloc shiftBits fuel r.state bytes flags = .ok (ptr, s) → flags &&& kmemRawAlloc = 0 →
    ∀ page, 4096 ∣ page → linear ptr < page + 4096 → page < linear ptr + bytes →
      walk s.mem s.pgtable.physRoot (0xffff800000000000 + page) ≠ none

/-- Every task translates the first 512 GiB of the linear map as the kernel does, and no step changes the lower
half of a task. -/
def SharesKernelHalf (shiftBits : Nat) (own : Set Nat) (r : KernelRun) : Prop :=
  (∀ t ∈ r.tasks, ∀ v, 0xffff800000000000 ≤ v → v < 0xffff800000000000 + 2 ^ 39 →
    walk r.state.mem t.2.root v = walk r.state.mem r.state.pgtable.physRoot v) ∧
  ∀ r', KernelStep shiftBits own r r' → ∀ t ∈ r.tasks, ∀ v < 2 ^ 47,
    walk r'.state.mem t.2.root v = walk r.state.mem t.2.root v

/-- A program reaches the bytes of its stack and of the program, at the addresses it was linked for, and nothing
else: no page table, its own and its frame database included, nothing that the kernel holds apart from the program,
and nothing of another task's stack. -/
structure Confined (start : Set Nat) (r : KernelRun) : Prop where
  exactly : ∀ t ∈ r.tasks, ∀ v, Canonical v →
    userTranslate r.state.mem t.2.root v = userPage t.2.taskStackArea.physAddr v
  kernel : ∀ t ∈ r.tasks, ∀ x ∈ userReach r.state.mem t.2.root, x ∉ kernelHolds (start \ programBytes) r
  tables : ∃ K k calls, Refines K r.state.mem r.state.pgtable k calls ∧
    (∀ t ∈ r.tasks, ∀ x ∈ userReach r.state.mem t.2.root, x ∉ K.Bytes) ∧
    ∀ t' ∈ r.tasks, ∃ blocks P root built, TaskTable K k blocks r.state.mem t'.2.vmArea.pgtable
        (userCalls programTextAddr t'.2.taskStackArea.physAddr) P root built ∧
      ∀ t ∈ r.tasks, ∀ x ∈ userReach r.state.mem t.2.root, x ∉ P.Bytes
  others : ∀ t ∈ r.tasks, ∀ t' ∈ r.tasks, t'.2.pid ≠ t.2.pid →
    ∀ x ∈ userReach r.state.mem t.2.root, x ∈ userReach r.state.mem t'.2.root → x ∈ programBytes
  pids : r.tasks.Pairwise fun t t' => t.2.pid ≠ t'.2.pid

/-- The contents are as before, and the tasks that were there are. -/
def KeepsContents (r r' : KernelRun) : Prop :=
  (∀ x ∈ contents r, r'.state.mem x = r.state.mem x) ∧ ∀ t ∈ r.tasks, t ∈ r'.tasks

end Results

end AlmeidaOS.Kernel
