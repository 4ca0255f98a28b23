import AlmeidaOS.Kernel.Task.Process

/-!
# `kernel/task/scheduler.c`: the run queue

The run queue is a linked list of nodes, each pointing to a task. `schedule` picks the task of the
first node, moves that node to the end of the list and switches to the task. Nodes and tasks are
kept by their addresses; the address `kmalloc` returns for a new node is an argument. The walk to the
end of the list runs on fuel.
-/

namespace AlmeidaOS.Kernel

/-- `struct task_list_t`. -/
structure TaskList where
  val : Nat
  next : Nat
deriving DecidableEq, Repr

/-- `sched_run_queue_t`. -/
structure SchedRunQueue where
  curr : Nat
  tasks : Nat
  needResched : Bool
deriving DecidableEq, Repr

/-- The scheduler's variables, the nodes and tasks they lead to, and what the processor has loaded. -/
structure Scheduler where
  initialised : Bool
  runQueue : SchedRunQueue
  nodes : Nat → TaskList
  tasks : Nat → TaskStruct
  cpu : Cpu

/-- `node->next = next`. -/
def Scheduler.setNext (s : Scheduler) (node next : Nat) : Scheduler :=
  { s with nodes := Function.update s.nodes node { s.nodes node with next := next } }

/-- `scheduler_init`, with its new node at `head`. -/
def schedulerInit (s : Scheduler) (head initProc : Nat) : Outcome Scheduler := do
  bugOn (s.runQueue.tasks ≠ 0)
  pure { s with
    nodes := Function.update s.nodes head ⟨initProc, 0⟩
    runQueue := { s.runQueue with tasks := head }
    initialised := true }

/-- `scheduler_tick`. -/
def schedulerTick (s : Scheduler) (jiffies : Nat) : Scheduler :=
  if s.initialised && (s.runQueue.curr = 0 || jiffies % 10 = 0) then
    { s with runQueue := { s.runQueue with needResched := true } }
  else s

/-- The loop of `move_end_of_list`. -/
def findTail (nodes : Nat → TaskList) : Nat → Nat → Outcome Nat
  | 0, _ => .error .outOfFuel
  | fuel + 1, tmp =>
    if tmp = 0 then .ok tmp
    else if (nodes tmp).next = 0 then .ok tmp
    else findTail nodes fuel (nodes tmp).next

/-- `move_end_of_list`. -/
def moveEndOfList (fuel : Nat) (s : Scheduler) (element : Nat) : Outcome Scheduler := do
  let head := s.runQueue.tasks
  let tail ← (if (s.nodes head).next = 0 then pure head else findTail s.nodes fuel head)
  pure ((s.setNext tail element).setNext element 0)

/-- `scheduler_add`, with its new node at `node`. -/
def schedulerAdd (fuel : Nat) (s : Scheduler) (node task : Nat) : Outcome Scheduler :=
  moveEndOfList fuel { s with nodes := Function.update s.nodes node ⟨task, 0⟩ } node

/-- `schedule`. -/
def schedule (fuel : Nat) (s : Scheduler) (intFrame : InterruptStackFrame) :
    Outcome (Scheduler × InterruptStackFrame) := do
  bugOn (s.initialised = false)
  let head := s.runQueue.tasks
  -- nothing else to run
  if head = 0 ∨ (s.runQueue.curr ≠ 0 ∧ (s.nodes head).next = 0) then pure (s, intFrame)
  else do
    let curr := s.runQueue.curr
    let next := (s.nodes head).val
    let s ← (if (s.nodes head).next ≠ 0 then
        moveEndOfList fuel { s with runQueue := { s.runQueue with tasks := (s.nodes head).next } } head
      else pure s)
    let (tasks, intFrame, cpu) := processContextSwtich s.tasks intFrame curr next
    pure ({ s with
      runQueue := { s.runQueue with curr := next, needResched := false }
      tasks := tasks
      cpu := cpu }, intFrame)

/-- `sys_getpid`. -/
def sysGetpid (s : Scheduler) : Nat := (s.tasks s.runQueue.curr).pid

end AlmeidaOS.Kernel
