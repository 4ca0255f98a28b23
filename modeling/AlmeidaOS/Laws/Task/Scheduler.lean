import AlmeidaOS.Base.Chain
import AlmeidaOS.Kernel.Task.Scheduler

/-!
# Switching tasks

The run queue of every reachable state is a finite list of nodes, and `schedule` takes its first node
to the end (`schedule_spec`). So it returns, and the only task whose registers it changes is the one
it switches out.

A history of the switches made says when each task was last switched out. In every reachable state
the registers saved for a task that is not running are those it had in the frame at that moment, or
those `create_process` gave it.
-/

namespace AlmeidaOS.Kernel

/-! ## The list of nodes -/

/-- The successor of a node. -/
def Scheduler.next (s : Scheduler) (node : Nat) : Nat := (s.nodes node).next

/-- The run queue visits the nodes given. -/
def Scheduler.Queue (s : Scheduler) (qs : List Nat) : Prop := Chain s.next 0 s.runQueue.tasks qs

/-- The walk to the end of the list ends at its last node. -/
theorem findTail_returns {nodes : Nat → TaskList} {p a : Nat} {as : List Nat}
    (chain : Chain (fun q => (nodes q).next) 0 p (as ++ [a])) :
    Returns (fun fuel => findTail nodes fuel p) (as.length + 1) a := by
  induction as generalizing p with
  | nil =>
    obtain ⟨rfl, valid, last⟩ := chain
    have last : (nodes p).next = 0 := last
    refine .succ _ rfl (fun fuel => ?_) (.ok 0 p)
    rw [findTail, if_neg valid, if_pos last]
  | cons x as ih =>
    obtain ⟨rfl, valid, rest⟩ := chain
    have more : (nodes p).next ≠ 0 := fun null =>
      List.append_ne_nil_of_right_ne_nil _ (List.cons_ne_nil _ _) (rest.head_eq_null.mp null)
    refine .succ _ rfl (fun fuel => ?_) (ih rest)
    rw [findTail, if_neg valid, if_neg more]

/-- Two states differ in the links of their nodes only. -/
def Relinked (s s' : Scheduler) : Prop :=
  ∃ nodes, s' = { s with nodes := nodes } ∧ ∀ q, (nodes q).val = (s.nodes q).val

theorem setNext_next (s : Scheduler) (node next q : Nat) :
    (s.setNext node next).next q = if q = node then next else s.next q := by
  by_cases here : q = node
  · simp only [here, if_true, Scheduler.next, Scheduler.setNext, Function.update_self]
  · simp only [here, if_false, Scheduler.next, Scheduler.setNext, Function.update_of_ne here]

theorem relinked_setNext (s : Scheduler) (node next : Nat) : Relinked s (s.setNext node next) := by
  refine ⟨_, rfl, fun q => ?_⟩
  by_cases here : q = node
  · rw [here, Function.update_self]
  · rw [Function.update_of_ne here]

theorem Relinked.trans {s s' s'' : Scheduler} (first : Relinked s s') (second : Relinked s' s'') :
    Relinked s s'' := by
  obtain ⟨nodes, rfl, vals⟩ := first
  obtain ⟨nodes', rfl, vals'⟩ := second
  exact ⟨nodes', rfl, fun q => (vals' q).trans (vals q)⟩

/-- `move_end_of_list` puts the node behind the list. -/
theorem moveEndOfList_returns {s : Scheduler} {as : List Nat} {a element : Nat} (queue : s.Queue (as ++ [a]))
    (valid : element ≠ 0) (apart : element ∉ as ++ [a]) :
    ∃ s', Returns (fun fuel => moveEndOfList fuel s element) (as.length + 1) s' ∧ Relinked s s' ∧
      s'.Queue (as ++ [a, element]) := by
  have tail : Returns (fun fuel => if (s.nodes s.runQueue.tasks).next = 0 then pure s.runQueue.tasks
      else findTail s.nodes fuel s.runQueue.tasks) (as.length + 1) a := by
    by_cases single : (s.nodes s.runQueue.tasks).next = 0
    · simp only [if_pos single]
      -- the first node is the last
      cases as with
      | nil =>
        obtain ⟨here, -⟩ := queue
        rw [here]
        exact .ok _ a
      | cons x as =>
        obtain ⟨rfl, -, rest⟩ := queue
        exact absurd (rest.head_eq_null.mp single)
          (List.append_ne_nil_of_right_ne_nil _ (List.cons_ne_nil _ _))
    · simp only [if_neg single]
      exact findTail_returns queue
  refine ⟨_, tail.bind (g := fun _ tail => .ok ((s.setNext tail element).setNext element 0)) (.ok _ _),
    (relinked_setNext s a element).trans (relinked_setNext _ element 0), ?_⟩
  have distinct := queue.nodup
  refine Chain.snoc queue valid ?_ ?_ fun x mem => ?_
  · rw [setNext_next, if_neg, setNext_next, if_pos rfl]
    rintro rfl
    exact apart (List.mem_append_right _ (List.mem_singleton_self a))
  · rw [setNext_next, if_pos rfl]
  · rw [setNext_next, if_neg, setNext_next, if_neg]
    · rintro rfl
      exact (List.nodup_append.mp distinct).2.2 x mem x (List.mem_singleton_self x) rfl
    · rintro rfl
      exact apart (List.mem_append_left _ mem)

/-- What a call of `scheduler_add` changes: the new node holds the task and is behind the list. -/
structure Added (s : Scheduler) (node task : Nat) (s' : Scheduler) : Prop where
  relinked : Relinked { s with nodes := Function.update s.nodes node ⟨task, 0⟩ } s'
  val : (s'.nodes node).val = task
  vals : ∀ q, q ≠ node → (s'.nodes q).val = (s.nodes q).val

/-- `scheduler_add` on a list that has a node. -/
theorem schedulerAdd_returns {s : Scheduler} {qs : List Nat} {node : Nat} (task : Nat) (queue : s.Queue qs)
    (nonempty : qs ≠ []) (valid : node ≠ 0) (apart : node ∉ qs) :
    ∃ s', Returns (fun fuel => schedulerAdd fuel s node task) qs.length s' ∧ Added s node task s' ∧
      s'.Queue (qs ++ [node]) := by
  rcases List.eq_nil_or_concat qs with rfl | ⟨as, a, snoc⟩
  · exact absurd rfl nonempty
  · obtain rfl : qs = as ++ [a] := snoc.trans List.concat_eq_append
    have queue₁ : Scheduler.Queue { s with nodes := Function.update s.nodes node ⟨task, 0⟩ } (as ++ [a]) := by
      refine queue.congr fun q here => ?_
      show (Function.update s.nodes node ⟨task, 0⟩ q).next = _
      rw [Function.update_of_ne (show q ≠ node from fun same => apart (same ▸ here))]
      rfl
    obtain ⟨s', returns, relinked, queue'⟩ := moveEndOfList_returns queue₁ valid apart
    obtain ⟨nodes, rfl, vals⟩ := id relinked
    refine ⟨_, ?_, ⟨relinked, ?_, fun q other => ?_⟩, ?_⟩
    · rw [List.length_append, List.length_singleton]
      exact returns
    · simp only [vals, Function.update_self]
    · simp only [vals, Function.update_of_ne other]
    · rw [List.append_assoc]
      exact queue'

/-! ## One call of `schedule` -/

/-- The task `schedule` selects; none when it returns at once. -/
def Scheduler.chosen (s : Scheduler) : Option Nat :=
  if s.runQueue.tasks = 0 ∨ (s.runQueue.curr ≠ 0 ∧ s.next s.runQueue.tasks = 0) then none
  else some (s.nodes s.runQueue.tasks).val

/-- Taking the first node to the end of the list. -/
theorem rotate_returns {s : Scheduler} {q : Nat} {qs : List Nat} (queue : s.Queue (q :: qs)) :
    ∃ s', Returns (fun fuel => if (s.nodes q).next ≠ 0 then
        moveEndOfList fuel { s with runQueue := { s.runQueue with tasks := (s.nodes q).next } } q
      else pure s) (qs.length + 1) s' ∧ s'.Queue (qs ++ [q]) ∧
      ∃ head, Relinked { s with runQueue := { s.runQueue with tasks := head } } s' := by
  obtain ⟨-, valid, rest⟩ := id queue
  have distinct := queue.nodup
  rcases List.eq_nil_or_concat qs with rfl | ⟨as, a, snoc⟩
  · have single : (s.nodes q).next = 0 := rest
    simp only [ne_eq, single, not_true_eq_false, if_false]
    exact ⟨s, .ok _ s, queue, s.runQueue.tasks, s.nodes, rfl, fun _ => rfl⟩
  · obtain rfl : qs = as ++ [a] := snoc.trans List.concat_eq_append
    have more : (s.nodes q).next ≠ 0 := fun null =>
      List.append_ne_nil_of_right_ne_nil _ (List.cons_ne_nil _ _) (rest.head_eq_null.mp null)
    simp only [ne_eq, more, not_false_eq_true, if_true]
    obtain ⟨s', returns, relinked, queue'⟩ := moveEndOfList_returns
      (s := { s with runQueue := { s.runQueue with tasks := (s.nodes q).next } }) rest valid
      (List.nodup_cons.mp distinct).1
    refine ⟨s', returns.mono ?_, ?_, _, relinked⟩
    · simp only [List.length_append, List.length_cons]
      omega
    · rw [List.append_assoc]
      exact queue'

/-- What a call that selects a task does besides moving the task's node. -/
structure SwitchTo (s : Scheduler) (intFrame : InterruptStackFrame) (next : Nat) (s' : Scheduler)
    (intFrame' : InterruptStackFrame) : Prop where
  switch : processContextSwtich s.tasks intFrame s.runQueue.curr next = (s'.tasks, intFrame', s'.cpu)
  curr : s'.runQueue.curr = next
  vals : ∀ q, (s'.nodes q).val = (s.nodes q).val
  initialised : s'.initialised = s.initialised

/-- `schedule` on a queue returns: at once, or having switched to the task of the first node. -/
theorem schedule_returns {s : Scheduler} (intFrame : InterruptStackFrame) {q : Nat} {qs : List Nat}
    (queue : s.Queue (q :: qs)) (ready : s.initialised = true) :
    ∃ s' intFrame', Returns (fun fuel => schedule fuel s intFrame) (qs.length + 1) (s', intFrame') ∧
      ((s.chosen = none ∧ s' = s ∧ intFrame' = intFrame) ∨
        (s.chosen = some (s.nodes q).val ∧ SwitchTo s intFrame (s.nodes q).val s' intFrame' ∧
          s'.Queue (qs ++ [q]))) := by
  have head : s.runQueue.tasks = q := queue.1
  have passes : bugOn (s.initialised = false) = .ok () := bugOn_of_not (by rw [ready]; decide)
  by_cases idle : s.runQueue.tasks = 0 ∨ (s.runQueue.curr ≠ 0 ∧ s.next s.runQueue.tasks = 0)
  · have call : ∀ fuel, schedule fuel s intFrame = .ok (s, intFrame) := by
      intro fuel
      rw [schedule, passes, ok_bind]
      exact if_pos idle
    simp only [call]
    exact ⟨s, intFrame, .ok _ _, .inl ⟨if_pos idle, rfl, rfl⟩⟩
  · obtain ⟨s₁, returns, queue', first, nodes, rfl, vals⟩ := rotate_returns queue
    have call : ∀ fuel, schedule fuel s intFrame = (if (s.nodes q).next ≠ 0 then
          moveEndOfList fuel { s with runQueue := { s.runQueue with tasks := (s.nodes q).next } } q
        else pure s) >>= fun s₁ =>
          let switch := processContextSwtich s₁.tasks intFrame s.runQueue.curr (s.nodes q).val
          .ok ({ s₁ with
            runQueue := { s₁.runQueue with curr := (s.nodes q).val, needResched := false }
            tasks := switch.1
            cpu := switch.2.2 }, switch.2.1) := by
      intro fuel
      rw [schedule, passes, ok_bind]
      exact (if_neg idle).trans (by rw [head]; rfl)
    simp only [call]
    refine ⟨_, _, returns.bind (.ok _ _), .inr ⟨?_, ⟨rfl, rfl, vals, rfl⟩, queue'⟩⟩
    rw [Scheduler.chosen, if_neg idle, head]

/-! ## Register values -/

/-- The register values a task goes on with. -/
structure Context where
  regs : Registers64
  rip : Nat
  cs : Nat
  rflags : Nat
  rsp : Nat
  ss : Nat
deriving DecidableEq, Repr

/-- What is saved for a task. -/
def TaskStruct.context (t : TaskStruct) : Context := ⟨t.regs, t.rip, t.cs, t.rflags, t.rsp, t.ss⟩

/-- What is in the frame of an interrupt. -/
def InterruptStackFrame.context (f : InterruptStackFrame) : Context := ⟨f.regs, f.rip, f.cs, f.rflags, f.rsp, f.ss⟩

/-- What `create_process` gives a task. -/
def startContext : Context := ⟨.zero, 0x41000, 0x23, 0x202, 0x40000, 0x1b⟩

@[simp] theorem startedTask_context (pid : Nat) (pgtable : PageTable) (stack kernelStack : StackArea) :
    (startedTask pid pgtable stack kernelStack).context = startContext := rfl

@[simp] theorem loadTask_context (f : InterruptStackFrame) (t : TaskStruct) :
    (loadTask f t).context = t.context := rfl

@[simp] theorem saveTask_context (t : TaskStruct) (f : InterruptStackFrame) :
    (saveTask t f).context = f.context := rfl

@[simp] theorem launchProcess_saveTask (t : TaskStruct) (f : InterruptStackFrame) :
    launchProcess (saveTask t f) = launchProcess t := rfl

/-! ## Runs -/

/-- A switch: the task switched out, if there was one, what the frame held, and the task selected. -/
structure Switch where
  out : Nat
  context : Context
  selected : Nat

/-- What the frame held when the task was last switched out. The newest switch comes first. -/
def lastOut (switches : List Switch) (task : Nat) : Option Context :=
  (switches.find? fun switch => switch.out = task).map Switch.context

/-- The scheduler, the frame of the interrupt, the tasks created, the nodes allocated and the switches
made so far. -/
structure SchedRun where
  state : Scheduler
  intFrame : InterruptStackFrame
  created : List Nat
  allocated : List Nat
  switches : List Switch

/-- The history after a call of `schedule`. -/
def SchedRun.recorded (r : SchedRun) : List Switch :=
  match r.state.chosen with
  | none => r.switches
  | some next => ⟨r.state.runQueue.curr, r.intFrame.context, next⟩ :: r.switches

/-- The scheduler as it is loaded: its variables are zero. -/
structure Loaded (s : Scheduler) : Prop where
  initialised : s.initialised = false
  curr : s.runQueue.curr = 0
  tasks : s.runQueue.tasks = 0

/-- One step: a task is created, the queue is initialised or extended, the timer ticks, the running
task changes the frame in any way, or `schedule` is called. New tasks and nodes have addresses that
`kmalloc` has not returned before. -/
inductive SchedStep (r : SchedRun) : SchedRun → Prop
  | create (task pid : Nat) (pgtable : PageTable) (stack kernelStack : StackArea) (valid : task ≠ 0)
      (fresh : task ∉ r.created) :
      SchedStep r { r with
        state := { r.state with
          tasks := Function.update r.state.tasks task (startedTask pid pgtable stack kernelStack) }
        created := task :: r.created }
  | init (head task : Nat) {s : Scheduler} (valid : head ≠ 0) (fresh : head ∉ r.allocated)
      (mem : task ∈ r.created) (run : schedulerInit r.state head task = .ok s) :
      SchedStep r { r with state := s, allocated := head :: r.allocated }
  | add (fuel node task : Nat) {s : Scheduler} (ready : r.state.initialised = true) (valid : node ≠ 0)
      (fresh : node ∉ r.allocated) (mem : task ∈ r.created)
      (run : schedulerAdd fuel r.state node task = .ok s) :
      SchedStep r { r with state := s, allocated := node :: r.allocated }
  | tick (jiffies : Nat) : SchedStep r { r with state := schedulerTick r.state jiffies }
  | user (intFrame : InterruptStackFrame) : SchedStep r { r with intFrame := intFrame }
  | schedule (fuel : Nat) {s : Scheduler} {intFrame : InterruptStackFrame}
      (run : Kernel.schedule fuel r.state r.intFrame = .ok (s, intFrame)) :
      SchedStep r { r with state := s, intFrame := intFrame, switches := r.recorded }

/-- What holds in every state of a run. -/
structure Consistent (r : SchedRun) : Prop where
  queue : ∃ qs, r.state.Queue qs ∧ (r.state.initialised = true → qs ≠ []) ∧ ∀ q ∈ qs, q ∈ r.allocated ∧
    (r.state.nodes q).val ∈ r.created
  valid : ∀ t ∈ r.created, t ≠ 0
  curr : r.state.runQueue.curr ≠ 0 → r.state.runQueue.curr ∈ r.created
  outs : ∀ switch ∈ r.switches, switch.out ≠ 0 → switch.out ∈ r.created
  saved : ∀ t ∈ r.created, t ≠ r.state.runQueue.curr →
    (r.state.tasks t).context = (lastOut r.switches t).getD startContext

theorem Consistent.start {s : Scheduler} (loaded : Loaded s) (intFrame : InterruptStackFrame) :
    Consistent ⟨s, intFrame, [], [], []⟩ where
  queue := ⟨[], loaded.tasks, fun ready => absurd ready (by rw [loaded.initialised]; decide), by simp⟩
  valid := by simp
  curr := fun running => absurd loaded.curr running
  outs := by simp
  saved := by simp

namespace Consistent

variable {r : SchedRun}

/-- A task that does not exist yet was never switched out. -/
theorem lastOut_of_fresh (consistent : Consistent r) {task : Nat} (valid : task ≠ 0) (fresh : task ∉ r.created) :
    lastOut r.switches task = none := by
  rw [lastOut, Option.map_eq_none_iff, List.find?_eq_none]
  intro switch mem out
  rw [decide_eq_true_eq] at out
  exact fresh (out ▸ consistent.outs switch mem (out ▸ valid))

theorem create (consistent : Consistent r) {task : Nat} (valid : task ≠ 0) (fresh : task ∉ r.created)
    (pid : Nat) (pgtable : PageTable) (stack kernelStack : StackArea) :
    Consistent { r with
      state := { r.state with
        tasks := Function.update r.state.tasks task (startedTask pid pgtable stack kernelStack) }
      created := task :: r.created } where
  queue := by
    obtain ⟨qs, queue, nonempty, listed⟩ := consistent.queue
    exact ⟨qs, queue, nonempty, fun q mem => ⟨(listed q mem).1, List.mem_cons_of_mem _ (listed q mem).2⟩⟩
  valid := List.forall_mem_cons.mpr ⟨valid, consistent.valid⟩
  curr := fun running => List.mem_cons_of_mem _ (consistent.curr running)
  outs := fun switch mem out => List.mem_cons_of_mem _ (consistent.outs switch mem out)
  saved := by
    intro t mem waits
    by_cases new : t = task
    · simp only [new, Function.update_self, startedTask_context, consistent.lastOut_of_fresh valid fresh,
        Option.getD_none]
    · simp only [Function.update_of_ne new]
      exact consistent.saved t ((List.mem_cons.mp mem).resolve_left new) waits

/-- A step that changes the queue and nothing about the tasks. -/
theorem requeue (consistent : Consistent r) {s : Scheduler} {allocated : List Nat}
    (queue : ∃ qs, s.Queue qs ∧ (s.initialised = true → qs ≠ []) ∧ ∀ q ∈ qs, q ∈ allocated ∧
      (s.nodes q).val ∈ r.created)
    (tasks : s.tasks = r.state.tasks) (curr : s.runQueue.curr = r.state.runQueue.curr) :
    Consistent { r with state := s, allocated := allocated } where
  queue := queue
  valid := consistent.valid
  curr := by
    show s.runQueue.curr ≠ 0 → s.runQueue.curr ∈ r.created
    rw [curr]
    exact consistent.curr
  outs := consistent.outs
  saved := by
    show ∀ t ∈ r.created, t ≠ s.runQueue.curr → (s.tasks t).context = _
    rw [curr, tasks]
    exact consistent.saved

theorem init (consistent : Consistent r) {head task : Nat} {s : Scheduler} (valid : head ≠ 0)
    (mem : task ∈ r.created) (run : schedulerInit r.state head task = .ok s) :
    Consistent { r with state := s, allocated := head :: r.allocated } := by
  rw [schedulerInit, bugOn_bind_eq_ok] at run
  obtain rfl := Except.ok.inj run.2
  refine consistent.requeue ⟨[head], ⟨rfl, valid, ?_⟩, fun _ => List.cons_ne_nil _ _, fun q here => ?_⟩ rfl rfl
  · show (Function.update r.state.nodes head ⟨task, 0⟩ head).next = 0
    rw [Function.update_self]
  · obtain rfl := List.mem_singleton.mp here
    refine ⟨List.mem_cons_self .., ?_⟩
    show (Function.update r.state.nodes q ⟨task, 0⟩ q).val ∈ _
    rwa [Function.update_self]

theorem add (consistent : Consistent r) {fuel node task : Nat} {s : Scheduler} (ready : r.state.initialised = true)
    (valid : node ≠ 0) (fresh : node ∉ r.allocated) (mem : task ∈ r.created)
    (run : schedulerAdd fuel r.state node task = .ok s) :
    Consistent { r with state := s, allocated := node :: r.allocated } := by
  obtain ⟨qs, queue, nonempty, listed⟩ := consistent.queue
  obtain ⟨s', returns, added, queue'⟩ := schedulerAdd_returns task queue (nonempty ready) valid
    fun here => fresh (listed node here).1
  obtain rfl := returns.only fuel s run
  obtain ⟨nodes, rfl, -⟩ := added.relinked
  refine consistent.requeue ⟨_, queue', fun _ => List.append_ne_nil_of_right_ne_nil _ (List.cons_ne_nil _ _),
    fun q here => ?_⟩ rfl rfl
  by_cases new : q = node
  · rw [new, added.val]
    exact ⟨List.mem_cons_self .., mem⟩
  · have old : q ∈ qs := (List.mem_append.mp here).resolve_right fun last => new (List.mem_singleton.mp last)
    rw [added.vals q new]
    exact ⟨List.mem_cons_of_mem _ (listed q old).1, (listed q old).2⟩

theorem tick (consistent : Consistent r) (jiffies : Nat) :
    Consistent { r with state := schedulerTick r.state jiffies } := by
  rw [schedulerTick]
  split
  · exact consistent.requeue consistent.queue rfl rfl
  · exact consistent

end Consistent

/-! ## Switching -/

/-- What `process_context_swtich` does: it saves the frame for the task switched out and no other, and
loads frame and processor from the task selected. -/
theorem processContextSwtich_spec {tasks tasks' : Nat → TaskStruct} {intFrame intFrame' : InterruptStackFrame}
    {curr next : Nat} {cpu' : Cpu}
    (switch : processContextSwtich tasks intFrame curr next = (tasks', intFrame', cpu')) :
    intFrame' = loadTask intFrame (tasks' next) ∧ cpu' = launchProcess (tasks' next) ∧
      (∀ t, t ≠ curr → tasks' t = tasks t) ∧ (curr ≠ 0 → tasks' curr = saveTask (tasks curr) intFrame) := by
  rw [processContextSwtich] at switch
  split at switch
  · rename_i first
    cases switch
    exact ⟨rfl, rfl, fun _ _ => rfl, fun running => absurd first running⟩
  · cases switch
    exact ⟨rfl, rfl, fun t other => Function.update_of_ne other _ _, fun _ => Function.update_self ..⟩

/-- What the frame held when the task was last switched out, this switch included. -/
theorem lastOut_cons (switch : Switch) (switches : List Switch) (task : Nat) :
    lastOut (switch :: switches) task =
      if switch.out = task then some switch.context else lastOut switches task := by
  by_cases here : switch.out = task
  · simp only [lastOut, List.find?_cons, here, decide_true, Option.map_some, if_true]
  · simp only [lastOut, List.find?_cons, here, decide_false, if_false]

/-- With the frame saved for the task switched out, every task has the registers it last had. -/
theorem Consistent.saved_after {r : SchedRun} (consistent : Consistent r) {next : Nat} {s : Scheduler}
    {intFrame : InterruptStackFrame} (to_ : SwitchTo r.state r.intFrame next s intFrame) {t : Nat}
    (mem : t ∈ r.created) : (s.tasks t).context =
      (lastOut (⟨r.state.runQueue.curr, r.intFrame.context, next⟩ :: r.switches) t).getD startContext := by
  obtain ⟨-, -, others, saved⟩ := processContextSwtich_spec to_.switch
  rw [lastOut_cons]
  by_cases here : r.state.runQueue.curr = t
  · rw [if_pos here, ← here, saved (here ▸ consistent.valid t mem)]
    rfl
  · rw [if_neg here, others t (Ne.symm here)]
    exact consistent.saved t mem (Ne.symm here)

theorem Consistent.schedule {r : SchedRun} (consistent : Consistent r) {fuel : Nat} {s : Scheduler}
    {intFrame : InterruptStackFrame} (run : Kernel.schedule fuel r.state r.intFrame = .ok (s, intFrame)) :
    Consistent { r with state := s, intFrame := intFrame, switches := r.recorded } := by
  obtain ⟨qs, queue, nonempty, listed⟩ := consistent.queue
  have ready : r.state.initialised = true := by
    obtain ⟨ready, -⟩ := bugOn_bind_eq_ok.mp run
    simpa only [Bool.not_eq_false] using ready
  obtain ⟨q, qs, rfl⟩ := List.exists_cons_of_ne_nil (nonempty ready)
  obtain ⟨s', intFrame', returns, outcome⟩ := schedule_returns r.intFrame queue ready
  cases returns.only fuel _ run
  rcases outcome with ⟨idle, rfl, rfl⟩ | ⟨chosen, to_, queue'⟩
  · rw [SchedRun.recorded, idle]
    exact consistent
  · have selected := (listed q (List.mem_cons_self ..)).2
    rw [SchedRun.recorded, chosen]
    exact
      { queue := ⟨_, queue', fun _ => List.append_ne_nil_of_right_ne_nil _ (List.cons_ne_nil _ _), fun p mem => by
          rw [to_.vals p]
          exact listed p (List.mem_cons.mpr (List.mem_append.mp mem |>.symm.imp List.mem_singleton.mp id))⟩
        valid := consistent.valid
        curr := fun _ => by
          show s.runQueue.curr ∈ r.created
          rwa [to_.curr]
        outs := List.forall_mem_cons.mpr ⟨consistent.curr, consistent.outs⟩
        saved := fun t mem _ => consistent.saved_after to_ mem }

theorem Consistent.step {r r' : SchedRun} (consistent : Consistent r) (step : SchedStep r r') : Consistent r' := by
  cases step with
  | create task pid pgtable stack kernelStack valid fresh =>
    exact consistent.create valid fresh pid pgtable stack kernelStack
  | init head task valid fresh mem run => exact consistent.init valid mem run
  | add fuel node task ready valid fresh mem run => exact consistent.add ready valid fresh mem run
  | tick jiffies => exact consistent.tick jiffies
  | user intFrame =>
    exact ⟨consistent.queue, consistent.valid, consistent.curr, consistent.outs, consistent.saved⟩
  | schedule fuel run => exact consistent.schedule run

theorem Consistent.run {r r' : SchedRun} (consistent : Consistent r)
    (run : Relation.ReflTransGen SchedStep r r') : Consistent r' :=
  run_invariant run consistent fun _ _ consistent step => consistent.step step

/-- A switch to `next`: the frame holds what it held when that task was last switched out, or what
`create_process` gave it; only the task switched out has changed, and it holds what the frame held;
and all that tells which task runs tells of the one selected. -/
structure Switched (r : SchedRun) (next : Nat) (s : Scheduler) (intFrame : InterruptStackFrame) : Prop where
  restored : intFrame.context = (lastOut r.recorded next).getD startContext
  others : ∀ t, t ≠ r.state.runQueue.curr → s.tasks t = r.state.tasks t
  saved : r.state.runQueue.curr ≠ 0 →
    s.tasks r.state.runQueue.curr = saveTask (r.state.tasks r.state.runQueue.curr) r.intFrame
  curr : s.runQueue.curr = next
  cr3 : s.cpu.cr3 = (s.tasks next).vmArea.pgtable.physRoot
  rsp0 : s.cpu.rsp0 = Word.add (s.tasks next).kernelStackArea.virtAddr stackSize
  pid : sysGetpid s = (s.tasks next).pid

/-- **Context switches do not interfere.** In every state of a run in which the queue is initialised,
`schedule` returns; it changes nothing, or it switches to the task it selects. -/
theorem schedule_noninterference {s₀ : Scheduler} (loaded : Loaded s₀) {intFrame₀ : InterruptStackFrame}
    {r : SchedRun} (run : Relation.ReflTransGen SchedStep ⟨s₀, intFrame₀, [], [], []⟩ r)
    (ready : r.state.initialised = true) :
    ∃ n s intFrame, Returns (fun fuel => schedule fuel r.state r.intFrame) n (s, intFrame) ∧
      (r.state.chosen = none → s = r.state ∧ intFrame = r.intFrame) ∧
      ∀ next, r.state.chosen = some next → Switched r next s intFrame := by
  have consistent := (Consistent.start loaded intFrame₀).run run
  obtain ⟨qs, queue, nonempty, listed⟩ := consistent.queue
  obtain ⟨q, qs, rfl⟩ := List.exists_cons_of_ne_nil (nonempty ready)
  obtain ⟨s, intFrame, returns, outcome⟩ := schedule_returns r.intFrame queue ready
  refine ⟨_, s, intFrame, returns, fun idle => ?_, fun next chosen => ?_⟩
  · rcases outcome with ⟨-, same⟩ | ⟨chosen, -⟩
    · exact same
    · rw [idle] at chosen
      cases chosen
  · rcases outcome with ⟨idle, -⟩ | ⟨chosen', to_, -⟩
    · rw [chosen] at idle
      cases idle
    · obtain rfl := Option.some.inj (chosen.symm.trans chosen')
      obtain ⟨frame, cpu, others, saved⟩ := processContextSwtich_spec to_.switch
      refine ⟨?_, others, saved, to_.curr, ?_, ?_, ?_⟩
      · rw [SchedRun.recorded, chosen, frame, loadTask_context]
        exact consistent.saved_after to_ (listed q (List.mem_cons_self ..)).2
      · rw [cpu]
        rfl
      · rw [cpu]
        rfl
      · rw [sysGetpid, to_.curr]

/-! ### Two tasks -/

/-- The scheduler as it is loaded, with nothing in memory. -/
def loadedScheduler : Scheduler where
  initialised := false
  runQueue := ⟨0, 0, false⟩
  nodes := fun _ => ⟨0, 0⟩
  tasks := fun _ => startedTask 0 ⟨0, 0, ⟨0, 0⟩⟩ ⟨0, 0, 0⟩ ⟨0, 0, 0⟩
  cpu := ⟨0, 0⟩

/-- A frame of the timer interrupt in a program at `rip`. -/
def timerFrame (rip : Nat) : InterruptStackFrame := ⟨.zero, 32, 0, rip, 0x23, 0x202, 0x40000, 0x1b⟩

/-- The first of two tasks runs; the next call saves it and selects the second. -/
theorem schedule_noninterference_two_tasks : ∃ r : SchedRun,
    Relation.ReflTransGen SchedStep ⟨loadedScheduler, timerFrame 0, [], [], []⟩ r ∧
      r.state.runQueue.curr = 0x1000 ∧ r.intFrame = timerFrame 0x41234 ∧
      ∃ n s intFrame, Returns (fun fuel => schedule fuel r.state r.intFrame) n (s, intFrame) ∧
        Switched r 0x2000 s intFrame := by
  have queued : Relation.ReflTransGen SchedStep ⟨loadedScheduler, timerFrame 0, [], [], []⟩ _ :=
    (((Relation.ReflTransGen.refl.tail
      (.create 0x1000 1 ⟨0x10000, 0, ⟨0, 0⟩⟩ ⟨0, 0, 0⟩ ⟨0, 0x5000, 0x2000⟩ (by decide) (by decide))).tail
      (.create 0x2000 2 ⟨0x20000, 0, ⟨0, 0⟩⟩ ⟨0, 0, 0⟩ ⟨0, 0x7000, 0x2000⟩ (by decide) (by decide))).tail
      (.init 0x100 0x1000 (by decide) (by decide) (by decide) rfl)).tail
      (.add 2 0x200 0x2000 rfl (by decide) (by decide) (by decide) rfl)
  have running := (queued.tail (.schedule 3 rfl)).tail (.user (timerFrame 0x41234))
  obtain ⟨n, s, intFrame, returns, -, switched⟩ := schedule_noninterference ⟨rfl, rfl, rfl⟩ running rfl
  exact ⟨_, running, rfl, rfl, n, s, intFrame, returns, switched 0x2000 rfl⟩

end AlmeidaOS.Kernel
