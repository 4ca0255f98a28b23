import AlmeidaOS.Base.Trace
import AlmeidaOS.Laws.Task.Scheduler

/-!
# The run queue is a round-robin queue

Whatever the order of the calls of `scheduler_add` and `schedule`, the nodes of the run queue are those
added so far, each once, and the queue they form moves as `Rotation` says (`QueueStep.rotates`): an added
node goes to the end, and `schedule` selects the first node, which goes to the end, or selects nobody.
So between two selections of one node every other node that waited is selected once.

A node is an addition to the queue. When no task is added twice, nodes and tasks are the same thing, and
the law speaks of tasks.
-/

namespace AlmeidaOS.Kernel

/-- The task of a node. -/
def Scheduler.taskOf (s : Scheduler) (node : Nat) : Nat := (s.nodes node).val

/-- The node `schedule` selects, if it selects one. -/
def Scheduler.picked (s : Scheduler) : List Nat := if s.chosen = none then [] else [s.runQueue.tasks]

/-- The scheduler, and the nodes added so far with the tasks they were added for, the oldest first. -/
structure QueueRun where
  state : Scheduler
  added : List (Nat × Nat)

namespace QueueRun

/-- The nodes added so far. -/
def nodes (r : QueueRun) : List Nat := r.added.map Prod.fst

/-- The tasks added so far. -/
def tasks (r : QueueRun) : List Nat := r.added.map Prod.snd

end QueueRun

/-- One step, with the node selected. A new node has an address that `kmalloc` has not returned before.
The frame `schedule` is given is arbitrary, and so is all that happens elsewhere between two calls. -/
inductive QueueStep (r : QueueRun) : List Nat → QueueRun → Prop
  | add (fuel node task : Nat) {s : Scheduler} (valid : node ≠ 0) (fresh : node ∉ r.nodes)
      (run : schedulerAdd fuel r.state node task = .ok s) :
      QueueStep r [] ⟨s, r.added ++ [(node, task)]⟩
  | schedule (fuel : Nat) (intFrame : InterruptStackFrame) {s : Scheduler} {intFrame' : InterruptStackFrame}
      (run : Kernel.schedule fuel r.state intFrame = .ok (s, intFrame')) :
      QueueStep r r.state.picked ⟨s, r.added⟩
  | elsewhere (tasks : Nat → TaskStruct) (cpu : Cpu) (needResched : Bool) :
      QueueStep r [] ⟨{ r.state with
        tasks := tasks
        cpu := cpu
        runQueue := { r.state.runQueue with needResched := needResched } }, r.added⟩

/-- What holds in every state of a run: the queue visits the nodes added, and each has its task. -/
structure Queued (r : QueueRun) (qs : List Nat) : Prop where
  queue : r.state.Queue qs
  ready : r.state.initialised = true
  nonempty : qs ≠ []
  perm : qs.Perm r.nodes
  vals : ∀ e ∈ r.added, r.state.taskOf e.1 = e.2

namespace Queued

variable {r r' : QueueRun} {qs : List Nat}

theorem init {s₀ s₁ : Scheduler} {head task : Nat} (valid : head ≠ 0)
    (run : schedulerInit s₀ head task = .ok s₁) : Queued ⟨s₁, [(head, task)]⟩ [head] := by
  rw [schedulerInit, bugOn_bind_eq_ok] at run
  obtain rfl := Except.ok.inj run.2
  have node : Function.update s₀.nodes head ⟨task, 0⟩ head = ⟨task, 0⟩ := Function.update_self ..
  refine ⟨⟨rfl, valid, ?_⟩, rfl, List.cons_ne_nil _ _, .refl _, fun e mem => ?_⟩
  · exact congrArg TaskList.next node
  · obtain rfl := List.mem_singleton.mp mem
    exact congrArg TaskList.val node

theorem mem_nodes (queued : Queued r qs) {q : Nat} : q ∈ qs ↔ q ∈ r.nodes := queued.perm.mem_iff

/-- The tasks of the nodes in the queue are the tasks added. -/
theorem tasks (queued : Queued r qs) : (qs.map r.state.taskOf).Perm r.tasks := by
  refine (queued.perm.map _).trans (List.Perm.of_eq ?_)
  rw [QueueRun.nodes, QueueRun.tasks, List.map_map]
  exact List.map_congr_left queued.vals

theorem add (queued : Queued r qs) {node : Nat} (task : Nat) (valid : node ≠ 0) (fresh : node ∉ r.nodes) :
    ∃ s, Returns (fun fuel => schedulerAdd fuel r.state node task) qs.length s ∧
      Queued ⟨s, r.added ++ [(node, task)]⟩ (qs ++ [node]) := by
  obtain ⟨s, returns, added, queue'⟩ := schedulerAdd_returns task queued.queue queued.nonempty valid
    fun here => fresh (queued.mem_nodes.mp here)
  obtain ⟨nodes, rfl, -⟩ := added.relinked
  refine ⟨_, returns, queue', queued.ready, List.append_ne_nil_of_right_ne_nil _ (List.cons_ne_nil _ _),
    ?_, fun e mem => ?_⟩
  · rw [QueueRun.nodes, List.map_append]
    exact queued.perm.append_right [node]
  · rcases List.mem_append.mp mem with old | new
    · have other : e.1 ≠ node := fun same => fresh (same ▸ List.mem_map_of_mem old)
      exact (added.vals e.1 other).trans (queued.vals e old)
    · obtain rfl := List.mem_singleton.mp new
      exact added.val

theorem schedule (queued : Queued r qs) (intFrame : InterruptStackFrame) :
    ∃ s intFrame' qs', Returns (fun fuel => Kernel.schedule fuel r.state intFrame) qs.length (s, intFrame') ∧
      Rotation qs r.state.picked qs' ∧ Queued ⟨s, r.added⟩ qs' := by
  obtain ⟨q, qs, rfl⟩ := List.exists_cons_of_ne_nil queued.nonempty
  obtain ⟨s, intFrame', returns, outcome⟩ := schedule_returns intFrame queued.queue queued.ready
  rcases outcome with ⟨idle, rfl, rfl⟩ | ⟨chosen, to_, queue'⟩
  · rw [Scheduler.picked, if_pos idle]
    exact ⟨_, _, _, returns, .rest _, queued⟩
  · have selects : r.state.picked = [q] := by
      rw [Scheduler.picked, if_neg (by rw [chosen]; simp), queued.queue.1]
    rw [selects]
    refine ⟨s, intFrame', _, returns, .pick q qs, queue', to_.initialised.trans queued.ready,
      List.append_ne_nil_of_right_ne_nil _ (List.cons_ne_nil _ _), ?_, fun e mem => ?_⟩
    · exact (List.perm_append_singleton q qs).trans queued.perm
    · exact (to_.vals e.1).trans (queued.vals e mem)

end Queued

/-- Every step moves the queue as a round-robin queue moves. -/
theorem QueueStep.rotates {r r' : QueueRun} {picks qs : List Nat} (queued : Queued r qs)
    (step : QueueStep r picks r') : ∃ qs', Rotation qs picks qs' ∧ Queued r' qs' := by
  cases step with
  | add fuel node task valid fresh run =>
    obtain ⟨s, returns, queued'⟩ := queued.add task valid fresh
    obtain rfl := returns.only fuel _ run
    exact ⟨_, .join qs node, queued'⟩
  | schedule fuel intFrame run =>
    obtain ⟨s, intFrame', qs', returns, rotates, queued'⟩ := queued.schedule intFrame
    cases returns.only fuel _ run
    exact ⟨qs', rotates, queued'⟩
  | elsewhere tasks cpu needResched =>
    exact ⟨qs, .rest qs, queued.queue, queued.ready, queued.nonempty, queued.perm, queued.vals⟩

/-- Nothing is taken off the list of the nodes added. -/
theorem QueueStep.added_sublist {r r' : QueueRun} {picks : List Nat} (step : QueueStep r picks r') :
    r.added.Sublist r'.added := by
  cases step with
  | add => exact List.sublist_append_left _ _
  | schedule => exact .refl _
  | elsewhere => exact .refl _

namespace Queued

variable {r r' : QueueRun} {qs picks : List Nat}

theorem run (queued : Queued r qs) (run : Trace QueueStep r picks r') :
    ∃ qs', Trace Rotation qs picks qs' ∧ Queued r' qs' :=
  run.simulation (R := Queued) queued fun _ _ _ _ queued step => step.rotates queued

theorem picked_mem (queued : Queued r qs) {q : Nat} (step : QueueStep r [q] r') : q ∈ r.nodes := by
  obtain ⟨qs', rotates, -⟩ := step.rotates queued
  obtain ⟨waiting, rfl, -⟩ := rotates.of_pick
  exact queued.mem_nodes.mp (List.mem_cons_self ..)

/-- With no task added twice, a node is known by its task. -/
theorem taskOf_inj (queued : Queued r qs) (distinct : r.tasks.Nodup) {p q : Nat} (memp : p ∈ r.nodes)
    (memq : q ∈ r.nodes) (same : r.state.taskOf p = r.state.taskOf q) : p = q := by
  obtain ⟨e, hereE, rfl⟩ := List.mem_map.mp memp
  obtain ⟨f, hereF, rfl⟩ := List.mem_map.mp memq
  rw [queued.vals e hereE, queued.vals f hereF] at same
  exact congrArg Prod.fst (List.inj_on_of_nodup_map distinct hereE hereF same)

end Queued

theorem added_sublist_of_run {r r' : QueueRun} {picks : List Nat} (run : Trace QueueStep r picks r') :
    r.added.Sublist r'.added :=
  run.invariant (P := fun r' => r.added.Sublist r'.added) (.refl _) fun _ _ _ kept step =>
    kept.trans step.added_sublist

/-- From here on: between two selections of one node, those that waited behind it are selected, in
their order, and nobody else; and between two selections of one task every other task that waited is
selected once, if no task is added twice. -/
structure RoundRobin (r : QueueRun) (qs : List Nat) : Prop where
  nodes : ∀ {q between r₁ r₂ r₃}, QueueStep r [q] r₁ → Trace QueueStep r₁ between r₂ → q ∉ between →
    QueueStep r₂ [q] r₃ → qs = q :: between
  tasks : ∀ {q q' between r₁ r₂ r₃}, QueueStep r [q] r₁ → Trace QueueStep r₁ between r₂ →
    r₂.tasks.Nodup → r₂.state.taskOf q ∉ between.map r₂.state.taskOf → QueueStep r₂ [q'] r₃ →
    r₂.state.taskOf q' = r₂.state.taskOf q → ∀ t ∈ r.tasks, t ≠ r₂.state.taskOf q →
      (between.map r₂.state.taskOf).count t = 1

theorem Queued.roundRobin {r : QueueRun} {qs : List Nat} (queued : Queued r qs) : RoundRobin r qs := by
  have nodes : ∀ {q between r₁ r₂ r₃}, QueueStep r [q] r₁ → Trace QueueStep r₁ between r₂ → q ∉ between →
      QueueStep r₂ [q] r₃ → qs = q :: between := by
    intro q between r₁ r₂ r₃ first run passed second
    obtain ⟨qs₁, rotates, queued₁⟩ := first.rotates queued
    obtain ⟨qs₂, runs, queued₂⟩ := queued₁.run run
    obtain ⟨qs₃, rotates', -⟩ := second.rotates queued₂
    obtain ⟨waiting, rfl, -⟩ := rotates.of_pick
    rw [rotates.between (List.nodup_cons.mp queued.queue.nodup).1 runs passed rotates']
  refine ⟨nodes, ?_⟩
  intro q q' between r₁ r₂ r₃ first run distinct passed second same t mem other
  obtain ⟨qs₁, -, queued₁⟩ := first.rotates queued
  obtain ⟨qs₂, -, queued₂⟩ := queued₁.run run
  have grown : r.added.Sublist r₂.added := first.added_sublist.trans (added_sublist_of_run run)
  -- the second selection is of the same node
  obtain rfl : q' = q := queued₂.taskOf_inj distinct (queued₂.picked_mem second)
    ((grown.map Prod.fst).subset (queued.picked_mem first)) same
  have split := nodes first run (fun mem => passed (List.mem_map_of_mem mem)) second
  have perm : ((q' :: between).map r₂.state.taskOf).Perm r.tasks := by
    rw [← split]
    refine (queued.perm.map _).trans (List.Perm.of_eq ?_)
    rw [QueueRun.nodes, QueueRun.tasks, List.map_map]
    exact List.map_congr_left fun e here => queued₂.vals e (grown.subset here)
  have once : ((q' :: between).map r₂.state.taskOf).count t = 1 := by
    rw [perm.count_eq]
    exact List.count_eq_one_of_mem (distinct.sublist (grown.map Prod.snd)) mem
  rwa [List.map_cons, List.count_cons_of_ne (Ne.symm other)] at once

/-- **The run queue is fair.** In every state of a run from `scheduler_init` on, the run queue is a
finite list without a cycle that holds each task as often as it was added; both calls return; and the
queue is round robin from there on. -/
theorem run_queue_round_robin {s₀ s₁ : Scheduler} {head task : Nat} (valid : head ≠ 0)
    (init : schedulerInit s₀ head task = .ok s₁) {picks : List Nat} {r : QueueRun}
    (run : Trace QueueStep ⟨s₁, [(head, task)]⟩ picks r) :
    ∃ qs, r.state.Queue qs ∧ qs.Nodup ∧ (qs.map r.state.taskOf).Perm r.tasks ∧ RoundRobin r qs ∧
      (∀ intFrame, ∃ n out, Returns (fun fuel => schedule fuel r.state intFrame) n out) ∧
      ∀ node task, node ≠ 0 → node ∉ r.nodes →
        ∃ n s, Returns (fun fuel => schedulerAdd fuel r.state node task) n s := by
  obtain ⟨qs, -, queued⟩ := (Queued.init valid init).run run
  refine ⟨qs, queued.queue, queued.queue.nodup, queued.tasks, queued.roundRobin, fun intFrame => ?_,
    fun node task valid fresh => ?_⟩
  · obtain ⟨s, intFrame', -, returns, -⟩ := queued.schedule intFrame
    exact ⟨_, _, returns⟩
  · obtain ⟨s, returns, -⟩ := queued.add task valid fresh
    exact ⟨_, _, returns⟩

/-- The scheduler started with a task at `0x1000`, and one at `0x2000` added. -/
def startedScheduler : Scheduler := (schedulerInit loadedScheduler 0x100 0x1000).getD loadedScheduler

def twoTasks : QueueRun :=
  ⟨(schedulerAdd 2 startedScheduler 0x200 0x2000).getD startedScheduler, [(0x100, 0x1000), (0x200, 0x2000)]⟩

/-- The state after a call of `schedule`. -/
def QueueRun.scheduled (r : QueueRun) : QueueRun :=
  ⟨((schedule 3 r.state (timerFrame 0)).getD (r.state, timerFrame 0)).1, r.added⟩

/-- Two tasks take turns. -/
theorem run_queue_round_robin_two_tasks :
    Trace QueueStep ⟨startedScheduler, [(0x100, 0x1000)]⟩ [] twoTasks ∧
      RoundRobin twoTasks [0x100, 0x200] ∧ QueueStep twoTasks [0x100] twoTasks.scheduled ∧
      QueueStep twoTasks.scheduled [0x200] twoTasks.scheduled.scheduled ∧
      QueueStep twoTasks.scheduled.scheduled [0x100] twoTasks.scheduled.scheduled.scheduled := by
  have run : Trace QueueStep ⟨startedScheduler, [(0x100, 0x1000)]⟩ [] twoTasks :=
    (Trace.nil _).snoc (.add 2 0x200 0x2000 (by decide) (by decide) rfl)
  have first : QueueStep twoTasks [0x100] twoTasks.scheduled := .schedule 3 (timerFrame 0) rfl
  have second : QueueStep twoTasks.scheduled [0x200] _ := .schedule 3 (timerFrame 0) rfl
  have third : QueueStep twoTasks.scheduled.scheduled [0x100] _ := .schedule 3 (timerFrame 0) rfl
  have init : schedulerInit loadedScheduler 0x100 0x1000 = .ok startedScheduler := rfl
  obtain ⟨qs, -, -, -, fair, -⟩ := run_queue_round_robin (by decide) init run
  have order := fair.nodes first ((Trace.nil _).snoc second) (by decide) third
  exact ⟨run, order ▸ fair, first, second, third⟩

end AlmeidaOS.Kernel
