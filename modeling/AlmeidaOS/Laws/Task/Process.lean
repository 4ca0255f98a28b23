import AlmeidaOS.Kernel.Task.Process
import AlmeidaOS.Laws.Lib.Memmove
import AlmeidaOS.Laws.Mm.Init

/-!
# The page table of a task

`create_process` builds a page table in two blocks of its own, maps the program and its stack in the
lower half and copies the upper half of the kernel's root. `TaskKept` is what then stays: the lower half
translates as the calls that were made for it say, and the first 512 GiB of the linear map go through the
same tables as the kernel's.
-/

namespace AlmeidaOS.Kernel

open Radix

/-! ## A task between calls -/

/-- The index of the linear map's first 512 GiB in a root table. -/
abbrev kernelSlot : Fin 512 := pml4Index virtAddrKernelStart

/-- The bytes of a root table's entries for the upper half. -/
def upperHalf (r : Nat) : Set Nat := {x | 4096 * r + 2048 ≤ x ∧ x < 4096 * r + 4096}

/-- The page table of a task, when the kernel's is in the pool `K` with the root `k`: its own pool lies in
blocks of its own, apart from the kernel's, and its bytes are those that the `calls` have written but for the
upper half of the root. There the entry of the linear map is the kernel's, and so are all the others but for
those the kernel has made since. -/
structure TaskTable (K : Pool) (k : Nat) (blocks : List Grant) (m : Mem) (pgtable : PageTable) (calls : List PageCall)
    (P : Pool) (r : Nat) (built : Mem) : Prop where
  table : Refines P built pgtable r calls
  valid : ∀ c ∈ calls, c.Valid
  housed : ∀ x ∈ P.Bytes, ∃ g ∈ blocks, g.owns x
  apart : ∀ x ∈ P.Bytes, x ∉ K.Bytes
  same : ∀ x ∈ P.Bytes, x ∉ upperHalf r → m x = built x
  shared : entries m r kernelSlot = entries m k kernelSlot
  upper : ∀ j : Fin 512, 256 ≤ (j : Nat) → entries m r j = 0 ∨ entries m r j = entries m k j

@[inherit_doc TaskTable]
def TaskKept (K : Pool) (k : Nat) (blocks : List Grant) (m : Mem) (pgtable : PageTable) (calls : List PageCall) : Prop :=
  ∃ P r built, TaskTable K k blocks m pgtable calls P r built

theorem kernelSlot_val : (kernelSlot : Nat) = 256 := by decide

/-- The entries of a table that lie off the upper half of the root. -/
theorem entries_off_upper {m built : Mem} {P : Pool} {r n : Nat} (inside : n < P.count)
    (same : ∀ x ∈ P.Bytes, x ∉ upperHalf r → m x = built x) {j : Fin 512} (low : P.first + n = r → (j : Nat) < 256) :
    entries m (P.first + n) j = entries built (P.first + n) j := by
  have := j.isLt
  refine Mem.load_congr fun x lower upper => same x (.inr ⟨by omega, by omega⟩) ?_
  rintro ⟨above, below⟩
  have here : P.first + n = r := by omega
  have := low here
  omega

namespace TaskTable

variable {K P : Pool} {k r : Nat} {blocks : List Grant} {m m' built : Mem} {pgtable : PageTable} {calls : List PageCall}
  (task : TaskTable K k blocks m pgtable calls P r built)

include task

/-- The lower half is what the calls say, to a walk that admits their flags. -/
theorem walk_lower {admits : Nat → Bool} (zero : admits 0 = false)
    (all : ∀ c ∈ calls, ∀ e, e % 4096 = c.flags % 4096 → admits e = true) {v : Nat} (low : v < 2 ^ 47) :
    walkThrough admits m pgtable.physRoot v = firstWriter calls v := by
  obtain ⟨free, used, T⟩ := task.table.tables
  rw [← task.table.walkThrough_eq task.valid zero all, task.table.physRoot]
  refine walkThrough_congr zero fun ps p pre t reached => ?_
  obtain ⟨n, -, inside, rfl⟩ := T.frame_of_reach reached ((prefix_length pre).trans (Nat.le_of_eq (path_length v)))
  refine entries_off_upper inside task.same fun root => ?_
  -- the root is met first only, with the index of the lower half
  have first : ps = [] := T.shape.tree ps [] r ((prefix_length pre).trans (Nat.le_of_eq (path_length v))) (by decide)
    (root ▸ reached) rfl
  subst first
  obtain rfl : p = pml4Index v := by
    obtain ⟨rest, whole⟩ := pre
    exact (List.cons.inj whole).1
  show pml4e v < 256
  rw [pml4e, extractBitChunk_eq (by decide)]
  omega

/-- The first 512 GiB of the linear map are the kernel's. -/
theorem walk_shared {v : Nat} (lower : virtAddrKernelStart ≤ v) (upper : v < virtAddrKernelStart + 2 ^ 39) :
    walk m pgtable.physRoot v = walk m (4096 * k) v := by
  have slot : pml4e v = kernelSlot := by
    rw [kernelSlot_val, pml4e, extractBitChunk_eq (by decide)]
    unfold virtAddrKernelStart at lower upper
    omega
  have entry : m.load64 (4096 * r + 8 * kernelSlot) = m.load64 (4096 * k + 8 * kernelSlot) := task.shared
  rw [task.table.physRoot]
  simp only [walk, walkThrough, slot, entry]

/-- What is mapped in the upper half is mapped as in the kernel's table. -/
theorem walk_upper {v : Nat} (lower : virtAddrKernelStart ≤ v) (upper : v < 2 ^ 64) :
    walk m pgtable.physRoot v = none ∨ walk m pgtable.physRoot v = walk m (4096 * k) v := by
  have high : 256 ≤ (pml4Index v : Nat) := by
    show 256 ≤ pml4e v
    rw [pml4e, extractBitChunk_eq (by decide)]
    unfold virtAddrKernelStart at lower
    omega
  rw [task.table.physRoot]
  rcases task.upper _ high with none | same
  · have empty : m.load64 (4096 * r + 8 * pml4e v) = 0 := none
    exact .inl (by simp only [walk, walkThrough, empty]; rfl)
  · have entry : m.load64 (4096 * r + 8 * pml4e v) = m.load64 (4096 * k + 8 * pml4e v) := same
    exact .inr (by simp only [walk, walkThrough, entry])

/-- What leaves its blocks alone, but for the kernel's own pool, leaves the table alone. -/
theorem keep {bytes : Set Nat} (writes : Writes K k bytes m m') (off : ∀ g ∈ blocks, ∀ x, g.owns x → x ∉ bytes)
    (there : entries m k kernelSlot ≠ 0) : TaskTable K k blocks m' pgtable calls P r built := by
  have same : ∀ x ∈ P.Bytes, m' x = m x := by
    intro x inside
    refine writes.same x ?_
    rintro (pool | other)
    · exact task.apart x inside pool
    · obtain ⟨g, mem, owns⟩ := task.housed x inside
      exact off g mem x owns other
  have root : ∀ j, entries m' r j = entries m r j := by
    intro j
    have := j.isLt
    exact Mem.load_congr fun x lower upper => same x (task.table.root_inside (by omega) (by omega))
  refine ⟨task.table, task.valid, task.housed, task.apart, fun x inside lower => ?_, ?_, fun j high => ?_⟩
  · rw [same x inside]
    exact task.same x inside lower
  · rw [root, task.shared, writes.root _ there]
  · rw [root]
    by_cases none : entries m r j = 0
    · exact .inl none
    · have equal := (task.upper j high).resolve_left none
      exact .inr (by rw [writes.root j (equal ▸ none), equal])

end TaskTable

/-! ## `create_process` -/

/-- The calls of `page_alloc` for a task's program and its stack. -/
def userCalls (text stack : Nat) : List PageCall :=
  rowCalls userBits text 0x40000 9 ++ rowCalls userBits stack 0x3e000 3

theorem rowCalls_valid {flags p v n : Nat} (small : flags < 2 ^ 12) (odd : flags % 2 = 1) (top : p + 4096 * n < 2 ^ 40 + 4096)
    {c : PageCall} (mem : c ∈ rowCalls flags p v n) : c.Valid := by
  obtain ⟨i, lt, rfl⟩ := mem_rowCalls.mp mem
  exact ⟨small, odd, show p + 4096 * i < 2 ^ 40 by omega⟩

/-- The copy of the upper half of the kernel's root. -/
theorem copyUpper {K P : Pool} {k r : Nat} {m : Mem} {kernel pgtable : PageTable} {calls calls' : List PageCall}
    (refines : Refines K m kernel k calls) (task : Refines P m pgtable r calls') (apart : ∀ x ∈ P.Bytes, x ∉ K.Bytes) :
    let m' := memcpy (linear (Word.add pgtable.virtRoot (256 * 8))) (linear (Word.add kernel.virtRoot (256 * 8)))
      (256 * 8) m
    m.SameOff (upperHalf r) m' ∧ ∀ j : Fin 512, 256 ≤ (j : Nat) → entries m' r j = entries m' k j := by
  obtain ⟨free, used, T⟩ := refines.tables
  obtain ⟨free', used', T'⟩ := task.tables
  have low : k < 2 ^ 28 := T.root_lt
  have low' : r < 2 ^ 28 := T'.root_lt
  have other : r ≠ k := by
    rintro rfl
    exact apart (4096 * r) (task.root_inside (by omega) (by omega)) (refines.root_inside (by omega) (by omega))
  have src : linear (Word.add kernel.virtRoot (256 * 8)) = 4096 * k + 2048 := by
    rw [refines.virtRoot]
    exact linear_add (by omega)
  have dst : linear (Word.add pgtable.virtRoot (256 * 8)) = 4096 * r + 2048 := by
    rw [task.virtRoot]
    exact linear_add (by omega)
  have moved : memcpy (4096 * r + 2048) (4096 * k + 2048) (256 * 8) m =
      m.copy (4096 * r + 2048) (4096 * k + 2048) (256 * 8) :=
    memcpy_eq_copy m (by omega) (by omega) (by omega) (by omega) (by omega)
  rw [src, dst, moved]
  refine ⟨.copy fun x lower upper => ⟨lower, by omega⟩, fun j high => Mem.load_move fun i lt => ?_⟩
  have := j.isLt
  have untouched : (m.copy (4096 * r + 2048) (4096 * k + 2048) (256 * 8)) (4096 * k + 8 * j + i) =
      m (4096 * k + 8 * j + i) := Mem.copy_byte (by omega)
  have place : 4096 * k + 2048 + (4096 * r + 8 * j + i - (4096 * r + 2048)) = 4096 * k + 8 * j + i := by omega
  rw [untouched, ← place]
  exact if_pos (by omega)

/-- The paths to the tables of the lowest 2 MiB. -/
def userPaths : Finset (List (Fin 512)) := {[], [0], [0, 0], [0, 0, 0]}

theorem path_low {v : Nat} (low : v < 2 ^ 21) : path v = [0, 0, 0] := by
  unfold path
  simp only [List.cons.injEq, Fin.ext_iff, and_true]
  refine ⟨?_, ?_, ?_⟩
  · show pml4e v = 0
    rw [pml4e, extractBitChunk_eq (by decide)]
    omega
  · show pdpte v = 0
    rw [pdpte, extractBitChunk_eq (by decide)]
    omega
  · show pde v = 0
    rw [pde, extractBitChunk_eq (by decide)]
    omega

theorem mem_userPaths {v : Nat} (low : v < 2 ^ 21) {ps : List (Fin 512)} (pre : ps <+: path v) : ps ∈ userPaths := by
  rw [path_low low, ← List.mem_inits] at pre
  revert ps
  decide

/-- Pages in a row in the lowest 2 MiB of a task's table: there always are frames for them. -/
theorem Refines.mapUserRow {P : Pool} {w r : Nat} {m : Mem} {pgtable : PageTable} {calls : List PageCall}
    (refines : Refines P m pgtable r calls) (valid : ∀ c ∈ calls, c.Valid) (reached : P.Reached w r)
    (funded : Funded P m pgtable r userPaths) {n fuel p pEnd v : Nat} (top : pEnd < 2 ^ 40)
    (low : v + 4096 * n ≤ 2 ^ 21) (lower : p + 4096 * n ≤ pEnd + 4096) (upper : pEnd < p + 4096 * n) :
    Delivers (n + 1 ≤ fuel) (Kernel.pagingContiguousMap w userBits fuel m pgtable p pEnd v) fun a =>
      Refines P a.1 a.2 r (calls ++ rowCalls userBits p v n) ∧ m.SameOff P.Bytes a.1 ∧ Funded P a.1 a.2 r userPaths := by
  have row : ∀ c ∈ rowCalls userBits p v n, c.Valid ∧ ∀ ps, ps <+: path c.vAddr → ps ∈ userPaths := by
    intro c mem
    refine ⟨rowCalls_valid (by decide) (by decide) (by omega) mem, fun ps pre => ?_⟩
    obtain ⟨i, lt, rfl⟩ := mem_rowCalls.mp mem
    refine mem_userPaths ?_ pre
    show Word.add v (4096 * i) < 2 ^ 21
    rw [Word.add_of_lt (by omega)]
    omega
  obtain ⟨m', pfdb', returns, funded'⟩ :=
    funded.pagingContiguousMap (by decide) refines.virtRoot reached top (by omega) lower upper row
  refine ⟨fun a run => ?_, fun enough => ⟨_, returns.enough fuel enough⟩⟩
  obtain ⟨refines', same, -⟩ :=
    refines.pagingContiguousMap valid reached (by decide) (by decide) top (by omega) lower upper run
  cases returns.only fuel _ run
  exact ⟨refines', same, funded'⟩

/-- The blocks of a task's page table. -/
def tableGrants (pages nodes : Nat) : List Grant :=
  [⟨nodes, pageframeCalcSpaceNeeded (pagingCalcSpaceNeeded (0x100000 * 10 - 0x0))⟩,
    ⟨pages, pagingCalcSpaceNeeded (0x100000 * 10 - 0x0)⟩]

/-- The blocks `create_process` allocates, the last one first. -/
def taskGrants (ptr pages nodes stack kernelStack : Nat) : List Grant :=
  ⟨kernelStack, stackSize⟩ :: ⟨stack, stackSize⟩ :: (tableGrants pages nodes ++ [⟨ptr, sizeofTaskStruct⟩])

/-- `find_free_pid` finds an identifier that is free and takes it. -/
theorem findFreePid_spec (pidMap : Nat → Bool) :
    Delivers (∃ pid, 1 ≤ pid ∧ pid < pidMax ∧ pidMap pid = false) (findFreePid pidMap) fun a =>
      (1 ≤ a.1 ∧ a.1 < pidMax ∧ pidMap a.1 = false) ∧ a.2 = Function.update pidMap a.1 true := by
  rw [findFreePid]
  refine ⟨fun a run => ?_, fun ⟨pid, pos, lt, free⟩ => ?_⟩
  · split at run
    · cases run
    · rename_i i found
      cases run
      have mem := List.mem_of_find?_eq_some found
      have free : pidMap i = false := by simpa using List.find?_some found
      rw [List.mem_range'_1] at mem
      unfold pidMax at mem ⊢
      exact ⟨⟨mem.1, by dsimp only; omega, free⟩, rfl⟩
  · split
    · rename_i none
      rw [List.find?_eq_none] at none
      refine absurd (none pid (List.mem_range'_1.mpr ⟨pos, ?_⟩)) (by simp [free])
      unfold pidMax at lt ⊢
      omega
    · exact ⟨_, rfl⟩

/-- What `create_process` needs to return: five blocks of 32 KiB and an identifier. -/
structure CreateGiven (fuel : Nat) (K : Pool) (k : Nat) (fixed : List Grant) (s : KernelMem) (pidMap : Nat → Bool) :
    Prop where
  ample : Ample K k fixed s
  enough : 2 ^ s.alloc.maxPowOrder ≤ fuel
  high : 15 ≤ s.alloc.maxPowOrder
  room : Room s.alloc s.header 15 5
  pid : ∃ pid, 1 ≤ pid ∧ pid < pidMax ∧ pidMap pid = false

/-- What `create_process` does: the kernel has kept everything, and the task has a page table, two stacks and an
identifier that was free. -/
theorem KernelKept.createProcess {w k fuel text : Nat} {K : Pool} {fixed live : List Grant} {calls : List PageCall}
    {s : KernelMem} (kept : KernelKept w K k fixed s live calls) (pidMap : Nat → Bool) (small : text + 0x8000 < 2 ^ 40) :
    Delivers (CreateGiven fuel K k fixed s pidMap) (Kernel.createProcess w fuel s pidMap text)
      fun (ptr, task, s', pidMap') =>
        ((1 ≤ task.pid ∧ task.pid < pidMax ∧ pidMap task.pid = false) ∧ pidMap' = Function.update pidMap task.pid true) ∧
        ∃ pages nodes new, Building w K k fixed live calls s s' (taskGrants (linear ptr) pages nodes
            task.taskStackArea.physAddr task.kernelStackArea.physAddr) new ∧
          TaskKept K k (tableGrants pages nodes) s'.mem task.vmArea.pgtable
            (userCalls text task.taskStackArea.physAddr) := by
  have back : ∀ {ptr : Nat}, ptr = virtAddrKernelStart + linear ptr → pa ptr = .ok (linear ptr) := fun place => by
    rw [pa_eq_ok_iff]
    refine ⟨?_, rfl⟩
    rw [place]
    unfold virtAddrKernelStart
    omega
  -- the task's structure and its identifier
  refine Delivers.bind ((Building.begin kept).kmalloc fuel sizeofTaskStruct kmemDefault) (fun given =>
    ⟨given.ample, given.enough, by decide, given.high, by decide, by decide, .nil 15, given.room⟩) ?_
  rintro ⟨ptr, s₁⟩ ⟨-, new₁, build₁, -⟩
  refine Delivers.bind (findFreePid_spec pidMap) (fun given => given.pid) ?_
  rintro ⟨pid, pidMap'⟩ ⟨fresh, taken⟩
  dsimp only at fresh taken build₁ ⊢
  -- the two blocks of the page table
  have fits₁ : Capped 15 [⟨linear ptr, sizeofTaskStruct⟩] := (Capped.nil 15).cons (by decide)
  refine Delivers.bind (build₁.kmalloc fuel _ kmemDefault) (fun given =>
    ⟨given.ample, given.enough, by decide, given.high, by decide, by decide, fits₁, given.room⟩) ?_
  rintro ⟨pages, s₂⟩ ⟨place₂, new₂, build₂, -⟩
  dsimp only at place₂ build₂ ⊢
  rw [back place₂, ok_bind]
  have fits₂ := fits₁.cons (p := linear pages) (show pagingCalcSpaceNeeded (0x100000 * 10 - 0x0) ≤ 2 ^ 15 by decide)
  refine Delivers.bind (build₂.kmalloc fuel _ kmemDefault) (fun given =>
    ⟨given.ample, given.enough, by decide, given.high, by decide, by decide, fits₂, given.room⟩) ?_
  rintro ⟨nodes, s₃⟩ ⟨place₃, new₃, build₃, -⟩
  dsimp only at place₃ build₃ ⊢
  rw [back place₃, ok_bind]
  have fits₃ := fits₂.cons (p := linear nodes)
    (show pageframeCalcSpaceNeeded (pagingCalcSpaceNeeded (0x100000 * 10 - 0x0)) ≤ 2 ^ 15 by decide)
  -- the table and the program
  have given := build₃.kept.held.budgetRegions build₃.kept.base build₃.kept.small rfl rfl
  obtain ⟨m₄, pgtable₄, P, r, init, refines₄, housed, same₄, reach, funds⟩ := given.newTable (by decide) s₃.mem
  rw [init, ok_bind]
  have own : ∀ x ∈ P.Bytes, ∃ g ∈ _ :: _ :: [(⟨linear ptr, sizeofTaskStruct⟩ : Grant)], g.owns x :=
    fun x inside => pool_owned_of_regions (housed x inside)
  have reached : P.Reached w r := reach w fun x inside => by
    obtain ⟨g, mem, owns⟩ : ∃ g ∈ _ :: _ :: ⟨linear ptr, sizeofTaskStruct⟩ :: (live ++ fixed), g.owns x :=
      pool_owned_of_regions inside
    have := (build₃.kept.held.inside build₃.kept.base mem).2
    have := Nat.pow_le_pow_right (show 0 < 2 by decide) build₃.kept.wide
    have := owns.2
    omega
  have build₄ := build₃.write same₄ fun x inside => pool_owned_of_regions inside
  rw [Word.add_of_lt (by omega)]
  refine Delivers.bind (refines₄.mapUserRow (n := 9) (fun c none => absurd none List.not_mem_nil) reached
    (funds _ (by decide) (by decide)) small (by decide) (by omega) (by omega)) (fun given => ?_) ?_
  · have := given.enough
    have := kept.page_le
    omega
  rintro ⟨m₅, pgtable₅⟩ ⟨refines₅, same₅, funded₅⟩
  have build₅ := build₄.write same₅ own
  dsimp only at refines₅ same₅ funded₅ build₅ ⊢
  have valid₅ : ∀ c ∈ [] ++ rowCalls userBits text 0x40000 9, c.Valid :=
    fun c mem => rowCalls_valid (by decide) (by decide) (by omega) mem
  -- the program's stack, in the kernel's table and in the task's
  refine Delivers.bind (build₅.kmalloc fuel _ _) (fun given =>
    ⟨given.ample, given.enough, by decide, given.high, by decide, by decide, fits₃, given.room⟩) ?_
  rintro ⟨stack, s₆⟩ ⟨place₆, new₆, build₆, writes₆⟩
  dsimp only at place₆ build₆ writes₆ ⊢
  rw [back place₆, ok_bind]
  have fits₆ := fits₃.cons (p := linear stack) (show stackSize ≤ 2 ^ 15 by decide)
  have refines₆ := refines₅.congr writes₆.same (build₅.off own)
  have funded₆ := funded₅.congr (by decide) writes₆.same (build₅.off own)
  have end₆ := build₆.kept.end_lt (g := ⟨linear stack, stackSize⟩) (List.mem_cons_self ..)
  change linear stack + 0x2000 < 2 ^ 40 at end₆
  rw [show stackSize = 0x2000 from rfl, Word.add_of_lt (by omega)]
  refine Delivers.bind (refines₆.mapUserRow (n := 3) valid₅ reached funded₆ end₆ (by decide) (by omega) (by omega))
    (fun given => ?_) ?_
  · have := given.enough
    have := kept.page_le
    omega
  rintro ⟨m₇, pgtable₇⟩ ⟨refines₇, same₇, -⟩
  have own₆ : ∀ x ∈ P.Bytes, ∃ g ∈ _ :: _ :: _ :: [(⟨linear ptr, sizeofTaskStruct⟩ : Grant)], g.owns x :=
    fun x inside => (own x inside).imp fun _ found => ⟨List.mem_cons_of_mem ⟨linear stack, stackSize⟩ found.1, found.2⟩
  have build₇ := build₆.write same₇ own₆
  dsimp only at refines₇ build₇ ⊢
  -- the stack for the kernel
  refine Delivers.bind (build₇.kmalloc fuel _ _) (fun given =>
    ⟨given.ample, given.enough, by decide, given.high, by decide, by decide, fits₆, given.room⟩) ?_
  rintro ⟨kernelStack, s₈⟩ ⟨place₈, new₈, build₈, writes₈⟩
  dsimp only at place₈ build₈ writes₈ ⊢
  rw [back place₈, ok_bind]
  have refines₈ := refines₇.congr writes₈.same (build₇.off own₆)
  have own₈ : ∀ x ∈ P.Bytes, ∃ g ∈ taskGrants (linear ptr) (linear pages) (linear nodes) (linear stack)
      (linear kernelStack), g.owns x :=
    fun x inside => (own₆ x inside).imp fun _ found => ⟨List.mem_cons_of_mem _ found.1, found.2⟩
  -- the copy of the kernel's half
  have apart : ∀ x ∈ P.Bytes, x ∉ K.Bytes := by
    intro x inside
    obtain ⟨g, mem, owns⟩ := own₈ x inside
    exact (build₈.own mem owns).2
  obtain ⟨copied, shared⟩ := copyUpper build₈.kept.table refines₈ apart
  have build₉ := build₈.write copied fun x inside =>
    own₈ x (refines₈.root_inside (Nat.le_trans (Nat.le_add_right _ _) inside.1) inside.2)
  refine .ok ⟨⟨fresh, taken⟩, linear pages, linear nodes, new₈, build₉, P, r, s₈.mem, refines₈, fun c mem => ?_,
    fun x inside => pool_owned_of_regions (housed x inside), apart, fun x _ off => copied x off,
    shared _ (Nat.le_of_eq kernelSlot_val.symm), fun j high => .inr (shared j high)⟩
  rcases List.mem_append.mp mem with mem | mem
  · exact valid₅ c mem
  · exact rowCalls_valid (by decide) (by decide) (show linear stack + 4096 * 3 < 2 ^ 40 + 4096 by omega) mem

end AlmeidaOS.Kernel
