import Mathlib.Tactic.SplitIfs
import AlmeidaOS.Laws.Mm.Pageframe

/-!
# Runs of the page-frame database

From `pageframe_init` on, whatever the calls of `pageframe_alloc` and `pageframe_free`, the free and the
used list part the frames among them: each frame is in one of the lists, and there once. What a call
does is told by the lists alone, also where it halts.
-/

namespace AlmeidaOS.Kernel

/-! ## The calls that keep their state -/

theorem pageframeAllocCall_ok {s t : Mem × PageframeDatabase} {a : Nat} :
    pageframeAllocCall s = .ok a t ↔ pageframeAlloc s.1 s.2 = .ok (a, t) := by
  by_cases empty : s.2.free = 0
  · have halts : bugOn (s.2.free = 0) = .error .bugOn := if_pos empty
    rw [pageframeAllocCall, Halting.reads_bind_error (fun s : Mem × PageframeDatabase => bugOn (s.2.free = 0)) halts,
      pageframeAlloc, halts, error_bind]
    simp
  · have passes := bugOn_of_not empty
    rw [pageframeAllocCall, Halting.reads_bind_ok (fun s : Mem × PageframeDatabase => bugOn (s.2.free = 0)) passes,
      pageframeAlloc, passes, ok_bind]
    show EStateM.Result.ok _ _ = _ ↔ Except.ok _ = _
    simp only [EStateM.Result.ok.injEq, Except.ok.injEq, Prod.mk.injEq]

theorem deleteNodeCall_ok {s t : Mem × PageframeDatabase} {fuel val item : Nat} :
    deleteNodeCall fuel val s = .ok item t ↔
      ∃ m used, deleteNode s.1 fuel s.2.used val = .ok (item, m, used) ∧ t = (m, ⟨s.2.free, used⟩) := by
  simp only [deleteNodeCall, deleteNode, Halting.bind_eq_ok, Halting.reads_eq_ok, bind_eq_ok]
  constructor
  · rintro ⟨pred, _, ⟨found, rfl⟩, _, _, got, _, _, stored, _, _, ⟨valid, rfl⟩, done⟩
    cases got
    cases stored
    cases done
    exact ⟨_, _, ⟨pred, found, (), valid, rfl⟩, rfl⟩
  · rintro ⟨m, used, ⟨pred, found, _, valid, done⟩, rfl⟩
    cases done
    exact ⟨pred, s, ⟨found, rfl⟩, s, s, rfl, ⟨⟩, _, rfl, (), _, ⟨valid, rfl⟩, rfl⟩

/-- Where `pageframe_free` returns, it leaves the state that `pageframeFree` gives. -/
theorem pageframeFreeCall_ok {s t : Mem × PageframeDatabase} {fuel a : Nat} :
    pageframeFreeCall fuel a s = .ok () t ↔ pageframeFree s.1 fuel s.2 a = .ok t := by
  simp only [pageframeFreeCall, pageframeFree, Halting.bind_eq_ok, Halting.reads_eq_ok, bind_eq_ok,
    deleteNodeCall_ok]
  constructor
  · rintro ⟨_, _, ⟨nonempty, rfl⟩, pf, _, ⟨m, used, deleted, rfl⟩, _, _, ⟨valid, rfl⟩, done⟩
    obtain ⟨-, rfl⟩ := EStateM.Result.ok.inj done
    exact ⟨(), nonempty, (pf, m, used), deleted, (), valid, rfl⟩
  · rintro ⟨_, nonempty, ⟨pf, m, used⟩, deleted, _, valid, done⟩
    obtain rfl := Except.ok.inj done
    exact ⟨(), s, ⟨nonempty, rfl⟩, pf, _, ⟨m, used, deleted, rfl⟩, (), _, ⟨valid, rfl⟩, rfl⟩

/-! ## The lists -/

/-- The list from a node on is finite, and its frames are those given. -/
def Listed (m : Mem) (head : Nat) (frames : List Nat) : Prop :=
  ∃ nodes, Chain (nextNode m) 0 head nodes ∧ nodes.map (phyAddr m) = frames

/-- The two lists hold each of the `n` frames from `base` on in one place. -/
structure FramePartition (base n : Nat) (s : Mem × PageframeDatabase) (free used : List Nat) : Prop where
  freeList : Listed s.1 s.2.free free
  usedList : Listed s.1 s.2.used used
  each : (free ++ used).Perm ((List.range n).map fun i => Word.add base (4096 * i))
  once : (free ++ used).Nodup

/-- What the calls do in a state: `pageframe_alloc` takes the first free frame, and halts when all are
used; `pageframe_free` takes a used frame back, and halts on any other address with nothing written. -/
structure FrameCalls (base n : Nat) (s : Mem × PageframeDatabase) (free used : List Nat) : Prop where
  alloc : ∀ a rest, free = a :: rest →
    ∃ t, pageframeAllocCall s = .ok a t ∧ a ∉ used ∧ FramePartition base n t rest (a :: used)
  exhausted : free = [] → pageframeAllocCall s = .error .bugOn s
  full : free = [] ↔ used.length = n
  release : ∀ a ∈ used, ∃ k t, (∀ fuel ≥ k, pageframeFreeCall fuel a s = .ok () t) ∧
    FramePartition base n t (a :: free) (used.erase a)
  refuse : ∀ a ∉ used, ∃ k, ∀ fuel ≥ k, pageframeFreeCall fuel a s = .error .bugOn s

/-- A step: one of the calls, or a write elsewhere than in the array of `n` nodes. -/
inductive FrameStep (nodes n : Nat) (s : Mem × PageframeDatabase) : Mem × PageframeDatabase → Prop
  | alloc {a : Nat} {t : Mem × PageframeDatabase} (run : pageframeAllocCall s = .ok a t) : FrameStep nodes n s t
  | free (fuel a : Nat) {t : Mem × PageframeDatabase} (run : pageframeFreeCall fuel a s = .ok () t) :
      FrameStep nodes n s t
  | elsewhere {m : Mem} (same : s.1.SameOff {x | ¬ (nodes ≤ x ∧ x < nodes + 16 * n)} m) :
      FrameStep nodes n s (m, s.2)

namespace Frames

variable {P : Frames} {s t : Mem × PageframeDatabase} {is js : List Nat}

theorem Lists.partition (lists : P.Lists s.1 s.2 is js) :
    FramePartition P.base P.count s (is.map P.frame) (js.map P.frame) := by
  have names : ∀ ks : List Nat, (∀ k ∈ ks, k < P.count) →
      (ks.map P.node).map (Kernel.phyAddr s.1) = ks.map P.frame := by
    intro ks inside
    rw [List.map_map]
    exact List.map_congr_left fun k mem => lists.phyAddr (inside k mem)
  refine ⟨⟨_, lists.freeList, names is fun _ mem => lists.lt_of_free mem⟩,
    ⟨_, lists.usedList, names js fun _ mem => lists.lt_of_used mem⟩, ?_, ?_⟩
  · rw [← List.map_append]
    exact lists.perm.map P.frame
  · rw [← List.map_append]
    refine lists.nodup.map_on fun i memi j memj same => ?_
    exact frame_inj (List.mem_range.mp (lists.perm.mem_iff.mp memi))
      (List.mem_range.mp (lists.perm.mem_iff.mp memj)) same

/-- On an address that is not in use the call reads the used list to its end. -/
theorem Lists.refuse (lists : P.Lists s.1 s.2 is js) {a : Nat} (missing : a ∉ js.map P.frame) (fuel : Nat) :
    pageframeFreeCall fuel a s =
      if js.length < fuel ∨ js = [] then .error .bugOn s else .error .outOfFuel s := by
  by_cases empty : js = []
  · have halts : bugOn (s.2.used = 0) = .error .bugOn :=
      if_pos (lists.usedList.head_eq_null.mpr (by rw [empty]; rfl))
    rw [if_pos (.inr empty)]
    exact Halting.reads_bind_error _ halts
  · have passes : bugOn (s.2.used = 0) = .ok () := by
      refine bugOn_of_not fun null => empty ?_
      exact List.map_eq_nil_iff.mp (lists.usedList.head_eq_null.mp null)
    have absent : ∀ j ∈ js, P.frame j ≠ a := fun j mem same => missing (List.mem_map.mpr ⟨j, mem, same⟩)
    have search := lists.findPredecessor_missing empty absent fuel
    have deleted : deleteNodeCall fuel a s =
        if js.length < fuel ∨ js = [] then .error .bugOn s else .error .outOfFuel s := by
      by_cases enough : js.length < fuel
      · rw [if_pos enough] at search
        rw [if_pos (.inl enough)]
        exact Halting.reads_bind_error _ search
      · rw [if_neg enough] at search
        rw [if_neg (by simp [enough, empty])]
        exact Halting.reads_bind_error _ search
    rw [pageframeFreeCall, Halting.reads_bind_ok (fun s : Mem × PageframeDatabase => bugOn (s.2.used = 0)) passes]
    by_cases enough : js.length < fuel ∨ js = []
    · rw [if_pos enough] at deleted ⊢
      exact Halting.bind_error deleted
    · rw [if_neg enough] at deleted ⊢
      exact Halting.bind_error deleted

theorem Lists.alloc (lists : P.Lists s.1 s.2 is js) {a : Nat} {rest : List Nat}
    (first : is.map P.frame = a :: rest) : ∃ t i is', pageframeAllocCall s = .ok a t ∧ is = i :: is' ∧
      P.frame i = a ∧ P.Lists t.1 t.2 is' (i :: js) := by
  obtain ⟨i, is', rfl, rfl, -⟩ := List.map_eq_cons_iff.mp first
  obtain ⟨m', pfdb', run, lists', -⟩ := lists.pageframeAlloc
  exact ⟨(m', pfdb'), i, is', pageframeAllocCall_ok.mpr run, rfl, rfl, lists'⟩

theorem Lists.release (lists : P.Lists s.1 s.2 is js) {i : Nat} (mem : i ∈ js) :
    ∃ t, P.Lists t.1 t.2 (i :: is) (js.erase i) ∧
      ∀ fuel, P.count ≤ fuel → pageframeFreeCall fuel (P.frame i) s = .ok () t := by
  obtain ⟨m', pfdb', lists', -, returns⟩ := lists.pageframeFree mem
  exact ⟨(m', pfdb'), lists', fun fuel enough => pageframeFreeCall_ok.mpr (returns.enough fuel enough)⟩

/-- Taking a frame out by its place is taking it out by its address. -/
theorem erase_frame {i : Nat} (lt : i < P.count) (inside : ∀ j ∈ js, j < P.count) :
    (js.map P.frame).erase (P.frame i) = (js.erase i).map P.frame := by
  induction js with
  | nil => rfl
  | cons x js ih =>
    by_cases here : x = i
    · rw [here, List.map_cons, List.erase_cons_head, List.erase_cons_head]
    · have other : P.frame x ≠ P.frame i := fun same => here (frame_inj (inside x (List.mem_cons_self ..)) lt same)
      rw [List.map_cons, List.erase_cons_tail (by simpa using other), List.erase_cons_tail (by simpa using here),
        ih fun j mem => inside j (List.mem_cons_of_mem _ mem), List.map_cons]

theorem Lists.calls (lists : P.Lists s.1 s.2 is js) :
    FrameCalls P.base P.count s (is.map P.frame) (js.map P.frame) where
  alloc := by
    intro a rest first
    obtain ⟨t, i, is', run, rfl, rfl, lists'⟩ := lists.alloc first
    have once := lists.partition.once
    obtain ⟨-, rfl⟩ := List.cons.inj first
    refine ⟨t, run, fun mem => ?_, lists'.partition⟩
    exact (List.nodup_cons.mp once).1 (List.mem_append_right _ mem)
  exhausted := by
    intro empty
    have halts : bugOn (s.2.free = 0) = .error .bugOn :=
      if_pos (lists.freeList.head_eq_null.mpr (by rw [List.map_eq_nil_iff.mp empty]; rfl))
    exact Halting.reads_bind_error _ halts
  full := by
    have total := lists.length
    rw [List.map_eq_nil_iff, List.length_map, ← List.length_eq_zero_iff]
    omega
  release := by
    intro a mem
    obtain ⟨i, memi, rfl⟩ := List.mem_map.mp mem
    obtain ⟨t, lists', run⟩ := lists.release memi
    refine ⟨P.count, t, run, ?_⟩
    rw [erase_frame (lists.lt_of_used memi) fun j memj => lists.lt_of_used memj]
    exact lists'.partition
  refuse := by
    intro a missing
    refine ⟨js.length + 1, fun fuel enough => ?_⟩
    rw [lists.refuse missing fuel, if_pos (.inl enough)]

theorem Lists.step (lists : P.Lists s.1 s.2 is js) (step : FrameStep P.nodes P.count s t) :
    ∃ is js, P.Lists t.1 t.2 is js := by
  cases step with
  | alloc run =>
    cases is with
    | nil =>
      rw [pageframeAllocCall_ok, lists.pageframeAlloc_nil] at run
      cases run
    | cons i is =>
      obtain ⟨m', pfdb', ran, lists', -⟩ := lists.pageframeAlloc
      rw [pageframeAllocCall_ok, ran] at run
      obtain ⟨-, rfl⟩ := Prod.mk.inj (Except.ok.inj run)
      exact ⟨is, i :: js, lists'⟩
  | free fuel a run =>
    by_cases mem : a ∈ js.map P.frame
    · obtain ⟨i, memi, rfl⟩ := List.mem_map.mp mem
      obtain ⟨m', pfdb', lists', -, returns⟩ := lists.pageframeFree memi
      obtain rfl := returns.only fuel _ (pageframeFreeCall_ok.mp run)
      exact ⟨_, _, lists'⟩
    · rw [lists.refuse mem fuel] at run
      split_ifs at run
  | elsewhere same => exact ⟨is, js, lists.congr same fun x inside outside => outside inside⟩

end Frames

/-- **The database parts its frames.** Over any two regions, the second in memory the linear map
reaches: `pageframe_init` returns, and in every state of a run from there on the free and the used list
hold each frame once, and the calls do what the lists say. -/
theorem pageframe_lists_partition (m₀ : Mem) {pagesRg pfdbRg : MemMapRegion} {n : Nat}
    (word : pagesRg.baseAddr < 2 ^ 64) (count : pfdbRg.length / sizeofPageframe = n)
    (mapped : pfdbRg.baseAddr + sizeofPageframe * n ≤ 2 ^ 47) :
    ∃ s, pageframeInit m₀ pagesRg pfdbRg = .ok s ∧
      ∀ t, Relation.ReflTransGen (FrameStep pfdbRg.baseAddr n) s t →
        ∃ free used, FramePartition pagesRg.baseAddr n t free used ∧ FrameCalls pagesRg.baseAddr n t free used := by
  let P : Frames := ⟨pagesRg.baseAddr, pfdbRg.baseAddr, n, word, mapped⟩
  obtain ⟨m, pfdb, init, lists, -⟩ := P.pageframeInit_spec m₀ rfl rfl count
  refine ⟨(m, pfdb), init, fun t run => ?_⟩
  obtain ⟨is, js, lists'⟩ := run_invariant (P := fun s => ∃ is js, P.Lists s.1 s.2 is js) run ⟨_, [], lists⟩
    fun _ _ ⟨_, _, lists⟩ step => lists.step step
  exact ⟨_, _, lists'.partition, lists'.calls⟩

/-- The nodes of three frames from `0x1000` on. -/
def threeFrames : MemMapRegion := ⟨0x8000, 48, e820MemTypeReserved⟩

theorem pageframe_lists_partition_three_frames :
    ∃ s, pageframeInit ⟨fun _ => 0⟩ ⟨0x1000, 0x3000, e820MemTypeReserved⟩ threeFrames = .ok s ∧
      ∀ t, Relation.ReflTransGen (FrameStep 0x8000 3) s t →
        ∃ free used, FramePartition 0x1000 3 t free used ∧ FrameCalls 0x1000 3 t free used :=
  pageframe_lists_partition _ (by decide) (by decide) (by decide)

end AlmeidaOS.Kernel
