import Mathlib.Data.List.Perm.Basic
import AlmeidaOS.Base.Chain
import AlmeidaOS.Kernel.Mm.Pageframe

/-!
# The page-frame database

A database has `count` frames, the first of them at `base`, and a node for each frame in an array at
`nodes`. `Frames.Lists` says what it means: the nodes name the frames, and the free and the used list
together hold every node once. Initialising builds it with every frame free, `pageframe_alloc` moves
the first free frame to the used list, `pageframe_free` moves a used frame back and halts on any other
address. None of them writes outside the array.

A pool is such an array whose frames are pages of memory apart from it, which is what the page tables
need.
-/

namespace AlmeidaOS.Kernel

/-! ## The linear map -/

theorem va_of_lt {a : Nat} (low : a < 2 ^ 47) : va a = .ok (virtAddrKernelStart + a) := by
  have top : ¬ a > physAddrMaxBoundary := by
    rw [show physAddrMaxBoundary = 2 ^ 48 - 1 by decide]
    omega
  have sum : Word.add virtAddrKernelStart a = virtAddrKernelStart + a :=
    Word.add_of_lt (by unfold virtAddrKernelStart; omega)
  simp only [va, bugOn_of_not top, ok_bind, sum, pure_eq_ok]

theorem linear_start {a : Nat} (low : a < 2 ^ 47) : linear (virtAddrKernelStart + a) = a := by
  unfold linear
  rw [Word.sub_of_le (by unfold virtAddrKernelStart; omega) (Nat.le_add_right _ _),
    Nat.add_sub_cancel_left]

theorem linear_add {a n : Nat} (low : a + n < 2 ^ 47) :
    linear (Word.add (virtAddrKernelStart + a) n) = a + n := by
  rw [Word.add_of_lt (by unfold virtAddrKernelStart; omega), Nat.add_assoc, linear_start low]

/-! ## Frames and their nodes -/

/-- Frames, the first of them at `base`, and the array of their nodes, in memory that the linear map
reaches. -/
structure Frames where
  base : Nat
  nodes : Nat
  count : Nat
  word : base < 2 ^ 64
  mapped : nodes + 16 * count ≤ 2 ^ 47

namespace Frames

/-- The address of a frame. -/
def frame (P : Frames) (i : Nat) : Nat := Word.add P.base (4096 * i)

/-- The pointer to a node. -/
def node (P : Frames) (i : Nat) : Nat := virtAddrKernelStart + (P.nodes + 16 * i)

/-- The bytes of the nodes. -/
def NodeBytes (P : Frames) : Set Nat := {x | P.nodes ≤ x ∧ x < P.nodes + 16 * P.count}

/-- What the database means: the frames of its free and its used list, by their place in the array. -/
structure Lists (P : Frames) (m : Mem) (pfdb : PageframeDatabase) (free used : List Nat) : Prop where
  phy : ∀ i < P.count, m.load64 (P.nodes + 16 * i) = P.frame i
  freeList : Chain (nextNode m) 0 pfdb.free (free.map P.node)
  usedList : Chain (nextNode m) 0 pfdb.used (used.map P.node)
  perm : (free ++ used).Perm (List.range P.count)

variable {P : Frames} {m m' : Mem} {pfdb : PageframeDatabase} {free used : List Nat} {i j : Nat}

theorem frame_lt (P : Frames) (i : Nat) : P.frame i < 2 ^ 64 := Word.add_lt ..

theorem frame_zero (P : Frames) : P.frame 0 = P.base := Nat.mod_eq_of_lt P.word

theorem frame_succ (P : Frames) (i : Nat) : Word.add (P.frame i) pageframeSize = P.frame (i + 1) := by
  unfold frame Word.add pageframeSize
  omega

/-- Two frames do not have one address: the array is too short for that. -/
theorem frame_inj (lti : i < P.count) (ltj : j < P.count) (same : P.frame i = P.frame j) : i = j := by
  have := P.mapped
  unfold frame Word.add at same
  omega

theorem node_ne_zero (P : Frames) (i : Nat) : P.node i ≠ 0 := by
  unfold node virtAddrKernelStart
  omega

theorem phyAddr_node (m : Mem) (lt : i < P.count) :
    phyAddr m (P.node i) = m.load64 (P.nodes + 16 * i) := by
  have := P.mapped
  rw [phyAddr, node, linear_start (by omega)]

theorem linear_next (lt : i < P.count) : linear (Word.add (P.node i) 8) = P.nodes + 16 * i + 8 := by
  have := P.mapped
  exact linear_add (by omega)

theorem nextNode_setNextNode {next : Nat} (word : next < 2 ^ 64) :
    nextNode (setNextNode m (P.node i) next) (P.node i) = next := by
  rw [nextNode, setNextNode, Mem.load64_store64 word]

theorem nextNode_setNextNode_of_ne (next : Nat) (lti : i < P.count) (ltj : j < P.count) (ne : j ≠ i) :
    nextNode (setNextNode m (P.node i) next) (P.node j) = nextNode m (P.node j) := by
  simp only [nextNode, setNextNode, linear_next lti, linear_next ltj]
  exact Mem.load64_store64_of_disjoint (by omega)

theorem phy_setNextNode (next : Nat) (lti : i < P.count) :
    (setNextNode m (P.node i) next).load64 (P.nodes + 16 * j) = m.load64 (P.nodes + 16 * j) := by
  rw [setNextNode, linear_next lti]
  exact Mem.load64_store64_of_disjoint (by omega)

theorem sameOff_setNextNode (next : Nat) (lti : i < P.count) :
    m.SameOff P.NodeBytes (setNextNode m (P.node i) next) := by
  rw [setNextNode, linear_next lti]
  exact .store64 fun x lower upper => ⟨by omega, by omega⟩

theorem node_lt (lt : i < P.count) : P.node i < 2 ^ 64 := by
  have := P.mapped
  unfold node virtAddrKernelStart
  omega

namespace Lists

variable (lists : P.Lists m pfdb free used)

include lists

theorem lt_of_free (mem : i ∈ free) : i < P.count :=
  List.mem_range.mp (lists.perm.mem_iff.mp (List.mem_append_left _ mem))

theorem lt_of_used (mem : i ∈ used) : i < P.count :=
  List.mem_range.mp (lists.perm.mem_iff.mp (List.mem_append_right _ mem))

theorem nodup : (free ++ used).Nodup := lists.perm.nodup_iff.mpr List.nodup_range

theorem not_used_of_free (mem : i ∈ free) : i ∉ used :=
  fun both => (List.nodup_append.mp lists.nodup).2.2 i mem i both rfl

theorem length : free.length + used.length = P.count := by
  rw [← List.length_append, lists.perm.length_eq, List.length_range]

theorem phyAddr (lt : i < P.count) : phyAddr m (P.node i) = P.frame i := by
  rw [phyAddr_node m lt, lists.phy i lt]

/-- The database depends on the bytes of its nodes only. -/
theorem congr {s : Set Nat} (same : m.SameOff s m') (off : ∀ x ∈ P.NodeBytes, x ∉ s) :
    P.Lists m' pfdb free used := by
  have link : ∀ i < P.count, nextNode m' (P.node i) = nextNode m (P.node i) := by
    intro i lt
    rw [nextNode, nextNode, linear_next lt]
    exact same.load64 fun x lower upper => off x ⟨by omega, by omega⟩
  refine ⟨fun i lt => ?_, ?_, ?_, lists.perm⟩
  · rw [← lists.phy i lt]
    exact same.load64 fun x lower upper => off x ⟨by omega, by omega⟩
  · refine lists.freeList.congr fun x mem => ?_
    obtain ⟨i, visited, rfl⟩ := List.mem_map.mp mem
    exact link i (lists.lt_of_free visited)
  · refine lists.usedList.congr fun x mem => ?_
    obtain ⟨i, visited, rfl⟩ := List.mem_map.mp mem
    exact link i (lists.lt_of_used visited)

end Lists

/-- Relinking one node changes nothing along a list that does not visit it. -/
theorem setNextNode_off {next : Nat} {is : List Nat} (lt : i < P.count)
    (inside : ∀ j ∈ is, j < P.count) (off : i ∉ is) :
    ∀ x ∈ is.map P.node, nextNode (setNextNode m (P.node i) next) x = nextNode m x := by
  intro x mem
  obtain ⟨j, visited, rfl⟩ := List.mem_map.mp mem
  refine nextNode_setNextNode_of_ne next lt (inside j visited) ?_
  rintro rfl
  exact off visited

/-- A list's head is a word. -/
theorem head_lt {p : Nat} {is : List Nat} (chain : Chain (nextNode m) 0 p (is.map P.node))
    (inside : ∀ j ∈ is, j < P.count) : p < 2 ^ 64 := by
  cases is with
  | nil =>
    obtain rfl : p = 0 := chain
    decide
  | cons i is =>
    obtain ⟨rfl, -⟩ := chain
    exact node_lt (inside i (List.mem_cons_self ..))

/-! ## Allocating a frame -/

theorem Lists.pageframeAlloc (lists : P.Lists m pfdb (i :: free) used) :
    ∃ m' pfdb', pageframeAlloc m pfdb = .ok (P.frame i, m', pfdb') ∧
      P.Lists m' pfdb' free (i :: used) ∧ m.SameOff P.NodeBytes m' := by
  have lt := lists.lt_of_free (List.mem_cons_self ..)
  obtain ⟨head, valid, rest⟩ := lists.freeList
  have fresh : i ∉ used := lists.not_used_of_free (List.mem_cons_self ..)
  have once : i ∉ free := by
    have := lists.nodup
    rw [List.cons_append, List.nodup_cons] at this
    exact fun mem => this.1 (List.mem_append_left _ mem)
  have word := head_lt lists.usedList fun j mem => lists.lt_of_used mem
  refine ⟨setNextNode m (P.node i) pfdb.used, ⟨nextNode m (P.node i), P.node i⟩, ?_, ⟨?_, ?_, ?_, ?_⟩,
    sameOff_setNextNode _ lt⟩
  · simp only [Kernel.pageframeAlloc, head, bugOn_of_not valid, ok_bind, pure_eq_ok, lists.phyAddr lt]
  · intro j ltj
    rw [phy_setNextNode _ lt]
    exact lists.phy j ltj
  · exact rest.congr
      (setNextNode_off lt (fun j mem => lists.lt_of_free (List.mem_cons_of_mem _ mem)) once)
  · exact lists.usedList.push (node_ne_zero P i) (nextNode_setNextNode word)
      (setNextNode_off lt (fun j mem => lists.lt_of_used mem) fresh)
  · exact List.perm_middle.trans lists.perm

/-- An empty free list halts the machine. -/
theorem Lists.pageframeAlloc_nil (lists : P.Lists m pfdb [] used) :
    Kernel.pageframeAlloc m pfdb = .error .bugOn := by
  have none : pfdb.free = 0 := lists.freeList
  simp only [Kernel.pageframeAlloc, none, bugOn, if_true, error_bind]

/-! ## Freeing a frame -/

/-- The search stops at the node before the one it looks for. -/
theorem findPredecessorLoop_spec {fuel p : Nat} {as bs : List Nat} {a : Nat}
    (named : ∀ j < P.count, Kernel.phyAddr m (P.node j) = P.frame j)
    (inside : ∀ j ∈ as ++ a :: i :: bs, j < P.count) (off : i ∉ as ++ [a])
    (chain : Chain (nextNode m) 0 p ((as ++ a :: i :: bs).map P.node)) :
    findPredecessorLoop m (P.frame i) fuel p =
      if as.length < fuel then .ok (P.node a) else .error .outOfFuel := by
  induction as generalizing fuel p with
  | nil =>
    obtain ⟨rfl, valid, next, validNext, -⟩ := chain
    cases fuel with
    | zero => rfl
    | succ fuel =>
      have found : nextNode m (P.node a) ≠ 0 ∧
          Kernel.phyAddr m (nextNode m (P.node a)) = P.frame i := by
        rw [next]
        exact ⟨validNext, named i (inside i (by simp))⟩
      rw [findPredecessorLoop, if_neg valid, if_pos found, if_pos (show [].length < fuel + 1 from Nat.succ_pos fuel)]
  | cons x as ih =>
    obtain ⟨rfl, valid, rest⟩ := chain
    replace rest : Chain (nextNode m) 0 (nextNode m (P.node x)) ((as ++ a :: i :: bs).map P.node) := rest
    have inside' : ∀ j ∈ as ++ a :: i :: bs, j < P.count :=
      fun j mem => inside j (List.mem_cons_of_mem _ mem)
    have off' : i ∉ as ++ [a] := fun mem => off (List.mem_cons_of_mem _ mem)
    cases fuel with
    | zero => rfl
    | succ fuel =>
      -- the successor of `x` is not the node we look for, so the search goes on
      have passed : ¬ (nextNode m (P.node x) ≠ 0 ∧
          Kernel.phyAddr m (nextNode m (P.node x)) = P.frame i) := by
        rintro ⟨-, named_i⟩
        obtain ⟨y, ys, split⟩ : ∃ y ys, as ++ a :: i :: bs = y :: ys ∧ y ∈ as ++ [a] := by
          cases as with
          | nil => exact ⟨a, i :: bs, rfl, by simp⟩
          | cons y as => exact ⟨y, as ++ a :: i :: bs, rfl, by simp⟩
        have here : nextNode m (P.node x) = P.node y := by
          have := rest
          rw [split.1] at this
          exact this.1
        rw [here, named y (inside' y (by rw [split.1]; exact List.mem_cons_self ..))] at named_i
        obtain rfl : y = i := frame_inj (inside' y (by rw [split.1]; exact List.mem_cons_self ..))
          (inside' i (by simp)) named_i
        exact off' split.2
      rw [findPredecessorLoop, if_neg valid, if_neg passed, ih inside' off' rest]
      simp only [List.length_cons, Nat.succ_lt_succ_iff]

/-- Taking a used frame out, and the fuel it takes. -/
theorem Lists.deleteNode {as bs : List Nat} (lists : P.Lists m pfdb free (as ++ i :: bs)) :
    ∃ m' head, (∀ fuel, deleteNode m fuel pfdb.used (P.frame i) =
        if as.length ≤ fuel then .ok (P.node i, m', head) else .error .outOfFuel) ∧
      Chain (nextNode m') 0 head ((as ++ bs).map P.node) ∧ m.SameOff P.NodeBytes m' ∧
      (∀ j, m'.load64 (P.nodes + 16 * j) = m.load64 (P.nodes + 16 * j)) ∧
      ∀ j ∈ free, nextNode m' (P.node j) = nextNode m (P.node j) := by
  have inside : ∀ j ∈ as ++ i :: bs, j < P.count := fun j mem => lists.lt_of_used mem
  have once := (List.nodup_append.mp lists.nodup).2.1
  have named := fun j (lt : j < P.count) => lists.phyAddr lt
  have lt := inside i (by simp)
  have valid : ¬ P.node i = 0 := node_ne_zero P i
  have chain := lists.usedList
  rcases List.eq_nil_or_concat as with rfl | ⟨as, a, rfl⟩
  · obtain ⟨head, -, rest⟩ := chain
    refine ⟨m, nextNode m (P.node i), fun fuel => ?_, rest, .refl _ m, fun _ => rfl, fun _ _ => rfl⟩
    rw [if_pos (show [].length ≤ fuel from Nat.zero_le fuel), Kernel.deleteNode, findPredecessor, head,
      named i lt, if_pos rfl]
    simp only [ok_bind, if_true, bugOn_of_not valid, pure_eq_ok]
  · simp only [List.concat_eq_append, List.append_assoc, List.singleton_append] at chain once inside ⊢
    have off : i ∉ as ++ [a] := by
      rw [show as ++ a :: i :: bs = (as ++ [a]) ++ i :: bs by simp] at once
      exact fun mem => (List.nodup_append.mp once).2.2 i mem i (List.mem_cons_self ..) rfl
    have lta := inside a (by simp)
    have target : nextNode m (P.node a) = P.node i := by
      rw [List.map_append] at chain
      exact chain.suffix.1
    have word : nextNode m (P.node i) < 2 ^ 64 := Mem.load64_lt ..
    -- the first node is not the one we look for
    have first : ¬ Kernel.phyAddr m pfdb.used = P.frame i := by
      obtain ⟨y, ys, split, mem⟩ : ∃ y ys, as ++ a :: i :: bs = y :: ys ∧ y ∈ as ++ [a] := by
        cases as with
        | nil => exact ⟨a, i :: bs, rfl, by simp⟩
        | cons y as => exact ⟨y, as ++ a :: i :: bs, rfl, by simp⟩
      rw [split] at chain inside
      rw [chain.1, named y (inside y (List.mem_cons_self ..))]
      intro same
      obtain rfl : y = i := frame_inj (inside y (List.mem_cons_self ..)) lt same
      exact off mem
    refine ⟨setNextNode m (P.node a) (nextNode m (P.node i)), pfdb.used, fun fuel => ?_, ?_,
      sameOff_setNextNode _ lta, fun j => phy_setNextNode _ lta, fun j mem => ?_⟩
    · rw [Kernel.deleteNode, findPredecessor, if_neg first,
        findPredecessorLoop_spec named inside off chain]
      simp only [List.length_append, List.length_singleton, Nat.succ_le_iff]
      by_cases enough : as.length < fuel
      · simp only [if_pos enough, ok_bind, if_neg (node_ne_zero P a), target, bugOn_of_not valid,
          pure_eq_ok]
      · simp only [if_neg enough, error_bind]
    · rw [List.map_append, List.map_cons, List.map_cons] at chain
      rw [List.map_append, List.map_cons]
      refine chain.unlink (nextNode_setNextNode word) ?_
      rw [← List.map_append]
      refine setNextNode_off lta (fun j mem => inside j ?_) fun mem => ?_
      · rcases List.mem_append.mp mem with mem | mem
        · simp [mem]
        · simp [mem]
      · rw [List.nodup_append] at once
        rcases List.mem_append.mp mem with mem | mem
        · exact once.2.2 a mem a (List.mem_cons_self ..) rfl
        · exact (List.nodup_cons.mp once.2.1).1 (List.mem_cons_of_mem _ mem)
    · refine nextNode_setNextNode_of_ne _ lta (lists.lt_of_free mem) ?_
      rintro rfl
      exact lists.not_used_of_free mem (by simp)

/-- Freeing a used frame. -/
theorem Lists.pageframeFree (lists : P.Lists m pfdb free used) (mem : i ∈ used) :
    ∃ m' pfdb', P.Lists m' pfdb' (i :: free) (used.erase i) ∧ m.SameOff P.NodeBytes m' ∧
      Returns (fun fuel => pageframeFree m fuel pfdb (P.frame i)) P.count (m', pfdb') := by
  obtain ⟨as, bs, rfl⟩ := List.append_of_mem mem
  obtain ⟨m₁, head, run, chain, same, phy, links⟩ := lists.deleteNode
  have lt := lists.lt_of_used mem
  have once := (List.nodup_append.mp lists.nodup).2.1
  have before : i ∉ as :=
    fun mem => (List.nodup_append.mp once).2.2 i mem i (List.mem_cons_self ..) rfl
  have after : i ∉ bs := (List.nodup_cons.mp (List.nodup_append.mp once).2.1).1
  have erased : (as ++ i :: bs).erase i = as ++ bs := by
    rw [List.erase_append_right _ before, List.erase_cons_head]
  have unused : i ∉ free := fun mem' => lists.not_used_of_free mem' mem
  have nonempty : ¬ pfdb.used = 0 := by
    rw [lists.usedList.head_eq_null]
    simp
  have answer : ∀ fuel, Kernel.pageframeFree m fuel pfdb (P.frame i) =
      if as.length ≤ fuel then .ok (setNextNode m₁ (P.node i) pfdb.free, ⟨P.node i, head⟩)
      else .error .outOfFuel := by
    intro fuel
    rw [Kernel.pageframeFree, bugOn_of_not nonempty, ok_bind, run fuel]
    by_cases enough : as.length ≤ fuel
    · simp only [if_pos enough, ok_bind, bugOn_of_not (node_ne_zero P i), pure_eq_ok]
    · simp only [if_neg enough, error_bind]
  have total := lists.length
  simp only [List.length_append, List.length_cons] at total
  have word := head_lt lists.freeList fun j mem => lists.lt_of_free mem
  refine ⟨setNextNode m₁ (P.node i) pfdb.free, ⟨P.node i, head⟩, ⟨?_, ?_, ?_, ?_⟩,
    same.trans (sameOff_setNextNode _ lt), ⟨fun fuel enough => ?_, fun fuel r ran => ?_⟩⟩
  · intro j ltj
    rw [phy_setNextNode _ lt, phy, lists.phy j ltj]
  · refine lists.freeList.push (node_ne_zero P i) (nextNode_setNextNode word) fun x visited => ?_
    rw [setNextNode_off lt (fun j mem => lists.lt_of_free mem) unused x visited]
    obtain ⟨j, mem, rfl⟩ := List.mem_map.mp visited
    exact links j mem
  · rw [erased]
    refine chain.congr (setNextNode_off lt (fun j mem => lists.lt_of_used ?_) ?_)
    · rcases List.mem_append.mp mem with mem | mem
      · simp [mem]
      · simp [mem]
    · simp [before, after]
  · rw [erased]
    refine List.Perm.trans ?_ lists.perm
    rw [List.cons_append, ← List.append_assoc, ← List.append_assoc]
    exact List.perm_middle.symm
  · rw [answer, if_pos (by omega)]
  · rw [answer] at ran
    split at ran
    · exact (Except.ok.inj ran).symm
    · cases ran

/-- The search runs off a list none of whose frames is the one it looks for. -/
theorem findPredecessorLoop_missing {val fuel p : Nat} {is : List Nat}
    (missing : ∀ j ∈ is, Kernel.phyAddr m (P.node j) ≠ val) (chain : Chain (nextNode m) 0 p (is.map P.node)) :
    findPredecessorLoop m val fuel p = if is.length < fuel then .error .bugOn else .error .outOfFuel := by
  induction is generalizing fuel p with
  | nil =>
    obtain rfl : p = 0 := chain
    cases fuel with
    | zero => rfl
    | succ fuel => rw [findPredecessorLoop, if_pos rfl, if_pos (show [].length < fuel + 1 from Nat.succ_pos fuel)]
  | cons x is ih =>
    obtain ⟨rfl, valid, rest⟩ := chain
    replace rest : Chain (nextNode m) 0 (nextNode m (P.node x)) (is.map P.node) := rest
    cases fuel with
    | zero => rfl
    | succ fuel =>
      have passed : ¬ (nextNode m (P.node x) ≠ 0 ∧ Kernel.phyAddr m (nextNode m (P.node x)) = val) := by
        rintro ⟨more, found⟩
        cases is with
        | nil => exact more rest
        | cons y is =>
          rw [rest.1] at found
          exact missing y (by simp) found
      rw [findPredecessorLoop, if_neg valid, if_neg passed,
        ih (fun j mem => missing j (List.mem_cons_of_mem _ mem)) rest]
      simp only [List.length_cons, Nat.succ_lt_succ_iff]

theorem Lists.findPredecessor_missing (lists : P.Lists m pfdb free used) {val : Nat} (nonempty : used ≠ [])
    (missing : ∀ j ∈ used, P.frame j ≠ val) (fuel : Nat) :
    findPredecessor m fuel pfdb.used val =
      if used.length < fuel then .error .bugOn else .error .outOfFuel := by
  have absent : ∀ j ∈ used, Kernel.phyAddr m (P.node j) ≠ val := by
    intro j mem
    rw [lists.phyAddr (lists.lt_of_used mem)]
    exact missing j mem
  have first : ¬ Kernel.phyAddr m pfdb.used = val := by
    obtain ⟨x, xs, rfl⟩ := List.exists_cons_of_ne_nil nonempty
    rw [lists.usedList.1]
    exact absent x (List.mem_cons_self ..)
  rw [findPredecessor, if_neg first, findPredecessorLoop_missing absent lists.usedList]

/-! ## Initialising the database -/

/-- One iteration: the node is named and put before the list so far. -/
theorem pageframeInitLoop_succ (m : Mem) (n head : Nat) (lt : i < P.count) :
    pageframeInitLoop (n + 1) m head (P.frame i) (P.nodes + 16 * i) =
      pageframeInitLoop n
        (setNextNode (m.store64 (P.nodes + 16 * i) (P.frame i)) (P.node i) head)
        (P.node i) (P.frame (i + 1)) (P.nodes + 16 * (i + 1)) := by
  have mapped := P.mapped
  have ptr : va (P.nodes + 16 * i) = .ok (P.node i) := va_of_lt (by omega)
  have target : linear (P.node i) = P.nodes + 16 * i := linear_start (by omega)
  -- both arms of the code's test link the node to the list so far
  have arms : ∀ m : Mem, (if head = 0 then setNextNode m (P.node i) 0
      else setNextNode m (P.node i) head) = setNextNode m (P.node i) head := by
    intro m
    split
    · next first => rw [first]
    · rfl
  have advanceNode : Word.add (P.nodes + 16 * i) sizeofPageframe = P.nodes + 16 * (i + 1) := by
    rw [show sizeofPageframe = 16 from rfl, Word.add_of_lt (by omega)]
    omega
  simp only [pageframeInitLoop, ptr, ok_bind, target, arms, P.frame_succ, advanceNode]

/-- The nodes are put before the list so far, so that the last frame comes first. -/
theorem pageframeInitLoop_spec {n k head : Nat} (sum : k + n = P.count)
    (phy : ∀ i < k, m.load64 (P.nodes + 16 * i) = P.frame i)
    (chain : Chain (nextNode m) 0 head ((List.range k).reverse.map P.node)) :
    ∃ m' head', pageframeInitLoop n m head (P.frame k) (P.nodes + 16 * k) = .ok (m', head') ∧
      P.Lists m' ⟨head', 0⟩ (List.range P.count).reverse [] ∧ m.SameOff P.NodeBytes m' := by
  induction n generalizing m k head with
  | zero =>
    obtain rfl : k = P.count := sum
    refine ⟨m, head, rfl, ⟨phy, chain, rfl, ?_⟩, .refl _ m⟩
    rw [List.append_nil]
    exact List.reverse_perm _
  | succ n ih =>
    have lt : k < P.count := by omega
    have earlier : ∀ j ∈ (List.range k).reverse, j < k := fun j mem => List.mem_range.mp (List.mem_reverse.mp mem)
    have inside : ∀ j ∈ (List.range k).reverse, j < P.count := fun j mem => Nat.lt_trans (earlier j mem) lt
    have word := head_lt chain inside
    let named := m.store64 (P.nodes + 16 * k) (P.frame k)
    have phy' : ∀ i < k + 1,
        (setNextNode named (P.node k) head).load64 (P.nodes + 16 * i) = P.frame i := by
      intro i lti
      rw [phy_setNextNode _ lt]
      by_cases last : i = k
      · rw [last, Mem.load64_store64 (P.frame_lt k)]
      · rw [Mem.load64_store64_of_disjoint (by omega), phy i (by omega)]
    have chain' : Chain (nextNode (setNextNode named (P.node k) head)) 0 (P.node k)
        ((List.range (k + 1)).reverse.map P.node) := by
      rw [List.range_succ, List.reverse_concat]
      refine chain.push (node_ne_zero P k) (nextNode_setNextNode word) fun x visited => ?_
      rw [setNextNode_off lt inside (fun mem => Nat.lt_irrefl k (earlier k mem)) x visited]
      obtain ⟨j, mem, rfl⟩ := List.mem_map.mp visited
      have before := earlier j mem
      simp only [nextNode, linear_next (inside j mem)]
      exact Mem.load64_store64_of_disjoint (by omega)
    obtain ⟨m', head', run, lists, same⟩ := ih (by omega) phy' chain'
    have first : m.SameOff P.NodeBytes named := .store64 fun x lower upper => ⟨by omega, by omega⟩
    rw [pageframeInitLoop_succ m n head lt]
    exact ⟨m', head', run, lists, (first.trans (sameOff_setNextNode _ lt)).trans same⟩

theorem pageframeInit_spec (P : Frames) (m : Mem) {pagesRg pfdbRg : MemMapRegion}
    (pages : pagesRg.baseAddr = P.base) (nodes : pfdbRg.baseAddr = P.nodes)
    (count : pfdbRg.length / 16 = P.count) :
    ∃ m' pfdb, pageframeInit m pagesRg pfdbRg = .ok (m', pfdb) ∧
      P.Lists m' pfdb (List.range P.count).reverse [] ∧ m.SameOff P.NodeBytes m' := by
  have nothing : Chain (nextNode m) 0 0 ((List.range 0).reverse.map P.node) := rfl
  obtain ⟨m', head, run, lists, same⟩ := pageframeInitLoop_spec (Nat.zero_add P.count)
    (fun i lt => absurd lt (Nat.not_lt_zero i)) nothing
  refine ⟨m', ⟨head, 0⟩, ?_, lists, same⟩
  rw [Nat.mul_zero, Nat.add_zero, P.frame_zero] at run
  rw [pageframeInit, pages, nodes, show sizeofPageframe = 16 from rfl, count]
  simp only [run, ok_bind, pure_eq_ok]

end Frames

/-! ## Pools -/

/-- A pool of frames and the array of their nodes. -/
structure Pool where
  first : Nat
  nodes : Nat
  count : Nat
  below : first + count ≤ 2 ^ 28
  mapped : nodes + 16 * count ≤ 2 ^ 47
  apart : 4096 * (first + count) ≤ nodes ∨ nodes + 16 * count ≤ 4096 * first

namespace Pool

/-- The pointer to a node. -/
def node (P : Pool) (i : Nat) : Nat := virtAddrKernelStart + (P.nodes + 16 * i)

/-- The bytes of the nodes. -/
def NodeBytes (P : Pool) : Set Nat := {x | P.nodes ≤ x ∧ x < P.nodes + 16 * P.count}

/-- What the database means: the frames of its free and its used list, by their place in the pool. -/
structure Lists (P : Pool) (m : Mem) (pfdb : PageframeDatabase) (free used : List Nat) : Prop where
  phy : ∀ i < P.count, m.load64 (P.nodes + 16 * i) = 4096 * (P.first + i)
  freeList : Chain (nextNode m) 0 pfdb.free (free.map P.node)
  usedList : Chain (nextNode m) 0 pfdb.used (used.map P.node)
  perm : (free ++ used).Perm (List.range P.count)

variable {P : Pool} {m m' : Mem} {pfdb : PageframeDatabase} {free used : List Nat} {i : Nat}

/-- The frames of a pool. -/
def frames (P : Pool) : Frames where
  base := 4096 * P.first
  nodes := P.nodes
  count := P.count
  word := by have := P.below; omega
  mapped := P.mapped

theorem frames_frame (lt : i < P.count) : P.frames.frame i = 4096 * (P.first + i) := by
  have := P.below
  show Word.add (4096 * P.first) (4096 * i) = _
  rw [Word.add_of_lt (by omega), ← Nat.mul_add]

theorem lists_iff : P.Lists m pfdb free used ↔ P.frames.Lists m pfdb free used := by
  constructor
  · intro lists
    exact ⟨fun i lt => (lists.phy i lt).trans (frames_frame lt).symm, lists.freeList, lists.usedList, lists.perm⟩
  · intro lists
    exact ⟨fun i lt => (lists.phy i lt).trans (frames_frame lt), lists.freeList, lists.usedList, lists.perm⟩

namespace Lists

variable (lists : P.Lists m pfdb free used)

include lists

theorem lt_of_free (mem : i ∈ free) : i < P.count := (lists_iff.mp lists).lt_of_free mem

theorem lt_of_used (mem : i ∈ used) : i < P.count := (lists_iff.mp lists).lt_of_used mem

theorem nodup : (free ++ used).Nodup := (lists_iff.mp lists).nodup

theorem not_used_of_free (mem : i ∈ free) : i ∉ used := (lists_iff.mp lists).not_used_of_free mem

theorem length : free.length + used.length = P.count := (lists_iff.mp lists).length

theorem phyAddr (lt : i < P.count) : phyAddr m (P.node i) = 4096 * (P.first + i) :=
  ((lists_iff.mp lists).phyAddr lt).trans (frames_frame lt)

theorem congr {s : Set Nat} (same : m.SameOff s m') (off : ∀ x ∈ P.NodeBytes, x ∉ s) :
    P.Lists m' pfdb free used := lists_iff.mpr ((lists_iff.mp lists).congr same off)

end Lists

theorem Lists.pageframeAlloc (lists : P.Lists m pfdb (i :: free) used) :
    ∃ m' pfdb', pageframeAlloc m pfdb = .ok (4096 * (P.first + i), m', pfdb') ∧
      P.Lists m' pfdb' free (i :: used) ∧ m.SameOff P.NodeBytes m' := by
  obtain ⟨m', pfdb', run, lists', same⟩ := (lists_iff.mp lists).pageframeAlloc
  rw [frames_frame (lists.lt_of_free (List.mem_cons_self ..))] at run
  exact ⟨m', pfdb', run, lists_iff.mpr lists', same⟩

theorem Lists.pageframeAlloc_nil (lists : P.Lists m pfdb [] used) :
    Kernel.pageframeAlloc m pfdb = .error .bugOn := (lists_iff.mp lists).pageframeAlloc_nil

theorem Lists.pageframeFree (lists : P.Lists m pfdb free used) (mem : i ∈ used) :
    ∃ m' pfdb', P.Lists m' pfdb' (i :: free) (used.erase i) ∧ m.SameOff P.NodeBytes m' ∧
      Returns (fun fuel => pageframeFree m fuel pfdb (4096 * (P.first + i))) P.count (m', pfdb') := by
  obtain ⟨m', pfdb', lists', same, returns⟩ := (lists_iff.mp lists).pageframeFree mem
  rw [frames_frame (lists.lt_of_used mem)] at returns
  exact ⟨m', pfdb', lists_iff.mpr lists', same, returns⟩

theorem pageframeInit_spec (m : Mem) {pagesRg pfdbRg : MemMapRegion}
    (pages : pagesRg.baseAddr = 4096 * P.first) (nodes : pfdbRg.baseAddr = P.nodes)
    (count : pfdbRg.length / 16 = P.count) :
    ∃ m' pfdb, pageframeInit m pagesRg pfdbRg = .ok (m', pfdb) ∧
      P.Lists m' pfdb (List.range P.count).reverse [] ∧ m.SameOff P.NodeBytes m' := by
  obtain ⟨m', pfdb, run, lists, same⟩ := P.frames.pageframeInit_spec m pages nodes count
  exact ⟨m', pfdb, run, lists_iff.mpr lists, same⟩

end Pool

end AlmeidaOS.Kernel
