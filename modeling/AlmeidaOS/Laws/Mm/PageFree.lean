import AlmeidaOS.Laws.Mm.PageAlloc

/-!
# `page_free`

To unmap a page is to clear its entry, and then to give back, from the bottom up, every table that
has become empty. `is_pagetable_empty` reads the first byte of a table 512 times, so a table looks
empty when its entry `0` has a zero low byte, whatever its other entries hold. `FreesCleanly` says
that no table is given back on that evidence alone, `givesBack 0` that even the root goes.

As long as every free is clean and keeps the root, a run of `page_alloc` and `page_free` keeps
`Tables`: freeing a page unmaps that page and no other, and the frames in use are the live tables.
-/

namespace AlmeidaOS.Kernel

open Radix

/-! ## When a table looks empty -/

/-- The physical address of the table a walk reads at a depth, the root at depth `0`. -/
def tableOnPath (m : Mem) (root v : Nat) : Nat → Nat
  | 0 => root
  | d + 1 => entryFrame (m.load64 (tableOnPath m root v d + 8 * levelIndex (4 - d) v))

/-- The first byte of the table at a depth is zero once the address's entry is cleared. -/
def looksEmpty (m : Mem) (root v d : Nat) : Prop :=
  levelIndex (4 - d) v = 0 ∨ m (tableOnPath m root v d) = 0

/-- The table at a depth and all tables below it look empty: `page_free` gives it back. -/
def givesBack (m : Mem) (root v d : Nat) : Prop := ∀ k, d ≤ k → k ≤ 3 → looksEmpty m root v k

/-- The table at a depth has no entry but the address's own. -/
def onlyEntry (m : Mem) (root v d : Nat) : Prop :=
  ∀ j < 512, j ≠ levelIndex (4 - d) v → m.load64 (tableOnPath m root v d + 8 * j) = 0

/-- What `page_free` gives back is empty. -/
def FreesCleanly (m : Mem) (root v : Nat) : Prop :=
  ∀ d ≤ 3, givesBack m root v d → onlyEntry m root v d

/-! ## The tables on the way -/

/-- The index of an address at a depth. -/
def index (v : Nat) : Nat → Fin 512
  | 0 => pml4Index v
  | 1 => pdpIndex v
  | 2 => pdIndex v
  | _ => ptIndex v

theorem levelIndex_eq (v : Nat) {d : Nat} (le : d ≤ 3) : levelIndex (4 - d) v = index v d := by
  match d with
  | 0 => rfl
  | 1 => rfl
  | 2 => rfl
  | 3 => rfl
  | _ + 4 => omega

/-- The number of the table at a depth. -/
def tableNumber (m : Mem) (r v : Nat) : Nat → Nat
  | 0 => r
  | d + 1 => frameNumber (entries m (tableNumber m r v d) (index v d))

theorem tableOnPath_eq (m : Mem) (r v : Nat) {d : Nat} (le : d ≤ 3) :
    tableOnPath m (4096 * r) v d = 4096 * tableNumber m r v d := by
  induction d with
  | zero => rfl
  | succ d ih =>
    rw [tableOnPath, ih (by omega), levelIndex_eq v (by omega), entryFrame_eq]
    rfl

/-- The way to a table. -/
def pathTo (v d : Nat) : List (Fin 512) := (path v).take d

theorem pathTo_length (v : Nat) {d : Nat} (le : d ≤ 3) : (pathTo v d).length = d := by
  rw [pathTo, List.length_take, path_length, Nat.min_eq_left le]

theorem pathTo_succ (v : Nat) {d : Nat} (lt : d < 3) : pathTo v (d + 1) = pathTo v d ++ [index v d] := by
  match d with
  | 0 => rfl
  | 1 => rfl
  | 2 => rfl
  | _ + 3 => omega

/-- The tables on the way to a page are there, down to its entry. -/
structure Mapped (m : Mem) (r v : Nat) : Prop where
  reach : ∀ d ≤ 3, reach frameNumber (entries m) r (pathTo v d) = some (tableNumber m r v d)
  entry : ∀ d ≤ 3, entries m (tableNumber m r v d) (index v d) ≠ 0

theorem mapped_of_walk {m : Mem} {r v : Nat} (found : (walk m (4096 * r) v).isSome) : Mapped m r v := by
  classical
  have walks : Walks frameNumber (present · = true) (entries m) r (path v) (ptIndex v) := by
    by_contra no
    rw [walk_eq, if_neg no] at found
    cases found
  have leaf : lookup frameNumber (entries m) r (path v) (ptIndex v) ≠ 0 :=
    present_ne_zero (walks _ _ (List.prefix_refl _))
  have met : ∀ d ≤ 3, lookup frameNumber (entries m) r (pathTo v d) (index v d) ≠ 0 := by
    intro d le
    refine lookup_ne_zero_on_way leaf ?_
    match d with
    | 0 => simp [pathTo, path, index]
    | 1 => simp [pathTo, path, index]
    | 2 => simp [pathTo, path, index]
    | 3 => simp [pathTo, path, index]
    | _ + 4 => omega
  have steps : ∀ d ≤ 3, Radix.reach frameNumber (entries m) r (pathTo v d) = some (tableNumber m r v d) ∧
      entries m (tableNumber m r v d) (index v d) ≠ 0 := by
    intro d
    induction d with
    | zero => exact fun le => ⟨rfl, met 0 le⟩
    | succ d ih =>
      intro le
      obtain ⟨at_, here⟩ := ih (by omega)
      have next : Radix.reach frameNumber (entries m) r (pathTo v (d + 1)) =
          some (tableNumber m r v (d + 1)) := by
        rw [pathTo_succ v (by omega), reach_snoc, at_, Option.bind_some, child_of_ne_zero here]
        rfl
      exact ⟨next, lookup_of_reach next _ ▸ met (d + 1) le⟩
  exact ⟨fun d le => (steps d le).1, fun d le => (steps d le).2⟩

/-! ## One level -/

/-- The page's entry is gone and every other page is walked to as before. -/
structure Cleared (v r : Nat) (E E' : Store Nat (Fin 512) Nat) : Prop where
  gone : lookup frameNumber E' r (path v) (ptIndex v) = 0
  leaf : ∀ js j, js.length = 3 → ¬ (js = path v ∧ j = ptIndex v) →
    lookup frameNumber E' r js j = lookup frameNumber E r js j
  walks : ∀ js j, js.length = 3 → ¬ (js = path v ∧ j = ptIndex v) →
    (Walks frameNumber (present · = true) E' r js j ↔ Walks frameNumber (present · = true) E r js j)

theorem Cleared.trans {v r : Nat} {E E' E'' : Store Nat (Fin 512) Nat} (cleared : Cleared v r E E')
    (leaf : ∀ js j, js.length = 3 → lookup frameNumber E'' r js j = lookup frameNumber E' r js j)
    (walks : ∀ js j, js.length = 3 → (Walks frameNumber (present · = true) E'' r js j ↔
      Walks frameNumber (present · = true) E' r js j)) : Cleared v r E E'' :=
  ⟨(leaf _ _ (path_length v)).trans cleared.gone,
    fun js j depth other => (leaf js j depth).trans (cleared.leaf js j depth other),
    fun js j depth other => (walks js j depth).trans (cleared.walks js j depth other)⟩

theorem Cleared.agree {v r : Nat} {E E' E'' : Store Nat (Fin 512) Nat} (cleared : Cleared v r E E')
    (same : ∀ t ∈ Radix.tables frameNumber 3 E' r, E'' t = E' t) : Cleared v r E E'' :=
  cleared.trans (fun _ j depth => lookup_agree same (Nat.le_of_eq depth) j)
    fun _ _ depth => Walks.congr depth fun _ p short _ => lookup_agree same short p

/-- The bytes of the tables from a depth on. -/
def belowBytes (m : Mem) (r v d : Nat) : Set Nat :=
  {x | ∃ k, d ≤ k ∧ k ≤ 3 ∧ x / 4096 = tableNumber m r v k}

/-- What `page_free_resources` has done when it returns from the table at depth `d`: the table is
given back when it and all below it look empty, and is then still linked from above; otherwise the
page table is in order again. -/
structure FreedAt (P : Pool) (m : Mem) (r v d : Nat) (released : Bool) (m' : Mem)
    (pfdb' : PageframeDatabase) : Prop where
  answer : released = true ↔ givesBack m (4096 * r) v d
  same : m.SameOff (P.NodeBytes ∪ belowBytes m r v d) m'
  cleared : Cleared v r (entries m) (entries m')
  kept : released = false → ∃ free used, Tables P m' pfdb' r free used
  back : released = true → ∃ free used n, tableNumber m r v d = P.first + n ∧ n ∈ used ∧
    P.Lists m' pfdb' (n :: free) (used.erase n) ∧ Shape P (entries m') r free used ∧
    ∀ j, entries m' (tableNumber m r v d) j = 0

/-- What a level does with the answer from below. -/
def releaseTable (fuel t : Nat) (i : Fin 512) (below : Bool × Mem × PageframeDatabase) :
    Outcome (Bool × Mem × PageframeDatabase) :=
  if below.1 then
    if below.2.1.store64 (4096 * t + 8 * i) 0 (4096 * t) = 0 then do
      let (m, pfdb) ← pageframeFree (below.2.1.store64 (4096 * t + 8 * i) 0) fuel below.2.2 (4096 * t)
      pure (true, m, pfdb)
    else pure (false, below.2.1.store64 (4096 * t + 8 * i) 0, below.2.2)
  else pure (false, below.2.1, below.2.2)

theorem isPagetableEmpty_eq (m : Mem) {t : Nat} (low : t < 2 ^ 28) :
    isPagetableEmpty m (virtAddrKernelStart + 4096 * t) = decide (m (4096 * t) = 0) := by
  rw [isPagetableEmpty, linear_start (by omega)]
  rw [Bool.eq_iff_iff]
  simp only [List.all_eq_true, decide_eq_true_eq]
  exact ⟨fun all => all 0 (by simp), fun zero _ _ => zero⟩

theorem pageFreeResources_succ {m : Mem} {pfdb : PageframeDatabase} {t v level : Nat} {i : Fin 512}
    (fuel : Nat) (low : t < 2 ^ 28) (at_ : levelIndex (level + 1) v = i) :
    pageFreeResources fuel v (level + 1) m pfdb (4096 * t) =
      pageFreeResources fuel v level m pfdb (4096 * frameNumber (entries m t i)) >>=
        releaseTable fuel t i := by
  have small := i.isLt
  have slot : Word.add (4096 * t) (i * 8) = 4096 * t + 8 * i := by
    rw [Word.add_of_lt (by omega), Nat.mul_comm (i : Nat)]
  have below : extractBitChunk 12 51 (m.load64 (4096 * t + 8 * i)) <<< pageShift =
      4096 * frameNumber (entries m t i) := entryFrame_eq _
  rw [pageFreeResources, at_, slot, va_of_lt (by omega), va_of_lt (by omega), ok_bind, ok_bind,
    linear_start (by omega), below]
  refine congrArg (pageFreeResources fuel v level m pfdb (4096 * frameNumber (entries m t i)) >>= ·)
    (funext fun x => ?_)
  obtain ⟨released, m₁, pfdb₁⟩ := x
  simp only [releaseTable, Mem.fill_eq_store64, isPagetableEmpty_eq _ low, decide_eq_true_eq]

theorem sameOff_frame {m : Mem} {s : Set Nat} {k e : Nat} (i : Fin 512)
    (inside : ∀ x, x / 4096 = k → x ∈ s) : m.SameOff s (m.store64 (4096 * k + 8 * i) e) := by
  have small := i.isLt
  exact .store64 fun x lower upper => inside x (by omega)

section Levels

variable {P : Pool} {m : Mem} {pfdb : PageframeDatabase} {r v d : Nat} {free used : List Nat}

/-- The tables on the way are frames of the pool, all different. -/
theorem Tables.tableNumber_lt (T : Tables P m pfdb r free used) (mapped : Mapped m r v) (le : d ≤ 3) :
    tableNumber m r v d < 2 ^ 28 :=
  T.reach_lt (mapped.reach d le) (by rw [pathTo_length v le]; exact le)

theorem Tables.tableNumber_ne (T : Tables P m pfdb r free used) (mapped : Mapped m r v) {k : Nat}
    (le : d ≤ 3) (le' : k ≤ 3) (ne : d ≠ k) : tableNumber m r v d ≠ tableNumber m r v k := by
  intro same
  have paths := T.shape.tree _ _ _ (by rw [pathTo_length v le]; exact le)
    (by rw [pathTo_length v le']; exact le') (mapped.reach d le) (same ▸ mapped.reach k le')
  have lengths := congrArg List.length paths
  rw [pathTo_length v le, pathTo_length v le'] at lengths
  exact ne lengths

/-- A table above those written is as it was. -/
theorem Tables.upper_byte (T : Tables P m pfdb r free used) (mapped : Mapped m r v) {m' : Mem}
    (le : d ≤ 3) (same : m.SameOff (P.NodeBytes ∪ belowBytes m r v (d + 1)) m') {x : Nat}
    (here : x / 4096 = tableNumber m r v d) : m' x = m x := by
  refine same x ?_
  rintro (inNodes | ⟨k, lower, upper, there⟩)
  · obtain ⟨n, -, lt, frame⟩ := T.frame_of_reach (mapped.reach d le)
      (by rw [pathTo_length v le]; exact le)
    have apart := P.apart
    obtain ⟨low, high⟩ := inNodes
    omega
  · exact T.tableNumber_ne mapped le upper (by omega) (here.symm.trans there)

theorem Tables.upper_entries (T : Tables P m pfdb r free used) (mapped : Mapped m r v) {m' : Mem}
    (le : d ≤ 3) (same : m.SameOff (P.NodeBytes ∪ belowBytes m r v (d + 1)) m') (j : Fin 512) :
    entries m' (tableNumber m r v d) j = entries m (tableNumber m r v d) j := by
  have small := j.isLt
  exact Mem.load_congr fun x lower upper => T.upper_byte mapped le same (by omega)

/-- A level gives its table back when the levels below do and its own table looks empty. -/
theorem givesBack_iff_looksEmpty (le : d ≤ 3) (below : givesBack m (4096 * r) v (d + 1)) :
    givesBack m (4096 * r) v d ↔ looksEmpty m (4096 * r) v d := by
  constructor
  · exact fun all => all d (Nat.le_refl d) le
  · intro here k lower upper
    rcases Nat.eq_or_lt_of_le lower with rfl | more
    · exact here
    · exact below k more upper

/-- The byte the code tests is the low byte of entry 0, after the level's entry is cleared. -/
theorem Tables.tested_byte (T : Tables P m pfdb r free used) (mapped : Mapped m r v) (le : d ≤ 3) {m₁ : Mem}
    (same : m.SameOff (P.NodeBytes ∪ belowBytes m r v (d + 1)) m₁) :
    m₁.store64 (4096 * tableNumber m r v d + 8 * index v d) 0 (4096 * tableNumber m r v d) = 0 ↔
      looksEmpty m (4096 * r) v d := by
  rw [looksEmpty, levelIndex_eq v le, tableOnPath_eq m r v le]
  by_cases first : (index v d : Nat) = 0
  · have word := Mem.load64_store64 (m := m₁) (a := 4096 * tableNumber m r v d + 8 * index v d) (v := 0) (by decide)
    have zero := Mem.load_eq_zero_iff.mp word (4096 * tableNumber m r v d) (by omega) (by omega)
    exact ⟨fun _ => .inl first, fun _ => zero⟩
  · have old : m₁.store64 (4096 * tableNumber m r v d + 8 * index v d) 0 (4096 * tableNumber m r v d) =
        m (4096 * tableNumber m r v d) := by
      refine (Mem.store_byte (by omega)).trans (T.upper_byte mapped le same ?_)
      omega
    rw [old]
    exact ⟨fun zero => .inr zero, fun or => or.resolve_left first⟩

/-- A table whose only entry is cleared is all zero. -/
theorem Tables.cleared_entries (T : Tables P m pfdb r free used) (mapped : Mapped m r v) (le : d ≤ 3) {m₁ : Mem}
    (same : m.SameOff (P.NodeBytes ∪ belowBytes m r v (d + 1)) m₁) (only : onlyEntry m (4096 * r) v d) (j : Fin 512) :
    entries (m₁.store64 (4096 * tableNumber m r v d + 8 * index v d) 0) (tableNumber m r v d) j = 0 := by
  rw [entries_store64 m₁ (tableNumber m r v d) (index v d) (by decide)]
  by_cases own : j = index v d
  · rw [own, put_self]
  · rw [put_of_ne _ _ fun h => own h.2, T.upper_entries mapped le same]
    have zero := only j j.isLt (by
      rw [levelIndex_eq v le]
      exact fun eq => own (Fin.ext eq))
    rwa [tableOnPath_eq m r v le] at zero

/-- The end of a level, once the entry is cleared and the page table is in order: the table is given
back when it looks empty. -/
theorem Tables.release (T : Tables P m pfdb r free used) (mapped : Mapped m r v) (le : d ≤ 3)
    (clean : givesBack m (4096 * r) v d → onlyEntry m (4096 * r) v d)
    (below : givesBack m (4096 * r) v (d + 1)) {m₁ : Mem} {pfdb₁ : PageframeDatabase}
    (same : m.SameOff (P.NodeBytes ∪ belowBytes m r v (d + 1)) m₁) {free' used' : List Nat}
    (T' : Tables P (m₁.store64 (4096 * tableNumber m r v d + 8 * index v d) 0) pfdb₁ r free' used')
    (at_ : reach frameNumber (entries (m₁.store64 (4096 * tableNumber m r v d + 8 * index v d) 0)) r
      (pathTo v d) = some (tableNumber m r v d))
    (cleared : Cleared v r (entries m)
      (entries (m₁.store64 (4096 * tableNumber m r v d + 8 * index v d) 0))) :
    ∃ released m' pfdb', Returns
        (fun fuel => releaseTable fuel (tableNumber m r v d) (index v d) (true, m₁, pfdb₁)) P.count
        (released, m', pfdb') ∧ FreedAt P m r v d released m' pfdb' := by
  let t := tableNumber m r v d
  let m₂ := m₁.store64 (4096 * t + 8 * index v d) 0
  have split := givesBack_iff_looksEmpty le below
  have byte := T.tested_byte mapped le same
  have inside : ∀ x, x / 4096 = t → x ∈ P.NodeBytes ∪ belowBytes m r v d :=
    fun x here => .inr ⟨d, Nat.le_refl d, le, here⟩
  have widen : m.SameOff (P.NodeBytes ∪ belowBytes m r v d) m₁ := same.mono fun x mem =>
    mem.imp id fun ⟨k, lower, upper, there⟩ => ⟨k, by omega, upper, there⟩
  have same₂ := widen.trans (sameOff_frame (e := 0) (index v d) inside)
  by_cases looks : looksEmpty m (4096 * r) v d
  · -- what looks empty is empty, by the condition
    have zero := T.cleared_entries mapped le same (clean (split.mpr looks))
    obtain ⟨n, inUse, lt, frame⟩ := T'.frame_of_reach at_ (by rw [pathTo_length v le]; exact le)
    obtain ⟨m₃, pfdb₃, lists, sameNodes, returns⟩ := T'.lists.pageframeFree inUse
    rw [← frame] at returns
    have agree : ∀ n < P.count, entries m₃ (P.first + n) = entries m₂ (P.first + n) :=
      fun n lt => P.entries_sameOff sameNodes lt
    have agreeT : ∀ k ∈ Radix.tables frameNumber 3 (entries m₂) r, entries m₃ k = entries m₂ k := by
      intro k mem
      obtain ⟨n, inUse, rfl⟩ := (T'.shape.tables k).mp mem
      exact agree n (T'.lists.lt_of_used inUse)
    refine ⟨true, m₃, pfdb₃, ?_, ⟨fun _ => split.mpr looks, fun _ => rfl⟩,
      same₂.trans (sameNodes.mono fun x mem => .inl mem), cleared.agree agreeT, fun no => ?_, fun _ => ?_⟩
    · simp only [releaseTable, if_true, if_pos (byte.mpr looks)]
      exact returns.bind (g := fun _ (x : Mem × PageframeDatabase) => pure (true, x.1, x.2)) (.ok P.count _)
    · cases no
    · refine ⟨free', used', n, frame, inUse, lists, T'.shape.agree fun n mem => agree n ?_, fun j => ?_⟩
      · exact mem.elim (fun mem => T'.lists.lt_of_free mem) fun mem => T'.lists.lt_of_used mem
      · rw [frame, agree n lt, ← frame]
        exact zero j
  · refine ⟨false, m₂, pfdb₁, ?_, ⟨fun yes => ?_, fun all => absurd (split.mp all) looks⟩, same₂, cleared,
      fun _ => ⟨free', used', T'⟩, fun yes => ?_⟩
    · simp only [releaseTable, if_true, if_neg (mt byte.mp looks)]
      exact .ok _ _
    · cases yes
    · cases yes

/-- The way down to a depth is as it was when only tables below were written. -/
theorem Tables.upper_reach (T : Tables P m pfdb r free used) (mapped : Mapped m r v) {m' : Mem}
    (le : d ≤ 3) (same : m.SameOff (P.NodeBytes ∪ belowBytes m r v (d + 1)) m') {k : Nat} (up : k ≤ d) :
    reach frameNumber (entries m') r (pathTo v k) = some (tableNumber m r v k) := by
  induction k with
  | zero => rfl
  | succ k ih =>
    have higher : m.SameOff (P.NodeBytes ∪ belowBytes m r v (k + 1)) m' := same.mono fun x mem =>
      mem.imp id fun ⟨j, lower, upper, there⟩ => ⟨j, by omega, upper, there⟩
    have entry := T.upper_entries mapped (show k ≤ 3 by omega) higher (index v k)
    have old := mapped.entry k (by omega)
    rw [pathTo_succ v (by omega), reach_snoc, ih (by omega), Option.bind_some,
      child_of_ne_zero (by rw [entry]; exact old), entry]
    rfl

/-- The page's own table: its entry is cleared. -/
theorem Tables.freedAt_leaf (T : Tables P m pfdb r free used) (mapped : Mapped m r v)
    (clean : FreesCleanly m (4096 * r) v) :
    ∃ released m' pfdb', Returns
        (fun fuel => releaseTable fuel (tableNumber m r v 3) (index v 3) (true, m, pfdb)) P.count
        (released, m', pfdb') ∧ FreedAt P m r v 3 released m' pfdb' := by
  have at_ : reach frameNumber (entries m) r (path v) = some (tableNumber m r v 3) :=
    mapped.reach 3 (Nat.le_refl 3)
  obtain ⟨n, inUse, lt, frame⟩ := T.frame_of_reach at_ (Nat.le_of_eq (path_length v))
  have written := entries_store64 m (tableNumber m r v 3) (index v 3) (show 0 < 2 ^ 64 by decide)
  have shape := T.shape.setLeaf (fun n mem => T.lists.not_used_of_free mem) at_ (path_length v)
    (index v 3) 0
  obtain ⟨lists, -⟩ := Tables.lists_store T.lists lt (index v 3) 0
  rw [← frame] at lists
  have entry : ∀ js j, js.length ≤ 3 →
      lookup frameNumber ((entries m).put (tableNumber m r v 3) (index v 3) 0) r js j =
        if js = path v ∧ j = ptIndex v then 0 else lookup frameNumber (entries m) r js j :=
    fun js j bound => lookup_setLeaf T.shape.tree at_ (path_length v) bound
  refine T.release mapped (Nat.le_refl 3) (clean 3 (Nat.le_refl 3))
    (fun k lower upper => absurd lower (by omega)) (.refl _ m) ⟨lists, written ▸ shape⟩ ?_ ?_
  · rw [written]
    exact reach_put_self T.shape.tree at_ (Nat.le_of_eq (path_length v))
  · rw [written]
    refine ⟨?_, fun js j depth other => ?_, fun js j depth other => ?_⟩
    · rw [entry _ _ (Nat.le_of_eq (path_length v)), if_pos ⟨rfl, rfl⟩]
    · rw [entry js j (Nat.le_of_eq depth), if_neg other]
    · exact Walks.setLeaf depth (path_length v)
        (fun ps p short ne => (entry ps p short).trans (if_neg ne)) other

/-- A table above: the link to a table that was given back is cleared. -/
theorem Tables.freedAt_link (T : Tables P m pfdb r free used) (mapped : Mapped m r v)
    (clean : FreesCleanly m (4096 * r) v) (lt : d < 3) {m₁ : Mem} {pfdb₁ : PageframeDatabase}
    (freed : FreedAt P m r v (d + 1) true m₁ pfdb₁) :
    ∃ released m' pfdb', Returns
        (fun fuel => releaseTable fuel (tableNumber m r v d) (index v d) (true, m₁, pfdb₁)) P.count
        (released, m', pfdb') ∧ FreedAt P m r v d released m' pfdb' := by
  have le : d ≤ 3 := by omega
  have short : (pathTo v d).length < 3 := by rw [pathTo_length v le]; exact lt
  obtain ⟨free₁, used₁, n, child, inUse, lists₁, shape₁, zero⟩ := freed.back rfl
  obtain ⟨nd, -, ltd, frame⟩ := T.frame_of_reach (mapped.reach d le) (Nat.le_of_lt short)
  have at₁ := T.upper_reach mapped le freed.same (Nat.le_refl d)
  have link : Radix.child frameNumber (entries m₁) (tableNumber m r v d) (index v d) =
      some (P.first + n) := by
    rw [child_of_ne_zero, T.upper_entries mapped le freed.same, ← child]
    · rfl
    · rw [T.upper_entries mapped le freed.same]
      exact mapped.entry d le
  rw [child] at zero
  have once : used₁.Nodup := by
    refine (List.perm_cons_erase inUse).nodup_iff.mpr ?_
    have all := lists₁.nodup
    rw [List.cons_append, List.nodup_cons] at all
    exact List.nodup_cons.mpr ⟨fun mem => all.1 (List.mem_append_right _ mem),
      (List.nodup_append.mp all.2).2.1⟩
  have written := entries_store64 m₁ (tableNumber m r v d) (index v d) (show 0 < 2 ^ 64 by decide)
  have shape := shape₁.unlink once at₁ short link zero
  obtain ⟨lists, -⟩ := Tables.lists_store lists₁ ltd (index v d) 0
  rw [← frame] at lists
  have entry : ∀ js j, js.length ≤ 3 →
      lookup frameNumber ((entries m₁).put (tableNumber m r v d) (index v d) 0) r js j =
        if js = pathTo v d ∧ j = index v d then 0 else lookup frameNumber (entries m₁) r js j :=
    fun js j bound => lookup_unlink shape₁.tree at₁ short link zero bound
  have under : ∀ q, lookup frameNumber (entries m₁) r (pathTo v d ++ [index v d]) q = 0 := by
    intro q
    have reached : reach frameNumber (entries m₁) r (pathTo v d ++ [index v d]) = some (P.first + n) := by
      rw [reach_snoc, at₁, Option.bind_some, link]
    rw [lookup_of_reach reached]
    exact zero q
  refine T.release mapped le (clean d le) (freed.answer.mp rfl) freed.same ⟨lists, written ▸ shape⟩ ?_ ?_
  · rw [written]
    exact reach_put_self shape₁.tree at₁ (Nat.le_of_lt short)
  · rw [written]
    refine freed.cleared.trans (fun js j depth => ?_) fun js j depth => ?_
    · rw [entry js j (Nat.le_of_eq depth), if_neg]
      rintro ⟨rfl, -⟩
      omega
    · exact Walks.of_blocked depth short (by decide)
        (fun ps p bound ne => (entry ps p bound).trans (if_neg ne)) under

/-- Every level, from the page's table up. -/
theorem Tables.freedAt (T : Tables P m pfdb r free used) (mapped : Mapped m r v)
    (clean : FreesCleanly m (4096 * r) v) (level : Nat) (le : level ≤ 3) :
    ∃ released m' pfdb', Returns (fun fuel =>
        pageFreeResources fuel v (level + 1) m pfdb (4096 * tableNumber m r v (3 - level))) P.count
        (released, m', pfdb') ∧ FreedAt P m r v (3 - level) released m' pfdb' := by
  have unfolded : ∀ level ≤ 3, (fun fuel =>
      pageFreeResources fuel v (level + 1) m pfdb (4096 * tableNumber m r v (3 - level))) = fun fuel =>
      pageFreeResources fuel v level m pfdb (4096 * tableNumber m r v (3 - level + 1)) >>=
        releaseTable fuel (tableNumber m r v (3 - level)) (index v (3 - level)) := by
    intro level le
    funext fuel
    have low := T.tableNumber_lt mapped (show 3 - level ≤ 3 by omega)
    have at_ := levelIndex_eq v (show 3 - level ≤ 3 by omega)
    rw [show 4 - (3 - level) = level + 1 by omega] at at_
    exact pageFreeResources_succ fuel low at_
  induction level with
  | zero =>
    rw [unfolded 0 le]
    exact T.freedAt_leaf mapped clean
  | succ level ih =>
    obtain ⟨released, m₁, pfdb₁, returns, freed⟩ := ih (by omega)
    rw [unfolded (level + 1) le]
    have up : 3 - (level + 1) + 1 = 3 - level := by omega
    rw [← up] at returns freed
    cases released with
    | true =>
      obtain ⟨released, m', pfdb', last, here⟩ := T.freedAt_link mapped clean (by omega) freed
      exact ⟨released, m', pfdb', returns.bind last, here⟩
    | false =>
      have stop : ¬ givesBack m (4096 * r) v (3 - (level + 1)) := fun all =>
        Bool.false_ne_true (freed.answer.mpr fun k lower upper => all k (by omega) upper)
      refine ⟨false, m₁, pfdb₁, returns.bind (.ok _ _), ⟨fun yes => ?_, fun all => absurd all stop⟩,
        freed.same.mono fun x mem => mem.imp id fun ⟨k, lower, upper, there⟩ => ⟨k, by omega, upper, there⟩,
        freed.cleared, freed.kept, fun yes => ?_⟩
      · cases yes
      · cases yes

end Levels

/-! ## The call -/

/-- What `page_free` has done to the walks. -/
theorem Cleared.walk_eq {m m' : Mem} {v r : Nat} (cleared : Cleared v r (entries m) (entries m')) :
    walk m' (4096 * r) v = none ∧
      ∀ u, ¬ samePage v u → walk m' (4096 * r) u = walk m (4096 * r) u := by
  classical
  refine ⟨?_, fun u other => ?_⟩
  · rw [Kernel.walk_eq, if_neg]
    intro walks
    have last := walks _ _ (List.prefix_refl _)
    rw [cleared.gone] at last
    exact present_ne_zero last rfl
  · have off : ¬ (path u = path v ∧ ptIndex u = ptIndex v) := fun same =>
      other (samePage_iff.mpr ⟨same.1.symm, same.2.symm⟩)
    rw [Kernel.walk_eq, Kernel.walk_eq, cleared.leaf _ _ (path_length u) off]
    simp only [cleared.walks _ _ (path_length u) off]

theorem Tables.pageFree {P : Pool} {m : Mem} {pgtable : PageTable} {r v : Nat} {free used : List Nat}
    (T : Tables P m pgtable.pfdb r free used) (rooted : pgtable.physRoot = 4096 * r)
    (mapped : (walk m pgtable.physRoot v).isSome) (clean : FreesCleanly m pgtable.physRoot v) :
    ∃ released m' pfdb', Returns (fun fuel => pageFree fuel m pgtable v) P.count
        (m', { pgtable with pfdb := pfdb' }) ∧ FreedAt P m r v 0 released m' pfdb' := by
  rw [rooted] at mapped clean
  obtain ⟨released, m', pfdb', returns, freed⟩ :=
    T.freedAt (mapped_of_walk mapped) clean 3 (Nat.le_refl 3)
  rw [show 4096 * tableNumber m r v (3 - 3) = pgtable.physRoot from rooted.symm] at returns
  refine ⟨released, m', pfdb', ?_, freed⟩
  exact returns.bind (g := fun _ (x : Bool × Mem × PageframeDatabase) =>
    pure (x.2.1, ({ pgtable with pfdb := x.2.2 } : PageTable))) (.ok P.count _)

/-! ## Runs -/

/-- Memory and a page table in it. -/
structure PageState where
  mem : Mem
  pgtable : PageTable

/-- A call that returned: `page_alloc` with an entry that is not zero, or `page_free` of a mapped page
that is clean and keeps the root. -/
inductive CleanStep (shiftBits : Nat) (pagesRg : MemMapRegion) (s : PageState) : PageState → Prop
  | alloc {v p flags : Nat} {m' : Mem} {pgtable' : PageTable}
      (flagged : flags % 2 ^ 12 ≠ 0 ∨ pagesRg.baseAddr ≠ 0)
      (run : pageAlloc shiftBits s.mem s.pgtable v p flags = .ok (m', pgtable')) :
      CleanStep shiftBits pagesRg s ⟨m', pgtable'⟩
  | free {fuel v : Nat} {m' : Mem} {pgtable' : PageTable}
      (mapped : (walk s.mem s.pgtable.physRoot v).isSome)
      (clean : FreesCleanly s.mem s.pgtable.physRoot v)
      (keeps : ¬ givesBack s.mem s.pgtable.physRoot v 0)
      (run : pageFree fuel s.mem s.pgtable v = .ok (m', pgtable')) :
      CleanStep shiftBits pagesRg s ⟨m', pgtable'⟩

/-- The frames on a list of the database. -/
def framesOn (m : Mem) (head : Nat) : Set Nat :=
  {a | ∃ nodes, Chain (nextNode m) 0 head nodes ∧ ∃ p ∈ nodes, phyAddr m p = a}

/-- The frames reachable from a root through non-zero entries of levels 4 to 2. -/
def liveFrames (m : Mem) (root : Nat) : Set Nat :=
  {a | ∃ t ∈ Radix.tables frameNumber 3 (entries m) (root / 4096), a = 4096 * t}

theorem mem_framesOn {P : Pool} {m : Mem} {head : Nat} {is : List Nat}
    (chain : Chain (nextNode m) 0 head (is.map P.node))
    (named : ∀ i ∈ is, phyAddr m (P.node i) = 4096 * (P.first + i)) (a : Nat) :
    a ∈ framesOn m head ↔ ∃ i ∈ is, a = 4096 * (P.first + i) := by
  constructor
  · rintro ⟨nodes, other, p, mem, rfl⟩
    rw [other.unique chain] at mem
    obtain ⟨i, visited, rfl⟩ := List.mem_map.mp mem
    exact ⟨i, visited, named i visited⟩
  · rintro ⟨i, mem, rfl⟩
    exact ⟨_, chain, P.node i, List.mem_map.mpr ⟨i, mem, rfl⟩, named i mem⟩

theorem framesOn_null (m : Mem) : framesOn m 0 = ∅ := by
  refine Set.eq_empty_of_forall_notMem fun a mem => ?_
  obtain ⟨nodes, chain, p, visited, -⟩ := mem
  rw [chain.head_eq_null.mp rfl] at visited
  cases visited

theorem root_mem_liveFrames (m : Mem) {root : Nat} (aligned : 4096 ∣ root) : root ∈ liveFrames m root :=
  ⟨root / 4096, ⟨[], Nat.zero_le 3, rfl⟩, (Nat.mul_div_cancel' aligned).symm⟩

/-- What a run of clean steps keeps. -/
structure InOrder (P : Pool) (r : Nat) (s : PageState) : Prop where
  tables : ∃ free used, Tables P s.mem s.pgtable.pfdb r free used
  physRoot : s.pgtable.physRoot = 4096 * r
  virtRoot : s.pgtable.virtRoot = virtAddrKernelStart + 4096 * r

theorem InOrder.step {P : Pool} {r shiftBits : Nat} {pagesRg : MemMapRegion} {s s' : PageState}
    (fits : 4096 * (P.first + P.count) ≤ 2 ^ shiftBits) (base : pagesRg.baseAddr = 4096 * P.first)
    (order : InOrder P r s) (step : CleanStep shiftBits pagesRg s s') : InOrder P r s' := by
  obtain ⟨free, used, T⟩ := order.tables
  cases step with
  | alloc flagged run =>
    have flagged' : _ ∨ 0 < P.first := flagged.imp id (by omega)
    rcases T.pageAlloc order.virtRoot flagged' (.of_le fits r) with
      ⟨fail, -⟩ | ⟨m', pfdb', free', used', ran, -, T', -⟩
    · rw [fail] at run
      cases run
    · rw [ran] at run
      cases run
      exact ⟨⟨free', used', T'⟩, order.physRoot, order.virtRoot⟩
  | free mapped clean keeps run =>
    obtain ⟨released, m', pfdb', returns, freed⟩ := T.pageFree order.physRoot mapped clean
    cases returns.only _ _ run
    cases released with
    | true =>
      rw [order.physRoot] at keeps
      exact absurd (freed.answer.mp rfl) keeps
    | false => exact ⟨freed.kept rfl, order.physRoot, order.virtRoot⟩

/-- Every state of a run from a new table is in order. -/
theorem PoolRegions.inOrder {shiftBits : Nat} (wide : 36 ≤ shiftBits) {pagesRg pfdbRg : MemMapRegion}
    (regions : PoolRegions (2 ^ 36) pagesRg pfdbRg) {m m₀ : Mem} {pgtable₀ : PageTable}
    (init : Kernel.pagingInit m pagesRg pfdbRg = .ok (m₀, pgtable₀)) {s : PageState}
    (run : Relation.ReflTransGen (CleanStep shiftBits pagesRg) ⟨m₀, pgtable₀⟩ s) :
    ∃ r, InOrder (regions.pool (by decide)) r s := by
  obtain ⟨m₁, pgtable₁, r, n, ran, physRoot, virtRoot, -, -, T, -, -⟩ := regions.pagingInit (by decide) m
  cases ran.symm.trans init
  have start : InOrder (regions.pool (by decide)) r ⟨m₀, pgtable₀⟩ :=
    ⟨⟨_, [n], T⟩, physRoot, virtRoot⟩
  exact ⟨r, run_invariant (P := InOrder (regions.pool (by decide)) r) run start fun _ _ order step =>
    order.step (regions.fits wide) (Nat.mul_div_cancel' regions.aligned).symm step⟩

/-- **`page_free` isolates**, when no table is given back on its first byte alone: from a new table on,
after any calls that are clean and keep the root, freeing a mapped page unmaps it, leaves the
translation of every other page, and puts only frames of zeros on the free list. -/
theorem page_free_isolates_when_clean {shiftBits : Nat} (wide : 36 ≤ shiftBits)
    {pagesRg pfdbRg : MemMapRegion} (regions : PoolRegions (2 ^ 36) pagesRg pfdbRg) {m m₀ : Mem}
    {pgtable₀ : PageTable} (init : pagingInit m pagesRg pfdbRg = .ok (m₀, pgtable₀)) {s : PageState}
    (run : Relation.ReflTransGen (CleanStep shiftBits pagesRg) ⟨m₀, pgtable₀⟩ s) {v : Nat}
    (mapped : (walk s.mem s.pgtable.physRoot v).isSome)
    (clean : FreesCleanly s.mem s.pgtable.physRoot v) :
    ∃ m' pgtable', Returns (fun fuel => pageFree fuel s.mem s.pgtable v) (pfdbRg.length / 16)
        (m', pgtable') ∧
      walk m' pgtable'.physRoot v = none ∧
      (∀ u, ¬ samePage v u → walk m' pgtable'.physRoot u = walk s.mem s.pgtable.physRoot u) ∧
      ∀ a ∈ framesOn m' pgtable'.pfdb.free, ∀ j < 512, m'.load64 (a + 8 * j) = 0 := by
  obtain ⟨r, order⟩ := regions.inOrder wide init run
  obtain ⟨free, used, T⟩ := order.tables
  obtain ⟨released, m', pfdb', returns, freed⟩ := T.pageFree order.physRoot mapped clean
  have translation := freed.cleared.walk_eq
  rw [← order.physRoot] at translation
  refine ⟨m', _, returns, translation.1, translation.2, ?_⟩
  -- whether or not the root went, every frame on the free list is zero
  obtain ⟨free', used', lists, clear⟩ : ∃ free' used', (regions.pool (by decide)).Lists m' pfdb' free' used' ∧
      ∀ i ∈ free', ∀ j, entries m' ((regions.pool (by decide)).first + i) j = 0 := by
    cases released with
    | false =>
      obtain ⟨free', used', T'⟩ := freed.kept rfl
      exact ⟨free', used', T'.lists, T'.shape.clear⟩
    | true =>
      obtain ⟨free', used', n, frame, -, lists, shape, zero⟩ := freed.back rfl
      refine ⟨n :: free', used'.erase n, lists, fun i mem j => ?_⟩
      rcases List.mem_cons.mp mem with rfl | mem
      · rw [← frame]
        exact zero j
      · exact shape.clear i mem j
  intro a mem j lt
  obtain ⟨i, visited, rfl⟩ := (mem_framesOn lists.freeList
    (fun i mem => lists.phyAddr (lists.lt_of_free mem)) a).mp mem
  exact clear i visited ⟨j, lt⟩

/-- The four frames after a call of `page_alloc`. -/
def fourFramesMap (s : Mem × PageTable) (v p : Nat) : Mem × PageTable :=
  (pageAlloc 36 s.1 s.2 v p 3).getD s

/-- The four frames after a call of `page_free`. -/
def fourFramesUnmap (s : Mem × PageTable) (v : Nat) : Mem × PageTable := (pageFree 4 s.1 s.2 v).getD s

theorem fourFramesMap_ok (s : Mem × PageTable) (v p : Nat)
    (returns : (pageAlloc 36 s.1 s.2 v p 3).isOk = true) :
    pageAlloc 36 s.1 s.2 v p 3 = .ok (fourFramesMap s v p) :=
  Outcome.eq_ok_of_isOk s returns

theorem fourFramesUnmap_ok (s : Mem × PageTable) (v : Nat)
    (returns : (pageFree 4 s.1 s.2 v).isOk = true) : pageFree 4 s.1 s.2 v = .ok (fourFramesUnmap s v) :=
  Outcome.eq_ok_of_isOk s returns

/-- Page `0` of a table, and then also page `1`: the first byte of the table is not zero. -/
def zeroPage : Mem × PageTable := fourFramesMap fourFramesInit 0 0x99000

@[inherit_doc zeroPage]
def firstPages : Mem × PageTable := fourFramesMap zeroPage 0x1000 0x9a000

theorem firstPages_run : Relation.ReflTransGen (CleanStep 36 fourFrames)
    ⟨fourFramesInit.1, fourFramesInit.2⟩ ⟨firstPages.1, firstPages.2⟩ := by
  have first : CleanStep 36 fourFrames ⟨fourFramesInit.1, fourFramesInit.2⟩ ⟨zeroPage.1, zeroPage.2⟩ :=
    .alloc (.inl (by decide)) (fourFramesMap_ok fourFramesInit 0 0x99000 (by decide +kernel))
  have second : CleanStep 36 fourFrames ⟨zeroPage.1, zeroPage.2⟩ ⟨firstPages.1, firstPages.2⟩ :=
    .alloc (.inl (by decide)) (fourFramesMap_ok zeroPage 0x1000 0x9a000 (by decide +kernel))
  exact .tail (.single first) second

theorem firstPages_clean : FreesCleanly firstPages.1 firstPages.2.physRoot 0x1000 := by
  intro d le back
  have looks : levelIndex 1 0x1000 = 0 ∨ firstPages.1 (tableOnPath firstPages.1 firstPages.2.physRoot 0x1000 3)
    = 0 := back 3 le (Nat.le_refl 3)
  exact absurd looks (by decide +kernel)

theorem page_free_isolates_first_pages :
    ∃ m' pgtable', Returns (fun fuel => pageFree fuel firstPages.1 firstPages.2 0x1000) 4 (m', pgtable') ∧
      walk m' pgtable'.physRoot 0x1000 = none ∧
      walk m' pgtable'.physRoot 0 = some (0x99000, 3) := by
  obtain ⟨m', pgtable', returns, gone, others, -⟩ := page_free_isolates_when_clean (Nat.le_refl 36)
    fourFrames_regions fourFrames_init firstPages_run (v := 0x1000) (by decide +kernel) firstPages_clean
  exact ⟨m', pgtable', returns, gone, (others 0 (by decide)).trans (by decide +kernel)⟩

/-- Page `1` of a table, and then also page `2`: the first byte of the table is zero. -/
def onePage : Mem × PageTable := fourFramesMap fourFramesInit 0x1000 0x99000

@[inherit_doc onePage]
def laterPages : Mem × PageTable := fourFramesMap onePage 0x2000 0x9a000

theorem onePage_ok : pageAlloc 36 fourFramesInit.1 fourFramesInit.2 0x1000 0x99000 3 = .ok onePage :=
  fourFramesMap_ok fourFramesInit 0x1000 0x99000 (by decide +kernel)

/-- Freeing one of two pages unmaps both: the table that holds the other one looks empty. -/
theorem page_free_unmaps_a_neighbour :
    pageAllocs 36 fourFramesInit.1 fourFramesInit.2 [⟨0x1000, 0x99000, 3⟩, ⟨0x2000, 0x9a000, 3⟩] =
        .ok laterPages ∧
      (walk laterPages.1 laterPages.2.physRoot 0x1000).isSome ∧ ¬ samePage 0x1000 0x2000 ∧
      walk laterPages.1 laterPages.2.physRoot 0x2000 = some (0x9a000, 3) ∧
      pageFree 4 laterPages.1 laterPages.2 0x1000 = .ok (fourFramesUnmap laterPages 0x1000) ∧
      walk (fourFramesUnmap laterPages 0x1000).1 (fourFramesUnmap laterPages 0x1000).2.physRoot 0x2000 =
        none := by
  have second : pageAlloc 36 onePage.1 onePage.2 0x2000 0x9a000 3 = .ok laterPages :=
    fourFramesMap_ok onePage 0x2000 0x9a000 (by decide +kernel)
  refine ⟨?_, by decide +kernel, by decide, by decide +kernel,
    fourFramesUnmap_ok laterPages 0x1000 (by decide +kernel), by decide +kernel⟩
  exact (pageAllocs_cons (c := ⟨0x1000, 0x99000, 3⟩) onePage_ok).trans
    ((pageAllocs_cons (c := ⟨0x2000, 0x9a000, 3⟩) second).trans (pageAllocs_nil 36 laterPages))

/-- **Frame accounting**: after any calls that are clean and keep the root, the frames on the used list
are the live tables, the root among them, and no live table is on the free list. -/
theorem used_frames_are_live_tables {shiftBits : Nat} (wide : 36 ≤ shiftBits)
    {pagesRg pfdbRg : MemMapRegion} (regions : PoolRegions (2 ^ 36) pagesRg pfdbRg) {m m₀ : Mem}
    {pgtable₀ : PageTable} (init : pagingInit m pagesRg pfdbRg = .ok (m₀, pgtable₀)) {s : PageState}
    (run : Relation.ReflTransGen (CleanStep shiftBits pagesRg) ⟨m₀, pgtable₀⟩ s) :
    framesOn s.mem s.pgtable.pfdb.used = liveFrames s.mem s.pgtable.physRoot ∧
      s.pgtable.physRoot ∈ framesOn s.mem s.pgtable.pfdb.used ∧
      ∀ a ∈ liveFrames s.mem s.pgtable.physRoot, a ∉ framesOn s.mem s.pgtable.pfdb.free := by
  obtain ⟨r, order⟩ := regions.inOrder wide init run
  obtain ⟨free, used, T⟩ := order.tables
  have root : s.pgtable.physRoot / 4096 = r := by
    rw [order.physRoot]
    omega
  have inUse := mem_framesOn T.lists.usedList fun i mem => T.lists.phyAddr (T.lists.lt_of_used mem)
  have inFree := mem_framesOn T.lists.freeList fun i mem => T.lists.phyAddr (T.lists.lt_of_free mem)
  have live : ∀ a, a ∈ liveFrames s.mem s.pgtable.physRoot ↔
      ∃ i ∈ used, a = 4096 * ((regions.pool (by decide)).first + i) := by
    intro a
    rw [liveFrames, root]
    simp only [T.shape.tables]
    constructor
    · rintro ⟨t, ⟨i, mem, rfl⟩, rfl⟩
      exact ⟨i, mem, rfl⟩
    · rintro ⟨i, mem, rfl⟩
      exact ⟨_, ⟨i, mem, rfl⟩, rfl⟩
  have same : framesOn s.mem s.pgtable.pfdb.used = liveFrames s.mem s.pgtable.physRoot := by
    ext a
    rw [inUse, live]
  refine ⟨same, ?_, fun a isLive isFree => ?_⟩
  · rw [same]
    exact root_mem_liveFrames s.mem ⟨r, order.physRoot⟩
  · obtain ⟨i, mem, here⟩ := (live a).mp isLive
    obtain ⟨k, memFree, there⟩ := (inFree a).mp isFree
    obtain rfl : i = k := by omega
    exact T.lists.not_used_of_free memFree mem

theorem used_frames_are_live_first_pages :
    framesOn firstPages.1 firstPages.2.pfdb.used = liveFrames firstPages.1 firstPages.2.physRoot ∧
      firstPages.2.physRoot ∈ framesOn firstPages.1 firstPages.2.pfdb.used ∧
      ∀ a ∈ liveFrames firstPages.1 firstPages.2.physRoot,
        a ∉ framesOn firstPages.1 firstPages.2.pfdb.free := by
  have live := used_frames_are_live_tables (Nat.le_refl 36) fourFrames_regions fourFrames_init firstPages_run
  exact live

/-- Freeing the only page puts the root on the free list and leaves the used list empty, while the page
table still names the root. -/
theorem page_free_gives_back_the_root :
    pageAlloc 36 fourFramesInit.1 fourFramesInit.2 0x1000 0x99000 3 = .ok onePage ∧
      (walk onePage.1 onePage.2.physRoot 0x1000).isSome ∧
      pageFree 4 onePage.1 onePage.2 0x1000 = .ok (fourFramesUnmap onePage 0x1000) ∧
      (fourFramesUnmap onePage 0x1000).2.physRoot = onePage.2.physRoot ∧
      phyAddr (fourFramesUnmap onePage 0x1000).1 (fourFramesUnmap onePage 0x1000).2.pfdb.free =
        onePage.2.physRoot ∧
      framesOn (fourFramesUnmap onePage 0x1000).1 (fourFramesUnmap onePage 0x1000).2.pfdb.used ≠
        liveFrames (fourFramesUnmap onePage 0x1000).1 (fourFramesUnmap onePage 0x1000).2.physRoot := by
  refine ⟨onePage_ok, by decide +kernel, fourFramesUnmap_ok onePage 0x1000 (by decide +kernel),
    by decide +kernel, by decide +kernel, ?_⟩
  have nothing : (fourFramesUnmap onePage 0x1000).2.pfdb.used = 0 := by decide +kernel
  have root := root_mem_liveFrames (fourFramesUnmap onePage 0x1000).1
    (show 4096 ∣ (fourFramesUnmap onePage 0x1000).2.physRoot by decide +kernel)
  rw [nothing]
  intro same
  rw [← same, framesOn_null] at root
  exact root

end AlmeidaOS.Kernel
