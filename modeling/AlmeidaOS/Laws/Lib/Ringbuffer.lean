import Mathlib.Data.List.GetD
import AlmeidaOS.Kernel.Lib.Ringbuffer
import AlmeidaOS.Kernel.Lib.String

/-!
# The ring buffer holds the last items

After any number of calls of `ringbuffer_put` the rows hold the last items, as many as there are rows,
item `k` in row `k % size` (`KeepsLast`), and `ringbuffer_for_each` visits them from the oldest to the
newest.
-/

namespace AlmeidaOS.Kernel

/-- The ring buffer after the given items. What a row holds behind the bytes of its item is not said:
`ringbuffer_put` leaves it. -/
structure KeepsLast (size : Nat) (buf : Ringbuffer) (items : List (List UInt8)) : Prop where
  sized : buf.size = size
  head : buf.head = if items.length = 0 then -1 else if items.length ≤ size then 0 else ((items.length % size : Nat) : Int)
  tail : buf.tail = if items.length = 0 then -1 else (((items.length - 1) % size : Nat) : Int)
  rows : ∀ k, k < items.length → items.length ≤ k + size → ∀ i, i < (items.getD k []).length →
    buf.data (k % size) i = (items.getD k []).getD i 0

theorem ringbufferInit_keepsLast {buf : Ringbuffer} {size : Nat} (sized : buf.size = size) :
    KeepsLast size (ringbufferInit buf) [] where
  sized := sized
  head := rfl
  tail := rfl
  rows := fun k inside => absurd inside (Nat.not_lt_zero k)

section Indices

variable {size n : Nat} (pos : 0 < size)

include pos in
/-- The row before that of item `n`. -/
theorem pred_mod (some : 0 < n) : (n - 1) % size = if n % size = 0 then size - 1 else n % size - 1 := by
  obtain ⟨p, rfl⟩ : ∃ p, n = p + 1 := ⟨n - 1, by omega⟩
  have small := Nat.mod_lt p pos
  have next : (p % size + 1) % size = (p + 1) % size := Nat.mod_add_mod p size 1
  rw [Nat.add_sub_cancel, ← next]
  by_cases last : p % size + 1 = size
  · rw [last, Nat.mod_self, if_pos rfl]
    omega
  · rw [Nat.mod_eq_of_lt (show p % size + 1 < size by omega), if_neg (Nat.succ_ne_zero _), Nat.add_sub_cancel]

/-- The indices wrap as natural numbers do. -/
theorem tmod_succ (n size : Nat) : (((n % size : Nat) : Int) + 1).tmod size = (((n + 1) % size : Nat) : Int) := by
  rw [show ((n % size : Nat) : Int) + 1 = ((n % size + 1 : Nat) : Int) by omega, ← Int.ofNat_tmod, Nat.mod_add_mod]

end Indices

section Put

variable {size : Nat} {buf : Ringbuffer} {items : List (List UInt8)} (pos : 0 < size)

include pos in
/-- The indices after one more item. -/
theorem KeepsLast.put_indices (keeps : KeepsLast size buf items) (item : List UInt8) :
    (ringbufferPut buf item).size = size ∧
      (ringbufferPut buf item).head = (if items.length + 1 ≤ size then 0 else (((items.length + 1) % size : Nat) : Int)) ∧
      (ringbufferPut buf item).tail = ((items.length % size : Nat) : Int) ∧
      (ringbufferPut buf item).data = (buf.copyRow (items.length % size) item).data := by
  have head := keeps.head
  have tail := keeps.tail
  have sized := keeps.sized
  unfold ringbufferPut
  rcases Nat.eq_zero_or_pos items.length with none | some
  · -- the first item
    rw [if_pos none] at head tail
    rw [if_pos ⟨head.trans tail.symm, head⟩]
    simp [Ringbuffer.copyRow, head, tail, sized, none, show 1 ≤ size by omega]
  · rw [if_neg (Nat.ne_of_gt some)] at head tail
    have before := pred_mod pos some
    have started : ¬ (buf.head = buf.tail ∧ buf.head = -1) := by
      rintro ⟨-, unset⟩
      split at head <;> omega
    rw [if_neg started]
    by_cases filling : items.length < size
    · -- until it is full for the first time
      rw [if_pos (by omega)] at head
      rw [Nat.mod_eq_of_lt (by omega)] at tail
      have next : buf.tail + 1 = ((items.length % size : Nat) : Int) := by
        rw [Nat.mod_eq_of_lt filling]
        omega
      rw [if_pos ⟨head, by omega⟩, if_pos (by omega)]
      simp only [Ringbuffer.copyRow, next, Int.toNat_natCast]
      exact ⟨sized, head, trivial, trivial⟩
    · have at_ : buf.head = ((items.length % size : Nat) : Int) := by
        split at head
        · rw [head, show items.length = size by omega, Nat.mod_self]
          rfl
        · exact head
      have full : ¬ (buf.head = 0 ∧ buf.tail < buf.size - 1) := by
        rintro ⟨first, room⟩
        rw [if_pos (by omega)] at before
        omega
      have next : (buf.tail + 1).tmod buf.size = ((items.length % size : Nat) : Int) := by
        rw [tail, sized, tmod_succ, Nat.sub_add_cancel some]
      have next' : (buf.head + 1).tmod buf.size = (((items.length + 1) % size : Nat) : Int) := by
        rw [at_, sized, tmod_succ]
      rw [if_neg full, if_neg (by omega)]
      simp only [Ringbuffer.copyRow, next, next', Int.toNat_natCast]
      exact ⟨sized, trivial, trivial, trivial⟩

include pos in
/-- One more item. -/
theorem KeepsLast.put (keeps : KeepsLast size buf items) (item : List UInt8) :
    KeepsLast size (ringbufferPut buf item) (items ++ [item]) := by
  obtain ⟨sized, head, tail, data⟩ := keeps.put_indices pos item
  have length : (items ++ [item]).length = items.length + 1 := by rw [List.length_append, List.length_singleton]
  refine ⟨sized, ?_, ?_, fun k inside recent i short => ?_⟩
  · rw [head, length, if_neg (Nat.succ_ne_zero _)]
  · rw [tail, length, if_neg (Nat.succ_ne_zero _), Nat.add_sub_cancel]
  · rw [length] at inside recent
    rw [data]
    rcases Nat.lt_or_ge k items.length with old | new
    · -- an older item that is still kept is in another row
      rw [List.getD_append _ _ _ _ old] at short ⊢
      rw [← keeps.rows k old (by omega) i short]
      refine if_neg fun here => ?_
      have apart : items.length - k < size := by omega
      have whole := Nat.sub_mod_eq_zero_of_mod_eq here.1.symm
      rw [Nat.mod_eq_of_lt apart] at whole
      omega
    · obtain rfl : k = items.length := by omega
      rw [List.getD_append_right _ _ _ _ (Nat.le_refl _), Nat.sub_self, List.getD_cons_zero] at short ⊢
      exact if_pos ⟨rfl, short⟩

include pos in
theorem KeepsLast.putAll (keeps : KeepsLast size buf items) (more : List (List UInt8)) :
    KeepsLast size (more.foldl ringbufferPut buf) (items ++ more) := by
  induction more generalizing buf items with
  | nil => rwa [List.append_nil]
  | cons item more ih =>
    have := ih (keeps.put pos item)
    rwa [List.append_assoc] at this

end Put

/-! ## `ringbuffer_for_each` -/

/-- The row of the `j`-th item that is kept, when `n` items were put. -/
def rowOf (size n j : Nat) : Nat := (n - min n size + j) % size

theorem rowOf_of_le {size n j : Nat} (few : n ≤ size) (inside : j < n) : rowOf size n j = j := by
  rw [rowOf, Nat.min_eq_left few, Nat.sub_self, Nat.zero_add, Nat.mod_eq_of_lt (by omega)]

theorem rowOf_of_gt {size n j : Nat} (many : size < n) (inside : j < size) :
    rowOf size n j = if n % size + j < size then n % size + j else n % size + j - size := by
  have small := Nat.mod_lt n (show 0 < size by omega)
  rw [rowOf, Nat.min_eq_right (Nat.le_of_lt many), ← Nat.mod_add_mod, ← Nat.mod_eq_sub_mod (Nat.le_of_lt many)]
  split
  · exact Nat.mod_eq_of_lt ‹_›
  · rw [Nat.mod_eq_sub_mod (by omega), Nat.mod_eq_of_lt (by omega)]

section ForEach

variable {size : Nat} {σ : Type} {buf : Ringbuffer} {items : List (List UInt8)} {fn : σ → (Nat → UInt8) → Outcome σ}

/-- The loop goes on until the newest item. -/
theorem KeepsLast.continues_iff (keeps : KeepsLast size buf items) {j : Nat} (inside : j < min items.length size) :
    ((buf.tail > buf.head ∧ (rowOf size items.length j : Int) + 1 ≤ buf.tail) ∨
      (buf.tail < buf.head ∧ (rowOf size items.length j : Int) + 1 ≠ buf.head)) ↔ j + 1 < min items.length size := by
  have head := keeps.head
  have tail := keeps.tail
  rw [if_neg (by omega)] at head tail
  by_cases few : items.length ≤ size
  · rw [if_pos few] at head
    rw [Nat.mod_eq_of_lt (by omega)] at tail
    rw [rowOf_of_le few (by omega)]
    omega
  · rw [if_neg few] at head
    rw [pred_mod (by omega) (by omega)] at tail
    rw [rowOf_of_gt (by omega) (by omega)]
    have small := Nat.mod_lt items.length (show 0 < size by omega)
    split at tail
    · split <;> omega
    · split <;> omega

theorem KeepsLast.forEachLoop_eq (keeps : KeepsLast size buf items) (more : Nat) {j fuel : Nat} {idx : Int} (s : σ)
    (count : j + more + 1 = min items.length size) (enough : more < fuel)
    (at_ : idx.tmod size = (rowOf size items.length j : Int)) :
    forEachLoop buf fn fuel idx s =
      ((List.range' j (more + 1)).map fun j => buf.data (rowOf size items.length j)).foldlM fn s := by
  induction more generalizing j fuel idx s with
  | zero =>
    obtain ⟨fuel, rfl⟩ : ∃ k, fuel = k + 1 := ⟨fuel - 1, by omega⟩
    have stops := (keeps.continues_iff (show j < min items.length size by omega)).not.mpr (by omega)
    rw [forEachLoop]
    simp only [keeps.sized, at_, Int.toNat_natCast, if_neg stops, Nat.zero_add, List.range'_one, List.map_singleton,
      List.foldlM_cons, List.foldlM_nil]
  | succ more ih =>
    obtain ⟨fuel, rfl⟩ : ∃ k, fuel = k + 1 := ⟨fuel - 1, by omega⟩
    have goes := (keeps.continues_iff (show j < min items.length size by omega)).mpr (by omega)
    have next : ((rowOf size items.length j : Int) + 1).tmod size = (rowOf size items.length (j + 1) : Int) :=
      tmod_succ _ size
    rw [forEachLoop, List.range'_succ, List.map_cons, List.foldlM_cons]
    simp only [keeps.sized, at_, Int.toNat_natCast, if_pos goes]
    refine congrArg _ (funext fun s => ?_)
    exact ih s (by omega) (by omega) next

/-- **`ringbuffer_for_each` visits the items that are kept, the oldest first.** -/
theorem KeepsLast.ringbufferForEach_eq (keeps : KeepsLast size buf items) (pos : 0 < size) (s : σ) :
    ringbufferForEach buf fn s =
      ((List.range (min items.length size)).map fun j => buf.data (rowOf size items.length j)).foldlM fn s := by
  have head := keeps.head
  have tail := keeps.tail
  rcases Nat.eq_zero_or_pos items.length with none | some
  · rw [if_pos none] at head
    rw [ringbufferForEach, if_pos (.inl (.inl head)), none, Nat.zero_min]
    rfl
  · rw [if_neg (Nat.ne_of_gt some)] at head tail
    obtain ⟨more, count⟩ : ∃ more, min items.length size = more + 1 := ⟨min items.length size - 1, by omega⟩
    have started : ¬ ((buf.head = -1 ∨ buf.tail = -1) ∨ buf.size = 0) := by
      rw [keeps.sized]
      split at head <;> omega
    have first : buf.head.tmod size = (rowOf size items.length 0 : Int) := by
      have at_ : buf.head = (rowOf size items.length 0 : Int) := by
        by_cases few : items.length ≤ size
        · rw [head, if_pos few, rowOf_of_le few some]
          rfl
        · have small := Nat.mod_lt items.length pos
          rw [head, if_neg few, rowOf_of_gt (by omega) pos, if_pos (by omega), Nat.add_zero]
      rw [at_, ← Int.ofNat_tmod, rowOf, Nat.mod_mod]
    rw [ringbufferForEach, if_neg started, List.range_eq_range', count,
      keeps.forEachLoop_eq more s (by omega) (by rw [keeps.sized, Int.toNat_natCast]; omega) first]

end ForEach

/-! ## The text of the rows -/

/-- The text of a row, as a visitor reads it: up to the NUL. -/
def rowText (row : Nat → UInt8) : List UInt8 := ((List.range 81).map row).takeWhile (· ≠ 0)

/-- The bytes of a string in memory. -/
def CString.bytes (str : CString) : List UInt8 := str.chars ++ [0]

/-- A visitor that notes what it reads. -/
def noteText (visited : List (List UInt8)) (row : Nat → UInt8) : Outcome (List (List UInt8)) :=
  .ok (visited ++ [rowText row])

/-- A row that begins with a string reads as the string. -/
theorem rowText_eq {str : CString} (fits : str.bytes.length ≤ 81) {row : Nat → UInt8}
    (same : ∀ i, i < str.bytes.length → row i = str.bytes.getD i 0) : rowText row = str.chars := by
  have front : ((List.range 81).map row).take str.bytes.length = str.bytes := by
    refine List.ext_getElem (by simpa using fits) fun i _ inside => ?_
    rw [List.getElem_take, List.getElem_map, List.getElem_range, same i inside, List.getD_eq_getElem _ _ inside]
  have split := List.take_append_drop str.bytes.length ((List.range 81).map row)
  rw [front, CString.bytes, List.append_assoc] at split
  rw [rowText, ← split, List.takeWhile_append_of_pos (by simpa using str.nonzero), List.singleton_append,
    List.takeWhile_cons_of_neg (by simp), List.append_nil]

theorem foldlM_noteText (rows : List (Nat → UInt8)) (visited : List (List UInt8)) :
    rows.foldlM noteText visited = .ok (visited ++ rows.map rowText) := by
  induction rows generalizing visited with
  | nil => rw [List.map_nil, List.append_nil]; rfl
  | cons row rows ih =>
    rw [List.foldlM_cons, noteText, ok_bind, ih, List.map_cons, List.append_assoc]
    rfl

/-- **The ring buffer keeps the newest items in order**: after any calls of `ringbuffer_put` with
strings that fit a row, `ringbuffer_for_each` visits the last of them, as many as there are rows, the
oldest first and each with its full text. -/
theorem ringbuffer_visits_last {size : Nat} (pos : 0 < size) {buf : Ringbuffer} (sized : buf.size = size)
    (items : List CString) (fit : ∀ item ∈ items, item.bytes.length ≤ 81) :
    ringbufferForEach ((items.map CString.bytes).foldl ringbufferPut (ringbufferInit buf)) noteText [] =
      .ok ((items.drop (items.length - min items.length size)).map CString.chars) := by
  have keeps := (ringbufferInit_keepsLast sized).putAll pos (items.map CString.bytes)
  rw [List.nil_append] at keeps
  rw [keeps.ringbufferForEach_eq pos, foldlM_noteText, List.nil_append, List.length_map, List.map_map]
  congr 1
  refine List.ext_getElem (by simp; omega) fun j inside inside' => ?_
  rw [List.length_map, List.length_range] at inside
  have below : items.length - min items.length size + j < items.length := by omega
  rw [List.getElem_map, List.getElem_range, List.getElem_map, List.getElem_drop]
  refine rowText_eq (fit _ (List.getElem_mem below)) fun i short => ?_
  have item : (items.map CString.bytes).getD (items.length - min items.length size + j) [] =
      (items[items.length - min items.length size + j]).bytes := by
    rw [List.getD_eq_getElem _ _ (by rwa [List.length_map]), List.getElem_map]
  have row := keeps.rows (items.length - min items.length size + j) (by rwa [List.length_map])
    (by rw [List.length_map]; omega) i (by rwa [item])
  rwa [item] at row

/-- Three strings in two rows. -/
theorem ringbuffer_visits_last_two : ∃ one two three : CString, one.chars = asciiText "one" ∧ two.chars = asciiText "two" ∧
    three.chars = asciiText "three" ∧
    ringbufferForEach (([one, two, three].map CString.bytes).foldl ringbufferPut (ringbufferInit ⟨7, 7, 2, fun _ _ => 1⟩))
      noteText [] = .ok [asciiText "two", asciiText "three"] :=
  ⟨⟨asciiText "one", by decide +kernel⟩, ⟨asciiText "two", by decide +kernel⟩, ⟨asciiText "three", by decide +kernel⟩,
    rfl, rfl, rfl, ringbuffer_visits_last (show 0 < 2 by decide) rfl _ (by decide +kernel)⟩

end AlmeidaOS.Kernel
