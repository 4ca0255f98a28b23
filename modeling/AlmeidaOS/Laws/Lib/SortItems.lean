import Mathlib.Order.Antisymmetrization
import AlmeidaOS.Kernel.Lib.SortItems
import AlmeidaOS.Laws.Lib.Qsort

/-!
# `qsort` sorts the items in memory

`qsort` on memory does to the bytes what `qsort` on an array of items does to the items: as long as the
memory shows an array (`Shows`), each loop of the one returns what the loop of the other returns, leaves
the bytes outside the array alone and makes no pointer outside of it. With a comparison function that is
a total preorder the items are sorted.
-/

namespace AlmeidaOS.Kernel

namespace ItemArray

/-- The array is an object in memory: items of some width, which end where memory ends at the latest. -/
structure Placed (a : ItemArray) : Prop where
  width : 0 < a.itemWidth
  count : a.numElems < 2 ^ 64
  fits : a.base + a.numElems * a.itemWidth ≤ 2 ^ 64

/-- The bytes of the array. -/
def range (a : ItemArray) : Set Nat := {x | a.base ≤ x ∧ x < a.base + a.numElems * a.itemWidth}

/-- The item at an index. -/
def contents (a : ItemArray) (m : Mem) (i : Nat) : a.Item := a.itemAt m (a.addr i)

/-- The items in memory are those of an array. -/
def Shows (a : ItemArray) (m : Mem) (arr : Nat → a.Item) : Prop := ∀ i < a.numElems, a.contents m i = arr i

variable {a : ItemArray}

section Memory

variable {m m' : Mem}

theorem item_le {i : Nat} (inside : i < a.numElems) :
    a.base + i * a.itemWidth + a.itemWidth ≤ a.base + a.numElems * a.itemWidth := by
  have := Nat.mul_le_mul_right a.itemWidth (Nat.succ_le_of_lt inside)
  rw [Nat.succ_mul] at this
  omega

theorem Placed.addr_eq (placed : a.Placed) {i : Nat} (inside : i < a.numElems) : a.addr i = a.base + i * a.itemWidth := by
  have ends := item_le inside
  have fits := placed.fits
  have width := placed.width
  have product : Word.mul i a.itemWidth = i * a.itemWidth := Nat.mod_eq_of_lt (by omega)
  rw [addr, product, Word.add_of_lt (by omega)]

theorem Placed.contents_eq (placed : a.Placed) (m : Mem) {i : Nat} (inside : i < a.numElems) (k : Fin a.itemWidth) :
    a.contents m i k = m (a.base + i * a.itemWidth + k) := by
  have ends := item_le inside
  have fits := placed.fits
  rw [contents, itemAt, placed.addr_eq inside, Word.add_of_lt (by omega)]

/-- `EXCH` of two ranges that are the same or do not meet. -/
theorem exchLoop_byte (size : Nat) {p q : Nat} (m : Mem) (fits : p + size ≤ 2 ^ 64) (fits' : q + size ≤ 2 ^ 64)
    (apart : p = q ∨ p + size ≤ q ∨ q + size ≤ p) (x : Nat) :
    exchLoop size p q m x = if p ≤ x ∧ x < p + size then m (q + (x - p))
      else if q ≤ x ∧ x < q + size then m (p + (x - q)) else m x := by
  induction size generalizing p q m with
  | zero => rw [exchLoop, if_neg (by omega), if_neg (by omega)]
  | succ size ih =>
    let m₁ := (m.write p [m q]).write q [m p]
    have step : ∀ y, m₁ y = if y = q then m p else if y = p then m q else m y := by
      intro y
      show (if _ then _ else if _ then _ else _) = _
      by_cases last : y = q
      · subst last
        simp
      · by_cases first : y = p
        · subst first
          rw [if_neg (by simp; omega), if_neg last]
          simp
        · rw [if_neg (by simp; omega), if_neg (by simp; omega), if_neg last, if_neg first]
    have rest : exchLoop (size + 1) p q m x = if p + 1 ≤ x ∧ x < p + 1 + size then m₁ (q + 1 + (x - (p + 1)))
        else if q + 1 ≤ x ∧ x < q + 1 + size then m₁ (p + 1 + (x - (q + 1))) else m₁ x := by
      rw [exchLoop]
      rcases Nat.eq_zero_or_pos size with rfl | more
      · rw [exchLoop, if_neg (by omega), if_neg (by omega)]
      · rw [Word.add_of_lt (by omega), Word.add_of_lt (by omega), ih m₁ (by omega) (by omega) (by omega)]
    rw [rest]
    by_cases first : x = p
    · subst first
      rw [if_neg (by omega), if_neg (by omega), if_pos (by omega), step, Nat.sub_self]
      split
      · rename_i same
        rw [same, Nat.add_zero]
      · rw [if_pos rfl, Nat.add_zero]
    · by_cases last : x = q
      · subst last
        rw [if_neg (by omega), if_neg (by omega), if_neg (by omega), if_pos (by omega), step, if_pos rfl, Nat.sub_self,
          Nat.add_zero]
      · -- the other bytes are none that this round has moved
        by_cases front : p + 1 ≤ x ∧ x < p + 1 + size
        · rw [if_pos front, if_pos (by omega), step, if_neg (by omega), if_neg (by omega)]
          congr 1
          omega
        · by_cases back : q + 1 ≤ x ∧ x < q + 1 + size
          · rw [if_neg front, if_pos back, if_neg (by omega), if_pos (by omega), step, if_neg (by omega), if_neg (by omega)]
            congr 1
            omega
          · rw [if_neg front, if_neg back, if_neg (by omega), if_neg (by omega), step, if_neg last, if_neg first]

/-- Two items do not meet. -/
theorem items_apart {i j : Nat} (differ : i ≠ j) :
    a.base + i * a.itemWidth + a.itemWidth ≤ a.base + j * a.itemWidth ∨
      a.base + j * a.itemWidth + a.itemWidth ≤ a.base + i * a.itemWidth := by
  rcases Nat.lt_or_gt_of_ne differ with less | greater
  · have := Nat.mul_le_mul_right a.itemWidth (Nat.succ_le_of_lt less)
    rw [Nat.succ_mul] at this
    omega
  · have := Nat.mul_le_mul_right a.itemWidth (Nat.succ_le_of_lt greater)
    rw [Nat.succ_mul] at this
    omega

/-- Exchanging two items in memory exchanges them in the array. -/
theorem Shows.exch (placed : a.Placed) {arr : Nat → a.Item} (shows : a.Shows m arr) {i j : Nat} (inside : i < a.numElems)
    (inside' : j < a.numElems) :
    ∃ m', a.exch m i j = .ok m' ∧ a.Shows m' (Kernel.exch arr i j) ∧ m.SameOff a.range m' := by
  have ends := item_le inside
  have ends' := item_le inside'
  have fits := placed.fits
  have apart : a.base + i * a.itemWidth = a.base + j * a.itemWidth ∨
      a.base + i * a.itemWidth + a.itemWidth ≤ a.base + j * a.itemWidth ∨
      a.base + j * a.itemWidth + a.itemWidth ≤ a.base + i * a.itemWidth := by
    by_cases same : i = j
    · exact .inl (by rw [same])
    · exact .inr (items_apart same)
  have bytes := exchLoop_byte a.itemWidth m (show a.base + i * a.itemWidth + a.itemWidth ≤ 2 ^ 64 by omega)
    (show a.base + j * a.itemWidth + a.itemWidth ≤ 2 ^ 64 by omega) apart
  refine ⟨exchLoop a.itemWidth (a.base + i * a.itemWidth) (a.base + j * a.itemWidth) m, ?_, fun k here => ?_,
    fun x outside => ?_⟩
  · rw [ItemArray.exch, pointer, pointer, if_pos inside, if_pos inside', placed.addr_eq inside, placed.addr_eq inside']
    rfl
  · rw [Kernel.exch, ← shows i inside, ← shows j inside', ← shows k here]
    funext t
    rw [placed.contents_eq _ here, bytes]
    by_cases first : k = i
    · subst first
      rw [if_pos (by omega), if_pos rfl, placed.contents_eq m inside']
      congr 1
      omega
    · have off := items_apart (a := a) first
      rw [if_neg (by omega), if_neg first]
      by_cases last : k = j
      · subst last
        rw [if_pos (by omega), if_pos rfl, placed.contents_eq m inside]
        congr 1
        omega
      · have off' := items_apart (a := a) last
        rw [if_neg (by omega), if_neg last, placed.contents_eq m here]
  · rw [bytes, if_neg, if_neg]
    · rintro ⟨lower, upper⟩
      exact outside ⟨by omega, by omega⟩
    · rintro ⟨lower, upper⟩
      exact outside ⟨by omega, by omega⟩

end Memory

/-! ## `shuffle` -/

/-- The call on memory returns, and the memory shows the array. -/
def Yields (a : ItemArray) (m : Mem) (call : Outcome Mem) (arr : Nat → a.Item) : Prop :=
  ∃ m', call = .ok m' ∧ a.Shows m' arr ∧ m.SameOff a.range m'

/-- What a call yields, the next one starts with. -/
theorem Yields.bind {m : Mem} {call : Outcome Mem} {arr arr' : Nat → a.Item} {f : Mem → Outcome Mem}
    (first : a.Yields m call arr) (next : ∀ m', a.Shows m' arr → a.Yields m' (f m') arr') :
    a.Yields m (call >>= f) arr' := by
  obtain ⟨m₁, run, shows, same⟩ := first
  obtain ⟨m₂, run', shows', same'⟩ := next m₁ shows
  exact ⟨m₂, by rw [run, ok_bind, run'], shows', same.trans same'⟩

section Loops

variable {m : Mem} {arr : Nat → a.Item} (placed : a.Placed)

include placed in
theorem Shows.shuffleLoop (two : 2 ≤ a.numElems) (k : Nat) {i : Nat} (rand : Nat → Nat) (count : i + k = a.numElems)
    (shows : a.Shows m arr) :
    a.Yields m (a.shuffleLoop k i rand m) (Kernel.shuffleLoop a.numElems k i rand arr) := by
  induction k generalizing i rand m arr with
  | zero => exact ⟨m, rfl, shows, .refl _ _⟩
  | succ k ih =>
    have small := Nat.mod_lt (rand 0) (show 0 < a.numElems - 1 by omega)
    have first : a.Yields m (a.exch m i (rand 0 % (a.numElems - 1) + 1)) _ :=
      shows.exch placed (by omega) (by omega)
    exact first.bind fun m' shows' => ih (fun n => rand (n + 1)) (by omega) shows'

include placed in
theorem Shows.shuffle (rand : Nat → Nat) (shows : a.Shows m arr) :
    a.Yields m (a.shuffle rand m) (Kernel.shuffle rand arr a.numElems) := by
  have width := placed.width
  rw [ItemArray.shuffle, Kernel.shuffle, bugOn_of_not (Nat.ne_of_gt width), ok_bind]
  split
  · exact ⟨m, rfl, shows, .refl _ _⟩
  · exact shows.shuffleLoop placed (by omega) _ rand (Nat.zero_add _)

/-! ## `sort` -/

variable {cmp : a.Item → a.Item → Int} {lo hi : Nat}

theorem Shows.compare (shows : a.Shows m arr) {i j : Nat} (inside : i < a.numElems) (inside' : j < a.numElems) :
    a.compare cmp m i j = .ok (cmp (arr i) (arr j)) := by
  rw [ItemArray.compare, pointer, pointer, if_pos inside, if_pos inside', ← shows i inside, ← shows j inside']
  rfl

include placed in
/-- The scan up stays in the window: it returns what the scan of the array returns. -/
theorem Shows.scanUp (shows : a.Shows m arr) (inside : lo < a.numElems) (inside' : hi < a.numElems) (fuel : Nat) {i : Nat}
    (below : i < hi) : a.scanUp cmp m lo hi fuel i = Kernel.scanUp cmp arr lo hi fuel i := by
  have count := placed.count
  induction fuel generalizing i with
  | zero => rfl
  | succ fuel ih =>
    rw [ItemArray.scanUp, Kernel.scanUp]
    simp only [Word.add_of_lt (show i + 1 < 2 ^ 64 by omega), shows.compare (show i + 1 < a.numElems by omega) inside,
      ok_bind, pure_eq_ok]
    split
    · split
      · rfl
      · exact ih (by omega)
    · rfl

include placed in
/-- So does the scan down. -/
theorem Shows.scanDown (shows : a.Shows m arr) (fuel : Nat) {j : Nat} (above : lo < j) (inside : j ≤ a.numElems) :
    a.scanDown cmp m lo fuel j = Kernel.scanDown cmp arr lo fuel j := by
  have count := placed.count
  induction fuel generalizing j with
  | zero => rfl
  | succ fuel ih =>
    rw [ItemArray.scanDown, Kernel.scanDown]
    simp only [Word.sub_of_le (show j < 2 ^ 64 by omega) (show 1 ≤ j by omega),
      shows.compare (show lo < a.numElems by omega) (show j - 1 < a.numElems by omega), ok_bind, pure_eq_ok]
    split
    · split
      · rfl
      · exact ih (by omega) (by omega)
    · rfl

theorem scanUp_bounds {fuel i i' : Nat} (run : Kernel.scanUp cmp arr lo hi fuel i = .ok i') (below : i < hi) :
    i < i' ∧ i' ≤ hi := by
  induction fuel generalizing i with
  | zero => cases run
  | succ fuel ih =>
    rw [Kernel.scanUp] at run
    split at run
    · split at run
      · cases run
        omega
      · have := ih run (by omega)
        omega
    · cases run
      omega

theorem scanDown_bounds {fuel j j' : Nat} (run : Kernel.scanDown cmp arr lo fuel j = .ok j') (above : lo < j) :
    lo ≤ j' ∧ j' < j := by
  induction fuel generalizing j with
  | zero => cases run
  | succ fuel ih =>
    rw [Kernel.scanDown] at run
    split at run
    · split at run
      · cases run
        omega
      · have := ih run (by omega)
        omega
    · cases run
      omega

include placed in
/-- The outer loop keeps both indices in the window. -/
theorem Shows.partitionLoop (shows : a.Shows m arr) (inside : hi < a.numElems) {fuel i j k : Nat} {arr' : Nat → a.Item}
    (low : lo ≤ i) (below : i < hi) (above : lo < j) (high : j ≤ hi + 1)
    (run : Kernel.partitionLoop cmp lo hi fuel i j arr = .ok (k, arr')) :
    lo ≤ k ∧ k ≤ hi ∧ ∃ m', a.partitionLoop cmp lo hi fuel i j m = .ok (k, m') ∧ a.Shows m' arr' ∧ m.SameOff a.range m' := by
  induction fuel generalizing i j m arr with
  | zero => cases run
  | succ fuel ih =>
    rw [Kernel.partitionLoop] at run
    obtain ⟨i', up, run⟩ := bind_eq_ok.mp run
    obtain ⟨j', down, run⟩ := bind_eq_ok.mp run
    have upper := scanUp_bounds up below
    have lower := scanDown_bounds down above
    rw [ItemArray.partitionLoop, shows.scanUp placed (by omega) inside _ below, up, ok_bind,
      shows.scanDown placed _ above (by omega), down, ok_bind]
    by_cases crossed : i' ≥ j'
    · rw [if_pos crossed] at run ⊢
      cases run
      obtain ⟨m', swapped, shows', same⟩ := shows.exch placed (show lo < a.numElems by omega) (show k < a.numElems by omega)
      exact ⟨by omega, by omega, m', by rw [swapped]; rfl, shows', same⟩
    · rw [if_neg crossed] at run ⊢
      obtain ⟨m₁, swapped, shows₁, same₁⟩ := shows.exch placed (show i' < a.numElems by omega) (show j' < a.numElems by omega)
      obtain ⟨least, most, m', loop, shows', same'⟩ := ih shows₁ (by omega) (by omega) (by omega) (by omega) run
      exact ⟨least, most, m', by rw [swapped, ok_bind, loop], shows', same₁.trans same'⟩

include placed in
theorem Shows.partition (shows : a.Shows m arr) (inside : hi < a.numElems) (order : lo < hi) {k : Nat} {arr' : Nat → a.Item}
    (run : Kernel.partition cmp arr lo hi = .ok (k, arr')) :
    lo ≤ k ∧ k ≤ hi ∧ ∃ m', a.partition cmp m lo hi = .ok (k, m') ∧ a.Shows m' arr' ∧ m.SameOff a.range m' := by
  have count := placed.count
  rw [ItemArray.partition, Word.add_of_lt (by omega)]
  exact shows.partitionLoop placed inside (Nat.le_refl lo) order (by omega) (Nat.le_refl _) run

include placed in
/-- The recursion: whatever `sort` makes of the array, it makes of the memory. -/
theorem Shows.sort (shows : a.Shows m arr) {fuel : Nat} (inside : hi < a.numElems) {arr' : Nat → a.Item}
    (run : Kernel.sort cmp fuel arr lo hi = .ok arr') : a.Yields m (a.sort cmp fuel m lo hi) arr' := by
  have count := placed.count
  induction fuel generalizing m arr arr' lo hi with
  | zero => cases run
  | succ fuel ih =>
    rw [Kernel.sort] at run
    rw [ItemArray.sort]
    by_cases small : hi ≤ lo
    · rw [if_pos small] at run ⊢
      cases run
      exact ⟨m, rfl, shows, .refl _ _⟩
    · rw [if_neg small] at run ⊢
      obtain ⟨⟨k, arr₁⟩, split, run⟩ := bind_eq_ok.mp run
      obtain ⟨arr₂, left, right⟩ := bind_eq_ok.mp run
      obtain ⟨least, most, m₁, split', shows₁, same₁⟩ := shows.partition placed inside (by omega) split
      have left' : a.Yields m₁ (if k > 0 then a.sort cmp fuel m₁ lo (k - 1) else pure m₁) arr₂ := by
        by_cases some : k > 0
        · rw [if_pos some] at left ⊢
          exact ih shows₁ (by omega) left
        · rw [if_neg some] at left ⊢
          cases left
          exact ⟨m₁, rfl, shows₁, .refl _ _⟩
      obtain ⟨m', rest, shows', same'⟩ := left'.bind fun m₂ shows₂ =>
        (ih shows₂ inside right : a.Yields m₂ (a.sort cmp fuel m₂ (k + 1) hi) arr')
      refine ⟨m', ?_, shows', same₁.trans same'⟩
      rw [split', ok_bind]
      simp only [Word.add_of_lt (show k + 1 < 2 ^ 64 by omega)]
      exact rest

include placed in
/-- **`qsort` on memory is `qsort` on the items.** -/
theorem Shows.qsort (shows : a.Shows m arr) (rand : Nat → Nat) {arr' : Nat → a.Item}
    (run : Kernel.qsort cmp rand arr a.numElems = .ok arr') : a.Yields m (a.qsort cmp rand m) arr' := by
  rw [Kernel.qsort] at run
  rw [ItemArray.qsort]
  split at run
  · rename_i few
    rw [if_pos few]
    cases run
    exact ⟨m, rfl, shows, .refl _ _⟩
  · rename_i many
    rw [if_neg many]
    exact (shows.shuffle placed rand).bind fun m' shows' => shows'.sort placed (by omega) run

end Loops

/-- The items in memory, in their order. -/
def items (a : ItemArray) (m : Mem) : List a.Item := (List.range a.numElems).map (a.contents m)

end ItemArray

/-! ## Total preorders -/

section Preorder

variable {α : Type} {cmp : α → α → Int}

/-- The comparison function is a total preorder: "not greater" is total and transitive, and "less" is
its strict part. -/
structure TotalPreorder (cmp : α → α → Int) : Prop where
  total : ∀ x y, cmp x y ≤ 0 ∨ cmp y x ≤ 0
  trans : ∀ x y z, cmp x y ≤ 0 → cmp y z ≤ 0 → cmp x z ≤ 0
  strict : ∀ x y, cmp x y < 0 ↔ ¬ cmp y x ≤ 0

/-- A total preorder compares by a key: the class of the items that are equal to it. -/
theorem TotalPreorder.exists_key (order : TotalPreorder cmp) :
    ∃ (K : Type) (_ : LinearOrder K) (key : α → K), ComparesBy cmp key ∧ ∀ x y, cmp x y ≤ 0 ↔ key x ≤ key y := by
  classical
  let preorder : Preorder α :=
    { le := fun x y => cmp x y ≤ 0
      lt := fun x y => cmp x y < 0
      le_refl := fun x => (order.total x x).elim id id
      le_trans := order.trans
      lt_iff_le_not_ge := fun x y => by
        constructor
        · exact fun less => ⟨Int.le_of_lt less, (order.strict x y).mp less⟩
        · exact fun both => (order.strict x y).mpr both.2 }
  have total : @Std.Total α (· ≤ ·) := ⟨order.total⟩
  refine ⟨Antisymmetrization α (· ≤ ·), inferInstance, toAntisymmetrization (· ≤ ·), fun x y => ?_, fun x y => ?_⟩
  · exact toAntisymmetrization_lt_toAntisymmetrization_iff.symm
  · exact toAntisymmetrization_le_toAntisymmetrization_iff.symm

end Preorder

/-- **`qsort` sorts**: for every array in memory, every comparison function that is a total preorder and
all numbers from `rand` it returns, without a pointer outside the array, and leaves the items permuted
into an order that does not descend and every other byte as it was. -/
theorem qsort_sorts {a : ItemArray} (placed : a.Placed) {cmp : a.Item → a.Item → Int} (order : TotalPreorder cmp)
    (rand : Nat → Nat) (m : Mem) :
    ∃ m', a.qsort cmp rand m = .ok m' ∧ (a.items m').Perm (a.items m) ∧
      (a.items m').Pairwise (fun x y => cmp x y ≤ 0) ∧ m.SameOff a.range m' := by
  obtain ⟨K, linear, key, compares, keys⟩ := order.exists_key
  obtain ⟨ρ, within, ascending, run⟩ := qsort_returns compares rand (a.contents m) a.numElems
  have shows : a.Shows m (a.contents m) := fun i _ => rfl
  obtain ⟨m', run', shows', same⟩ := shows.qsort placed rand run
  have list : a.items m' = (List.range a.numElems).map (a.contents m ∘ ρ) :=
    List.map_congr_left fun i mem => shows' i (List.mem_range.mp mem)
  refine ⟨m', run', ?_, ?_, same⟩
  · rw [list]
    exact map_range_perm within (a.contents m)
  · rw [list, List.pairwise_map]
    refine List.pairwise_lt_range.imp_of_mem fun {i j} _ mem less => ?_
    have inside := List.mem_range.mp mem
    exact (keys _ _).mpr (ascending i j (Nat.zero_le i) (Nat.le_of_lt less) (by omega))

/-- Three items of two bytes, compared by their first byte. -/
theorem qsort_sorts_pairs : ∃ m', (⟨0x1000, 3, 2⟩ : ItemArray).qsort (fun x y => (x 0).toNat - (y 0).toNat) (fun _ => 1)
      ⟨fun x => if x = 0x1000 then 3 else 1⟩ = .ok m' ∧
    ((⟨0x1000, 3, 2⟩ : ItemArray).items m').Pairwise fun x y => ((x 0).toNat : Int) - (y 0).toNat ≤ 0 := by
  have placed : (⟨0x1000, 3, 2⟩ : ItemArray).Placed := ⟨by decide, by decide, by decide⟩
  have order : TotalPreorder fun x y : (⟨0x1000, 3, 2⟩ : ItemArray).Item => ((x 0).toNat : Int) - (y 0).toNat :=
    ⟨fun x y => by omega, fun x y z => by omega, fun x y => by omega⟩
  obtain ⟨m', run, -, sorted, -⟩ := qsort_sorts placed order (fun _ => 1) ⟨fun x => if x = 0x1000 then 3 else 1⟩
  exact ⟨m', run, sorted⟩

end AlmeidaOS.Kernel
