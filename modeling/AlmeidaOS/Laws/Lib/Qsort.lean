import AlmeidaOS.Base.Rearrange
import AlmeidaOS.Kernel.Lib.Qsort

/-!
# What `qsort` can return

A comparison by a key sees the keys only, so where the items go depends on the keys and on the
shuffle and on nothing else: one permutation serves all arrays with the same keys (`sort_returns`).
The shuffle reaches every permutation that moves the first item away (`shuffle_reaches`). Together
they say which rearrangements `qsort` can return: all in which the keys are in order, unless all
keys are equal (`qsort_reaches`).
-/

namespace AlmeidaOS.Kernel

open Equiv (Perm swap)

variable {α : Type}

theorem exch_eq_swap (arr : Nat → α) (i j : Nat) : exch arr i j = arr ∘ swap i j := by
  funext k
  rw [exch, Function.comp_apply, Equiv.swap_apply_def]
  split
  · rfl
  · split <;> rfl

/-! ## `sort` -/

section Sorting

variable {K : Type*} [LinearOrder K] {key : α → K} {cmp : α → α → Int}

/-- The comparison orders the items by a key. -/
def ComparesBy (cmp : α → α → Int) (key : α → K) : Prop := ∀ x y, cmp x y < 0 ↔ key x < key y

variable (by_ : ComparesBy cmp key) {lo hi : Nat}

include by_ in
theorem cmp_iff {keys : Nat → K} {arr : Nat → α} (same : key ∘ arr = keys) (i j : Nat) :
    cmp (arr i) (arr j) < 0 ↔ keys i < keys j := by
  rw [by_, ← same]
  rfl

include by_ in
/-- `i` stops at the next key that is not less than the first, or at the end. -/
theorem scanUp_returns (keys : Nat → K) (lo : Nat) (fuel : Nat) {i : Nat} (below : i < hi) (enough : hi - i ≤ fuel) :
    ∃ i', i < i' ∧ i' ≤ hi ∧ (∀ k, i < k → k < i' → keys k < keys lo) ∧
      (keys lo ≤ keys i' ∨ i' = hi) ∧
      ∀ arr, key ∘ arr = keys → scanUp cmp arr lo hi fuel i = .ok i' := by
  induction fuel generalizing i with
  | zero => omega
  | succ fuel ih =>
    by_cases less : keys (i + 1) < keys lo
    · by_cases last : i + 1 = hi
      · refine ⟨i + 1, by omega, by omega, fun k _ _ => by omega, .inr last, fun arr same => ?_⟩
        rw [scanUp, if_pos ((cmp_iff by_ same _ _).mpr less), if_pos last]
      · obtain ⟨i', above, inside, lesser, stop, run⟩ := ih (i := i + 1) (by omega) (by omega)
        refine ⟨i', by omega, inside, fun k low high => ?_, stop, fun arr same => ?_⟩
        · rcases Nat.eq_or_lt_of_le (show i + 1 ≤ k from low) with rfl | beyond
          · exact less
          · exact lesser k beyond high
        · rw [scanUp, if_pos ((cmp_iff by_ same _ _).mpr less), if_neg last, run arr same]
    · refine ⟨i + 1, by omega, by omega, fun k _ _ => by omega, .inl (not_lt.mp less), fun arr same => ?_⟩
      rw [scanUp, if_neg (fun h => less ((cmp_iff by_ same _ _).mp h))]

include by_ in
/-- `j` stops at the next key that is not greater than the first. -/
theorem scanDown_returns (keys : Nat → K) (fuel : Nat) {j : Nat} (above : lo < j) (enough : j - lo ≤ fuel) :
    ∃ j', lo ≤ j' ∧ j' < j ∧ (∀ k, j' < k → k < j → keys lo < keys k) ∧ keys j' ≤ keys lo ∧
      ∀ arr, key ∘ arr = keys → scanDown cmp arr lo fuel j = .ok j' := by
  induction fuel generalizing j with
  | zero => omega
  | succ fuel ih =>
    by_cases greater : keys lo < keys (j - 1)
    · have ne : j - 1 ≠ lo := fun here => lt_irrefl _ (here ▸ greater)
      obtain ⟨j', low, high, greaters, stop, run⟩ := ih (j := j - 1) (by omega) (by omega)
      refine ⟨j', low, by omega, fun k beyond inside => ?_, stop, fun arr same => ?_⟩
      · rcases Nat.eq_or_lt_of_le (show k ≤ j - 1 by omega) with rfl | below
        · exact greater
        · exact greaters k beyond below
      · rw [scanDown, if_pos ((cmp_iff by_ same _ _).mpr greater), if_neg ne, run arr same]
    · refine ⟨j - 1, by omega, by omega, fun k _ _ => by omega, not_lt.mp greater, fun arr same => ?_⟩
      rw [scanDown, if_neg (fun h => greater ((cmp_iff by_ same _ _).mp h))]

/-- The first item may change places with the last one that is not greater. -/
theorem pivot_placed {keys : Nat → K} {m : Nat} (low : lo ≤ m) (left : ∀ k, lo < k → k ≤ m → keys k ≤ keys lo)
    (right : ∀ k, m < k → k ≤ hi → keys lo ≤ keys k) :
    (∀ k, lo ≤ k → k ≤ m → keys (swap lo m k) ≤ keys (swap lo m m)) ∧
      ∀ k, m ≤ k → k ≤ hi → keys (swap lo m m) ≤ keys (swap lo m k) := by
  refine ⟨fun k from_ upto => ?_, fun k from_ upto => ?_⟩
  · rw [Equiv.swap_apply_right]
    rcases Nat.eq_or_lt_of_le from_ with rfl | beyond
    · rw [Equiv.swap_apply_left]
      rcases Nat.eq_or_lt_of_le low with rfl | below
      · exact le_refl _
      · exact left m below (le_refl m)
    · rcases Nat.eq_or_lt_of_le upto with rfl | before
      · rw [Equiv.swap_apply_right]
      · rw [Equiv.swap_apply_of_ne_of_ne (by omega) (by omega)]
        exact left k beyond upto
  · rw [Equiv.swap_apply_right]
    rcases Nat.eq_or_lt_of_le from_ with rfl | beyond
    · rw [Equiv.swap_apply_right]
    · rw [Equiv.swap_apply_of_ne_of_ne (by omega) (by omega)]
      exact right k beyond upto

/-- An item that is not less and one behind it that is not greater change places: both sides grow by one. -/
theorem sides_exchanged {keys : Nat → K} {i j : Nat} (above : lo < i) (cross : i < j)
    (left : ∀ k, lo < k → k < i → keys k ≤ keys lo) (right : ∀ k, j < k → k ≤ hi → keys lo ≤ keys k)
    (stop : keys lo ≤ keys i) (stop' : keys j ≤ keys lo) :
    (∀ k, lo < k → k ≤ i → (keys ∘ swap i j) k ≤ (keys ∘ swap i j) lo) ∧
      ∀ k, j ≤ k → k ≤ hi → (keys ∘ swap i j) lo ≤ (keys ∘ swap i j) k := by
  have pivot : (keys ∘ swap i j) lo = keys lo := by
    rw [Function.comp_apply, Equiv.swap_apply_of_ne_of_ne (by omega) (by omega)]
  rw [pivot]
  refine ⟨fun k beyond upto => ?_, fun k from_ upto => ?_⟩
  · rw [Function.comp_apply]
    rcases Nat.eq_or_lt_of_le upto with rfl | before
    · rwa [Equiv.swap_apply_left]
    · rw [Equiv.swap_apply_of_ne_of_ne (by omega) (by omega)]
      exact left k beyond before
  · rw [Function.comp_apply]
    rcases Nat.eq_or_lt_of_le from_ with rfl | after
    · rwa [Equiv.swap_apply_right]
    · rw [Equiv.swap_apply_of_ne_of_ne (by omega) (by omega)]
      exact right k after upto

include by_ in
/-- The loop of `partition`: up to `i` no key is greater than the first, from `j` on none is less. -/
theorem partitionLoop_returns (keys : Nat → K) (fuel : Nat) {i j : Nat} (low : lo ≤ i) (cross : i < j) (below : i < hi)
    (high : j ≤ hi + 1) (left : ∀ k, lo < k → k ≤ i → keys k ≤ keys lo)
    (right : ∀ k, j ≤ k → k ≤ hi → keys lo ≤ keys k) (enough : hi - i < fuel) :
    ∃ m σ, lo ≤ m ∧ m ≤ hi ∧ Within lo hi σ ∧ (∀ k, lo ≤ k → k ≤ m → keys (σ k) ≤ keys (σ m)) ∧
      (∀ k, m ≤ k → k ≤ hi → keys (σ m) ≤ keys (σ k)) ∧
      ∀ arr, key ∘ arr = keys → partitionLoop cmp lo hi fuel i j arr = .ok (m, arr ∘ σ) := by
  induction fuel generalizing i j keys with
  | zero => omega
  | succ fuel ih =>
    obtain ⟨i', up, inside, lesser, stop, runUp⟩ :=
      scanUp_returns by_ keys lo (hi + 1) below (by omega)
    obtain ⟨j', low', down, greater, stop', runDown⟩ :=
      scanDown_returns by_ keys (hi + 1) (show lo < j by omega) (by omega)
    have left' : ∀ k, lo < k → k < i' → keys k ≤ keys lo := fun k beyond before => by
      rcases Nat.lt_or_ge i k with after | upto
      · exact le_of_lt (lesser k after before)
      · exact left k beyond upto
    have right' : ∀ k, j' < k → k ≤ hi → keys lo ≤ keys k := fun k after upto => by
      rcases Nat.lt_or_ge k j with before | from_
      · exact le_of_lt (greater k after before)
      · exact right k from_ upto
    by_cases crossed : i' ≥ j'
    · -- the first item goes where the two have met
      have notGreater : ∀ k, lo < k → k ≤ j' → keys k ≤ keys lo := fun k beyond upto => by
        rcases Nat.eq_or_lt_of_le upto with rfl | before
        · exact stop'
        · exact left' k beyond (by omega)
      obtain ⟨lefts, rights⟩ := pivot_placed low' notGreater right'
      refine ⟨j', swap lo j', low', by omega, .swap (le_refl lo) (by omega) low' (by omega), lefts, rights,
        fun arr same => ?_⟩
      rw [partitionLoop, runUp arr same, ok_bind, runDown arr same, ok_bind, if_pos crossed, exch_eq_swap]
      rfl
    · -- the items at `i` and `j` change places and both scans go on
      obtain ⟨left'', right''⟩ := sides_exchanged (by omega) (by omega) left' right' (stop.resolve_right (by omega)) stop'
      obtain ⟨m, σ, least, most, within, lefts, rights, run⟩ :=
        ih (keys ∘ swap i' j') (i := i') (j := j') (by omega) (by omega) (by omega) (by omega) left'' right'' (by omega)
      refine ⟨m, swap i' j' * σ, least, most,
        (Within.swap (by omega) (by omega) (by omega) (by omega)).mul within, lefts, rights, fun arr same => ?_⟩
      rw [partitionLoop, runUp arr same, ok_bind, runDown arr same, ok_bind, if_neg crossed, exch_eq_swap,
        run (arr ∘ swap i' j') (by rw [← same]; rfl)]
      rfl

include by_ in
/-- `partition` puts one item in its place, with no greater key before it and no lesser one behind. -/
theorem partition_returns (keys : Nat → K) (order : lo < hi) :
    ∃ m σ, lo ≤ m ∧ m ≤ hi ∧ Within lo hi σ ∧ (∀ k, lo ≤ k → k ≤ m → keys (σ k) ≤ keys (σ m)) ∧
      (∀ k, m ≤ k → k ≤ hi → keys (σ m) ≤ keys (σ k)) ∧
      ∀ arr, key ∘ arr = keys → partition cmp arr lo hi = .ok (m, arr ∘ σ) :=
  partitionLoop_returns by_ keys (hi + 1) (le_refl lo) (by omega) order (le_refl _)
    (fun k _ _ => by omega) (fun k _ _ => by omega) (by omega)

/-- Two sorted parts around an item that is no less than the first and no greater than the second. -/
theorem Ascending.join {keys : Nat → K} {m : Nat} (left : ∀ k l, lo ≤ k → k ≤ l → l < m → keys k ≤ keys l)
    (right : Ascending keys (m + 1) hi) (upto : ∀ k, lo ≤ k → k ≤ m → keys k ≤ keys m)
    (from_ : ∀ k, m ≤ k → k ≤ hi → keys m ≤ keys k) : Ascending keys lo hi := by
  intro k l low order high
  rcases Nat.lt_or_ge l m with before | after
  · exact left k l low order before
  · rcases Nat.lt_or_ge m k with beyond | upto'
    · exact right k l beyond order high
    · exact le_trans (upto k low upto') (from_ l after high)

/-- Sorting the part before the item that `partition` has placed. -/
theorem sort_left_returns {fuel : Nat} (lo m : Nat) (keys : Nat → K)
    (ih : ∀ (keys : Nat → K) (lo hi : Nat), hi - lo < fuel → ∃ σ, Within lo hi σ ∧ Ascending (keys ∘ σ) lo hi ∧
      ∀ arr, key ∘ arr = keys → sort cmp fuel arr lo hi = .ok (arr ∘ σ))
    (enough : m - lo < fuel + 1) (pos : 0 < fuel) :
    ∃ σ : Perm Nat, (∀ k, k < lo ∨ m ≤ k → σ k = k) ∧ (∀ k l, lo ≤ k → k ≤ l → l < m → keys (σ k) ≤ keys (σ l)) ∧
      ∀ arr, key ∘ arr = keys →
        (if m > 0 then sort cmp fuel arr lo (m - 1) else pure arr) = .ok (arr ∘ σ) := by
  by_cases some : m > 0
  · obtain ⟨σ, within, ascending, run⟩ := ih keys lo (m - 1) (by omega)
    refine ⟨σ, fun k outside => within k (by omega), fun k l low order high => ?_, fun arr same => ?_⟩
    · exact ascending k l low order (by omega)
    · rw [if_pos some, run arr same]
  · refine ⟨1, fun _ _ => rfl, fun k l _ _ high => by omega, fun arr _ => ?_⟩
    rw [if_neg some]
    rfl

include by_ in
/-- **`sort` puts the keys of the window in order, by a permutation that the keys determine.** -/
theorem sort_returns (fuel : Nat) (keys : Nat → K) (lo hi : Nat) (enough : hi - lo < fuel) :
    ∃ σ, Within lo hi σ ∧ Ascending (keys ∘ σ) lo hi ∧
      ∀ arr, key ∘ arr = keys → sort cmp fuel arr lo hi = .ok (arr ∘ σ) := by
  induction fuel generalizing keys lo hi with
  | zero => omega
  | succ fuel ih =>
    by_cases small : hi ≤ lo
    · refine ⟨1, .one lo hi, fun k l low order high => ?_, fun arr _ => ?_⟩
      · rw [show k = l by omega]
      · rw [sort, if_pos small]
        rfl
    · obtain ⟨m, σ, least, most, within, lefts, rights, run⟩ := partition_returns by_ keys (Nat.lt_of_not_ge small)
      obtain ⟨σ₁, fixed₁, sorted₁, run₁⟩ := sort_left_returns lo m (keys ∘ σ) ih (by omega) (by omega)
      obtain ⟨σ₂, within₂, sorted₂, run₂⟩ := ih (keys ∘ σ ∘ σ₁) (m + 1) hi (by omega)
      have within₁ : Within lo hi σ₁ := fun k outside => fixed₁ k (by omega)
      have before : ∀ k, k ≤ m → σ₂ k = k := fun k upto => within₂ k (by omega)
      have after : ∀ k, m ≤ k → σ₁ k = k := fun k from_ => fixed₁ k (.inr from_)
      refine ⟨σ * σ₁ * σ₂, (within.mul within₁).mul (within₂.mono (by omega) (le_refl hi)), ?_, fun arr same => ?_⟩
      · refine Ascending.join (m := m) (fun k l low order high => ?_) sorted₂ (fun k low upto => ?_) fun k from_ high => ?_
        · simp only [Function.comp_apply, Equiv.Perm.mul_apply, before k (by omega), before l (by omega)]
          exact sorted₁ k l low order high
        · simp only [Function.comp_apply, Equiv.Perm.mul_apply, before k upto, before m (le_refl m), after m (le_refl m)]
          have within₁' : Within lo m σ₁ := fun k outside => fixed₁ k (by omega)
          have := within₁'.inside low upto
          exact lefts (σ₁ k) this.1 this.2
        · simp only [Function.comp_apply, Equiv.Perm.mul_apply, before m (le_refl m), after m (le_refl m)]
          have := (within₂.mono (Nat.le_succ m) (le_refl hi)).inside from_ high
          rw [after _ this.1]
          exact rights _ this.1 this.2
      · have keys₁ : key ∘ arr ∘ σ = keys ∘ σ := by rw [← same]; rfl
        have keys₂ : key ∘ (arr ∘ σ) ∘ σ₁ = keys ∘ σ ∘ σ₁ := by rw [← same]; rfl
        rw [sort, if_neg small, run arr same, ok_bind]
        simp only [run₁ _ keys₁, ok_bind, run₂ _ keys₂]
        rfl

end Sorting

/-! ## `shuffle` -/

/-- The swaps from index `i` on; index 0 is only moved by the first of all. -/
theorem shuffleLoop_returns {n : Nat} (two : 2 ≤ n) (k : Nat) {i : Nat} (rand : Nat → Nat) (count : i + k = n) :
    ∃ τ : Perm Nat, Within 0 (n - 1) τ ∧ (0 < i → τ 0 = 0) ∧
      ∀ arr : Nat → α, shuffleLoop n k i rand arr = arr ∘ τ := by
  induction k generalizing i rand with
  | zero => exact ⟨1, .one _ _, fun _ => rfl, fun arr => rfl⟩
  | succ k ih =>
    obtain ⟨τ, within, first, run⟩ := ih (i := i + 1) (fun n => rand (n + 1)) (by omega)
    have small := Nat.mod_lt (rand 0) (show 0 < n - 1 by omega)
    refine ⟨swap i (rand 0 % (n - 1) + 1) * τ, ?_, fun pos => ?_, fun arr => ?_⟩
    · exact (Within.swap (by omega) (by omega) (by omega) (by omega)).mul within
    · rw [Equiv.Perm.mul_apply, first (by omega), Equiv.swap_apply_of_ne_of_ne (by omega) (by omega)]
    · rw [shuffleLoop, run, exch_eq_swap]
      rfl

/-- `shuffle` always moves the first item away: it is never exchanged with itself, and never moved
again. -/
theorem shuffle_returns {n : Nat} (two : 2 ≤ n) (rand : Nat → Nat) :
    ∃ τ : Perm Nat, Within 0 (n - 1) τ ∧ τ 0 ≠ 0 ∧ ∀ arr : Nat → α, shuffle rand arr n = arr ∘ τ := by
  obtain ⟨k, rfl⟩ : ∃ k, n = k + 1 := ⟨n - 1, by omega⟩
  obtain ⟨τ, within, first, run⟩ :=
    shuffleLoop_returns two k (i := 1) (fun n => rand (n + 1)) (Nat.add_comm 1 k)
  have small := Nat.mod_lt (rand 0) (show 0 < k + 1 - 1 by omega)
  refine ⟨swap 0 (rand 0 % (k + 1 - 1) + 1) * τ, ?_, ?_, fun arr => ?_⟩
  · exact (Within.swap (by omega) (by omega) (by omega) (by omega)).mul within
  · rw [Equiv.Perm.mul_apply, first Nat.one_pos, Equiv.swap_apply_left]
    omega
  · rw [shuffle, if_neg (by omega), shuffleLoop, run, exch_eq_swap]
    rfl

/-- Numbers for which the swaps from index `i` on are the given permutation. -/
theorem shuffleLoop_reaches {n : Nat} (two : 2 ≤ n) (k : Nat) {i : Nat} (count : i + k = n) {τ : Perm Nat}
    (within : Within i (n - 1) τ) (first : i = 0 → τ 0 ≠ 0) :
    ∃ rand, ∀ arr : Nat → α, shuffleLoop n k i rand arr = arr ∘ τ := by
  induction k generalizing i τ with
  | zero =>
    have fixed : τ = 1 := by
      ext j
      exact within j (by omega)
    exact ⟨fun _ => 0, fun arr => by rw [fixed]; rfl⟩
  | succ k ih =>
    have inside := within.inside (le_refl i) (show i ≤ n - 1 by omega)
    have within' : Within (i + 1) (n - 1) (swap i (τ i) * τ) := by
      intro j outside
      rw [Equiv.Perm.mul_apply]
      by_cases here : j = i
      · rw [here, Equiv.swap_apply_right]
      · rw [within j (by omega), Equiv.swap_apply_of_ne_of_ne here]
        rintro rfl
        exact here (τ.injective (within _ (by omega)))
    obtain ⟨rand, run⟩ := ih (i := i + 1) (by omega) within' (by omega)
    have pos : τ i ≠ 0 := by
      rcases Nat.eq_zero_or_pos i with rfl | above
      · exact first rfl
      · omega
    refine ⟨fun t => if t = 0 then τ i - 1 else rand (t - 1), fun arr => ?_⟩
    rw [shuffleLoop]
    simp only [if_true, Nat.add_eq_zero_iff, Nat.one_ne_zero, and_false, if_false, Nat.add_sub_cancel]
    rw [Nat.mod_eq_of_lt (show τ i - 1 < n - 1 by omega), Nat.sub_add_cancel (by omega), run, exch_eq_swap]
    funext j
    simp only [Function.comp_apply, Equiv.Perm.mul_apply, Equiv.swap_apply_self]

/-- **`shuffle` reaches every permutation that moves the first item.** -/
theorem shuffle_reaches {n : Nat} (two : 2 ≤ n) {τ : Perm Nat} (within : Within 0 (n - 1) τ) (first : τ 0 ≠ 0) :
    ∃ rand, ∀ arr : Nat → α, shuffle rand arr n = arr ∘ τ := by
  obtain ⟨rand, run⟩ := shuffleLoop_reaches two n (Nat.zero_add n) within fun _ => first
  refine ⟨rand, fun arr => ?_⟩
  rw [shuffle, if_neg (by omega), run]

/-! ## `qsort` -/

section Qsort

variable {K : Type*} [LinearOrder K] {key : α → K} {cmp : α → α → Int} (by_ : ComparesBy cmp key)

include by_ in
/-- `qsort` returns, with the items rearranged so that the keys are in order. -/
theorem qsort_returns (rand : Nat → Nat) (arr : Nat → α) (n : Nat) :
    ∃ ρ : Perm Nat, Within 0 (n - 1) ρ ∧ Ascending (key ∘ arr ∘ ρ) 0 (n - 1) ∧
      qsort cmp rand arr n = .ok (arr ∘ ρ) := by
  rw [qsort]
  split
  · refine ⟨1, .one _ _, fun k l _ _ _ => ?_, rfl⟩
    rw [show k = l by omega]
  · obtain ⟨τ, within, -, shuffled⟩ := shuffle_returns (show 2 ≤ n by omega) rand
    obtain ⟨σ, within', ascending, run⟩ :=
      sort_returns by_ n (key ∘ arr ∘ τ) 0 (n - 1) (by omega)
    refine ⟨τ * σ, within.mul within', ascending, ?_⟩
    rw [shuffled, run (arr ∘ τ) rfl]
    rfl

include by_ in
/-- A shuffle that has the keys of another one, and that `sort` turns into the given order. -/
theorem exists_shuffle {arr : Nat → α} {n : Nat} (two : 2 ≤ n) {ρ : Perm Nat} (within : Within 0 (n - 1) ρ)
    (ascending : Ascending (key ∘ arr ∘ ρ) 0 (n - 1)) {τ₀ : Perm Nat} (within₀ : Within 0 (n - 1) τ₀) :
    ∃ τ : Perm Nat, Within 0 (n - 1) τ ∧ (∀ k, key (arr (τ k)) = key (arr (τ₀ k))) ∧
      sort cmp n (arr ∘ τ) 0 (n - 1) = .ok (arr ∘ ρ) := by
  obtain ⟨σ, within', ascending', run⟩ := sort_returns by_ n (key ∘ arr ∘ τ₀) 0 (n - 1) (by omega)
  have same : (key ∘ arr) ∘ (τ₀ * σ : Perm Nat) = (key ∘ arr) ∘ ρ :=
    ascending_unique (within₀.mul within') within ascending' ascending
  have keys : ∀ k, key (arr ((ρ * σ.symm) k)) = key (arr (τ₀ k)) := by
    intro k
    have at_ := congrFun same (σ.symm k)
    simp only [Function.comp_apply, Equiv.Perm.mul_apply, Equiv.apply_symm_apply] at at_ ⊢
    exact at_.symm
  refine ⟨ρ * σ.symm, within.mul within'.symm, keys, ?_⟩
  rw [run (arr ∘ (ρ * σ.symm : Perm Nat)) (funext keys)]
  congr 1
  funext k
  simp only [Function.comp_apply, Equiv.Perm.mul_apply, Equiv.symm_apply_apply]

include by_ in
/-- **Every order of the items in which the keys ascend is a result of `qsort`**, if some key differs
from the first item's or if the first two items are the same. -/
theorem qsort_reaches {arr : Nat → α} {n : Nat} (two : 2 ≤ n)
    (free : (∃ t, t < n ∧ key (arr t) ≠ key (arr 0)) ∨ arr 0 = arr 1) {ρ : Perm Nat}
    (within : Within 0 (n - 1) ρ) (ascending : Ascending (key ∘ arr ∘ ρ) 0 (n - 1)) :
    ∃ rand, qsort cmp rand arr n = .ok (arr ∘ ρ) := by
  have through : ∀ τ : Perm Nat, Within 0 (n - 1) τ → τ 0 ≠ 0 →
      sort cmp n (arr ∘ τ) 0 (n - 1) = .ok (arr ∘ ρ) → ∃ rand, qsort cmp rand arr n = .ok (arr ∘ ρ) := by
    intro τ inside first sorted
    obtain ⟨rand, shuffled⟩ := shuffle_reaches two inside first
    refine ⟨rand, ?_⟩
    rw [qsort, if_neg (by omega), shuffled, sorted]
  rcases free with ⟨t, inside, differs⟩ | twins
  · -- a shuffle that begins with a key other than the first one moves the first item
    obtain ⟨τ, within', keys, sorted⟩ := exists_shuffle by_ two within ascending
      (Within.swap (le_refl 0) (Nat.zero_le _) (Nat.zero_le t) (by omega))
    refine through τ within' (fun first => differs ?_) sorted
    have at_ := keys 0
    rw [first, Equiv.swap_apply_left] at at_
    exact at_.symm
  · obtain ⟨τ, within', -, sorted⟩ := exists_shuffle by_ two within ascending (.one 0 (n - 1))
    by_cases first : τ 0 = 0
    · -- the two equal items change places, which nobody sees
      have unseen : arr ∘ (swap 0 1 * τ : Perm Nat) = arr ∘ τ := by
        funext k
        simp only [Function.comp_apply, Equiv.Perm.mul_apply, Equiv.swap_apply_def]
        split
        · rename_i here
          rw [here, twins]
        · split
          · rename_i here
            rw [here, twins]
          · rfl
      refine through (swap 0 1 * τ)
        ((Within.swap (le_refl 0) (Nat.zero_le _) (Nat.zero_le 1) (by omega)).mul within') ?_ (unseen ▸ sorted)
      rw [Equiv.Perm.mul_apply, first, Equiv.swap_apply_left]
      exact Nat.one_ne_zero
    · exact through τ within' first sorted

end Qsort

/-- Two items are exchanged whatever the numbers are. -/
theorem qsort_two (cmp : α → α → Int) (rand rand' : Nat → Nat) (arr : Nat → α) :
    qsort cmp rand arr 2 = qsort cmp rand' arr 2 := by
  simp only [qsort, shuffle, shuffleLoop, Nat.reduceSub, Nat.mod_one]

/-! ### Three items with one key -/

section Three

variable {cmp : α → α → Int} {arr : Nat → α} (equal : ∀ i j, i < 3 → j < 3 → ¬ cmp (arr i) (arr j) < 0)

include equal in
theorem equal_comp {τ : Perm Nat} (within : Within 0 2 τ) (i j : Nat) (inside : i < 3) (inside' : j < 3) :
    ¬ cmp ((arr ∘ τ) i) ((arr ∘ τ) j) < 0 := by
  have := within.inside (Nat.zero_le i) (Nat.le_of_lt_succ inside)
  have := within.inside (Nat.zero_le j) (Nat.le_of_lt_succ inside')
  exact equal (τ i) (τ j) (by omega) (by omega)

include equal in
/-- With equal keys `sort` turns three items round. -/
theorem sort_three :
    ∃ sorted, sort cmp 3 arr 0 2 = .ok sorted ∧ (List.range 3).map sorted = [arr 2, arr 0, arr 1] := by
  have same : ∀ i j, i < 3 → j < 3 → ¬ cmp (exch arr 1 2 i) (exch arr 1 2 j) < 0 := by
    rw [exch_eq_swap]
    exact equal_comp equal (.swap (by decide) (by decide) (by decide) (by decide))
  have split : partition cmp arr 0 2 = .ok (1, exch (exch arr 1 2) 0 1) := by
    simp [partition, partitionLoop, scanUp, scanDown, equal, same]
  refine ⟨exch (exch arr 1 2) 0 1, ?_, ?_⟩
  · rw [sort, if_neg (by decide), split]
    simp [sort]
  · simp [List.range_succ, exch]

include equal in
/-- With equal keys the item in the middle is never the first one of the array. -/
theorem qsort_three (rand : Nat → Nat) :
    ∃ (τ : Perm Nat) (sorted : Nat → α), Within 0 2 τ ∧ τ 0 ≠ 0 ∧ qsort cmp rand arr 3 = .ok sorted ∧
      (List.range 3).map sorted = [arr (τ 2), arr (τ 0), arr (τ 1)] := by
  obtain ⟨τ, within, first, shuffled⟩ := shuffle_returns (show 2 ≤ 3 by decide) rand
  obtain ⟨sorted, run, list⟩ := sort_three (equal_comp equal within)
  exact ⟨τ, sorted, within, first, by rw [qsort, if_neg (by decide), shuffled, run], list⟩

include equal in
/-- Every other order of three items with equal keys is a result. -/
theorem qsort_three_reaches {τ : Perm Nat} (within : Within 0 2 τ) (first : τ 0 ≠ 0) :
    ∃ rand sorted, qsort cmp rand arr 3 = .ok sorted ∧
      (List.range 3).map sorted = [arr (τ 2), arr (τ 0), arr (τ 1)] := by
  obtain ⟨rand, shuffled⟩ := shuffle_reaches (show 2 ≤ 3 by decide) within first
  obtain ⟨sorted, run, list⟩ := sort_three (equal_comp equal within)
  exact ⟨rand, sorted, by rw [qsort, if_neg (by decide), shuffled, run], list⟩

end Three

end AlmeidaOS.Kernel
