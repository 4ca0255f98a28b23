import Mathlib.Data.Finset.Card
import Mathlib.Data.Nat.Log
import Mathlib.Tactic.Ring

/-!
# Dyadic markings

A region of `2 ^ hi` units is cut in half, and each half in half again, down to blocks of
`2 ^ lo` units. A marking says which blocks of that binary tree exist and what they are: in one
piece and free (`unused`), cut in two (`split`), or handed out (`used`). Block `(k, i)` is the
`i`-th block of order `k`, and the unit `a` lies in it exactly when `a / 2 ^ k = i`.

`Marking.WF` is the one structural law: a block exists exactly when its parent is split. It
gives that used blocks never meet (`WF.used_unique`) and that nothing exists below a block in one
piece (`WF.below`). `Marking.Coalesced` says that no split is idle. The two together leave no
freedom: a coalesced marking is determined by its used blocks (`eq_of_used`).
-/

namespace AlmeidaOS.Blocks

/-- What an existing block is. -/
inductive Mark where
  | unused
  | split
  | used
deriving DecidableEq, Repr

/-- The mark of every block, by order and index; `none` where no block exists. -/
abbrev Marking := Nat → Nat → Option Mark

namespace Marking

/-- A block exists exactly when its parent is split; the root always does, and the smallest
blocks are never split. -/
structure WF (lo hi : Nat) (t : Marking) : Prop where
  le : lo ≤ hi
  root : ∃ m, t hi 0 = some m
  top : ∀ i, i ≠ 0 → t hi i = none
  child : ∀ k i, lo ≤ k → k < hi → ((∃ m, t k i = some m) ↔ t (k + 1) (i / 2) = some .split)
  leaf : ∀ i, t lo i ≠ some .split

variable {lo hi : Nat} {t : Marking}

theorem div_pow_succ (i d : Nat) : i / 2 ^ (d + 1) = i / 2 ^ d / 2 := by
  rw [Nat.pow_succ, Nat.div_div_eq_div_mul]

theorem div_pow_sub {a k j : Nat} (h : k ≤ j) : a / 2 ^ k / 2 ^ (j - k) = a / 2 ^ j := by
  rw [Nat.div_div_eq_div_mul, ← Nat.pow_add, Nat.add_sub_cancel' h]

/-- A unit lies in the left half of the block around it when the half around it has an even index. -/
theorem lt_left_half_iff (a k : Nat) :
    a < a / 2 ^ (k + 1) * 2 ^ (k + 1) + 2 ^ k ↔ a / 2 ^ k = 2 * (a / 2 ^ (k + 1)) := by
  have lower := Nat.div_mul_le_self a (2 ^ k)
  have upper := Nat.lt_div_mul_add (a := a) (Nat.two_pow_pos k)
  rw [div_pow_succ, Nat.pow_succ, Nat.mul_two, Nat.mul_add]
  generalize a / 2 ^ k = q at *
  constructor
  · intro less
    by_contra odd
    have : q = 2 * (q / 2) + 1 := by omega
    rw [this] at lower
    have expand : (2 * (q / 2) + 1) * 2 ^ k = q / 2 * 2 ^ k + q / 2 * 2 ^ k + 2 ^ k := by ring
    omega
  · intro even
    rw [even] at upper
    have expand : 2 * (q / 2) * 2 ^ k = q / 2 * 2 ^ k + q / 2 * 2 ^ k := by ring
    omega

/-! ## What the structure gives -/

/-- Everything above an existing block is split. -/
theorem WF.above (wf : WF lo hi t) {k i : Nat} {m : Mark} (low : lo ≤ k) (h : t k i = some m) :
    ∀ d, k + (d + 1) ≤ hi → t (k + (d + 1)) (i / 2 ^ (d + 1)) = some .split
  | 0, inside => by
    rw [Nat.zero_add, Nat.pow_one]
    exact (wf.child k i low inside).mp ⟨m, h⟩
  | d + 1, inside => by
    have parent := wf.above low h d (by omega)
    rw [div_pow_succ]
    exact (wf.child (k + (d + 1)) _ (by omega) (by omega)).mp ⟨_, parent⟩

/-- The same, at the blocks around one unit. -/
theorem WF.around (wf : WF lo hi t) {a k j : Nat} {m : Mark} (low : lo ≤ k) (lt : k < j)
    (high : j ≤ hi) (h : t k (a / 2 ^ k) = some m) : t j (a / 2 ^ j) = some .split := by
  have := wf.above low h (j - k - 1) (by omega)
  rwa [show k + (j - k - 1 + 1) = j by omega, show j - k - 1 + 1 = j - k by omega,
    div_pow_sub (by omega)] at this

/-- Nothing exists below a block that is not split. -/
theorem WF.below (wf : WF lo hi t) {a k j : Nat} (low : lo ≤ k) (lt : k < j) (high : j ≤ hi)
    (h : t j (a / 2 ^ j) ≠ some .split) : t k (a / 2 ^ k) = none := by
  cases there : t k (a / 2 ^ k) with
  | none => rfl
  | some m => exact absurd (wf.around low lt high there) h

/-- Two blocks in one piece that share a unit are one block. -/
theorem WF.solid_unique (wf : WF lo hi t) {a k j : Nat} {m n : Mark} (lowk : lo ≤ k) (lowj : lo ≤ j)
    (highk : k ≤ hi) (highj : j ≤ hi) (hk : t k (a / 2 ^ k) = some m) (hj : t j (a / 2 ^ j) = some n)
    (hm : m ≠ .split) (hn : n ≠ .split) : k = j := by
  rcases Nat.lt_trichotomy k j with lt | eq | gt
  · have := wf.around lowk lt highj hk
    rw [hj] at this
    exact absurd (Option.some.inj this) hn
  · exact eq
  · have := wf.around lowj gt highk hj
    rw [hk] at this
    exact absurd (Option.some.inj this) hm

/-- Two used blocks that share a unit are one block. -/
theorem WF.used_unique (wf : WF lo hi t) {a k j : Nat} (lowk : lo ≤ k) (lowj : lo ≤ j)
    (highk : k ≤ hi) (highj : j ≤ hi) (hk : t k (a / 2 ^ k) = some .used)
    (hj : t j (a / 2 ^ j) = some .used) : k = j :=
  wf.solid_unique lowk lowj highk highj hk hj (by decide) (by decide)

/-- An existing block has an index in range. -/
theorem WF.index_lt (wf : WF lo hi t) {k i : Nat} {m : Mark} (low : lo ≤ k) (high : k ≤ hi)
    (h : t k i = some m) : i < 2 ^ (hi - k) := by
  rcases Nat.lt_or_eq_of_le high with lt | rfl
  · have above := wf.above low h (hi - k - 1) (by omega)
    rw [show k + (hi - k - 1 + 1) = hi by omega, show hi - k - 1 + 1 = hi - k by omega] at above
    by_contra far
    have index : i / 2 ^ (hi - k) ≠ 0 :=
      Nat.ne_of_gt (Nat.div_pos (Nat.le_of_not_lt far) (Nat.two_pow_pos _))
    rw [wf.top _ index] at above
    cases above
  · by_contra far
    have : i ≠ 0 := by
      rintro rfl
      exact far (Nat.two_pow_pos _)
    rw [wf.top i this] at h
    cases h

/-- Every unit of the region lies in one block that is in one piece. -/
theorem WF.exists_solid (wf : WF lo hi t) {a : Nat} (inside : a < 2 ^ hi) :
    ∃ k m, lo ≤ k ∧ k ≤ hi ∧ t k (a / 2 ^ k) = some m ∧ m ≠ .split := by
  suffices down : ∀ d k, lo + d = k → k ≤ hi → (∃ m, t k (a / 2 ^ k) = some m) →
      ∃ k m, lo ≤ k ∧ k ≤ hi ∧ t k (a / 2 ^ k) = some m ∧ m ≠ .split by
    refine down (hi - lo) hi (by have := wf.le; omega) (Nat.le_refl _) ?_
    rw [Nat.div_eq_of_lt inside]
    exact wf.root
  intro d
  induction d with
  | zero =>
    rintro k rfl high ⟨m, h⟩
    refine ⟨lo, m, Nat.le_refl _, high, h, ?_⟩
    rintro rfl
    exact wf.leaf _ h
  | succ d ih =>
    rintro k rfl high ⟨m, h⟩
    by_cases cut : m = .split
    · -- the half that holds `a` exists one order below
      subst cut
      refine ih (lo + d) rfl (by omega) ((wf.child (lo + d) _ (by omega) (by omega)).mpr ?_)
      rw [← div_pow_succ]
      exact h
    · exact ⟨_, m, by omega, high, h, cut⟩

/-! ## Coverage and idleness -/

/-- The unit lies in a used block. -/
def Covered (lo hi : Nat) (t : Marking) (a : Nat) : Prop :=
  ∃ k, lo ≤ k ∧ k ≤ hi ∧ t k (a / 2 ^ k) = some .used

/-- Some used block lies inside block `(k, i)`. -/
def Busy (lo : Nat) (t : Marking) (k i : Nat) : Prop :=
  ∃ j i', lo ≤ j ∧ j ≤ k ∧ t j i' = some .used ∧ i' / 2 ^ (k - j) = i

/-- No split is idle: every one has a used block below. -/
def Coalesced (lo hi : Nat) (t : Marking) : Prop :=
  ∀ k i, lo ≤ k → k ≤ hi → t k i = some .split → Busy lo t k i

theorem Busy.of_covered (wf : WF lo hi t) {a k : Nat} (low : lo ≤ k)
    (h : Covered lo hi t a) (there : t k (a / 2 ^ k) = some .split) :
    Busy lo t k (a / 2 ^ k) := by
  obtain ⟨j, lowj, highj, used⟩ := h
  rcases Nat.lt_or_ge k j with lt | ge
  · have := wf.around low lt highj there
    rw [used] at this
    cases this
  · exact ⟨j, a / 2 ^ j, lowj, ge, used, div_pow_sub ge⟩

/-- Used blocks that stay used keep every block that holds one busy. -/
theorem Busy.mono {t' : Marking} (grow : ∀ k i, t k i = some .used → t' k i = some .used)
    {k i : Nat} (h : Busy lo t k i) : Busy lo t' k i := by
  obtain ⟨j, i', low, le, used, index⟩ := h
  exact ⟨j, i', low, le, grow _ _ used, index⟩

/-- A block around a busy block is busy. -/
theorem Busy.widen {k i : Nat} (h : Busy lo t k i) (d : Nat) : Busy lo t (k + d) (i / 2 ^ d) := by
  obtain ⟨j, i', low, le, used, index⟩ := h
  refine ⟨j, i', low, by omega, used, ?_⟩
  rw [← index, Nat.div_div_eq_div_mul, ← Nat.pow_add]
  congr 2
  omega

/-- In a coalesced marking a block is split exactly when a used block lies strictly inside. -/
theorem WF.split_iff (wf : WF lo hi t) (co : Coalesced lo hi t) {k i : Nat} (lowk : lo ≤ k)
    (high : k ≤ hi) :
    t k i = some .split ↔ ∃ j i', lo ≤ j ∧ j < k ∧ t j i' = some .used ∧ i' / 2 ^ (k - j) = i := by
  constructor
  · intro h
    obtain ⟨j, i', low, le, used, index⟩ := co k i lowk high h
    refine ⟨j, i', low, Nat.lt_of_le_of_ne le ?_, used, index⟩
    rintro rfl
    rw [Nat.sub_self, Nat.pow_zero, Nat.div_one] at index
    rw [index, h] at used
    cases used
  · rintro ⟨j, i', low, lt, used, rfl⟩
    have := wf.above low used (k - j - 1) (by omega)
    rwa [show j + (k - j - 1 + 1) = k by omega, show k - j - 1 + 1 = k - j by omega] at this

/-- **A coalesced marking is its used blocks.** Splits are read off the used blocks, existence
is read off the splits, and what exists and is neither split nor used is unused. -/
theorem eq_of_used {t' : Marking} (wf : WF lo hi t) (wf' : WF lo hi t') (co : Coalesced lo hi t)
    (co' : Coalesced lo hi t')
    (same : ∀ k i, lo ≤ k → k ≤ hi → (t k i = some .used ↔ t' k i = some .used))
    {k i : Nat} (low : lo ≤ k) (high : k ≤ hi) : t k i = t' k i := by
  have splits : ∀ k i, lo ≤ k → k ≤ hi → (t k i = some .split ↔ t' k i = some .split) := by
    intro k i low high
    rw [wf.split_iff co low high, wf'.split_iff co' low high]
    constructor
    · rintro ⟨j, i', low, lt, used, index⟩
      exact ⟨j, i', low, lt, (same j i' low (by omega)).mp used, index⟩
    · rintro ⟨j, i', low, lt, used, index⟩
      exact ⟨j, i', low, lt, (same j i' low (by omega)).mpr used, index⟩
  have exists_iff : (∃ m, t k i = some m) ↔ ∃ m, t' k i = some m := by
    rcases Nat.lt_or_eq_of_le high with lt | rfl
    · rw [wf.child k i low lt, wf'.child k i low lt, splits _ _ (by omega) (by omega)]
    · by_cases first : i = 0
      · subst first
        exact iff_of_true wf.root wf'.root
      · rw [wf.top i first, wf'.top i first]
  have hs := splits k i low high
  have hu := same k i low high
  cases h : t k i with
  | none =>
    cases h' : t' k i with
    | none => rfl
    | some m' =>
      rw [h, h'] at exists_iff
      obtain ⟨m, hm⟩ := exists_iff.mpr ⟨m', rfl⟩
      cases hm
  | some m =>
    obtain ⟨m', h'⟩ := exists_iff.mp ⟨m, h⟩
    rw [h, h'] at hs hu
    rw [h']
    cases m <;> cases m' <;> simp_all

/-- A unit of a free block is in no used block. -/
theorem WF.not_covered_of_unused (wf : WF lo hi t) {a k : Nat} (low : lo ≤ k) (high : k ≤ hi)
    (free : t k (a / 2 ^ k) = some .unused) : ¬ Covered lo hi t a := by
  rintro ⟨j, lowj, highj, used⟩
  obtain rfl := wf.solid_unique lowj low highj high used free (by decide) (by decide)
  rw [used] at free
  cases free

/-- A free block of order `goal` or more is there exactly when some block of that order, cut out or
not, meets no used block. -/
theorem WF.unused_iff_clear (wf : WF lo hi t) (co : Coalesced lo hi t) {goal : Nat} (low : lo ≤ goal)
    (high : goal ≤ hi) :
    (∃ j f, goal ≤ j ∧ j ≤ hi ∧ t j f = some .unused) ↔
      ∃ i, i < 2 ^ (hi - goal) ∧ ∀ a, a / 2 ^ goal = i → ¬ Covered lo hi t a := by
  constructor
  · rintro ⟨j, f, le, highj, free⟩
    have index := wf.index_lt (by omega) highj free
    refine ⟨f * 2 ^ (j - goal), ?_, fun a inside => ?_⟩
    · rw [show hi - goal = (hi - j) + (j - goal) by omega, Nat.pow_add]
      exact Nat.mul_lt_mul_of_pos_right index (Nat.two_pow_pos _)
    · refine wf.not_covered_of_unused (k := j) (by omega) highj ?_
      rw [← div_pow_sub le, inside, Nat.mul_div_cancel _ (Nat.two_pow_pos _), free]
  · rintro ⟨i, index, clear⟩
    have first : i * 2 ^ goal / 2 ^ goal = i := Nat.mul_div_cancel i (Nat.two_pow_pos goal)
    have inside : i * 2 ^ goal < 2 ^ hi := by
      rw [show hi = (hi - goal) + goal by omega, Nat.pow_add]
      exact Nat.mul_lt_mul_of_pos_right index (Nat.two_pow_pos _)
    obtain ⟨k, m, lowk, highk, there, solid⟩ := wf.exists_solid inside
    cases m with
    | split => exact absurd rfl solid
    | used => exact absurd ⟨k, lowk, highk, there⟩ (clear _ first)
    | unused =>
      refine ⟨k, _, ?_, highk, there⟩
      -- a block in one piece below the order would lie under a split with a used block in it
      by_contra small
      have cut := wf.around lowk (Nat.lt_of_not_le small) high there
      rw [first] at cut
      obtain ⟨j, f, lowj, le, used, below⟩ := co goal i low high cut
      have start : f * 2 ^ j / 2 ^ j = f := Nat.mul_div_cancel f (Nat.two_pow_pos j)
      refine clear (f * 2 ^ j) ?_ ⟨j, lowj, by omega, by rw [start, used]⟩
      rw [← div_pow_sub le, start, below]

/-- At least `n` blocks of order `k`, cut out or not, meet no used block. -/
def Roomy (lo hi : Nat) (t : Marking) (k n : Nat) : Prop :=
  ∃ S : Finset Nat, n ≤ S.card ∧ ∀ i ∈ S, i < 2 ^ (hi - k) ∧ ∀ a, a / 2 ^ k = i → ¬ Covered lo hi t a

/-- A used block more, of that order or below, meets one of them at most. -/
theorem Roomy.take {t' : Marking} {k n j f : Nat} (roomy : Roomy lo hi t k (n + 1)) (le : j ≤ k)
    (used : ∀ j' f', t' j' f' = some .used → t j' f' = some .used ∨ j' = j ∧ f' = f) : Roomy lo hi t' k n := by
  obtain ⟨S, many, clear⟩ := roomy
  refine ⟨S.erase (f / 2 ^ (k - j)), ?_, fun i mem => ?_⟩
  · have := Finset.pred_card_le_card_erase (s := S) (a := f / 2 ^ (k - j))
    omega
  · obtain ⟨other, mem⟩ := Finset.mem_erase.mp mem
    refine ⟨(clear i mem).1, fun a inside => ?_⟩
    rintro ⟨j', low, high, there⟩
    rcases used _ _ there with old | ⟨rfl, rfl⟩
    · exact (clear i mem).2 a inside ⟨j', low, high, old⟩
    · exact other (by rw [div_pow_sub le, inside])

/-- Each of them holds one of any smaller order. -/
theorem Roomy.finer {j k n : Nat} (roomy : Roomy lo hi t k n) (le : j ≤ k) (high : k ≤ hi) : Roomy lo hi t j n := by
  obtain ⟨S, many, clear⟩ := roomy
  have pos := Nat.two_pow_pos (k - j)
  refine ⟨S.image (· * 2 ^ (k - j)), ?_, fun f mem => ?_⟩
  · rwa [Finset.card_image_of_injective _ fun a b same => Nat.eq_of_mul_eq_mul_right pos same]
  · obtain ⟨i, inS, rfl⟩ := Finset.mem_image.mp mem
    obtain ⟨index, free⟩ := clear i inS
    refine ⟨?_, fun a inside => free a ?_⟩
    · rw [show hi - j = (hi - k) + (k - j) by omega, Nat.pow_add]
      exact Nat.mul_lt_mul_of_pos_right index pos
    · rw [← div_pow_sub le, inside]
      exact Nat.mul_div_cancel i pos

theorem Roomy.unused {k n : Nat} (roomy : Roomy lo hi t k (n + 1)) (wf : WF lo hi t) (co : Coalesced lo hi t)
    (low : lo ≤ k) (high : k ≤ hi) : ∃ j f, k ≤ j ∧ j ≤ hi ∧ t j f = some .unused := by
  obtain ⟨S, many, clear⟩ := roomy
  obtain ⟨i, mem⟩ : S.Nonempty := Finset.card_pos.mp (by omega)
  exact (wf.unused_iff_clear co low high).mpr ⟨i, clear i mem⟩

/-! ## Changing one block -/

/-- The marking with block `(k, i)` remarked. -/
def set (t : Marking) (k i : Nat) (v : Option Mark) : Marking :=
  fun k' i' => if k' = k ∧ i' = i then v else t k' i'

@[simp] theorem set_self (t : Marking) (k i : Nat) (v : Option Mark) : t.set k i v k i = v :=
  if_pos ⟨rfl, rfl⟩

theorem set_of_ne {k i k' i' : Nat} (v : Option Mark) (h : k' ≠ k ∨ i' ≠ i) :
    t.set k i v k' i' = t k' i' :=
  if_neg (by omega)

/-- Cutting a block in two free halves. -/
def cut (t : Marking) (k i : Nat) : Marking :=
  ((t.set k i (some .split)).set (k - 1) (2 * i) (some .unused)).set (k - 1) (2 * i + 1)
    (some .unused)

/-- Joining the two halves of block `(k + 1, i)` into one free block. -/
def join (t : Marking) (k i : Nat) : Marking :=
  ((t.set (k + 1) i (some .unused)).set k (2 * i) none).set k (2 * i + 1) none

theorem cut_apply (t : Marking) {k : Nat} (i k' i' : Nat) (pos : 0 < k) :
    t.cut k i k' i' = if k' = k ∧ i' = i then some .split
      else if k' + 1 = k ∧ i' / 2 = i then some .unused else t k' i' := by
  unfold cut set
  split_ifs <;> first | rfl | omega

theorem join_apply (t : Marking) (k i k' i' : Nat) :
    t.join k i k' i' = if k' = k + 1 ∧ i' = i then some .unused
      else if k' = k ∧ i' / 2 = i then none else t k' i' := by
  unfold join set
  split_ifs <;> first | rfl | omega

/-- Remarking a block in one piece as another block in one piece keeps the structure. -/
theorem WF.set_solid (wf : WF lo hi t) {k i : Nat} {m m' : Mark} (h : t k i = some m)
    (hm : m ≠ .split) (hm' : m' ≠ .split) : WF lo hi (t.set k i (some m')) := by
  refine ⟨wf.le, ?_, ?_, ?_, ?_⟩
  · obtain ⟨r, hr⟩ := wf.root
    by_cases here : hi = k ∧ 0 = i
    · exact ⟨m', if_pos here⟩
    · exact ⟨r, by rw [set, if_neg here, hr]⟩
  · intro j hj
    have := wf.top j hj
    rw [set_of_ne]
    · exact this
    · by_contra here
      obtain ⟨rfl, rfl⟩ : hi = k ∧ j = i := by omega
      rw [h] at this
      cases this
  · intro k' i' low lt
    have child := wf.child k' i' low lt
    have parent : t.set k i (some m') (k' + 1) (i' / 2) = some .split ↔
        t (k' + 1) (i' / 2) = some .split := by
      by_cases here : k' + 1 = k ∧ i' / 2 = i
      · rw [set, if_pos here, here.1, here.2, h]
        simp only [Option.some.injEq, hm, hm']
      · rw [set, if_neg here]
    rw [parent, ← child]
    by_cases here : k' = k ∧ i' = i
    · rw [set, if_pos here, here.1, here.2, h]
      exact iff_of_true ⟨_, rfl⟩ ⟨_, rfl⟩
    · rw [set, if_neg here]
  · intro j
    by_cases here : lo = k ∧ j = i
    · rw [set, if_pos here]
      simpa using hm'
    · rw [set, if_neg here]
      exact wf.leaf j

/-- Cutting a free block keeps the structure. -/
theorem WF.cut (wf : WF lo hi t) {k i : Nat} (low : lo < k) (high : k ≤ hi)
    (h : t k i = some .unused) : WF lo hi (t.cut k i) := by
  have pos : 0 < k := by omega
  refine ⟨wf.le, ?_, ?_, ?_, ?_⟩
  · obtain ⟨r, hr⟩ := wf.root
    rw [cut_apply t i hi 0 pos]
    split_ifs
    · exact ⟨_, rfl⟩
    · exact ⟨_, rfl⟩
    · exact ⟨r, hr⟩
  · intro j hj
    have := wf.top j hj
    rw [cut_apply t i hi j pos, if_neg, if_neg (by omega)]
    · exact this
    · rintro ⟨rfl, rfl⟩
      rw [h] at this
      cases this
  · intro k' i' lowk lt
    have child := wf.child k' i' lowk lt
    rw [cut_apply t i k' i' pos, cut_apply t i (k' + 1) (i' / 2) pos]
    by_cases here : k' = k ∧ i' = i
    · -- the cut block itself: its parent is not touched
      rw [if_pos here, if_neg (by omega), if_neg (by omega), ← child, here.1, here.2, h]
      exact iff_of_true ⟨_, rfl⟩ ⟨_, rfl⟩
    rw [if_neg here]
    by_cases half : k' + 1 = k ∧ i' / 2 = i
    · rw [if_pos half, if_pos half]
      exact iff_of_true ⟨_, rfl⟩ rfl
    rw [if_neg half, if_neg half]
    by_cases grand : k' + 1 + 1 = k ∧ i' / 2 / 2 = i
    · -- below the new halves nothing existed, and nothing does
      rw [if_pos grand, child]
      have missing : t (k' + 1) (i' / 2) = none := by
        have := wf.child (k' + 1) (i' / 2) (by omega) (by omega)
        cases half' : t (k' + 1) (i' / 2) with
        | none => rfl
        | some m =>
          have cut := this.mp ⟨m, half'⟩
          rw [grand.1, grand.2, h] at cut
          cases cut
      rw [missing]
      simp
    · rw [if_neg grand]
      exact child
  · intro j
    rw [cut_apply t i lo j pos, if_neg (by omega)]
    split_ifs
    · simp
    · exact wf.leaf j

/-- Joining two free halves keeps the structure. -/
theorem WF.join (wf : WF lo hi t) {k i : Nat} (low : lo ≤ k) (high : k < hi)
    (left : t k (2 * i) = some .unused) (right : t k (2 * i + 1) = some .unused) :
    WF lo hi (t.join k i) := by
  have parent : t (k + 1) i = some .split := by
    have := (wf.child k (2 * i) low high).mp ⟨_, left⟩
    rwa [Nat.mul_div_cancel_left i (by decide)] at this
  have half : ∀ j, j / 2 = i → t k j = some .unused := by
    intro j hj
    rcases Nat.mod_two_eq_zero_or_one j with even | odd
    · rw [show j = 2 * i by omega]
      exact left
    · rw [show j = 2 * i + 1 by omega]
      exact right
  refine ⟨wf.le, ?_, ?_, ?_, ?_⟩
  · obtain ⟨r, hr⟩ := wf.root
    rw [join_apply, if_neg (c := hi = k ∧ 0 / 2 = i) (by omega)]
    split_ifs
    · exact ⟨_, rfl⟩
    · exact ⟨r, hr⟩
  · intro j hj
    have := wf.top j hj
    rw [join_apply, if_neg, if_neg (by omega)]
    · exact this
    · rintro ⟨rfl, rfl⟩
      rw [parent] at this
      cases this
  · intro k' i' lowk lt
    have child := wf.child k' i' lowk lt
    rw [join_apply, join_apply]
    by_cases here : k' = k + 1 ∧ i' = i
    · rw [if_pos here, if_neg (by omega), if_neg (by omega), ← child, here.1, here.2, parent]
      exact iff_of_true ⟨_, rfl⟩ ⟨_, rfl⟩
    rw [if_neg here]
    by_cases gone : k' = k ∧ i' / 2 = i
    · rw [if_pos gone, if_pos (by omega)]
      simp
    rw [if_neg gone, if_neg (c := k' + 1 = k + 1 ∧ i' / 2 = i) (by omega)]
    by_cases grand : k' + 1 = k ∧ i' / 2 / 2 = i
    · rw [if_pos grand, child, grand.1, half _ grand.2]
      simp
    · rw [if_neg grand]
      exact child
  · intro j
    rw [join_apply, if_neg (by omega)]
    split_ifs
    · simp
    · exact wf.leaf j

end Marking

end AlmeidaOS.Blocks
