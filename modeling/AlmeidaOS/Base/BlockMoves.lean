import AlmeidaOS.Base.Blocks

/-!
# Moves of a buddy allocator

Three ways to change a marking, each as an invariant of its loop and the steps that keep it.

* `Search`: look for a free block of an order, going up while there is none and cutting down once
  there is one. While it cuts, idle splits exist, and they all lie around the free blocks at hand.
* `Merge`: give a block back and join it with its buddy as long as that one is free too. While it
  joins, idle splits exist, and they all lie around the block in hand.
* `Reserves t t' a len`: what reserving the units `[a, a + len)` does, in one go or in parts.

Each of them ends in a coalesced marking.
-/

namespace AlmeidaOS.Blocks.Marking

variable {lo hi : Nat} {t : Marking} {k i : Nat}

/-! ## Used blocks under the moves -/

theorem WF.child_none (wf : WF lo hi t) (low : lo ≤ k) (high : k < hi)
    (h : t (k + 1) (i / 2) ≠ some .split) : t k i = none := by
  cases there : t k i with
  | none => rfl
  | some m => exact absurd ((wf.child k i low high).mp ⟨m, there⟩) h

/-- Cutting a free block changes no used block. -/
theorem WF.cut_used (wf : WF lo hi t) (low : lo < k) (high : k ≤ hi) (h : t k i = some .unused)
    (k' i' : Nat) : t.cut k i k' i' = some .used ↔ t k' i' = some .used := by
  rw [cut_apply t i k' i' (by omega)]
  by_cases here : k' = k ∧ i' = i
  · rw [if_pos here, here.1, here.2, h]
    simp
  rw [if_neg here]
  by_cases half : k' + 1 = k ∧ i' / 2 = i
  · have missing : t k' i' = none :=
      wf.child_none (by omega) (by omega) (by rw [half.1, half.2, h]; simp)
    rw [if_pos half, missing]
    simp
  · rw [if_neg half]

/-- Joining two free halves changes no used block. -/
theorem join_used (left : t k (2 * i) = some .unused) (right : t k (2 * i + 1) = some .unused)
    (parent : t (k + 1) i = some .split) (k' i' : Nat) :
    t.join k i k' i' = some .used ↔ t k' i' = some .used := by
  rw [join_apply]
  by_cases here : k' = k + 1 ∧ i' = i
  · rw [if_pos here, here.1, here.2, parent]
    simp
  rw [if_neg here]
  by_cases gone : k' = k ∧ i' / 2 = i
  · rw [if_pos gone, gone.1]
    rcases Nat.mod_two_eq_zero_or_one i' with even | odd
    · rw [show i' = 2 * i by omega, left]
      simp
    · rw [show i' = 2 * i + 1 by omega, right]
      simp
  · rw [if_neg gone]

/-- Cutting adds the one split it makes. -/
theorem split_of_cut {k' i' : Nat} (pos : 0 < k) (cut : t.cut k i k' i' = some .split) :
    k' = k ∧ i' = i ∨ t k' i' = some .split := by
  rw [cut_apply t i k' i' pos] at cut
  by_cases here : k' = k ∧ i' = i
  · exact .inl here
  rw [if_neg here] at cut
  by_cases half : k' + 1 = k ∧ i' / 2 = i
  · rw [if_pos half] at cut
    cases cut
  · rw [if_neg half] at cut
    exact .inr cut

/-- Joining removes the one split it undoes. -/
theorem split_of_join {k' i' : Nat} (cut : t.join k i k' i' = some .split) :
    ¬ (k' = k + 1 ∧ i' = i) ∧ t k' i' = some .split := by
  rw [join_apply] at cut
  by_cases here : k' = k + 1 ∧ i' = i
  · rw [if_pos here] at cut
    cases cut
  rw [if_neg here] at cut
  by_cases gone : k' = k ∧ i' / 2 = i
  · rw [if_pos gone] at cut
    cases cut
  · rw [if_neg gone] at cut
    exact ⟨here, cut⟩

/-! ## Search -/

/-- The search for a free block of order `goal`, now at order `k`. No order below has one, and
an idle split is one that lies around every free block of order `k`, of which there is one. -/
structure Search (lo hi goal k : Nat) (t : Marking) : Prop where
  wf : WF lo hi t
  low : lo ≤ goal
  le : goal ≤ k
  high : k ≤ hi
  barren : ∀ j i, goal ≤ j → j < k → t j i ≠ some .unused
  idle : ∀ j i, lo ≤ j → j ≤ hi → t j i = some .split → Busy lo t j i ∨
    (∃ f, t k f = some .unused) ∧ ∀ f, t k f = some .unused → k < j ∧ f / 2 ^ (j - k) = i

theorem Search.start {goal : Nat} (wf : WF lo hi t) (co : Coalesced lo hi t) (low : lo ≤ goal)
    (high : goal ≤ hi) : Search lo hi goal goal t :=
  ⟨wf, low, Nat.le_refl _, high, fun _ _ _ _ => by omega,
    fun j i lowj highj cut => .inl (co j i lowj highj cut)⟩

/-- Nothing free at this order: look one order up. -/
theorem Search.up {goal : Nat} (s : Search lo hi goal k t) (none : ∀ i, t k i ≠ some .unused)
    (below : k < hi) : Search lo hi goal (k + 1) t := by
  refine ⟨s.wf, s.low, by have := s.le; omega, below, ?_, ?_⟩
  · intro j i le lt
    rcases Nat.lt_or_eq_of_le (Nat.le_of_lt_succ lt) with less | rfl
    · exact s.barren j i le less
    · exact none i
  · intro j i lowj highj cut
    rcases s.idle j i lowj highj cut with busy | ⟨⟨f, free⟩, _⟩
    · exact .inl busy
    · exact absurd free (none f)

/-- A free block above the goal: cut it and look one order down. -/
theorem Search.cut {goal : Nat} (s : Search lo hi goal k t) (above : goal < k)
    (free : t k i = some .unused) : Search lo hi goal (k - 1) (t.cut k i) := by
  have low := s.low
  have high := s.high
  have wf' := s.wf.cut (by omega) high free
  have used := s.wf.cut_used (by omega) high free
  -- the halves are the only free blocks one order down
  have halves : ∀ f, t.cut k i (k - 1) f = some .unused ↔ f / 2 = i := by
    intro f
    rw [cut_apply t i (k - 1) f (by omega), if_neg (by omega)]
    by_cases half : f / 2 = i
    · rw [if_pos ⟨by omega, half⟩]
      exact iff_of_true rfl half
    · rw [if_neg (by omega)]
      exact iff_of_false (s.barren (k - 1) f (by omega) (by omega)) half
  have around : ∀ {f j i'}, f / 2 = i → k < j → i / 2 ^ (j - k) = i' → f / 2 ^ (j - (k - 1)) = i' := by
    intro f j i' half lt index
    rw [show j - (k - 1) = 1 + (j - k) by omega, Nat.pow_add, ← Nat.div_div_eq_div_mul, Nat.pow_one,
      half, index]
  refine ⟨wf', low, by omega, by omega, ?_, ?_⟩
  · intro j f le lt
    rw [cut_apply t i j f (by omega), if_neg (by omega), if_neg (by omega)]
    exact s.barren j f le (by omega)
  · intro j i' lowj highj cut
    rcases split_of_cut (by omega) cut with ⟨rfl, rfl⟩ | old
    · refine .inr ⟨⟨2 * i', (halves _).mpr (by omega)⟩, fun f hf => ⟨by omega, ?_⟩⟩
      rw [show j - (j - 1) = 1 by omega, Nat.pow_one]
      exact (halves f).mp hf
    · rcases s.idle j i' lowj highj old with busy | ⟨_, wraps⟩
      · exact .inl (busy.mono fun k' f hf => (used k' f).mpr hf)
      · obtain ⟨lt, index⟩ := wraps i free
        exact .inr ⟨⟨2 * i, (halves _).mpr (by omega)⟩,
          fun f hf => ⟨by omega, around ((halves f).mp hf) lt index⟩⟩

theorem set_used_iff (k' i' : Nat) :
    t.set k i (some .used) k' i' = some .used ↔ t k' i' = some .used ∨ k' = k ∧ i' = i := by
  by_cases here : k' = k ∧ i' = i
  · rw [set, if_pos here]
    exact iff_of_true rfl (.inr here)
  · rw [set, if_neg here]
    exact ⟨.inl, fun h => h.resolve_right here⟩

theorem set_split_iff {m m' : Mark} (there : t k i = some m) (hm : m ≠ .split) (hm' : m' ≠ .split)
    (k' i' : Nat) : t.set k i (some m') k' i' = some .split ↔ t k' i' = some .split := by
  by_cases here : k' = k ∧ i' = i
  · rw [set, if_pos here, here.1, here.2, there]
    simp only [Option.some.injEq, hm, hm']
  · rw [set, if_neg here]

/-- A free block of the goal's order: take it, and no split is idle any more. -/
theorem Search.take {goal : Nat} (s : Search lo hi goal goal t) (free : t goal i = some .unused) :
    Coalesced lo hi (t.set goal i (some .used)) := by
  intro j i' lowj highj cut
  rw [set_split_iff free (by decide) (by decide)] at cut
  have grow : ∀ k' f, t k' f = some .used → t.set goal i (some .used) k' f = some .used :=
    fun k' f hf => (set_used_iff k' f).mpr (.inl hf)
  rcases s.idle j i' lowj highj cut with busy | ⟨_, wraps⟩
  · exact busy.mono grow
  · obtain ⟨lt, index⟩ := wraps i free
    exact ⟨goal, i, s.low, by omega, set_self _ _ _ _, index⟩

/-! ## Merge -/

/-- The block `(k, i)` is free and being merged upwards: every idle split lies around it. -/
structure Merge (lo hi k i : Nat) (t : Marking) : Prop where
  wf : WF lo hi t
  low : lo ≤ k
  high : k ≤ hi
  free : t k i = some .unused
  idle : ∀ j i', lo ≤ j → j ≤ hi → t j i' = some .split →
    Busy lo t j i' ∨ k < j ∧ i / 2 ^ (j - k) = i'

/-- A used block is given back. -/
theorem Merge.start (wf : WF lo hi t) (co : Coalesced lo hi t) (low : lo ≤ k) (high : k ≤ hi)
    (used : t k i = some .used) : Merge lo hi k i (t.set k i (some .unused)) := by
  refine ⟨wf.set_solid used (by decide) (by decide), low, high, set_self _ _ _ _, ?_⟩
  intro j i' lowj highj cut
  rw [set_split_iff used (by decide) (by decide)] at cut
  obtain ⟨j', f, lowj', le, usedf, index⟩ := co j i' lowj highj cut
  by_cases here : j' = k ∧ f = i
  · obtain ⟨rfl, rfl⟩ := here
    refine .inr ⟨Nat.lt_of_le_of_ne le ?_, index⟩
    rintro rfl
    rw [Nat.sub_self, Nat.pow_zero, Nat.div_one] at index
    rw [← index, used] at cut
    cases cut
  · refine .inl ⟨j', f, lowj', le, ?_, index⟩
    rw [set, if_neg here]
    exact usedf

/-- The other half of a block's parent. -/
def buddy (i : Nat) : Nat := if i % 2 = 0 then i + 1 else i - 1

theorem buddy_div (i : Nat) : buddy i / 2 = i / 2 := by
  unfold buddy
  split <;> omega

theorem Merge.buddy_exists (m : Merge lo hi k i t) (below : k < hi) :
    ∃ n, t k (buddy i) = some n := by
  rw [m.wf.child k (buddy i) m.low below, buddy_div]
  exact (m.wf.child k i m.low below).mp ⟨_, m.free⟩

/-- The block in hand is the whole region: nothing lies around it. -/
theorem Merge.done_root (m : Merge lo hi hi i t) : Coalesced lo hi t := by
  intro j i' lowj highj cut
  rcases m.idle j i' lowj highj cut with busy | ⟨lt, _⟩
  · exact busy
  · omega

/-- The buddy is not free, so whatever lies around both is busy. -/
theorem Merge.done_buddy (m : Merge lo hi k i t) (below : k < hi)
    (taken : t k (buddy i) ≠ some .unused) : Coalesced lo hi t := by
  have busy : Busy lo t k (buddy i) := by
    obtain ⟨n, hn⟩ := m.buddy_exists below
    cases n with
    | unused => exact absurd hn taken
    | used => exact ⟨k, buddy i, m.low, Nat.le_refl _, hn, by rw [Nat.sub_self, Nat.pow_zero, Nat.div_one]⟩
    | split =>
      rcases m.idle k _ m.low m.high hn with busy | ⟨lt, _⟩
      · exact busy
      · omega
  intro j i' lowj highj cut
  rcases m.idle j i' lowj highj cut with found | ⟨lt, index⟩
  · exact found
  · have wide := busy.widen (j - k)
    rw [show k + (j - k) = j by omega] at wide
    have same : buddy i / 2 ^ (j - k) = i / 2 ^ (j - k) := by
      rw [show j - k = 1 + (j - k - 1) by omega, Nat.pow_add, ← Nat.div_div_eq_div_mul,
        ← Nat.div_div_eq_div_mul, Nat.pow_one, buddy_div]
    rwa [same, index] at wide

theorem halves_of_buddy {v : Option Mark} (here : t k i = v) (there : t k (buddy i) = v) :
    t k (2 * (i / 2)) = v ∧ t k (2 * (i / 2) + 1) = v := by
  unfold buddy at there
  split at there
  · rw [show 2 * (i / 2) = i by omega]
    exact ⟨here, there⟩
  · rw [show 2 * (i / 2) + 1 = i by omega, show 2 * (i / 2) = i - 1 by omega]
    exact ⟨there, here⟩

/-- The buddy is free: join the two and go on one order up. -/
theorem Merge.join (m : Merge lo hi k i t) (below : k < hi) (free : t k (buddy i) = some .unused) :
    Merge lo hi (k + 1) (i / 2) (t.join k (i / 2)) := by
  have low := m.low
  obtain ⟨left, right⟩ := halves_of_buddy m.free free
  have parent := (m.wf.child k i low below).mp ⟨_, m.free⟩
  have used := join_used left right parent
  refine ⟨m.wf.join low below left right, by omega, below, ?_, ?_⟩
  · rw [join_apply, if_pos ⟨rfl, rfl⟩]
  · intro j i' lowj highj cut
    obtain ⟨here, old⟩ := split_of_join cut
    rcases m.idle j i' lowj highj old with busy | ⟨lt, index⟩
    · exact .inl (busy.mono fun k' f hf => (used k' f).mpr hf)
    · have more : k + 1 < j := by
        refine Nat.lt_of_le_of_ne lt ?_
        rintro rfl
        rw [Nat.add_sub_cancel_left, Nat.pow_one] at index
        exact here ⟨rfl, index.symm⟩
      refine .inr ⟨more, ?_⟩
      rw [← index, Nat.div_div_eq_div_mul, ← Nat.pow_succ', show (j - (k + 1)).succ = j - k by omega]

/-! ## Reserving a range -/

/-- `t'` is `t` with the units `[a, a + len)` reserved. Used blocks stay, the new ones lie in the
range, every unit of the range is in a used block, and a split is an old one or meets the range. -/
structure Reserves (lo hi : Nat) (t t' : Marking) (a len : Nat) : Prop where
  wf : WF lo hi t'
  grow : ∀ k i, t k i = some .used → t' k i = some .used
  fresh : ∀ k i, lo ≤ k → k ≤ hi → t' k i = some .used →
    t k i = some .used ∨ a ≤ i * 2 ^ k ∧ i * 2 ^ k + 2 ^ k ≤ a + len
  cover : ∀ x, a ≤ x → x < a + len → Covered lo hi t' x
  keep : ∀ k i, t k i = some .split → t' k i = some .split
  splits : ∀ k i, lo ≤ k → k ≤ hi → t' k i = some .split →
    t k i = some .split ∨ ∃ x, a ≤ x ∧ x < a + len ∧ x / 2 ^ k = i

/-- Reserving a range in two parts. -/
theorem Reserves.trans {t₁ t₂ : Marking} {a len₁ len₂ : Nat} (first : Reserves lo hi t t₁ a len₁)
    (second : Reserves lo hi t₁ t₂ (a + len₁) len₂) : Reserves lo hi t t₂ a (len₁ + len₂) := by
  refine ⟨second.wf, fun k i h => second.grow k i (first.grow k i h), ?_, ?_,
    fun k i h => second.keep k i (first.keep k i h), ?_⟩
  · intro k i low high used
    rcases second.fresh k i low high used with old | inside
    · rcases first.fresh k i low high old with old | inside
      · exact .inl old
      · exact .inr (by omega)
    · exact .inr (by omega)
  · intro x from_ upto
    by_cases here : x < a + len₁
    · obtain ⟨k, low, high, used⟩ := first.cover x from_ here
      exact ⟨k, low, high, second.grow _ _ used⟩
    · exact second.cover x (by omega) (by omega)
  · intro k i low high cut
    rcases second.splits k i low high cut with old | ⟨x, from_, upto, index⟩
    · rcases first.splits k i low high old with old | ⟨x, from_, upto, index⟩
      · exact .inl old
      · exact .inr ⟨x, from_, by omega, index⟩
    · exact .inr ⟨x, by omega, by omega, index⟩

/-- Reserving leaves a coalesced marking coalesced. -/
theorem Reserves.coalesced {t' : Marking} {a len : Nat} (r : Reserves lo hi t t' a len)
    (co : Coalesced lo hi t) : Coalesced lo hi t' := by
  intro k i low high cut
  rcases r.splits k i low high cut with old | ⟨x, from_, upto, rfl⟩
  · exact (co k i low high old).mono r.grow
  · exact Busy.of_covered r.wf low (r.cover x from_ upto) cut

/-- A unit outside the range is covered after exactly when it was before. -/
theorem Reserves.covered_iff {t' : Marking} {a len x : Nat} (r : Reserves lo hi t t' a len) :
    Covered lo hi t' x ↔ Covered lo hi t x ∨ a ≤ x ∧ x < a + len := by
  constructor
  · rintro ⟨k, low, high, used⟩
    rcases r.fresh k _ low high used with old | inside
    · exact .inl ⟨k, low, high, old⟩
    · have := Nat.div_mul_le_self x (2 ^ k)
      have := Nat.lt_div_mul_add (a := x) (Nat.two_pow_pos k)
      exact .inr (by omega)
  · rintro (⟨k, low, high, used⟩ | ⟨from_, upto⟩)
    · exact ⟨k, low, high, r.grow _ _ used⟩
    · exact r.cover x from_ upto

/-- A range inside a used block is reserved already. -/
theorem Reserves.of_used (wf : WF lo hi t) (low : lo ≤ k) (high : k ≤ hi) {a len : Nat}
    (used : t k i = some .used) (from_ : i * 2 ^ k ≤ a) (upto : a + len ≤ i * 2 ^ k + 2 ^ k) :
    Reserves lo hi t t a len := by
  refine ⟨wf, fun _ _ h => h, fun _ _ _ _ h => .inl h, ?_, fun _ _ h => h, fun _ _ _ _ h => .inl h⟩
  intro x ge lt
  have index : x / 2 ^ k = i := Nat.div_eq_of_lt_le (by omega) (by rw [Nat.succ_mul]; omega)
  exact ⟨k, low, high, by rw [index, used]⟩

/-- Taking a free block reserves its units. -/
theorem Reserves.of_set (wf : WF lo hi t) (low : lo ≤ k) (high : k ≤ hi)
    (free : t k i = some .unused) :
    Reserves lo hi t (t.set k i (some .used)) (i * 2 ^ k) (2 ^ k) := by
  refine ⟨wf.set_solid free (by decide) (by decide), fun k' i' h => (set_used_iff k' i').mpr (.inl h),
    ?_, ?_, fun k' i' h => (set_split_iff free (by decide) (by decide) k' i').mpr h,
    fun k' i' _ _ h => .inl ((set_split_iff free (by decide) (by decide) k' i').mp h)⟩
  · intro k' i' _ _ h
    rcases (set_used_iff k' i').mp h with old | ⟨rfl, rfl⟩
    · exact .inl old
    · exact .inr ⟨Nat.le_refl _, Nat.le_refl _⟩
  · intro x ge lt
    have index : x / 2 ^ k = i := Nat.div_eq_of_lt_le (by omega) (by rw [Nat.succ_mul]; omega)
    exact ⟨k, low, high, by rw [index, set_self]⟩

/-- `t'` is `t` with some free blocks around the whole range `[a, a + len)` cut. -/
structure Cuts (lo hi : Nat) (t t' : Marking) (a len : Nat) : Prop where
  wf : WF lo hi t'
  used : ∀ k i, t' k i = some .used ↔ t k i = some .used
  keep : ∀ k i, t k i = some .split → t' k i = some .split
  splits : ∀ k i, t' k i = some .split →
    t k i = some .split ∨ i * 2 ^ k ≤ a ∧ a + len ≤ i * 2 ^ k + 2 ^ k ∧ len < 2 ^ k

theorem Cuts.refl (wf : WF lo hi t) (a len : Nat) : Cuts lo hi t t a len :=
  ⟨wf, fun _ _ => Iff.rfl, fun _ _ h => h, fun _ _ h => .inl h⟩

theorem Cuts.trans {t₁ t₂ : Marking} {a len : Nat} (first : Cuts lo hi t t₁ a len)
    (second : Cuts lo hi t₁ t₂ a len) : Cuts lo hi t t₂ a len := by
  refine ⟨second.wf, fun k i => (second.used k i).trans (first.used k i),
    fun k i h => second.keep k i (first.keep k i h), ?_⟩
  intro k i cut
  rcases second.splits k i cut with old | around
  · exact first.splits k i old
  · exact .inr around

/-- Cutting one free block around the range. -/
theorem Cuts.of_cut (wf : WF lo hi t) (low : lo < k) (high : k ≤ hi) (free : t k i = some .unused)
    {a len : Nat} (from_ : i * 2 ^ k ≤ a) (upto : a + len ≤ i * 2 ^ k + 2 ^ k) (short : len < 2 ^ k) :
    Cuts lo hi t (t.cut k i) a len := by
  refine ⟨wf.cut low high free, wf.cut_used low high free, ?_, ?_⟩
  · intro k' i' cut
    rw [cut_apply t i k' i' (by omega)]
    by_cases here : k' = k ∧ i' = i
    · rw [if_pos here]
    rw [if_neg here, if_neg, cut]
    rintro ⟨rfl, rfl⟩
    have missing : t k' i' = none := wf.child_none (by omega) (by omega) (by rw [free]; simp)
    rw [missing] at cut
    cases cut
  · intro k' i' cut
    rcases split_of_cut (by omega) cut with ⟨rfl, rfl⟩ | old
    · exact .inr ⟨from_, upto, short⟩
    · exact .inl old

/-- Cutting around a range and then reserving it is reserving it. -/
theorem Cuts.reserves {t₁ t₂ : Marking} {a len : Nat} (pos : 0 < len) (cuts : Cuts lo hi t t₁ a len)
    (r : Reserves lo hi t₁ t₂ a len) : Reserves lo hi t t₂ a len := by
  refine ⟨r.wf, fun k i h => r.grow k i ((cuts.used k i).mpr h), ?_, r.cover,
    fun k i h => r.keep k i (cuts.keep k i h), ?_⟩
  · intro k i low high h
    rw [← cuts.used]
    exact r.fresh k i low high h
  · intro k i low high h
    rcases r.splits k i low high h with old | meets
    · rcases cuts.splits k i old with old | ⟨from_, upto, _⟩
      · exact .inl old
      · refine .inr ⟨a, Nat.le_refl _, by omega, ?_⟩
        exact Nat.div_eq_of_lt_le (by omega) (by rw [Nat.succ_mul]; omega)
    · exact .inr meets

/-- Nothing stands in the way of reserving the range: none of its units is used, and no split
block lies inside it. -/
structure Vacant (lo hi : Nat) (t : Marking) (a len : Nat) : Prop where
  free : ∀ x, a ≤ x → x < a + len → ¬ Covered lo hi t x
  whole : ∀ k i, lo ≤ k → k ≤ hi → t k i = some .split →
    ¬ (a ≤ i * 2 ^ k ∧ i * 2 ^ k + 2 ^ k ≤ a + len)

/-- In a coalesced marking it is enough that no unit is used. -/
theorem Vacant.of_coalesced (co : Coalesced lo hi t) {a len : Nat}
    (free : ∀ x, a ≤ x → x < a + len → ¬ Covered lo hi t x) : Vacant lo hi t a len := by
  refine ⟨free, ?_⟩
  rintro k i low le cut ⟨from_, upto⟩
  obtain ⟨j, f, lowj, lej, used, index⟩ := co k i low le cut
  -- the first unit of the used block below lies in the range
  have split : 2 ^ k = 2 ^ (k - j) * 2 ^ j := by rw [← Nat.pow_add, Nat.sub_add_cancel lej]
  have lower : i * 2 ^ k ≤ f * 2 ^ j := by
    rw [split, ← Nat.mul_assoc, ← index]
    exact Nat.mul_le_mul_right _ (Nat.div_mul_le_self f _)
  have upper : f * 2 ^ j + 2 ^ j ≤ i * 2 ^ k + 2 ^ k := by
    rw [split, ← Nat.mul_assoc, ← Nat.succ_mul, ← Nat.add_mul, ← index]
    refine Nat.mul_le_mul_right _ ?_
    have := Nat.lt_div_mul_add (a := f) (Nat.two_pow_pos (k - j))
    omega
  have pos := Nat.two_pow_pos j
  refine free (f * 2 ^ j) (by omega) (by omega) ⟨j, lowj, Nat.le_trans lej le, ?_⟩
  rw [Nat.mul_div_cancel _ pos, used]

theorem Vacant.sub {a len a' len' : Nat} (v : Vacant lo hi t a len) (from_ : a ≤ a')
    (upto : a' + len' ≤ a + len) : Vacant lo hi t a' len' :=
  ⟨fun x ge lt => v.free x (by omega) (by omega),
    fun k i low high cut inside => v.whole k i low high cut (by omega)⟩

theorem Cuts.vacant {t' : Marking} {a len : Nat} (cuts : Cuts lo hi t t' a len)
    (v : Vacant lo hi t a len) : Vacant lo hi t' a len := by
  refine ⟨fun x ge lt => ?_, fun k i low high cut inside => ?_⟩
  · rintro ⟨k, low, high, used⟩
    exact v.free x ge lt ⟨k, low, high, (cuts.used _ _).mp used⟩
  · rcases cuts.splits k i cut with old | ⟨_, _, short⟩
    · exact v.whole k i low high old inside
    · omega

/-- Reserving the first part of a range leaves the second part vacant. -/
theorem Reserves.vacant {t' : Marking} {a len₁ len₂ : Nat} (r : Reserves lo hi t t' a len₁)
    (v : Vacant lo hi t a (len₁ + len₂)) : Vacant lo hi t' (a + len₁) len₂ := by
  refine ⟨fun x ge lt => ?_, fun k i low high cut inside => ?_⟩
  · rw [r.covered_iff]
    rintro (old | here)
    · exact v.free x (by omega) (by omega) old
    · omega
  · rcases r.splits k i low high cut with old | ⟨x, from_, upto, rfl⟩
    · exact v.whole k i low high old (by omega)
    · have := Nat.div_mul_le_self x (2 ^ k)
      omega

end AlmeidaOS.Blocks.Marking
