import AlmeidaOS.Laws.Mm.BuddyAlloc

/-!
# `buddy_pre_alloc`

A request for the pages `[a, a + len)` of the content region is met in power-of-two parts: the
length is broken up first, then each part descends from the root and is broken up again where it
meets both halves of a block. `buddyPreAlloc_reserves` says what a call that returns has done,
`buddyPreAlloc_returns` that a call on vacant pages returns.
-/

namespace AlmeidaOS.Kernel

open Blocks (Mark Marking)
open Blocks.Marking

variable {ref : BuddyRef}

/-- A tree with a range reserved is tidy. -/
theorem Tidy.reserved {h h' : Header} {t t' : Marking} (tidy : Tidy ref h t) (rep : Rep ref h' t') {a len : Nat}
    (reserves : Reserves 12 ref.maxPowOrder t t' a len) : Tidy ref h' t' :=
  ⟨rep, reserves.wf, reserves.coalesced tidy.coalesced⟩

/-! ## The descent -/

section Descent

variable (sized : Sized ref) (ends : ref.contentMemReg.baseAddr + 2 ^ ref.maxPowOrder < 2 ^ 64)
  {h : Header} {t : Marking} {k i a len kOrder fuel : Nat}
  (rep : Rep ref h t) (at_ : InTree ref k i)
  (from_ : i * 2 ^ k ≤ a) (upto : a + len ≤ i * 2 ^ k + 2 ^ k)

include sized ends rep at_ upto

/-- Where a split block is halved. -/
private theorem middle {m : Mark} (there : t k i = some m) (pos : 0 < k) :
    upow 2 (Word.ofInt (((h (slotAddr ref k i)).powOrder : Int) - 1)) = 2 ^ (k - 1) ∧
      Word.add (h (slotAddr ref k i)).baseAddr (2 ^ (k - 1)) =
        ref.contentMemReg.baseAddr + (i * 2 ^ k + 2 ^ (k - 1)) ∧
      Word.add (ref.contentMemReg.baseAddr + a) len = ref.contentMemReg.baseAddr + (a + len) := by
  have bound := at_.end_le
  have high := at_.high
  have lt := sized.lt
  have half : 2 ^ (k - 1) ≤ 2 ^ k := Nat.pow_le_pow_right (by decide) (by omega)
  have exp : ((k : Int) - 1) = ((k - 1 : Nat) : Int) := by omega
  rw [rep.slot at_ there]
  simp only [exp]
  rw [Word.ofInt_natCast (by omega), upow_two (by omega), Word.add_of_lt (by omega),
    Word.add_of_lt (by omega)]
  omega

include from_

/-- The request lies in the block at hand, so the loop's outer test passes. -/
private theorem inside_slot {m : Mark} (there : t k i = some m) :
    ref.contentMemReg.baseAddr + a ≥ (h (slotAddr ref k i)).baseAddr ∧
      Word.add (ref.contentMemReg.baseAddr + a) len ≤
        Word.add (h (slotAddr ref k i)).baseAddr (upow 2 (h (slotAddr ref k i)).powOrder) := by
  have bound := at_.end_le
  have high := at_.high
  have lt := sized.lt
  rw [rep.slot at_ there]
  simp only
  rw [upow_two (by omega), Word.add_of_lt (by omega), Word.add_of_lt (by omega)]
  omega

theorem preAllocLoop_split (cut : t k i = some .split) (above : kOrder < k) (min : 12 ≤ kOrder) :
    preAllocLoop ref (ref.contentMemReg.baseAddr + a) len kOrder (fuel + 1) h (slotAddr ref k i) =
      if a + len ≤ i * 2 ^ k + 2 ^ (k - 1) then
        preAllocLoop ref (ref.contentMemReg.baseAddr + a) len kOrder fuel h
          (slotAddr ref (k - 1) (2 * i))
      else if i * 2 ^ k + 2 ^ (k - 1) ≤ a then
        preAllocLoop ref (ref.contentMemReg.baseAddr + a) len kOrder fuel h
          (slotAddr ref (k - 1) (2 * i + 1))
      else .ok (.overlapping h (slotAddr ref k i) (2 ^ (k - 1))) := by
  have slot := rep.slot at_ cut
  have order : (h (slotAddr ref k i)).powOrder = k := by rw [slot]
  obtain ⟨half, mid, stop⟩ := middle sized ends rep at_ upto cut (by omega)
  rw [preAllocLoop]
  simp only [half]
  rw [if_pos (inside_slot sized ends rep at_ from_ upto cut), if_pos (by rw [slot]; exact above), mid, stop]
  simp only [gotoLeftChild_eq sized at_ (by omega) order, gotoRightChild_eq sized at_ (by omega) order,
    slot, ge_iff_le, Nat.add_le_add_iff_left]

/-- An unused block above the order looked for is cut, and the loop goes on as in a split one. -/
theorem preAllocLoop_unused (free : t k i = some .unused) (above : kOrder < k) (min : 12 ≤ kOrder) :
    preAllocLoop ref (ref.contentMemReg.baseAddr + a) len kOrder (fuel + 1) h (slotAddr ref k i) =
      preAllocLoop ref (ref.contentMemReg.baseAddr + a) len kOrder (fuel + 1)
        (splitAndInsert ref h (slotAddr ref k i)) (slotAddr ref k i) := by
  have slot := rep.slot at_ free
  have rep' := rep.splitAndInsert sized at_ (by omega) free
  have cut : t.cut k i k i = some .split := by
    rw [cut_apply t i k i (by omega), if_pos ⟨rfl, rfl⟩]
  have slot' := rep'.slot at_ cut
  obtain ⟨half, mid, stop⟩ := middle sized ends rep' at_ upto cut (by omega)
  have half' := (middle sized ends rep at_ upto free (by omega)).1
  have bound := at_.end_le
  rw [preAllocLoop_split sized ends rep' at_ from_ upto cut above min, preAllocLoop]
  simp only [half']
  rw [if_pos (inside_slot sized ends rep at_ from_ upto free), if_pos (by rw [slot]; exact above), mid, stop,
    gotoLeftChild_eq sized at_ (by omega) (by rw [slot']),
    gotoRightChild_eq sized at_ (by omega) (by rw [slot'])]
  simp only [slot, slot', ge_iff_le, Nat.add_le_add_iff_left, from_, true_and]

theorem preAllocLoop_used (used : t k i = some .used) (above : kOrder < k) :
    preAllocLoop ref (ref.contentMemReg.baseAddr + a) len kOrder (fuel + 1) h (slotAddr ref k i) =
      .ok (.done h) := by
  have slot := rep.slot at_ used
  rw [preAllocLoop]
  simp only
  rw [if_pos (inside_slot sized ends rep at_ from_ upto used), if_pos (by rw [slot]; exact above), slot]

theorem preAllocLoop_fit {m : Mark} (there : t k i = some m) :
    preAllocLoop ref (ref.contentMemReg.baseAddr + a) len k (fuel + 1) h (slotAddr ref k i) =
      bugOn (m ≠ .unused) >>= fun _ => .ok (.done (h.setType (slotAddr ref k i) .used)) := by
  have slot := rep.slot at_ there
  rw [preAllocLoop]
  simp only
  rw [if_pos (inside_slot sized ends rep at_ from_ upto there), if_neg (by rw [slot]; simp),
    if_pos (by rw [slot]), slot]

end Descent

/-- What a descent for `[a, a + len)` from the marking `t` has done when it ends. -/
def Descended (ref : BuddyRef) (t : Marking) (a len : Nat) : Descent → Prop
  | .done h => ∃ t', Rep ref h t' ∧ Reserves 12 ref.maxPowOrder t t' a len
  | .overlapping h idx next => ∃ t' k i, Rep ref h t' ∧ Cuts 12 ref.maxPowOrder t t' a len ∧
      InTree ref k i ∧ t' k i = some .split ∧ idx = slotAddr ref k i ∧ next = 2 ^ (k - 1) ∧
      12 < k ∧ a < i * 2 ^ k + 2 ^ (k - 1) ∧ i * 2 ^ k + 2 ^ (k - 1) < a + len

theorem Descended.of_cuts {t t' : Marking} {a len : Nat} (pos : 0 < len) {d : Descent}
    (cuts : Cuts 12 ref.maxPowOrder t t' a len) (rest : Descended ref t' a len d) :
    Descended ref t a len d := by
  cases d with
  | done h =>
    obtain ⟨t₂, rep, r⟩ := rest
    exact ⟨t₂, rep, cuts.reserves pos r⟩
  | overlapping h idx next =>
    obtain ⟨t₂, k, i, rep, more, rest⟩ := rest
    exact ⟨t₂, k, i, rep, cuts.trans more, rest⟩

section Halves

variable {k i a len : Nat}

private theorem left_half (pos : 0 < k) : 2 * i * 2 ^ (k - 1) = i * 2 ^ k := by
  rw [Nat.mul_comm 2 i, Nat.mul_assoc, ← Nat.pow_succ', show (k - 1).succ = k by omega]

private theorem right_half (pos : 0 < k) :
    (2 * i + 1) * 2 ^ (k - 1) = i * 2 ^ k + 2 ^ (k - 1) := by
  rw [Nat.add_mul, Nat.one_mul, left_half pos]

private theorem two_halves (pos : 0 < k) : 2 ^ k = 2 ^ (k - 1) + 2 ^ (k - 1) := by
  rw [← Nat.two_mul, ← Nat.pow_succ', show (k - 1).succ = k by omega]

end Halves

section Loop

variable (sized : Sized ref) (ends : ref.contentMemReg.baseAddr + 2 ^ ref.maxPowOrder < 2 ^ 64)
  {a kOrder : Nat} (min : 12 ≤ kOrder)

include sized ends min

/-- Where a round at a split block leads: to the half that holds the request, or to an end at a block both halves
of which the request meets. -/
theorem preAllocLoop_halves (fuel : Nat) {h : Header} {t : Marking} {k i : Nat} (rep : Rep ref h t)
    (wf : WF 12 ref.maxPowOrder t) (at_ : InTree ref k i) (cut : t k i = some .split) (above : kOrder < k)
    (from_ : i * 2 ^ k ≤ a) (upto : a + 2 ^ kOrder ≤ i * 2 ^ k + 2 ^ k) :
    (∃ j m, InTree ref (k - 1) j ∧ t (k - 1) j = some m ∧ j * 2 ^ (k - 1) ≤ a ∧
      a + 2 ^ kOrder ≤ j * 2 ^ (k - 1) + 2 ^ (k - 1) ∧
      preAllocLoop ref (ref.contentMemReg.baseAddr + a) (2 ^ kOrder) kOrder (fuel + 1) h (slotAddr ref k i) =
        preAllocLoop ref (ref.contentMemReg.baseAddr + a) (2 ^ kOrder) kOrder fuel h (slotAddr ref (k - 1) j)) ∨
    (a < i * 2 ^ k + 2 ^ (k - 1) ∧ i * 2 ^ k + 2 ^ (k - 1) < a + 2 ^ kOrder ∧
      preAllocLoop ref (ref.contentMemReg.baseAddr + a) (2 ^ kOrder) kOrder (fuel + 1) h (slotAddr ref k i) =
        .ok (.overlapping h (slotAddr ref k i) (2 ^ (k - 1)))) := by
  have high := at_.high
  have whole := two_halves (show 0 < k by omega)
  have child : ∀ j, j / 2 = i → ∃ m, t (k - 1) j = some m := fun j half =>
    (wf.child (k - 1) j (by omega) (by omega)).mpr
      (by rw [show k - 1 + 1 = k by omega, half, cut])
  rw [preAllocLoop_split sized ends rep at_ from_ upto cut above min]
  by_cases left : a + 2 ^ kOrder ≤ i * 2 ^ k + 2 ^ (k - 1)
  · obtain ⟨m, there⟩ := child (2 * i) (by omega)
    have base := left_half (i := i) (show 0 < k by omega)
    exact .inl ⟨2 * i, m, at_.left (by omega), there, by omega, by omega, if_pos left⟩
  · rw [if_neg left]
    by_cases right : i * 2 ^ k + 2 ^ (k - 1) ≤ a
    · obtain ⟨m, there⟩ := child (2 * i + 1) (by omega)
      have base := right_half (i := i) (show 0 < k by omega)
      exact .inl ⟨2 * i + 1, m, at_.right (by omega), there, by omega, by omega, if_pos right⟩
    · exact .inr ⟨by omega, by omega, if_neg right⟩

/-- A round above the request at a block that is not used: an unused one is cut first. -/
theorem preAllocLoop_cut (fuel : Nat) {h : Header} {t : Marking} {k i : Nat} {m : Mark} (rep : Rep ref h t)
    (wf : WF 12 ref.maxPowOrder t) (at_ : InTree ref k i) (there : t k i = some m) (free : m ≠ .used) (above : kOrder < k)
    (from_ : i * 2 ^ k ≤ a) (upto : a + 2 ^ kOrder ≤ i * 2 ^ k + 2 ^ k) :
    ∃ h₁ t₁, Rep ref h₁ t₁ ∧ Cuts 12 ref.maxPowOrder t t₁ a (2 ^ kOrder) ∧ t₁ k i = some .split ∧
      preAllocLoop ref (ref.contentMemReg.baseAddr + a) (2 ^ kOrder) kOrder (fuel + 1) h (slotAddr ref k i) =
        preAllocLoop ref (ref.contentMemReg.baseAddr + a) (2 ^ kOrder) kOrder (fuel + 1) h₁ (slotAddr ref k i) := by
  have high := at_.high
  cases m with
  | used => exact absurd rfl free
  | split => exact ⟨h, t, rep, .refl wf _ _, there, rfl⟩
  | unused =>
    have short : 2 ^ kOrder < 2 ^ k := Nat.pow_lt_pow_right (by decide) above
    have cut : t.cut k i k i = some .split := by rw [cut_apply t i k i (by omega), if_pos ⟨rfl, rfl⟩]
    exact ⟨_, _, rep.splitAndInsert sized at_ (by omega) there, .of_cut wf (by omega) high there from_ upto short, cut,
      preAllocLoop_unused sized ends rep at_ from_ upto there above min⟩

/-- The descent either reserves the request or stops above it, at a block both halves of which
it meets. -/
theorem preAllocLoop_spec {d : Descent} (fuel : Nat) {h : Header} {t : Marking} {k i : Nat} {m : Mark} (rep : Rep ref h t)
    (wf : WF 12 ref.maxPowOrder t) (at_ : InTree ref k i) (there : t k i = some m) (le : kOrder ≤ k)
    (from_ : i * 2 ^ k ≤ a) (upto : a + 2 ^ kOrder ≤ i * 2 ^ k + 2 ^ k)
    (run : preAllocLoop ref (ref.contentMemReg.baseAddr + a) (2 ^ kOrder) kOrder fuel h (slotAddr ref k i) = .ok d) :
    Descended ref t a (2 ^ kOrder) d := by
  induction fuel generalizing h t k i m with
  | zero => cases run
  | succ fuel ih =>
    have pos := Nat.two_pow_pos kOrder
    rcases Nat.lt_or_eq_of_le le with above | rfl
    · by_cases used : m = .used
      · subst used
        rw [preAllocLoop_used sized ends rep at_ from_ upto there above] at run
        cases run
        exact ⟨t, rep, .of_used wf at_.low at_.high there from_ upto⟩
      · obtain ⟨h₁, t₁, rep₁, cuts, cut, same⟩ :=
          preAllocLoop_cut sized ends min fuel rep wf at_ there used above from_ upto
        rw [same] at run
        refine .of_cuts pos cuts ?_
        rcases preAllocLoop_halves sized ends min fuel rep₁ cuts.wf at_ cut above from_ upto with
          ⟨j, m', at', there', from', upto', next⟩ | ⟨left, right, stops⟩
        · rw [next] at run
          exact ih rep₁ cuts.wf at' there' (by omega) from' upto' run
        · rw [stops] at run
          cases run
          exact ⟨t₁, k, i, rep₁, .refl cuts.wf _ _, at_, cut, rfl, rfl, by omega, left, right⟩
    · rw [preAllocLoop_fit sized ends rep at_ from_ upto there, bugOn_bind_eq_ok] at run
      obtain ⟨free, run⟩ := run
      cases run
      have free : m = .unused := not_not.mp free
      subst free
      obtain rfl : a = i * 2 ^ kOrder := by omega
      exact ⟨_, rep.setType at_ there .used, .of_set wf at_.low at_.high there⟩

/-- The descent to a vacant request ends. -/
theorem preAllocLoop_returns (fuel : Nat) {h : Header} {t : Marking} {k i : Nat} {m : Mark} (rep : Rep ref h t)
    (wf : WF 12 ref.maxPowOrder t) (at_ : InTree ref k i) (there : t k i = some m) (le : kOrder ≤ k)
    (from_ : i * 2 ^ k ≤ a) (upto : a + 2 ^ kOrder ≤ i * 2 ^ k + 2 ^ k)
    (vacant : Vacant 12 ref.maxPowOrder t a (2 ^ kOrder)) (enough : k < fuel + kOrder) :
    ∃ d, preAllocLoop ref (ref.contentMemReg.baseAddr + a) (2 ^ kOrder) kOrder fuel h (slotAddr ref k i) = .ok d := by
  induction fuel generalizing h t k i m with
  | zero => omega
  | succ fuel ih =>
    have pos := Nat.two_pow_pos kOrder
    rcases Nat.lt_or_eq_of_le le with above | rfl
    · by_cases used : m = .used
      · subst used
        exact ⟨_, preAllocLoop_used sized ends rep at_ from_ upto there above⟩
      · obtain ⟨h₁, t₁, rep₁, cuts, cut, same⟩ :=
          preAllocLoop_cut sized ends min fuel rep wf at_ there used above from_ upto
        rw [same]
        rcases preAllocLoop_halves sized ends min fuel rep₁ cuts.wf at_ cut above from_ upto with
          ⟨j, m', at', there', from', upto', next⟩ | ⟨left, right, stops⟩
        · rw [next]
          exact ih rep₁ cuts.wf at' there' (by omega) from' upto' (cuts.vacant vacant) (by omega)
        · exact ⟨_, stops⟩
    · rw [preAllocLoop_fit sized ends rep at_ from_ upto there]
      cases m with
      | unused => exact ⟨_, rfl⟩
      | split => exact absurd ⟨by omega, by omega⟩ (vacant.whole kOrder i min at_.high there)
      | used =>
        refine absurd ⟨kOrder, min, at_.high, ?_⟩ (vacant.free a (Nat.le_refl _) (by omega))
        rw [show a / 2 ^ kOrder = i from
          Nat.div_eq_of_lt_le (by omega) (by rw [Nat.succ_mul]; omega), there]

end Loop

/-! ## The call -/

/-- A length rounded up to whole pages. -/
def pages (len : Nat) : Nat := (len + 4095) / 4096 * 4096

theorem pages_of_dvd {len : Nat} (h : 4096 ∣ len) : pages len = len := by
  unfold pages
  omega

theorem dvd_pages (len : Nat) : 4096 ∣ pages len := Nat.dvd_mul_left _ _

theorem le_pages (len : Nat) : len ≤ pages len := by
  unfold pages
  omega

theorem page_dvd_two_pow {n : Nat} (h : 12 ≤ n) : 4096 ∣ 2 ^ n := Nat.pow_dvd_pow 2 h

/-- The middle of a block of two pages or more is a page boundary. -/
theorem page_dvd_mid {k : Nat} (split : 12 < k) (i : Nat) : 4096 ∣ i * 2 ^ k + 2 ^ (k - 1) :=
  Nat.dvd_add ((page_dvd_two_pow (by omega)).mul_left i) (page_dvd_two_pow (by omega))

/-- A power of two that is a number of whole pages has an order the allocator serves. -/
private theorem order_of_pages {len n : Nat} (pos : 0 < len) (even : pages len = 2 ^ n) : 12 ≤ n := by
  by_contra small
  have : 2 ^ n ≤ 2 ^ 11 := Nat.pow_le_pow_right (by decide) (by omega)
  have := dvd_pages len
  have := le_pages len
  omega

private theorem order_le {a len n : Nat} (inside : a + pages len ≤ 2 ^ ref.maxPowOrder)
    (even : pages len = 2 ^ n) : n ≤ ref.maxPowOrder :=
  (Nat.pow_le_pow_iff_right (by decide)).mp (show 2 ^ n ≤ 2 ^ ref.maxPowOrder by omega)

/-- The largest power of two below an uneven length is whole pages. -/
private theorem floor_of_pages {len : Nat} (pos : 0 < len) (uneven : ∀ n, pages len ≠ 2 ^ n) :
    4096 ∣ 2 ^ (pages len).log2 ∧ 2 ^ (pages len).log2 < pages len := by
  have more := le_pages len
  have whole := dvd_pages len
  refine ⟨page_dvd_two_pow ((Nat.le_log2 (by omega)).mpr (by omega)), ?_⟩
  exact Nat.lt_of_le_of_ne (Nat.log2_self_le (by omega)) (uneven _).symm

/-- What `buddy_pre_alloc` does after its loop. -/
def afterDescent (ref : BuddyRef) (fuel base len : Nat) : Descent → Outcome Header
  | .done h => .ok h
  | .overlapping h idx next =>
    buddyPreAlloc ref fuel h base (Word.sub (Word.add (h idx).baseAddr next) base) >>= fun h =>
      buddyPreAlloc ref fuel h (Word.add (h idx).baseAddr next)
        (Word.sub (Word.add base len) (Word.add (h idx).baseAddr next))

section Call

variable (sized : Sized ref)

section Request

variable {h : Header} {a len fuel : Nat} (pos : 0 < len) (short : pages len ≤ 2 ^ ref.maxPowOrder)

include sized pos short

private theorem request_length :
    ¬ (len = 0 ∨ len > ref.contentMemReg.length ∨
      ref.contentMemReg.baseAddr + a < ref.contentMemReg.baseAddr) ∧
    roundUpPo2 len buddyAllocSmallestBlock = pages len ∧ pages len ≤ 2 ^ 63 := by
  have := le_pages len
  have := sized.length
  have word : 2 ^ ref.maxPowOrder ≤ 2 ^ 63 :=
    Nat.pow_le_pow_right (by decide) (by have := sized.lt; omega)
  refine ⟨by omega, ?_, by omega⟩
  exact roundUpPo2_eq (a := 12) (by decide) (by omega)

/-- A length that is no power of two is met in two calls. -/
theorem buddyPreAlloc_parts (uneven : ∀ n, pages len ≠ 2 ^ n) :
    buddyPreAlloc ref (fuel + 1) h (ref.contentMemReg.baseAddr + a) len =
      buddyPreAlloc ref fuel h (ref.contentMemReg.baseAddr + a) (2 ^ (pages len).log2) >>= fun h =>
        buddyPreAlloc ref fuel h (Word.add (ref.contentMemReg.baseAddr + a) (2 ^ (pages len).log2))
          (pages len - 2 ^ (pages len).log2) := by
  obtain ⟨valid, rounded, word⟩ := request_length (a := a) sized pos short
  have more := le_pages len
  have floor := (floor_of_pages pos uneven).2
  rw [buddyPreAlloc, bugOn_of_not valid, ok_bind]
  simp only [rounded]
  rw [clp2_eq (by omega) word, if_pos (uneven _), flp2_eq (by omega) (by omega),
    Word.sub_of_le (by omega) (Nat.le_of_lt floor)]

omit short in
/-- The same inside the region, where the second call's address does not wrap. -/
theorem buddyPreAlloc_uneven (inside : a + pages len ≤ 2 ^ ref.maxPowOrder) (uneven : ∀ n, pages len ≠ 2 ^ n) :
    buddyPreAlloc ref (fuel + 1) h (ref.contentMemReg.baseAddr + a) len =
      buddyPreAlloc ref fuel h (ref.contentMemReg.baseAddr + a) (2 ^ (pages len).log2) >>= fun h =>
        buddyPreAlloc ref fuel h (ref.contentMemReg.baseAddr + (a + 2 ^ (pages len).log2))
          (pages len - 2 ^ (pages len).log2) := by
  have content := sized.content
  have floor := (floor_of_pages pos uneven).2
  rw [buddyPreAlloc_parts sized pos (by omega) uneven, Word.add_of_lt (by omega), Nat.add_assoc]

/-- A length that is a power of two is met by one descent, or in two calls where that stops. -/
theorem buddyPreAlloc_even {n : Nat} (even : pages len = 2 ^ n) :
    buddyPreAlloc ref (fuel + 1) h (ref.contentMemReg.baseAddr + a) len =
      preAllocLoop ref (ref.contentMemReg.baseAddr + a) (2 ^ n) n fuel h
        (slotAddr ref ref.maxPowOrder 0) >>=
      afterDescent ref fuel (ref.contentMemReg.baseAddr + a) (2 ^ n) := by
  obtain ⟨valid, rounded, word⟩ := request_length (a := a) sized pos short
  have more := le_pages len
  rw [even] at rounded word
  have bits : n < 64 := by
    by_contra long
    have : 2 ^ 64 ≤ 2 ^ n := Nat.pow_le_pow_right (by decide) (by omega)
    omega
  have twelve := order_of_pages pos even
  have order : toUint8 (n : Int) = n := toUint8_of_lt (by omega)
  have nonzero : 2 ^ n ≠ 0 := Nat.ne_of_gt (Nat.two_pow_pos n)
  rw [buddyPreAlloc, bugOn_of_not valid, ok_bind]
  simp only [rounded]
  rw [clp2_eq nonzero word, Nat.clog_pow 2 n (by decide), if_neg (not_not_intro rfl),
    ilog2_two_pow bits, order, sized.min, if_neg (by omega),
    gotoPorderIdx_eq sized sized.le (Nat.le_refl _)]
  rfl

end Request

variable (ends : ref.contentMemReg.baseAddr + 2 ^ ref.maxPowOrder < 2 ^ 64)

include ends

/-- The two calls that follow a descent which stopped, with their words evaluated. -/
private theorem overlap_calls {h : Header} {t : Marking} {k i a len : Nat} (rep : Rep ref h t)
    (at_ : InTree ref k i) (cut : t k i = some .split) (inside : a + len ≤ 2 ^ ref.maxPowOrder)
    (left : a < i * 2 ^ k + 2 ^ (k - 1)) (right : i * 2 ^ k + 2 ^ (k - 1) < a + len) :
    Word.add (h (slotAddr ref k i)).baseAddr (2 ^ (k - 1)) =
        ref.contentMemReg.baseAddr + (i * 2 ^ k + 2 ^ (k - 1)) ∧
      Word.sub (ref.contentMemReg.baseAddr + (i * 2 ^ k + 2 ^ (k - 1)))
        (ref.contentMemReg.baseAddr + a) = i * 2 ^ k + 2 ^ (k - 1) - a ∧
      Word.sub (Word.add (ref.contentMemReg.baseAddr + a) len)
        (ref.contentMemReg.baseAddr + (i * 2 ^ k + 2 ^ (k - 1))) =
        a + len - (i * 2 ^ k + 2 ^ (k - 1)) := by
  rw [rep.slot at_ cut]
  simp only
  rw [Word.add_of_lt (by omega), Word.sub_of_le (by omega) (by omega), Word.add_of_lt (by omega),
    Word.sub_of_le (by omega) (by omega)]
  omega

include sized

/-- A call that returns has reserved the pages it was asked for. -/
theorem buddyPreAlloc_reserves :
    ∀ (fuel : Nat) {h h' : Header} {t : Marking} {a len : Nat}, Rep ref h t →
      WF 12 ref.maxPowOrder t → 0 < len → 4096 ∣ a → a + pages len ≤ 2 ^ ref.maxPowOrder →
      buddyPreAlloc ref fuel h (ref.contentMemReg.baseAddr + a) len = .ok h' →
      ∃ t', Rep ref h' t' ∧ Reserves 12 ref.maxPowOrder t t' a (pages len)
  | 0, _, _, _, _, _, _, _, _, _, _, run => by cases run
  | fuel + 1, h, h', t, a, len, rep, wf, pos, aligned, inside, run => by
    have more := le_pages len
    have whole := dvd_pages len
    by_cases even : ∃ n, pages len = 2 ^ n
    · obtain ⟨n, even⟩ := even
      have twelve := order_of_pages pos even
      rw [buddyPreAlloc_even sized pos (by omega) even] at run
      obtain ⟨d, descent, rest⟩ := bind_eq_ok.mp run
      obtain ⟨m, root⟩ := wf.root
      have done := preAllocLoop_spec sized ends twelve fuel rep wf (InTree.root sized) root
        (order_le inside even) (by omega) (by omega) descent
      rw [even] at inside whole ⊢
      cases d with
      | done h₁ =>
        cases rest
        exact done
      | overlapping h₁ idx next =>
        obtain ⟨t₁, k, i, rep₁, cuts, at_, cut, rfl, rfl, above, left, right⟩ := done
        have mid : 4096 ∣ i * 2 ^ k + 2 ^ (k - 1) := page_dvd_mid (by omega) i
        obtain ⟨half, first, second⟩ := overlap_calls ends rep₁ at_ cut inside left right
        obtain ⟨h₂, run₁, run₂⟩ := bind_eq_ok.mp rest
        rw [half, first] at run₁
        have len₁ := pages_of_dvd (Nat.dvd_sub mid aligned)
        obtain ⟨t₂, rep₂, r₁⟩ := buddyPreAlloc_reserves fuel rep₁ cuts.wf (by omega) aligned
          (by omega) run₁
        rw [len₁] at r₁
        rw [(overlap_calls ends rep₂ at_ (r₁.keep k i cut) inside left right).1, second] at run₂
        have len₂ := pages_of_dvd (Nat.dvd_sub (Nat.dvd_add aligned whole) mid)
        obtain ⟨t₃, rep₃, r₂⟩ := buddyPreAlloc_reserves fuel rep₂ r₁.wf (by omega) mid
          (by omega) run₂
        rw [len₂] at r₂
        refine ⟨t₃, rep₃, cuts.reserves (Nat.two_pow_pos n) ?_⟩
        rw [show i * 2 ^ k + 2 ^ (k - 1) = a + (i * 2 ^ k + 2 ^ (k - 1) - a) by omega] at r₂
        have both := r₁.trans r₂
        rwa [show i * 2 ^ k + 2 ^ (k - 1) - a + (a + 2 ^ n - (a + (i * 2 ^ k + 2 ^ (k - 1) - a))) =
          2 ^ n by omega] at both
    · rw [buddyPreAlloc_uneven sized pos inside fun n h => even ⟨n, h⟩] at run
      obtain ⟨h₁, run₁, run₂⟩ := bind_eq_ok.mp run
      obtain ⟨first, proper⟩ := floor_of_pages pos fun n h => even ⟨n, h⟩
      have len₁ := pages_of_dvd first
      obtain ⟨t₁, rep₁, r₁⟩ := buddyPreAlloc_reserves fuel rep wf (Nat.two_pow_pos _) aligned
        (by omega) run₁
      rw [len₁] at r₁
      have len₂ := pages_of_dvd (Nat.dvd_sub whole first)
      obtain ⟨t₂, rep₂, r₂⟩ := buddyPreAlloc_reserves fuel rep₁ r₁.wf (by omega)
        (Nat.dvd_add aligned first) (by omega) run₂
      rw [len₂] at r₂
      have both := r₁.trans r₂
      rw [Nat.add_sub_cancel' (Nat.le_of_lt proper)] at both
      exact ⟨t₂, rep₂, both⟩

/-- Two calls for vacant pages, one behind the other, of which each returns when it is the only one. -/
private theorem returns_twice {fuel : Nat}
    (one : ∀ {h : Header} {t : Marking} (a len : Nat), Rep ref h t → WF 12 ref.maxPowOrder t → 0 < len → 4096 ∣ a →
      a + pages len ≤ 2 ^ ref.maxPowOrder → Vacant 12 ref.maxPowOrder t a (pages len) → pages len / 4096 + 64 ≤ fuel →
      ∃ h', buddyPreAlloc ref fuel h (ref.contentMemReg.baseAddr + a) len = .ok h')
    {h : Header} {t : Marking} {a first second : Nat} (rep : Rep ref h t) (wf : WF 12 ref.maxPowOrder t) (aligned : 4096 ∣ a)
    (whole : 4096 ∣ first) (whole' : 4096 ∣ second) (pos : 0 < first) (pos' : 0 < second)
    (inside : a + (first + second) ≤ 2 ^ ref.maxPowOrder) (vacant : Vacant 12 ref.maxPowOrder t a (first + second))
    (enough : (first + second) / 4096 + 64 ≤ fuel + 1) :
    ∃ h₁ t₁ h₂, buddyPreAlloc ref fuel h (ref.contentMemReg.baseAddr + a) first = .ok h₁ ∧ Rep ref h₁ t₁ ∧
      Reserves 12 ref.maxPowOrder t t₁ a first ∧
      buddyPreAlloc ref fuel h₁ (ref.contentMemReg.baseAddr + (a + first)) second = .ok h₂ := by
  have len := pages_of_dvd whole
  have len' := pages_of_dvd whole'
  obtain ⟨h₁, run⟩ := one a first rep wf pos aligned (by omega) (len.symm ▸ vacant.sub (Nat.le_refl _) (by omega)) (by omega)
  obtain ⟨t₁, rep₁, r⟩ := buddyPreAlloc_reserves sized ends fuel rep wf pos aligned (by omega) run
  rw [len] at r
  obtain ⟨h₂, run'⟩ := one (a + first) second rep₁ r.wf pos' (Nat.dvd_add aligned whole) (by omega)
    (len'.symm ▸ r.vacant vacant) (by omega)
  exact ⟨h₁, t₁, h₂, run, rep₁, r, run'⟩

/-- A call on vacant pages returns: each call it makes is for fewer pages. -/
theorem buddyPreAlloc_returns :
    ∀ (fuel : Nat) {h : Header} {t : Marking} (a len : Nat), Rep ref h t →
      WF 12 ref.maxPowOrder t → 0 < len → 4096 ∣ a → a + pages len ≤ 2 ^ ref.maxPowOrder →
      Vacant 12 ref.maxPowOrder t a (pages len) → pages len / 4096 + 64 ≤ fuel →
      ∃ h', buddyPreAlloc ref fuel h (ref.contentMemReg.baseAddr + a) len = .ok h' := by
  intro fuel
  induction fuel with
  | zero =>
    intro _ _ _ _ _ _ _ _ _ _ enough
    omega
  | succ fuel ih =>
    intro h t a len rep wf pos aligned inside vacant enough
    have more := le_pages len
    have whole := dvd_pages len
    by_cases even : ∃ n, pages len = 2 ^ n
    · obtain ⟨n, even⟩ := even
      have twelve := order_of_pages pos even
      have lt := sized.lt
      obtain ⟨m, root⟩ := wf.root
      rw [buddyPreAlloc_even sized pos (by omega) even]
      have le := order_le inside even
      rw [even] at inside whole vacant enough
      obtain ⟨d, descent⟩ := preAllocLoop_returns sized ends twelve fuel rep wf (InTree.root sized) root
        le (by omega) (by omega) vacant (by omega)
      have done := preAllocLoop_spec sized ends twelve fuel rep wf (InTree.root sized) root le
        (by omega) (by omega) descent
      rw [descent, ok_bind]
      cases d with
      | done h₁ => exact ⟨h₁, rfl⟩
      | overlapping h₁ idx next =>
        obtain ⟨t₁, k, i, rep₁, cuts, at_, cut, rfl, rfl, above, left, right⟩ := done
        have mid : 4096 ∣ i * 2 ^ k + 2 ^ (k - 1) := page_dvd_mid (by omega) i
        obtain ⟨half, first, second⟩ := overlap_calls ends rep₁ at_ cut inside left right
        have parts : i * 2 ^ k + 2 ^ (k - 1) - a + (a + 2 ^ n - (i * 2 ^ k + 2 ^ (k - 1))) = 2 ^ n := by omega
        obtain ⟨h₂, t₂, h₃, run₁, rep₂, r₁, run₂⟩ := returns_twice sized ends ih rep₁ cuts.wf aligned
          (Nat.dvd_sub mid aligned) (Nat.dvd_sub (Nat.dvd_add aligned whole) mid) (by omega) (by omega)
          (by rw [parts]; exact inside) (by rw [parts]; exact cuts.vacant vacant) (by rw [parts]; exact enough)
        rw [Nat.add_sub_cancel' (Nat.le_of_lt left)] at run₂
        rw [afterDescent, half, first, run₁, ok_bind,
          (overlap_calls ends rep₂ at_ (r₁.keep k i cut) inside left right).1, second]
        exact ⟨h₃, run₂⟩
    · rw [buddyPreAlloc_uneven sized pos inside fun n h => even ⟨n, h⟩]
      obtain ⟨first, proper⟩ := floor_of_pages pos fun n h => even ⟨n, h⟩
      have parts := Nat.add_sub_cancel' (Nat.le_of_lt proper)
      obtain ⟨h₁, t₁, h₂, run₁, -, -, run₂⟩ := returns_twice sized ends ih rep wf aligned first (Nat.dvd_sub whole first)
        (Nat.two_pow_pos _) (by omega) (by rw [parts]; exact inside) (by rw [parts]; exact vacant)
        (by rw [parts]; exact enough)
      rw [run₁, ok_bind]
      exact ⟨h₂, run₂⟩

end Call

/-! ## A region that ends at the top of the address space

There `base + length` wraps to zero for a request that ends with the region, and the root's own end
wraps too. Such a request goes left at every block, so it reserves the first pages of the region
in place of the last; every other request loops at the root. -/

section Top

variable (sized : Sized ref) (top : ref.contentMemReg.baseAddr + 2 ^ ref.maxPowOrder = 2 ^ 64)

include sized top

private theorem preAllocLoop_top_never {h : Header} {t : Marking} {m : Mark} {a len kOrder : Nat}
    (rep : Rep ref h t) (root : t ref.maxPowOrder 0 = some m) (pos : 0 < len)
    (short : a + len < 2 ^ ref.maxPowOrder) (d : Descent) :
    ∀ fuel, preAllocLoop ref (ref.contentMemReg.baseAddr + a) len kOrder fuel h
      (slotAddr ref ref.maxPowOrder 0) ≠ .ok d
  | 0 => by intro run; cases run
  | fuel + 1 => by
    have wraps : Word.add ref.contentMemReg.baseAddr (2 ^ ref.maxPowOrder) = 0 := by
      unfold Word.add
      omega
    rw [preAllocLoop]
    simp only
    rw [rep.slot (InTree.root sized) root, if_neg]
    · exact preAllocLoop_top_never rep root pos short d fuel
    · simp only [Nat.zero_mul, Nat.add_zero]
      rw [upow_two sized.lt, wraps, Word.add_of_lt (by omega)]
      omega

private theorem preAllocLoop_top {a n : Nat} (min : 12 ≤ n) (stop : a + 2 ^ n = 2 ^ ref.maxPowOrder)
    {d : Descent} :
    ∀ (fuel : Nat) {h : Header} {t : Marking} {k : Nat} {m : Mark}, Rep ref h t →
      WF 12 ref.maxPowOrder t → InTree ref k 0 → t k 0 = some m → n ≤ k →
      preAllocLoop ref (ref.contentMemReg.baseAddr + a) (2 ^ n) n fuel h (slotAddr ref k 0) = .ok d →
      ∃ h' t', d = .done h' ∧ Rep ref h' t' ∧ Reserves 12 ref.maxPowOrder t t' 0 (2 ^ n)
  | 0, _, _, _, _, _, _, _, _, _, run => by cases run
  | fuel + 1, h, t, k, m, rep, wf, at_, there, le, run => by
    have high := at_.high
    have wraps : Word.add (ref.contentMemReg.baseAddr + a) (2 ^ n) = 0 := by
      unfold Word.add
      omega
    have slot := rep.slot at_ there
    rw [Nat.zero_mul, Nat.add_zero] at slot
    rw [preAllocLoop] at run
    simp only at run
    rw [wraps, if_pos (by rw [slot]; exact ⟨Nat.le_add_right _ _, Nat.zero_le _⟩)] at run
    rcases Nat.lt_or_eq_of_le le with above | rfl
    · rw [if_pos (by rw [slot]; exact above)] at run
      have order : (h (slotAddr ref k 0)).powOrder = k := by rw [slot]
      cases m with
      | used =>
        rw [slot] at run
        cases run
        refine ⟨h, t, rfl, rep, .of_used wf at_.low high there (by omega) ?_⟩
        have : 2 ^ n ≤ 2 ^ k := Nat.pow_le_pow_right (by decide) le
        omega
      | split =>
        obtain ⟨m', left⟩ := (wf.child (k - 1) 0 (by omega) (by omega)).mpr
          (by rw [show k - 1 + 1 = k by omega]; exact there)
        simp only [gotoLeftChild_eq sized at_ (by omega) order] at run
        rw [slot] at run
        simp only [if_pos (Nat.zero_le _)] at run
        exact preAllocLoop_top min stop fuel rep wf (at_.left (by omega)) left (by omega) run
      | unused =>
        have rep' := rep.splitAndInsert sized at_ (by omega) there
        have cut : t.cut k 0 k 0 = some .split := by
          rw [cut_apply t 0 k 0 (by omega), if_pos ⟨rfl, rfl⟩]
        have left : t.cut k 0 (k - 1) (2 * 0) = some .unused := by
          rw [cut_apply t 0 (k - 1) _ (by omega), if_neg (by omega), if_pos (by omega)]
        have slot' := rep'.slot at_ cut
        rw [Nat.zero_mul, Nat.add_zero] at slot'
        rw [slot] at run
        simp only [gotoLeftChild_eq sized at_ (by omega)
          (show (splitAndInsert ref h (slotAddr ref k 0) (slotAddr ref k 0)).powOrder = k by
            rw [slot'])] at run
        rw [if_pos ⟨by rw [slot']; exact Nat.le_add_right _ _, Nat.zero_le _⟩] at run
        have short : 2 ^ n < 2 ^ k := Nat.pow_lt_pow_right (by decide) above
        have cuts : Cuts 12 ref.maxPowOrder t (t.cut k 0) 0 (2 ^ n) :=
          .of_cut wf (by omega) high there (by omega) (by omega) short
        obtain ⟨h', t', rfl, rep'', r⟩ := preAllocLoop_top min stop fuel rep' cuts.wf
          (at_.left (by omega)) left (by omega) run
        exact ⟨h', t', rfl, rep'', cuts.reserves (Nat.two_pow_pos n) r⟩
    · rw [if_neg (by rw [slot]; exact Nat.lt_irrefl _), if_pos (by rw [slot]),
        bugOn_bind_eq_ok, slot] at run
      obtain ⟨free, run⟩ := run
      cases run
      have free : m = .unused := not_not.mp free
      subst free
      have r := Reserves.of_set wf at_.low high there
      rw [Nat.zero_mul] at r
      exact ⟨_, _, rfl, rep.setType at_ there .used, r⟩

theorem buddyPreAlloc_top_never (h' : Header) :
    ∀ (fuel : Nat) {h : Header} {t : Marking} {a len : Nat}, Rep ref h t →
      WF 12 ref.maxPowOrder t → 0 < len → a + pages len < 2 ^ ref.maxPowOrder →
      buddyPreAlloc ref fuel h (ref.contentMemReg.baseAddr + a) len ≠ .ok h'
  | 0, _, _, _, _, _, _, _, _ => by intro run; cases run
  | fuel + 1, h, t, a, len, rep, wf, pos, short => by
    intro run
    by_cases even : ∃ n, pages len = 2 ^ n
    · obtain ⟨n, even⟩ := even
      obtain ⟨m, root⟩ := wf.root
      rw [buddyPreAlloc_even sized pos (by omega) even] at run
      obtain ⟨d, descent, _⟩ := bind_eq_ok.mp run
      rw [even] at short
      exact preAllocLoop_top_never sized top rep root (Nat.two_pow_pos n) short d fuel descent
    · rw [buddyPreAlloc_uneven sized pos (Nat.le_of_lt short) fun n h => even ⟨n, h⟩] at run
      obtain ⟨h₁, run₁, _⟩ := bind_eq_ok.mp run
      obtain ⟨first, proper⟩ := floor_of_pages pos fun n h => even ⟨n, h⟩
      have len₁ := pages_of_dvd first
      exact buddyPreAlloc_top_never h₁ fuel rep wf (Nat.two_pow_pos _) (by omega) run₁

/-- A call that returns has reserved pages at the start of the region. -/
theorem buddyPreAlloc_top {fuel : Nat} {h h' : Header} {t : Marking} {a len : Nat} (rep : Rep ref h t)
    (wf : WF 12 ref.maxPowOrder t) (pos : 0 < len) (inside : a + pages len ≤ 2 ^ ref.maxPowOrder)
    (run : buddyPreAlloc ref fuel h (ref.contentMemReg.baseAddr + a) len = .ok h') :
    ∃ t', Rep ref h' t' ∧ Reserves 12 ref.maxPowOrder t t' 0 (pages len) := by
  rcases Nat.lt_or_eq_of_le inside with short | stop
  · exact absurd run (buddyPreAlloc_top_never sized top h' fuel rep wf pos short)
  cases fuel with
  | zero => cases run
  | succ fuel =>
    by_cases even : ∃ n, pages len = 2 ^ n
    · obtain ⟨n, even⟩ := even
      obtain ⟨m, root⟩ := wf.root
      rw [buddyPreAlloc_even sized pos (by omega) even] at run
      obtain ⟨d, descent, rest⟩ := bind_eq_ok.mp run
      have le := order_le inside even
      rw [even] at stop ⊢
      obtain ⟨h₁, t₁, rfl, rep₁, r⟩ := preAllocLoop_top sized top (order_of_pages pos even) stop fuel
        rep wf (InTree.root sized) root le descent
      cases rest
      exact ⟨t₁, rep₁, r⟩
    · rw [buddyPreAlloc_uneven sized pos inside fun n h => even ⟨n, h⟩] at run
      obtain ⟨h₁, run₁, _⟩ := bind_eq_ok.mp run
      obtain ⟨first, proper⟩ := floor_of_pages pos fun n h => even ⟨n, h⟩
      have len₁ := pages_of_dvd first
      exact absurd run₁ (buddyPreAlloc_top_never sized top h₁ fuel rep wf (Nat.two_pow_pos _)
        (by omega))

end Top

/-- A call for no bytes does not return. -/
theorem buddyPreAlloc_pos {fuel : Nat} {h h' : Header} {base len : Nat}
    (run : buddyPreAlloc ref fuel h base len = .ok h') : 0 < len := by
  cases fuel with
  | zero => cases run
  | succ fuel =>
    rw [buddyPreAlloc, bugOn_bind_eq_ok] at run
    omega

/-- A request that starts on a page and ends inside the region does so in whole pages. -/
theorem pages_inside (sized : Sized ref) {a len : Nat} (aligned : 4096 ∣ a)
    (upper : ref.contentMemReg.baseAddr + a + len ≤
      ref.contentMemReg.baseAddr + ref.contentMemReg.length) :
    a + pages len ≤ 2 ^ ref.maxPowOrder := by
  have whole : 4096 ∣ 2 ^ ref.maxPowOrder := page_dvd_two_pow sized.le
  have := sized.length
  unfold pages
  omega

/-- Wherever the region ends, a call that returns leaves a tidy header and frees nothing. -/
theorem buddyPreAlloc_tidy (sized : Sized ref) {fuel : Nat} {h h' : Header} {t : Marking} {a len : Nat}
    (tidy : Tidy ref h t) (pos : 0 < len) (aligned : 4096 ∣ a)
    (inside : a + pages len ≤ 2 ^ ref.maxPowOrder)
    (run : buddyPreAlloc ref fuel h (ref.contentMemReg.baseAddr + a) len = .ok h') :
    ∃ t', Tidy ref h' t' ∧ ∀ k i, t k i = some .used → t' k i = some .used := by
  rcases Nat.lt_or_eq_of_le sized.content with ends | top
  · obtain ⟨t', rep, r⟩ :=
      buddyPreAlloc_reserves sized ends fuel tidy.rep tidy.wf pos aligned inside run
    exact ⟨t', tidy.reserved rep r, r.grow⟩
  · obtain ⟨t', rep, r⟩ := buddyPreAlloc_top sized top tidy.rep tidy.wf pos inside run
    exact ⟨t', tidy.reserved rep r, r.grow⟩

end AlmeidaOS.Kernel
