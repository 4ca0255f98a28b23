import Mathlib.Data.Finset.Card
import Mathlib.Data.List.Induction
import Mathlib.Order.Interval.Finset.Nat

/-!
# Radix trees of tables

A store holds tables `τ`, each with an entry for every index `ι`; the entry `0` is empty, any other
one points to the table `next e`. Following a path of indices from a root reaches a table. A store
is a tree of depth `d` below a root when no table is reached by two paths of length at most `d`;
tables at depth `d` hold leaves.

There are three ways to change a tree. `Tree.link` hangs an empty table into an empty entry,
`Tree.unlink` takes an empty table out, `Tree.setLeaf` writes a leaf. Each says what every path
reaches afterwards, that only the entry written is looked up differently, and that the store is a
tree again. `Walks` follows a path through entries that pass a test.

The tables a set of paths may need are counted in the paths that lead nowhere yet: `vacant`. Filling in
a path takes as many of them away as it adds tables.
-/

namespace AlmeidaOS.Radix

variable {τ ι ε : Type}

/-- The entries of every table. -/
abbrev Store (τ ι ε : Type) := τ → ι → ε

section Reach

variable [DecidableEq ε] [Zero ε] (next : ε → τ)

/-- The table an entry points to. -/
def child (E : Store τ ι ε) (t : τ) (i : ι) : Option τ :=
  if E t i = 0 then none else some (next (E t i))

/-- The table a path leads to. -/
def reach (E : Store τ ι ε) : τ → List ι → Option τ
  | t, [] => some t
  | t, i :: is => (child next E t i).bind fun t' => reach E t' is

/-- The entry at a path and an index, empty where the path leads nowhere. -/
def lookup (E : Store τ ι ε) (t : τ) (is : List ι) (i : ι) : ε :=
  match reach next E t is with
  | none => 0
  | some t' => E t' i

/-- The tables missing on the way along a path. -/
def missing (E : Store τ ι ε) : τ → List ι → Nat
  | _, [] => 0
  | t, i :: is => if E t i = 0 then is.length + 1 else missing E (next (E t i)) is

variable {next} {E : Store τ ι ε} {r t : τ} {is js : List ι} {i : ι}

theorem missing_empty (empty : ∀ i, E t i = 0) (is : List ι) : missing next E t is = is.length := by
  cases is with
  | nil => rfl
  | cons i is => exact if_pos (empty i)

theorem child_of_ne_zero (h : E t i ≠ 0) : child next E t i = some (next (E t i)) := if_neg h

theorem child_of_zero (h : E t i = 0) : child next E t i = none := if_pos h

theorem reach_append (E : Store τ ι ε) (r : τ) (is js : List ι) :
    reach next E r (is ++ js) = (reach next E r is).bind fun t => reach next E t js := by
  induction is generalizing r with
  | nil => rfl
  | cons i is ih =>
    simp only [List.cons_append, reach]
    cases child next E r i with
    | none => rfl
    | some t => exact ih t

theorem reach_snoc (E : Store τ ι ε) (r : τ) (is : List ι) (i : ι) :
    reach next E r (is ++ [i]) = (reach next E r is).bind fun t => child next E t i := by
  rw [reach_append]
  congr 1
  funext t
  simp only [reach]
  cases child next E t i with
  | none => rfl
  | some t' => rfl

theorem lookup_of_reach (at_ : reach next E r is = some t) (i : ι) : lookup next E r is i = E t i := by
  rw [lookup, at_]

/-- Only tables that are reached have entries. -/
theorem reach_of_lookup (found : lookup next E r is i ≠ 0) : ∃ t, reach next E r is = some t := by
  unfold lookup at found
  cases reached : reach next E r is with
  | none =>
    rw [reached] at found
    exact absurd rfl found
  | some t => exact ⟨t, rfl⟩

/-- An empty table leads nowhere. -/
theorem reach_empty (empty : ∀ i, E t i = 0) (ne : js ≠ []) : reach next E t js = none := by
  cases js with
  | nil => exact absurd rfl ne
  | cons j js =>
    rw [reach, child_of_zero (empty j)]
    rfl

/-- Stores that agree on the tables met along a path lead to the same table. -/
theorem reach_congr {E' : Store τ ι ε}
    (same : ∀ ps p, ps ++ [p] <+: js → ∀ t, reach next E r ps = some t → E' t p = E t p) :
    reach next E' r js = reach next E r js := by
  induction js using List.reverseRecOn with
  | nil => rfl
  | append_singleton js j ih =>
    have before := ih fun ps p pre => same ps p (pre.trans (List.prefix_append _ _))
    rw [reach_snoc, reach_snoc, before]
    cases reached : reach next E r js with
    | none => rfl
    | some t =>
      have entry := same js j (List.prefix_refl _) t reached
      simp only [Option.bind_some, child, entry]

/-- Stores that agree on the entries met along a path have the same entry at its end. -/
theorem lookup_congr {E' : Store τ ι ε} {j : ι}
    (same : ∀ ps p, ps ++ [p] <+: js ++ [j] → ∀ t, reach next E r ps = some t → E' t p = E t p) :
    lookup next E' r js j = lookup next E r js j := by
  have path : reach next E' r js = reach next E r js :=
    reach_congr fun ps p pre => same ps p (pre.trans (List.prefix_append _ _))
  unfold lookup
  rw [path]
  cases reached : reach next E r js with
  | none => rfl
  | some t => exact same js j (List.prefix_refl _) t reached

end Reach

section Put

variable [DecidableEq τ] [DecidableEq ι]

/-- Writes one entry. -/
def Store.put (E : Store τ ι ε) (t : τ) (i : ι) (e : ε) : Store τ ι ε :=
  fun t' i' => if t' = t ∧ i' = i then e else E t' i'

@[simp] theorem put_self (E : Store τ ι ε) (t : τ) (i : ι) (e : ε) : E.put t i e t i = e :=
  if_pos ⟨rfl, rfl⟩

theorem put_of_ne (E : Store τ ι ε) {t t' : τ} {i i' : ι} (e : ε) (h : ¬ (t' = t ∧ i' = i)) :
    E.put t i e t' i' = E t' i' :=
  if_neg h

end Put

theorem prefix_snoc_irrefl {is : List ι} {i : ι} : ¬ is ++ [i] <+: is := by
  intro pre
  have := pre.length_le
  simp only [List.length_append, List.length_singleton] at this
  omega

variable [DecidableEq ε] [Zero ε]

/-- The store is a tree of depth `d` below `r`. -/
def Tree (next : ε → τ) (d : Nat) (E : Store τ ι ε) (r : τ) : Prop :=
  ∀ is js t, is.length ≤ d → js.length ≤ d → reach next E r is = some t →
    reach next E r js = some t → is = js

/-- The tables of the tree. -/
def tables (next : ε → τ) (d : Nat) (E : Store τ ι ε) (r : τ) : Set τ :=
  {t | ∃ is, is.length ≤ d ∧ reach next E r is = some t}

theorem mem_tables_root (next : ε → τ) (d : Nat) (E : Store τ ι ε) (r : τ) : r ∈ tables next d E r :=
  ⟨[], Nat.zero_le d, rfl⟩

section Empty

variable {next : ε → τ} {E : Store τ ι ε} {r : τ} (d : Nat) (empty : ∀ i, E r i = 0)

include empty

theorem Tree.of_empty : Tree next d E r := by
  have only : ∀ is t, reach next E r is = some t → is = [] := by
    intro is t reached
    by_contra ne
    rw [reach_empty empty ne] at reached
    cases reached
  intro is js t _ _ ri rj
  rw [only is t ri, only js t rj]

theorem mem_tables_of_empty (t : τ) : t ∈ tables next d E r ↔ t = r := by
  constructor
  · rintro ⟨is, -, reached⟩
    by_cases nil : is = []
    · subst nil
      exact (Option.some.inj reached).symm
    · rw [reach_empty empty nil] at reached
      cases reached
  · rintro rfl
    exact ⟨[], Nat.zero_le d, rfl⟩

end Empty

section Agree

variable {next : ε → τ} {E E' : Store τ ι ε} {r : τ} {js : List ι} {d : Nat}

/-- Stores that agree on the tables of a tree lead to the same tables. -/
theorem reach_agree (same : ∀ t ∈ tables next d E r, E' t = E t) (bound : js.length ≤ d) :
    reach next E' r js = reach next E r js := by
  refine reach_congr fun ps p pre t reached => ?_
  have := pre.length_le
  simp only [List.length_append, List.length_singleton] at this
  rw [same t ⟨ps, by omega, reached⟩]

theorem tables_agree (same : ∀ t ∈ tables next d E r, E' t = E t) :
    tables next d E' r = tables next d E r := by
  ext t
  constructor
  · rintro ⟨is, len, reached⟩
    exact ⟨is, len, by rw [← reach_agree same len, reached]⟩
  · rintro ⟨is, len, reached⟩
    exact ⟨is, len, by rw [reach_agree same len, reached]⟩

theorem Tree.agree (tree : Tree next d E r) (same : ∀ t ∈ tables next d E r, E' t = E t) :
    Tree next d E' r := by
  intro is js t hi hj ri rj
  rw [reach_agree same hi] at ri
  rw [reach_agree same hj] at rj
  exact tree is js t hi hj ri rj

theorem lookup_agree (same : ∀ t ∈ tables next d E r, E' t = E t) (bound : js.length ≤ d) (j : ι) :
    lookup next E' r js j = lookup next E r js j := by
  unfold lookup
  rw [reach_agree same bound]
  cases reached : reach next E r js with
  | none => rfl
  | some t => exact congrFun (same t ⟨js, bound, reached⟩) j

end Agree

section Moves

variable [DecidableEq τ] [DecidableEq ι] {next : ε → τ} {E : Store τ ι ε} {r t f : τ}
  {is js : List ι} {i j : ι} {e : ε} {d : Nat} (tree : Tree next d E r) (at_ : reach next E r is = some t)

include tree at_

/-- Writing an entry changes nothing on the paths that do not go through it. -/
theorem reach_put_off_path (len : is.length ≤ d) (bound : js.length ≤ d)
    (off : ¬ is ++ [i] <+: js) : reach next (E.put t i e) r js = reach next E r js := by
  refine reach_congr fun ps p pre u reached => put_of_ne E e ?_
  rintro ⟨rfl, rfl⟩
  have short : ps.length ≤ d := by
    have := pre.length_le
    simp only [List.length_append, List.length_singleton] at this
    omega
  exact off (tree ps is u short len reached at_ ▸ pre)

theorem reach_put_self (len : is.length ≤ d) : reach next (E.put t i e) r is = some t := by
  rw [reach_put_off_path tree at_ len len prefix_snoc_irrefl, at_]

/-- Hanging an empty table into an empty entry adds the one path to it. -/
theorem reach_link (len : is.length < d) (free : E t i = 0) (nonzero : e ≠ 0)
    (fresh : f ∉ tables next d E r) (point : next e = f) (empty : ∀ j, E f j = 0)
    (bound : js.length ≤ d) :
    reach next (E.put t i e) r js = if js = is ++ [i] then some f else reach next E r js := by
  have apart : f ≠ t := by
    rintro rfl
    exact fresh ⟨is, Nat.le_of_lt len, at_⟩
  by_cases through : is ++ [i] <+: js
  · obtain ⟨ks, rfl⟩ := through
    have start : child next (E.put t i e) t i = some f := by
      rw [child_of_ne_zero (by rw [put_self]; exact nonzero), put_self, point]
    have before : reach next E r (is ++ [i]) = none := by
      rw [reach_snoc, at_]
      exact child_of_zero free
    rw [reach_append, reach_snoc, reach_put_self tree at_ (Nat.le_of_lt len), Option.bind_some, start,
      Option.bind_some, reach_append, before]
    cases ks with
    | nil => rw [List.append_nil, if_pos rfl]; rfl
    | cons k ks =>
      rw [if_neg (by simp), reach_empty (fun j => ?_) (by simp)]
      · rfl
      · rw [put_of_ne E e (fun h => apart h.1), empty]
  · rw [reach_put_off_path tree at_ (Nat.le_of_lt len) bound through, if_neg]
    rintro rfl
    exact through (List.prefix_refl _)

/-- Taking an empty table out removes the one path to it. -/
theorem reach_unlink (len : is.length < d) (link : child next E t i = some f)
    (empty : ∀ j, E f j = 0) (bound : js.length ≤ d) :
    reach next (E.put t i 0) r js = if js = is ++ [i] then none else reach next E r js := by
  by_cases through : is ++ [i] <+: js
  · obtain ⟨ks, rfl⟩ := through
    have start : child next (E.put t i 0) t i = none := child_of_zero (put_self ..)
    rw [reach_append, reach_snoc, reach_put_self tree at_ (Nat.le_of_lt len), Option.bind_some, start,
      reach_append, reach_snoc, at_, Option.bind_some, link]
    cases ks with
    | nil => rw [List.append_nil, if_pos rfl]; rfl
    | cons k ks =>
      rw [if_neg (by simp), Option.bind_some, reach_empty empty (by simp)]
      rfl
  · rw [reach_put_off_path tree at_ (Nat.le_of_lt len) bound through, if_neg]
    rintro rfl
    exact through (List.prefix_refl _)

/-- Writing a leaf changes no path. -/
theorem reach_setLeaf (len : is.length = d) (bound : js.length ≤ d) :
    reach next (E.put t i e) r js = reach next E r js := by
  refine reach_put_off_path tree at_ (Nat.le_of_eq len) bound fun pre => ?_
  have := pre.length_le
  simp only [List.length_append, List.length_singleton] at this
  omega

/-! ## The tree afterwards -/

theorem Tree.link (len : is.length < d) (free : E t i = 0) (nonzero : e ≠ 0)
    (fresh : f ∉ tables next d E r) (point : next e = f) (empty : ∀ j, E f j = 0) :
    Tree next d (E.put t i e) r := by
  intro ps qs u hp hq up uq
  rw [reach_link tree at_ len free nonzero fresh point empty hp] at up
  rw [reach_link tree at_ len free nonzero fresh point empty hq] at uq
  split at up
  · next here =>
    split at uq
    · next there => exact here.trans there.symm
    · cases up
      exact absurd ⟨qs, hq, uq⟩ fresh
  · split at uq
    · cases uq
      exact absurd ⟨ps, hp, up⟩ fresh
    · exact tree ps qs u hp hq up uq

theorem tables_link (len : is.length < d) (free : E t i = 0) (nonzero : e ≠ 0)
    (fresh : f ∉ tables next d E r) (point : next e = f) (empty : ∀ j, E f j = 0) (u : τ) :
    u ∈ tables next d (E.put t i e) r ↔ u = f ∨ u ∈ tables next d E r := by
  have paths : ∀ js : List ι, js.length ≤ d → reach next (E.put t i e) r js = _ :=
    fun js bound => reach_link tree at_ len free nonzero fresh point empty bound
  constructor
  · rintro ⟨ps, hp, up⟩
    rw [paths ps hp] at up
    split at up
    · exact .inl (Option.some.inj up).symm
    · exact .inr ⟨ps, hp, up⟩
  · have bound : (is ++ [i]).length ≤ d := by
      simp only [List.length_append, List.length_singleton]
      exact len
    rintro (rfl | ⟨ps, hp, up⟩)
    · exact ⟨is ++ [i], bound, by rw [paths _ bound, if_pos rfl]⟩
    · refine ⟨ps, hp, ?_⟩
      rw [paths ps hp, if_neg, up]
      rintro rfl
      rw [reach_snoc, at_, Option.bind_some, child_of_zero free] at up
      cases up

theorem Tree.unlink (len : is.length < d) (link : child next E t i = some f)
    (empty : ∀ j, E f j = 0) : Tree next d (E.put t i 0) r := by
  intro ps qs u hp hq up uq
  rw [reach_unlink tree at_ len link empty hp] at up
  rw [reach_unlink tree at_ len link empty hq] at uq
  split at up
  · cases up
  · split at uq
    · cases uq
    · exact tree ps qs u hp hq up uq

theorem tables_unlink (len : is.length < d) (link : child next E t i = some f)
    (empty : ∀ j, E f j = 0) (u : τ) :
    u ∈ tables next d (E.put t i 0) r ↔ u ≠ f ∧ u ∈ tables next d E r := by
  have paths : ∀ js : List ι, js.length ≤ d → reach next (E.put t i 0) r js = _ :=
    fun js bound => reach_unlink tree at_ len link empty bound
  have bound : (is ++ [i]).length ≤ d := by
    simp only [List.length_append, List.length_singleton]
    exact len
  have old : reach next E r (is ++ [i]) = some f := by rw [reach_snoc, at_, Option.bind_some, link]
  constructor
  · rintro ⟨ps, hp, up⟩
    rw [paths ps hp] at up
    split at up
    · cases up
    · next off =>
      refine ⟨?_, ps, hp, up⟩
      rintro rfl
      exact off (tree ps _ u hp bound up old)
  · rintro ⟨ne, ps, hp, up⟩
    refine ⟨ps, hp, ?_⟩
    rw [paths ps hp, if_neg, up]
    rintro rfl
    rw [old] at up
    exact ne (Option.some.inj up).symm

theorem Tree.setLeaf (len : is.length = d) : Tree next d (E.put t i e) r := by
  intro ps qs u hp hq up uq
  rw [reach_setLeaf tree at_ len hp] at up
  rw [reach_setLeaf tree at_ len hq] at uq
  exact tree ps qs u hp hq up uq

theorem tables_setLeaf (len : is.length = d) (u : τ) :
    u ∈ tables next d (E.put t i e) r ↔ u ∈ tables next d E r := by
  have paths : ∀ js : List ι, js.length ≤ d → reach next (E.put t i e) r js = _ :=
    fun js bound => reach_setLeaf tree at_ len bound
  constructor
  · rintro ⟨ps, hp, up⟩
    exact ⟨ps, hp, by rw [← paths ps hp, up]⟩
  · rintro ⟨ps, hp, up⟩
    exact ⟨ps, hp, by rw [paths ps hp, up]⟩

/-! ## The entries afterwards -/

theorem lookup_put (len : is.length ≤ d) (bound : js.length ≤ d)
    (same : reach next (E.put t i e) r js = reach next E r js) :
    lookup next (E.put t i e) r js j = if js = is ∧ j = i then e else lookup next E r js j := by
  unfold lookup
  rw [same]
  by_cases here : js = is ∧ j = i
  · obtain ⟨rfl, rfl⟩ := here
    rw [at_, if_pos ⟨rfl, rfl⟩]
    exact put_self ..
  · rw [if_neg here]
    cases reached : reach next E r js with
    | none => rfl
    | some u =>
      refine put_of_ne E e ?_
      rintro ⟨rfl, rfl⟩
      exact here ⟨tree js is u bound len reached at_, rfl⟩

theorem lookup_link (len : is.length < d) (free : E t i = 0) (nonzero : e ≠ 0)
    (fresh : f ∉ tables next d E r) (point : next e = f) (empty : ∀ j, E f j = 0)
    (bound : js.length ≤ d) :
    lookup next (E.put t i e) r js j = if js = is ∧ j = i then e else lookup next E r js j := by
  have path := reach_link tree at_ len free nonzero fresh point empty bound
  by_cases here : js = is ++ [i]
  · have apart : f ≠ t := by
      rintro rfl
      exact fresh ⟨is, Nat.le_of_lt len, at_⟩
    have before : lookup next E r js j = 0 := by
      rw [lookup, here, reach_snoc, at_, Option.bind_some, child_of_zero free]
    rw [if_neg (by simp [here]), before, lookup, path, if_pos here]
    exact (put_of_ne E e fun h => apart h.1).trans (empty j)
  · exact lookup_put tree at_ (Nat.le_of_lt len) bound (path.trans (if_neg here))

theorem lookup_unlink (len : is.length < d) (link : child next E t i = some f)
    (empty : ∀ j, E f j = 0) (bound : js.length ≤ d) :
    lookup next (E.put t i 0) r js j = if js = is ∧ j = i then 0 else lookup next E r js j := by
  have path := reach_unlink tree at_ len link empty bound
  by_cases here : js = is ++ [i]
  · have before : lookup next E r js j = 0 := by
      rw [lookup, here, reach_snoc, at_, Option.bind_some, link]
      exact empty j
    rw [if_neg (by simp [here]), before, lookup, path, if_pos here]
  · exact lookup_put tree at_ (Nat.le_of_lt len) bound (path.trans (if_neg here))

theorem lookup_setLeaf (len : is.length = d) (bound : js.length ≤ d) :
    lookup next (E.put t i e) r js j = if js = is ∧ j = i then e else lookup next E r js j :=
  lookup_put tree at_ (Nat.le_of_eq len) bound (reach_setLeaf tree at_ len bound)

end Moves

/-! ## Counting -/

section Count

variable {next : ε → τ} {E E' : Store τ ι ε} {r t : τ} {is js : List ι} {d : Nat}

theorem missing_le_length (next : ε → τ) (E : Store τ ι ε) (r : τ) (is : List ι) : missing next E r is ≤ is.length := by
  induction is generalizing r with
  | nil => exact Nat.le_refl 0
  | cons i is ih =>
    rw [missing, List.length_cons]
    split
    · exact Nat.le_refl _
    · exact Nat.le_succ_of_le (ih _)

/-- The tables missing on the way are the last ones. -/
theorem reach_take_missing {j : Nat} (beyond : is.length - missing next E r is < j) (within : j ≤ is.length) :
    reach next E r (is.take j) = none := by
  induction is generalizing r j with
  | nil => exact absurd beyond (by rw [List.length_nil] at within; omega)
  | cons i is ih =>
    rw [List.length_cons] at beyond within
    obtain ⟨k, rfl⟩ : ∃ k, j = k + 1 := ⟨j - 1, by omega⟩
    rw [List.take_succ_cons, reach]
    by_cases empty : E r i = 0
    · rw [child_of_zero empty]
      rfl
    · rw [missing, if_neg empty] at beyond
      have le := missing_le_length next E (next (E r i)) is
      rw [child_of_ne_zero empty]
      exact ih (by omega) (by omega)

theorem reach_of_prefix (at_ : reach next E r is = some t) (pre : js <+: is) : ∃ u, reach next E r js = some u := by
  obtain ⟨ks, rfl⟩ := pre
  rw [reach_append] at at_
  obtain ⟨u, reached, -⟩ := Option.bind_eq_some_iff.mp at_
  exact ⟨u, reached⟩

variable {S : Finset (List ι)}

/-- The paths of a set that lead nowhere. -/
def vacant (next : ε → τ) (E : Store τ ι ε) (r : τ) (S : Finset (List ι)) : Finset (List ι) :=
  S.filter fun js => reach next E r js = none

theorem mem_vacant : js ∈ vacant next E r S ↔ js ∈ S ∧ reach next E r js = none := Finset.mem_filter

/-- Paths of a tree that lead somewhere lead to as many tables. -/
theorem card_le_of_reached (tree : Tree next d E r) {U : Finset τ} (short : ∀ js ∈ S, js.length ≤ d)
    (reached : ∀ js ∈ S, ∃ u ∈ U, reach next E r js = some u) : S.card ≤ U.card := by
  refine Finset.card_le_card_of_injOn (fun js => (reach next E r js).getD r) (fun js mem => ?_)
    fun js mem ks mem' same => ?_
  · obtain ⟨u, inside, at_⟩ := reached js mem
    dsimp only
    rw [at_]
    exact inside
  · obtain ⟨u, -, at_⟩ := reached js mem
    obtain ⟨u', -, at_'⟩ := reached ks mem'
    simp only [at_, at_', Option.getD_some] at same
    exact tree js ks u (short js mem) (short ks mem') at_ (by rw [at_', same])

variable [DecidableEq ι]

/-- The beginnings of a path that lead nowhere. -/
def gaps (next : ε → τ) (E : Store τ ι ε) (r : τ) (is : List ι) : Finset (List ι) :=
  (Finset.Ioc (is.length - missing next E r is) is.length).image is.take

theorem mem_gaps (mem : js ∈ gaps next E r is) : js <+: is ∧ reach next E r js = none := by
  obtain ⟨j, inside, rfl⟩ := Finset.mem_image.mp mem
  obtain ⟨beyond, within⟩ := Finset.mem_Ioc.mp inside
  exact ⟨List.take_prefix j is, reach_take_missing beyond within⟩

theorem card_gaps (E : Store τ ι ε) (r : τ) (is : List ι) : (gaps next E r is).card = missing next E r is := by
  have le := missing_le_length next E r is
  rw [gaps, Finset.card_image_of_injOn, Nat.card_Ioc]
  · omega
  · intro j inside k inside' same
    have lengths := congrArg List.length same
    have := (Finset.mem_Ioc.mp inside).2
    have := (Finset.mem_Ioc.mp inside').2
    rw [List.length_take, List.length_take] at lengths
    omega

theorem gaps_subset (within : ∀ ps, ps <+: is → ps ∈ S) : gaps next E r is ⊆ vacant next E r S := by
  intro js mem
  obtain ⟨pre, nowhere⟩ := mem_gaps mem
  exact mem_vacant.mpr ⟨within js pre, nowhere⟩

/-- What a path of the set still needs is among what is vacant. -/
theorem missing_le_vacant (within : ∀ ps, ps <+: is → ps ∈ S) :
    missing next E r is ≤ (vacant next E r S).card := by
  rw [← card_gaps]
  exact Finset.card_le_card (gaps_subset within)

/-- Filling in a path of the set leaves that many paths fewer vacant. -/
theorem vacant_add_missing_le (within : ∀ ps, ps <+: is → ps ∈ S)
    (grows : ∀ js u, js ∈ S → reach next E r js = some u → ∃ u', reach next E' r js = some u')
    (filled : reach next E' r is = some t) :
    (vacant next E' r S).card + missing next E r is ≤ (vacant next E r S).card := by
  have apart : Disjoint (vacant next E' r S) (gaps next E r is) := by
    rw [Finset.disjoint_left]
    intro js mem gap
    obtain ⟨u, reached⟩ := reach_of_prefix filled (mem_gaps gap).1
    rw [(mem_vacant.mp mem).2] at reached
    cases reached
  have fewer : vacant next E' r S ⊆ vacant next E r S := by
    intro js mem
    obtain ⟨inside, nowhere⟩ := mem_vacant.mp mem
    refine mem_vacant.mpr ⟨inside, ?_⟩
    by_contra somewhere
    obtain ⟨u, reached⟩ := Option.ne_none_iff_exists'.mp somewhere
    obtain ⟨u', still⟩ := grows js u inside reached
    rw [nowhere] at still
    cases still
  calc (vacant next E' r S).card + missing next E r is
      = (vacant next E' r S ∪ gaps next E r is).card := by rw [Finset.card_union_of_disjoint apart, card_gaps]
    _ ≤ (vacant next E r S).card := Finset.card_le_card (Finset.union_subset fewer (gaps_subset within))

/-- In an empty tree only the root is there. -/
theorem card_vacant_of_empty (empty : ∀ i, E r i = 0) (root : [] ∈ S) :
    (vacant next E r S).card + 1 = S.card := by
  have rest : vacant next E r S = S.erase [] := by
    ext js
    rw [mem_vacant, Finset.mem_erase, and_comm]
    refine and_congr_left fun _ => ⟨?_, reach_empty empty⟩
    rintro nowhere rfl
    cases nowhere
  rw [rest, Finset.card_erase_add_one root]

end Count

/-! ## Walks -/

/-- Every entry met on the way to a leaf passes a test. -/
def Walks (next : ε → τ) (ok : ε → Prop) (E : Store τ ι ε) (r : τ) (js : List ι) (j : ι) : Prop :=
  ∀ ps p, ps ++ [p] <+: js ++ [j] → ok (lookup next E r ps p)

section Walks

variable {next : ε → τ} {ok : ε → Prop} {E E' : Store τ ι ε} {r : τ} {is js : List ι} {i j : ι}
  {d : Nat}

omit [DecidableEq ε] [Zero ε] in
theorem prefix_length {ps js : List ι} {p j : ι} (pre : ps ++ [p] <+: js ++ [j]) :
    ps.length ≤ js.length := by
  have := pre.length_le
  simp only [List.length_append, List.length_singleton] at this
  omega

omit [DecidableEq ε] [Zero ε] in
/-- A position above the leaf has another one below it. -/
theorem prefix_next (pre : is ++ [i] <+: js ++ [j]) (above : is.length < js.length) :
    ∃ q, is ++ [i] ++ [q] <+: js ++ [j] := by
  obtain ⟨ks, split⟩ := pre
  cases ks with
  | nil =>
    have := congrArg List.length split
    simp only [List.length_append, List.length_singleton, List.length_nil] at this
    omega
  | cons q ks =>
    exact ⟨q, ks, by rw [← split]; simp⟩

/-- The way to an entry that is there leads through entries that are there. -/
theorem lookup_ne_zero_on_way {ps : List ι} {p : ι} (found : lookup next E r js j ≠ 0)
    (pre : ps ++ [p] <+: js ++ [j]) : lookup next E r ps p ≠ 0 := by
  rcases List.prefix_concat_iff.mp pre with whole | inner
  · obtain ⟨same, last⟩ := List.append_inj' whole rfl
    rw [same, List.singleton_inj.mp last]
    exact found
  · obtain ⟨t, reached⟩ := reach_of_lookup found
    obtain ⟨ks, rfl⟩ := inner
    rw [reach_append, reach_snoc] at reached
    intro zero
    unfold lookup at zero
    cases at_ : reach next E r ps with
    | none =>
      rw [at_] at reached
      cases reached
    | some u =>
      rw [at_] at zero reached
      replace zero : E u p = 0 := zero
      rw [Option.bind_some, child_of_zero zero] at reached
      cases reached

/-- When every entry passes the test, the walks are those to entries that are there. -/
theorem walks_iff_of_all (depth : js.length ≤ d) (zero : ¬ ok 0)
    (all : ∀ ps p, ps.length ≤ d → lookup next E r ps p ≠ 0 → ok (lookup next E r ps p)) :
    Walks next ok E r js j ↔ lookup next E r js j ≠ 0 := by
  constructor
  · intro walk none
    have last := walk js j (List.prefix_refl _)
    rw [none] at last
    exact zero last
  · intro found ps p pre
    exact all ps p (Nat.le_trans (prefix_length pre) depth) (lookup_ne_zero_on_way found pre)

/-- Entries that agree on the way give the same walk. -/
theorem Walks.congr (depth : js.length = d)
    (same : ∀ ps p, ps.length ≤ d → ps ++ [p] <+: js ++ [j] →
      lookup next E' r ps p = lookup next E r ps p) :
    Walks next ok E' r js j ↔ Walks next ok E r js j := by
  constructor
  · intro walk ps p pre
    rw [← same ps p (depth ▸ prefix_length pre) pre]
    exact walk ps p pre
  · intro walk ps p pre
    rw [same ps p (depth ▸ prefix_length pre) pre]
    exact walk ps p pre

/-- Changing one entry below which everything is empty, before and after, changes no walk. -/
theorem Walks.of_blocked (depth : js.length = d) (len : is.length < d) (zero : ¬ ok 0)
    (entry : ∀ ps p, ps.length ≤ d → ¬ (ps = is ∧ p = i) →
      lookup next E' r ps p = lookup next E r ps p)
    (below : ∀ q, lookup next E r (is ++ [i]) q = 0) :
    Walks next ok E' r js j ↔ Walks next ok E r js j := by
  by_cases through : is ++ [i] <+: js ++ [j]
  · obtain ⟨q, deeper⟩ := prefix_next through (depth ▸ len)
    constructor
    · intro walk
      have bad := walk _ _ deeper
      rw [entry _ _ (depth ▸ prefix_length deeper) (by simp), below] at bad
      exact absurd bad zero
    · intro walk
      have bad := walk _ _ deeper
      rw [below] at bad
      exact absurd bad zero
  · refine Walks.congr depth fun ps p short pre => entry ps p short ?_
    rintro ⟨rfl, rfl⟩
    exact through pre

/-- Writing a leaf changes no walk to another leaf. -/
theorem Walks.setLeaf (depth : js.length = d) (len : is.length = d)
    (entry : ∀ ps p, ps.length ≤ d → ¬ (ps = is ∧ p = i) →
      lookup next E' r ps p = lookup next E r ps p)
    (other : ¬ (js = is ∧ j = i)) : Walks next ok E' r js j ↔ Walks next ok E r js j := by
  refine Walks.congr depth fun ps p short pre => entry ps p short ?_
  rintro ⟨rfl, rfl⟩
  have whole := pre.eq_of_length (by simp only [List.length_append, List.length_singleton]; omega)
  obtain ⟨same, last⟩ := List.append_inj' whole rfl
  exact other ⟨same.symm, (List.singleton_inj.mp last).symm⟩

end Walks

end AlmeidaOS.Radix
