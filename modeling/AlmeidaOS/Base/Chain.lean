import Mathlib.Data.List.Nodup

/-!
# Singly linked lists

A list threaded through nodes `ν`: each node has a successor, the last one has `null`. `Chain next
null p qs` says that the list from `p` on visits exactly `qs`. The laws are those of the moves of
such a list: putting a node before or behind it, taking its first node off, and taking a later node
out by moving its predecessor's link.
-/

namespace AlmeidaOS

variable {ν : Type}

/-- The list from `p` on visits the given nodes. -/
def Chain (next : ν → ν) (null : ν) : ν → List ν → Prop
  | p, [] => p = null
  | p, q :: qs => p = q ∧ q ≠ null ∧ Chain next null (next q) qs

namespace Chain

variable {next next' : ν → ν} {null p q : ν} {as bs qs : List ν} {a b : ν}

theorem congr (chain : Chain next null p qs) (same : ∀ x ∈ qs, next' x = next x) :
    Chain next' null p qs := by
  induction qs generalizing p with
  | nil => exact chain
  | cons q qs ih =>
    obtain ⟨here, valid, rest⟩ := chain
    refine ⟨here, valid, ?_⟩
    rw [same q (List.mem_cons_self ..)]
    exact ih rest fun x mem => same x (List.mem_cons_of_mem _ mem)

theorem head_eq_null (chain : Chain next null p qs) : p = null ↔ qs = [] := by
  cases qs with
  | nil => exact ⟨fun _ => rfl, fun _ => chain⟩
  | cons q qs =>
    obtain ⟨rfl, valid, -⟩ := chain
    exact ⟨fun null => absurd null valid, fun h => absurd h (List.cons_ne_nil _ _)⟩

/-- The nodes a list visits are determined by its head. -/
theorem unique {rs : List ν} (chain : Chain next null p qs) (other : Chain next null p rs) : qs = rs := by
  induction qs generalizing p rs with
  | nil =>
    obtain rfl : p = null := chain
    exact (other.head_eq_null.mp rfl).symm
  | cons q qs ih =>
    obtain ⟨rfl, valid, rest⟩ := chain
    cases rs with
    | nil => exact absurd other valid
    | cons r rs =>
      obtain ⟨rfl, -, rest'⟩ := other
      rw [ih rest rest']

/-- A node put before the list. -/
theorem push (chain : Chain next null p qs) (valid : q ≠ null) (link : next' q = p)
    (same : ∀ x ∈ qs, next' x = next x) : Chain next' null q (q :: qs) := by
  refine ⟨rfl, valid, ?_⟩
  rw [link]
  exact chain.congr same

/-- The rest of the list begins where the last node before it points. -/
theorem suffix (chain : Chain next null p (as ++ a :: bs)) : Chain next null (next a) bs := by
  induction as generalizing p with
  | nil => exact chain.2.2
  | cons x as ih => exact ih chain.2.2

/-- A list visits no node twice. -/
theorem nodup (chain : Chain next null p qs) : qs.Nodup := by
  induction qs generalizing p with
  | nil => exact List.nodup_nil
  | cons q qs ih =>
    refine List.nodup_cons.mpr ⟨fun again => ?_, ih chain.2.2⟩
    obtain ⟨as, bs, rfl⟩ := List.append_of_mem again
    -- the second visit would go on as the first did
    have same := congrArg List.length (chain.2.2.unique chain.2.2.suffix)
    simp only [List.length_append, List.length_cons] at same
    omega

/-- A node put behind the list. -/
theorem snoc (chain : Chain next null p (as ++ [a])) (valid : b ≠ null) (link : next' a = b)
    (last : next' b = null) (same : ∀ x ∈ as, next' x = next x) : Chain next' null p (as ++ [a, b]) := by
  induction as generalizing p with
  | nil => exact ⟨chain.1, chain.2.1, by rw [link]; exact ⟨rfl, valid, last⟩⟩
  | cons x as ih =>
    obtain ⟨here, ok, rest⟩ := chain
    refine ⟨here, ok, ?_⟩
    rw [same x (List.mem_cons_self ..)]
    exact ih rest fun y mem => same y (List.mem_cons_of_mem _ mem)

/-- A later node taken out: its predecessor now points past it. -/
theorem unlink (chain : Chain next null p (as ++ a :: b :: bs)) (link : next' a = next b)
    (same : ∀ x ∈ as ++ bs, next' x = next x) : Chain next' null p (as ++ a :: bs) := by
  induction as generalizing p with
  | nil =>
    obtain ⟨here, valid, -, -, rest⟩ := chain
    refine ⟨here, valid, ?_⟩
    rw [link]
    exact rest.congr same
  | cons x as ih =>
    obtain ⟨here, valid, rest⟩ := chain
    refine ⟨here, valid, ?_⟩
    rw [same x (List.mem_cons_self ..)]
    exact ih rest fun y mem => same y (List.mem_cons_of_mem _ mem)

end Chain

end AlmeidaOS
