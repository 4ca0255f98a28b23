import Mathlib.Data.List.Sort
import Mathlib.Data.List.Nodup
import Mathlib.Logic.Equiv.Basic
import Mathlib.Algebra.Group.End

/-!
# Rearranging an array in place

An array is a function of its index and an in-place algorithm composes it with a permutation of the
indices. A permutation that moves nothing outside a window leaves the rest of the array alone. On
the list of the first items such a permutation is `List.Perm`, and every `List.Perm` is one.
-/

namespace AlmeidaOS

open Equiv (Perm swap)

/-- The permutation moves indices from `lo` to `hi` only. -/
def Within (lo hi : Nat) (σ : Perm Nat) : Prop := ∀ k, k < lo ∨ hi < k → σ k = k

namespace Within

variable {lo hi lo' hi' : Nat} {σ τ : Perm Nat}

theorem one (lo hi : Nat) : Within lo hi 1 := fun _ _ => rfl

theorem mul (within : Within lo hi σ) (within' : Within lo hi τ) : Within lo hi (σ * τ) := by
  intro k outside
  rw [Equiv.Perm.mul_apply, within' k outside, within k outside]

theorem symm (within : Within lo hi σ) : Within lo hi σ.symm := by
  intro k outside
  rw [Equiv.symm_apply_eq, within k outside]

theorem swap {i j : Nat} (low : lo ≤ i) (high : i ≤ hi) (low' : lo ≤ j) (high' : j ≤ hi) :
    Within lo hi (swap i j) := fun k outside =>
  Equiv.swap_apply_of_ne_of_ne (by omega) (by omega)

theorem mono (within : Within lo hi σ) (low : lo' ≤ lo) (high : hi ≤ hi') : Within lo' hi' σ :=
  fun k outside => within k (by omega)

/-- An index inside stays inside. -/
theorem inside (within : Within lo hi σ) {k : Nat} (low : lo ≤ k) (high : k ≤ hi) :
    lo ≤ σ k ∧ σ k ≤ hi := by
  by_contra outside
  have same : σ k = k := σ.injective (within (σ k) (by omega))
  omega

end Within

variable {α : Type*}

/-- The first `n` items, rearranged. -/
theorem map_range_perm {n : Nat} {σ : Perm Nat} (within : Within 0 (n - 1) σ) (arr : Nat → α) :
    ((List.range n).map (arr ∘ σ)).Perm ((List.range n).map arr) := by
  rw [← List.map_map]
  refine List.Perm.map arr ((List.perm_ext_iff_of_nodup ?_ List.nodup_range).mpr fun k => ?_)
  · exact List.nodup_range.map σ.injective
  · rw [List.mem_map]
    constructor
    · rintro ⟨i, mem, rfl⟩
      rw [List.mem_range] at mem ⊢
      have := within.inside (Nat.zero_le i) (by omega)
      omega
    · intro mem
      rw [List.mem_range] at mem
      have := within.symm.inside (Nat.zero_le k) (by omega)
      exact ⟨σ.symm k, List.mem_range.mpr (by omega), σ.apply_symm_apply k⟩

/-- The permutation of the indices behind the first one. -/
def shifted (σ : Perm Nat) : Perm Nat where
  toFun
    | 0 => 0
    | i + 1 => σ i + 1
  invFun
    | 0 => 0
    | i + 1 => σ.symm i + 1
  left_inv := by rintro (_ | i) <;> simp
  right_inv := by rintro (_ | i) <;> simp

/-- A rearranged list is read through a permutation of the indices. -/
theorem exists_indices {l l' : List α} (perm : l.Perm l') :
    ∃ σ : Perm Nat, (∀ i, l.length ≤ i → σ i = i) ∧ ∀ i : Nat, l'[i]? = l[σ i]? := by
  induction perm with
  | nil => exact ⟨1, fun _ _ => rfl, fun _ => rfl⟩
  | cons x perm ih =>
    obtain ⟨σ, fixed, read⟩ := ih
    refine ⟨shifted σ, fun i beyond => ?_, fun i => ?_⟩
    · obtain ⟨i, rfl⟩ : ∃ k, i = k + 1 := ⟨i - 1, by simp only [List.length_cons] at beyond; omega⟩
      exact congrArg (· + 1) (fixed i (by simpa using beyond))
    · cases i with
      | zero => rfl
      | succ i => exact read i
  | swap x y l =>
    refine ⟨swap 0 1, fun i beyond => ?_, fun i => ?_⟩
    · simp only [List.length_cons] at beyond
      exact Equiv.swap_apply_of_ne_of_ne (by omega) (by omega)
    · rcases i with _ | _ | i
      · rfl
      · rfl
      · rw [Equiv.swap_apply_of_ne_of_ne (by omega) (by omega)]
        rfl
  | trans perm perm' ih ih' =>
    obtain ⟨σ, fixed, read⟩ := ih
    obtain ⟨τ, fixed', read'⟩ := ih'
    refine ⟨σ * τ, fun i beyond => ?_, fun i => ?_⟩
    · rw [Equiv.Perm.mul_apply, fixed' i (perm.length_eq ▸ beyond), fixed i beyond]
    · rw [read', read, Equiv.Perm.mul_apply]

/-- Every rearrangement of the first `n` items is one by a permutation of their indices. -/
theorem exists_within {n : Nat} {arr : Nat → α} {l : List α} (perm : l.Perm ((List.range n).map arr)) :
    ∃ σ : Perm Nat, Within 0 (n - 1) σ ∧ l = (List.range n).map (arr ∘ σ) := by
  obtain ⟨σ, fixed, read⟩ := exists_indices perm.symm
  simp only [List.length_map, List.length_range] at fixed
  have length := perm.length_eq
  simp only [List.length_map, List.length_range] at length
  have within : Within 0 (n - 1) σ := fun k outside => by
    rcases Nat.eq_zero_or_pos n with rfl | pos
    · exact fixed k (Nat.zero_le k)
    · exact fixed k (by omega)
  refine ⟨σ, within, List.ext_getElem? fun i => ?_⟩
  rw [read, List.getElem?_map, List.getElem?_map]
  rcases Nat.lt_or_ge i n with inside | beyond
  · have := within.inside (Nat.zero_le i) (by omega)
    rw [List.getElem?_range inside, List.getElem?_range (by omega)]
    rfl
  · rw [fixed i beyond, List.getElem?_eq_none (by simpa using beyond)]
    rfl

/-- The items from `lo` to `hi` are in order. -/
def Ascending {K : Type*} [LinearOrder K] (keys : Nat → K) (lo hi : Nat) : Prop :=
  ∀ k l, lo ≤ k → k ≤ l → l ≤ hi → keys k ≤ keys l

section Keys

variable {K : Type*} [LinearOrder K] {keys : Nat → K} {n : Nat}

theorem pairwise_of_ascending (ascending : Ascending keys 0 (n - 1)) :
    ((List.range n).map keys).Pairwise (· ≤ ·) := by
  rw [List.pairwise_map]
  refine List.pairwise_lt_range.imp_of_mem fun {k l} _ mem order => ?_
  rw [List.mem_range] at mem
  exact ascending k l (Nat.zero_le k) (Nat.le_of_lt order) (by omega)

theorem ascending_of_pairwise (sorted : ((List.range n).map keys).Pairwise (· ≤ ·)) (pos : 0 < n) :
    Ascending keys 0 (n - 1) := by
  intro k l _ order high
  rcases Nat.eq_or_lt_of_le order with rfl | less
  · exact le_rfl
  · have pair := List.pairwise_iff_getElem.mp sorted k l (by simp; omega) (by simp; omega) less
    simpa using pair

/-- There is one way for the keys to be in order. -/
theorem ascending_unique {σ τ : Perm Nat} (within : Within 0 (n - 1) σ) (within' : Within 0 (n - 1) τ)
    (ascending : Ascending (keys ∘ σ) 0 (n - 1)) (ascending' : Ascending (keys ∘ τ) 0 (n - 1)) :
    keys ∘ σ = keys ∘ τ := by
  have perm := (map_range_perm within keys).trans (map_range_perm within' keys).symm
  have same := perm.eq_of_pairwise' (pairwise_of_ascending ascending) (pairwise_of_ascending ascending')
  funext k
  rcases Nat.lt_or_ge k n with inside | beyond
  · exact (List.map_inj_left.mp same) k (List.mem_range.mpr inside)
  · rcases Nat.eq_zero_or_pos n with rfl | pos
    · -- a window without items is the index 0, which the two permutations cannot move
      rcases Nat.eq_zero_or_pos k with rfl | above
      · have zero := within.inside (Nat.le_refl 0) (Nat.zero_le _)
        have zero' := within'.inside (Nat.le_refl 0) (Nat.zero_le _)
        simp only [Function.comp_apply, Nat.le_zero.mp zero.2, Nat.le_zero.mp zero'.2]
      · simp only [Function.comp_apply, within k (.inr above), within' k (.inr above)]
    · simp only [Function.comp_apply, within k (by omega), within' k (by omega)]

end Keys

end AlmeidaOS
