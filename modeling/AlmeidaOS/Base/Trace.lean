import Mathlib.Data.List.Nodup

/-!
# Runs with events, and the round-robin queue

A step of a system may give off events; `Trace step s es t` is a run from `s` to `t` that gives off
`es`, the first event first. A system whose steps are matched by those of another one has the runs of
the other one, events included (`Trace.simulation`).

The round-robin queue is the list of those waiting: a newcomer goes to the end, and the one picked is
the first, which goes to the end. Between two picks of `q` those picked are the ones that waited behind
`q` at the first pick, in their order (`Rotation.between`).
-/

namespace AlmeidaOS

/-- A run and the events it gives off. -/
inductive Trace {σ ε : Type} (step : σ → List ε → σ → Prop) : σ → List ε → σ → Prop
  | nil (s : σ) : Trace step s [] s
  | snoc {s t u : σ} {es fs : List ε} (run : Trace step s es t) (last : step t fs u) :
      Trace step s (es ++ fs) u

namespace Trace

variable {σ τ ε : Type} {step : σ → List ε → σ → Prop} {s t : σ} {es : List ε}

/-- What the start satisfies and every step keeps, the end of a run satisfies. -/
theorem invariant {P : σ → Prop} (run : Trace step s es t) (start : P s)
    (keep : ∀ a fs b, P a → step a fs b → P b) : P t := by
  induction run with
  | nil => exact start
  | snoc _ last ih => exact keep _ _ _ ih last

/-- A relation that every step keeps, matched by a step with the same events, carries runs over. -/
theorem simulation {step' : τ → List ε → τ → Prop} {R : σ → τ → Prop} (run : Trace step s es t) {s' : τ}
    (start : R s s')
    (keep : ∀ a fs b a', R a a' → step a fs b → ∃ b', step' a' fs b' ∧ R b b') :
    ∃ t', Trace step' s' es t' ∧ R t t' := by
  induction run with
  | nil => exact ⟨s', .nil s', start⟩
  | snoc _ last ih =>
    obtain ⟨a', run', related⟩ := ih
    obtain ⟨b', last', related'⟩ := keep _ _ _ a' related last
    exact ⟨b', run'.snoc last', related'⟩

end Trace

/-! ## The round-robin queue -/

/-- One step of the queue, with the one picked. -/
inductive Rotation {α : Type} : List α → List α → List α → Prop
  | rest (qs : List α) : Rotation qs [] qs
  | join (qs : List α) (a : α) : Rotation qs [] (qs ++ [a])
  | pick (q : α) (qs : List α) : Rotation (q :: qs) [q] (qs ++ [q])

namespace Rotation

variable {α : Type} {q : α} {qs rs picked : List α}

theorem of_pick (step : Rotation qs [q] rs) : ∃ waiting, qs = q :: waiting ∧ rs = waiting ++ [q] := by
  cases step with
  | pick _ waiting => exact ⟨waiting, rfl, rfl⟩

/-- As long as `q`, which was last, is not picked, those picked are the first of those before it. -/
theorem ahead (run : Trace Rotation (qs ++ [q]) picked rs) (passed : q ∉ picked) :
    ∃ waiting behind, qs = picked ++ waiting ∧ rs = waiting ++ q :: behind := by
  generalize start : qs ++ [q] = ps at run
  induction run with
  | nil =>
    subst start
    exact ⟨qs, [], rfl, rfl⟩
  | snoc _ last ih =>
    obtain ⟨waiting, behind, here, there⟩ := ih fun mem => passed (List.mem_append_left _ mem)
    cases last with
    | rest => exact ⟨waiting, behind, by rw [here, List.append_nil], there⟩
    | join _ a => exact ⟨waiting, behind ++ [a], by rw [here, List.append_nil], by rw [there]; simp⟩
    | pick p ps =>
      cases waiting with
      | nil =>
        -- `q` itself was first, and would have been picked
        obtain ⟨rfl, -⟩ := List.cons.inj there
        exact absurd (List.mem_append_right _ (List.mem_singleton_self p)) passed
      | cons w waiting =>
        obtain ⟨rfl, rfl⟩ := List.cons.inj there
        exact ⟨waiting, behind ++ [p], by rw [here, List.append_assoc]; rfl, by simp⟩

/-- **Round robin.** Between two picks of `q` with none in between, those that waited behind it are
picked, each in turn, and nobody else. -/
theorem between {qs' : List α} (first : Rotation (q :: qs) [q] rs) (new : q ∉ qs)
    {rs' : List α} (run : Trace Rotation rs picked rs') (passed : q ∉ picked) (second : Rotation rs' [q] qs') :
    picked = qs := by
  obtain ⟨waiting, same, rfl⟩ := first.of_pick
  obtain ⟨-, rfl⟩ := List.cons.inj same
  obtain ⟨left, behind, rfl, rfl⟩ := ahead run passed
  obtain ⟨_, split, -⟩ := second.of_pick
  cases left with
  | nil => exact (List.append_nil _).symm
  | cons p left =>
    obtain ⟨rfl, -⟩ := List.cons.inj split
    exact absurd (List.mem_append_right _ (List.mem_cons_self ..)) new

end Rotation

end AlmeidaOS
