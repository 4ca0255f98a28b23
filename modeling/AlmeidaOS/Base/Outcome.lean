import Mathlib.Logic.Relation

/-!
# Outcomes of a modelled call

A call of a kernel function either returns a value, stops the machine, or is still running when
the iterations it was allowed are spent. The last two are faults: `bugOn` is an assertion that
held, `outOfFuel` is a loop or a recursion cut off by its fuel. A function that never returns on
an input answers `outOfFuel` for every fuel, so a law that promises a result says `Except.ok`. Two
more faults end what the language gives no meaning to: `outOfBounds` is a read past the end of an
object, `overflow` a value that its type does not hold.
-/

namespace AlmeidaOS

/-- Why a call does not return. -/
inductive Fault where
  | bugOn
  | outOfFuel
  | outOfBounds
  | overflow
deriving DecidableEq, Repr

/-- The outcome of a call. -/
abbrev Outcome := Except Fault

/-- `BUG_ON(cond)`: halts the machine when the condition holds. -/
def bugOn (cond : Prop) [Decidable cond] : Outcome Unit :=
  if cond then .error .bugOn else .ok ()

section Peel

variable {α β : Type} {x : Outcome α} {f : α → Outcome β} {b : β}

/-- A sequence that returns is a first call that returns and a rest that returns. -/
theorem bind_eq_ok : (x >>= f) = .ok b ↔ ∃ a, x = .ok a ∧ f a = .ok b := by
  cases x with
  | error e => simp [bind, Except.bind]
  | ok a => simp [bind, Except.bind]

@[simp] theorem ok_bind (a : α) (f : α → Outcome β) : ((.ok a : Outcome α) >>= f) = f a := rfl

@[simp] theorem error_bind (e : Fault) (f : α → Outcome β) :
    ((.error e : Outcome α) >>= f) = .error e := rfl

@[simp] theorem pure_eq_ok (a : α) : (pure a : Outcome α) = .ok a := rfl

end Peel

/-- Passing an assertion is refuting its condition. -/
@[simp] theorem bugOn_eq_ok {cond : Prop} [Decidable cond] {u : Unit} :
    bugOn cond = .ok u ↔ ¬ cond := by
  unfold bugOn
  split <;> simp [*]

theorem bugOn_of_not {cond : Prop} [Decidable cond] (h : ¬ cond) : bugOn cond = .ok () :=
  if_neg h

/-- Peeling an assertion off the front of a call that returned. -/
theorem bugOn_bind_eq_ok {cond : Prop} [Decidable cond] {β : Type} {f : Unit → Outcome β} {b : β} :
    (bugOn cond >>= f) = .ok b ↔ ¬ cond ∧ f () = .ok b := by
  rw [bind_eq_ok]
  constructor
  · rintro ⟨_, hc, hf⟩
    exact ⟨bugOn_eq_ok.mp hc, hf⟩
  · rintro ⟨hc, hf⟩
    exact ⟨(), bugOn_of_not hc, hf⟩

/-- The value of a call that returned, or a default. -/
def Outcome.getD {α : Type} (x : Outcome α) (a : α) : α :=
  match x with
  | .ok b => b
  | .error _ => a

/-- Whether a call returned. -/
def Outcome.isOk {α : Type} (x : Outcome α) : Bool :=
  match x with
  | .ok _ => true
  | .error _ => false

theorem Outcome.eq_ok_of_isOk {α : Type} {x : Outcome α} (a : α) (h : x.isOk = true) :
    x = .ok (x.getD a) := by
  cases x with
  | error e => cases h
  | ok b => rfl

/-- How a call failed, if it did. -/
def Outcome.faultOf {α : Type} (x : Outcome α) : Option Fault :=
  match x with
  | .ok _ => none
  | .error e => some e

theorem Outcome.eq_error_of_faultOf {α : Type} {x : Outcome α} {e : Fault} (h : x.faultOf = some e) :
    x = .error e := by
  cases x with
  | error e' => rw [Option.some.inj h]
  | ok b => cases h

/-! ## Calls that run on fuel -/

/-- The call answers `a` whenever it answers, and does so from `n` on. -/
structure Returns {α : Type} (call : Nat → Outcome α) (n : Nat) (a : α) : Prop where
  enough : ∀ fuel, n ≤ fuel → call fuel = .ok a
  only : ∀ fuel b, call fuel = .ok b → b = a

namespace Returns

variable {α β : Type} {n : Nat} {a : α} {b : β}

theorem ok (n : Nat) (a : α) : Returns (fun _ => .ok a) n a :=
  ⟨fun _ _ => rfl, fun _ _ answer => (Except.ok.inj answer).symm⟩

theorem bind {f : Nat → Outcome α} {g : Nat → α → Outcome β} (first : Returns f n a)
    (second : Returns (fun fuel => g fuel a) n b) : Returns (fun fuel => f fuel >>= g fuel) n b := by
  constructor
  · intro fuel le
    simp only [first.enough fuel le, ok_bind]
    exact second.enough fuel le
  · intro fuel c answer
    obtain ⟨x, called, rested⟩ := bind_eq_ok.mp answer
    obtain rfl := first.only fuel x called
    exact second.only fuel c rested

/-- A loop answers what its body answers with one unit of fuel less. -/
theorem succ {call : Nat → Outcome α} (body : Nat → Outcome α) (zero : call 0 = .error .outOfFuel)
    (step : ∀ fuel, call (fuel + 1) = body fuel) (later : Returns body n a) : Returns call (n + 1) a := by
  constructor
  · intro fuel le
    obtain ⟨k, rfl⟩ : ∃ k, fuel = k + 1 := ⟨fuel - 1, by omega⟩
    rw [step]
    exact later.enough k (by omega)
  · intro fuel b answer
    cases fuel with
    | zero =>
      rw [zero] at answer
      cases answer
    | succ k =>
      rw [step] at answer
      exact later.only k b answer

theorem mono {call : Nat → Outcome α} {m : Nat} (returns : Returns call n a) (le : n ≤ m) : Returns call m a :=
  ⟨fun fuel enough => returns.enough fuel (Nat.le_trans le enough), returns.only⟩

end Returns

/-! ## Calls that return when something is given -/

/-- What the call answers, if it answers, satisfies `post`; and it does answer when `given` holds. -/
structure Delivers {α : Type} (given : Prop) (x : Outcome α) (post : α → Prop) : Prop where
  post : ∀ a, x = .ok a → post a
  returns : given → ∃ a, x = .ok a

namespace Delivers

variable {α β : Type} {given given' : Prop} {x : Outcome α} {post : α → Prop}

theorem ok {a : α} (holds : post a) : Delivers given (.ok a) post :=
  ⟨fun _ answer => Except.ok.inj answer ▸ holds, fun _ => ⟨a, rfl⟩⟩

theorem bind {f : α → Outcome β} {post' : β → Prop} (first : Delivers given x post)
    (sure : given' → given) (rest : ∀ a, post a → Delivers given' (f a) post') : Delivers given' (x >>= f) post' := by
  constructor
  · intro b answer
    obtain ⟨a, called, rested⟩ := bind_eq_ok.mp answer
    exact (rest a (first.post a called)).post b rested
  · intro holds
    obtain ⟨a, called⟩ := first.returns (sure holds)
    obtain ⟨b, rested⟩ := (rest a (first.post a called)).returns holds
    exact ⟨b, bind_eq_ok.mpr ⟨a, called, rested⟩⟩

/-- What is known of a call that returns, when nothing else is: that it has returned. -/
theorem self : Delivers (∃ a, x = .ok a) x fun a => x = .ok a := ⟨fun _ run => run, id⟩

theorem imp {post' : α → Prop} (delivers : Delivers given x post) (sure : given' → given)
    (weaker : ∀ a, post a → post' a) : Delivers given' x post' :=
  ⟨fun a answer => weaker a (delivers.post a answer), fun holds => delivers.returns (sure holds)⟩

end Delivers

/-! ## Calls that keep their state

A call that halts gives no state above. Here it gives the one it halts in, so that what was written
before an assertion can be told.
-/

/-- A call on a state. -/
abbrev Halting (σ : Type) := EStateM Fault σ

namespace Halting

variable {σ α β : Type}

/-- A check or a search: it writes nothing. -/
def reads (look : σ → Outcome α) : Halting σ α := fun s =>
  match look s with
  | .ok a => .ok a s
  | .error fault => .error fault s

variable {look : σ → Outcome α} {x : Halting σ α} {f : α → Halting σ β} {s t : σ}

theorem reads_bind_ok (look : σ → Outcome α) {a : α} (found : look s = .ok a) : (reads look >>= f) s = f a s := by
  show EStateM.bind (reads look) f s = _
  rw [EStateM.bind, reads, found]

theorem reads_bind_error (look : σ → Outcome α) {fault : Fault} (halts : look s = .error fault) :
    (reads look >>= f) s = .error fault s := by
  show EStateM.bind (reads look) f s = _
  rw [EStateM.bind, reads, halts]

theorem bind_error {fault : Fault} (halts : x s = .error fault t) : (x >>= f) s = .error fault t := by
  show EStateM.bind x f s = _
  rw [EStateM.bind, halts]

theorem reads_eq_ok {a : α} : reads look s = .ok a t ↔ look s = .ok a ∧ t = s := by
  unfold reads
  cases found : look s with
  | error fault => simp
  | ok b => simp [eq_comm]

theorem bind_eq_ok {b : β} : (x >>= f) s = .ok b t ↔ ∃ a s', x s = .ok a s' ∧ f a s' = .ok b t := by
  show EStateM.bind x f s = _ ↔ _
  unfold EStateM.bind
  cases x s with
  | error fault s' => simp
  | ok a s' =>
    constructor
    · intro rest
      exact ⟨a, s', rfl, rest⟩
    · rintro ⟨_, _, same, rest⟩
      cases same
      exact rest

end Halting

/-! ## Whole runs -/

/-- What the start satisfies and every step keeps, every state of a run satisfies. -/
theorem run_invariant {σ : Type} {step : σ → σ → Prop} {P : σ → Prop} {s t : σ}
    (run : Relation.ReflTransGen step s t) (start : P s)
    (keep : ∀ a b, P a → step a b → P b) : P t := by
  induction run with
  | refl => exact start
  | tail _ last ih => exact keep _ _ ih last

end AlmeidaOS
