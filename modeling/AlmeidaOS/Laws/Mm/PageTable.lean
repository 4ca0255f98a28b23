import AlmeidaOS.Base.Radix
import AlmeidaOS.Kernel.Mm.Page
import AlmeidaOS.Laws.Lib.Math
import AlmeidaOS.Laws.Mm.Pageframe

/-!
# Page tables as a radix tree

The frames of a pool hold the tables of a radix tree of depth three with 512 entries in a table.
`entries` reads the tables off memory, by frame number; `frameNumber` follows an entry. `Tables` is
what holds between calls: the store is a tree below the root, its tables are exactly the frames on
the used list, and every free frame is zero.

Filling in a missing table is the library's `link`, writing a page's entry its `setLeaf`.
-/

namespace AlmeidaOS.Kernel

open Radix

/-! ## Entries -/

/-- The number of the frame an entry points to. -/
def frameNumber (entry : Nat) : Nat := extractBitChunk 12 51 entry

theorem frameNumber_eq (entry : Nat) : frameNumber entry = entry / 2 ^ 12 % 2 ^ 40 :=
  extractBitChunk_eq (by decide)

theorem entryFrame_eq (entry : Nat) : entryFrame entry = 4096 * frameNumber entry := by
  rw [entryFrame, Nat.shiftLeft_eq, Nat.mul_comm]
  rfl

theorem prepBaseAddr_eq (addr : Nat) : prepBaseAddr addr = addr / 4096 % 2 ^ 28 := by
  rw [prepBaseAddr, show (2 ^ 64 - 1) >>> (64 - (64 - 36)) = 2 ^ 28 - 1 by decide,
    Nat.and_two_pow_sub_one_eq_mod, Nat.shiftRight_eq_div_pow]
  rfl

theorem packEntry_eq (flags base : Nat) :
    packEntry flags base = 4096 * (base % 2 ^ 36) + flags % 4096 := by
  rw [packEntry, Nat.or_comm, ← Nat.shiftLeft_add_eq_or_of_lt (Nat.mod_lt _ (by decide)),
    Nat.shiftLeft_eq, Nat.mul_comm]

theorem packEntry_lt (flags base : Nat) : packEntry flags base < 2 ^ 64 := by
  rw [packEntry_eq]
  omega

theorem packEntry_mod (flags base : Nat) : packEntry flags base % 4096 = flags % 4096 := by
  rw [packEntry_eq]
  omega

theorem frameNumber_packEntry (flags base : Nat) : frameNumber (packEntry flags base) = base % 2 ^ 36 := by
  rw [frameNumber_eq, packEntry_eq]
  omega

/-- The entry that points to a frame. -/
theorem frameNumber_table {flags k : Nat} (below : k < 2 ^ 28) :
    frameNumber (packEntry flags (prepBaseAddr (4096 * k))) = k := by
  rw [frameNumber_packEntry, prepBaseAddr_eq]
  omega

theorem frameNumber_zero : frameNumber 0 = 0 := by decide

/-- An entry with a flag or a frame is not empty. -/
theorem packEntry_ne_zero (flags : Nat) {base : Nat} (some : flags % 4096 ≠ 0 ∨ 0 < frameNumber (packEntry flags base)) :
    packEntry flags base ≠ 0 := by
  intro zero
  have mod := packEntry_mod flags base
  rw [zero] at mod some
  rw [frameNumber_zero] at some
  omega

/-! ## Indices -/

def pml4Index (v : Nat) : Fin 512 := ⟨pml4e v, by
  rw [pml4e, extractBitChunk_eq (by decide)]; exact Nat.mod_lt _ (by decide)⟩

def pdpIndex (v : Nat) : Fin 512 := ⟨pdpte v, by
  rw [pdpte, extractBitChunk_eq (by decide)]; exact Nat.mod_lt _ (by decide)⟩

def pdIndex (v : Nat) : Fin 512 := ⟨pde v, by
  rw [pde, extractBitChunk_eq (by decide)]; exact Nat.mod_lt _ (by decide)⟩

def ptIndex (v : Nat) : Fin 512 := ⟨pte v, by
  rw [pte, extractBitChunk_eq (by decide)]; exact Nat.mod_lt _ (by decide)⟩

theorem pml4Index_val (v : Nat) : pml4e v = pml4Index v := rfl

theorem pdpIndex_val (v : Nat) : pdpte v = pdpIndex v := rfl

theorem pdIndex_val (v : Nat) : pde v = pdIndex v := rfl

theorem ptIndex_val (v : Nat) : pte v = ptIndex v := rfl

/-- The way to an address's page table. -/
def path (v : Nat) : List (Fin 512) := [pml4Index v, pdpIndex v, pdIndex v]

@[simp] theorem path_length (v : Nat) : (path v).length = 3 := rfl

/-- The two addresses agree in bits 12 to 47. -/
def samePage (v w : Nat) : Prop := v / 2 ^ 12 % 2 ^ 36 = w / 2 ^ 12 % 2 ^ 36

instance (v w : Nat) : Decidable (samePage v w) := inferInstanceAs (Decidable (_ = _))

theorem samePage_iff {v w : Nat} : samePage v w ↔ path v = path w ∧ ptIndex v = ptIndex w := by
  unfold samePage path
  simp only [List.cons.injEq, and_true, Fin.ext_iff, pml4Index, pdpIndex, pdIndex, ptIndex, pml4e, pdpte,
    pde, pte]
  rw [extractBitChunk_eq (by decide), extractBitChunk_eq (by decide), extractBitChunk_eq (by decide),
    extractBitChunk_eq (by decide), extractBitChunk_eq (by decide), extractBitChunk_eq (by decide),
    extractBitChunk_eq (by decide), extractBitChunk_eq (by decide)]
  omega

/-! ## The tables in memory -/

/-- The entries of every frame. -/
def entries (m : Mem) : Store Nat (Fin 512) Nat := fun k i => m.load64 (4096 * k + 8 * i)

theorem entries_store64 (m : Mem) (k : Nat) (i : Fin 512) {e : Nat} (word : e < 2 ^ 64) :
    entries (m.store64 (4096 * k + 8 * i) e) = (entries m).put k i e := by
  funext k' i'
  by_cases here : k' = k ∧ i' = i
  · obtain ⟨rfl, rfl⟩ := here
    rw [put_self]
    exact Mem.load64_store64 word
  · rw [put_of_ne _ _ here]
    refine Mem.load64_store64_of_disjoint ?_
    have lt := i.isLt
    have lt' := i'.isLt
    by_cases frame : k' = k
    · have : (i' : Nat) ≠ i := fun same => here ⟨frame, Fin.ext same⟩
      omega
    · omega

/-! ## The walk -/

/-- The entries a walk to a page meets. -/
theorem walks_iff {ok : Nat → Prop} {E : Store Nat (Fin 512) Nat} {r : Nat} {a b c d : Fin 512} :
    Walks frameNumber ok E r [a, b, c] d ↔
      ok (lookup frameNumber E r [] a) ∧ ok (lookup frameNumber E r [a] b) ∧
      ok (lookup frameNumber E r [a, b] c) ∧ ok (lookup frameNumber E r [a, b, c] d) := by
  constructor
  · intro walk
    exact ⟨walk [] a (by simp), walk [a] b (by simp), walk [a, b] c (by simp),
      walk [a, b, c] d (by simp)⟩
  · rintro ⟨first, second, third, last⟩ ps p pre
    have len := prefix_length pre
    match ps with
    | [] => simp_all
    | [q] => simp_all
    | [q, q'] => simp_all
    | [q, q', q''] => simp_all
    | _ :: _ :: _ :: _ :: _ =>
      simp only [List.length_cons, List.length_nil] at len
      omega

theorem present_ne_zero {e : Nat} (on : present e = true) : e ≠ 0 := by
  rintro rfl
  exact absurd on (by decide)

section Walk

variable {admits : Nat → Bool} (zero : admits 0 = false)

include zero

/-- The walk answers when it admits every entry it meets. -/
theorem walkThrough_eq (m : Mem) (r v : Nat) [Decidable
    (Walks frameNumber (admits · = true) (entries m) r (path v) (ptIndex v))] :
    walkThrough admits m (4096 * r) v =
      if Walks frameNumber (admits · = true) (entries m) r (path v) (ptIndex v) then
        some (entryFrame (lookup frameNumber (entries m) r (path v) (ptIndex v)),
          lookup frameNumber (entries m) r (path v) (ptIndex v) % 2 ^ 12)
      else none := by
  -- one level of the walk is one step of the path
  have down : ∀ {t : Nat} {is : List (Fin 512)} {i : Fin 512},
      reach frameNumber (entries m) r is = some t → admits (entries m t i) = true →
      reach frameNumber (entries m) r (is ++ [i]) = some (frameNumber (entries m t i)) := by
    intro t is i at_ on
    rw [reach_snoc, at_, Option.bind_some, child_of_ne_zero]
    intro empty
    rw [empty, zero] at on
    cases on
  have read : ∀ e (i : Fin 512), m.load64 (entryFrame e + 8 * i) = entries m (frameNumber e) i := by
    intro e i
    rw [entryFrame_eq]
    rfl
  have first : m.load64 (4096 * r + 8 * pml4Index v) = entries m r (pml4Index v) := rfl
  have top : reach frameNumber (entries m) r [] = some r := rfl
  simp only [walkThrough, path, walks_iff, pml4Index_val, pdpIndex_val, pdIndex_val, ptIndex_val, first, read]
  rw [lookup_of_reach top]
  by_cases on₄ : admits (entries m r (pml4Index v)) = true
  · have at₃ := down top on₄
    rw [List.nil_append] at at₃
    rw [if_pos on₄, lookup_of_reach at₃]
    by_cases on₃ : admits (entries m (frameNumber (entries m r (pml4Index v))) (pdpIndex v)) = true
    · have at₂ := down at₃ on₃
      rw [List.singleton_append] at at₂
      rw [if_pos on₃, lookup_of_reach at₂]
      by_cases on₂ : admits (entries m (frameNumber (entries m (frameNumber (entries m r (pml4Index v)))
          (pdpIndex v))) (pdIndex v)) = true
      · have at₁ := down at₂ on₂
        rw [List.cons_append, List.singleton_append] at at₁
        rw [if_pos on₂, lookup_of_reach at₁]
        simp only [on₄, on₃, on₂, true_and]
      · rw [if_neg on₂, if_neg fun h => on₂ h.2.2.1]
    · rw [if_neg on₃, if_neg fun h => on₃ h.2.1]
  · rw [if_neg on₄, if_neg fun h => on₄ h.1]

/-- The walk depends on the entries it meets only. -/
theorem walkThrough_congr {m m' : Mem} {r v : Nat} (same : ∀ ps p, ps ++ [p] <+: path v ++ [ptIndex v] →
    ∀ t, reach frameNumber (entries m) r ps = some t → entries m' t p = entries m t p) :
    walkThrough admits m' (4096 * r) v = walkThrough admits m (4096 * r) v := by
  classical
  have met : ∀ ps p, ps ++ [p] <+: path v ++ [ptIndex v] →
      lookup frameNumber (entries m') r ps p = lookup frameNumber (entries m) r ps p :=
    fun ps p pre => lookup_congr fun qs q pre' => same qs q (pre'.trans pre)
  have walks : Walks frameNumber (admits · = true) (entries m') r (path v) (ptIndex v) ↔
      Walks frameNumber (admits · = true) (entries m) r (path v) (ptIndex v) :=
    Walks.congr rfl fun ps p _ pre => met ps p pre
  rw [walkThrough_eq zero, walkThrough_eq zero, met _ _ (List.prefix_refl _)]
  simp only [walks]

end Walk

theorem walk_eq (m : Mem) (r v : Nat) [Decidable
    (Walks frameNumber (present · = true) (entries m) r (path v) (ptIndex v))] :
    walk m (4096 * r) v =
      if Walks frameNumber (present · = true) (entries m) r (path v) (ptIndex v) then
        some (entryFrame (lookup frameNumber (entries m) r (path v) (ptIndex v)),
          lookup frameNumber (entries m) r (path v) (ptIndex v) % 2 ^ 12)
      else none :=
  walkThrough_eq (by decide) m r v

theorem userPresent_iff {e : Nat} :
    userPresent e = true ↔ present e = true ∧ e &&& pageUserSupervisorBit ≠ 0 := by
  rw [userPresent, Bool.and_eq_true, decide_eq_true_eq]

/-- The user bit is one of the flags. -/
theorem user_of_flags {e flags : Nat} (same : e % 4096 = flags % 4096) :
    e &&& pageUserSupervisorBit = flags &&& pageUserSupervisorBit := by
  have low : ∀ n : Nat, n &&& pageUserSupervisorBit = n % 4096 &&& pageUserSupervisorBit := fun n => by
    rw [show 4096 = 2 ^ 12 from rfl, ← Nat.and_two_pow_sub_one_eq_mod, Nat.and_assoc]
    rfl
  rw [low e, low flags, same]

/-- What a program gets at, the kernel gets at too, and the last entry is there for programs. -/
theorem walk_of_userWalk {m : Mem} {r v frame flags : Nat} (found : userWalk m (4096 * r) v = some (frame, flags)) :
    walk m (4096 * r) v = some (frame, flags) ∧ flags &&& pageUserSupervisorBit ≠ 0 := by
  classical
  rw [userWalk, walkThrough_eq (by decide)] at found
  split at found
  · rename_i walks
    have user := (userPresent_iff.mp (walks _ _ (List.prefix_refl _))).2
    have there : Walks frameNumber (present · = true) (entries m) r (path v) (ptIndex v) :=
      fun ps p pre => (userPresent_iff.mp (walks ps p pre)).1
    obtain ⟨rfl, rfl⟩ := Prod.mk.inj (Option.some.inj found)
    rw [walk_eq, if_pos there]
    exact ⟨rfl, fun clear => user ((user_of_flags (Nat.mod_mod _ 4096).symm).trans clear)⟩
  · cases found

/-- The bytes of a pool's frames. -/
def Pool.FrameBytes (P : Pool) : Set Nat := {x | 4096 * P.first ≤ x ∧ x < 4096 * (P.first + P.count)}

/-- Everything a pool's page table is made of. -/
def Pool.Bytes (P : Pool) : Set Nat := P.NodeBytes ∪ P.FrameBytes

/-- The shift of an entry's number keeps the address of every frame but the root's. -/
def Pool.Reached (P : Pool) (w r : Nat) : Prop := ∀ n < P.count, P.first + n ≠ r → 4096 * (P.first + n) < 2 ^ w

theorem Pool.Reached.of_le {P : Pool} {w : Nat} (fits : 4096 * (P.first + P.count) ≤ 2 ^ w) (r : Nat) :
    P.Reached w r := fun n inside _ => by omega

theorem Pool.entries_sameOff {P : Pool} {m m' : Mem} (same : m.SameOff P.NodeBytes m') {i : Nat}
    (lt : i < P.count) : entries m' (P.first + i) = entries m (P.first + i) := by
  funext j
  have apart := P.apart
  refine same.load64 fun x lower upper inside => ?_
  obtain ⟨low, high⟩ := inside
  have := j.isLt
  omega

/-- What the entries mean: a tree whose tables are the used frames, and zero everywhere else. -/
structure Shape (P : Pool) (E : Store Nat (Fin 512) Nat) (r : Nat) (free used : List Nat) : Prop where
  tree : Tree frameNumber 3 E r
  tables : ∀ k, k ∈ tables frameNumber 3 E r ↔ ∃ i ∈ used, k = P.first + i
  clear : ∀ i ∈ free, ∀ j, E (P.first + i) j = 0

/-- What holds of a page table between calls. -/
structure Tables (P : Pool) (m : Mem) (pfdb : PageframeDatabase) (r : Nat) (free used : List Nat) :
    Prop where
  lists : P.Lists m pfdb free used
  shape : Shape P (entries m) r free used

theorem Shape.agree {P : Pool} {E E' : Store Nat (Fin 512) Nat} {r : Nat} {free used : List Nat}
    (shape : Shape P E r free used)
    (same : ∀ i, i ∈ free ∨ i ∈ used → E' (P.first + i) = E (P.first + i)) :
    Shape P E' r free used := by
  have agree : ∀ t ∈ Radix.tables frameNumber 3 E r, E' t = E t := by
    intro t mem
    obtain ⟨i, inUse, rfl⟩ := (shape.tables t).mp mem
    exact same i (.inr inUse)
  refine ⟨shape.tree.agree agree, fun k => ?_, fun i mem j => ?_⟩
  · rw [tables_agree agree]
    exact shape.tables k
  · rw [same i (.inl mem)]
    exact shape.clear i mem j

namespace Tables

variable {P : Pool} {m : Mem} {pfdb : PageframeDatabase} {r t : Nat} {free used : List Nat}
  {is : List (Fin 512)} {i : Fin 512} (T : Tables P m pfdb r free used)

include T

/-- A table on the way is a used frame of the pool. -/
theorem frame_of_reach (at_ : reach frameNumber (entries m) r is = some t) (len : is.length ≤ 3) :
    ∃ n ∈ used, n < P.count ∧ t = P.first + n := by
  obtain ⟨n, mem, here⟩ := (T.shape.tables t).mp ⟨is, len, at_⟩
  exact ⟨n, mem, T.lists.lt_of_used mem, here⟩

theorem reach_lt (at_ : reach frameNumber (entries m) r is = some t) (len : is.length ≤ 3) :
    t < 2 ^ 28 := by
  obtain ⟨n, -, lt, rfl⟩ := T.frame_of_reach at_ len
  have := P.below
  omega

theorem fresh_of_free {n : Nat} (mem : n ∈ free) :
    P.first + n ∉ Radix.tables frameNumber 3 (entries m) r := by
  intro inside
  obtain ⟨n', used, same⟩ := (T.shape.tables _).mp inside
  obtain rfl : n = n' := by omega
  exact T.lists.not_used_of_free mem used

end Tables

/-- The address of an entry. -/
theorem linear_entrySlot {t : Nat} (low : t < 2 ^ 28) (i : Fin 512) :
    linear (entrySlot (virtAddrKernelStart + 4096 * t) i) = 4096 * t + 8 * i := by
  have := i.isLt
  exact linear_add (by omega)

theorem isPageEntryEmpty_eq (m : Mem) {t : Nat} (low : t < 2 ^ 28) (i : Fin 512) :
    isPageEntryEmpty m (entrySlot (virtAddrKernelStart + 4096 * t) i) = decide (entries m t i = 0) := by
  rw [isPageEntryEmpty, linear_entrySlot low]
  rfl

theorem nextTable_eq {w t k : Nat} (m : Mem) (low : t < 2 ^ 28) (i : Fin 512)
    (point : frameNumber (entries m t i) = k) (below : k < 2 ^ 28) (fits : 4096 * k < 2 ^ w) :
    nextTable w m (entrySlot (virtAddrKernelStart + 4096 * t) i) =
      .ok (virtAddrKernelStart + 4096 * k) := by
  have base : entryBaseAddr (m.load64 (4096 * t + 8 * i)) = k := by
    rw [frameNumber_eq] at point
    rw [entryBaseAddr, Nat.shiftRight_eq_div_pow]
    change m.load64 (4096 * t + 8 * i) / 2 ^ 12 % 2 ^ 40 = k at point
    omega
  rw [nextTable, linear_entrySlot low, base, Nat.shiftLeft_eq, Nat.mul_comm,
    show 2 ^ pageShift = 4096 from rfl, Nat.mod_eq_of_lt fits]
  exact va_of_lt (by omega)

/-! ## Growing a page table -/

/-- What filling in entries does: nothing that is there changes, and what is new carries the given
flags. -/
structure Grows (r flags : Nat) (E E' : Store Nat (Fin 512) Nat) : Prop where
  reach : ∀ js t, js.length ≤ 3 → reach frameNumber E r js = some t → reach frameNumber E' r js = some t
  keep : ∀ js j, js.length ≤ 3 → lookup frameNumber E r js j ≠ 0 →
    lookup frameNumber E' r js j = lookup frameNumber E r js j
  fresh : ∀ js j, js.length ≤ 3 → lookup frameNumber E r js j = 0 →
    lookup frameNumber E' r js j = 0 ∨ lookup frameNumber E' r js j % 4096 = flags % 4096

namespace Grows

variable {r flags : Nat} {E E' E'' : Store Nat (Fin 512) Nat}

theorem refl (r flags : Nat) (E : Store Nat (Fin 512) Nat) : Grows r flags E E :=
  ⟨fun _ _ _ reached => reached, fun _ _ _ _ => rfl, fun _ _ _ empty => .inl empty⟩

theorem trans (first : Grows r flags E E') (second : Grows r flags E' E'') : Grows r flags E E'' := by
  refine ⟨fun js t len at_ => second.reach js t len (first.reach js t len at_),
    fun js j len found => ?_, fun js j len empty => ?_⟩
  · have kept := first.keep js j len found
    rw [second.keep js j len (by rw [kept]; exact found), kept]
  · by_cases now : lookup frameNumber E' r js j = 0
    · exact second.fresh js j len now
    · rw [second.keep js j len now]
      exact first.fresh js j len empty

/-- Writing one empty entry. -/
theorem of_lookup {is : List (Fin 512)} {i : Fin 512} {e : Nat}
    (reach : ∀ js t, js.length ≤ 3 → Radix.reach frameNumber E r js = some t →
      Radix.reach frameNumber E' r js = some t)
    (entry : ∀ js j, js.length ≤ 3 → lookup frameNumber E' r js j =
      if js = is ∧ j = i then e else lookup frameNumber E r js j)
    (free : lookup frameNumber E r is i = 0) (flagged : e % 4096 = flags % 4096) :
    Grows r flags E E' := by
  refine ⟨reach, fun js j len found => ?_, fun js j len empty => ?_⟩
  · rw [entry js j len, if_neg]
    rintro ⟨rfl, rfl⟩
    exact found free
  · rw [entry js j len]
    split
    · exact .inr flagged
    · exact .inl empty

end Grows

/-- Growing that fills in tables and writes no page's entry. -/
structure Links (r flags : Nat) (E E' : Store Nat (Fin 512) Nat) : Prop extends Grows r flags E E' where
  leaf : ∀ js j, js.length = 3 → lookup frameNumber E' r js j = lookup frameNumber E r js j

namespace Links

variable {r flags : Nat} {E E' E'' : Store Nat (Fin 512) Nat}

theorem refl (r flags : Nat) (E : Store Nat (Fin 512) Nat) : Links r flags E E :=
  ⟨.refl r flags E, fun _ _ _ => rfl⟩

theorem trans (first : Links r flags E E') (second : Links r flags E' E'') : Links r flags E E'' :=
  ⟨first.toGrows.trans second.toGrows,
    fun js j depth => (second.leaf js j depth).trans (first.leaf js j depth)⟩

theorem of_agree (same : ∀ t ∈ Radix.tables frameNumber 3 E r, E' t = E t) : Links r flags E E' := by
  have entry : ∀ js j, js.length ≤ 3 → lookup frameNumber E' r js j = lookup frameNumber E r js j :=
    fun js j len => lookup_agree same len j
  refine ⟨⟨fun js t len at_ => ?_, fun js j len _ => entry js j len, fun js j len empty => ?_⟩,
    fun js j depth => entry js j (Nat.le_of_eq depth)⟩
  · rw [reach_agree same len, at_]
  · rw [entry js j len]
    exact .inl empty

end Links

/-- A free frame hung into an empty entry. -/
theorem Shape.link {P : Pool} {E : Store Nat (Fin 512) Nat} {r t f e flags : Nat} {free used : List Nat}
    {is : List (Fin 512)} {i : Fin 512} (shape : Shape P E r (f :: free) used)
    (apart : ∀ n ∈ f :: free, n ∉ used) (at_ : reach frameNumber E r is = some t) (len : is.length < 3)
    (empty : E t i = 0) (nonzero : e ≠ 0) (point : frameNumber e = P.first + f)
    (flagged : e % 4096 = flags % 4096) :
    Shape P (E.put t i e) r free (f :: used) ∧ Links r flags E (E.put t i e) ∧
      reach frameNumber (E.put t i e) r (is ++ [i]) = some (P.first + f) ∧
      ∀ j, E.put t i e (P.first + f) j = 0 := by
  have fresh : ∀ n ∈ f :: free, P.first + n ∉ Radix.tables frameNumber 3 E r := by
    intro n mem inside
    obtain ⟨n', inUse, same⟩ := (shape.tables _).mp inside
    obtain rfl : n = n' := by omega
    exact apart n mem inUse
  have new := fresh f (List.mem_cons_self ..)
  have zero := shape.clear f (List.mem_cons_self ..)
  have off : ∀ n ∈ f :: free, P.first + n ≠ t := by
    rintro n mem rfl
    exact fresh n mem ⟨is, Nat.le_of_lt len, at_⟩
  have paths : ∀ js : List (Fin 512), js.length ≤ 3 → reach frameNumber (E.put t i e) r js = _ :=
    fun js bound => reach_link shape.tree at_ len empty nonzero new point zero bound
  have entry : ∀ (js : List (Fin 512)) (j : Fin 512), js.length ≤ 3 →
      lookup frameNumber (E.put t i e) r js j = _ :=
    fun js j bound => lookup_link shape.tree at_ len empty nonzero new point zero bound
  refine ⟨⟨shape.tree.link at_ len empty nonzero new point zero, fun k => ?_, fun n mem j => ?_⟩,
    ⟨.of_lookup (fun js u bound reached => ?_) entry (by rw [lookup_of_reach at_, empty]) flagged,
      fun js j depth => ?_⟩, ?_, fun j => ?_⟩
  · rw [tables_link shape.tree at_ len empty nonzero new point zero, shape.tables]
    simp only [List.mem_cons, exists_eq_or_imp]
  · rw [put_of_ne E e fun here => off n (List.mem_cons_of_mem _ mem) here.1]
    exact shape.clear n (List.mem_cons_of_mem _ mem) j
  · rw [paths js bound, if_neg, reached]
    rintro rfl
    rw [reach_snoc, at_, Option.bind_some, child_of_zero empty] at reached
    cases reached
  · rw [entry js j (Nat.le_of_eq depth), if_neg]
    rintro ⟨rfl, -⟩
    omega
  · rw [paths _ (by simp; omega), if_pos rfl]
  · rw [put_of_ne E e fun here => off f (List.mem_cons_self ..) here.1]
    exact zero j

/-- Writing an entry of a page table proper. -/
theorem Shape.setLeaf {P : Pool} {E : Store Nat (Fin 512) Nat} {r t : Nat} {free used : List Nat}
    {is : List (Fin 512)} (shape : Shape P E r free used) (apart : ∀ n ∈ free, n ∉ used)
    (at_ : reach frameNumber E r is = some t) (len : is.length = 3) (i : Fin 512) (e : Nat) :
    Shape P (E.put t i e) r free used := by
  refine ⟨shape.tree.setLeaf at_ len, fun k => ?_, fun n mem j => ?_⟩
  · rw [tables_setLeaf shape.tree at_ len]
    exact shape.tables k
  · obtain ⟨n', inUse, rfl⟩ := (shape.tables t).mp ⟨is, Nat.le_of_eq len, at_⟩
    rw [put_of_ne E e, shape.clear n mem j]
    rintro ⟨same, -⟩
    obtain rfl : n = n' := by omega
    exact apart n mem inUse

/-- An empty table taken out of the tree. -/
theorem Shape.unlink {P : Pool} {E : Store Nat (Fin 512) Nat} {r t n : Nat} {free used : List Nat}
    {is : List (Fin 512)} {i : Fin 512} (shape : Shape P E r free used) (once : used.Nodup)
    (at_ : reach frameNumber E r is = some t) (len : is.length < 3)
    (link : child frameNumber E t i = some (P.first + n)) (empty : ∀ j, E (P.first + n) j = 0) :
    Shape P (E.put t i 0) r (n :: free) (used.erase n) := by
  have zero : ∀ k j, E k j = 0 → E.put t i 0 k j = 0 := by
    intro k j old
    unfold Store.put
    split
    · rfl
    · exact old
  refine ⟨shape.tree.unlink at_ len link empty, fun k => ?_, fun f mem j => zero _ _ ?_⟩
  · rw [tables_unlink shape.tree at_ len link empty, shape.tables]
    constructor
    · rintro ⟨ne, f, mem, rfl⟩
      refine ⟨f, once.mem_erase_iff.mpr ⟨?_, mem⟩, rfl⟩
      rintro rfl
      exact ne rfl
    · rintro ⟨f, mem, rfl⟩
      obtain ⟨ne, mem⟩ := once.mem_erase_iff.mp mem
      exact ⟨by omega, f, mem, rfl⟩
  · rcases List.mem_cons.mp mem with rfl | mem
    · exact empty j
    · exact shape.clear f mem j

namespace Tables

variable {P : Pool} {m m' : Mem} {pfdb : PageframeDatabase} {r t flags : Nat} {free used : List Nat}
  {is : List (Fin 512)} {i : Fin 512}

/-- A write into a frame of the pool leaves the database alone. -/
theorem lists_store (lists : P.Lists m pfdb free used) {n : Nat} (lt : n < P.count) (i : Fin 512)
    (e : Nat) : P.Lists (m.store64 (4096 * (P.first + n) + 8 * i) e) pfdb free used ∧
      m.SameOff P.FrameBytes (m.store64 (4096 * (P.first + n) + 8 * i) e) := by
  have small := i.isLt
  have same : m.SameOff P.FrameBytes (m.store64 (4096 * (P.first + n) + 8 * i) e) :=
    .store64 fun x lower upper => ⟨by omega, by omega⟩
  refine ⟨lists.congr same ?_, same⟩
  rintro x ⟨lower, upper⟩ ⟨lower', upper'⟩
  have := P.apart
  omega

/-- Allocating a frame changes the lists and no entry. -/
theorem takeFrame {f : Nat} (T : Tables P m pfdb r (f :: free) used) (flags : Nat) :
    ∃ m' pfdb', pageframeAlloc m pfdb = .ok (4096 * (P.first + f), m', pfdb') ∧
      P.Lists m' pfdb' free (f :: used) ∧ Shape P (entries m') r (f :: free) used ∧
      Links r flags (entries m) (entries m') ∧ m.SameOff P.NodeBytes m' ∧
      (∀ n < P.count, entries m' (P.first + n) = entries m (P.first + n)) := by
  obtain ⟨m', pfdb', run, lists, same⟩ := T.lists.pageframeAlloc
  have agree : ∀ n < P.count, entries m' (P.first + n) = entries m (P.first + n) :=
    fun n lt => P.entries_sameOff same lt
  refine ⟨m', pfdb', run, lists, T.shape.agree fun n mem => agree n ?_, .of_agree fun k mem => ?_, same,
    agree⟩
  · exact mem.elim (fun mem => T.lists.lt_of_free mem) fun mem => T.lists.lt_of_used mem
  · obtain ⟨n, inUse, rfl⟩ := (T.shape.tables k).mp mem
    exact agree n (T.lists.lt_of_used inUse)

/-- One level of `page_alloc`: a table is there afterwards, and the frames still missing below it
have changed with the frames still free. -/
theorem ensureTable {w : Nat} (T : Tables P m pfdb r free used)
    (at_ : reach frameNumber (entries m) r is = some t) (len : is.length < 3)
    (flagged : flags % 4096 ≠ 0 ∨ 0 < P.first) (reached : P.Reached w r) :
    (ensureTable m pfdb (entrySlot (virtAddrKernelStart + 4096 * t) i) flags = .error .bugOn ∧
      ∀ ks, free.length < missing frameNumber (entries m) t (i :: ks)) ∨
    ∃ m' pfdb' free' used' t',
      ensureTable m pfdb (entrySlot (virtAddrKernelStart + 4096 * t) i) flags = .ok (m', pfdb') ∧
      nextTable w m' (entrySlot (virtAddrKernelStart + 4096 * t) i) =
        .ok (virtAddrKernelStart + 4096 * t') ∧
      Tables P m' pfdb' r free' used' ∧ Links r flags (entries m) (entries m') ∧
      m.SameOff P.Bytes m' ∧ reach frameNumber (entries m') r (is ++ [i]) = some t' ∧
      ∀ ks, free'.length + missing frameNumber (entries m) t (i :: ks) =
        free.length + missing frameNumber (entries m') t' ks := by
  obtain ⟨n, inUse, lt, here⟩ := T.frame_of_reach at_ (Nat.le_of_lt len)
  have low := T.reach_lt at_ (Nat.le_of_lt len)
  have below := P.below
  by_cases empty : entries m t i = 0
  · cases free with
    | nil =>
      refine .inl ⟨?_, fun ks => ?_⟩
      · simp only [Kernel.ensureTable, isPageEntryEmpty_eq m low, empty, decide_true, if_true,
          T.lists.pageframeAlloc_nil, error_bind]
      · rw [missing, if_pos empty]
        exact Nat.succ_pos _
    | cons f free =>
      have ltf := T.lists.lt_of_free (List.mem_cons_self ..)
      obtain ⟨m₁, pfdb₁, run, lists, shape, links, same, agree⟩ := T.takeFrame flags
      let e := packEntry flags (prepBaseAddr (4096 * (P.first + f)))
      have point : frameNumber e = P.first + f := frameNumber_table (by omega)
      have nonzero : e ≠ 0 := packEntry_ne_zero flags (by rw [point]; omega)
      have at₁ := links.reach is t (Nat.le_of_lt len) at_
      have empty₁ : entries m₁ t i = 0 := by rw [here, agree n lt, ← here, empty]
      obtain ⟨shape', links', hung, clear⟩ := shape.link
        (fun n mem => T.lists.not_used_of_free mem) at₁ len empty₁ nonzero point
        (packEntry_mod flags _)
      have written : entries (m₁.store64 (4096 * t + 8 * i) e) = (entries m₁).put t i e :=
        entries_store64 m₁ t i (packEntry_lt _ _)
      obtain ⟨lists', inside⟩ := lists_store lists lt i e
      rw [← here] at lists' inside
      rw [← written] at shape' links' hung clear
      refine .inr ⟨m₁.store64 (4096 * t + 8 * i) e, pfdb₁, free, f :: used, P.first + f, ?_, ?_,
        ⟨lists', shape'⟩, links.trans links', ?_, hung, fun ks => ?_⟩
      · simp only [Kernel.ensureTable, isPageEntryEmpty_eq m low, empty, decide_true, if_true, run, ok_bind,
          linear_entrySlot low, pure_eq_ok, e]
      · refine nextTable_eq _ low i ?_ (by omega) (reached f ltf fun root => ?_)
        · rw [written, put_self, point]
        · exact T.fresh_of_free (List.mem_cons_self ..) (root ▸ mem_tables_root ..)
      · exact (same.mono fun x mem => .inl mem).trans (inside.mono fun x mem => .inr mem)
      · rw [missing_empty clear, missing, if_pos empty, List.length_cons]
        omega
  · have below_ : reach frameNumber (entries m) r (is ++ [i]) = some (frameNumber (entries m t i)) := by
      rw [reach_snoc, at_, Option.bind_some, child_of_ne_zero empty]
    have short : (is ++ [i]).length ≤ 3 := by
      rw [List.length_append, List.length_singleton]
      exact len
    obtain ⟨k, -, ltk, target⟩ := T.frame_of_reach below_ short
    have other : P.first + k ≠ r := by
      intro root
      have := T.shape.tree (is ++ [i]) [] r short (Nat.zero_le _) (by rw [below_, target, root]) rfl
      simp at this
    refine .inr ⟨m, pfdb, free, used, frameNumber (entries m t i), ?_, ?_, T, .refl _ _ _, .refl _ _,
      below_, fun ks => ?_⟩
    · simp only [Kernel.ensureTable, isPageEntryEmpty_eq m low, empty, decide_false, Bool.false_eq_true,
        if_false, pure_eq_ok]
    · exact nextTable_eq m low i rfl (T.reach_lt below_ short) (by rw [target]; exact reached k ltk other)
    · rw [missing, if_neg empty]

/-- Writing an entry of a last table that was empty maps that page and no other. -/
theorem setPage (T : Tables P m pfdb r free used) (at_ : reach frameNumber (entries m) r is = some t) (depth : is.length = 3)
    (empty : entries m t i = 0) (flags base : Nat) :
    let m' := m.store64 (4096 * t + 8 * i) (packEntry flags base)
    Tables P m' pfdb r free used ∧ Grows r flags (entries m) (entries m') ∧ m.SameOff P.Bytes m' ∧
      ∀ js j, js.length ≤ 3 → lookup frameNumber (entries m') r js j =
        if js = is ∧ j = i then packEntry flags base else lookup frameNumber (entries m) r js j := by
  have here : lookup frameNumber (entries m) r is i = entries m t i := lookup_of_reach at_ _
  obtain ⟨n, inUse, lt, place⟩ := T.frame_of_reach at_ (Nat.le_of_eq depth)
  obtain ⟨lists, inside⟩ := lists_store T.lists lt i (packEntry flags base)
  have written := entries_store64 m t i (packEntry_lt flags base)
  have shape := T.shape.setLeaf (fun n mem => T.lists.not_used_of_free mem) at_ depth i (packEntry flags base)
  have entry : ∀ (js : List (Fin 512)) (j : Fin 512), js.length ≤ 3 →
      lookup frameNumber ((entries m).put t i (packEntry flags base)) r js j =
        if js = is ∧ j = i then packEntry flags base else lookup frameNumber (entries m) r js j :=
    fun js j bound => lookup_setLeaf T.shape.tree at_ depth bound
  rw [← place] at lists inside
  rw [← written] at shape entry
  refine ⟨⟨lists, shape⟩, ?_, inside.mono fun x mem => .inr mem, entry⟩
  refine .of_lookup (fun js u bound reached => ?_) entry (here.trans empty) (packEntry_mod flags _)
  rw [written, reach_setLeaf T.shape.tree at_ depth bound, reached]

/-- `page_alloc` either finds too few free frames, or maps the page unless it is mapped already. -/
theorem pageAlloc {w v p : Nat} {pgtable : PageTable} (T : Tables P m pgtable.pfdb r free used)
    (rooted : pgtable.virtRoot = virtAddrKernelStart + 4096 * r)
    (flagged : flags % 4096 ≠ 0 ∨ 0 < P.first) (reached : P.Reached w r) :
    (pageAlloc w m pgtable v p flags = .error .bugOn ∧
      free.length < missing frameNumber (entries m) r (path v)) ∨
    ∃ m' pfdb' free' used',
      pageAlloc w m pgtable v p flags = .ok (m', { pgtable with pfdb := pfdb' }) ∧
      free'.length + missing frameNumber (entries m) r (path v) = free.length ∧
      Tables P m' pfdb' r free' used' ∧ Grows r flags (entries m) (entries m') ∧
      m.SameOff P.Bytes m' ∧ ∀ js j, js.length = 3 → lookup frameNumber (entries m') r js j =
        if (js = path v ∧ j = ptIndex v) ∧ lookup frameNumber (entries m) r js j = 0
        then packEntry flags (prepBaseAddr p) else lookup frameNumber (entries m) r js j := by
  have root : reach frameNumber (entries m) r [] = some r := rfl
  rw [Kernel.pageAlloc, rooted, pml4Index_val, pdpIndex_val, pdIndex_val, ptIndex_val]
  rcases T.ensureTable (i := pml4Index v) root (by simp) flagged reached with
    ⟨fail, lack⟩ | ⟨m₁, pfdb₁, free₁, used₁, t₁, run₁, next₁, T₁, links₁, same₁, at₁, left₁⟩
  · exact .inl ⟨by simp only [fail, error_bind], lack _⟩
  have count₁ := left₁ [pdpIndex v, pdIndex v]
  rcases T₁.ensureTable (i := pdpIndex v) at₁ (by simp) flagged reached with
    ⟨fail, lack⟩ | ⟨m₂, pfdb₂, free₂, used₂, t₂, run₂, next₂, T₂, links₂, same₂, at₂, left₂⟩
  · have := lack [pdIndex v]
    exact .inl ⟨by simp only [run₁, next₁, fail, ok_bind, error_bind], by rw [path]; omega⟩
  have count₂ := left₂ [pdIndex v]
  rcases T₂.ensureTable (i := pdIndex v) at₂ (by simp) flagged reached with
    ⟨fail, lack⟩ | ⟨m₃, pfdb₃, free₃, used₃, t₃, run₃, next₃, T₃, links₃, same₃, at₃, left₃⟩
  · have := lack []
    exact .inl ⟨by simp only [run₁, next₁, run₂, next₂, fail, ok_bind, error_bind],
      by rw [path]; omega⟩
  have count₃ := left₃ []
  rw [missing] at count₃
  replace at₃ : reach frameNumber (entries m₃) r (path v) = some t₃ := at₃
  have low := T₃.reach_lt at₃ (by simp)
  have links := (links₁.trans links₂).trans links₃
  have same := (same₁.trans same₂).trans same₃
  have here : lookup frameNumber (entries m₃) r (path v) (ptIndex v) = entries m₃ t₃ (ptIndex v) :=
    lookup_of_reach at₃ _
  have enough : free₃.length + missing frameNumber (entries m) r (path v) = free.length := by
    rw [path]
    omega
  right
  simp only [run₁, next₁, run₂, next₂, run₃, next₃, ok_bind, isPageEntryEmpty_eq m₃ low,
    linear_entrySlot low, pure_eq_ok]
  by_cases empty : entries m₃ t₃ (ptIndex v) = 0
  · obtain ⟨T₄, grows, inside, entry⟩ := T₃.setPage at₃ rfl empty flags (prepBaseAddr p)
    refine ⟨_, pfdb₃, free₃, used₃, by simp only [empty, decide_true, if_true], enough, T₄, links.toGrows.trans grows,
      same.trans inside, fun js j depth => ?_⟩
    rw [entry js j (Nat.le_of_eq depth), ← links.leaf js j depth]
    by_cases target : js = path v ∧ j = ptIndex v
    · obtain ⟨rfl, rfl⟩ := target
      rw [here, if_pos ⟨rfl, rfl⟩, if_pos ⟨⟨rfl, rfl⟩, empty⟩]
    · rw [if_neg target, if_neg fun h => target h.1]
  · refine ⟨m₃, pfdb₃, free₃, used₃, by simp only [empty, decide_false, Bool.false_eq_true, if_false],
      enough, T₃, links.toGrows, same, fun js j depth => ?_⟩
    rw [← links.leaf js j depth, if_neg]
    rintro ⟨⟨rfl, rfl⟩, zero⟩
    exact empty (here ▸ zero)

end Tables

/-! ## A new page table -/

/-- The regions a page table is built from: page-aligned frames below a bound, a node for each frame
in memory the kernel maps, and the two apart. -/
structure PoolRegions (limit : Nat) (pagesRg pfdbRg : MemMapRegion) : Prop where
  aligned : 4096 ∣ pagesRg.baseAddr
  covers : 4096 * (pfdbRg.length / 16) ≤ pagesRg.length
  below : pagesRg.baseAddr + pagesRg.length ≤ limit
  mapped : pfdbRg.baseAddr + pfdbRg.length ≤ 2 ^ 47
  apart : pagesRg.baseAddr + pagesRg.length ≤ pfdbRg.baseAddr ∨
    pfdbRg.baseAddr + pfdbRg.length ≤ pagesRg.baseAddr
  nonempty : 16 ≤ pfdbRg.length

namespace PoolRegions

variable {limit : Nat} {pagesRg pfdbRg : MemMapRegion} (regions : PoolRegions limit pagesRg pfdbRg)

/-- The pool in the two regions. -/
def pool (small : limit ≤ 2 ^ 40) : Pool where
  first := pagesRg.baseAddr / 4096
  nodes := pfdbRg.baseAddr
  count := pfdbRg.length / 16
  below := by
    have := regions.below
    have := regions.covers
    omega
  mapped := by
    have := regions.mapped
    omega
  apart := by
    have := regions.apart
    have := regions.covers
    have := Nat.mul_div_cancel' regions.aligned
    omega

/-- The frames of a pool below `2 ^ 36` survive the shift of their number. -/
theorem fits {shiftBits : Nat} (wide : 36 ≤ shiftBits) {pagesRg pfdbRg : MemMapRegion}
    (regions : PoolRegions (2 ^ 36) pagesRg pfdbRg) :
    4096 * ((regions.pool (by decide)).first + (regions.pool (by decide)).count) ≤ 2 ^ shiftBits := by
  have pow : (2 : Nat) ^ 36 ≤ 2 ^ shiftBits := Nat.pow_le_pow_right (by decide) wide
  have below := regions.below
  have covers := regions.covers
  have base : 4096 * (pagesRg.baseAddr / 4096) = pagesRg.baseAddr := Nat.mul_div_cancel' regions.aligned
  change 4096 * (pagesRg.baseAddr / 4096 + pfdbRg.length / 16) ≤ _
  omega

/-- `paging_init` leaves an empty root table in the last frame and every other frame free. -/
theorem pagingInit (small : limit ≤ 2 ^ 40) (m : Mem) :
    ∃ m' pgtable r n, pagingInit m pagesRg pfdbRg = .ok (m', pgtable) ∧
      pgtable.physRoot = 4096 * r ∧ pgtable.virtRoot = virtAddrKernelStart + 4096 * r ∧
      r = (regions.pool small).first + n ∧ n + 1 = (regions.pool small).count ∧
      Tables (regions.pool small) m' pgtable.pfdb r (List.range n).reverse [n] ∧ (∀ j, entries m' r j = 0) ∧
      m.SameOff {x | pagesRg.Mem x ∨ pfdbRg.Mem x} m' := by
  let P := regions.pool small
  have base : pagesRg.baseAddr = 4096 * P.first := (Nat.mul_div_cancel' regions.aligned).symm
  have covers : 4096 * P.count ≤ pagesRg.length := regions.covers
  have below := regions.below
  have mapped := regions.mapped
  have nonempty := regions.nonempty
  have pages := va_of_lt (show pagesRg.baseAddr < 2 ^ 47 by omega)
  have nodes := va_of_lt (show pfdbRg.baseAddr < 2 ^ 47 by omega)
  let cleared := (m.fill pagesRg.baseAddr pagesRg.length 0).fill pfdbRg.baseAddr pfdbRg.length 0
  have zero : ∀ i < P.count, ∀ j, entries cleared (P.first + i) j = 0 := by
    intro i lt j
    have := j.isLt
    refine Mem.load_zero fun x lower upper => ?_
    by_cases inNodes : pfdbRg.baseAddr ≤ x ∧ x < pfdbRg.baseAddr + pfdbRg.length
    · exact Mem.fill_byte_inside inNodes.1 inNodes.2
    · rw [Mem.fill_byte (by omega), Mem.fill_byte_inside (by omega) (by omega)]
  obtain ⟨n, count⟩ : ∃ n, n + 1 = P.count := by
    have count : P.count = pfdbRg.length / 16 := rfl
    exact ⟨P.count - 1, by omega⟩
  obtain ⟨m₁, pfdb, init, lists, same⟩ := P.pageframeInit_spec cleared base rfl rfl
  rw [← count, List.range_succ, List.reverse_concat] at lists
  obtain ⟨m₂, pfdb₂, alloc, lists₂, same₂⟩ := lists.pageframeAlloc
  have lt := lists.lt_of_free (List.mem_cons_self ..)
  have zero₂ : ∀ i < P.count, ∀ j, entries m₂ (P.first + i) j = 0 := by
    intro i lt j
    rw [P.entries_sameOff (same.trans same₂) lt]
    exact zero i lt j
  have root := va_of_lt (show 4096 * (P.first + n) < 2 ^ 47 by omega)
  refine ⟨m₂, ⟨4096 * (P.first + n), virtAddrKernelStart + 4096 * (P.first + n), pfdb₂⟩, P.first + n, n, ?_,
    rfl, rfl, rfl, count, ⟨lists₂, .of_empty 3 (zero₂ n lt), fun k => ?_, fun i mem => ?_⟩, zero₂ n lt, ?_⟩
  · simp only [Kernel.pagingInit, pages, nodes, ok_bind, linear_start (show pagesRg.baseAddr < 2 ^ 47 by omega),
      linear_start (show pfdbRg.baseAddr < 2 ^ 47 by omega)]
    rw [show (m.fill pagesRg.baseAddr pagesRg.length 0).fill pfdbRg.baseAddr pfdbRg.length 0 = cleared
      from rfl]
    simp only [init, alloc, root, ok_bind, pure_eq_ok]
  · rw [mem_tables_of_empty 3 (zero₂ n lt)]
    simp [P]
  · exact zero₂ i (lists₂.lt_of_free mem)
  · have first : m.SameOff {x | pagesRg.Mem x ∨ pfdbRg.Mem x} cleared :=
      (Mem.SameOff.fill fun x lower upper => .inl ⟨lower, upper⟩).trans
        (.fill fun x lower upper => .inr ⟨lower, upper⟩)
    refine first.trans ((same.trans same₂).mono fun x inside => .inr ⟨inside.1, ?_⟩)
    have := inside.2
    have : 16 * P.count ≤ pfdbRg.length := Nat.mul_div_le pfdbRg.length 16
    exact Nat.lt_of_lt_of_le inside.2 (Nat.add_le_add_left this _)

end PoolRegions

end AlmeidaOS.Kernel
