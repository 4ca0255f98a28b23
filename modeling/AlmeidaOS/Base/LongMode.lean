import AlmeidaOS.Base.Bytes

/-!
# Address translation in long mode

The walk of the processor from a virtual to a physical address. Four tables of 512 entries of eight bytes
are indexed by nine bits of the address each. An entry of the second table may map 1 GiB and an entry of
the third 2 MiB; then the walk ends there, and the rest of the address is the offset.
-/

namespace AlmeidaOS.LongMode

/-- The index into the table of a level, 0 for the last. -/
def index (level vAddr : Nat) : Nat := vAddr / 2 ^ (12 + 9 * level) % 512

def Present (entry : Nat) : Prop := entry % 2 = 1

instance (entry : Nat) : Decidable (Present entry) := inferInstanceAs (Decidable (_ = _))

/-- The bit that makes an entry map a large page. -/
def PageSize (entry : Nat) : Prop := entry / 2 ^ 7 % 2 = 1

instance (entry : Nat) : Decidable (PageSize entry) := inferInstanceAs (Decidable (_ = _))

/-- The physical address in an entry, of a table or a page of `2 ^ bits` bytes. -/
def frame (bits entry : Nat) : Nat := entry % 2 ^ 52 / 2 ^ bits * 2 ^ bits

/-- The entry of a level that is present. -/
def entryAt (m : Mem) (table level vAddr : Nat) : Option Nat :=
  let entry := m.load64 (table + 8 * index level vAddr)
  if Present entry then some entry else none

/-- The physical address, unless an entry is not present. -/
def translate (m : Mem) (cr3 vAddr : Nat) : Option Nat := do
  let pml4e ← entryAt m cr3 3 vAddr
  let pdpte ← entryAt m (frame 12 pml4e) 2 vAddr
  if PageSize pdpte then pure (frame 30 pdpte + vAddr % 2 ^ 30)
  else
    let pde ← entryAt m (frame 12 pdpte) 1 vAddr
    if PageSize pde then pure (frame 21 pde + vAddr % 2 ^ 21)
    else
      let pte ← entryAt m (frame 12 pde) 0 vAddr
      pure (frame 12 pte + vAddr % 2 ^ 12)

variable {m : Mem} {cr3 vAddr pml4e pdpte pde : Nat}

theorem entryAt_eq {table level entry : Nat} (there : m.load64 (table + 8 * index level vAddr) = entry)
    (present : Present entry) : entryAt m table level vAddr = some entry := by
  rw [entryAt, there]
  exact if_pos present

/-- A walk that ends at an entry of the third table. -/
theorem translate_large (first : entryAt m cr3 3 vAddr = some pml4e) (second : entryAt m (frame 12 pml4e) 2 vAddr = some pdpte)
    (table : ¬ PageSize pdpte) (third : entryAt m (frame 12 pdpte) 1 vAddr = some pde) (large : PageSize pde) :
    translate m cr3 vAddr = some (frame 21 pde + vAddr % 2 ^ 21) := by
  rw [translate, first, Option.bind_eq_bind, Option.bind_some, second, Option.bind_some, if_neg table, third, Option.bind_some,
    if_pos large]
  rfl

end AlmeidaOS.LongMode
