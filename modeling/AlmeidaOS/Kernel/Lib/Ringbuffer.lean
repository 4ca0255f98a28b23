import AlmeidaOS.Base.Outcome

/-!
# `kernel/lib/ringbuffer.c`: the last messages

Rows of bytes with the indices of the oldest and the newest one, -1 while there is none. A row keeps
what `ringbuffer_put` does not overwrite. The loop of `ringbuffer_for_each` runs on as much fuel as
there are rows.
-/

namespace AlmeidaOS.Kernel

/-- `ringbuffer_tp`. The rows have 81 bytes. -/
structure Ringbuffer where
  head : Int
  tail : Int
  size : Int
  data : Nat → Nat → UInt8

/-- `ringbuffer_init`. -/
def ringbufferInit (buf : Ringbuffer) : Ringbuffer := { buf with head := -1, tail := -1 }

/-- `memcpy(buf->data[row], item, size)`. -/
def Ringbuffer.copyRow (buf : Ringbuffer) (row : Nat) (item : List UInt8) : Ringbuffer :=
  { buf with data := fun r i => if r = row ∧ i < item.length then item.getD i 0 else buf.data r i }

/-- `ringbuffer_put`, of the bytes of the item with its NUL. -/
def ringbufferPut (buf : Ringbuffer) (item : List UInt8) : Ringbuffer :=
  let buf :=
    if buf.head = buf.tail ∧ buf.head = -1 then
      { buf with head := buf.head + 1, tail := buf.tail + 1 }
    else if buf.head = 0 ∧ buf.tail < buf.size - 1 then
      { buf with tail := buf.tail + 1 }
    else
      { buf with head := (buf.head + 1).tmod buf.size, tail := (buf.tail + 1).tmod buf.size }
  buf.copyRow buf.tail.toNat item

section ForEach

variable {σ : Type} (buf : Ringbuffer) (fn : σ → (Nat → UInt8) → Outcome σ)

/-- The `do … while` loop of `ringbuffer_for_each`. -/
def forEachLoop : Nat → Int → σ → Outcome σ
  | 0, _, _ => .error .outOfFuel
  | fuel + 1, idx, s => do
    let idx := idx.tmod buf.size
    let s ← fn s (buf.data idx.toNat)
    let idx := idx + 1
    if (buf.tail > buf.head ∧ idx ≤ buf.tail) ∨ (buf.tail < buf.head ∧ idx ≠ buf.head) then
      forEachLoop fuel idx s
    else pure s

/-- `ringbuffer_for_each`. -/
def ringbufferForEach (s : σ) : Outcome σ :=
  if (buf.head = -1 ∨ buf.tail = -1) ∨ buf.size = 0 then .ok s
  else forEachLoop buf fn buf.size.toNat buf.head s

end ForEach

end AlmeidaOS.Kernel
