import AlmeidaOS.Base.Word
import AlmeidaOS.Kernel.Lib.Ringbuffer
import AlmeidaOS.Kernel.Lib.String

/-!
# `kernel/video/vga_console.c`: the screen

Video memory is an array of cells, 80 for each row of the screen. `write_console` cuts a text into
lines, puts them into the ring buffer of recent messages and then draws all messages from the top of
the screen.
-/

namespace AlmeidaOS.Kernel

/-- `VGA_MAX_COLS`. -/
def vgaMaxCols : Nat := 80

/-- `VGA_MAX_ROWS`. -/
def vgaMaxRows : Nat := 25

/-- A character and its colours. -/
structure Cell where
  char : UInt8
  attr : UInt8
deriving DecidableEq, Repr

/-- White on black. -/
def Cell.ofChar (c : UInt8) : Cell := ⟨c, 0xf⟩

/-- The variables of the file, video memory and the position of the cursor. -/
structure Console where
  msgBuffer : Ringbuffer
  row : Nat
  video : Nat → Cell
  cursor : Nat

/-- `update_cursor`. -/
def updateCursor (console : Console) (row col : Nat) : Console :=
  let row := if row = vgaMaxRows then row - 1 else if row = 0 then row + 1 else row
  { console with cursor := (row * vgaMaxCols + col) % 2 ^ 16 }

/-- `clear_console`. -/
def clearConsole (console : Console) : Console :=
  let video := fun i => if i < vgaMaxCols * vgaMaxRows then .ofChar (ascii ' ') else console.video i
  updateCursor { console with video := video, row := 0 } 0 0

/-- `vga_console_init`. -/
def vgaConsoleInit (console : Console) : Console :=
  clearConsole { console with msgBuffer := ringbufferInit console.msgBuffer }

/-- The `do … while` loop of `write_line_to_dma` from byte `i` on, with the bytes of the row left:
the byte is drawn before the next one is looked at. -/
def drawLoop (buf : Nat → UInt8) (start : Nat) : Nat → Nat → (Nat → Cell) → Outcome (Nat × (Nat → Cell))
  | 0, _, _ => .error .outOfBounds
  | left + 1, i, video =>
    let video := fun p => if p = start + i then .ofChar (buf i) else video p
    if buf (i + 1) = 0 then .ok (i + 1, video) else drawLoop buf start left (i + 1) video

/-- `write_line_to_dma`. A row of the ring buffer has 81 bytes. -/
def writeLineToDma (console : Console) (buf : Nat → UInt8) : Outcome Console := do
  let start := console.row * vgaMaxCols
  let (idx, video) ← drawLoop buf start 80 0 console.video
  let video := fun p =>
    if start + idx ≤ p ∧ p < start + (vgaMaxCols - 1) then .ofChar (ascii ' ') else video p
  pure { console with video := video, row := console.row + 1 }

/-- The loop of `write_console` and the `if` behind it: what is done with each line it completes. -/
def putLines {σ : Type} (put : σ → List UInt8 → σ) : List UInt8 → List UInt8 → σ → σ
  | [], line, s => if line.length > 0 then put s (line ++ [0]) else s
  | c :: text, line, s =>
    let line := if c ≠ ascii '\n' then line ++ [c] else line
    if c = ascii '\n' ∨ line.length = vgaMaxCols - 1 then putLines put text [] (put s (line ++ [0]))
    else putLines put text line s

/-- `write_console`. -/
def writeConsole (console : Console) (buf : List UInt8) (bufSize : Nat) : Outcome Console := do
  if Word.sub bufSize 1 > buf.length then throw .outOfBounds
  let msgBuffer := putLines ringbufferPut (buf.take (Word.sub bufSize 1)) [] console.msgBuffer
  let console ← ringbufferForEach msgBuffer writeLineToDma { console with msgBuffer := msgBuffer, row := 0 }
  pure (updateCursor console console.row 0)

end AlmeidaOS.Kernel
