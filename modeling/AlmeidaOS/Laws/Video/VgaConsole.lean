import AlmeidaOS.Kernel.Video.VgaConsole
import AlmeidaOS.Laws.Lib.Ringbuffer

/-!
# The screen shows the last lines

`write_console` cuts a text into lines of at most 79 characters that make up the text again without
its newlines, and the screen shows the last twenty-four lines of all texts, with one exception.
`write_line_to_dma` draws a byte before it looks whether the line has ended, so for an empty line it
draws the NUL and goes on with what an older line has left in the row. The screen shows the last lines
exactly when none of them is empty (`screen_shows_iff`).
-/

namespace AlmeidaOS.Kernel

/-! ## Drawing one row -/

/-- The row of bytes ends somewhere behind its first byte, within the screen. -/
def Terminated (buf : Nat → UInt8) : Prop := ∃ i, 0 < i ∧ i ≤ 79 ∧ buf i = 0

/-- The row of the screen shows the bytes up to the first NUL behind the first byte, and blanks. -/
structure Drawn (video : Nat → Cell) (row : Nat) (buf : Nat → UInt8) (length : Nat) : Prop where
  pos : 0 < length
  short : length ≤ 79
  ended : buf length = 0
  before : ∀ k, 0 < k → k < length → buf k ≠ 0
  cells : ∀ col, col < 79 → video (row * 80 + col) = .ofChar (if col < length then buf col else ascii ' ')

theorem Terminated.exists_length {buf : Nat → UInt8} (terminated : Terminated buf) :
    ∃ length, 0 < length ∧ length ≤ 79 ∧ buf length = 0 ∧ ∀ k, 0 < k → k < length → buf k ≠ 0 := by
  classical
  have some : ∃ i, 0 < i ∧ buf i = 0 := terminated.imp fun i h => ⟨h.1, h.2.2⟩
  obtain ⟨i, pos, short, zero⟩ := terminated
  refine ⟨Nat.find some, (Nat.find_spec some).1, (Nat.find_min' some ⟨pos, zero⟩).trans short, (Nat.find_spec some).2, ?_⟩
  intro k above below zero
  exact Nat.find_min some below ⟨above, zero⟩

/-- The loop draws the bytes up to the NUL. -/
theorem drawLoop_returns {buf : Nat → UInt8} {length : Nat} (ended : buf length = 0)
    (before : ∀ k, 0 < k → k < length → buf k ≠ 0) (start left : Nat) {i : Nat} (video : Nat → Cell) (inside : i < length)
    (enough : length - i ≤ left) :
    drawLoop buf start left i video = .ok (length, fun p =>
      if start + i ≤ p ∧ p < start + length then .ofChar (buf (p - start)) else video p) := by
  induction left generalizing i video with
  | zero => omega
  | succ left ih =>
    rw [drawLoop]
    by_cases last : buf (i + 1) = 0
    · have here : i + 1 = length := by
        by_contra ne
        exact before (i + 1) (Nat.succ_pos i) (by omega) last
      rw [if_pos last, here]
      refine congrArg (fun video => Except.ok (length, video)) (funext fun p => ?_)
      by_cases at_ : p = start + i
      · rw [if_pos at_, if_pos ⟨by omega, by omega⟩, at_, Nat.add_sub_cancel_left]
      · rw [if_neg at_, if_neg (by omega)]
    · have more : i + 1 < length := by
        by_contra ends
        exact last (by rw [show i + 1 = length by omega, ended])
      rw [if_neg last, ih _ more (by omega)]
      refine congrArg (fun video => Except.ok (length, video)) (funext fun p => ?_)
      by_cases at_ : p = start + i
      · rw [if_neg (by omega), if_pos at_, if_pos ⟨by omega, by omega⟩, at_, Nat.add_sub_cancel_left]
      · rw [if_neg at_]
        by_cases behind : start + (i + 1) ≤ p ∧ p < start + length
        · rw [if_pos behind, if_pos ⟨by omega, by omega⟩]
        · rw [if_neg behind, if_neg (by omega)]

/-- `write_line_to_dma` draws one row and nothing else. -/
theorem writeLineToDma_returns {buf : Nat → UInt8} (terminated : Terminated buf) (console : Console) :
    ∃ console' length, writeLineToDma console buf = .ok console' ∧ console'.msgBuffer = console.msgBuffer ∧
      console'.row = console.row + 1 ∧ Drawn console'.video console.row buf length ∧
      ∀ p, p < console.row * 80 → console'.video p = console.video p := by
  obtain ⟨length, pos, short, ended, before⟩ := terminated.exists_length
  have run := drawLoop_returns ended before (console.row * 80) 80 console.video pos (by omega)
  have line : writeLineToDma console buf = .ok { console with
      row := console.row + 1
      video := fun p =>
        if console.row * 80 + length ≤ p ∧ p < console.row * 80 + 79 then .ofChar (ascii ' ')
        else if console.row * 80 + 0 ≤ p ∧ p < console.row * 80 + length then .ofChar (buf (p - console.row * 80))
        else console.video p } := by
    rw [writeLineToDma, show vgaMaxCols = 80 from rfl, run, ok_bind]
    rfl
  refine ⟨_, length, line, rfl, rfl, ⟨pos, short, ended, before, fun col inside => ?_⟩, fun p below => ?_⟩
  · simp only [Nat.add_zero, Nat.add_sub_cancel_left]
    by_cases drawn : col < length
    · rw [if_neg (by omega), if_pos ⟨by omega, by omega⟩, if_pos drawn]
    · rw [if_pos ⟨by omega, by omega⟩, if_neg drawn]
  · simp only [Nat.add_zero]
    rw [if_neg (by omega), if_neg (by omega)]

/-- Drawing row after row. -/
theorem drawRows_returns (bufs : List (Nat → UInt8)) (terminated : ∀ buf ∈ bufs, Terminated buf) (console : Console) :
    ∃ console', bufs.foldlM writeLineToDma console = .ok console' ∧ console'.msgBuffer = console.msgBuffer ∧
      (∀ p, p < console.row * 80 → console'.video p = console.video p) ∧
      ∀ j buf, bufs[j]? = some buf → ∃ length, Drawn console'.video (console.row + j) buf length := by
  induction bufs generalizing console with
  | nil => exact ⟨console, rfl, rfl, fun _ _ => rfl, by simp⟩
  | cons buf bufs ih =>
    rw [List.forall_mem_cons] at terminated
    obtain ⟨first, length, run, same, next, drawn, above⟩ := writeLineToDma_returns terminated.1 console
    obtain ⟨console', runs, same', above', rows⟩ := ih terminated.2 first
    rw [next] at above' rows
    refine ⟨console', ?_, same'.trans same, fun p below => ?_, fun j buf' at_ => ?_⟩
    · rw [List.foldlM_cons, run, ok_bind, runs]
    · rw [above' p (by omega), above p below]
    · cases j with
      | zero =>
        obtain rfl : buf = buf' := by simpa using at_
        -- the rows below leave this one alone
        refine ⟨length, drawn.pos, drawn.short, drawn.ended, drawn.before, fun col inside => ?_⟩
        rw [Nat.add_zero, above' _ (by omega), drawn.cells col inside]
      | succ j =>
        rw [List.getElem?_cons_succ] at at_
        obtain ⟨length', drawn'⟩ := rows j buf' at_
        rw [Nat.add_assoc, Nat.add_comm 1 j] at drawn'
        exact ⟨length', drawn'⟩

/-! ## Cutting a text into lines -/

/-- The items that the loop of `write_console` puts, each with its NUL. -/
def putItems (text line : List UInt8) : List (List UInt8) := putLines (fun items item => items ++ [item]) text line []

/-- The lines of one call of `write_console`. -/
def callLines (text : List UInt8) : List (List UInt8) := (putItems text []).map List.dropLast

/-- Whatever is done with the items, it is done with each of them in order. -/
theorem putLines_eq_foldl {σ : Type} (put : σ → List UInt8 → σ) (text line : List UInt8) (items : List (List UInt8)) (s : σ) :
    putLines put text line (items.foldl put s) =
      (putLines (fun items item => items ++ [item]) text line items).foldl put s := by
  induction text generalizing line items with
  | nil =>
    rw [putLines, putLines]
    split
    · rw [List.foldl_append, List.foldl_cons, List.foldl_nil]
    · rfl
  | cons c text ih =>
    simp only [putLines]
    generalize (if c ≠ ascii '\n' then line ++ [c] else line) = line
    split
    · rw [← ih, List.foldl_append, List.foldl_cons, List.foldl_nil]
    · exact ih _ _

theorem putItems_append (text line : List UInt8) (items : List (List UInt8)) :
    putLines (fun items item => items ++ [item]) text line items = items ++ putItems text line := by
  have folded := putLines_eq_foldl (fun (items : List (List UInt8)) item => items ++ [item]) text line [] items
  rw [List.foldl_nil, ← putItems] at folded
  rw [folded]
  clear folded
  generalize putItems text line = more
  induction more generalizing items with
  | nil => rw [List.foldl_nil, List.append_nil]
  | cons item more ih => rw [List.foldl_cons, ih, List.append_assoc, List.singleton_append]

theorem putItems_nil (line : List UInt8) : putItems [] line = if line.length > 0 then [line ++ [0]] else [] := rfl

theorem putItems_newline (text line : List UInt8) :
    putItems (ascii '\n' :: text) line = (line ++ [0]) :: putItems text [] := by
  rw [putItems, putLines, if_neg (not_not.mpr rfl), if_pos (.inl rfl), putItems_append, List.nil_append,
    List.singleton_append]

theorem putItems_char {c : UInt8} (char : c ≠ ascii '\n') (text line : List UInt8) :
    putItems (c :: text) line =
      if line.length + 1 = 79 then (line ++ [c] ++ [0]) :: putItems text [] else putItems text (line ++ [c]) := by
  have length : (line ++ [c]).length = line.length + 1 := by rw [List.length_append, List.length_singleton]
  rw [putItems, putLines, if_pos char, length]
  by_cases full : line.length + 1 = 79
  · rw [if_pos (.inr full), if_pos full, putItems_append, List.nil_append, List.singleton_append]
  · rw [if_neg (fun either => either.elim char full), if_neg full, putItems]

/-- An item of the ring buffer: a line that fits a row, without a NUL, and its NUL. -/
def LineItem (item : List UInt8) : Prop := ∃ line : List UInt8, item = line ++ [0] ∧ line.length ≤ 79 ∧ ∀ c ∈ line, c ≠ 0

/-- What is put is lines of at most 79 characters. -/
theorem putItems_lines (text line : List UInt8) (short : line.length < 79) (clean : ∀ c ∈ line, c ≠ 0)
    (nonzero : ∀ c ∈ text, c ≠ 0) : ∀ item ∈ putItems text line, LineItem item := by
  induction text generalizing line with
  | nil =>
    intro item mem
    rw [putItems_nil] at mem
    split at mem
    · exact ⟨line, List.mem_singleton.mp mem, Nat.le_of_lt short, clean⟩
    · cases mem
  | cons c text ih =>
    rw [List.forall_mem_cons] at nonzero
    by_cases newline : c = ascii '\n'
    · rw [newline, putItems_newline, List.forall_mem_cons]
      exact ⟨⟨line, rfl, Nat.le_of_lt short, clean⟩, ih [] (by decide) (by simp) nonzero.2⟩
    · have clean' : ∀ d ∈ line ++ [c], d ≠ 0 := by
        intro d mem
        rcases List.mem_append.mp mem with mem | mem
        · exact clean d mem
        · rw [List.mem_singleton.mp mem]
          exact nonzero.1
      have length : (line ++ [c]).length = line.length + 1 := by rw [List.length_append, List.length_singleton]
      rw [putItems_char newline]
      split
      · rename_i full
        rw [List.forall_mem_cons]
        exact ⟨⟨line ++ [c], rfl, by omega, clean'⟩, ih [] (by decide) (by simp) nonzero.2⟩
      · exact ih _ (by omega) clean' nonzero.2

/-- The lines make up the text without its newlines. -/
theorem putItems_flatten (text line : List UInt8) :
    ((putItems text line).map List.dropLast).flatten = line ++ text.filter (· ≠ ascii '\n') := by
  induction text generalizing line with
  | nil =>
    rw [putItems_nil]
    split
    · simp
    · rename_i none
      have empty : line = [] := List.length_eq_zero_iff.mp (by omega)
      rw [empty]
      rfl
  | cons c text ih =>
    by_cases newline : c = ascii '\n'
    · rw [newline, putItems_newline, List.map_cons, List.flatten_cons, ih, List.dropLast_concat, List.nil_append,
        List.filter_cons, if_neg (by simp)]
    · have keep : (c :: text).filter (· ≠ ascii '\n') = c :: text.filter (· ≠ ascii '\n') :=
        List.filter_cons_of_pos (by simpa using newline)
      rw [putItems_char newline, keep]
      split
      · rw [List.map_cons, List.flatten_cons, ih, List.dropLast_concat, List.nil_append, List.append_assoc,
          List.singleton_append]
      · rw [ih, List.append_assoc, List.singleton_append]

/-! ## Calls of `write_console` -/

/-- A text that can be passed to `write_console`: free of NUL, and its size with the NUL is a `size_t`. -/
structure ConsoleText where
  chars : List UInt8
  nonzero : ∀ c ∈ chars, c ≠ 0
  small : chars.length + 1 < 2 ^ 64

/-- The calls of `write_console`, one after the other. -/
def writeTexts (console : Console) (texts : List ConsoleText) : Outcome Console :=
  texts.foldlM (fun console text => writeConsole console (text.chars ++ [0]) (text.chars.length + 1)) console

/-- All lines that `write_console` has passed to `ringbuffer_put`. -/
def printedLines (texts : List ConsoleText) : List (List UInt8) := texts.flatMap fun text => callLines text.chars

/-- The last lines, as many as the ring buffer has rows. -/
def lastLines (lines : List (List UInt8)) : List (List UInt8) := lines.drop (lines.length - 24)

/-- The first rows of the screen, up to column 78, hold the lines, padded with blanks. -/
def Shows (video : Nat → Cell) (lines : List (List UInt8)) : Prop :=
  ∀ r line, lines[r]? = some line → ∀ col, col < 79 → (video (r * 80 + col)).char = line.getD col (ascii ' ')

/-- A console as it is before `vga_console_init`: whatever the rows of the ring buffer hold, they end. -/
structure Ready (console : Console) : Prop where
  size : console.msgBuffer.size = 24
  rows : ∀ r, r < 24 → Terminated (console.msgBuffer.data r)

/-- The ring buffer holds the items, all of them lines, and its rows end. -/
structure Recorded (buf : Ringbuffer) (items : List (List UInt8)) : Prop where
  keeps : KeepsLast 24 buf items
  lines : ∀ item ∈ items, LineItem item
  rows : ∀ r, r < 24 → Terminated (buf.data r)

section Calls

variable {buf : Ringbuffer} {items : List (List UInt8)} {console : Console}

/-- A line leaves the rows ended, also an empty one. -/
theorem Recorded.put (recorded : Recorded buf items) {item : List UInt8} (line : LineItem item) :
    Recorded (ringbufferPut buf item) (items ++ [item]) := by
  refine ⟨recorded.keeps.put (by decide) item, fun other mem => ?_, fun r inside => ?_⟩
  · rcases List.mem_append.mp mem with mem | mem
    · exact recorded.lines other mem
    · rw [List.mem_singleton.mp mem]
      exact line
  · obtain ⟨-, -, -, data⟩ := recorded.keeps.put_indices (by decide) item
    rw [data]
    obtain ⟨i, pos, short, zero⟩ := recorded.rows r inside
    obtain ⟨line, rfl, length, -⟩ := line
    by_cases here : r = items.length % 24
    · by_cases empty : line = []
      · refine ⟨i, pos, short, ?_⟩
        show (if _ then _ else _) = _
        rw [if_neg, zero]
        rintro ⟨-, behind⟩
        rw [empty] at behind
        simp only [List.nil_append, List.length_singleton] at behind
        omega
      · refine ⟨line.length, List.length_pos_iff.mpr empty, length, ?_⟩
        show (if _ then _ else _) = _
        rw [if_pos ⟨here, by rw [List.length_append, List.length_singleton]; omega⟩,
          List.getD_append_right _ _ _ _ (Nat.le_refl _), Nat.sub_self]
        rfl
    · refine ⟨i, pos, short, ?_⟩
      show (if _ then _ else _) = _
      rw [if_neg (fun both => here both.1), zero]

theorem Recorded.putAll (recorded : Recorded buf items) {more : List (List UInt8)} (lines : ∀ item ∈ more, LineItem item) :
    Recorded (more.foldl ringbufferPut buf) (items ++ more) := by
  induction more generalizing buf items with
  | nil => rwa [List.append_nil]
  | cons item more ih =>
    rw [List.forall_mem_cons] at lines
    have := ih (recorded.put lines.1) lines.2
    rwa [List.append_assoc] at this

/-- The rows that are drawn, the oldest item first. -/
def RowsDrawn (buf : Ringbuffer) (items : List (List UInt8)) (video : Nat → Cell) : Prop :=
  ∀ j, j < min items.length 24 → ∃ length, Drawn video j (buf.data (rowOf 24 items.length j)) length

/-- One call: the lines of the text are put, and the rows are drawn. -/
theorem Recorded.writeConsole (recorded : Recorded console.msgBuffer items) (text : ConsoleText) :
    ∃ console', Kernel.writeConsole console (text.chars ++ [0]) (text.chars.length + 1) = .ok console' ∧
      Recorded console'.msgBuffer (items ++ putItems text.chars []) ∧
      RowsDrawn console'.msgBuffer (items ++ putItems text.chars []) console'.video := by
  have size : Word.sub (text.chars.length + 1) 1 = text.chars.length :=
    Word.sub_of_le text.small (Nat.le_add_left 1 _)
  have lines := putItems_lines text.chars [] (by decide) (by simp) text.nonzero
  have recorded' := recorded.putAll lines
  have put : putLines ringbufferPut text.chars [] console.msgBuffer =
      (putItems text.chars []).foldl ringbufferPut console.msgBuffer :=
    putLines_eq_foldl ringbufferPut text.chars [] [] console.msgBuffer
  rw [Kernel.writeConsole, size, if_neg (by rw [List.length_append]; omega), List.take_left, put]
  generalize (putItems text.chars []).foldl ringbufferPut console.msgBuffer = buf at recorded'
  generalize items ++ putItems text.chars [] = items' at recorded'
  have rows : ∀ row ∈ (List.range (min items'.length 24)).map fun j => buf.data (rowOf 24 items'.length j),
      Terminated row := by
    intro row mem
    obtain ⟨j, -, rfl⟩ := List.mem_map.mp mem
    exact recorded'.rows _ (Nat.mod_lt _ (by decide))
  obtain ⟨console', run, same, -, drawn⟩ := drawRows_returns _ rows { console with msgBuffer := buf, row := 0 }
  refine ⟨updateCursor console' console'.row 0, ?_, ?_, fun j inside => ?_⟩
  · show (ringbufferForEach buf writeLineToDma { console with msgBuffer := buf, row := 0 } >>= fun console =>
      pure (updateCursor console console.row 0)) = _
    rw [recorded'.keeps.ringbufferForEach_eq (by decide), run]
    rfl
  · show Recorded console'.msgBuffer items'
    rwa [same]
  · show ∃ length, Drawn console'.video j (console'.msgBuffer.data _) length
    rw [same]
    obtain ⟨length, here⟩ := drawn j (buf.data (rowOf 24 items'.length j))
      (by rw [List.getElem?_map, List.getElem?_range inside]; rfl)
    rw [Nat.zero_add] at here
    exact ⟨length, here⟩

/-- The console right after `vga_console_init`. -/
theorem Ready.recorded (ready : Ready console) : Recorded (vgaConsoleInit console).msgBuffer [] :=
  ⟨ringbufferInit_keepsLast ready.size, by simp, ready.rows⟩

/-- All calls. -/
theorem Recorded.writeTexts (recorded : Recorded console.msgBuffer items) (drawn : RowsDrawn console.msgBuffer items console.video)
    (texts : List ConsoleText) :
    ∃ console', Kernel.writeTexts console texts = .ok console' ∧
      Recorded console'.msgBuffer (items ++ texts.flatMap fun text => putItems text.chars []) ∧
      RowsDrawn console'.msgBuffer (items ++ texts.flatMap fun text => putItems text.chars []) console'.video := by
  induction texts generalizing console items with
  | nil =>
    rw [List.flatMap_nil, List.append_nil]
    exact ⟨console, rfl, recorded, drawn⟩
  | cons text texts ih =>
    obtain ⟨first, run, recorded', drawn'⟩ := recorded.writeConsole text
    obtain ⟨console', runs, rest⟩ := ih recorded' drawn'
    rw [List.append_assoc] at rest
    rw [List.flatMap_cons]
    refine ⟨console', ?_, rest⟩
    rw [Kernel.writeTexts, List.foldlM_cons, run, ok_bind]
    exact runs

end Calls

/-! ## What the screen shows -/

section Screen

variable {buf : Ringbuffer} {items : List (List UInt8)} {video : Nat → Cell}

/-- A row of the screen shows its line exactly when the line is not empty. -/
theorem Drawn.shows_iff {row length : Nat} {bytes : Nat → UInt8} {line : List UInt8} (drawn : Drawn video row bytes length)
    (holds : ∀ i, i < (line ++ [0]).length → bytes i = (line ++ [0]).getD i 0) (nonzero : ∀ c ∈ line, c ≠ 0) :
    (∀ col, col < 79 → (video (row * 80 + col)).char = line.getD col (ascii ' ')) ↔ line ≠ [] := by
  rw [List.length_append, List.length_singleton] at holds
  have ended : bytes line.length = 0 := by
    rw [holds _ (Nat.lt_succ_self _), List.getD_append_right _ _ _ _ (Nat.le_refl _), Nat.sub_self]
    rfl
  have inside : ∀ i, i < line.length → bytes i = line.getD i 0 := by
    intro i below
    rw [holds i (by omega), List.getD_append _ _ _ _ below]
  constructor
  · rintro shown rfl
    -- the NUL of an empty line is drawn
    have first := shown 0 (by decide)
    rw [drawn.cells 0 (by decide), if_pos drawn.pos] at first
    rw [show bytes 0 = 0 from ended] at first
    exact absurd first (by decide)
  · intro some col onScreen
    have same : length = line.length := by
      rcases Nat.lt_trichotomy length line.length with early | same | late
      · have zero := drawn.ended
        rw [inside length early, List.getD_eq_getElem _ _ early] at zero
        exact absurd zero (nonzero _ (List.getElem_mem early))
      · exact same
      · exact absurd ended (drawn.before _ (List.length_pos_iff.mpr some) late)
    rw [drawn.cells col onScreen]
    by_cases within : col < length
    · rw [if_pos within]
      show bytes col = _
      rw [inside col (by omega), List.getD_eq_getElem _ _ (by omega), List.getD_eq_getElem _ _ (by omega)]
    · rw [if_neg within, List.getD_eq_default _ _ (by omega)]
      rfl

theorem Recorded.shows_iff (recorded : Recorded buf items) (drawn : RowsDrawn buf items video) :
    Shows video (lastLines (items.map List.dropLast)) ↔ ∀ line ∈ lastLines (items.map List.dropLast), line ≠ [] := by
  have row : ∀ r line, (lastLines (items.map List.dropLast))[r]? = some line →
      ((∀ col, col < 79 → (video (r * 80 + col)).char = line.getD col (ascii ' ')) ↔ line ≠ []) := by
    intro r line at_
    rw [lastLines, List.getElem?_drop, List.length_map, List.getElem?_map] at at_
    obtain ⟨item, there, rfl⟩ := Option.map_eq_some_iff.mp at_
    obtain ⟨below, get⟩ := List.getElem?_eq_some_iff.mp there
    obtain ⟨line, eq, -, nonzero⟩ := recorded.lines item (get ▸ List.getElem_mem below)
    obtain ⟨length, shown⟩ := drawn r (by omega)
    have kept : ∀ i, i < item.length → buf.data (rowOf 24 items.length r) i = item.getD i 0 := by
      have rows := recorded.keeps.rows (items.length - 24 + r) below (by omega)
      rw [List.getD_eq_getElem _ _ below, get] at rows
      rwa [rowOf, show items.length - min items.length 24 + r = items.length - 24 + r by omega]
    rw [eq, List.dropLast_concat]
    rw [eq] at kept
    exact shown.shows_iff kept nonzero
  constructor
  · intro shows line mem
    obtain ⟨r, at_⟩ := List.getElem?_of_mem mem
    exact (row r line at_).mp (shows r line at_)
  · intro full r line at_
    exact (row r line at_).mpr (full line (List.mem_of_getElem? at_))

end Screen

/-- **After any calls of `write_console` the lines have at most 79 characters and make up the texts, and
the screen shows the last of them exactly when none of those is empty.** -/
theorem screen_shows_iff {console : Console} (ready : Ready console) (texts : List ConsoleText) :
    ∃ console', writeTexts (vgaConsoleInit console) texts = .ok console' ∧
      (∀ line ∈ printedLines texts, line.length ≤ 79) ∧
      (∀ text ∈ texts, (callLines text.chars).flatten = text.chars.filter (· ≠ ascii '\n')) ∧
      (Shows console'.video (lastLines (printedLines texts)) ↔ ∀ line ∈ lastLines (printedLines texts), line ≠ []) := by
  have nothing : RowsDrawn (vgaConsoleInit console).msgBuffer [] (vgaConsoleInit console).video :=
    fun j inside => absurd inside (Nat.not_lt_zero j)
  obtain ⟨console', run, recorded, drawn⟩ := ready.recorded.writeTexts nothing texts
  rw [List.nil_append] at recorded drawn
  have printed : printedLines texts = (texts.flatMap fun text => putItems text.chars []).map List.dropLast := by
    rw [List.map_flatMap]
    rfl
  refine ⟨console', run, fun line mem => ?_, fun text _ => ?_, ?_⟩
  · rw [printed] at mem
    obtain ⟨item, memItem, rfl⟩ := List.mem_map.mp mem
    obtain ⟨line, rfl, short, -⟩ := recorded.lines item memItem
    rwa [List.dropLast_concat]
  · exact putItems_flatten text.chars []
  · rw [printed]
    exact recorded.shows_iff drawn

/-- The console at boot, all of it zero but the number of rows. -/
def bootConsole : Console where
  msgBuffer := { head := 0, tail := 0, size := 24, data := fun _ _ => 0 }
  row := 0
  video := fun _ => ⟨0, 0⟩
  cursor := 0

theorem bootConsole_ready : Ready bootConsole := ⟨rfl, fun _ _ => ⟨1, by decide, by decide, rfl⟩⟩

/-- A text of two lines. -/
def twoLines : ConsoleText where
  chars := "AlmeidaOS\n64-bit".toList.map ascii
  nonzero := by decide +kernel
  small := by decide

theorem screen_shows_two_lines :
    ∃ console, writeTexts (vgaConsoleInit bootConsole) [twoLines, twoLines] = .ok console ∧
      Shows console.video (lastLines (printedLines [twoLines, twoLines])) := by
  obtain ⟨console, run, -, -, shows⟩ := screen_shows_iff bootConsole_ready [twoLines, twoLines]
  exact ⟨console, run, shows.mpr (by decide)⟩

/-- The line `ab`, as often as the ring buffer has rows. -/
def fullScreen : ConsoleText where
  chars := (List.replicate 24 ("ab\n".toList.map ascii)).flatten
  nonzero := by decide +kernel
  small := by decide

/-- An empty line. -/
def emptyLine : ConsoleText where
  chars := [ascii '\n']
  nonzero := by decide +kernel
  small := by decide

/-- The row of the empty line shows what is left of the line that had its place in the ring buffer. -/
theorem emptyLine_shows_stale_byte :
    (writeTexts (vgaConsoleInit bootConsole) [fullScreen, emptyLine]).map (fun console => (console.video (23 * 80 + 1)).char) =
      .ok (ascii 'b') := by
  decide +kernel

theorem screen_shows_stale_line :
    ∃ console, writeTexts (vgaConsoleInit bootConsole) [fullScreen, emptyLine] = .ok console ∧
      ¬Shows console.video (lastLines (printedLines [fullScreen, emptyLine])) := by
  have stale := emptyLine_shows_stale_byte
  cases run : writeTexts (vgaConsoleInit bootConsole) [fullScreen, emptyLine] with
  | error e =>
    rw [run] at stale
    cases stale
  | ok console =>
    rw [run] at stale
    refine ⟨console, rfl, fun shows => ?_⟩
    have blank : (console.video (23 * 80 + 1)).char = ascii ' ' := shows 23 [] (by decide) 1 (by decide)
    injection stale with stale
    exact absurd (stale.symm.trans blank) (by decide)

end AlmeidaOS.Kernel
