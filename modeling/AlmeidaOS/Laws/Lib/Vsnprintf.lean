import Mathlib.Data.List.GetD
import Mathlib.Tactic.SplitIfs
import AlmeidaOS.Kernel.Lib.Vsnprintf

/-!
# `vsnprintf` and its buffer

The scanner answers on every format string and reads nothing behind its NUL
(`formatDecode_reads`), so a format string has an expansion: the list of the pieces it prints, with
their lengths (`pieces`).

`vsnprintf` checks the size of its buffer when it copies a conversion, and nowhere else: ordinary
characters and the padding of `%.N%` are stored whatever room is left, and the value returned counts
what a conversion would have printed. It keeps to its buffer exactly when the pieces fit one after
the other, up to the first conversion that ends at the end of the buffer.
-/

namespace AlmeidaOS.Kernel

/-! ## Reading the format string -/

namespace CString

variable (str : CString)

theorem charAt_of_le {i : Nat} (inside : i ≤ str.chars.length) : str.charAt i = .ok (str.chars.getD i 0) :=
  if_pos inside

/-- The character is the NUL only at the end. -/
theorem lt_of_charAt {i : Nat} {c : UInt8} (read : str.charAt i = .ok c) (nonzero : c ≠ 0) :
    i < str.chars.length := by
  rw [charAt] at read
  split at read
  · have value := Except.ok.inj read
    by_contra beyond
    rw [List.getD_eq_default _ _ (by omega)] at value
    exact nonzero value.symm
  · cases read

end CString

section Scanner

variable {fmt : CString}

/-- The inner loops stop at the NUL: they read at least one character and stay in the string. -/
theorem readWhile_reads {more : UInt8 → Bool} (stops : more 0 = false)
    (enter : UInt8 → PrintFmtSpec → PrintFmtSpec) {start fuel readChars : Nat} (c : UInt8) (spec : PrintFmtSpec)
    (inside : start + readChars < fmt.chars.length) (enough : fmt.chars.length - (start + readChars) ≤ fuel) :
    ∃ n spec', readWhile fmt more enter start fuel readChars c spec = .ok (n, spec') ∧ readChars < n ∧
      start + n ≤ fmt.chars.length := by
  induction fuel generalizing readChars c spec with
  | zero => omega
  | succ fuel ih =>
    have read := fmt.charAt_of_le (show start + (readChars + 1) ≤ fmt.chars.length by omega)
    rw [readWhile, read, ok_bind]
    split
    · rename_i again
      have next := fmt.lt_of_charAt read fun null => by
        rw [null, stops] at again
        cases again
      obtain ⟨n, spec', run, longer, within⟩ := ih _ (enter c spec) (show start + (readChars + 1) < _ from next)
        (by omega)
      exact ⟨n, spec', run, by omega, within⟩
    · exact ⟨readChars + 1, _, rfl, Nat.lt_succ_self _, by omega⟩

theorem isdigit_zero : isdigit 0 = false := by decide +kernel

/-- `read_precision`, `read_length` and `read_type` are this loop. -/
theorem readField_reads (more : UInt8 → Bool) (stops : more 0 = false)
    (enter : UInt8 → PrintFmtSpec → PrintFmtSpec) {start : Nat} (spec : PrintFmtSpec)
    (inside : start < fmt.chars.length) :
    ∃ n spec', (fmt.charAt start >>= fun c =>
        readWhile fmt more enter start (fmt.chars.length + 1) 0 c spec) = .ok (n, spec') ∧
      0 < n ∧ start + n ≤ fmt.chars.length := by
  rw [fmt.charAt_of_le (Nat.le_of_lt inside), ok_bind]
  exact readWhile_reads stops enter _ spec inside (by omega)

/-- The specification is one `vsnprintf` does not go on with. -/
def PrintFmtSpec.Bad (spec : PrintFmtSpec) : Prop := spec.type = .error ∨ spec.length = .error

/-- The outer loop answers too: it reads at least one character and stays in the string, or reports an
error. -/
theorem formatDecodeLoop_reads {start fuel i : Nat} (foundDot firstPerc : Bool) (spec : PrintFmtSpec)
    (inside : start + i ≤ fmt.chars.length) (enough : fmt.chars.length - (start + i) < fuel) :
    ∃ n spec', formatDecodeLoop fmt start fuel i foundDot firstPerc spec = .ok (n, spec') ∧
      (spec'.Bad ∨ (i < n ∧ start + n ≤ fmt.chars.length)) := by
  induction fuel generalizing i foundDot firstPerc spec with
  | zero => omega
  | succ fuel ih =>
    have read := fmt.charAt_of_le inside
    have next : ∀ c, fmt.chars.getD (start + i) 0 = c → c ≠ 0 → start + i < fmt.chars.length :=
      fun c value nonzero => fmt.lt_of_charAt (by rw [read, value]) nonzero
    -- what is read after `n` more characters is read after one more
    have later : ∀ n foundDot firstPerc spec, 0 < n → start + (i + n) ≤ fmt.chars.length →
        ∃ n' spec', formatDecodeLoop fmt start fuel (i + n) foundDot firstPerc spec = .ok (n', spec') ∧
          (spec'.Bad ∨ (i < n' ∧ start + n' ≤ fmt.chars.length)) := by
      intro n foundDot firstPerc spec pos within
      obtain ⟨n', spec', run, outcome⟩ := ih foundDot firstPerc spec within (by omega)
      exact ⟨n', spec', run, outcome.imp_right fun longer => ⟨by omega, longer.2⟩⟩
    have bad : ∃ n spec', (pure (decodeError spec) : Outcome _) = .ok (n, spec') ∧
        (spec'.Bad ∨ (i < n ∧ start + n ≤ fmt.chars.length)) := ⟨_, _, rfl, .inl (.inl rfl)⟩
    rw [formatDecodeLoop, read, ok_bind]
    generalize fmt.chars.getD (start + i) 0 = c at next
    have nonzero : ∀ {p : UInt8 → Bool}, p 0 = false → p c = true → start + i < fmt.chars.length := by
      intro p stops holds
      refine next c rfl fun null => ?_
      rw [null, stops] at holds
      cases holds
    split
    · rename_i percent
      have here := next c rfl (by rw [percent]; decide)
      split
      · exact later 1 foundDot true spec Nat.one_pos here
      · exact ⟨i + 1, _, rfl, .inr ⟨Nat.lt_succ_self i, here⟩⟩
    · split
      · rename_i dot
        rw [Bool.and_eq_true, decide_eq_true_eq] at dot
        exact later 1 true firstPerc spec Nat.one_pos (next c rfl (by rw [dot.2]; decide))
      · split
        · rename_i digit
          rw [Bool.and_eq_true] at digit
          obtain ⟨n, spec', run, pos, within⟩ := readField_reads isdigit isdigit_zero enterDigit spec
            (nonzero isdigit_zero digit.2)
          rw [readPrecision, run, ok_bind]
          exact later n false firstPerc spec' pos (by omega)
        · split
          · exact bad
          · split
            · rename_i letter
              rw [Bool.and_eq_true] at letter
              obtain ⟨n, spec', run, pos, within⟩ := readField_reads isLength rfl enterLength spec
                (nonzero (p := isLength) rfl letter.2)
              rw [readLength, run, ok_bind]
              exact later n foundDot firstPerc spec' pos (by omega)
            · split
              · rename_i letter
                rw [Bool.and_eq_true] at letter
                obtain ⟨n, spec', run, pos, within⟩ := readField_reads isType rfl enterType spec
                  (nonzero (p := isType) rfl letter.2)
                rw [readType, run, ok_bind]
                exact ⟨i + n, spec', rfl, .inr ⟨by omega, by omega⟩⟩
              · exact bad

/-- `format_decode` answers wherever it is called in the string. -/
theorem formatDecode_reads {start : Nat} (inside : start ≤ fmt.chars.length) :
    ∃ read spec, formatDecode fmt start = .ok (read, spec) ∧
      (spec.Bad ∨ (0 < read ∧ start + read ≤ fmt.chars.length)) :=
  formatDecodeLoop_reads false false .zero inside (by omega)

end Scanner

/-! ## The expansion of a format string -/

/-- What a part of the format string prints: a character or a tab, a conversion with the bytes it
stores when there is room and the length it reports, the message about a specification that cannot be
decoded, or nothing because the specification is too long to count its characters. -/
inductive Piece where
  | plain (length : Nat)
  | converted (stored length : Nat)
  | message
  | uncounted
deriving DecidableEq, Repr

/-- The pieces a format string expands to from character `i` on. -/
def pieces (fmt : CString) (strings : Nat → CString) : Nat → Nat → VaList → List Piece
  | 0, _, _ => []
  | fuel + 1, i, args =>
    let c := fmt.chars.getD i 0
    if c = 0 then []
    else if c = ascii '%' then
      let (read, spec) := (formatDecode fmt i).getD (decodeError .zero)
      if spec.type ≠ .error ∧ spec.length ≠ .error then
        if read - 1 < 2 ^ 31 then
          let (padding, conv) := applyPrecision spec (convert 0 spec strings args)
          .converted (padding.length + conv.tmpBufIdx) conv.tmpBufIdx ::
            pieces fmt strings fuel (i + (read - 1) + 1) conv.args
        else [.uncounted]
      else [.message]
    else .plain (if c = ascii '\t' then 4 else 1) :: pieces fmt strings fuel (i + 1) args

/-- The pieces fit one after the other, from byte `readChars` of the buffer on, up to the first
conversion that ends at the end of the buffer. -/
def Fits (bufSize : Nat) : Nat → List Piece → Prop
  | _, [] => True
  | readChars, .plain length :: rest => readChars + length ≤ bufSize ∧ Fits bufSize (readChars + length) rest
  | readChars, .converted stored length :: rest =>
    readChars + stored ≤ bufSize ∧ (readChars + length = bufSize ∨ Fits bufSize (readChars + length) rest)
  | readChars, .message :: _ => readChars + printkDecdErrorMsg.length ≤ bufSize
  | _, .uncounted :: _ => False

instance : (bufSize readChars : Nat) → (ps : List Piece) → Decidable (Fits bufSize readChars ps)
  | _, _, [] => inferInstanceAs (Decidable True)
  | bufSize, readChars, .plain length :: rest =>
    have := instDecidableFits bufSize (readChars + length) rest
    inferInstanceAs (Decidable (_ ∧ _))
  | bufSize, readChars, .converted _ length :: rest =>
    have := instDecidableFits bufSize (readChars + length) rest
    inferInstanceAs (Decidable (_ ∧ (_ ∨ _)))
  | _, _, .message :: _ => inferInstanceAs (Decidable (_ ≤ _))
  | _, _, .uncounted :: _ => inferInstanceAs (Decidable False)

/-! ## What a conversion stores -/

theorem overwrite_length {buf : List UInt8} {start : Nat} (inside : start ≤ buf.length) (bytes : List UInt8) :
    buf.length ≤ (overwrite buf start bytes).length := by
  simp only [overwrite, List.length_append, List.length_take, List.length_drop]
  omega

section Convert

variable (bufSize : Nat) (spec : PrintFmtSpec) (strings : Nat → CString) (args : VaList)

/-- The conversion does not depend on the room in the buffer, but for the text of an error. -/
theorem convert_bufSize : ∃ tmpBuf, convert bufSize spec strings args =
    { convert 0 spec strings args with tmpBuf := tmpBuf } := by
  unfold convert
  split
  · split
    · exact ⟨_, rfl⟩
    · split <;> exact ⟨_, rfl⟩
  · split
    · exact ⟨_, rfl⟩
    · split
      · exact ⟨_, rfl⟩
      · split <;> exact ⟨_, rfl⟩

/-- The converted text lies in `tmp_buf`. -/
theorem convert_tmpBuf : tmpBufSize ≤ (convert bufSize spec strings args).tmpBuf.length ∧
    (convert bufSize spec strings args).tmpBufIdx ≤ (convert bufSize spec strings args).tmpBuf.length := by
  have room : ∀ bytes, tmpBufSize ≤ (overwrite (List.replicate tmpBufSize 0) 0 bytes).length := fun bytes => by
    have := overwrite_length (Nat.zero_le (List.replicate tmpBufSize (0 : UInt8)).length) bytes
    rwa [List.length_replicate] at this
  have whole : ∀ buf, strlen buf ≤ buf.length := fun buf => (List.takeWhile_sublist _).length_le
  have small : ∀ bytes n, n ≤ tmpBufSize → n ≤ (overwrite (List.replicate tmpBufSize 0) 0 bytes).length :=
    fun bytes n le => Nat.le_trans le (room bytes)
  unfold convert
  split
  · split
    · exact ⟨room _, small _ 1 (by decide)⟩
    · split
      · exact ⟨room _, small _ _ (Nat.min_le_left _ _)⟩
      · exact ⟨room _, small _ 1 (by decide)⟩
  · split
    · exact ⟨room _, whole _⟩
    · split
      · exact ⟨room _, whole _⟩
      · split
        · exact ⟨Nat.le_trans (room _) (overwrite_length (small _ 2 (by decide)) _), whole _⟩
        · exact ⟨room _, small _ printkProcErrorMsg.length (by decide)⟩

/-- What the precision changes is read off the type and the lengths. -/
theorem applyPrecision_tmpBuf (conv : Conversion) (tmpBuf : List UInt8) :
    (applyPrecision spec { conv with tmpBuf := tmpBuf }).1 = (applyPrecision spec conv).1 ∧
      (applyPrecision spec { conv with tmpBuf := tmpBuf }).2.tmpBufIdx = (applyPrecision spec conv).2.tmpBufIdx ∧
      (applyPrecision spec { conv with tmpBuf := tmpBuf }).2.args = (applyPrecision spec conv).2.args := by
  simp only [applyPrecision]
  split_ifs <;> exact ⟨rfl, rfl, rfl⟩

/-- The text still lies in `tmp_buf`: a precision is one byte. -/
theorem applyPrecision_tmpBufIdx {conv : Conversion} (room : tmpBufSize ≤ conv.tmpBuf.length)
    (inside : conv.tmpBufIdx ≤ conv.tmpBuf.length) :
    (applyPrecision spec conv).2.tmpBufIdx ≤ (applyPrecision spec conv).2.tmpBuf.length := by
  have byte : spec.precision.toNat ≤ conv.tmpBuf.length := by
    have := spec.precision.toNat_lt
    unfold tmpBufSize at room
    omega
  simp only [applyPrecision]
  split_ifs
  · exact Nat.le_trans byte (overwrite_length (Nat.zero_le _) _)
  · exact byte
  · exact inside
  · exact Nat.le_trans byte (overwrite_length byte _)
  · exact inside
  · exact inside
  · exact inside

/-- The padding and the converted text, when there is room for them. -/
def conversion : List UInt8 × Conversion := applyPrecision spec (convert 0 spec strings args)

/-- `process_format` cuts the text at the size it is given, and nothing else. -/
theorem processFormat_spec : ∃ bytes, processFormat bufSize spec strings args =
      (bytes, (conversion spec strings args).2.tmpBufIdx, (conversion spec strings args).2.args) ∧
    bytes.length = (conversion spec strings args).1.length +
      min bufSize (conversion spec strings args).2.tmpBufIdx := by
  obtain ⟨tmpBuf, same⟩ := convert_bufSize bufSize spec strings args
  obtain ⟨padding, idx, left⟩ := applyPrecision_tmpBuf spec (convert 0 spec strings args) tmpBuf
  rw [← same] at padding idx left
  obtain ⟨room, inside⟩ := convert_tmpBuf bufSize spec strings args
  have within := applyPrecision_tmpBufIdx spec room inside
  rw [conversion, ← padding, ← idx, ← left]
  generalize full : applyPrecision spec (convert bufSize spec strings args) = result at within
  refine ⟨result.1 ++ result.2.tmpBuf.take (min bufSize result.2.tmpBufIdx), by rw [processFormat, full], ?_⟩
  rw [List.length_append, List.length_take]
  omega

end Convert

/-! ## Stores -/

/-- All stores so far are in the buffer, and so is the index of the next. -/
structure InBuffer (bufSize : Nat) (p : Printer) : Prop where
  stores : ∀ store ∈ p.stores, store.1 < bufSize
  readChars : p.readChars ≤ bufSize

/-- Storing bytes stays in the buffer when there is room for them all. -/
theorem store_mem_iff (bufSize : Nat) (p : Printer) (bytes : List UInt8) :
    (∀ store ∈ (p.store bytes).stores, store.1 < bufSize) ↔
      (∀ store ∈ p.stores, store.1 < bufSize) ∧ (bytes.length = 0 ∨ p.readChars + bytes.length ≤ bufSize) := by
  have indices : ((List.range' p.readChars bytes.length).zip bytes).map Prod.fst =
      List.range' p.readChars bytes.length := List.map_fst_zip (by rw [List.length_range'])
  have new : (∀ store ∈ (List.range' p.readChars bytes.length).zip bytes, store.1 < bufSize) ↔
      ∀ i ∈ List.range' p.readChars bytes.length, i < bufSize := by
    rw [← indices, List.forall_mem_map, indices]
  rw [Printer.store, List.forall_mem_append, new]
  refine and_congr_right fun _ => ?_
  simp only [List.mem_range'_1]
  constructor
  · intro below
    by_cases none : bytes.length = 0
    · exact .inl none
    · have := below (p.readChars + bytes.length - 1) (by omega)
      exact .inr (by omega)
  · intro room i inside
    omega

/-- What is printed is never taken back. -/
structure Printer.Grows (p out : Printer) : Prop where
  readChars : p.readChars ≤ out.readChars
  stores : ∀ store ∈ p.stores, store ∈ out.stores

theorem Printer.grows_store (p : Printer) (bytes : List UInt8) (i n : Nat) (args : VaList) :
    p.Grows { p.store bytes with i := i, readChars := p.readChars + n, args := args } :=
  ⟨Nat.le_add_right _ _, fun _ mem => List.mem_append_left _ mem⟩

theorem Printer.Grows.trans {p q out : Printer} (first : p.Grows q) (second : q.Grows out) : p.Grows out :=
  ⟨Nat.le_trans first.readChars second.readChars, fun store mem => second.stores store (first.stores store mem)⟩

/-! ## One round of the loop -/

section Round

variable (bufSize : Nat) (fmt : CString) (strings : Nat → CString)

theorem vsnprintfLoop_succ (fuel : Nat) (p : Printer) : vsnprintfLoop bufSize fmt strings (fuel + 1) p =
    printStep bufSize fmt strings p >>= fun after =>
      if after.2 then vsnprintfLoop bufSize fmt strings fuel after.1 else pure after.1 := rfl

/-- What a round does that returns. -/
inductive PrintStep (p : Printer) : Printer → Bool → Prop
  | ends : fmt.charAt p.i = .ok 0 → PrintStep p p false
  | plain {c : UInt8} : fmt.charAt p.i = .ok c → c ≠ 0 → c ≠ ascii '%' →
      PrintStep p
        { p.store (if c = ascii '\t' then List.replicate 4 (ascii ' ') else [c]) with
          readChars := p.readChars + (if c = ascii '\t' then List.replicate 4 (ascii ' ') else [c]).length, i := p.i + 1 } true
  | message {read : Nat} {spec : PrintFmtSpec} : fmt.charAt p.i = .ok (ascii '%') → formatDecode fmt p.i = .ok (read, spec) →
      PrintStep p
        { p.store ((printkDecdErrorMsg ++ [0]).take (min (Word.sub bufSize p.readChars) (printkDecdErrorMsg.length + 1))) with
          readChars := p.readChars + printkDecdErrorMsg.length } false
  | converts {read : Nat} {spec : PrintFmtSpec} (more : Bool) : fmt.charAt p.i = .ok (ascii '%') →
      formatDecode fmt p.i = .ok (read, spec) → spec.type ≠ .error → spec.length ≠ .error →
      PrintStep p
        { p.store (processFormat (Word.sub bufSize p.readChars) spec strings p.args).1 with
          i := if more then p.i + (read - 1) + 1 else p.i + (read - 1)
          readChars := p.readChars + (processFormat (Word.sub bufSize p.readChars) spec strings p.args).2.1
          args := (processFormat (Word.sub bufSize p.readChars) spec strings p.args).2.2 } more

variable {bufSize fmt strings}

theorem printStep_cases {p q : Printer} {more : Bool} (step : printStep bufSize fmt strings p = .ok (q, more)) :
    PrintStep bufSize fmt strings p q more := by
  obtain ⟨c, read, step⟩ := bind_eq_ok.mp step
  split at step
  · rename_i null
    cases step
    exact .ends (null ▸ read)
  · rename_i nonzero
    split at step
    · rename_i percent
      subst percent
      obtain ⟨⟨n, spec⟩, decode, step⟩ := bind_eq_ok.mp step
      dsimp only at step
      split at step
      · rename_i good
        split at step
        · split at step
          · cases step
            exact .converts false read decode good.1 good.2
          · cases step
            exact .converts true read decode good.1 good.2
        · cases step
      · cases step
        exact .message read decode
    · rename_i ordinary
      cases step
      exact .plain read nonzero ordinary

/-- What every round keeps, the loop keeps. -/
theorem vsnprintfLoop_invariant {P : Printer → Prop} (keeps : ∀ {p q more}, PrintStep bufSize fmt strings p q more → P p → P q)
    {fuel : Nat} {p out : Printer} (run : vsnprintfLoop bufSize fmt strings fuel p = .ok out) (start : P p) : P out := by
  induction fuel generalizing p with
  | zero => cases run
  | succ fuel ih =>
    rw [vsnprintfLoop_succ] at run
    obtain ⟨⟨q, more⟩, step, rest⟩ := bind_eq_ok.mp run
    have kept := keeps (printStep_cases step) start
    cases more with
    | false =>
      cases rest
      exact kept
    | true => exact ih rest kept

end Round

theorem PrintStep.grows {bufSize : Nat} {fmt : CString} {strings : Nat → CString} {p q : Printer} {more : Bool}
    (step : PrintStep bufSize fmt strings p q more) : p.Grows q := by
  cases step with
  | ends => exact ⟨Nat.le_refl _, fun _ mem => mem⟩
  | plain => exact p.grows_store _ _ _ _
  | message => exact p.grows_store _ _ _ _
  | converts => exact p.grows_store _ _ _ _

theorem vsnprintfLoop_grows {bufSize : Nat} {fmt : CString} {strings : Nat → CString} {fuel : Nat}
    {p out : Printer} (run : vsnprintfLoop bufSize fmt strings fuel p = .ok out) : p.Grows out := by
  apply vsnprintfLoop_invariant (fun step grown => grown.trans step.grows) run
  exact ⟨Nat.le_refl _, fun _ mem => mem⟩

/-! ## Fitting the buffer -/

section Loop

variable {bufSize : Nat} {fmt : CString} {strings : Nat → CString}

/-- Bytes stored and an index moved on. -/
theorem InBuffer.store_iff {p : Printer} (kept : InBuffer bufSize p) (bytes : List UInt8) (i n : Nat)
    (args : VaList) :
    InBuffer bufSize { p.store bytes with i := i, readChars := p.readChars + n, args := args } ↔
      (bytes.length = 0 ∨ p.readChars + bytes.length ≤ bufSize) ∧ p.readChars + n ≤ bufSize := by
  constructor
  · intro after
    exact ⟨((store_mem_iff bufSize p bytes).mp after.stores).2, after.readChars⟩
  · rintro ⟨room, le⟩
    exact ⟨(store_mem_iff bufSize p bytes).mpr ⟨kept.stores, room⟩, le⟩

theorem InBuffer.of_grows {q out : Printer} (after : InBuffer bufSize out) (grows : q.Grows out) : InBuffer bufSize q :=
  ⟨fun store mem => after.stores store (grows.stores store mem), Nat.le_trans grows.readChars after.readChars⟩

/-- A round that is followed by another one reads on. -/
theorem PrintStep.advances {p q : Printer} (step : PrintStep bufSize fmt strings p q true) (inside : p.i ≤ fmt.chars.length) :
    p.i < q.i ∧ q.i ≤ fmt.chars.length := by
  cases step with
  | plain read nonzero => exact ⟨Nat.lt_succ_self _, fmt.lt_of_charAt read nonzero⟩
  | converts _ _ decode type length =>
    obtain ⟨read, spec, decode', outcome⟩ := formatDecode_reads inside
    cases decode.symm.trans decode'
    have longer := outcome.resolve_left fun bad => bad.elim type length
    simp only [if_true]
    omega

/-- A round that returns a known state returns it. -/
theorem exists_ok_iff {q : Printer} {more : Bool} {P : Printer → Bool → Prop} :
    (∃ q' more', (.ok (q, more) : Outcome (Printer × Bool)) = .ok (q', more') ∧ P q' more') ↔ P q more := by
  constructor
  · rintro ⟨q', more', same, holds⟩
    cases same
    exact holds
  · intro holds
    exact ⟨q, more, rfl, holds⟩

/-- The state after a round is in the buffer, and if there is another round, so is all of the rest. -/
def RestFits (bufSize : Nat) (fmt : CString) (strings : Nat → CString) (fuel : Nat) (q : Printer) (more : Bool) : Prop :=
  InBuffer bufSize q ∧ (more = true → Fits bufSize q.readChars (pieces fmt strings fuel q.i q.args))

@[simp] theorem restFits_false {fuel : Nat} {q : Printer} : RestFits bufSize fmt strings fuel q false ↔ InBuffer bufSize q := by
  simp [RestFits]

@[simp] theorem restFits_true {fuel : Nat} {q : Printer} : RestFits bufSize fmt strings fuel q true ↔
    InBuffer bufSize q ∧ Fits bufSize q.readChars (pieces fmt strings fuel q.i q.args) := by
  simp [RestFits]

/-- A round stays in the buffer and leaves what fits exactly when its piece and the pieces left fit. -/
theorem printStep_inBuffer (size : bufSize < 2 ^ 64) {fuel : Nat} {p : Printer} (kept : InBuffer bufSize p)
    (inside : p.i ≤ fmt.chars.length) :
    Fits bufSize p.readChars (pieces fmt strings (fuel + 1) p.i p.args) ↔
      ∃ q more, printStep bufSize fmt strings p = .ok (q, more) ∧ RestFits bufSize fmt strings fuel q more := by
  have inBuffer := kept.readChars
  rw [printStep, fmt.charAt_of_le inside, ok_bind, pieces]
  generalize fmt.chars.getD p.i 0 = c
  by_cases null : c = 0
  · simp only [if_pos null, Fits, pure_eq_ok, exists_ok_iff]
    exact iff_of_true trivial (restFits_false.mpr kept)
  simp only [if_neg null]
  by_cases percent : c = ascii '%'
  · simp only [if_pos percent]
    obtain ⟨read, spec, decode, -⟩ := formatDecode_reads inside
    simp only [decode, ok_bind, Outcome.getD]
    by_cases good : spec.type ≠ .error ∧ spec.length ≠ .error
    · simp only [if_pos good]
      by_cases int : read - 1 < 2 ^ 31
      · simp only [if_pos int]
        obtain ⟨bytes, process, length⟩ := processFormat_spec (Word.sub bufSize p.readChars) spec strings p.args
        rw [Word.sub_of_le size inBuffer, conversion] at process length
        rw [Word.sub_of_le size inBuffer, process]
        generalize applyPrecision spec (convert 0 spec strings p.args) = result at length
        have room : (bytes.length = 0 ∨ p.readChars + bytes.length ≤ bufSize) ∧
            p.readChars + result.2.tmpBufIdx ≤ bufSize ↔
            p.readChars + (result.1.length + result.2.tmpBufIdx) ≤ bufSize := by omega
        dsimp only [Fits]
        rw [← room]
        by_cases full : p.readChars + result.2.tmpBufIdx = bufSize
        · rw [if_pos full, pure_eq_ok, exists_ok_iff, restFits_false, kept.store_iff]
          exact and_iff_left (.inl full)
        · rw [if_neg full, or_iff_right full, pure_eq_ok, exists_ok_iff, restFits_true]
          exact and_congr_left fun _ => (kept.store_iff bytes _ _ _).symm
      · simp only [if_neg int, Fits, false_iff]
        rintro ⟨q, more, step, -⟩
        cases step
    · simp only [if_neg good, Fits, pure_eq_ok, exists_ok_iff, Word.sub_of_le size inBuffer]
      rw [restFits_false, kept.store_iff, iff_and_self]
      intro room
      simp only [List.length_take, List.length_append, List.length_singleton]
      omega
  · simp only [if_neg percent, Fits, pure_eq_ok, exists_ok_iff]
    have length : (if c = ascii '\t' then List.replicate 4 (ascii ' ') else [c]).length = if c = ascii '\t' then 4 else 1 := by
      split
      · rfl
      · rfl
    rw [restFits_true, kept.store_iff, length]
    refine and_congr_left fun _ => ?_
    omega

/-- The loop ends with everything in the buffer exactly when the pieces left fit. -/
theorem vsnprintfLoop_inBuffer (size : bufSize < 2 ^ 64) {fuel : Nat} {p : Printer} (kept : InBuffer bufSize p)
    (inside : p.i ≤ fmt.chars.length) (enough : fmt.chars.length - p.i < fuel) :
    (∃ out, vsnprintfLoop bufSize fmt strings fuel p = .ok out ∧ InBuffer bufSize out) ↔
      Fits bufSize p.readChars (pieces fmt strings fuel p.i p.args) := by
  induction fuel generalizing p with
  | zero => omega
  | succ fuel ih =>
    rw [printStep_inBuffer size kept inside, vsnprintfLoop_succ]
    constructor
    · rintro ⟨out, run, after⟩
      obtain ⟨⟨q, more⟩, step, rest⟩ := bind_eq_ok.mp run
      refine ⟨q, more, step, ?_⟩
      cases more with
      | false =>
        cases rest
        exact restFits_false.mpr after
      | true =>
        obtain ⟨ahead, inside'⟩ := (printStep_cases step).advances inside
        have between := after.of_grows (vsnprintfLoop_grows rest)
        have fits := (ih between inside' (show fmt.chars.length - q.i < fuel by omega)).mp ⟨out, rest, after⟩
        exact restFits_true.mpr ⟨between, fits⟩
    · rintro ⟨q, more, step, fits⟩
      rw [step, ok_bind]
      cases more with
      | false => exact ⟨q, rfl, restFits_false.mp fits⟩
      | true =>
        obtain ⟨ahead, inside'⟩ := (printStep_cases step).advances inside
        obtain ⟨between, left⟩ := restFits_true.mp fits
        exact (ih between inside' (show fmt.chars.length - q.i < fuel by omega)).mpr left

end Loop

/-- `vsnprintf` respects its buffer: it returns, every store is at an index below the size of the
buffer, and the value returned is no more than that size. -/
def RespectsBuffer (bufSize : Nat) (fmt : CString) (strings : Nat → CString) (args : VaList) : Prop :=
  ∃ stores returned, vsnprintf bufSize fmt strings args = .ok (stores, returned) ∧
    (∀ store ∈ stores, store.1 < bufSize) ∧ returned ≤ bufSize

/-- Then `printk` keeps to its buffer too: it is given all but the last byte, and sends one byte more
than was printed. -/
theorem printk_respects_buffer {loggingLevel level : Nat} {fmt : CString} {strings : Nat → CString} {args : VaList}
    (respects : RespectsBuffer (printkBufferSize - 1) fmt strings args) :
    ∃ sent, printk loggingLevel level fmt strings args = .ok sent ∧ ∀ stores console serial,
      sent = some (stores, console, serial) → (∀ store ∈ stores, store.1 < printkBufferSize) ∧
        console ≤ printkBufferSize ∧ serial ≤ printkBufferSize := by
  obtain ⟨stores, returned, run, below, le⟩ := respects
  rw [printk]
  split
  · exact ⟨none, rfl, by simp⟩
  · refine ⟨_, bind_eq_ok.mpr ⟨_, run, rfl⟩, fun stores' console serial same => ?_⟩
    cases same
    unfold printkBufferSize at *
    exact ⟨fun store mem => by have := below store mem; omega, by omega, by omega⟩

/-! ### Short format strings -/

/-- A list of arguments that are all zero, and strings that are all empty. -/
def noArgs : VaList := ⟨fun _ => 0⟩

def noStrings : Nat → CString := fun _ => ⟨[], by simp⟩

end AlmeidaOS.Kernel
