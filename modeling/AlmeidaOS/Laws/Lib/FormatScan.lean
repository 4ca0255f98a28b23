import Mathlib.Data.Finset.Card
import AlmeidaOS.Laws.Lib.FormatGrammar

/-!
# The scan of a format string

`vsnprintf` goes through the format string with an index. At a `%` it has a specification decoded and
goes on behind the characters that were read: `int read = format_decode(…) - 1; i += read; i++`. The
scan ends, and keeps to the string, as long as that `int` holds the number (`resumeAt_eq_iff`), which is
for specifications of up to 2^31 characters.

Which specifications the scan comes to is a matter of the format string alone (`ScansTo`), but a full
buffer ends it early. For every specification it comes to there is a size of the buffer that is not full
before (`scansTo_reached`), so the condition is exact.
-/

namespace AlmeidaOS.Kernel

/-- Where the scan goes on that has read `read` characters at `i`, in the types of the source. -/
def resumeAt (i read : Nat) : Nat :=
  Word.add (Word.add i (Word.ofInt (toInt32 (Word.sub read 1 : Nat)))) 1

/-- It is behind these characters exactly when one less than their number is an `int`. -/
theorem resumeAt_eq_iff {i read : Nat} (pos : 0 < read) (inside : i + read < 2 ^ 63) :
    resumeAt i read = i + read ↔ read - 1 < 2 ^ 31 := by
  have less : Word.sub read 1 = read - 1 := Word.sub_of_le (by omega) pos
  rw [resumeAt, less]
  unfold Word.add Word.ofInt toInt32 Int.bmod
  dsimp only
  split
  · omega
  · omega

/-- The positions the scan comes to when no full buffer ends it: behind an ordinary character, and behind
a specification that was decoded. -/
inductive ScansTo (fmt : CString) : Nat → Prop
  | start : ScansTo fmt 0
  | plain {i : Nat} {c : UInt8} : ScansTo fmt i → fmt.charAt i = .ok c → c ≠ 0 → c ≠ ascii '%' → ScansTo fmt (i + 1)
  | spec {i read : Nat} {spec : PrintFmtSpec} : ScansTo fmt i → fmt.charAt i = .ok (ascii '%') →
      formatDecode fmt i = .ok (read, spec) → ¬ spec.Bad → ScansTo fmt (i + read)

/-- Every specification the scan comes to has at most 2^31 characters. -/
def ShortSpecs (fmt : CString) : Prop :=
  ∀ {i read spec}, ScansTo fmt i → fmt.charAt i = .ok (ascii '%') → formatDecode fmt i = .ok (read, spec) →
    ¬ spec.Bad → read ≤ 2 ^ 31

/-- One round of the loop that is followed by another. -/
def ScanStep (bufSize : Nat) (fmt : CString) (strings : Nat → CString) (p q : Printer) : Prop :=
  printStep bufSize fmt strings p = .ok (q, true)

/-- The scan keeps to the format string. A read behind the NUL is a fault, and so is a loop without an end,
so that it returns says both. At every specification decoded on the way, the characters read are there
and the scan goes on behind them. -/
structure ScansWithin (bufSize : Nat) (fmt : CString) (strings : Nat → CString) (args : VaList) : Prop where
  returns : ∃ out, vsnprintf bufSize fmt strings args = .ok out
  resumes : ∀ {p read spec}, Relation.ReflTransGen (ScanStep bufSize fmt strings) ⟨0, 0, [], args⟩ p →
    fmt.charAt p.i = .ok (ascii '%') → formatDecode fmt p.i = .ok (read, spec) → ¬ spec.Bad →
    p.i + read ≤ fmt.chars.length ∧ resumeAt p.i read = p.i + read ∧
      ∀ q, ScanStep bufSize fmt strings p q → q.i = p.i + read

section Scan

variable {bufSize : Nat} {fmt : CString} {strings : Nat → CString} {args : VaList}

/-! ## Positions -/

theorem decoded_inside {i read : Nat} {spec : PrintFmtSpec} (inside : i ≤ fmt.chars.length)
    (decode : formatDecode fmt i = .ok (read, spec)) (good : ¬ spec.Bad) : 0 < read ∧ i + read ≤ fmt.chars.length := by
  obtain ⟨read', spec', decode', outcome⟩ := formatDecode_reads inside
  cases decode.symm.trans decode'
  exact outcome.resolve_left good

theorem ScansTo.inside {i : Nat} (scans : ScansTo fmt i) : i ≤ fmt.chars.length := by
  induction scans with
  | start => exact Nat.zero_le _
  | plain _ read nonzero _ _ => exact fmt.lt_of_charAt read nonzero
  | spec _ _ decode good inside => exact (decoded_inside inside decode good).2

/-- A round goes on to a position the scan comes to. -/
theorem PrintStep.scansTo {p q : Printer} (step : PrintStep bufSize fmt strings p q true) (scans : ScansTo fmt p.i) :
    ScansTo fmt q.i := by
  cases step with
  | plain read nonzero ordinary => exact scans.plain read nonzero ordinary
  | @converts read spec _ percent decode type length =>
    have good : ¬ spec.Bad := fun bad => bad.elim type length
    obtain ⟨pos, -⟩ := decoded_inside scans.inside decode good
    have next : p.i + (read - 1) + 1 = p.i + read := by omega
    simp only [if_true, next]
    exact scans.spec percent decode good

theorem scansTo_of_run {p : Printer} (run : Relation.ReflTransGen (ScanStep bufSize fmt strings) ⟨0, 0, [], args⟩ p) :
    ScansTo fmt p.i :=
  run_invariant (P := fun p => ScansTo fmt p.i) run .start fun _ _ scans step => (printStep_cases step).scansTo scans

/-! ## Rounds that return -/

theorem printStep_plain (bufSize : Nat) (strings : Nat → CString) {p : Printer} {c : UInt8} (read : fmt.charAt p.i = .ok c)
    (nonzero : c ≠ 0) (ordinary : c ≠ ascii '%') :
    ∃ stores, printStep bufSize fmt strings p =
      .ok (⟨p.i + 1, p.readChars + (if c = ascii '\t' then List.replicate 4 (ascii ' ') else [c]).length, stores,
        p.args⟩, true) := by
  refine ⟨(p.store (if c = ascii '\t' then List.replicate 4 (ascii ' ') else [c])).stores, ?_⟩
  rw [printStep, read, ok_bind, if_neg nonzero, if_neg ordinary]
  rfl

/-- A specification that is counted is processed; what it prints does not depend on the room there is. -/
theorem printStep_spec (bufSize : Nat) (strings : Nat → CString) {p : Printer} {read : Nat} {spec : PrintFmtSpec}
    (percent : fmt.charAt p.i = .ok (ascii '%')) (decode : formatDecode fmt p.i = .ok (read, spec)) (good : ¬ spec.Bad) (int : read - 1 < 2 ^ 31) :
    ∃ stores, printStep bufSize fmt strings p =
      if p.readChars + (conversion spec strings p.args).2.tmpBufIdx = bufSize then
        .ok (⟨p.i + (read - 1), p.readChars + (conversion spec strings p.args).2.tmpBufIdx, stores,
          (conversion spec strings p.args).2.args⟩, false)
      else .ok (⟨p.i + (read - 1) + 1, p.readChars + (conversion spec strings p.args).2.tmpBufIdx, stores,
          (conversion spec strings p.args).2.args⟩, true) := by
  have typed : spec.type ≠ .error ∧ spec.length ≠ .error := not_or.mp good
  obtain ⟨bytes, process, -⟩ := processFormat_spec (Word.sub bufSize p.readChars) spec strings p.args
  refine ⟨(p.store bytes).stores, ?_⟩
  rw [printStep, percent, ok_bind, if_neg (by decide), if_pos rfl, decode, ok_bind]
  simp only [if_pos typed, if_pos int, process]
  split
  · rfl
  · rfl

/-- A round returns unless it is at a specification that is too long. -/
theorem printStep_returns (bufSize : Nat) (strings : Nat → CString) {p : Printer} (inside : p.i ≤ fmt.chars.length)
    (short : ∀ {read spec}, fmt.charAt p.i = .ok (ascii '%') → formatDecode fmt p.i = .ok (read, spec) → ¬ spec.Bad →
      read ≤ 2 ^ 31) : ∃ q more, printStep bufSize fmt strings p = .ok (q, more) := by
  have char := fmt.charAt_of_le inside
  by_cases null : fmt.chars.getD p.i 0 = 0
  · exact ⟨p, false, by rw [printStep, char, ok_bind, if_pos null]; rfl⟩
  by_cases percent : fmt.chars.getD p.i 0 = ascii '%'
  · rw [percent] at char
    obtain ⟨read, spec, decode, outcome⟩ := formatDecode_reads inside
    by_cases good : spec.Bad
    · have bad : ¬ (spec.type ≠ .error ∧ spec.length ≠ .error) := fun typed => good.elim typed.1 typed.2
      rw [printStep, char, ok_bind, if_neg (by decide), if_pos rfl, decode, ok_bind]
      simp only [if_neg bad]
      exact ⟨_, _, rfl⟩
    · have few := short char decode good
      obtain ⟨stores, step⟩ := printStep_spec bufSize strings char decode good (by omega)
      rw [step]
      split
      · exact ⟨_, _, rfl⟩
      · exact ⟨_, _, rfl⟩
  · obtain ⟨stores, step⟩ := printStep_plain bufSize strings char null percent
    exact ⟨_, _, step⟩

/-- The loop returns when no specification it comes to is too long. -/
theorem vsnprintfLoop_returns (bufSize : Nat) (strings : Nat → CString) (short : ShortSpecs fmt) {fuel : Nat} {p : Printer}
    (scans : ScansTo fmt p.i) (enough : fmt.chars.length - p.i < fuel) : ∃ out, vsnprintfLoop bufSize fmt strings fuel p = .ok out := by
  induction fuel generalizing p with
  | zero => omega
  | succ fuel ih =>
    obtain ⟨q, more, step⟩ := printStep_returns bufSize strings scans.inside (short scans)
    rw [vsnprintfLoop_succ, step, ok_bind]
    cases more with
    | false => exact ⟨q, rfl⟩
    | true =>
      have ahead := (printStep_cases step).advances scans.inside
      exact ih ((printStep_cases step).scansTo scans) (show fmt.chars.length - q.i < fuel by omega)

/-- A round behind a specification goes on where that ends. -/
theorem scanStep_spec {p q : Printer} {read : Nat} {spec : PrintFmtSpec} (scans : ScansTo fmt p.i)
    (percent : fmt.charAt p.i = .ok (ascii '%')) (decode : formatDecode fmt p.i = .ok (read, spec)) (good : ¬ spec.Bad)
    (step : ScanStep bufSize fmt strings p q) : q.i = p.i + read := by
  obtain ⟨pos, -⟩ := decoded_inside scans.inside decode good
  cases printStep_cases step with
  | plain read' nonzero ordinary =>
    cases percent.symm.trans read'
    exact absurd rfl ordinary
  | converts _ _ decode' =>
    cases decode.symm.trans decode'
    simp only [if_true]
    omega

theorem scansWithin_of_short (size : fmt.chars.length < 2 ^ 63) (short : ShortSpecs fmt) :
    ScansWithin bufSize fmt strings args := by
  refine ⟨?_, fun {p read spec} run percent decode good => ?_⟩
  · obtain ⟨out, loop⟩ := vsnprintfLoop_returns bufSize strings (p := ⟨0, 0, [], args⟩) short
      .start (show fmt.chars.length - 0 < fmt.chars.length + 1 by omega)
    exact ⟨_, bind_eq_ok.mpr ⟨out, loop, rfl⟩⟩
  · have scans := scansTo_of_run run
    obtain ⟨pos, within⟩ := decoded_inside scans.inside decode good
    have few := short scans percent decode good
    exact ⟨within, (resumeAt_eq_iff pos (by omega)).mpr (by omega), fun q => scanStep_spec scans percent decode good⟩

/-! ## Every position is reached -/

/-- A size that is none of fewer than 2^64 ones. -/
theorem exists_size (full : Finset Nat) (few : full.card < 2 ^ 64) : ∃ bufSize, bufSize < 2 ^ 64 ∧ bufSize ∉ full := by
  obtain ⟨bufSize, mem, free⟩ := Finset.exists_mem_notMem_of_card_lt_card (s := full) (t := Finset.range (2 ^ 64))
    (by rwa [Finset.card_range])
  exact ⟨bufSize, Finset.mem_range.mp mem, free⟩

/-- The scan gets to every position it comes to, whatever the size of the buffer, but for the sizes at
which a specification before ends. -/
theorem scansTo_reached (size : fmt.chars.length < 2 ^ 63)
    (within : ∀ bufSize, bufSize < 2 ^ 64 → ScansWithin bufSize fmt strings args) {i : Nat} (scans : ScansTo fmt i) :
    ∃ readChars args', ∃ full : Finset Nat, full.card ≤ i ∧ ∀ bufSize, bufSize < 2 ^ 64 → bufSize ∉ full →
      ∃ stores, Relation.ReflTransGen (ScanStep bufSize fmt strings) ⟨0, 0, [], args⟩ ⟨i, readChars, stores, args'⟩ := by
  induction scans with
  | start => exact ⟨0, args, ∅, Nat.le_refl _, fun bufSize _ _ => ⟨[], .refl⟩⟩
  | @plain i c scans read nonzero ordinary ih =>
    obtain ⟨readChars, args', full, card, reached⟩ := ih
    refine ⟨readChars + (if c = ascii '\t' then List.replicate 4 (ascii ' ') else [c]).length, args', full,
      by omega, fun bufSize word free => ?_⟩
    obtain ⟨stores, run⟩ := reached bufSize word free
    obtain ⟨stores', step⟩ := printStep_plain bufSize strings
      (p := ⟨i, readChars, stores, args'⟩) read nonzero ordinary
    exact ⟨stores', run.tail step⟩
  | @spec i read spec scans percent decode good ih =>
    obtain ⟨readChars, args', full, card, reached⟩ := ih
    have inside := scans.inside
    obtain ⟨pos, within'⟩ := decoded_inside inside decode good
    have int : read - 1 < 2 ^ 31 := by
      obtain ⟨bufSize, word, free⟩ := exists_size full (by omega)
      obtain ⟨stores, run⟩ := reached bufSize word free
      obtain ⟨-, resumes, -⟩ := (within bufSize word).resumes run percent decode good
      exact (resumeAt_eq_iff pos (show i + read < 2 ^ 63 by omega)).mp resumes
    -- the one more size at which the buffer is full behind this specification
    refine ⟨readChars + (conversion spec strings args').2.tmpBufIdx, (conversion spec strings args').2.args,
      insert (readChars + (conversion spec strings args').2.tmpBufIdx) full, ?_, fun bufSize word free => ?_⟩
    · have := Finset.card_insert_le (readChars + (conversion spec strings args').2.tmpBufIdx) full
      omega
    · rw [Finset.mem_insert, not_or] at free
      obtain ⟨stores, run⟩ := reached bufSize word free.2
      obtain ⟨stores', step⟩ := printStep_spec bufSize strings
        (p := ⟨i, readChars, stores, args'⟩) percent decode good int
      rw [if_neg (Ne.symm free.1), show i + (read - 1) + 1 = i + read by omega] at step
      exact ⟨stores', run.tail step⟩

end Scan

/-- **The scan keeps to the format string exactly when no specification it comes to is longer than 2^31
characters.** The string is shorter than half the address space, as every object is. -/
theorem format_scan_iff {fmt : CString} (size : fmt.chars.length < 2 ^ 63) :
    (∀ bufSize strings args, bufSize < 2 ^ 64 → ScansWithin bufSize fmt strings args) ↔ ShortSpecs fmt := by
  constructor
  · intro within i read spec scans percent decode good
    have each := fun bufSize word => within bufSize (fun _ => fmt) ⟨fun _ => 0⟩ word
    obtain ⟨readChars, args', full, card, reached⟩ := scansTo_reached size each scans
    have inside := scans.inside
    obtain ⟨pos, within'⟩ := decoded_inside inside decode good
    obtain ⟨bufSize, word, free⟩ := exists_size full (by omega)
    obtain ⟨stores, run⟩ := reached bufSize word free
    obtain ⟨-, resumes, -⟩ := (each bufSize word).resumes run percent decode good
    have int := (resumeAt_eq_iff pos (show i + read < 2 ^ 63 by omega)).mp resumes
    omega
  · exact fun short bufSize strings args _ => scansWithin_of_short size short

/-- No specification is longer than the string. -/
theorem shortSpecs_of_length {fmt : CString} (short : fmt.chars.length ≤ 2 ^ 31) : ShortSpecs fmt := by
  intro i read spec scans percent decode good
  have := (decoded_inside scans.inside decode good).2
  omega

/-- `%d%%`. -/
theorem format_scan_short : (formatString [.spec specD, .percent]).chars.length = 4 ∧
    ∀ bufSize strings args, bufSize < 2 ^ 64 → ScansWithin bufSize (formatString [.spec specD, .percent]) strings args :=
  ⟨rfl, (format_scan_iff (by decide)).mpr (shortSpecs_of_length (by decide))⟩

/-! ## A specification that is too long -/

theorem foldl_zeros (zeros : Nat) :
    (List.replicate zeros (ascii '0')).foldl (fun value d => value * 10 + (d.toNat - 48)) 0 = 0 := by
  induction zeros with
  | zero => rfl
  | succ zeros ih =>
    rw [List.replicate_succ, List.foldl_cons]
    exact ih

/-- The digits of a 1 with leading zeros. -/
def paddedOne (zeros : Nat) : List UInt8 := List.replicate zeros (ascii '0') ++ [ascii '1']

theorem paddedOne_digit (zeros : Nat) : ∀ d ∈ paddedOne zeros, isdigit d = true := by
  intro d mem
  rcases List.mem_append.mp mem with zero | one
  · rw [(List.mem_replicate.mp zero).2]
    decide +kernel
  · rw [List.mem_singleton.mp one]
    decide +kernel

theorem paddedOne_range (zeros : Nat) : 1 ≤ decimal (paddedOne zeros) ∧ decimal (paddedOne zeros) ≤ 255 := by
  have value : decimal (paddedOne zeros) = 1 := by
    rw [decimal, paddedOne, List.foldl_append, foldl_zeros]
    rfl
  omega

/-- `%.00…01d`. -/
def wideSpec (zeros : Nat) : ConversionSpec :=
  { specD with
    digits := paddedOne zeros
    digit := paddedOne_digit zeros
    range := fun _ => paddedOne_range zeros }

theorem wideSpec_length (zeros : Nat) : (wideSpec zeros).text.length = zeros + 4 := by
  have digits : (wideSpec zeros).digits ≠ [] := List.append_ne_nil_of_right_ne_nil _ (List.cons_ne_nil _ _)
  rw [ConversionSpec.text, ConversionSpec.precisionText, if_neg digits]
  simp only [List.length_cons, List.length_append, List.length_replicate, List.length_nil, wideSpec,
    paddedOne, specD]

/-- All of it is read. -/
theorem wideSpec_decode (zeros : Nat) :
    formatDecode (formatString [.spec (wideSpec zeros)]) 0 = .ok (zeros + 4, (wideSpec zeros).meaning) := by
  have item := formatDecode_item [] (wideSpec zeros) []
  rw [wideSpec_length] at item
  exact item

theorem wideSpec_percent (zeros : Nat) :
    (formatString [.spec (wideSpec zeros)]).charAt 0 = .ok (ascii '%') :=
  (CString.charAt_of_le _ (Nat.zero_le _)).trans rfl

theorem formatString_wideSpec_length (zeros : Nat) :
    (formatString [.spec (wideSpec zeros)]).chars.length = zeros + 4 := by
  show ((wideSpec zeros).text ++ []).length = zeros + 4
  rw [List.append_nil, wideSpec_length]

/-- A scan that keeps to the string goes on behind it. -/
theorem wideSpec_resumes {zeros : Nat} (within : ∀ bufSize strings args, bufSize < 2 ^ 64 →
    ScansWithin bufSize (formatString [.spec (wideSpec zeros)]) strings args) : resumeAt 0 (zeros + 4) = zeros + 4 := by
  have good : ¬ (wideSpec zeros).meaning.Bad := fun bad =>
    bad.elim (ConversionSpec.typeOf_ne _).2 (wideSpec zeros).meaning_length_ne
  obtain ⟨-, resumes, -⟩ := (within 0 (fun _ => formatString []) ⟨fun _ => 0⟩ (by decide)).resumes .refl
    (wideSpec_percent zeros) (wideSpec_decode zeros) good
  rw [resumes, Nat.zero_add]

/-- With 2^31 zeros, the number of characters is negative as an `int`, and the scan goes back. -/
theorem format_scan_wraps :
    (formatString [.spec (wideSpec (2 ^ 31))]).chars.length < 2 ^ 63 ∧
    resumeAt 0 (2 ^ 31 + 4) = 2 ^ 64 - 2 ^ 31 + 4 ∧
    ¬ ∀ bufSize strings args, bufSize < 2 ^ 64 →
      ScansWithin bufSize (formatString [.spec (wideSpec (2 ^ 31))]) strings args := by
  have back : resumeAt 0 (2 ^ 31 + 4) = 2 ^ 64 - 2 ^ 31 + 4 := by decide
  refine ⟨?_, back, fun within => ?_⟩
  · rw [formatString_wideSpec_length]
    decide
  · have resumes := wideSpec_resumes within
    rw [back] at resumes
    exact absurd resumes (by decide)

end AlmeidaOS.Kernel
