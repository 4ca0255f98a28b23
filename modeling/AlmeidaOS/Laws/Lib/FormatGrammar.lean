import Mathlib.Data.List.TakeWhile
import AlmeidaOS.Laws.Lib.Vsnprintf

/-!
# The grammar of format strings

The comment in `vsnprintf.c` gives the grammar of a conversion specification,
`%[.precision][length]type`. A format string is a list of items: ordinary characters, `%%` and
specifications. `format_decode` reads a precision, then a length, then a type, each with a loop that
goes on as long as there are characters of the kind (`formatDecode_spec`). For the type, which is one
letter, that is too long: letters of ordinary text that follow it are read too and make the type an
error. So a specification is decoded as the grammar says exactly when no such letter follows.
-/

namespace AlmeidaOS.Kernel

/-! ## The grammar -/

/-- The number that decimal digits stand for. -/
def decimal (digits : List UInt8) : Nat := digits.foldl (fun value d => value * 10 + (d.toNat - 48)) 0

/-- A conversion specification: the digits of its precision, if it has one, the number of its `l`s and
the letter of its type. -/
structure ConversionSpec where
  digits : List UInt8
  longs : Nat
  letter : UInt8
  digit : ∀ d ∈ digits, isdigit d = true
  range : digits ≠ [] → 1 ≤ decimal digits ∧ decimal digits ≤ 255
  short : longs ≤ 2
  known : isType letter = true

namespace ConversionSpec

/-- `.precision`, or nothing. -/
def precisionText (s : ConversionSpec) : List UInt8 := if s.digits = [] then [] else ascii '.' :: s.digits

/-- The characters of a specification. -/
def text (s : ConversionSpec) : List UInt8 :=
  ascii '%' :: (s.precisionText ++ (List.replicate s.longs (ascii 'l') ++ [s.letter]))

/-- The type a letter stands for, and the base of its numbers. -/
def typeOf (letter : UInt8) : PrintfType × Nat :=
  if letter = ascii 'd' ∨ letter = ascii 'i' then (.signedInt, 10)
  else if letter = ascii 'u' then (.unsignedIntDec, 10)
  else if letter = ascii 'x' then (.unsignedIntHex, 16)
  else if letter = ascii 'o' then (.unsignedIntOct, 8)
  else if letter = ascii 'c' then (.char, 0)
  else if letter = ascii 's' then (.string, 0)
  else (.pointer, 16)

/-- The length that a number of `l`s stands for. -/
def lengthOf (longs : Nat) : PrintfLength :=
  if longs = 0 then .unknown else if longs = 1 then .long else .longLong

/-- What a specification says. -/
def meaning (s : ConversionSpec) : PrintFmtSpec :=
  ⟨(typeOf s.letter).1, lengthOf s.longs, (typeOf s.letter).2, (decimal s.digits).toUInt8⟩

end ConversionSpec

/-- One item of a format string. -/
inductive FormatItem where
  | ordinary (c : UInt8) (nonzero : c ≠ 0) (plain : c ≠ ascii '%')
  | percent
  | spec (s : ConversionSpec)

/-- The characters of an item. -/
def FormatItem.text : FormatItem → List UInt8
  | .ordinary c _ _ => [c]
  | .percent => [ascii '%', ascii '%']
  | .spec s => s.text

/-- The characters of a list of items. -/
def itemsText (items : List FormatItem) : List UInt8 := items.flatMap FormatItem.text

/-! ## Letters and digits -/

theorem isdigit_iff {c : UInt8} : isdigit c = true ↔ 48 ≤ c.toNat ∧ c.toNat ≤ 57 := by
  have := c.toNat_lt
  simp only [isdigit, decide_eq_true_eq]
  split <;> omega

theorem mem_letters {c : UInt8} (known : isType c = true) :
    c ∈ [ascii 'd', ascii 'i', ascii 'u', ascii 'x', ascii 'o', ascii 'c', ascii 's', ascii 'p'] := by
  simpa only [isType, Bool.or_eq_true, decide_eq_true_eq, or_assoc, List.mem_cons, List.not_mem_nil, or_false]
    using known

/-- A letter of a type is none of the characters that come before a type. -/
theorem letter_apart {c : UInt8} (known : isType c = true) :
    c ≠ 0 ∧ c ≠ ascii '%' ∧ c ≠ ascii '.' ∧ isLength c = false ∧ isdigit c = false := by
  have each : ∀ c ∈ [ascii 'd', ascii 'i', ascii 'u', ascii 'x', ascii 'o', ascii 'c', ascii 's', ascii 'p'],
      c ≠ 0 ∧ c ≠ ascii '%' ∧ c ≠ ascii '.' ∧ isLength c = false ∧ isdigit c = false := by
    decide +kernel
  exact each c (mem_letters known)

theorem digit_apart {d : UInt8} (digit : isdigit d = true) : d ≠ 0 ∧ d ≠ ascii '%' := by
  rw [isdigit_iff] at digit
  constructor
  · rintro rfl
    exact absurd digit.1 (by decide)
  · rintro rfl
    exact absurd digit.1 (by decide)

/-- The digits are entered modulo 256, which is all there is of a precision up to 255. -/
theorem foldl_enterDigit (digits : List UInt8) (digit : ∀ d ∈ digits, isdigit d = true) (spec : PrintFmtSpec)
    (value : Nat) (start : spec.precision = value.toUInt8) :
    digits.foldl (fun spec d => enterDigit d spec) spec =
      { spec with
        precision := (digits.foldl (fun value d => value * 10 + (d.toNat - 48)) value).toUInt8 } := by
  induction digits generalizing spec value with
  | nil => rw [List.foldl_nil, List.foldl_nil, ← start]
  | cons d digits ih =>
    have bounds := isdigit_iff.mp (digit d (List.mem_cons_self ..))
    have entered : (enterDigit d spec).precision = (value * 10 + (d.toNat - 48)).toUInt8 := by
      refine UInt8.toNat_inj.mp ?_
      have nine : (d - ascii '0').toNat = d.toNat - 48 := UInt8.toNat_sub_of_le d (ascii '0') bounds.1
      simp only [enterDigit, start, UInt8.toNat_add, UInt8.toNat_mul, nine, Nat.toUInt8, UInt8.toNat_ofNat',
        UInt8.reduceToNat]
      omega
    rw [List.foldl_cons, List.foldl_cons, ih (fun d mem => digit d (List.mem_cons_of_mem _ mem)) _ _ entered]
    rfl

theorem foldl_enterLength {longs : Nat} (short : longs ≤ 2) (spec : PrintFmtSpec) (start : spec.length = .unknown) :
    (List.replicate longs (ascii 'l')).foldl (fun spec c => enterLength c spec) spec =
      { spec with length := ConversionSpec.lengthOf longs } := by
  obtain ⟨type, length, base, precision⟩ := spec
  obtain rfl : length = .unknown := start
  obtain rfl | rfl | rfl : longs = 0 ∨ longs = 1 ∨ longs = 2 := by omega
  · rfl
  · rfl
  · rfl

theorem enterType_known {c : UInt8} (known : isType c = true) (spec : PrintFmtSpec) (start : spec.type = .unknown) :
    enterType c spec = { spec with type := (ConversionSpec.typeOf c).1, base := (ConversionSpec.typeOf c).2 } := by
  obtain ⟨type, length, base, precision⟩ := spec
  obtain rfl : type = .unknown := start
  have letters := mem_letters known
  simp only [List.mem_cons, List.not_mem_nil, or_false] at letters
  rcases letters with rfl | rfl | rfl | rfl | rfl | rfl | rfl | rfl <;> rfl

/-- A letter after the first makes the type an error, and it stays one. -/
theorem foldl_enterType_error (letters : List UInt8) (spec : PrintFmtSpec) (entered : spec.type ≠ .unknown)
    (more : letters ≠ []) :
    letters.foldl (fun spec c => enterType c spec) spec = { spec with type := .error } := by
  induction letters generalizing spec with
  | nil => exact absurd rfl more
  | cons c letters ih =>
    have failed : enterType c spec = { spec with type := .error } := if_pos entered
    rw [List.foldl_cons, failed]
    by_cases last : letters = []
    · rw [last, List.foldl_nil]
    · rw [ih _ (by simp) last]

theorem ConversionSpec.typeOf_ne (c : UInt8) :
    (ConversionSpec.typeOf c).1 ≠ .unknown ∧ (ConversionSpec.typeOf c).1 ≠ .error := by
  unfold typeOf
  split_ifs <;> simp

/-! ## Reading one field -/

theorem headD_dropWhile {p : UInt8 → Bool} (stops : p 0 = false) (xs : List UInt8) :
    p ((xs.dropWhile p).headD 0) = false := by
  induction xs with
  | nil => exact stops
  | cons x xs ih =>
    by_cases here : p x = true
    · rwa [List.dropWhile_cons_of_pos here]
    · rw [List.dropWhile_cons_of_neg here, List.headD_cons]
      exact Bool.eq_false_iff.mpr here

section Fields

variable {fmt : CString}

theorem charAt_drop {i : Nat} {c : UInt8} {rest : List UInt8} (here : fmt.chars.drop i = c :: rest) :
    fmt.charAt i = .ok c := by
  have lt : i < fmt.chars.length := by
    by_contra beyond
    rw [List.drop_eq_nil_of_le (by omega)] at here
    cases here
  rw [fmt.charAt_of_le (Nat.le_of_lt lt), List.getD_eq_getElem _ _ lt]
  rw [List.drop_eq_getElem_cons lt] at here
  rw [(List.cons.inj here).1]

theorem drop_next {i : Nat} {c : UInt8} {rest : List UInt8} (here : fmt.chars.drop i = c :: rest) :
    fmt.chars.drop (i + 1) = rest := by
  rw [← List.drop_drop, here, List.drop_succ_cons, List.drop_zero]

theorem drop_add {i : Nat} (xs : List UInt8) {rest : List UInt8} (here : fmt.chars.drop i = xs ++ rest) :
    fmt.chars.drop (i + xs.length) = rest := by
  rw [← List.drop_drop, here, List.drop_left]

/-- The next character, which may be the NUL. -/
theorem charAt_next {i : Nat} {c : UInt8} {rest : List UInt8} (here : fmt.chars.drop i = c :: rest) :
    fmt.charAt (i + 1) = .ok (rest.headD 0) := by
  cases rest with
  | nil =>
    have total := congrArg List.length here
    rw [List.length_drop, List.length_singleton] at total
    rw [fmt.charAt_of_le (by omega), List.getD_eq_default _ _ (by omega)]
    rfl
  | cons d rest => exact charAt_drop (drop_next here)

/-- The inner loop reads a field to its end. -/
theorem readWhile_field {more : UInt8 → Bool} {enter : UInt8 → PrintFmtSpec → PrintFmtSpec}
    {start fuel readChars : Nat} {c : UInt8} {xs rest : List UInt8} (spec : PrintFmtSpec)
    (here : fmt.chars.drop (start + readChars) = c :: xs ++ rest) (field : ∀ x ∈ xs, more x = true)
    (stops : more (rest.headD 0) = false) (enough : xs.length < fuel) :
    readWhile fmt more enter start fuel readChars c spec =
      .ok (readChars + (xs.length + 1), (c :: xs).foldl (fun spec c => enter c spec) spec) := by
  induction xs generalizing fuel readChars c spec with
  | nil =>
    obtain ⟨k, rfl⟩ : ∃ k, fuel = k + 1 := ⟨fuel - 1, by omega⟩
    have next : fmt.charAt (start + readChars + 1) = .ok (rest.headD 0) := charAt_next here
    rw [readWhile, ← Nat.add_assoc start, next, ok_bind, if_neg (by rw [stops]; exact Bool.false_ne_true)]
    rfl
  | cons x xs ih =>
    obtain ⟨k, rfl⟩ : ∃ k, fuel = k + 1 := ⟨fuel - 1, by omega⟩
    have later : fmt.chars.drop (start + (readChars + 1)) = x :: xs ++ rest := drop_next here
    rw [readWhile, charAt_drop later, ok_bind, if_pos (field x (List.mem_cons_self ..)),
      ih _ later (fun y mem => field y (List.mem_cons_of_mem _ mem)) (by simpa using enough)]
    simp only [List.length_cons, List.foldl_cons]
    rw [show readChars + 1 + (xs.length + 1) = readChars + (xs.length + 1 + 1) by omega]

/-- `read_precision`, `read_length` and `read_type` on a field. -/
theorem readField {more : UInt8 → Bool} {enter : UInt8 → PrintFmtSpec → PrintFmtSpec} {start : Nat}
    {c : UInt8} {xs rest : List UInt8} (spec : PrintFmtSpec) (here : fmt.chars.drop start = c :: xs ++ rest)
    (field : ∀ x ∈ xs, more x = true) (stops : more (rest.headD 0) = false) :
    (fmt.charAt start >>= fun c => readWhile fmt more enter start (fmt.chars.length + 1) 0 c spec) =
      .ok (xs.length + 1, (c :: xs).foldl (fun spec c => enter c spec) spec) := by
  have total := congrArg List.length here
  simp only [List.length_drop, List.length_append, List.length_cons] at total
  have loop : readWhile fmt more enter start (fmt.chars.length + 1) 0 c spec = _ :=
    readWhile_field spec here field stops (by omega)
  rw [charAt_drop here, ok_bind, loop, Nat.zero_add]

theorem readLength_spec {start more : Nat} {rest : List UInt8} {spec : PrintFmtSpec}
    (here : fmt.chars.drop start = List.replicate (more + 1) (ascii 'l') ++ rest)
    (stops : isLength (rest.headD 0) = false) (short : more + 1 ≤ 2) (fresh : spec.length = .unknown) :
    readLength fmt start spec = .ok (more + 1, { spec with length := ConversionSpec.lengthOf (more + 1) }) := by
  have all : ∀ x ∈ List.replicate more (ascii 'l'), isLength x = true := by
    intro x mem
    rw [List.eq_of_mem_replicate mem]
    rfl
  rw [← foldl_enterLength short spec fresh]
  refine (readField spec here all stops).trans ?_
  rw [List.length_replicate]
  rfl

theorem readPrecision_spec {start : Nat} {digits rest : List UInt8} {spec : PrintFmtSpec}
    (here : fmt.chars.drop start = digits ++ rest) (nonempty : digits ≠ [])
    (digit : ∀ d ∈ digits, isdigit d = true) (stops : isdigit (rest.headD 0) = false) (fresh : spec.precision = 0) :
    readPrecision fmt start spec = .ok (digits.length, { spec with precision := (decimal digits).toUInt8 }) := by
  obtain ⟨d, ds, rfl⟩ := List.exists_cons_of_ne_nil nonempty
  rw [decimal, ← foldl_enterDigit (d :: ds) digit spec 0 fresh]
  exact readField spec here (fun x mem => digit x (List.mem_cons_of_mem _ mem)) stops

/-! ## Decoding -/

/-- From here on, with enough iterations left, the outer loop answers so. -/
def Decodes (fmt : CString) (start i : Nat) (foundDot firstPerc : Bool) (spec : PrintFmtSpec) (n : Nat)
    (answer : Nat × PrintFmtSpec) : Prop :=
  ∀ fuel, n ≤ fuel → formatDecodeLoop fmt start fuel i foundDot firstPerc spec = .ok answer

/-- The type: all letters of types from here on are read. -/
theorem decodes_type {start i : Nat} {letter : UInt8} {rest : List UInt8} {firstPerc : Bool} (spec : PrintFmtSpec)
    (here : fmt.chars.drop (start + i) = letter :: rest) (known : isType letter = true) :
    Decodes fmt start i false firstPerc spec 1 (i + ((rest.takeWhile isType).length + 1),
      (letter :: rest.takeWhile isType).foldl (fun spec c => enterType c spec) spec) := by
  intro fuel enough
  obtain ⟨k, rfl⟩ : ∃ k, fuel = k + 1 := ⟨fuel - 1, by omega⟩
  obtain ⟨-, percent, dot, length, -⟩ := letter_apart known
  have split : fmt.chars.drop (start + i) = letter :: rest.takeWhile isType ++ rest.dropWhile isType := by
    rw [here, List.cons_append, List.takeWhile_append_dropWhile]
  have stops : isType ((rest.dropWhile isType).headD 0) = false := headD_dropWhile rfl rest
  have read : readType fmt (start + i) spec = _ :=
    readField spec split (fun x mem => List.mem_takeWhile_imp mem) stops
  rw [formatDecodeLoop, charAt_drop here, ok_bind, if_neg percent]
  simp only [dot, length, known, read, ok_bind, Bool.not_false, Bool.true_and, Bool.false_and, decide_false,
    Bool.false_eq_true, if_false, if_true, pure_eq_ok]

/-- The length: all `l`s from here on are read. -/
theorem decodes_length {start i longs n : Nat} {rest : List UInt8} {firstPerc : Bool} {spec : PrintFmtSpec}
    {answer : Nat × PrintFmtSpec} (here : fmt.chars.drop (start + i) = List.replicate longs (ascii 'l') ++ rest)
    (stops : isLength (rest.headD 0) = false) (short : longs ≤ 2) (fresh : spec.length = .unknown)
    (later : Decodes fmt start (i + longs) false firstPerc
      { spec with length := ConversionSpec.lengthOf longs } n answer) :
    Decodes fmt start i false firstPerc spec (n + longs) answer := by
  cases longs with
  | zero =>
    obtain ⟨type, length, base, precision⟩ := spec
    obtain rfl : length = .unknown := fresh
    exact later
  | succ more =>
    intro fuel enough
    obtain ⟨k, rfl⟩ : ∃ k, fuel = k + 1 := ⟨fuel - 1, by omega⟩
    rw [formatDecodeLoop, charAt_drop here, ok_bind]
    simp only [show ¬ ascii 'l' = ascii '%' by decide, show ¬ ascii 'l' = ascii '.' by decide,
      show isLength (ascii 'l') = true from rfl, readLength_spec here stops short fresh, ok_bind, Bool.not_false,
      Bool.true_and, Bool.false_and, decide_false, Bool.false_eq_true, if_false, if_true]
    exact later k (by omega)

/-- The precision: all digits from here on are read. -/
theorem decodes_precision {start i n : Nat} {digits rest : List UInt8} {firstPerc : Bool} (spec : PrintFmtSpec)
    {answer : Nat × PrintFmtSpec} (here : fmt.chars.drop (start + i) = ascii '.' :: (digits ++ rest))
    (nonempty : digits ≠ []) (digit : ∀ d ∈ digits, isdigit d = true) (stops : isdigit (rest.headD 0) = false)
    (fresh : spec.precision = 0)
    (later : Decodes fmt start (i + 1 + digits.length) false firstPerc
      { spec with precision := (decimal digits).toUInt8 } n answer) :
    Decodes fmt start i false firstPerc spec (n + 2) answer := by
  intro fuel enough
  obtain ⟨k, rfl⟩ : ∃ k, fuel = k + 2 := ⟨fuel - 2, by omega⟩
  have after : fmt.chars.drop (start + (i + 1)) = digits ++ rest := drop_next here
  have read := readPrecision_spec after nonempty digit stops fresh
  obtain ⟨d, ds, rfl⟩ := List.exists_cons_of_ne_nil nonempty
  have first := digit d (List.mem_cons_self ..)
  rw [formatDecodeLoop, charAt_drop here, ok_bind]
  simp only [show ¬ ascii '.' = ascii '%' by decide, Bool.not_false, Bool.true_and, decide_true, if_false, if_true]
  rw [formatDecodeLoop, charAt_drop after, ok_bind, if_neg (digit_apart first).2]
  simp only [first, read, ok_bind, Bool.not_true, Bool.false_and, Bool.true_and, Bool.false_eq_true, if_false,
    if_true]
  exact later k (by omega)

/-- The `%`. -/
theorem decodes_percent {start n : Nat} {rest : List UInt8} {spec : PrintFmtSpec} {answer : Nat × PrintFmtSpec}
    (here : fmt.chars.drop start = ascii '%' :: rest) (later : Decodes fmt start 1 false true spec n answer) :
    Decodes fmt start 0 false false spec (n + 1) answer := by
  intro fuel enough
  obtain ⟨k, rfl⟩ : ∃ k, fuel = k + 1 := ⟨fuel - 1, by omega⟩
  rw [formatDecodeLoop, Nat.add_zero, charAt_drop here, ok_bind, if_pos rfl]
  exact later k (by omega)

/-- Length and type, after the precision. -/
theorem decodes_lengthAndType {start i : Nat} (s : ConversionSpec) {rest : List UInt8} (precision : UInt8)
    (here : fmt.chars.drop (start + i) = List.replicate s.longs (ascii 'l') ++ s.letter :: rest) :
    Decodes fmt start i false true ⟨.unknown, .unknown, 0, precision⟩ (1 + s.longs)
      (i + s.longs + ((rest.takeWhile isType).length + 1), (s.letter :: rest.takeWhile isType).foldl
        (fun spec c => enterType c spec) ⟨.unknown, ConversionSpec.lengthOf s.longs, 0, precision⟩) := by
  have after : fmt.chars.drop (start + (i + s.longs)) = s.letter :: rest := by
    have := drop_add _ here
    rwa [List.length_replicate, Nat.add_assoc] at this
  exact decodes_length here (letter_apart s.known).2.2.2.1 s.short rfl (decodes_type _ after s.known)

/-- All of a specification. -/
theorem decodes_spec {start : Nat} (s : ConversionSpec) {rest : List UInt8}
    (here : fmt.chars.drop start = s.text ++ rest) :
    Decodes fmt start 0 false false .zero (s.text.length + 1)
      (s.text.length + (rest.takeWhile isType).length, (s.letter :: rest.takeWhile isType).foldl
        (fun spec c => enterType c spec)
          ⟨.unknown, ConversionSpec.lengthOf s.longs, 0, (decimal s.digits).toUInt8⟩) := by
  have tail : (List.replicate s.longs (ascii 'l') ++ [s.letter]) ++ rest =
      List.replicate s.longs (ascii 'l') ++ s.letter :: rest := by
    rw [List.append_assoc, List.singleton_append]
  intro fuel enough
  by_cases none : s.digits = []
  · have text : s.text = ascii '%' :: (List.replicate s.longs (ascii 'l') ++ [s.letter]) := by
      rw [ConversionSpec.text, ConversionSpec.precisionText, if_pos none, List.nil_append]
    have size : s.text.length = 1 + s.longs + 1 := by
      simp only [text, List.length_cons, List.length_append, List.length_replicate, List.length_nil]
      omega
    rw [text, List.cons_append, tail] at here
    have read := decodes_percent here (decodes_lengthAndType s 0 (drop_next here)) fuel (by omega)
    rw [show 1 + s.longs + ((rest.takeWhile isType).length + 1) =
      s.text.length + (rest.takeWhile isType).length by omega] at read
    rw [PrintFmtSpec.zero, read, none]
    rfl
  · have text : s.text = ascii '%' :: ascii '.' :: (s.digits ++ (List.replicate s.longs (ascii 'l') ++ [s.letter])) := by
      rw [ConversionSpec.text, ConversionSpec.precisionText, if_neg none, List.cons_append]
    have size : s.text.length = 1 + 1 + s.digits.length + s.longs + 1 := by
      simp only [text, List.length_cons, List.length_append, List.length_replicate, List.length_nil]
      omega
    rw [text, List.cons_append, List.cons_append, List.append_assoc, tail] at here
    have dot : fmt.chars.drop (start + 1) = _ := drop_next here
    have after := drop_add _ (drop_next dot)
    rw [Nat.add_assoc start, Nat.add_assoc start] at after
    -- what follows the digits is an `l` or the letter of the type
    have stops : isdigit ((List.replicate s.longs (ascii 'l') ++ s.letter :: rest).headD 0) = false := by
      cases s.longs with
      | zero => exact (letter_apart s.known).2.2.2.2
      | succ more => exact (show isdigit (ascii 'l') = false by decide +kernel)
    have later := decodes_precision .zero dot none s.digit stops rfl
      (decodes_lengthAndType s (decimal s.digits).toUInt8 after)
    have some_ := List.length_pos_iff.mpr none
    have read := decodes_percent here later fuel (by omega)
    rw [show 1 + 1 + s.digits.length + s.longs + ((rest.takeWhile isType).length + 1) =
      s.text.length + (rest.takeWhile isType).length by omega] at read
    exact read

/-- What is read at a specification: its characters and the letters of types behind it. -/
theorem formatDecode_spec {start : Nat} (s : ConversionSpec) {rest : List UInt8}
    (here : fmt.chars.drop start = s.text ++ rest) :
    formatDecode fmt start = .ok (s.text.length + (rest.takeWhile isType).length,
      if rest.takeWhile isType = [] then s.meaning else { s.meaning with type := .error }) := by
  have total := congrArg List.length here
  rw [List.length_drop, List.length_append] at total
  rw [formatDecode, decodes_spec s here (fmt.chars.length + 1) (by omega), List.foldl_cons,
    enterType_known s.known _ rfl]
  split_ifs with last
  · rw [last]
    rfl
  · rw [foldl_enterType_error _ _ (ConversionSpec.typeOf_ne s.letter).1 last]
    rfl

end Fields

/-! ## Format strings -/

theorem ConversionSpec.text_nonzero (s : ConversionSpec) : ∀ c ∈ s.text, c ≠ 0 := by
  have precision : ∀ c ∈ s.precisionText, c ≠ 0 := by
    unfold precisionText
    split_ifs with none
    · simp
    · intro c mem
      rcases List.mem_cons.mp mem with rfl | mem
      · decide
      · exact (digit_apart (s.digit c mem)).1
  intro c mem
  simp only [text, List.mem_cons, List.mem_append, List.mem_replicate, List.not_mem_nil, or_false] at mem
  rcases mem with rfl | mem | ⟨-, rfl⟩ | rfl
  · decide
  · exact precision c mem
  · decide
  · exact (letter_apart s.known).1

theorem itemsText_nonzero (items : List FormatItem) : ∀ c ∈ itemsText items, c ≠ 0 := by
  intro c mem
  obtain ⟨item, -, here⟩ := List.mem_flatMap.mp mem
  cases item with
  | ordinary d nonzero plain =>
    obtain rfl := List.mem_singleton.mp here
    exact nonzero
  | percent =>
    have each : ∀ c ∈ FormatItem.percent.text, c ≠ 0 := by decide +kernel
    exact each c here
  | spec s => exact s.text_nonzero c here

/-- The format string of a list of items. -/
def formatString (items : List FormatItem) : CString := ⟨itemsText items, itemsText_nonzero items⟩

/-- At each specification `format_decode` reads its characters and no others, and answers what it
says; that is never an error. -/
def DecodesGrammar (items : List FormatItem) : Prop :=
  ∀ before s after, items = before ++ .spec s :: after →
    formatDecode (formatString items) (itemsText before).length = .ok (s.text.length, s.meaning) ∧
      s.meaning.type ≠ .error ∧ s.meaning.length ≠ .error

/-- What comes behind a specification starts with the letter of a type exactly when it is an ordinary
one. -/
theorem takeWhile_isType_itemsText (after : List FormatItem) :
    (itemsText after).takeWhile isType ≠ [] ↔
      ∃ c nonzero plain rest, after = .ordinary c nonzero plain :: rest ∧ isType c = true := by
  cases after with
  | nil => simp [itemsText]
  | cons item rest =>
    cases item with
    | ordinary c nonzero plain =>
      have text : itemsText (.ordinary c nonzero plain :: rest) = c :: itemsText rest := rfl
      rw [text, List.takeWhile_cons]
      by_cases known : isType c = true
      · rw [if_pos known]
        exact ⟨fun _ => ⟨c, nonzero, plain, rest, rfl, known⟩, fun _ => List.cons_ne_nil _ _⟩
      · rw [if_neg known]
        constructor
        · intro absurd_
          exact absurd rfl absurd_
        · rintro ⟨d, _, _, _, same, letter⟩
          cases same
          exact absurd letter known
    | percent => simp [itemsText, FormatItem.text, List.takeWhile_cons, isType]; decide
    | spec s => simp [itemsText, FormatItem.text, ConversionSpec.text, List.takeWhile_cons, isType]; decide

theorem ConversionSpec.meaning_length_ne (s : ConversionSpec) : s.meaning.length ≠ .error := by
  show ConversionSpec.lengthOf s.longs ≠ .error
  unfold lengthOf
  split_ifs <;> simp

theorem formatDecode_item (before : List FormatItem) (s : ConversionSpec) (after : List FormatItem) :
    formatDecode (formatString (before ++ .spec s :: after)) (itemsText before).length =
      .ok (s.text.length + ((itemsText after).takeWhile isType).length,
        if (itemsText after).takeWhile isType = [] then s.meaning else { s.meaning with type := .error }) := by
  refine formatDecode_spec s ?_
  have joined : itemsText (before ++ .spec s :: after) = itemsText before ++ (s.text ++ itemsText after) := by
    rw [itemsText, List.flatMap_append, List.flatMap_cons]
    rfl
  show (itemsText (before ++ .spec s :: after)).drop _ = _
  rw [joined, List.drop_left]

/-- **The decoder and the grammar.** Every specification of a format string is decoded as the grammar
says exactly when none is directly followed by an ordinary character that is the letter of a type. -/
theorem format_decode_grammar_iff (items : List FormatItem) :
    DecodesGrammar items ↔ ∀ before s c nonzero plain after,
      items = before ++ .spec s :: .ordinary c nonzero plain :: after → isType c = false := by
  constructor
  · intro decodes before s c nonzero plain after split
    by_contra known
    have more : (itemsText (.ordinary c nonzero plain :: after)).takeWhile isType ≠ [] :=
      (takeWhile_isType_itemsText _).mpr ⟨c, nonzero, plain, after, rfl, by simpa using known⟩
    obtain ⟨answer, type, -⟩ := decodes before s _ split
    rw [split, formatDecode_item, if_neg more] at answer
    have same := congrArg PrintFmtSpec.type (Prod.mk.inj (Except.ok.inj answer)).2
    exact type same.symm
  · intro apart before s after split
    have last : (itemsText after).takeWhile isType = [] := by
      by_contra more
      obtain ⟨c, nonzero, plain, rest, rfl, known⟩ := (takeWhile_isType_itemsText after).mp more
      rw [apart before s c nonzero plain rest split] at known
      cases known
    refine ⟨?_, (ConversionSpec.typeOf_ne s.letter).2, s.meaning_length_ne⟩
    rw [split, formatDecode_item, if_pos last, last, List.length_nil, Nat.add_zero]

/-- `%d`. -/
def specD : ConversionSpec := ⟨[], 0, ascii 'd', by simp, fun none => absurd rfl none, by decide, rfl⟩

/-- `%dp` is `%d` and an ordinary `p`, but the two letters are read as one type. -/
theorem format_decode_reads_two_letters :
    ¬ DecodesGrammar [.spec specD, .ordinary (ascii 'p') (by decide) (by decide)] := by
  intro decodes
  have answer := (decodes [] specD _ rfl).1
  have read : formatDecode (formatString [.spec specD, .ordinary (ascii 'p') (by decide) (by decide)]) 0 =
      .ok (3, ⟨.error, .unknown, 10, 0⟩) := by decide +kernel
  have same := Except.ok.inj (read.symm.trans answer)
  exact absurd (congrArg Prod.fst same) (by decide)

end AlmeidaOS.Kernel
