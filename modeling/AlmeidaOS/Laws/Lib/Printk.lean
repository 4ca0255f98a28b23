import AlmeidaOS.Laws.Lib.FormatGrammar

/-!
# Format strings that print themselves

`printk` prints a text as it is when the text, taken as a format string, has no `%` and no tab and fits
the buffer (`printkText_of_plain`), and only then, if the arguments it finds are zero and point to
nothing (`printkText_eq_self_iff`): every specification prints fewer percent signs than it is written
with, a tab prints four blanks, and what is too long is stored behind the buffer.
-/

namespace AlmeidaOS.Kernel

/-! ## Ordinary characters -/

/-- What a text without specifications prints: a tab is four blanks. -/
def expandTabs (text : List UInt8) : List UInt8 :=
  text.flatMap fun c => if c = ascii '\t' then List.replicate 4 (ascii ' ') else [c]

theorem expandTabs_length (text : List UInt8) :
    (expandTabs text).length = text.length + 3 * text.count (ascii '\t') := by
  induction text with
  | nil => rfl
  | cons c text ih =>
    rw [expandTabs] at ih ⊢
    rw [List.flatMap_cons, List.length_append, ih, List.count_cons, List.length_cons]
    by_cases tab : c = ascii '\t'
    · simp only [tab, if_true, List.length_replicate, beq_self_eq_true]
      omega
    · simp only [if_neg tab, List.length_singleton, beq_iff_eq]
      omega

theorem expandTabs_eq_self_iff (text : List UInt8) : expandTabs text = text ↔ ascii '\t' ∉ text := by
  constructor
  · intro same
    have length := expandTabs_length text
    rw [same] at length
    rw [← List.count_eq_zero]
    omega
  · intro none
    rw [expandTabs]
    induction text with
    | nil => rfl
    | cons c text ih =>
      rw [List.mem_cons, not_or] at none
      rw [List.flatMap_cons, if_neg (Ne.symm none.1), ih none.2, List.singleton_append]

/-- Bytes stored after bytes are stored one after the other. -/
theorem Printer.store_store (p : Printer) (first second : List UInt8) (i n : Nat) :
    { ({ p.store first with readChars := p.readChars + first.length, i := n } : Printer).store second with
      i := i, readChars := p.readChars + first.length + second.length } =
    { p.store (first ++ second) with i := i, readChars := p.readChars + (first ++ second).length } := by
  simp only [store, List.length_append, Nat.add_assoc, List.append_assoc]
  rw [← List.zip_append (by rw [List.length_range']), List.range'_append_1]

/-- The loop copies what has no specification. -/
theorem vsnprintfLoop_plain {bufSize : Nat} {fmt : CString} {strings : Nat → CString} (plain : ascii '%' ∉ fmt.chars)
    {fuel : Nat} {p : Printer} (inside : p.i ≤ fmt.chars.length) (enough : fmt.chars.length - p.i < fuel) :
    vsnprintfLoop bufSize fmt strings fuel p = .ok { p.store (expandTabs (fmt.chars.drop p.i)) with
      i := fmt.chars.length, readChars := p.readChars + (expandTabs (fmt.chars.drop p.i)).length } := by
  induction fuel generalizing p with
  | zero => omega
  | succ fuel ih =>
    rw [vsnprintfLoop_succ, printStep, fmt.charAt_of_le inside, ok_bind]
    rcases Nat.lt_or_ge p.i fmt.chars.length with more | done
    · have mem := List.getElem_mem more
      rw [List.getD_eq_getElem _ _ more, List.drop_eq_getElem_cons more]
      generalize fmt.chars[p.i] = c at mem
      have ordinary : c ≠ ascii '%' := fun percent => plain (percent ▸ mem)
      rw [if_neg (fmt.nonzero c mem), if_neg ordinary, pure_eq_ok, ok_bind, if_pos rfl]
      rw [expandTabs, List.flatMap_cons, ← expandTabs, ← p.store_store _ _ _ (p.i + 1)]
      exact ih more (show fmt.chars.length - (p.i + 1) < fuel by omega)
    · have ends : p.i = fmt.chars.length := Nat.le_antisymm inside done
      have nothing : fmt.chars.drop p.i = [] := List.drop_of_length_le done
      rw [List.getD_eq_default _ _ done, if_pos rfl, nothing, ← ends]
      simp only [expandTabs, List.flatMap_nil, Printer.store, List.length_nil, List.range'_zero, List.zip_nil_left,
        List.append_nil, Nat.add_zero, pure_eq_ok, ok_bind, Bool.false_eq_true, if_false]

theorem vsnprintf_plain {fmt : CString} (plain : ascii '%' ∉ fmt.chars) (bufSize : Nat) (strings : Nat → CString)
    (args : VaList) :
    vsnprintf bufSize fmt strings args = .ok
      ((List.range' 0 (expandTabs fmt.chars).length).zip (expandTabs fmt.chars), (expandTabs fmt.chars).length) := by
  rw [vsnprintf, vsnprintfLoop_plain plain (Nat.zero_le _) (show fmt.chars.length - 0 < _ by omega), ok_bind]
  simp only [List.drop_zero, Printer.store, List.nil_append, Nat.zero_add, pure_eq_ok]

/-! ## The buffer -/

theorem foldl_set_zip (bytes : List UInt8) {start : Nat} {buf : List UInt8} (room : start + bytes.length ≤ buf.length) :
    ((List.range' start bytes.length).zip bytes).foldl (fun buf store => buf.set store.1 store.2) buf =
      overwrite buf start bytes := by
  induction bytes generalizing start buf with
  | nil => simp only [List.length_nil, List.range'_zero, List.zip_nil_left, List.foldl_nil, overwrite, List.append_nil,
      Nat.add_zero, List.take_append_drop]
  | cons b bytes ih =>
    rw [List.length_cons] at room
    rw [List.length_cons, List.range'_succ, List.zip_cons_cons, List.foldl_cons,
      ih (by rw [List.length_set]; omega)]
    have front : (buf.set start b).take (start + 1) = buf.take start ++ [b] := by
      rw [List.take_add_one, List.take_set_of_le (Nat.le_refl _), List.getElem?_set_self (by omega)]
      rfl
    have back : (buf.set start b).drop (start + 1 + bytes.length) = buf.drop (start + (bytes.length + 1)) := by
      rw [List.drop_set_of_lt (by omega), Nat.add_assoc, Nat.add_comm 1]
    simp only [overwrite, front, back, List.length_cons, List.append_assoc, List.cons_append,
      List.nil_append]

/-- A text without specifications is printed with its tabs expanded, when it fits the buffer. -/
theorem printkText_plain {fmt : CString} (plain : ascii '%' ∉ fmt.chars) (strings : Nat → CString) (args : VaList)
    (level : Nat) :
    printkText level level fmt strings args =
      if (expandTabs fmt.chars).length ≤ printkBufferSize then .ok (expandTabs fmt.chars) else .error .outOfBounds := by
  rw [printkText, printk, if_neg (Nat.lt_irrefl level), vsnprintf_plain plain]
  generalize expandTabs fmt.chars = bytes
  have stores : (∀ store ∈ (List.range' 0 bytes.length).zip bytes, store.1 < printkBufferSize) ↔
      bytes.length ≤ printkBufferSize := by
    have kept := store_mem_iff printkBufferSize ⟨0, 0, [], args⟩ bytes
    simp only [Printer.store, List.nil_append, List.not_mem_nil, false_implies, implies_true, true_and, Nat.zero_add] at kept
    rw [kept]
    omega
  simp only [ok_bind, pure_eq_ok, bufferAfter, stores, Nat.add_sub_cancel]
  by_cases fits : bytes.length ≤ printkBufferSize
  · have room : 0 + bytes.length ≤ (List.replicate printkBufferSize (0 : UInt8)).length := by
      rw [List.length_replicate]
      omega
    rw [if_pos fits, if_pos fits, ok_bind, if_neg (by omega), foldl_set_zip bytes room, overwrite, List.take_zero,
      List.nil_append, Nat.zero_add, List.take_left]
  · rw [if_neg fits, if_neg fits, error_bind]

/-- The text has no specification and no tab, and fits `printk`'s buffer. -/
def PrintsAsIs (text : List UInt8) : Prop :=
  ascii '%' ∉ text ∧ ascii '\t' ∉ text ∧ text.length ≤ printkBufferSize

instance (text : List UInt8) : Decidable (PrintsAsIs text) := inferInstanceAs (Decidable (_ ∧ _ ∧ _))

theorem printkText_of_plain {fmt : CString} (asIs : PrintsAsIs fmt.chars) (strings : Nat → CString) (args : VaList)
    (level : Nat) : printkText level level fmt strings args = .ok fmt.chars := by
  obtain ⟨plain, noTab, fits⟩ := asIs
  rw [printkText_plain plain, (expandTabs_eq_self_iff _).mpr noTab, if_pos fits]

/-! ## Percent signs -/

section Percent

variable {fmt : CString}

/-- What each letter keeps, the loop keeps. -/
theorem readWhile_keeps {P : PrintFmtSpec → Prop} {more : UInt8 → Bool} {enter : UInt8 → PrintFmtSpec → PrintFmtSpec}
    (step : ∀ c spec, P spec → P (enter c spec)) {start fuel readChars n : Nat} {c : UInt8} {spec spec' : PrintFmtSpec}
    (first : P (enter c spec)) (run : readWhile fmt more enter start fuel readChars c spec = .ok (n, spec')) :
    P spec' := by
  induction fuel generalizing readChars c spec with
  | zero => cases run
  | succ fuel ih =>
    obtain ⟨d, -, run⟩ := bind_eq_ok.mp run
    split at run
    · exact ih (step d _ first) run
    · cases run
      exact first

/-- A specification that prints a number, a character or a string. -/
def PrintFmtSpec.Converts (spec : PrintFmtSpec) : Prop := spec.base ≠ 0 ∨ spec.type = .char ∨ spec.type = .string

/-- The letters of a type are a conversion or an error. -/
theorem readType_converts {start n : Nat} {spec spec' : PrintFmtSpec} (letter : ∃ c, fmt.charAt start = .ok c ∧ isType c = true)
    (unknown : spec.type = .unknown) (run : readType fmt start spec = .ok (n, spec')) : spec'.Bad ∨ spec'.Converts := by
  obtain ⟨c, read, known⟩ := letter
  rw [readType, read, ok_bind] at run
  have kept := readWhile_keeps (P := fun spec => spec.type ≠ .unknown ∧ (spec.Bad ∨ spec.Converts)) ?_ ?_ run
  · exact kept.2
  · intro d spec entered
    rw [enterType, if_pos entered.1]
    exact ⟨by simp, .inl (.inl rfl)⟩
  · rw [enterType_known known spec unknown]
    refine ⟨(ConversionSpec.typeOf_ne c).1, .inr ?_⟩
    unfold PrintFmtSpec.Converts ConversionSpec.typeOf
    split_ifs <;> simp

theorem count_take_mono (c : UInt8) {l : List UInt8} {i j : Nat} (le : i ≤ j) : (l.take i).count c ≤ (l.take j).count c :=
  (List.take_sublist_take_left le).count_le c

/-- The percent signs among the characters of a specification, from `start` on. -/
def percentsRead (fmt : CString) (start n : Nat) : Nat := ((fmt.chars.drop start).take n).count (ascii '%')

theorem percentsRead_succ {start i : Nat} (read : fmt.charAt (start + i) = .ok (ascii '%')) :
    percentsRead fmt start (i + 1) = percentsRead fmt start i + 1 := by
  have inside := fmt.lt_of_charAt read (by decide)
  have here : fmt.chars[start + i]? = some (ascii '%') := by
    rw [fmt.charAt_of_le (Nat.le_of_lt inside), List.getD_eq_getElem _ _ inside] at read
    rw [List.getElem?_eq_getElem inside, Except.ok.inj read]
  rw [percentsRead, List.take_add_one, List.getElem?_drop, here, List.count_append]
  rfl

/-- A specification that converts nothing is written with two percent signs. -/
theorem formatDecodeLoop_percents {start fuel i n : Nat} {foundDot firstPerc : Bool} {spec spec' : PrintFmtSpec}
    (unknown : spec.type = .unknown) (first : firstPerc = true → 1 ≤ percentsRead fmt start i)
    (run : formatDecodeLoop fmt start fuel i foundDot firstPerc spec = .ok (n, spec')) :
    spec'.Bad ∨ spec'.Converts ∨ 2 ≤ percentsRead fmt start n := by
  induction fuel generalizing i foundDot firstPerc spec with
  | zero => cases run
  | succ fuel ih =>
    have later : ∀ k, firstPerc = true → 1 ≤ percentsRead fmt start (i + k) := fun k seen =>
      (first seen).trans (count_take_mono _ (Nat.le_add_right i k))
    have bad : ∀ {n spec'}, (pure (decodeError spec) : Outcome _) = .ok (n, spec') → spec'.Bad := by
      intro n spec' same
      cases same
      exact .inl rfl
    obtain ⟨c, read, run⟩ := bind_eq_ok.mp run
    split at run
    · rename_i percent
      rw [percent] at read
      have more := percentsRead_succ read
      split at run
      · exact ih unknown (fun _ => by omega) run
      · rename_i seen
        cases run
        have := first (by simpa using seen)
        exact .inr (.inr (by omega))
    · split at run
      · exact ih unknown (later 1) run
      · split at run
        · obtain ⟨⟨k, spec₁⟩, field, run⟩ := bind_eq_ok.mp run
          obtain ⟨d, -, field⟩ := bind_eq_ok.mp field
          have keeps : ∀ c spec, spec.type = .unknown → (enterDigit c spec).type = .unknown := fun _ _ same => same
          refine ih ?_ (later k) run
          exact readWhile_keeps (P := fun spec => spec.type = .unknown) keeps (keeps _ _ unknown) field
        · split at run
          · exact .inl (bad run)
          · split at run
            · obtain ⟨⟨k, spec₁⟩, field, run⟩ := bind_eq_ok.mp run
              obtain ⟨d, -, field⟩ := bind_eq_ok.mp field
              have keeps : ∀ c spec, spec.type = .unknown → (enterLength c spec).type = .unknown := by
                intro c spec same
                unfold enterLength
                split
                · split <;> exact same
                · exact same
              refine ih ?_ (later k) run
              exact readWhile_keeps (P := fun spec => spec.type = .unknown) keeps (keeps _ _ unknown) field
            · split at run
              · rename_i letter
                rw [Bool.and_eq_true] at letter
                obtain ⟨⟨k, spec₁⟩, field, run⟩ := bind_eq_ok.mp run
                cases run
                exact (readType_converts ⟨c, read, letter.2⟩ unknown field).imp_right .inl
              · exact .inl (bad run)

/-! ## What a specification prints for arguments that are zero -/

theorem count_overwrite_le (c : UInt8) (buf : List UInt8) (start : Nat) (bytes : List UInt8) :
    (overwrite buf start bytes).count c ≤ buf.count c + bytes.count c := by
  have split : buf.count c = (buf.take start).count c + (buf.drop start).count c := by
    rw [← List.count_append, List.take_append_drop]
  have rest : (buf.drop (start + bytes.length)).count c ≤ (buf.drop start).count c :=
    (List.drop_sublist_drop_left buf (Nat.le_add_right _ _)).count_le c
  rw [overwrite, List.count_append, List.count_append]
  omega

theorem ulltoa_zero_percents (radix : Nat) : (ulltoa 0 radix).count (ascii '%') = 0 := by
  unfold ulltoa
  split
  · rfl
  · rw [if_pos rfl]
    rfl

theorem lltoa_zero_percents (radix : Nat) : (lltoa 0 radix).count (ascii '%') = 0 := by
  unfold lltoa
  split
  · rfl
  · rw [if_pos rfl]
    rfl

/-- The percent signs of a conversion: one, if it converts nothing. -/
theorem convert_percents (bufSize : Nat) (spec : PrintFmtSpec) :
    (convert bufSize spec noStrings noArgs).args = noArgs ∧
      (convert bufSize spec noStrings noArgs).tmpBuf.count (ascii '%') ≤ 1 ∧
      (spec.Converts → (convert bufSize spec noStrings noArgs).tmpBuf.count (ascii '%') = 0) := by
  have blank : (List.replicate tmpBufSize (0 : UInt8)).count (ascii '%') = 0 := by
    rw [List.count_replicate, if_neg (by decide)]
  have written : ∀ bytes, (overwrite (List.replicate tmpBufSize 0) 0 bytes).count (ascii '%') ≤ bytes.count (ascii '%') := by
    intro bytes
    have := count_overwrite_le (ascii '%') (List.replicate tmpBufSize 0) 0 bytes
    omega
  -- what is written has no percent sign
  have clean : ∀ bytes : List UInt8, bytes.count (ascii '%') = 0 →
      (overwrite (List.replicate tmpBufSize 0) 0 bytes).count (ascii '%') = 0 := fun bytes none =>
    Nat.le_zero.mp (none ▸ written bytes)
  have both : ∀ {conv : Conversion}, conv.args = noArgs → conv.tmpBuf.count (ascii '%') = 0 →
      conv.args = noArgs ∧ conv.tmpBuf.count (ascii '%') ≤ 1 ∧ (spec.Converts → conv.tmpBuf.count (ascii '%') = 0) :=
    fun same none => ⟨same, by omega, fun _ => none⟩
  unfold convert
  split
  · rename_i base
    split
    · exact both rfl (clean _ (by decide))
    · split
      · exact both rfl (clean _ (by simp only [noStrings, List.take_nil, List.count_nil]))
      · rename_i notChar notString
        refine ⟨rfl, written _, fun converts => ?_⟩
        rcases converts with other | char | string
        · exact absurd base other
        · exact absurd char notChar
        · exact absurd string notString
  · split
    · have zero : vaUnsigned spec.length noArgs = (0, noArgs) := by
        unfold vaUnsigned
        split <;> rfl
      rw [zero]
      exact both rfl (clean _ (ulltoa_zero_percents _))
    · split
      · have zero : vaSigned spec.length noArgs = (0, noArgs) := by
          have none : noArgs.next.1 = 0 := rfl
          unfold vaSigned
          split
          · rw [none]
            exact Prod.ext (show toInt32 0 = 0 by decide) rfl
          · rw [none]
            exact Prod.ext (show Int.bmod 0 (2 ^ 64) = 0 from Int.zero_bmod) rfl
        rw [zero]
        exact both rfl (clean _ (lltoa_zero_percents _))
      · split
        · refine both rfl (Nat.le_zero.mp ?_)
          have := count_overwrite_le (ascii '%') (overwrite (List.replicate tmpBufSize 0) 0 [ascii '0', ascii 'x']) 2
            (ulltoa noArgs.next.1 spec.base)
          rwa [clean _ (by decide), show noArgs.next.1 = 0 from rfl, ulltoa_zero_percents] at this
        · refine both rfl (clean _ (Nat.le_zero.mp ?_))
          exact ((List.take_sublist _ _).count_le _).trans (by decide)

/-- The precision adds no percent sign. -/
theorem applyPrecision_percents (spec : PrintFmtSpec) (conv : Conversion) :
    (applyPrecision spec conv).2.args = conv.args ∧ (applyPrecision spec conv).1.count (ascii '%') = 0 ∧
      (applyPrecision spec conv).2.tmpBuf.count (ascii '%') ≤ conv.tmpBuf.count (ascii '%') := by
  have zeros : ∀ n, (List.replicate n (ascii '0')).count (ascii '%') = 0 := fun n => by
    rw [List.count_replicate, if_neg (by decide)]
  have nulls : ∀ n, (List.replicate n (0 : UInt8)).count (ascii '%') = 0 := fun n => by
    rw [List.count_replicate, if_neg (by decide)]
  simp only [applyPrecision]
  split_ifs
  · refine ⟨rfl, ?_, ?_⟩
    · rw [List.count_cons_of_ne (by decide), zeros]
    · exact count_overwrite_le _ _ _ _
  · exact ⟨rfl, zeros _, Nat.le_refl _⟩
  · exact ⟨rfl, rfl, Nat.le_refl _⟩
  · refine ⟨rfl, rfl, ?_⟩
    have := count_overwrite_le (ascii '%') conv.tmpBuf spec.precision.toNat (List.replicate spec.precision.toNat 0)
    rwa [nulls] at this
  · exact ⟨rfl, rfl, Nat.le_refl _⟩
  · exact ⟨rfl, rfl, Nat.le_refl _⟩
  · exact ⟨rfl, rfl, Nat.le_refl _⟩

theorem processFormat_percents (bufSize : Nat) (spec : PrintFmtSpec) :
    (processFormat bufSize spec noStrings noArgs).2.2 = noArgs ∧
      (processFormat bufSize spec noStrings noArgs).1.count (ascii '%') ≤ 1 ∧
      (spec.Converts → (processFormat bufSize spec noStrings noArgs).1.count (ascii '%') = 0) := by
  obtain ⟨args, one, none⟩ := convert_percents bufSize spec
  obtain ⟨args', padding, fewer⟩ := applyPrecision_percents spec (convert bufSize spec noStrings noArgs)
  simp only [processFormat, List.count_append, padding, Nat.zero_add]
  have cut := (List.take_sublist (min bufSize (applyPrecision spec (convert bufSize spec noStrings noArgs)).2.tmpBufIdx)
    (applyPrecision spec (convert bufSize spec noStrings noArgs)).2.tmpBuf).count_le (ascii '%')
  refine ⟨args'.trans args, by omega, fun converts => ?_⟩
  have := none converts
  omega

/-- The bytes stored so far. -/
def Printer.bytes (p : Printer) : List UInt8 := p.stores.map Prod.snd

theorem Printer.bytes_store (p : Printer) (bytes : List UInt8) (i n : Nat) (args : VaList) :
    ({ p.store bytes with i := i, readChars := n, args := args } : Printer).bytes = p.bytes ++ bytes := by
  simp only [Printer.bytes, Printer.store, List.map_append]
  rw [List.map_snd_zip (by rw [List.length_range'])]

/-- The percent signs that are stored, and those still to be read but one. No round adds to them. -/
def Printer.percents (fmt : CString) (p : Printer) : Nat :=
  p.bytes.count (ascii '%') + ((fmt.chars.drop p.i).count (ascii '%') - 1)

theorem count_drop_le (bytes : List UInt8) (i : Nat) (c : UInt8) :
    (bytes.drop i).count c ≤ (bytes.drop (i + 1)).count c + 1 := by
  rw [← List.tail_drop]
  cases bytes.drop i with
  | nil => exact Nat.zero_le _
  | cons b rest =>
    rw [List.count_cons, List.tail_cons]
    split
    · exact Nat.le_refl _
    · exact Nat.le_succ _

/-- The percent signs of a specification, and those behind it. -/
theorem percentsRead_add (fmt : CString) (i n : Nat) : (fmt.chars.drop i).count (ascii '%') =
    percentsRead fmt i n + (fmt.chars.drop (i + n)).count (ascii '%') := by
  rw [percentsRead, ← List.drop_drop, ← List.count_append, List.take_append_drop]

theorem drop_eq_cons {i : Nat} {c : UInt8} (read : fmt.charAt i = .ok c) (nonzero : c ≠ 0) :
    fmt.chars.drop i = c :: fmt.chars.drop (i + 1) := by
  have inside := fmt.lt_of_charAt read nonzero
  rw [fmt.charAt_of_le (Nat.le_of_lt inside), List.getD_eq_getElem _ _ inside] at read
  rw [List.drop_eq_getElem_cons inside, Except.ok.inj read]

/-- With arguments that are zero a conversion stores fewer percent signs than its specification has. -/
theorem conversion_percents (bufSize : Nat) {i n : Nat} {spec : PrintFmtSpec} (percent : fmt.charAt i = .ok (ascii '%'))
    (decode : formatDecode fmt i = .ok (n, spec)) (type : spec.type ≠ .error) (length : spec.length ≠ .error) :
    0 < n ∧ (processFormat bufSize spec noStrings noArgs).1.count (ascii '%') + 1 ≤ percentsRead fmt i n := by
  have inside := fmt.lt_of_charAt percent (by decide)
  obtain ⟨n', spec', decode', outcome⟩ := formatDecode_reads (Nat.le_of_lt inside)
  cases decode.symm.trans decode'
  have longer := outcome.resolve_left fun bad => bad.elim type length
  have signs := (formatDecodeLoop_percents rfl (fun no => absurd no (by decide)) decode).resolve_left
    fun bad => bad.elim type length
  have first : percentsRead fmt i (0 + 1) = percentsRead fmt i 0 + 1 := percentsRead_succ percent
  have more : percentsRead fmt i (0 + 1) ≤ percentsRead fmt i n := count_take_mono (ascii '%') longer.1
  obtain ⟨-, one, none⟩ := processFormat_percents bufSize spec
  refine ⟨longer.1, ?_⟩
  rcases signs with converts | two
  · have := none converts
    omega
  · omega

/-- A round leaves arguments that are zero, and no more percent signs. -/
theorem PrintStep.percents_le {bufSize : Nat} {p q : Printer} {more : Bool} (step : PrintStep bufSize fmt noStrings p q more)
    (args : p.args = noArgs) : q.args = noArgs ∧ q.percents fmt ≤ p.percents fmt := by
  unfold Printer.percents
  cases step with
  | ends => exact ⟨args, Nat.le_refl _⟩
  | @plain c read nonzero ordinary =>
    refine ⟨args, ?_⟩
    have none : (if c = ascii '\t' then List.replicate 4 (ascii ' ') else [c]).count (ascii '%') = 0 := by
      split
      · decide
      · rw [List.count_eq_zero, List.mem_singleton]
        exact Ne.symm ordinary
    rw [Printer.bytes_store, List.count_append, none, drop_eq_cons read nonzero, List.count_cons_of_ne ordinary]
    exact Nat.le_refl _
  | message percent _ =>
    refine ⟨args, ?_⟩
    have none : ((printkDecdErrorMsg ++ [0]).take (min (Word.sub bufSize p.readChars)
        (printkDecdErrorMsg.length + 1))).count (ascii '%') = 0 :=
      Nat.le_zero.mp (((List.take_sublist _ _).count_le _).trans (by decide +kernel))
    rw [Printer.bytes_store, List.count_append, none]
    exact Nat.le_refl _
  | @converts n spec more percent decode type length =>
    obtain ⟨longer, printed⟩ := conversion_percents (Word.sub bufSize p.readChars) percent decode type length
    rw [← args] at printed
    have left := percentsRead_add fmt p.i n
    -- after the last round the last character of the specification has not been skipped
    have ahead : (fmt.chars.drop (if more then p.i + (n - 1) + 1 else p.i + (n - 1))).count (ascii '%') ≤
        (fmt.chars.drop (p.i + n)).count (ascii '%') + 1 := by
      have last := count_drop_le fmt.chars (p.i + (n - 1)) (ascii '%')
      have behind : p.i + (n - 1) + 1 = p.i + n := by omega
      rw [behind] at last ⊢
      split
      · exact Nat.le_succ _
      · exact last
    refine ⟨?_, ?_⟩
    · rw [args]
      exact (processFormat_percents _ spec).1
    · rw [Printer.bytes_store, List.count_append]
      dsimp only
      omega

theorem vsnprintfLoop_percents {bufSize fuel : Nat} {p out : Printer} (args : p.args = noArgs)
    (run : vsnprintfLoop bufSize fmt noStrings fuel p = .ok out) : out.percents fmt ≤ p.percents fmt := by
  have kept := vsnprintfLoop_invariant (P := fun q => q.args = noArgs ∧ q.percents fmt ≤ p.percents fmt)
    (fun step ⟨args, le⟩ => ⟨(step.percents_le args).1, Nat.le_trans (step.percents_le args).2 le⟩) run ⟨args, Nat.le_refl _⟩
  exact kept.2

theorem count_foldl_set_le (c : UInt8) (stores : List (Nat × UInt8)) (buf : List UInt8) :
    (stores.foldl (fun buf store => buf.set store.1 store.2) buf).count c ≤
      buf.count c + (stores.map Prod.snd).count c := by
  induction stores generalizing buf with
  | nil => exact Nat.le_refl _
  | cons store stores ih =>
    have one : (buf.set store.1 store.2).count c ≤ buf.count c + if store.2 == c then 1 else 0 := by
      rcases Nat.lt_or_ge store.1 buf.length with inside | outside
      · rw [List.count_set inside]
        omega
      · rw [List.set_eq_of_length_le outside]
        exact Nat.le_add_right _ _
    have rest := ih (buf.set store.1 store.2)
    rw [List.foldl_cons, List.map_cons, List.count_cons]
    omega

/-- A text with a percent sign is not printed as it is. -/
theorem printkText_percents {level : Nat} {text : List UInt8} (percent : ascii '%' ∈ fmt.chars)
    (run : printkText level level fmt noStrings noArgs = .ok text) :
    text.count (ascii '%') < fmt.chars.count (ascii '%') := by
  rw [printkText, printk, if_neg (Nat.lt_irrefl level)] at run
  obtain ⟨sent, print, run⟩ := bind_eq_ok.mp run
  obtain ⟨⟨stores, bufPointer⟩, format, same⟩ := bind_eq_ok.mp print
  cases same
  obtain ⟨out, loop, same⟩ := bind_eq_ok.mp format
  cases same
  have stored := vsnprintfLoop_percents (p := ⟨0, 0, [], noArgs⟩) rfl loop
  obtain ⟨buffer, after, run⟩ := bind_eq_ok.mp run
  rw [bufferAfter] at after
  split at after
  · cases after
    dsimp only at run
    split at run
    · cases run
    · cases run
      have fewer := count_foldl_set_le (ascii '%') out.stores (List.replicate printkBufferSize 0)
      rw [List.count_replicate, if_neg (by decide), Nat.zero_add] at fewer
      have cut := (List.take_sublist (out.readChars + 1 - 1)
        (out.stores.foldl (fun buf store => buf.set store.1 store.2) (List.replicate printkBufferSize 0))).count_le (ascii '%')
      have pos : 0 < fmt.chars.count (ascii '%') := List.count_pos_iff.mpr percent
      rw [Printer.percents, Printer.percents, List.drop_zero, Printer.bytes,
        show Printer.bytes ⟨0, 0, [], noArgs⟩ = [] from rfl, List.count_nil] at stored
      omega
  · cases after

/-- **With arguments that are zero, a format string is printed as it is exactly when it has no
specification and no tab and fits the buffer.** -/
theorem printkText_eq_self_iff (level : Nat) :
    printkText level level fmt noStrings noArgs = .ok fmt.chars ↔ PrintsAsIs fmt.chars := by
  refine ⟨fun run => ?_, fun asIs => printkText_of_plain asIs _ _ _⟩
  have plain : ascii '%' ∉ fmt.chars := fun percent => Nat.lt_irrefl _ (printkText_percents percent run)
  rw [printkText_plain plain] at run
  split at run
  · rename_i fits
    have same := Except.ok.inj run
    exact ⟨plain, (expandTabs_eq_self_iff _).mp same, same ▸ fits⟩
  · cases run

end Percent

end AlmeidaOS.Kernel
