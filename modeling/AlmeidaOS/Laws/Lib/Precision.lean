import AlmeidaOS.Kernel.Lib.Vsnprintf
import AlmeidaOS.Laws.Lib.Numerals

/-!
# The precision of a number

`process_format` is meant to pad a number with zeros up to the precision. The label of that `case` is
`UNSIGNED_INT_DEC_TYPE || …`, which is 1 and so `LITERAL_TYPE`: no number ever reaches it, and a number
comes out in its own digits whatever the precision is (`processFormat_unsigned`).
-/

namespace AlmeidaOS.Kernel

/-- The specification that `format_decode` makes of a precision, the length `ll` and a type. -/
def llSpec (c : UInt8) (precision : UInt8) : PrintFmtSpec := enterType c ⟨.unknown, .longLong, 0, precision⟩

example : formatDecode ⟨asciiText "%.16llx", by decide +kernel⟩ 0 = .ok (7, llSpec (ascii 'x') 16) := by decide +kernel

/-- With room for all of it, `process_format` writes the number with zeros up to the precision in front
of it, returns how much that is and takes one argument. -/
def PadsWithZeros (c precision : UInt8) (v : Nat) : Prop :=
  ∀ bufSize strings (args : VaList), args.next.1 = v →
    max precision.toNat (numeral (llSpec c precision).base v).length ≤ bufSize →
    processFormat bufSize (llSpec c precision) strings args =
      (List.replicate (precision.toNat - (numeral (llSpec c precision).base v).length) (ascii '0') ++
          numeral (llSpec c precision).base v,
        max precision.toNat (numeral (llSpec c precision).base v).length, args.next.2)

section Unsigned

variable {c precision : UInt8}

/-- What the three types have in common: the type is none that the precision looks at. -/
theorem llSpec_unsigned (conversion : c = ascii 'u' ∨ c = ascii 'x' ∨ c = ascii 'o') (precision : UInt8) :
    let spec := llSpec c precision
    Supported spec.base ∧ spec.base ≠ 0 ∧ spec.length = .longLong ∧ spec.precision = precision ∧
      (spec.type = .unsignedIntDec ∨ spec.type = .unsignedIntOct ∨ spec.type = .unsignedIntHex) ∧
      spec.type.code ≠ numberCase ∧ spec.type.code ≠ PrintfType.string.code := by
  rcases conversion with rfl | rfl | rfl
  · refine ⟨.inr (.inl rfl), ?_⟩
    simp [llSpec, enterType, ascii, numberCase, PrintfType.code]
  · refine ⟨.inr (.inr rfl), ?_⟩
    simp [llSpec, enterType, ascii, numberCase, PrintfType.code]
  · refine ⟨.inl rfl, ?_⟩
    simp [llSpec, enterType, ascii, numberCase, PrintfType.code]

theorem overwrite_start {buf bytes : List UInt8} : overwrite buf 0 bytes = bytes ++ buf.drop bytes.length := by
  rw [overwrite, List.take_zero, List.nil_append, Nat.zero_add]

/-- The string in a buffer ends with the first NUL. -/
theorem strlen_append {text rest : List UInt8} (nonzero : ∀ c ∈ text, c ≠ 0) : strlen (text ++ 0 :: rest) = text.length := by
  rw [strlen, List.takeWhile_append_of_pos (by simpa using nonzero), List.takeWhile_cons_of_neg (by simp), List.append_nil]

theorem digitChar_ne_zero : ∀ d < 16, digitChar (d : Nat) ≠ 0 := by decide

/-- **The precision makes no difference to a number.** -/
theorem processFormat_unsigned (conversion : c = ascii 'u' ∨ c = ascii 'x' ∨ c = ascii 'o') (bufSize : Nat)
    (strings : Nat → CString) (args : VaList)
    (room : (numeral (llSpec c precision).base args.next.1).length ≤ bufSize) :
    processFormat bufSize (llSpec c precision) strings args =
      (numeral (llSpec c precision).base args.next.1, (numeral (llSpec c precision).base args.next.1).length,
        args.next.2) := by
  obtain ⟨supported, based, length, -, unsigned, notNumber, notString⟩ := llSpec_unsigned conversion precision
  generalize llSpec c precision = spec at *
  generalize written : numeral spec.base args.next.1 = text at *
  have nonzero : ∀ c ∈ text, c ≠ 0 := by
    intro c mem
    rw [← written] at mem
    obtain ⟨d, small, rfl⟩ := mem_numeral supported.two_le supported.le_sixteen mem
    exact digitChar_ne_zero d small
  have unchanged : ∀ conv, applyPrecision spec conv = ([], conv) := by
    intro conv
    simp [applyPrecision, notNumber, notString]
  simp only [processFormat, unchanged, convert, if_neg based, if_pos unsigned, vaUnsigned, length,
    ulltoa_eq supported, written, overwrite_start, List.append_assoc, List.singleton_append, strlen_append nonzero]
  rw [Nat.min_eq_right room, List.nil_append, List.take_left]

/-- **Zeros are padded exactly when none are needed**: when the precision is no more than the digits. -/
theorem precision_pads_iff (conversion : c = ascii 'u' ∨ c = ascii 'x' ∨ c = ascii 'o') {v : Nat}
    (word : v < 2 ^ 64) : PadsWithZeros c precision v ↔ precision.toNat ≤ (numeral (llSpec c precision).base v).length := by
  constructor
  · intro pads
    have value : (VaList.mk fun _ => v).next.1 = v := Nat.mod_eq_of_lt word
    have padded := pads _ (fun _ => ⟨[], by simp⟩) ⟨fun _ => v⟩ value (Nat.le_refl _)
    rw [processFormat_unsigned conversion _ _ _ (by rw [value]; exact Nat.le_max_right ..), value, Prod.mk.injEq,
      Prod.mk.injEq] at padded
    rw [padded.2.1]
    exact Nat.le_max_left ..
  · rintro enough bufSize strings args rfl room
    rw [Nat.max_eq_right enough] at room ⊢
    rw [processFormat_unsigned conversion _ _ _ room, Nat.sub_eq_zero_of_le enough]
    rfl

end Unsigned

/-- A word of sixteen hexadecimal digits. -/
theorem precision_pads_full_word : PadsWithZeros (ascii 'x') 16 (2 ^ 64 - 1) := by
  refine (precision_pads_iff (.inr (.inl rfl)) (by decide)).mpr ?_
  simp [numeral, llSpec, enterType, ascii]

/-- `%.16llx` of 1 is one digit and not sixteen. -/
theorem precision_not_padded :
    processFormat 1023 (llSpec (ascii 'x') 16) (fun _ => ⟨[], by simp⟩) ⟨fun _ => 1⟩ = ([ascii '1'], 1, ⟨fun _ => 1⟩) ∧
      ¬ PadsWithZeros (ascii 'x') 16 1 := by
  have digit : numeral 16 1 = [ascii '1'] := by
    simp [numeral, digitChar, ascii]
    decide
  have room : (numeral 16 1).length ≤ 1023 := by
    rw [digit]
    decide
  have short : processFormat 1023 (llSpec (ascii 'x') 16) (fun _ => ⟨[], by simp⟩) ⟨fun _ => 1⟩ =
      (numeral 16 1, (numeral 16 1).length, ⟨fun _ => 1⟩) :=
    processFormat_unsigned (.inr (.inl rfl)) 1023 (fun _ => ⟨[], by simp⟩) ⟨fun _ => 1⟩ room
  rw [digit] at short
  refine ⟨short, fun pads => ?_⟩
  have padded := pads 1023 (fun _ => ⟨[], by simp⟩) ⟨fun _ => 1⟩ rfl (by
    show max 16 (numeral 16 1).length ≤ 1023
    rw [digit]
    decide)
  rw [short, Prod.mk.injEq, Prod.mk.injEq] at padded
  have returned : 1 = max 16 (numeral 16 1).length := padded.2.1
  rw [digit] at returned
  exact absurd returned (by decide)

end AlmeidaOS.Kernel
