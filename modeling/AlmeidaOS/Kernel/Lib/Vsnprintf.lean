import AlmeidaOS.Base.Word
import AlmeidaOS.Kernel.Lib.String

/-!
# `kernel/lib/vsnprintf.c` and `printk.c`: formatted output

`vsnprintf` walks the format string, copies ordinary characters and has each conversion specification
decoded and processed. Its buffer is modelled by what is stored into it: the list of the indices and
bytes, in order. The scanner reads the format string by index and may read its terminating NUL but
nothing behind it. The arguments are an endless list of 64-bit words, since nothing tells how many
there are, and a word passed for `%s` is the address of a string.

The loops of the scanner run as often as the format string has characters, and once more.
-/

namespace AlmeidaOS.Kernel

/-- `enum printf_type`. -/
inductive PrintfType where
  | unknown
  | literal
  | signedInt
  | unsignedIntDec
  | unsignedIntHex
  | unsignedIntOct
  | char
  | string
  | pointer
  | error
deriving DecidableEq, Repr

/-- The value of the enumeration constant. -/
def PrintfType.code : PrintfType → Nat
  | .unknown => 0
  | .literal => 1
  | .signedInt => 2
  | .unsignedIntDec => 3
  | .unsignedIntHex => 4
  | .unsignedIntOct => 5
  | .char => 6
  | .string => 7
  | .pointer => 8
  | .error => 9

/-- `enum printf_length`. -/
inductive PrintfLength where
  | unknown
  | long
  | longLong
  | error
deriving DecidableEq, Repr

/-- `print_fmt_spec`. -/
structure PrintFmtSpec where
  type : PrintfType
  length : PrintfLength
  base : Nat
  precision : UInt8
deriving DecidableEq, Repr

/-- `print_fmt_spec spec = { 0 }`. -/
def PrintFmtSpec.zero : PrintFmtSpec := ⟨.unknown, .unknown, 0, 0⟩

/-! ## Decoding a specification -/

/-- `is_length`. -/
def isLength (c : UInt8) : Bool := c = ascii 'l'

/-- `is_type`. -/
def isType (c : UInt8) : Bool :=
  c = ascii 'd' || c = ascii 'i' || c = ascii 'u' || c = ascii 'x' || c = ascii 'o' || c = ascii 'c' ||
    c = ascii 's' || c = ascii 'p'

section Decode

variable (fmt : CString)

/-- The loop of `read_precision`, `read_length` and `read_type`, on the characters from `start` on:
each is entered into the specification, as long as there are more of the kind. -/
def readWhile (more : UInt8 → Bool) (enter : UInt8 → PrintFmtSpec → PrintFmtSpec) (start : Nat) :
    Nat → Nat → UInt8 → PrintFmtSpec → Outcome (Nat × PrintFmtSpec)
  | 0, _, _, _ => .error .outOfFuel
  | fuel + 1, readChars, c, spec => do
    let spec := enter c spec
    let readChars := readChars + 1
    let c ← fmt.charAt (start + readChars)
    if more c then readWhile more enter start fuel readChars c spec else pure (readChars, spec)

/-- `spec->precision = spec->precision * 10 + (c - '0')`, in eight bits. -/
def enterDigit (c : UInt8) (spec : PrintFmtSpec) : PrintFmtSpec :=
  { spec with precision := spec.precision * 10 + (c - ascii '0') }

/-- `read_precision`. -/
def readPrecision (start : Nat) (spec : PrintFmtSpec) : Outcome (Nat × PrintFmtSpec) := do
  let c ← fmt.charAt start
  readWhile fmt isdigit enterDigit start (fmt.chars.length + 1) 0 c spec

/-- One `l` of a length. -/
def enterLength (c : UInt8) (spec : PrintFmtSpec) : PrintFmtSpec :=
  if c = ascii 'l' then
    match spec.length with
    | .unknown => { spec with length := .long }
    | .long => { spec with length := .longLong }
    | _ => { spec with length := .error }
  else spec

/-- `read_length`. -/
def readLength (start : Nat) (spec : PrintFmtSpec) : Outcome (Nat × PrintFmtSpec) := do
  let c ← fmt.charAt start
  readWhile fmt isLength enterLength start (fmt.chars.length + 1) 0 c spec

/-- One letter of a type; a second one is an error. -/
def enterType (c : UInt8) (spec : PrintFmtSpec) : PrintFmtSpec :=
  if spec.type ≠ .unknown then { spec with type := .error }
  else if c = ascii 'd' ∨ c = ascii 'i' then { spec with type := .signedInt, base := 10 }
  else if c = ascii 'u' then { spec with type := .unsignedIntDec, base := 10 }
  else if c = ascii 'x' then { spec with type := .unsignedIntHex, base := 16 }
  else if c = ascii 'o' then { spec with type := .unsignedIntOct, base := 8 }
  else if c = ascii 'c' then { spec with type := .char, base := 0 }
  else if c = ascii 's' then { spec with type := .string, base := 0 }
  else if c = ascii 'p' then { spec with type := .pointer, base := 16 }
  else spec

/-- `read_type`. -/
def readType (start : Nat) (spec : PrintFmtSpec) : Outcome (Nat × PrintFmtSpec) := do
  let c ← fmt.charAt start
  readWhile fmt isType enterType start (fmt.chars.length + 1) 0 c spec

/-- `goto error`. -/
def decodeError (spec : PrintFmtSpec) : Nat × PrintFmtSpec := (0, { spec with length := .error, type := .error })

/-- The loop of `format_decode`, on the characters from `start` on. -/
def formatDecodeLoop (start : Nat) :
    Nat → Nat → Bool → Bool → PrintFmtSpec → Outcome (Nat × PrintFmtSpec)
  | 0, _, _, _, _ => .error .outOfFuel
  | fuel + 1, i, foundDot, firstPerc, spec => do
    let c ← fmt.charAt (start + i)
    if c = ascii '%' then
      if !firstPerc then formatDecodeLoop start fuel (i + 1) foundDot true spec
      else pure (i + 1, { spec with type := .literal })
    else if !foundDot && c = ascii '.' then formatDecodeLoop start fuel (i + 1) true firstPerc spec
    else if foundDot && isdigit c then do
      let (n, spec) ← readPrecision fmt (start + i) spec
      formatDecodeLoop start fuel (i + n) false firstPerc spec
    else if foundDot && !isdigit c then pure (decodeError spec)
    else if !foundDot && isLength c then do
      let (n, spec) ← readLength fmt (start + i) spec
      formatDecodeLoop start fuel (i + n) foundDot firstPerc spec
    else if !foundDot && isType c then do
      let (n, spec) ← readType fmt (start + i) spec
      pure (i + n, spec)
    else pure (decodeError spec)

/-- `format_decode` of `fmt + start`: the characters read and the specification. -/
def formatDecode (start : Nat) : Outcome (Nat × PrintFmtSpec) :=
  formatDecodeLoop fmt start (fmt.chars.length + 1) 0 false false .zero

end Decode

/-! ## Processing a specification -/

/-- `va_list`: the words still to be read. -/
structure VaList where
  word : Nat → Nat

/-- `va_arg`: the next word. -/
def VaList.next (args : VaList) : Nat × VaList := (args.word 0 % 2 ^ 64, ⟨fun n => args.word (n + 1)⟩)

/-- `va_arg(args, unsigned int)`, `unsigned long int` or `unsigned long long`. The caller has dealt
with a length that is an error. -/
def vaUnsigned (length : PrintfLength) (args : VaList) : Nat × VaList :=
  match length with
  | .unknown => (args.next.1 % 2 ^ 32, args.next.2)
  | _ => args.next

/-- `va_arg(args, int)`, `long int` or `long long int`. -/
def vaSigned (length : PrintfLength) (args : VaList) : Int × VaList :=
  match length with
  | .unknown => (toInt32 args.next.1, args.next.2)
  | _ => ((args.next.1 : Int).bmod (2 ^ 64), args.next.2)

/-- `sizeof(tmp_buf)`. -/
def tmpBufSize : Nat := 1024

/-- `memcpy(buf + at, bytes, …)` within a buffer. -/
def overwrite (buf : List UInt8) (start : Nat) (bytes : List UInt8) : List UInt8 :=
  buf.take start ++ bytes ++ buf.drop (start + bytes.length)

/-- `PRINTK_DECD_ERROR_MSG`. -/
def printkDecdErrorMsg : List UInt8 := asciiText "<FORMAT_DECODE_ERROR>"

/-- `PRINTK_PROC_ERROR_MSG`. -/
def printkProcErrorMsg : List UInt8 := asciiText "<FORMAT_PROCESS_ERROR>"

/-- The local variables of `process_format`: `tmp_buf`, `tmp_buf_idx`, `is_negative`, and the
arguments left. -/
structure Conversion where
  tmpBuf : List UInt8
  tmpBufIdx : Nat
  isNegative : Bool
  args : VaList

/-- The first half of `process_format`: the conversion, into `tmp_buf`. -/
def convert (bufSize : Nat) (spec : PrintFmtSpec) (strings : Nat → CString) (args : VaList) : Conversion :=
  let tmpBuf := List.replicate tmpBufSize 0
  if spec.base = 0 then
    if spec.type = .char then
      ⟨overwrite tmpBuf 0 [args.next.1.toUInt8], 1, false, args.next.2⟩
    else if spec.type = .string then
      let vaArr := strings args.next.1
      let idx := min tmpBufSize vaArr.chars.length
      ⟨overwrite tmpBuf 0 (vaArr.chars.take idx), idx, false, args.next.2⟩
    else ⟨overwrite tmpBuf 0 [ascii '%'], 1, false, args⟩
  else if spec.type = .unsignedIntDec ∨ spec.type = .unsignedIntOct ∨ spec.type = .unsignedIntHex then
    let (num, args) := vaUnsigned spec.length args
    let tmpBuf := overwrite tmpBuf 0 (ulltoa num spec.base)
    ⟨tmpBuf, strlen tmpBuf, false, args⟩
  else if spec.type = .signedInt then
    let (num, args) := vaSigned spec.length args
    let tmpBuf := overwrite tmpBuf 0 (lltoa num spec.base)
    ⟨tmpBuf, strlen tmpBuf, num < 0, args⟩
  else if spec.type = .pointer then
    let tmpBuf := overwrite tmpBuf 0 [ascii '0', ascii 'x']
    let tmpBuf := overwrite tmpBuf 2 (ulltoa args.next.1 spec.base)
    ⟨tmpBuf, strlen tmpBuf, false, args.next.2⟩
  else
    let errMsgLen := printkProcErrorMsg.length
    ⟨overwrite tmpBuf 0 ((printkProcErrorMsg ++ [0]).take (min bufSize (errMsgLen + 1))), errMsgLen, false, args⟩

/-- `UNSIGNED_INT_DEC_TYPE || UNSIGNED_INT_HEX_TYPE || UNSIGNED_INT_OCT_TYPE || SIGNED_INT_TYPE`, as the
label of a `case`. -/
def numberCase : Nat :=
  if PrintfType.unsignedIntDec.code ≠ 0 ∨ PrintfType.unsignedIntHex.code ≠ 0 ∨
    PrintfType.unsignedIntOct.code ≠ 0 ∨ PrintfType.signedInt.code ≠ 0 then 1 else 0

/-- The second half of `process_format`: what the precision makes of a conversion. The bytes are those
stored one by one, with `*(buf++)`. -/
def applyPrecision (spec : PrintFmtSpec) (conv : Conversion) : List UInt8 × Conversion :=
  let precision := spec.precision.toNat
  if precision > 0 then
    if spec.type.code = numberCase then
      if precision > conv.tmpBufIdx then
        let leftPointer := precision - conv.tmpBufIdx
        if conv.isNegative then
          (ascii '-' :: List.replicate (leftPointer - 1) (ascii '0'),
            { conv with tmpBuf := overwrite conv.tmpBuf 0 [ascii '0'], tmpBufIdx := precision })
        else (List.replicate leftPointer (ascii '0'), { conv with tmpBufIdx := precision })
      else ([], conv)
    else if spec.type.code = PrintfType.string.code then
      if precision < conv.tmpBufIdx then
        ([], { conv with
          tmpBuf := overwrite conv.tmpBuf precision (List.replicate precision 0)
          tmpBufIdx := precision })
      else ([], conv)
    else ([], conv)
  else ([], conv)

/-- `process_format`: the bytes stored from `buf` on, the value returned, and the arguments left. -/
def processFormat (bufSize : Nat) (spec : PrintFmtSpec) (strings : Nat → CString) (args : VaList) :
    List UInt8 × Nat × VaList :=
  let (padding, conv) := applyPrecision spec (convert bufSize spec strings args)
  (padding ++ conv.tmpBuf.take (min bufSize conv.tmpBufIdx), conv.tmpBufIdx, conv.args)

/-! ## `vsnprintf` -/

/-- The state of `vsnprintf`: its indices into the format string and the buffer, what it has stored,
and the arguments left. -/
structure Printer where
  i : Nat
  readChars : Nat
  stores : List (Nat × UInt8)
  args : VaList

/-- Bytes stored from `buf + readChars` on. -/
def Printer.store (p : Printer) (bytes : List UInt8) : Printer :=
  { p with stores := p.stores ++ (List.range' p.readChars bytes.length).zip bytes }

/-- An iteration of the loop of `vsnprintf`: the state after it, and whether there is another one. -/
def printStep (bufSize : Nat) (fmt : CString) (strings : Nat → CString) (p : Printer) : Outcome (Printer × Bool) := do
  let c ← fmt.charAt p.i
  if c = 0 then pure (p, false)
  else if c = ascii '%' then do
    let (read, spec) ← formatDecode fmt p.i
    if spec.type ≠ .error ∧ spec.length ≠ .error then
      -- `read - 1` is an `int`
      if read - 1 < 2 ^ 31 then
        let (bytes, n, args) := processFormat (Word.sub bufSize p.readChars) spec strings p.args
        let p := { p.store bytes with i := p.i + (read - 1), readChars := p.readChars + n, args := args }
        if p.readChars = bufSize then pure (p, false) else pure ({ p with i := p.i + 1 }, true)
      else .error .overflow
    else
      let errMsgLen := printkDecdErrorMsg.length
      let bytes := (printkDecdErrorMsg ++ [0]).take (min (Word.sub bufSize p.readChars) (errMsgLen + 1))
      pure ({ p.store bytes with readChars := p.readChars + errMsgLen }, false)
  else
    let bytes := if c = ascii '\t' then List.replicate 4 (ascii ' ') else [c]
    pure ({ p.store bytes with readChars := p.readChars + bytes.length, i := p.i + 1 }, true)

/-- The loop of `vsnprintf`. -/
def vsnprintfLoop (bufSize : Nat) (fmt : CString) (strings : Nat → CString) : Nat → Printer → Outcome Printer
  | 0, _ => .error .outOfFuel
  | fuel + 1, p => do
    let (p, more) ← printStep bufSize fmt strings p
    if more then vsnprintfLoop bufSize fmt strings fuel p else pure p

/-- `vsnprintf`: the stores into the buffer, and the value returned. -/
def vsnprintf (bufSize : Nat) (fmt : CString) (strings : Nat → CString) (args : VaList) :
    Outcome (List (Nat × UInt8) × Nat) := do
  let p ← vsnprintfLoop bufSize fmt strings (fmt.chars.length + 1) ⟨0, 0, [], args⟩
  pure (p.stores, p.readChars)

/-! ## `printk` -/

/-- The size of `buffer`. -/
def printkBufferSize : Nat := 1024

/-- `printk`: the stores into `buffer`, and how many of its bytes are sent to the console and to the
serial port; nothing when the level is not logged. -/
def printk (loggingLevel level : Nat) (fmt : CString) (strings : Nat → CString) (args : VaList) :
    Outcome (Option (List (Nat × UInt8) × Nat × Nat)) := do
  if level > loggingLevel then pure none
  else
    let (stores, bufPointer) ← vsnprintf (printkBufferSize - 1) fmt strings args
    pure (some (stores, bufPointer + 1, bufPointer))

/-- What the stores leave in a buffer of zeros; one outside of it has no meaning. -/
def bufferAfter (size : Nat) (stores : List (Nat × UInt8)) : Outcome (List UInt8) :=
  if ∀ store ∈ stores, store.1 < size then
    .ok (stores.foldl (fun buf store => buf.set store.1 store.2) (List.replicate size 0))
  else .error .outOfBounds

/-- The text `printk` sends to the console: `write_console` reads all bytes it is given but the last. -/
def printkText (loggingLevel level : Nat) (fmt : CString) (strings : Nat → CString) (args : VaList) :
    Outcome (List UInt8) := do
  match ← printk loggingLevel level fmt strings args with
  | none => pure []
  | some (stores, bufSize, _) =>
    let buffer ← bufferAfter printkBufferSize stores
    if bufSize - 1 > printkBufferSize then throw .outOfBounds
    pure (buffer.take (bufSize - 1))

end AlmeidaOS.Kernel
