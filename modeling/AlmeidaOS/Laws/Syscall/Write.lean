import AlmeidaOS.Kernel.Syscall.Write
import AlmeidaOS.Laws.Lib.Printk
import AlmeidaOS.Laws.Mm.Kmem

/-!
# What `sys_write` prints

The user's bytes are all that `sys_write` prints, and the same bytes whatever the kernel's memory and
registers hold, for the strings that end, have no specification and no tab before their end, and fit
the buffer of `printk`; and for no others (`sys_write_prints_iff`). A string without a NUL is printed
together with what an earlier owner left behind it in the heap, and a `%` prints what happens to be in
a register.
-/

namespace AlmeidaOS.Kernel

/-! ## Printing the user's bytes -/

/-- A string in user space. -/
structure UserString where
  addr : Nat
  bytes : List UInt8
  nonNull : addr ≠ 0
  some : bytes ≠ []
  low : addr + bytes.length ≤ 2 ^ 47

/-- The bytes up to the first NUL, or all of them. -/
def UserString.text (string : UserString) : List UInt8 := string.bytes.takeWhile (· ≠ 0)

namespace WriteState

/-- The task's memory holds the string. -/
def Holds (s : WriteState) (string : UserString) : Prop :=
  ∀ i, i < string.bytes.length → s.user (string.addr + i) = string.bytes.getD i 0

/-- `kmalloc` has a block of this length. -/
def Serves (shiftBits : Nat) (s : WriteState) (length : Nat) : Prop :=
  ∃ fuel r, kmalloc shiftBits fuel s.kernel length kmemDefault = .ok r

/-- `sys_write` sends the text to the console. -/
def Sends (shiftBits : Nat) (s : WriteState) (string : UserString) (text : List UInt8) : Prop :=
  ∃ fuel content kernel,
    sysWritePrint shiftBits fuel s string.addr string.bytes.length = .ok (content, kernel, text)

end WriteState

/-- In any two states that hold the string, `sys_write` sends the same text: the user's bytes. -/
def PrintsUserBytes (shiftBits : Nat) (string : UserString) : Prop :=
  ∀ s s' : WriteState, s.Holds string → s'.Holds string → s.Serves shiftBits string.bytes.length →
    s'.Serves shiftBits string.bytes.length →
    ∃ text, s.Sends shiftBits string text ∧ s'.Sends shiftBits string text ∧ text = string.text

/-- The string ends, and up to its end it is printed as it is. -/
structure UserString.Harmless (string : UserString) : Prop where
  ended : 0 ∈ string.bytes
  asIs : PrintsAsIs string.text

/-! ## Reading the copy -/

theorem cstringAt_of_spells {m : Mem} (spelled : List UInt8) (ended : 0 ∈ spelled) (left : Nat) {a : Nat}
    (here : ∀ i, i < spelled.length → m (a + i) = spelled.getD i 0) (room : spelled.length ≤ left) :
    ∃ str, cstringAt m left a = .ok str ∧ str.chars = spelled.takeWhile (· ≠ 0) := by
  induction spelled generalizing left a with
  | nil => cases ended
  | cons c spelled ih =>
    have first : m a = c := here 0 (Nat.succ_pos _)
    rw [List.length_cons] at room
    obtain ⟨left, rfl⟩ : ∃ n, left = n + 1 := ⟨left - 1, by omega⟩
    rw [cstringAt]
    by_cases null : m a = 0
    · rw [dif_pos null]
      exact ⟨_, rfl, by rw [List.takeWhile_cons_of_neg (by simp [← first, null])]⟩
    · have later : 0 ∈ spelled := (List.mem_cons.mp ended).resolve_left fun same => null (by rw [first, ← same])
      obtain ⟨rest, read, chars⟩ := ih later left (a := a + 1)
        (fun i inside => by
          have := here (i + 1) (Nat.succ_lt_succ inside)
          rwa [List.getD_cons_succ, ← Nat.add_assoc, Nat.add_right_comm] at this)
        (by omega)
      rw [dif_neg null, read, ok_bind]
      refine ⟨_, rfl, ?_⟩
      rw [List.takeWhile_cons_of_pos (by simp [← first, null]), ← chars, ← first]

section

variable {shiftBits fuel content : Nat} {s : WriteState} {string : UserString} {kernel : KernelMem}

/-- `sys_write` prints the string it finds in the block. -/
theorem sysWritePrint_eq (holds : s.Holds string)
    (alloc : kmalloc shiftBits fuel s.kernel string.bytes.length kmemDefault = .ok (content, kernel)) :
    sysWritePrint shiftBits fuel s string.addr string.bytes.length =
      (cstringAt (kernel.mem.write (linear content) string.bytes) (2 ^ 64 - linear content) (linear content) >>= fun fmt =>
        printkText printkInfoLevel printkInfoLevel fmt s.strings s.args >>= fun text =>
          .ok (content, { kernel with mem := kernel.mem.write (linear content) string.bytes }, text)) := by
  have bytes : (List.range string.bytes.length).map (fun i => s.user (string.addr + i)) = string.bytes := by
    refine List.ext_getElem (by rw [List.length_map, List.length_range]) fun i _ inside => ?_
    rw [List.getElem_map, List.getElem_range, holds i inside, List.getD_eq_getElem _ _ inside]
  have sane : ¬(string.bytes.length = 0 ∨ string.addr = 0) := by
    rintro (none | null)
    · exact string.some (List.length_eq_zero_iff.mp none)
    · exact string.nonNull null
  rw [sysWritePrint, bugOn_of_not sane, ok_bind, alloc, ok_bind]
  simp only [bytes]
  rfl

theorem kmalloc_linear_le (alloc : kmalloc shiftBits fuel s.kernel string.bytes.length kmemDefault = .ok (content, kernel)) :
    linear content ≤ 2 ^ 48 := by
  obtain ⟨⟨p, header⟩, -, rest⟩ := bind_eq_ok.mp alloc
  obtain ⟨ptr, address, rest⟩ := bind_eq_ok.mp rest
  have low := linear_va address
  rw [va, bugOn_bind_eq_ok, show physAddrMaxBoundary = 2 ^ 48 - 1 by decide] at address
  rw [if_pos (by decide)] at rest
  obtain ⟨⟨mem, pgtable⟩, -, same⟩ := bind_eq_ok.mp rest
  cases same
  omega

theorem kmalloc_of_sysWritePrint {addr length : Nat} {r : Nat × KernelMem × List UInt8}
    (run : sysWritePrint shiftBits fuel s addr length = .ok r) :
    ∃ content kernel, kmalloc shiftBits fuel s.kernel length kmemDefault = .ok (content, kernel) := by
  rw [sysWritePrint, bugOn_bind_eq_ok] at run
  obtain ⟨⟨content, kernel⟩, alloc, -⟩ := bind_eq_ok.mp run.2
  exact ⟨content, kernel, alloc⟩

/-- A harmless string is printed as it is, with the block it is copied to. -/
theorem UserString.Harmless.sysWritePrint_eq (harmless : string.Harmless) (holds : s.Holds string)
    (alloc : kmalloc shiftBits fuel s.kernel string.bytes.length kmemDefault = .ok (content, kernel)) :
    sysWritePrint shiftBits fuel s string.addr string.bytes.length =
      .ok (content, { kernel with mem := kernel.mem.write (linear content) string.bytes }, string.text) := by
  have low := string.low
  have inside := kmalloc_linear_le alloc
  obtain ⟨fmt, read, chars⟩ := cstringAt_of_spells string.bytes harmless.ended (2 ^ 64 - linear content)
    (m := kernel.mem.write (linear content) string.bytes)
    (fun i inside => Mem.write_byte_inside inside) (by omega)
  have asIs : PrintsAsIs fmt.chars := chars ▸ harmless.asIs
  rw [Kernel.sysWritePrint_eq holds alloc, read, ok_bind, printkText_of_plain asIs, ok_bind, chars, UserString.text]

theorem UserString.Harmless.sends (harmless : string.Harmless) (holds : s.Holds string)
    (serves : s.Serves shiftBits string.bytes.length) : s.Sends shiftBits string string.text := by
  obtain ⟨fuel, ⟨content, kernel⟩, alloc⟩ := serves
  exact ⟨fuel, content, _, harmless.sysWritePrint_eq holds alloc⟩

/-- `sys_write` sends what its `printk_info` sends, and then gives the block back. -/
theorem sysWrite_eq_ok {addr length result : Nat} {text : List UInt8} :
    sysWrite shiftBits fuel s addr length = .ok (result, kernel, text) ↔
      result = length ∧ ∃ content printed,
        sysWritePrint shiftBits fuel s addr length = .ok (content, printed, text) ∧
          kfree fuel printed content = .ok kernel := by
  constructor
  · intro run
    obtain ⟨⟨content, printed, sent⟩, print, rest⟩ := bind_eq_ok.mp run
    obtain ⟨freed, free, same⟩ := bind_eq_ok.mp rest
    cases same
    exact ⟨rfl, content, printed, print, free⟩
  · rintro ⟨rfl, content, printed, print, free⟩
    rw [sysWrite, print, ok_bind]
    dsimp only
    rw [free, ok_bind]
    rfl

/-- A whole `sys_write` of a harmless string answers its length and has sent its text. -/
theorem UserString.Harmless.answers (harmless : string.Harmless) (holds : s.Holds string) {result : Nat}
    {text : List UInt8} (run : sysWrite shiftBits fuel s string.addr string.bytes.length = .ok (result, kernel, text)) :
    result = string.bytes.length ∧ text = string.text := by
  obtain ⟨answer, content, printed, print, -⟩ := sysWrite_eq_ok.mp run
  obtain ⟨content, allocated, alloc⟩ := kmalloc_of_sysWritePrint print
  rw [harmless.sysWritePrint_eq holds alloc] at print
  cases print
  exact ⟨answer, rfl⟩

end

/-! ## A state with any heap -/

/-- Memory without a page-table entry that is empty, with one byte of choice behind a block and a NUL
behind that. -/
def pavedMem (block length : Nat) (after : UInt8) : Mem :=
  ⟨fun a => if a = block + length then after else if a = block + length + 1 then 0 else 1⟩

/-- Where the block is. -/
def pavedBlock : Nat := 2 ^ 42

/-- An allocator with a single free block, of the order that serves the request. -/
def pavedKernel (length : Nat) (after : UInt8) : KernelMem :=
  let order := Grant.order ⟨pavedBlock, length⟩
  let alloc : BuddyRef := ⟨⟨0, 16 * 2 ^ (order - 11), 0⟩, ⟨pavedBlock, 2 ^ order, 0⟩, order, 12⟩
  { alloc := alloc
    header := Header.write ⟨fun _ => .zero⟩ (gotoPorderIdx alloc order) ⟨pavedBlock, order, .unused⟩
    mem := pavedMem pavedBlock length after
    pgtable := ⟨0, virtAddrKernelStart, ⟨0, 0⟩⟩ }

/-- The state with this kernel, the string in user space, and nothing but zeros for arguments. -/
def pavedState (string : UserString) (after : UInt8) : WriteState where
  kernel := pavedKernel string.bytes.length after
  user := ⟨fun a => string.bytes.getD (a - string.addr) 0⟩
  args := noArgs
  strings := noStrings

theorem pavedState_holds (string : UserString) (after : UInt8) : (pavedState string after).Holds string := by
  intro i _
  show string.bytes.getD (string.addr + i - string.addr) 0 = _
  rw [Nat.add_sub_cancel_left]

section Paved

variable {m : Mem}

/-- An entry has eight bytes, and of any eight at least one is not among the two chosen. -/
theorem pavedMem_load64 (block length : Nat) (after : UInt8) (a : Nat) : (pavedMem block length after).load64 a ≠ 0 := by
  intro zero
  have bytes := Mem.load_eq_zero_iff.mp zero
  have one : ∀ x, x ≠ block + length → x ≠ block + length + 1 → (pavedMem block length after) x = 1 := by
    intro x first second
    show (if _ then _ else _) = _
    rw [if_neg first, if_neg second]
  have ne : ∀ x, a ≤ x → x < a + 8 → x = block + length ∨ x = block + length + 1 := by
    intro x lower upper
    by_contra neither
    rw [not_or] at neither
    have null := bytes x lower upper
    rw [one x neither.1 neither.2] at null
    exact absurd null (by decide)
  have := ne a (by omega) (by omega)
  have := ne (a + 1) (by omega) (by omega)
  have := ne (a + 2) (by omega) (by omega)
  omega

theorem nextTable_returns (shiftBits : Nat) (m : Mem) (slot : Nat) : ∃ table, nextTable shiftBits m slot = .ok table := by
  have small : entryBaseAddr (m.load64 (linear slot)) <<< pageShift % 2 ^ shiftBits < 2 ^ 48 := by
    refine Nat.lt_of_le_of_lt (Nat.mod_le _ _) ?_
    rw [Nat.shiftLeft_eq, show (2 : Nat) ^ 48 = 2 ^ 36 * 2 ^ pageShift by decide]
    exact (Nat.mul_lt_mul_right (by decide)).mpr (Nat.mod_lt _ (by decide))
  rw [nextTable, va, bugOn_of_not (by rw [show physAddrMaxBoundary = 2 ^ 48 - 1 by decide]; omega)]
  exact ⟨_, rfl⟩

/-- Where no entry is empty, `page_alloc` changes nothing. -/
theorem pageAlloc_paved (full : ∀ a, m.load64 a ≠ 0) (shiftBits : Nat) (pgtable : PageTable) (vAddr pDestAddr flags : Nat) :
    pageAlloc shiftBits m pgtable vAddr pDestAddr flags = .ok (m, pgtable) := by
  have taken : ∀ slot, isPageEntryEmpty m slot = false := fun slot => by
    rw [isPageEntryEmpty, decide_eq_false_iff_not]
    exact full _
  have ensured : ∀ pfdb slot, ensureTable m pfdb slot flags = .ok (m, pfdb) := fun pfdb slot => by
    rw [ensureTable, taken, if_neg (by decide)]
    rfl
  rw [pageAlloc]
  simp only [ensured, ok_bind]
  obtain ⟨pdp, next⟩ := nextTable_returns shiftBits m (entrySlot pgtable.virtRoot (pml4e vAddr))
  rw [next, ok_bind]
  obtain ⟨pd, next⟩ := nextTable_returns shiftBits m (entrySlot pdp (pdpte vAddr))
  rw [next, ok_bind]
  obtain ⟨pt, next⟩ := nextTable_returns shiftBits m (entrySlot pd (pde vAddr))
  rw [next, ok_bind, taken, if_neg (by decide)]
  rfl

theorem pagingContiguousMap_paved_same (full : ∀ a, m.load64 a ≠ 0) {shiftBits flags fuel : Nat} {pgtable : PageTable}
    {p q v : Nat} {r : Mem × PageTable} (run : pagingContiguousMap shiftBits flags fuel m pgtable p q v = .ok r) :
    r.1 = m := by
  induction fuel generalizing p v with
  | zero => cases run
  | succ fuel ih =>
    rw [pagingContiguousMap] at run
    split at run
    · rw [pageAlloc_paved full, ok_bind] at run
      exact ih run
    · cases run
      rfl

theorem pagingContiguousMap_paved_returns (full : ∀ a, m.load64 a ≠ 0) (shiftBits flags : Nat) (pgtable : PageTable)
    {n p q v : Nat} (last : q < p + n * 4096) (word : p + n * 4096 < 2 ^ 64) :
    pagingContiguousMap shiftBits flags (n + 1) m pgtable p q v = .ok (m, pgtable) := by
  induction n generalizing p v with
  | zero =>
    rw [pagingContiguousMap, if_neg (by omega)]
  | succ n ih =>
    rw [pagingContiguousMap]
    split
    · rw [pageAlloc_paved full, ok_bind]
      have bound : p + 4096 < 2 ^ 64 := by omega
      have next : Word.add p pageSize = p + 4096 := Word.add_of_lt bound
      dsimp only
      rw [next]
      exact ih (by omega) (by omega)
    · rfl

end Paved

section PavedAlloc

variable {length : Nat} (after : UInt8)

theorem paved_order (small : length < 2 ^ 47) : 12 ≤ Grant.order ⟨pavedBlock, length⟩ ∧
    length ≤ 2 ^ Grant.order ⟨pavedBlock, length⟩ ∧ Grant.order ⟨pavedBlock, length⟩ ≤ 47 := by
  have least := Grant.order_least ⟨pavedBlock, length⟩
  exact ⟨least.1.1, least.1.2, least.2 ⟨by decide, Nat.le_of_lt small⟩⟩

theorem pavedKernel_sized (small : length < 2 ^ 47) : Sized (pavedKernel length after).alloc := by
  obtain ⟨low, fits, high⟩ := paved_order small
  have content : 2 ^ Grant.order ⟨pavedBlock, length⟩ ≤ 2 ^ 47 := Nat.pow_le_pow_right (by decide) high
  have header : 2 ^ (Grant.order ⟨pavedBlock, length⟩ - 11) ≤ 2 ^ 36 := Nat.pow_le_pow_right (by decide) (by omega)
  refine ⟨rfl, low, by show Grant.order _ < 64; omega, rfl, ?_, ?_⟩
  · show pavedBlock + 2 ^ Grant.order _ ≤ 2 ^ 64
    unfold pavedBlock at *
    omega
  · show 0 + 16 * 2 ^ (Grant.order _ - 11) ≤ 2 ^ 64
    omega

/-- The single block is given out. -/
theorem pavedKernel_buddyAlloc (pos : length ≠ 0) (small : length < 2 ^ 47) (fuel : Nat) :
    ∃ header, buddyAlloc (pavedKernel length after).alloc (fuel + 1) (pavedKernel length after).header length =
      .ok (pavedBlock, header) := by
  obtain ⟨low, fits, high⟩ := paved_order small
  have sized := pavedKernel_sized after small
  obtain ⟨least, -⟩ := allocOrder_eq sized pos fits
  have order : allocOrder (pavedKernel length after).alloc length = Grant.order ⟨pavedBlock, length⟩ :=
    least.unique (Grant.order_least ⟨pavedBlock, length⟩)
  have fitting : ¬(length = 0 ∨ length > (pavedKernel length after).alloc.contentMemReg.length) := by
    rintro (none | large)
    · exact pos none
    · exact absurd fits (Nat.not_le.mpr large)
  -- the only slot of the order is the block
  have single : nOfEntries (pavedKernel length after).alloc (Grant.order ⟨pavedBlock, length⟩) = 1 :=
    Nat.div_self (by
      rw [upow_two (show (pavedKernel length after).alloc.maxPowOrder < 64 from sized.lt)]
      exact Nat.two_pow_pos _)
  have same : slotPtrAdd (gotoPorderIdx (pavedKernel length after).alloc (Grant.order ⟨pavedBlock, length⟩)) 0 =
      gotoPorderIdx (pavedKernel length after).alloc (Grant.order ⟨pavedBlock, length⟩) := by
    rw [slotPtrAdd, Word.mul, Nat.zero_mul, Nat.zero_mod]
    exact Word.add_of_lt (Word.add_lt _ _)
  have slot : (pavedKernel length after).header (gotoPorderIdx (pavedKernel length after).alloc
      (Grant.order ⟨pavedBlock, length⟩)) = ⟨pavedBlock, Grant.order ⟨pavedBlock, length⟩, .unused⟩ := if_pos rfl
  have found : findFreeSlot (pavedKernel length after).alloc (pavedKernel length after).header
      (Grant.order ⟨pavedBlock, length⟩) =
      some (gotoPorderIdx (pavedKernel length after).alloc (Grant.order ⟨pavedBlock, length⟩)) := by
    have there : isEntryEmpty ⟨pavedBlock, Grant.order ⟨pavedBlock, length⟩, .unused⟩ = false := by
      simp only [isEntryEmpty, Bool.and_eq_false_iff, decide_eq_false_iff_not]
      exact .inl (by decide)
    simp only [findFreeSlot, single, List.range_one, List.find?_cons, same, slot, there]
    simp [same]
  rw [buddyAlloc, bugOn_of_not fitting, ok_bind, order, buddyAllocLoop, found]
  simp only [slot, gt_iff_lt, Nat.lt_irrefl, if_false]
  exact ⟨_, rfl⟩

theorem pavedKernel_serves (pos : length ≠ 0) (small : length < 2 ^ 47) (shiftBits : Nat) :
    ∃ fuel r, kmalloc shiftBits fuel (pavedKernel length after) length kmemDefault = .ok r := by
  obtain ⟨header, alloc⟩ := pavedKernel_buddyAlloc after pos small (length / 4096 + 1)
  have address : va pavedBlock = .ok (virtAddrKernelStart + pavedBlock) := va_of_lt (by decide)
  have sum : Word.add pavedBlock length = pavedBlock + length := Word.add_of_lt (by unfold pavedBlock; omega)
  have mapped := pagingContiguousMap_paved_returns (pavedMem_load64 pavedBlock length after) shiftBits
    (pagePresentBit ||| pageReadWriteBit) (pavedKernel length after).pgtable (n := length / 4096 + 1) (p := pavedBlock)
    (q := pavedBlock + length) (v := virtAddrKernelStart + pavedBlock) (by omega) (by unfold pavedBlock; omega)
  refine ⟨length / 4096 + 1 + 1, (virtAddrKernelStart + pavedBlock, { pavedKernel length after with header := header }), ?_⟩
  rw [kmalloc, alloc, ok_bind]
  dsimp only
  rw [address, ok_bind, if_pos (by decide), sum]
  rw [show (pavedKernel length after).mem = pavedMem pavedBlock length after from rfl, mapped, ok_bind]
  rfl

variable {after} in
/-- `kmalloc` gives out that block and leaves memory as it is. -/
theorem pavedKernel_kmalloc (pos : length ≠ 0) (small : length < 2 ^ 47) {shiftBits fuel content : Nat} {kernel : KernelMem}
    (run : kmalloc shiftBits fuel (pavedKernel length after) length kmemDefault = .ok (content, kernel)) :
    linear content = pavedBlock ∧ kernel.mem = pavedMem pavedBlock length after := by
  obtain ⟨⟨p, header⟩, alloc, rest⟩ := bind_eq_ok.mp run
  have block : p = pavedBlock := by
    cases fuel with
    | zero =>
      obtain ⟨-, -, loop⟩ := bind_eq_ok.mp alloc
      cases loop
    | succ fuel =>
      obtain ⟨header', known⟩ := pavedKernel_buddyAlloc after pos small fuel
      rw [known] at alloc
      cases alloc
      rfl
  obtain ⟨ptr, address, rest⟩ := bind_eq_ok.mp rest
  rw [if_pos (by decide)] at rest
  obtain ⟨⟨mem, pgtable⟩, map, same⟩ := bind_eq_ok.mp rest
  cases same
  exact ⟨(linear_va address).trans block, pagingContiguousMap_paved_same (pavedMem_load64 pavedBlock length after) map⟩

end PavedAlloc

/-! ## The strings that are printed as they are -/

section

variable {shiftBits : Nat} {string : UserString}

theorem UserString.length_lt (string : UserString) : string.bytes.length ≠ 0 ∧ string.bytes.length < 2 ^ 47 := by
  have pos := string.nonNull
  have low := string.low
  exact ⟨fun none => string.some (List.length_eq_zero_iff.mp none), by omega⟩

theorem pavedState_serves (shiftBits : Nat) (string : UserString) (after : UInt8) :
    (pavedState string after).Serves shiftBits string.bytes.length :=
  pavedKernel_serves after string.length_lt.1 string.length_lt.2 shiftBits

/-- With that heap, what is printed is the format string of the user's bytes and the byte behind them. -/
theorem pavedState_sends {after : UInt8} {text : List UInt8} (sends : (pavedState string after).Sends shiftBits string text) :
    ∃ fmt : CString, fmt.chars = (string.bytes ++ [after, 0]).takeWhile (· ≠ 0) ∧
      printkText printkInfoLevel printkInfoLevel fmt noStrings noArgs = .ok text := by
  obtain ⟨fuel, content, kernel, run⟩ := sends
  obtain ⟨content', kernel', alloc⟩ := kmalloc_of_sysWritePrint run
  rw [sysWritePrint_eq (pavedState_holds string after) alloc] at run
  obtain ⟨block, heap⟩ := pavedKernel_kmalloc string.length_lt.1 string.length_lt.2 alloc
  have small := string.length_lt.2
  have spelled : ∀ i, i < (string.bytes ++ [after, 0]).length →
      (kernel'.mem.write (linear content') string.bytes) (linear content' + i) = (string.bytes ++ [after, 0]).getD i 0 := by
    intro i inside
    rw [List.length_append] at inside
    rcases Nat.lt_or_ge i string.bytes.length with user | behind
    · rw [Mem.write_byte_inside user, List.getD_append _ _ _ _ user]
    · rw [Mem.write_byte (by omega), List.getD_append_right _ _ _ _ behind, heap, block]
      obtain ⟨k, rfl⟩ := Nat.exists_eq_add_of_le behind
      obtain rfl | rfl : k = 0 ∨ k = 1 := by
        simp only [List.length_cons, List.length_nil] at inside
        omega
      · show (if _ then _ else _) = _
        rw [Nat.add_zero, if_pos rfl, Nat.sub_self]
        rfl
      · show (if _ then _ else _) = _
        rw [if_neg (by omega), if_pos (by omega), Nat.add_sub_cancel_left]
        rfl
  obtain ⟨fmt, read, chars⟩ := cstringAt_of_spells (string.bytes ++ [after, 0]) (by simp) (2 ^ 64 - linear content') spelled
    (by
      rw [block, List.length_append]
      simp only [List.length_cons, List.length_nil]
      unfold pavedBlock
      omega)
  rw [read, ok_bind] at run
  obtain ⟨text', print, same⟩ := bind_eq_ok.mp run
  cases same
  exact ⟨fmt, chars, print⟩

theorem PrintsUserBytes.sends (prints : PrintsUserBytes shiftBits string) (after : UInt8) :
    (pavedState string after).Sends shiftBits string string.text := by
  obtain ⟨text, sends, -, rfl⟩ := prints _ _ (pavedState_holds string after) (pavedState_holds string after)
    (pavedState_serves shiftBits string after) (pavedState_serves shiftBits string after)
  exact sends

/-- With a NUL behind the block the format string is the text. -/
theorem PrintsUserBytes.asIs (prints : PrintsUserBytes shiftBits string) : PrintsAsIs string.text := by
  obtain ⟨fmt, chars, print⟩ := pavedState_sends (prints.sends 0)
  have nothing : (string.bytes ++ [0, 0]).takeWhile (· ≠ 0) = string.text := by
    rw [UserString.text, List.takeWhile_append]
    split
    · rename_i all
      rw [List.takeWhile_cons_of_neg (by decide), List.append_nil]
      exact ((List.takeWhile_prefix _).eq_of_length all).symm
    · rfl
  rw [nothing] at chars
  rw [← chars] at print ⊢
  exact (printkText_eq_self_iff printkInfoLevel).mp print

/-- With a letter there, a string without an end is printed with the letter. -/
theorem PrintsUserBytes.ended (prints : PrintsUserBytes shiftBits string) : 0 ∈ string.bytes := by
  by_contra open_
  have nonzero : ∀ c ∈ string.bytes, decide (c ≠ 0) = true := by
    intro c mem
    rw [decide_eq_true_eq]
    rintro rfl
    exact open_ mem
  have all : string.text = string.bytes := List.takeWhile_eq_self_iff.mpr nonzero
  have asIs := prints.asIs
  obtain ⟨fmt, chars, print⟩ := pavedState_sends (prints.sends (ascii 'x'))
  have longer : fmt.chars = string.bytes ++ [ascii 'x'] := by
    rw [chars, List.takeWhile_append_of_pos nonzero]
    rfl
  rw [all] at asIs print
  have plain : ascii '%' ∉ fmt.chars := by
    rw [longer, List.mem_append, not_or]
    exact ⟨asIs.1, by decide⟩
  have noTab : ascii '\t' ∉ fmt.chars := by
    rw [longer, List.mem_append, not_or]
    exact ⟨asIs.2.1, by decide⟩
  rw [printkText_plain plain, (expandTabs_eq_self_iff _).mpr noTab, longer] at print
  split at print
  · have length := congrArg List.length (Except.ok.inj print)
    rw [List.length_append, List.length_singleton] at length
    omega
  · cases print

end

/-- **`sys_write` prints the user's bytes and nothing else exactly for the strings that end and are
printed as they are.** -/
theorem sys_write_prints_iff (shiftBits : Nat) (string : UserString) :
    PrintsUserBytes shiftBits string ↔ string.Harmless := by
  constructor
  · intro prints
    exact ⟨prints.ended, prints.asIs⟩
  · intro harmless s s' holds holds' serves serves'
    exact ⟨string.text, harmless.sends holds serves, harmless.sends holds' serves', rfl⟩

/-- The string `%x`, with its NUL. -/
def percentX : UserString where
  addr := 0x40000
  bytes := asciiText "%x" ++ [0]
  nonNull := by decide
  some := by decide
  low := by decide

/-- What `printk` makes of it when the register for its argument holds zero. -/
theorem percentX_prints_zero :
    printkText printkInfoLevel printkInfoLevel ⟨asciiText "%x", by decide +kernel⟩ noStrings noArgs = .ok (asciiText "0") := by
  decide +kernel

theorem sys_write_prints_register : ¬PrintsUserBytes 64 percentX := by
  intro prints
  obtain ⟨text, sends, -, rfl⟩ := prints _ _ (pavedState_holds percentX 0) (pavedState_holds percentX 0)
    (pavedState_serves 64 percentX 0) (pavedState_serves 64 percentX 0)
  obtain ⟨⟨chars, nonzero⟩, same, print⟩ := pavedState_sends sends
  obtain rfl : chars = asciiText "%x" := same.trans (by decide +kernel)
  rw [percentX_prints_zero] at print
  exact absurd (Except.ok.inj print) (by decide +kernel)

end AlmeidaOS.Kernel
