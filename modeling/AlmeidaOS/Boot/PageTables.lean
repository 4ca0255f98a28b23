import AlmeidaOS.Base.StringOps

/-!
# `boot/mode/protectedmode.asm`: the first page tables

`pm_setup_page_tables`, in protected mode, so with registers of 32 bits and a flat address space. A table
entry has eight bytes, of which `mov` writes the low four; the others were cleared before.
-/

namespace AlmeidaOS.Boot

def pagingStartAddress : Nat := 0x20000
def pagingTableSize : Nat := 0x1000
def memPml4Address : Nat := pagingStartAddress
def memPdpeAddress : Nat := memPml4Address + pagingTableSize
def memPdeAddress : Nat := memPdpeAddress + pagingTableSize
def pagingEndAddress : Nat := memPdeAddress + 64 * pagingTableSize

def stdBits : Nat := 0x03
def pdePs : Nat := 1 <<< 7

/-- `mov [edi], eax`, `add edi, 0x8`, `add eax, step` and `loop`, for `ecx` other than 0. -/
def makePages (step : Nat) : (ecx edi eax : Nat) → Mem → Mem
  | 0, _, _, m => m
  | ecx + 1, edi, eax, m => makePages step ecx ((edi + 0x8) % 2 ^ 32) ((eax + step) % 2 ^ 32) (m.store edi 4 eax)

/-- `.make_pdpe_page`. -/
def makePdpePage : (ecx edi eax : Nat) → Mem → Mem := makePages 0x1000

/-- `.make_pde_page`. -/
def makePdePage : (ecx edi eax : Nat) → Mem → Mem := makePages 0x200000

/-- `pm_setup_page_tables`. -/
def pmSetupPageTables (m : Mem) : Mem :=
  let m := repStos 32 4 0 ((pagingEndAddress - pagingStartAddress) >>> 2) memPml4Address m
  let m := m.store memPml4Address 4 (memPdpeAddress ||| stdBits)
  let m := m.store (memPml4Address + 256 * 0x08) 4 (memPdpeAddress ||| stdBits)
  let m := makePdpePage 64 memPdpeAddress (memPdeAddress ||| stdBits) m
  makePdePage (512 * 64) memPdeAddress (stdBits ||| pdePs) m

end AlmeidaOS.Boot
