import AlmeidaOS.Kernel.Lib.String

/-!
# `libc/stdlib`: numbers as text

The library that user programs are linked with has its own `ltoa`, with its own `abs` and `strrev`.
The three have the bodies of the kernel's `lltoa`, `abs` and `strrev`, and `long` is as wide as
`long long`.
-/

namespace AlmeidaOS.Libc

/-- `ltoa`: the bytes it writes to `str`. -/
def ltoa (value : Int) (radix : Nat) : List UInt8 := Kernel.lltoa value radix

end AlmeidaOS.Libc
