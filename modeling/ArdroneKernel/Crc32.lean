import Mathlib.Logic.Function.Iterate

/-!
# A cyclic redundancy check of 32 bits

`crc32_le` of `lib/crc32.c`, bit by bit.
-/

namespace ArdroneKernel.Crc32

/-- One bit of `crc32_le`. -/
def crcBit (crc : ℕ) : ℕ := if crc%2=1 then (crc/2)^^^0xedb88320 else crc/2

/-- `crc32_le` -/
def crc32Le (crc : ℕ) (bytes : List UInt8) : ℕ :=
  bytes.foldl (fun crc x => Nat.iterate crcBit 8 (crc^^^x.toNat)) crc

end ArdroneKernel.Crc32
