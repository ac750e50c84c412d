import ArdroneKernel.BchDecode

/-!
# The page correction of the NAND driver

Executable model of `omap_calculate_ecc` and `omap_correct_data` in
`drivers/mtd/nand/omap2.c`, built with `CONFIG_MTD_NAND_OMAP_BCH_8`. The
controller computes the parity of every 512-byte sector of a page while it
is read and leaves it in four result registers. The driver stores the
parity with an inversion mask, so that an erased page has a valid one.
-/

namespace ArdroneKernel.OmapNand

open BchInit BchDecode

/-- Corrected bits of a sector are reported from this number on. -/
def ECC_REPORT_THRESHOLD : ℤ := 3

/-- The number of correctable bits of a sector. -/
def BCH_ERROR_CAP : ℕ := 8

/-- The result registers of one sector. -/
structure BchResult where
  /-- `GPMC_ECC_BCH_RESULT_0`, with the lowest octets of the parity. -/
  val1 : ℕ
  /-- The register after it. -/
  val2 : ℕ
  /-- The third register. -/
  val3 : ℕ
  /-- The last register, of which one octet is used. -/
  val4 : ℕ

/-- The octets of the result, in the order in which they are stored. -/
def resultBytes (r : BchResult) : List UInt8 :=
  [UInt8.ofNat (r.val4&&&0xff),
    UInt8.ofNat ((r.val3>>>24)&&&0xff),UInt8.ofNat ((r.val3>>>16)&&&0xff),
    UInt8.ofNat ((r.val3>>>8)&&&0xff),UInt8.ofNat (r.val3&&&0xff),
    UInt8.ofNat ((r.val2>>>24)&&&0xff),UInt8.ofNat ((r.val2>>>16)&&&0xff),
    UInt8.ofNat ((r.val2>>>8)&&&0xff),UInt8.ofNat (r.val2&&&0xff),
    UInt8.ofNat ((r.val1>>>24)&&&0xff),UInt8.ofNat ((r.val1>>>16)&&&0xff),
    UInt8.ofNat ((r.val1>>>8)&&&0xff),UInt8.ofNat (r.val1&&&0xff)]

/-- The empty-page inversion mask. -/
def inversionMask : List UInt8 :=
  [0xef,0x51,0x2e,0x09,0xed,0x93,0x9a,0xc2,0x97,0x79,0xe5,0x24,0xb5]

/-- What one round of `omap_calculate_ecc` writes. -/
def sectorEcc (r : BchResult) : List UInt8 := List.zipWith (·^^^·) inversionMask (resultBytes r)

/-- `omap_calculate_ecc`, on the registers of all sectors. -/
def omapCalculateEcc (eccSize : ℕ) (regs : ℕ → BchResult) : List UInt8 :=
  (List.range (eccSize/512)).flatMap fun i => sectorEcc (regs i)

/-- `struct omap_nand_info`, as far as the correction reads it. -/
structure OmapNandInfo where
  /-- The mode is `NAND_ECC_HW`. -/
  hwEcc : Bool
  /-- Data bytes for one call of the correction. -/
  eccSize : ℕ
  /-- The control structure of the BCH library. -/
  bch : BchControl

/-- Invert one bit of the data, not of the parity. -/
def correctBit (dat : List UInt8) (loc : ℕ) : List UInt8 :=
  if loc<8*512 then dat.set (loc/8) (dat.getD (loc/8) 0^^^UInt8.ofNat (1<<<(loc&&&7))) else dat

/-- One round of `omap_correct_data`: the data of the sector and the value
to be returned so far. -/
def correctSector (bch : BchControl) (dat readEcc calcEcc : List UInt8) (ret : ℤ) :
    BchControl×List UInt8×ℤ :=
  let calcEcc := List.zipWith (·^^^·) calcEcc readEcc
  if calcEcc.any (·≠0) then
    let d := decodeBch bch none 512 none (some calcEcc) none
    let (dat,count,ret) :=
      if 0<d.ret then
        let count := if d.ret<ECC_REPORT_THRESHOLD then 0 else d.ret
        ((d.errloc.take d.ret.toNat).foldl correctBit dat,count,if 0≤ret then ret+count else ret)
      else (dat,d.ret,ret)
    (d.bch,dat,if count<0 then -1 else ret)
  else (bch,dat,ret)

/-- The loop of `omap_correct_data` over the sectors. -/
def correctSectors (eccsize : ℕ) : ℕ → BchControl → List UInt8 → List UInt8 → List UInt8 → ℤ → List UInt8×ℤ
  | 0,_,dat,_,_,ret => (dat,ret)
  | n+1,bch,dat,readEcc,calcEcc,ret =>
    let (bch,sector,ret) := correctSector bch (dat.take 512) (readEcc.take eccsize) (calcEcc.take eccsize) ret
    let (rest,ret) := correctSectors eccsize n bch (dat.drop 512) (readEcc.drop eccsize) (calcEcc.drop eccsize) ret
    (sector++rest,ret)

/-- `omap_correct_data`: the page afterwards and the value returned. -/
def omapCorrectData (info : OmapNandInfo) (dat readEcc calcEcc : List UInt8) : List UInt8×ℤ :=
  let blockCnt := if info.hwEcc ∧ info.eccSize=2048 then 4 else 1
  let eccsize := if BCH_ERROR_CAP=8 then 13 else 7
  correctSectors eccsize blockCnt info.bch dat readEcc calcEcc 0

end ArdroneKernel.OmapNand
