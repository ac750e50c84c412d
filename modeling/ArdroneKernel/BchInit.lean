import Mathlib

/-!
# The BCH control structure and its initialisation

Executable model of the first half of `lib/bch.c`: the control structure,
the table-driven field operations, the four table builders and `init_bch`.
Words are natural numbers cut to the width of their C type where a shift
can overflow. Memory that `kmalloc` hands out is not cleared, so every
allocation takes its first contents from the parameter `uninit`. The
allocations themselves succeed. The library is the one built without
`CONFIG_BCH_CONST_PARAMS`.
-/

namespace ArdroneKernel.BchInit

/-- `struct bch_control`. The scratch members `cache` and `poly_2t` are
written before they are read by every function that uses them and are
passed as values; the remaining scratch buffers are kept. -/
structure BchControl where
  /-- Galois field order. -/
  m : ℕ
  /-- Maximum codeword size in bits, `2^m-1`. -/
  n : ℕ
  /-- Error correction capability in bits. -/
  t : ℕ
  /-- Exact size of the parity in bits, the degree of the generator. -/
  eccBits : ℕ
  /-- Size in bytes of `m*t` parity bits. -/
  eccBytes : ℕ
  /-- Exponentiation table, `uint16_t`. -/
  aPowTab : List ℕ
  /-- Logarithm table, `uint16_t`. -/
  aLogTab : List ℕ
  /-- Four remainder tables of 256 rows, `uint32_t`. -/
  mod8Tab : List ℕ
  /-- Parity words. -/
  eccBuf : List ℕ
  /-- Second buffer of parity words. -/
  eccBuf2 : List ℕ
  /-- Base for solving equations of degree two. -/
  xiTab : List ℕ
  /-- Syndrome buffer. -/
  syn : List ℕ
  /-- The words of the error locator polynomial and of its factors. -/
  elp : List ℕ
deriving DecidableEq

/-- `BCH_ECC_WORDS`. -/
def eccWords (bch : BchControl) : ℕ := (bch.m*bch.t+31)/32

/-- `deg`, the index of the most significant bit. -/
def deg (poly : ℕ) : ℕ := Nat.log2 poly

/-- The loop of `modulo`, with the argument itself as a bound on its rounds. -/
def moduloLoop (n m : ℕ) : ℕ → ℕ → ℕ
  | 0,v => v
  | fuel+1,v => if n≤v then moduloLoop n m fuel (((v-n)&&&n)+((v-n)>>>m)) else v

/-- `modulo`, reduction modulo `2^m-1` by folding the high bits. -/
def modulo (bch : BchControl) (v : ℕ) : ℕ := moduloLoop bch.n bch.m v v

/-- `mod_s`, the shorter reduction for arguments below `2n`. -/
def modS (bch : BchControl) (v : ℕ) : ℕ := if v<bch.n then v else v-bch.n

/-- `parity`, the exclusive or of the bits of a 32-bit word. -/
def parity (x : ℕ) : ℕ :=
  let x := x^^^(x>>>1)
  let x := x^^^(x>>>2)
  let x := ((x&&&0x11111111)*0x11111111)%2^32
  (x>>>28)&&&1

/-- `a_log`. -/
def aLog (bch : BchControl) (x : ℕ) : ℕ := bch.aLogTab.getD x 0

/-- `a_pow`. -/
def aPow (bch : BchControl) (i : ℕ) : ℕ := bch.aPowTab.getD (modulo bch i) 0

/-- `gf_mul`. -/
def gfMul (bch : BchControl) (a b : ℕ) : ℕ :=
  if a≠0 ∧ b≠0 then bch.aPowTab.getD (modS bch (aLog bch a+aLog bch b)) 0 else 0

/-- `gf_sqr`. -/
def gfSqr (bch : BchControl) (a : ℕ) : ℕ :=
  if a≠0 then bch.aPowTab.getD (modS bch (2*aLog bch a)) 0 else 0

/-- `gf_div`. -/
def gfDiv (bch : BchControl) (a b : ℕ) : ℕ :=
  if a≠0 then bch.aPowTab.getD (modS bch (aLog bch a+bch.n-aLog bch b)) 0 else 0

/-- `gf_inv`. -/
def gfInv (bch : BchControl) (a : ℕ) : ℕ := bch.aPowTab.getD (bch.n-aLog bch a) 0

/-- `a_ilog`. -/
def aIlog (bch : BchControl) (x : ℕ) : ℕ := modS bch (bch.n-aLog bch x)

/-- The table loop of `build_gf_tables`: `none` when the powers come back
to one before the last round. -/
def gfTablesLoop (k poly : ℕ) : ℕ → ℕ → ℕ → List ℕ → List ℕ → Option (List ℕ×List ℕ)
  | 0,_,_,pow,log => some (pow,log)
  | fuel+1,i,x,pow,log =>
    let pow := pow.set i x
    let log := log.set x i
    if i≠0 ∧ x=1 then none
    else
      let x := x<<<1
      let x := if x&&&k≠0 then x^^^poly else x
      gfTablesLoop k poly fuel (i+1) x pow log

/-- `build_gf_tables`. -/
def buildGfTables (bch : BchControl) (poly : ℕ) : Option BchControl :=
  let k := 1<<<deg poly
  if k≠1<<<bch.m then none
  else
    match gfTablesLoop k poly bch.n 0 1 bch.aPowTab bch.aLogTab with
    | none => none
    | some (pow,log) => some {bch with aPowTab := pow.set bch.n 1,aLogTab := log.set 0 0}

/-- The inner loop that marks one cyclotomic coset in `roots`. -/
def markCoset (bch : BchControl) : ℕ → ℕ → List ℕ → List ℕ
  | 0,_,roots => roots
  | fuel+1,r,roots => markCoset bch fuel (modS bch (2*r)) (roots.set r 1)

/-- All roots of the generator, `roots[i]` telling whether `a^i` is one. -/
def markRoots (bch : BchControl) : List ℕ :=
  (List.range bch.t).foldl (fun roots i => markCoset bch bch.m (2*i+1) roots)
    (List.replicate (bch.n+1) 0)

/-- Multiply by `X+r` a monic polynomial given from its constant term up.
The argument `prev` is the old coefficient below the one being computed. -/
def mulRoot (bch : BchControl) (r : ℕ) : ℕ → List ℕ → List ℕ
  | _,[] => [1]
  | prev,c::cs => (gfMul bch c r^^^prev)::mulRoot bch r c cs

/-- The product of the marked factors, coefficients from the constant term up. -/
def generatorCoeffs (bch : BchControl) : List ℕ :=
  (List.range bch.n).foldl (fun c i =>
    if (markRoots bch).getD i 0≠0 then mulRoot bch (bch.aPowTab.getD i 0) 0 c else c) [1]

/-- One word of the left-justified binary representation: the `nbits`
coefficients below position `n`, the highest one in bit 31. -/
def genpolyWord (c : List ℕ) (n nbits : ℕ) : ℕ :=
  (List.range nbits).foldl (fun word j =>
    if c.getD (n-1-j) 0≠0 then word|||(1<<<(31-j)) else word) 0

/-- The packing loop of `compute_generator_polynomial`. -/
def genpolyWords (c : List ℕ) : ℕ → ℕ → List ℕ
  | 0,_ => []
  | fuel+1,n =>
    if 0<n then
      let nbits := if 32<n then 32 else n
      genpolyWord c n nbits::genpolyWords c fuel (n-nbits)
    else []

/-- `compute_generator_polynomial`: the packed generator and its degree. -/
def computeGeneratorPolynomial (bch : BchControl) : List ℕ×ℕ :=
  let c := generatorCoeffs bch
  (genpolyWords c c.length c.length,c.length-1)

/-- The division loop for one row of the remainder tables. Each round
clears the top bit of `data`, so 32 rounds are enough. -/
def mod8RowLoop (g : List ℕ) (plen ecclen : ℕ) : ℕ → ℕ → List ℕ → List ℕ
  | 0,_,tab => tab
  | fuel+1,data,tab =>
    if data≠0 then
      let d := deg data
      mod8RowLoop g plen ecclen fuel (data^^^(g.getD 0 0>>>(31-d)))
        (tab.mapIdx fun j w =>
          if j<ecclen then
            let hi := if d<31 then (g.getD j 0<<<(d+1))%2^32 else 0
            let lo := if j+1<plen then g.getD (j+1) 0>>>(31-d) else 0
            w^^^(hi|||lo)
          else w)
    else tab

/-- The row of `mod8_tab` for the byte `i` at byte position `b`. -/
def mod8Row (bch : BchControl) (g : List ℕ) (b i : ℕ) : List ℕ :=
  mod8RowLoop g ((bch.eccBits+1+31)/32) ((bch.eccBits+31)/32) 32 (i<<<(8*b))
    (List.replicate (eccWords bch) 0)

/-- `build_mod8_tables`: row `i` of table `b` is at row `b*256+i`. -/
def buildMod8Tables (bch : BchControl) (g : List ℕ) : BchControl :=
  {bch with mod8Tab := (List.range 1024).flatMap fun q => mod8Row bch g (q/256) (q%256)}

/-- The sum of `build_deg2_base` that is the trace of `a^i`. -/
def traceSum (bch : BchControl) (i : ℕ) : ℕ :=
  (List.range bch.m).foldl (fun sum j => sum^^^aPow bch (i*(1<<<j))) 0

/-- The first power of `a` below `m` with trace one, or zero. -/
def deg2Ak (bch : BchControl) : ℕ :=
  match (List.range bch.m).find? (fun i => traceSum bch i≠0) with
  | some i => bch.aPowTab.getD i 0
  | none => 0

/-- State of the search loop of `build_deg2_base`. -/
structure Deg2State where
  /-- The member `xi_tab`. -/
  xiTab : List ℕ
  /-- The local array `xi`, one for every entry already found. -/
  xi : List ℕ
  /-- How many entries are still missing. -/
  remaining : ℕ

/-- The test made on one value of `y`: store `x` when `y` is a missing `a^r`. -/
def deg2Try (bch : BchControl) (x y : ℕ) (st : Deg2State) : Option Deg2State :=
  let r := aLog bch y
  if y≠0 ∧ r<bch.m ∧ st.xi.getD r 0=0 then
    some ⟨st.xiTab.set r x,st.xi.set r 1,st.remaining-1⟩
  else none

/-- One round of the search loop: try `x^2+x`, then the same plus `ak`. -/
def deg2Step (bch : BchControl) (ak : ℕ) (st : Deg2State) (x : ℕ) : Deg2State :=
  if st.remaining=0 then st
  else
    let y := gfSqr bch x^^^x
    match deg2Try bch x y st with
    | some st => st
    | none => (deg2Try bch x (y^^^ak) st).getD st

/-- `build_deg2_base`. -/
def buildDeg2Base (bch : BchControl) : Option BchControl :=
  let st := (List.range (bch.n+1)).foldl (deg2Step bch (deg2Ak bch))
    ⟨bch.xiTab,List.replicate bch.m 0,bch.m⟩
  if st.remaining≠0 then none else some {bch with xiTab := st.xiTab}

/-- `bch_alloc`: `size` cells of `width` bits, with the contents the
allocator left in them. The argument `slot` numbers the allocations. -/
def bchAlloc (uninit : ℕ → ℕ → ℕ) (slot width size : ℕ) : List ℕ :=
  (List.range size).map fun i => uninit slot i%2^width

/-- The default primitive polynomials, for `m` from 5 to 15. -/
def primPolyTab : List ℕ :=
  [0x25,0x43,0x83,0x11d,0x211,0x409,0x805,0x1053,0x201b,0x402b,0x8003]

/-- The polynomial `init_bch` works with. -/
def choosePoly (m primPoly : ℕ) : ℕ := if primPoly=0 then primPolyTab.getD (m-5) 0 else primPoly

/-- The guards of `init_bch` on `m` and `t`. The product is the one of
C `int` arguments, which wraps around. -/
def paramsAccepted (m t : ℤ) : Bool :=
  5 ≤ m ∧ m ≤ 15 ∧ 1 ≤ t ∧ (m*t).bmod (2^32)<2^m.toNat-1

/-- The control structure after the allocations of `init_bch`. -/
def allocBch (uninit : ℕ → ℕ → ℕ) (m t : ℕ) : BchControl where
  m := m
  n := (1<<<m)-1
  t := t
  eccBits := 0
  eccBytes := (m*t+7)/8
  aPowTab := bchAlloc uninit 0 16 (1<<<m)
  aLogTab := bchAlloc uninit 1 16 (1<<<m)
  mod8Tab := bchAlloc uninit 2 32 ((m*t+31)/32*1024)
  eccBuf := bchAlloc uninit 3 32 ((m*t+31)/32)
  eccBuf2 := bchAlloc uninit 4 32 ((m*t+31)/32)
  xiTab := bchAlloc uninit 5 32 m
  syn := bchAlloc uninit 6 32 (2*t)
  elp := bchAlloc uninit 8 32 (3*(t+1))

/-- The table builders of `init_bch`, run on a fresh structure. -/
def buildBch (bch : BchControl) (poly : ℕ) : Option BchControl :=
  match buildGfTables bch poly with
  | none => none
  | some bch =>
    let (genpoly,eccBits) := computeGeneratorPolynomial bch
    buildDeg2Base (buildMod8Tables {bch with eccBits := eccBits} genpoly)

/-- `init_bch`. -/
def initBch (uninit : ℕ → ℕ → ℕ) (m t : ℤ) (primPoly : ℕ) : Option BchControl :=
  if paramsAccepted m t then
    buildBch (allocBch uninit m.toNat t.toNat) (choosePoly m.toNat primPoly)
  else none

end ArdroneKernel.BchInit
