import ArdroneKernel.BchEncode

/-!
# The BCH decoder

Executable model of `decode_bch` and of the functions it calls: the
syndromes, the simplified Berlekamp-Massey loop, the linear solver, the
four ad hoc root finders and the factoring by traces. The error locator
polynomial and its factors live in one array of words, as in the source,
where a factor is stored inside the storage of the polynomial it came
from. Locations are returned as the list of the cells written to `errloc`.
-/

namespace ArdroneKernel.BchDecode

open BchInit BchEncode

/-- Add a value to one cell of an array. -/
def xorAt (c : List ℕ) (i v : ℕ) : List ℕ := c.set i (c.getD i 0^^^v)

/-- Add one bit of the parity polynomial to the odd syndromes. -/
def synXor (bch : BchControl) (e : ℕ) (syn : List ℕ) : List ℕ :=
  syn.mapIdx fun j v => if j%2=0 then v^^^aPow bch ((j+1)*e) else v

/-- The bits of one parity word, the highest first. -/
def synBits (bch : BchControl) (s : ℤ) : ℕ → ℕ → List ℕ → List ℕ
  | 0,_,syn => syn
  | fuel+1,poly,syn =>
    if poly≠0 then
      let i := deg poly
      synBits bch s fuel (poly^^^(1<<<i)) (synXor bch (i+s).toNat syn)
    else syn

/-- The do-while loop of `compute_syndromes` over the parity words. -/
def synWords (bch : BchControl) : List ℕ → ℤ → List ℕ → List ℕ
  | [],_,syn => syn
  | poly::ecc,s,syn =>
    let s := s-32
    let syn := synBits bch s 32 poly syn
    if 0<s then synWords bch ecc s syn else syn

/-- Clear the bits of the last parity word below the parity itself. -/
def maskEcc (bch : BchControl) (ecc : List ℕ) : List ℕ :=
  let s := bch.eccBits
  let m := s&&&31
  if m≠0 then ecc.set (s/32) (ecc.getD (s/32) 0&&&(0xffffffff^^^((1<<<(32-m))-1))) else ecc

/-- The even syndromes, each the square of an earlier one. -/
def synSquares (bch : BchControl) (syn : List ℕ) : List ℕ :=
  (List.range bch.t).foldl (fun syn j => syn.set (2*j+1) (gfSqr bch (syn.getD j 0))) syn

/-- `compute_syndromes`, on parity words whose extra bits are cleared. -/
def computeSyndromes (bch : BchControl) (ecc : List ℕ) : List ℕ :=
  synSquares bch (synWords bch ecc bch.eccBits (List.replicate (2*bch.t) 0))

/-- `struct gf_poly`. -/
structure GfPoly where
  /-- Polynomial degree. -/
  deg : ℕ
  /-- Polynomial terms, from the constant one up. -/
  c : List ℕ
deriving DecidableEq

/-- The variables of `compute_error_locator_polynomial`. -/
structure ElpState where
  /-- Current error locator polynomial. -/
  elp : GfPoly
  /-- The polynomial before the last change of length. -/
  pelp : GfPoly
  /-- Discrepancy at the last change of length. -/
  pd : ℕ
  /-- Current discrepancy. -/
  d : ℕ
  /-- Twice the round of the last change of length. -/
  pp : ℤ

/-- The correction `e[i+1](X) = e[i](X)+di*dp^-1*X^2(i-p)*e[p](X)`. -/
def elpCorrect (bch : BchControl) (st : ElpState) (k : ℕ) : List ℕ :=
  let tmp := aLog bch st.d+bch.n-aLog bch st.pd
  (List.range (st.pelp.deg+1)).foldl (fun c j =>
    if st.pelp.c.getD j 0≠0 then xorAt c (j+k) (aPow bch (tmp+aLog bch (st.pelp.c.getD j 0))) else c)
    st.elp.c

/-- The first half of a round: use the discrepancy. -/
def elpUpdate (bch : BchControl) (st : ElpState) (i : ℕ) : ElpState :=
  if st.d≠0 then
    let k := (2*i-st.pp).toNat
    let c := elpCorrect bch st k
    let tmp := st.pelp.deg+k
    if st.elp.deg<tmp then ⟨⟨tmp,c⟩,st.elp,st.d,st.d,2*i⟩ else {st with elp := ⟨st.elp.deg,c⟩}
  else st

/-- The next discrepancy. -/
def elpDiscrepancy (bch : BchControl) (syn : List ℕ) (elp : GfPoly) (i : ℕ) : ℕ :=
  (List.range elp.deg).foldl (fun d j =>
    d^^^gfMul bch (elp.c.getD (j+1) 0) (syn.getD (2*i+2-(j+1)) 0)) (syn.getD (2*i+2) 0)

/-- The Berlekamp-Massey loop from round `i` on. -/
def elpLoop (bch : BchControl) (syn : List ℕ) : ℕ → ℕ → ElpState → ElpState
  | 0,_,st => st
  | fuel+1,i,st =>
    if st.elp.deg≤bch.t then
      let st := elpUpdate bch st i
      let st := if i<bch.t-1 then {st with d := elpDiscrepancy bch syn st.elp i} else st
      elpLoop bch syn fuel (i+1) st
    else st

/-- The state before the first round. -/
def elpInit (bch : BchControl) (syn : List ℕ) : ElpState :=
  let one : GfPoly := ⟨0,(List.replicate (2*bch.t+1) 0).set 0 1⟩
  ⟨one,one,1,syn.getD 0 0,-1⟩

/-- `compute_error_locator_polynomial`: the returned degree or `-1`, and
the polynomial left in `elp`. -/
def computeErrorLocatorPolynomial (bch : BchControl) (syn : List ℕ) : ℤ×GfPoly :=
  let st := elpLoop bch syn bch.t 0 (elpInit bch syn)
  (if bch.t<st.elp.deg then -1 else st.elp.deg,st.elp)

/-- The rows of a linear system and the defective columns met so far. -/
structure ElimState where
  /-- Rows, bit zero being the right-hand side. -/
  rows : List ℕ
  /-- Columns without a pivot, in order. -/
  param : List ℕ

/-- Exchange rows `r` and `p`. -/
def swapRows (rows : List ℕ) (r p : ℕ) : List ℕ :=
  (rows.set r (rows.getD p 0)).set p (rows.getD r 0)

/-- Gaussian elimination of column `c`. -/
def elimColumn (m : ℕ) (st : ElimState) (c : ℕ) : ElimState :=
  let mask := (1<<<m)>>>c
  let p := c-st.param.length
  match (List.range' p (m-p)).find? (fun r => st.rows.getD r 0&&&mask≠0) with
  | some r =>
    let rows := swapRows st.rows r p
    let tmp := rows.getD p 0
    {st with rows := rows.mapIdx fun q row =>
      if r+1 ≤ q ∧ q < m ∧ row&&&mask≠0 then row^^^tmp else row}
  | none => {st with param := st.param++[c]}

/-- Rewrite the system from row `r-1` down, inserting fake parameter rows;
`none` when a row says that there is no solution. -/
def insertParams (m k : ℕ) (param : List ℕ) : ℕ → ℕ → List ℕ → Option (List ℕ)
  | 0,_,rows => some rows
  | r+1,p,rows =>
    if m≤r+k ∧ rows.getD r 0≠0 then none
    else if p≠0 ∧ r=param.getD (p-1) 0 then insertParams m k param r (p-1) (rows.set r (1<<<(m-r)))
    else insertParams m k param r p (rows.set r (rows.getD (r-p) 0))

/-- Set the parameters for the `p`-th solution. -/
def setParams (param : List ℕ) (p : ℕ) (rows : List ℕ) : List ℕ :=
  (List.range param.length).foldl (fun rows c =>
    let i := param.getD c 0
    rows.set i ((rows.getD i 0&&&(0xffffffff^^^1))|||((p>>>c)&&&1))) rows

/-- Back substitution from row `r-1` down. -/
def backSubst (m : ℕ) (rows : List ℕ) : ℕ → ℕ → ℕ
  | 0,tmp => tmp
  | r+1,tmp =>
    backSubst m rows r (tmp|||(parity (rows.getD r 0&&&(tmp|||1))<<<(m-r)))

/-- The solutions, one for each value of the parameters. Every round
keeps the parameter bits that the next one overwrites. -/
def enumSolutions (m : ℕ) (param : List ℕ) : ℕ → ℕ → List ℕ → List ℕ
  | 0,_,_ => []
  | fuel+1,p,rows =>
    let rows := setParams param p rows
    (backSubst m rows m 0>>>1)::enumSolutions m param fuel (p+1) rows

/-- `solve_linear_system`: the solutions found, none when their number is
not `nsol`. -/
def solveLinearSystem (bch : BchControl) (rows : List ℕ) (nsol : ℕ) : List ℕ :=
  let m := bch.m
  let st := (List.range m).foldl (elimColumn m) ⟨rows,[]⟩
  let k := st.param.length
  match (if 0<k then insertParams m k st.param m k st.rows else some st.rows) with
  | none => []
  | some rows => if nsol≠1<<<k then [] else enumSolutions m st.param nsol 0 rows

/-- One pass over the row pairs at distance `j` of the matrix transposition. -/
def transposeRows (j mask : ℕ) : ℕ → ℕ → List ℕ → List ℕ
  | 0,_,rows => rows
  | fuel+1,k,rows =>
    if k<16 then
      let t := ((rows.getD k 0>>>j)^^^rows.getD (k+j) 0)&&&mask
      transposeRows j mask fuel ((k+j+1)&&&(0xffffffff^^^j))
        (xorAt (xorAt rows k (t<<<j)) (k+j) t)
    else rows

/-- Transposition of a 16x16 matrix of bits. -/
def transposeLoop : ℕ → ℕ → ℕ → List ℕ → List ℕ
  | 0,_,_,rows => rows
  | fuel+1,j,mask,rows =>
    if j≠0 then
      transposeLoop fuel (j>>>1) (mask^^^(mask<<<(j>>>1))) (transposeRows j mask 16 0 rows)
    else rows

/-- The rows of the linear system for `X^4+aX^2+bX+c` before transposition. -/
def affine4Rows (bch : BchControl) (a b c : ℕ) : List ℕ :=
  (List.range bch.m).foldl (fun rows i =>
    rows.set (i+1) (bch.aPowTab.getD (4*i) 0
      ^^^(if a≠0 then bch.aPowTab.getD (modS bch (aLog bch a+2*i)) 0 else 0)
      ^^^(if b≠0 then bch.aPowTab.getD (modS bch (aLog bch b+i)) 0 else 0)))
    ((List.replicate 16 0).set 0 c)

/-- `find_affine4_roots`. -/
def findAffine4Roots (bch : BchControl) (a b c : ℕ) : List ℕ :=
  solveLinearSystem bch (transposeLoop 5 8 0xff (affine4Rows bch a b c)) 4

/-- `find_poly_deg1_roots`. -/
def findPolyDeg1Roots (bch : BchControl) (c : List ℕ) : List ℕ :=
  if c.getD 0 0≠0 then
    [modS bch (bch.n-aLog bch (c.getD 0 0)+aLog bch (c.getD 1 0))]
  else []

/-- The sum of the `xi` for the bits of `u`. -/
def xiSum (bch : BchControl) : ℕ → ℕ → ℕ → ℕ
  | 0,_,r => r
  | fuel+1,v,r =>
    if v≠0 then xiSum bch fuel (v^^^(1<<<deg v)) (r^^^bch.xiTab.getD (deg v) 0) else r

/-- `find_poly_deg2_roots`. -/
def findPolyDeg2Roots (bch : BchControl) (c : List ℕ) : List ℕ :=
  if c.getD 0 0≠0 ∧ c.getD 1 0≠0 then
    let l0 := aLog bch (c.getD 0 0)
    let l1 := aLog bch (c.getD 1 0)
    let l2 := aLog bch (c.getD 2 0)
    let u := aPow bch (l0+l2+2*(bch.n-l1))
    let r := xiSum bch 32 u 0
    if gfSqr bch r^^^r=u then
      [modulo bch (2*bch.n-l1-aLog bch r+l2),modulo bch (2*bch.n-l1-aLog bch (r^^^1)+l2)]
    else []
  else []

/-- `find_poly_deg3_roots`. -/
def findPolyDeg3Roots (bch : BchControl) (p : List ℕ) : List ℕ :=
  if p.getD 0 0≠0 then
    let e3 := p.getD 3 0
    let c2 := gfDiv bch (p.getD 0 0) e3
    let b2 := gfDiv bch (p.getD 1 0) e3
    let a2 := gfDiv bch (p.getD 2 0) e3
    let c := gfMul bch a2 c2
    let b := gfMul bch a2 b2^^^c2
    let a := gfSqr bch a2^^^b2
    let tmp := findAffine4Roots bch a b c
    if tmp.length=4 then (tmp.filter (·≠a2)).map (aIlog bch) else []
  else []

/-- The affine polynomial of degree four that `find_poly_deg4_roots` solves,
with the shift `e`; `none` for a repeated root. -/
def deg4Affine (bch : BchControl) (a b c d : ℕ) : Option (ℕ×ℕ×ℕ×ℕ) :=
  if a≠0 then
    let f := gfDiv bch c a
    let l := aLog bch f
    let l := l+(if l&&&1≠0 then bch.n else 0)
    let e := if c≠0 then aPow bch (l/2) else 0
    let d := if c≠0 then aPow bch (2*l)^^^gfMul bch b f^^^d else d
    let b := if c≠0 then gfMul bch a e^^^b else b
    if d=0 then none else some (gfDiv bch b d,gfDiv bch a d,gfInv bch d,e)
  else some (b,c,d,0)

/-- `find_poly_deg4_roots`. -/
def findPolyDeg4Roots (bch : BchControl) (p : List ℕ) : List ℕ :=
  if p.getD 0 0=0 then []
  else
    let e4 := p.getD 4 0
    let d := gfDiv bch (p.getD 0 0) e4
    let c := gfDiv bch (p.getD 1 0) e4
    let b := gfDiv bch (p.getD 2 0) e4
    let a := gfDiv bch (p.getD 3 0) e4
    match deg4Affine bch a b c d with
    | none => []
    | some (a2,b2,c2,e) =>
      let roots := findAffine4Roots bch a2 b2 c2
      if roots.length=4 then
        roots.map fun r => aIlog bch ((if a≠0 then gfInv bch r else r)^^^e)
      else []

/-- `gf_poly_logrep`: logarithms of the monic form, the value -1 of the
source for a zero coefficient being `none`. -/
def gfPolyLogrep (bch : BchControl) (a : GfPoly) : List (Option ℕ) :=
  let l := bch.n-aLog bch (a.c.getD a.deg 0)
  (List.range a.deg).map fun i =>
    if a.c.getD i 0≠0 then some (modS bch (aLog bch (a.c.getD i 0)+l)) else none

/-- One round of the division loop: cancel the coefficient `j`. -/
def gfPolyModStep (bch : BchControl) (d : ℕ) (rep : List (Option ℕ)) (c : List ℕ) (j : ℕ) : List ℕ :=
  if c.getD j 0≠0 then
    let la := aLog bch (c.getD j 0)
    (List.range d).foldl (fun c i =>
      match rep.getD i none with
      | some m => xorAt c (j-d+i) (bch.aPowTab.getD (modS bch (m+la)) 0)
      | none => c) c
  else c

/-- The largest degree at most `d` with a nonzero coefficient, or zero. -/
def trimDeg (c : List ℕ) : ℕ → ℕ
  | 0 => 0
  | d+1 => if c.getD (d+1) 0=0 then trimDeg c d else d+1

/-- `gf_poly_mod`: the remainder stands below coefficient `b.deg` and the
quotient is left above it. -/
def gfPolyMod (bch : BchControl) (a b : GfPoly) : GfPoly :=
  let d := b.deg
  if a.deg<d then a
  else
    let c := (List.range (a.deg+1-d)).foldl (fun c i =>
      gfPolyModStep bch d (gfPolyLogrep bch b) c (a.deg-i)) a.c
    ⟨trimDeg c (d-1),c⟩

/-- `gf_poly_div`: the quotient and what is left in `a`. -/
def gfPolyDiv (bch : BchControl) (a b : GfPoly) : GfPoly×GfPoly :=
  if b.deg≤a.deg then
    let r := gfPolyMod bch a b
    (⟨a.deg-b.deg,(r.c.drop b.deg).take (1+(a.deg-b.deg))⟩,r)
  else (⟨0,[0]⟩,a)

/-- The loop of `gf_poly_gcd`: it stops at a remainder of degree zero, be
it zero or not. -/
def gcdLoop (bch : BchControl) : ℕ → GfPoly → GfPoly → GfPoly
  | 0,a,_ => a
  | fuel+1,a,b => if 0<b.deg then gcdLoop bch fuel b (gfPolyMod bch a b) else a

/-- `gf_poly_gcd`. -/
def gfPolyGcd (bch : BchControl) (a b : GfPoly) : GfPoly :=
  if a.deg<b.deg then gcdLoop bch (a.deg+1) b a else gcdLoop bch (b.deg+1) a b

/-- One round of `compute_trace_bk_mod` on the sum and on the square. -/
def traceStep (bch : BchControl) (f : GfPoly) (st : GfPoly×GfPoly) (i : ℕ) : GfPoly×GfPoly :=
  let (z,out) := st
  let out : GfPoly := ⟨max out.deg z.deg,out.c.mapIdx fun j v => if j≤z.deg then v^^^z.c.getD j 0 else v⟩
  let sq := (List.range (z.deg+1)).flatMap fun j => [gfSqr bch (z.c.getD j 0),0]
  if i<bch.m-1 then (gfPolyMod bch ⟨2*z.deg,sq⟩ f,out) else (⟨z.deg,sq⟩,out)

/-- `compute_trace_bk_mod`: the trace of `a^k*X` modulo `f`. -/
def computeTraceBkMod (bch : BchControl) (k : ℕ) (f : GfPoly) : GfPoly :=
  let z : GfPoly := ⟨1,[0,bch.aPowTab.getD k 0]⟩
  let out := ((List.range bch.m).foldl (traceStep bch f) (z,⟨0,List.replicate (f.deg+1) 0⟩)).2
  ⟨trimDeg out.c out.deg,out.c⟩

/-- Read a polynomial from the words at offset `o`. -/
def loadPoly (mem : List ℕ) (o : ℕ) : GfPoly := ⟨mem.getD o 0,(mem.drop (o+1)).take (mem.getD o 0+1)⟩

/-- Write a list of words at offset `o`. -/
def storeWords (mem : List ℕ) (o : ℕ) (ws : List ℕ) : List ℕ :=
  mem.take o++ws++mem.drop (o+ws.length)

/-- `gf_poly_copy` into the words at offset `o`. -/
def storePoly (mem : List ℕ) (o : ℕ) (p : GfPoly) : List ℕ :=
  storeWords mem o (p.deg::p.c.take (p.deg+1))

/-- `factor_polynomial` on the polynomial at offset `o`: the new words and
the offset of the second factor, if there is one. A `struct gf_poly_deg1`
takes three words. -/
def factorPolynomial (bch : BchControl) (k : ℕ) (mem : List ℕ) (o : ℕ) : List ℕ×Option ℕ :=
  let f := loadPoly mem o
  let tk := computeTraceBkMod bch k f
  if 0<tk.deg then
    let gcd := gfPolyGcd bch f tk
    if gcd.deg<f.deg then
      let (q,r) := gfPolyDiv bch f gcd
      let mem := storeWords mem o (r.deg::r.c)
      let mem := storePoly mem o gcd
      (storePoly mem (o+3*gcd.deg) q,some (o+3*gcd.deg))
    else (mem,none)
  else (mem,none)

/-- `find_poly_roots` on the polynomial at offset `o`: the words left and
the roots stored, as logarithms of inverses. -/
def findPolyRoots (bch : BchControl) : ℕ → ℕ → List ℕ → ℕ → List ℕ×List ℕ
  | 0,_,mem,_ => (mem,[])
  | fuel+1,k,mem,o =>
    let poly := loadPoly mem o
    match poly.deg with
    | 1 => (mem,findPolyDeg1Roots bch poly.c)
    | 2 => (mem,findPolyDeg2Roots bch poly.c)
    | 3 => (mem,findPolyDeg3Roots bch poly.c)
    | 4 => (mem,findPolyDeg4Roots bch poly.c)
    | 0 => (mem,[])
    | _ =>
      if k≤bch.m then
        let (mem,h) := factorPolynomial bch k mem o
        let (mem,roots) := findPolyRoots bch fuel (k+1) mem o
        match h with
        | some o2 =>
          let (mem,more) := findPolyRoots bch fuel (k+1) mem o2
          (mem,roots++more)
        | none => (mem,roots)
      else (mem,[])

/-- Renumber one raw location: the position counted from the first data
bit, with the bits of an octet counted from the low end. -/
def bitPosition (nbits loc : ℕ) : ℕ :=
  let p := nbits-1-loc
  (p&&&(0xffffffff^^^7))|||(7-(p&&&7))

/-- The post-processing loop of `decode_bch`; it stops at the first location
that is outside the codeword. -/
def renumber (nbits : ℕ) : List ℕ → Bool×List ℕ
  | [] => (true,[])
  | loc::locs =>
    if nbits≤loc then (false,loc::locs)
    else ((renumber nbits locs).1,bitPosition nbits loc::(renumber nbits locs).2)

/-- Bad message, the code for a failed decoding. -/
def EBADMSG : ℤ := 74

/-- Invalid argument. -/
def EINVAL : ℤ := 22

/-- What a call of `decode_bch` leaves behind. -/
structure Decoded where
  /-- The return value. -/
  ret : ℤ
  /-- The locations stored in `errloc`. -/
  errloc : List ℕ
  /-- The control structure with its scratch buffers. -/
  bch : BchControl

/-- The second half of `decode_bch`, from the syndromes on. -/
def decodeSyndromes (bch : BchControl) (len : ℕ) (syn : List ℕ) : Decoded :=
  let (err,elp) := computeErrorLocatorPolynomial bch syn
  let mem := storeWords bch.elp 0 (elp.deg::elp.c)
  if 0<err then
    let (mem,roots) := findPolyRoots bch (bch.m+1) 1 mem 0
    let bch := {bch with elp := mem}
    let nbits := len*8+bch.eccBits
    if err≠roots.length then ⟨-EBADMSG,roots,bch⟩
    else ⟨if (renumber nbits roots).1 then err else -EBADMSG,(renumber nbits roots).2,bch⟩
  else ⟨if 0≤err then err else -EBADMSG,[],{bch with elp := mem}⟩

/-- `decode_bch`. The data come with the remainder of their address. -/
def decodeBch (bch : BchControl) (data : Option (ℕ×List UInt8)) (len : ℕ)
    (recvEcc calcEcc : Option (List UInt8)) (syn : Option (List ℕ)) : Decoded :=
  if bch.n-bch.eccBits<8*len%2^32 then ⟨-EINVAL,[],bch⟩
  else
    match syn with
    | some syn => decodeSyndromes bch len syn
    | none =>
      let loaded := match calcEcc,data,recvEcc with
        | some ecc,_,_ => some {bch with eccBuf := loadEcc8 bch ecc}
        | none,some (align,data),some _ => some (encodeBch bch align (data.take len) none).1
        | none,_,_ => none
      match loaded with
      | none => ⟨-EINVAL,[],bch⟩
      | some bch =>
        let finish := fun bch : BchControl =>
          let buf := maskEcc bch bch.eccBuf
          let syn := computeSyndromes bch buf
          decodeSyndromes {bch with eccBuf := buf,syn := syn} len syn
        match recvEcc with
        | some recv =>
          let buf2 := loadEcc8 bch recv
          let buf := xorRows bch.eccBuf buf2
          let bch := {bch with eccBuf := buf,eccBuf2 := buf2}
          if buf.foldl (·|||·) 0=0 then ⟨0,[],bch⟩ else finish bch
        | none => finish bch

end ArdroneKernel.BchDecode
