import ArdroneKernel.BchInit

/-!
# The BCH encoder

Executable model of `encode_bch` and of the functions it calls. Byte
buffers are lists of octets and parity words are natural numbers below
`2^32`. The address of the data matters only through its remainder modulo
four, which decides how many octets go through the slow path first.
-/

namespace ArdroneKernel.BchEncode

open BchInit

/-- Four octets as one word, the first octet on top. -/
def be32 (a b c d : ℕ) : ℕ := (a<<<24)|||(b<<<16)|||(c<<<8)|||d

/-- The row that the pointer expression `tab + (l+1)*i` addresses. -/
def mod8TabRow (bch : BchControl) (i : ℕ) : List ℕ :=
  (bch.mod8Tab.drop (eccWords bch*i)).take (eccWords bch)

/-- One octet of `encode_bch_unaligned` on the parity words: each word moves
up eight bits, takes the top octet of the word after it and is added to the
table row. No word is read after it has been written. -/
def shiftWords : List ℕ → List ℕ → List ℕ
  | [],_ => []
  | [e],p => [((e<<<8)%2^32)^^^p.getD 0 0]
  | e::e'::es,p => ((((e<<<8)%2^32)|||(e'>>>24))^^^p.getD 0 0)::shiftWords (e'::es) p.tail

/-- `encode_bch_unaligned`. -/
def encodeBchUnaligned (bch : BchControl) (data : List UInt8) (ecc : List ℕ) : List ℕ :=
  data.foldl (fun ecc byte =>
    shiftWords ecc (mod8TabRow bch (((ecc.getD 0 0>>>24)^^^byte.toNat)&&&0xff))) ecc

/-- `load_ecc8`. -/
def loadEcc8 (bch : BchControl) (src : List UInt8) : List ℕ :=
  let nwords := eccWords bch-1
  let byte := fun i => (src.getD i 0).toNat
  let pad := fun j => if j<bch.eccBytes-4*nwords then byte (4*nwords+j) else 0
  (List.range nwords).map (fun i => be32 (byte (4*i)) (byte (4*i+1)) (byte (4*i+2)) (byte (4*i+3)))
    ++[be32 (pad 0) (pad 1) (pad 2) (pad 3)]

/-- The four octets of a word, the top one first. -/
def wordBytes (w : ℕ) : List UInt8 :=
  [UInt8.ofNat (w>>>24),UInt8.ofNat ((w>>>16)&&&0xff),UInt8.ofNat ((w>>>8)&&&0xff),
    UInt8.ofNat (w&&&0xff)]

/-- `store_ecc8`. -/
def storeEcc8 (bch : BchControl) (src : List ℕ) : List UInt8 :=
  let nwords := eccWords bch-1
  (List.range nwords).flatMap (fun i => wordBytes (src.getD i 0))
    ++(wordBytes (src.getD nwords 0)).take (bch.eccBytes-4*nwords)

/-- Add two rows of words. -/
def xorRows (a b : List ℕ) : List ℕ := List.zipWith (·^^^·) a b

/-- One 32-bit word of input: the four octets of `w` each have a table. -/
def wordStep (bch : BchControl) (r : List ℕ) (data : ℕ) : List ℕ :=
  let w := r.getD 0 0^^^data
  let p0 := mod8TabRow bch (w&&&0xff)
  let p1 := mod8TabRow bch (256+((w>>>8)&&&0xff))
  let p2 := mod8TabRow bch (512+((w>>>16)&&&0xff))
  let p3 := mod8TabRow bch (768+((w>>>24)&&&0xff))
  xorRows (xorRows (xorRows (xorRows (r.tail++[0]) p0) p1) p2) p3

/-- The loop over whole words, with the octets left after it. -/
def encodeWords (bch : BchControl) : List UInt8 → List ℕ → List ℕ×List UInt8
  | a::b::c::d::rest,r =>
    encodeWords bch rest (wordStep bch r (be32 a.toNat b.toNat c.toNat d.toNat))
  | rest,r => (r,rest)

/-- The three stages of `encode_bch` on the parity words, for data at an
address with remainder `align` modulo four. -/
def encodeStages (bch : BchControl) (align : ℕ) (data : List UInt8) (buf : List ℕ) : List ℕ :=
  let m := align%4
  let mlen := if m≠0 then (if data.length<4-m then data.length else 4-m) else 0
  let buf := encodeBchUnaligned bch (data.take mlen) buf
  let (buf,rest) := encodeWords bch (data.drop mlen) buf
  encodeBchUnaligned bch rest buf

/-- `encode_bch`. The parity buffer is absent when the caller passes `NULL`;
the words are then left in `ecc_buf` only. -/
def encodeBch (bch : BchControl) (align : ℕ) (data : List UInt8) (ecc : Option (List UInt8)) :
    BchControl×Option (List UInt8) :=
  let buf := match ecc with
    | some ecc => loadEcc8 bch ecc
    | none => List.replicate (eccWords bch) 0
  let buf := encodeStages bch align data buf
  ({bch with eccBuf := buf},ecc.map fun _ => storeEcc8 bch buf)

end ArdroneKernel.BchEncode
