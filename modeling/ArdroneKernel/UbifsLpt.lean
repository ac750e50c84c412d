import ArdroneKernel.UbifsLprops
import Mathlib.Data.Nat.Bitwise
import Mathlib.Data.Nat.Size

/-!
# The LEB properties tree on flash

Executable model of the packed nodes of `fs/ubifs/lpt.c`: the widths of their
fields, and how they are packed into and unpacked from a buffer. An access
outside the buffer or a failed assertion has no result. The check sum of the
bytes after it and what the compiler leaves in an uninitialised variable are
parameters.
-/

namespace ArdroneKernel.UbifsLpt

open UbifsLprops

def UBIFS_LPT_FANOUT : ℕ := 4

def UBIFS_LPT_FANOUT_SHIFT : ℕ := 2

def UBIFS_LPT_CRC_BITS : ℕ := 16

def UBIFS_LPT_CRC_BYTES : ℕ := 2

def UBIFS_LPT_TYPE_BITS : ℕ := 4

def UBIFS_LPT_PNODE : ℕ := 0

def UBIFS_LPT_NNODE : ℕ := 1

def UBIFS_LPT_LTAB : ℕ := 2

def UBIFS_LPT_LSAVE : ℕ := 3

def UBIFS_MIN_LEB_SZ : ℕ := 15*1024

def UBIFS_MIN_LPT_LEBS : ℕ := 2

def EINVAL : ℤ := 22

/-! ## Geometry -/

/-- What `do_calc_lpt_geom` and the nodes depend on. -/
structure Info extends Limits where
  /-- `main_lebs`. -/
  mainLebs : ℕ
  /-- `leb_cnt`. -/
  lebCnt : ℕ
  /-- `max_leb_cnt`. -/
  maxLebCnt : ℕ
  /-- `lpt_first`. -/
  lptFirst : ℕ
  /-- `lpt_lebs`. -/
  lptLebs : ℕ
  /-- `lsave_cnt`. -/
  lsaveCnt : ℕ
  /-- `big_lpt`. -/
  bigLpt : Bool

/-- `DIV_ROUND_UP` -/
def divRoundUp (n d : ℕ) : ℕ := (n+d-1)/d

/-- `fls`, the place of the last bit set. -/
def fls (n : ℕ) : ℕ := n.size

namespace Info

variable (c : Info)

/-- `lpt_last`. -/
def lptLast : ℕ := c.lptFirst+c.lptLebs-1

/-- `main_first`. -/
def mainFirst : ℕ := c.lebCnt-c.mainLebs

/-- `max_pnode_cnt` of `do_calc_lpt_geom`. -/
def maxPnodeCnt : ℕ := divRoundUp (c.mainLebs+c.maxLebCnt-c.lebCnt) UBIFS_LPT_FANOUT

/-- The loop that finds `lpt_hght`, with a bound on its rounds. -/
def hghtLoop (maxPnodeCnt : ℕ) : ℕ → ℕ → ℕ → ℕ
  | 0, hght, _ => hght
  | fuel+1, hght, n =>
    if n< maxPnodeCnt then hghtLoop maxPnodeCnt fuel (hght+1) (n<<<UBIFS_LPT_FANOUT_SHIFT)
    else hght

/-- `lpt_hght`. -/
def lptHght : ℕ := hghtLoop c.maxPnodeCnt c.maxPnodeCnt 1 UBIFS_LPT_FANOUT

/-- `space_bits`. -/
def spaceBits : ℕ := fls c.lebSize-3

/-- `lpt_lnum_bits`. -/
def lptLnumBits : ℕ := fls c.lptLebs

/-- `lpt_offs_bits`. -/
def lptOffsBits : ℕ := fls (c.lebSize-1)

/-- `lpt_spc_bits`. -/
def lptSpcBits : ℕ := fls c.lebSize

/-- `pcnt_bits`. -/
def pcntBits : ℕ := fls (divRoundUp c.maxLebCnt UBIFS_LPT_FANOUT-1)

/-- `lnum_bits`. -/
def lnumBits : ℕ := fls (c.maxLebCnt-1)

/-- The bits of the number of a node, which only the big model has. -/
def numBits : ℕ := if c.bigLpt then c.pcntBits else 0

/-- The bits of a pnode. -/
def pnodeBits : ℕ := UBIFS_LPT_CRC_BITS+UBIFS_LPT_TYPE_BITS+c.numBits+
  (c.spaceBits*2+1)*UBIFS_LPT_FANOUT

/-- The bits of a nnode. -/
def nnodeBits : ℕ := UBIFS_LPT_CRC_BITS+UBIFS_LPT_TYPE_BITS+c.numBits+
  (c.lptLnumBits+c.lptOffsBits)*UBIFS_LPT_FANOUT

/-- The bits of the table of the properties of the area itself. -/
def ltabBits : ℕ := UBIFS_LPT_CRC_BITS+UBIFS_LPT_TYPE_BITS+c.lptLebs*c.lptSpcBits*2

/-- The bits of the table of saved LEB numbers. -/
def lsaveBits : ℕ := UBIFS_LPT_CRC_BITS+UBIFS_LPT_TYPE_BITS+c.lnumBits*c.lsaveCnt

/-- `pnode_sz`. -/
def pnodeSz : ℕ := (c.pnodeBits+7)/8

/-- `nnode_sz`. -/
def nnodeSz : ℕ := (c.nnodeBits+7)/8

/-- `ltab_sz`. -/
def ltabSz : ℕ := (c.ltabBits+7)/8

/-- `lsave_sz`. -/
def lsaveSz : ℕ := (c.lsaveBits+7)/8

end Info

/-- `calc_nnode_num` -/
def calcNnodeNum (row col : ℕ) : ℕ :=
  go row col 1
where
  /-- The loop, with the number so far. -/
  go : ℕ → ℕ → ℕ → ℕ
    | 0, _, num => num
    | row+1, col, num =>
      go row (col>>>UBIFS_LPT_FANOUT_SHIFT)
        (num<<<UBIFS_LPT_FANOUT_SHIFT|||(col&&&(UBIFS_LPT_FANOUT-1)))

/-- `calc_pnode_num_from_parent`, with the height of the tree, the number of
the parent and the index in it. -/
def calcPnodeNumFromParent (hght pnum iip : ℕ) : ℕ :=
  go (hght-1) pnum 0<<<UBIFS_LPT_FANOUT_SHIFT|||iip
where
  /-- The loop, with the number so far. -/
  go : ℕ → ℕ → ℕ → ℕ
    | 0, _, num => num
    | n+1, pnum, num =>
      go n (pnum>>>UBIFS_LPT_FANOUT_SHIFT)
        (num<<<UBIFS_LPT_FANOUT_SHIFT|||(pnum&&&(UBIFS_LPT_FANOUT-1)))

/-! ## Bit fields -/

/-- Where to pack or unpack next: a byte and a bit of it. -/
structure Place where
  addr : ℕ
  pos : ℕ
  deriving DecidableEq

/-- A byte of the buffer is written. -/
def setByte (buf : List UInt8) (p v : ℕ) : Option (List UInt8) :=
  if p<buf.length then some (buf.set p (UInt8.ofNat v)) else none

/-- The bytes after the first one that `pack_bits` writes. -/
def packRest : ℕ → List UInt8 → ℕ → ℕ → Option (List UInt8×ℕ)
  | 0, buf, p, _ => some (buf,p)
  | n+1, buf, p, val => (setByte buf (p+1) val).bind fun buf => packRest n buf (p+1) (val>>>8)

/-- The first byte that `pack_bits` writes: it keeps the bits before the place. -/
def packFirst (buf : List UInt8) (p b val : ℕ) : Option (List UInt8) :=
  if b≠0 then buf[p]?.bind fun x => setByte buf p (x.toNat|||(val%2^8)<<<b)
  else setByte buf p val

/-- `pack_bits` -/
def packBits (buf : List UInt8) (place : Place) (val nrbits : ℕ) : Option (List UInt8×Place) :=
  let b := place.pos
  if 0<nrbits∧nrbits≤32∧b<8∧val>>>nrbits=0 then
    (packFirst buf place.addr b val).bind fun buf =>
      let nrbits := nrbits+b
      (packRest ((nrbits-1)/8) buf place.addr (val>>>(8-b))).map fun (buf,p) =>
        let b := nrbits%8
        (buf,⟨if b=0 then p+1 else p,b⟩)
  else none

/-- The bytes that `ubifs_unpack_bits` reads, as one number. -/
def readBytes (buf : List UInt8) : ℕ → ℕ → Option ℕ
  | _, 0 => some 0
  | p, n+1 => buf[p]?.bind fun x => (readBytes buf (p+1) n).map fun v => x.toNat|||v<<<8

/-- The value before it is cut to its width. In a field within one byte that
does not start it `val` is not set before it is shifted. -/
def unpackWord (garbage : ℕ) (buf : List UInt8) (p b bytes : ℕ) : Option ℕ :=
  if b≠0 then
    (if bytes=1 then some garbage else readBytes buf (p+1) (bytes-1)).bind fun val =>
      buf[p]?.map fun x => (val<<<(8-b))%2^32|||x.toNat>>>b
  else readBytes buf p bytes

/-- `ubifs_unpack_bits` -/
def ubifsUnpackBits (garbage : Place → ℕ) (buf : List UInt8) (place : Place) (nrbits : ℕ) :
    Option (ℕ×Place) :=
  let k := 32-nrbits
  let b := place.pos
  let bytes := (nrbits+b+7)>>>3
  if 0<nrbits∧nrbits≤32∧b<8 then
    (unpackWord (garbage place) buf place.addr b bytes).map fun val =>
      ((val<<<k%2^32)>>>k,⟨place.addr+(nrbits+b)>>>3,(nrbits+b)%8⟩)
  else none

/-! ## Packing nodes -/

/-- Values are packed one after another, each with its width. -/
def packAll : List (ℕ×ℕ) → List UInt8 → Place → Option (List UInt8×Place)
  | [], buf, place => some (buf,place)
  | (nrbits,val)::fs, buf, place =>
    (packBits buf place val nrbits).bind fun (buf,place) => packAll fs buf place

/-- The bytes of a node after its check sum. -/
def afterCrc (buf : List UInt8) (sz : ℕ) : Option (List UInt8) :=
  if sz≤buf.length then some ((buf.drop UBIFS_LPT_CRC_BYTES).take (sz-UBIFS_LPT_CRC_BYTES))
  else none

/-- What every pack function does with the values of its node. -/
def packNode (crc16 : List UInt8 → UInt16) (buf : List UInt8) (sz : ℕ) (fields : List (ℕ×ℕ)) :
    Option (List UInt8) :=
  (packAll fields buf ⟨UBIFS_LPT_CRC_BYTES,0⟩).bind fun (buf,_) =>
    (afterCrc buf sz).bind fun bytes =>
      (packBits buf ⟨0,0⟩ (crc16 bytes).toNat UBIFS_LPT_CRC_BITS).map Prod.fst

/-- `struct ubifs_pnode`. -/
structure Pnode where
  num : ℕ
  lprops : List Lprops
  deriving DecidableEq

/-- `struct ubifs_nbranch`. -/
structure Nbranch where
  lnum : ℕ
  offs : ℕ
  deriving DecidableEq

/-- `struct ubifs_nnode`. -/
structure Nnode where
  num : ℕ
  nbranch : List Nbranch
  deriving DecidableEq

/-- `struct ubifs_lpt_lprops`. -/
structure LptLprops where
  free : ℕ
  dirty : ℕ
  tgc : Bool := false
  cmt : Bool := false
  deriving DecidableEq

section

variable (c : Info) (crc16 : List UInt8 → UInt16) (buf : List UInt8)

/-- The number of a node, in the big model. -/
def numFields (num : ℕ) : List (ℕ×ℕ) := if c.bigLpt then [(c.pcntBits,num)] else []

/-- The values of LEB properties. -/
def lpropsFields (lprops : Lprops) : List (ℕ×ℕ) :=
  [(c.spaceBits,lprops.free>>>3),(c.spaceBits,lprops.dirty>>>3),(1,lprops.flags.index.toNat)]

/-- `ubifs_pack_pnode` -/
def ubifsPackPnode (pnode : Pnode) : Option (List UInt8) :=
  packNode crc16 buf c.pnodeSz ((UBIFS_LPT_TYPE_BITS,UBIFS_LPT_PNODE)::numFields c pnode.num++
    pnode.lprops.flatMap (lpropsFields c))

/-- The values of a branch. -/
def nbranchFields (b : Nbranch) : List (ℕ×ℕ) :=
  let lnum := if b.lnum=0 then c.lptLast+1 else b.lnum
  [(c.lptLnumBits,lnum-c.lptFirst),(c.lptOffsBits,b.offs)]

/-- `ubifs_pack_nnode` -/
def ubifsPackNnode (nnode : Nnode) : Option (List UInt8) :=
  packNode crc16 buf c.nnodeSz ((UBIFS_LPT_TYPE_BITS,UBIFS_LPT_NNODE)::numFields c nnode.num++
    nnode.nbranch.flatMap (nbranchFields c))

/-- The values of an entry of the table. -/
def ltabFields (l : LptLprops) : List (ℕ×ℕ) := [(c.lptSpcBits,l.free),(c.lptSpcBits,l.dirty)]

/-- `ubifs_pack_ltab` -/
def ubifsPackLtab (ltab : List LptLprops) : Option (List UInt8) :=
  packNode crc16 buf c.ltabSz ((UBIFS_LPT_TYPE_BITS,UBIFS_LPT_LTAB)::
    ltab.flatMap (ltabFields c))

/-- `ubifs_pack_lsave` -/
def ubifsPackLsave (lsave : List ℕ) : Option (List UInt8) :=
  packNode crc16 buf c.lsaveSz ((UBIFS_LPT_TYPE_BITS,UBIFS_LPT_LSAVE)::
    lsave.flatMap fun lnum => [(c.lnumBits,lnum)])

end

/-! ## Unpacking nodes -/

/-- What an unpack function does next, unless it has failed. -/
def andThen {α β : Type} (r : Option (Except ℤ α)) (f : α → Option (Except ℤ β)) :
    Option (Except ℤ β) :=
  r.bind fun r => match r with
    | .error err => some (.error err)
    | .ok x => f x

section

variable (c : Info) (crc16 : List UInt8 → UInt16) (garbage : Place → ℕ) (buf : List UInt8)

/-- `check_lpt_crc` -/
def checkLptCrc (len : ℕ) : Option (Except ℤ Unit) :=
  (ubifsUnpackBits garbage buf ⟨0,0⟩ UBIFS_LPT_CRC_BITS).bind fun (crc,_) =>
    (afterCrc buf len).map fun bytes =>
      if crc≠(crc16 bytes).toNat then .error (-EINVAL) else .ok ()

/-- `check_lpt_type` -/
def checkLptType (type : ℕ) (place : Place) : Option (Except ℤ Place) :=
  (ubifsUnpackBits garbage buf place UBIFS_LPT_TYPE_BITS).map fun (nodeType,place) =>
    if nodeType≠type then .error (-EINVAL) else .ok place

/-- The loop over the entries of a node. -/
def unpackLoop {α : Type} (entry : Place → Option (Except ℤ (α×Place))) :
    ℕ → Place → Option (Except ℤ (List α×Place))
  | 0, place => some (.ok ([],place))
  | n+1, place => andThen (entry place) fun (x,place) =>
    andThen (unpackLoop entry n place) fun (xs,place) => some (.ok (x::xs,place))

/-- The number of a node, which the small model leaves as it was. -/
def unpackNum (old : ℕ) (place : Place) : Option (ℕ×Place) :=
  if c.bigLpt then ubifsUnpackBits garbage buf place c.pcntBits else some (old,place)

/-- What every unpack function does: the type, the number of a node that has
one, the entries and last the check sum. -/
def unpackNode {α : Type} (type sz : ℕ) (num : Place → Option (ℕ×Place)) (cnt : ℕ)
    (entry : Place → Option (Except ℤ (α×Place))) : Option (Except ℤ (ℕ×List α)) :=
  andThen (checkLptType garbage buf type ⟨UBIFS_LPT_CRC_BYTES,0⟩) fun place =>
    (num place).bind fun (num,place) =>
      andThen (unpackLoop entry cnt place) fun (xs,_) =>
        andThen (checkLptCrc crc16 garbage buf sz) fun _ => some (.ok (num,xs))

/-- LEB properties in `unpack_pnode`. -/
def unpackLprops (place : Place) : Option (Except ℤ (Lprops×Place)) :=
  (ubifsUnpackBits garbage buf place c.spaceBits).bind fun (free,place) =>
    (ubifsUnpackBits garbage buf place c.spaceBits).bind fun (dirty,place) =>
      (ubifsUnpackBits garbage buf place 1).map fun (index,place) =>
        let lprops : Lprops := ⟨free<<<3,dirty<<<3,{ index := index≠0 }⟩
        .ok ({ lprops with
          flags := { lprops.flags with cat := ubifsCategorizeLprops c.toLimits lprops } },place)

/-- `unpack_pnode`, into a pnode. -/
def unpackPnode (pnode : Pnode) : Option (Except ℤ Pnode) :=
  andThen (unpackNode crc16 garbage buf UBIFS_LPT_PNODE c.pnodeSz
      (unpackNum c garbage buf pnode.num) UBIFS_LPT_FANOUT (unpackLprops c garbage buf))
    fun (num,lprops) => some (.ok ⟨num,lprops⟩)

/-- A branch in `ubifs_unpack_nnode`. -/
def unpackNbranch (place : Place) : Option (Except ℤ (Nbranch×Place)) :=
  (ubifsUnpackBits garbage buf place c.lptLnumBits).bind fun (lnum,place) =>
    let lnum := lnum+c.lptFirst
    let lnum := if lnum=c.lptLast+1 then 0 else lnum
    (ubifsUnpackBits garbage buf place c.lptOffsBits).map fun (offs,place) =>
      .ok (⟨lnum,offs⟩,place)

/-- `ubifs_unpack_nnode`, into a nnode. -/
def ubifsUnpackNnode (nnode : Nnode) : Option (Except ℤ Nnode) :=
  andThen (unpackNode crc16 garbage buf UBIFS_LPT_NNODE c.nnodeSz
      (unpackNum c garbage buf nnode.num) UBIFS_LPT_FANOUT (unpackNbranch c garbage buf))
    fun (num,nbranch) => some (.ok ⟨num,nbranch⟩)

/-- The value of an `int`. -/
def int (n : ℕ) : ℤ := (n : ℤ).bmod (2^32)

/-- An entry of the table in `unpack_ltab`. -/
def unpackLtabEntry (place : Place) : Option (Except ℤ (LptLprops×Place)) :=
  (ubifsUnpackBits garbage buf place c.lptSpcBits).bind fun (free,place) =>
    (ubifsUnpackBits garbage buf place c.lptSpcBits).map fun (dirty,place) =>
      if int free<0∨c.lebSize< int free∨int dirty<0∨c.lebSize< int dirty∨
          c.lebSize< int (free+dirty) then .error (-EINVAL)
      else .ok (⟨free,dirty,false,false⟩,place)

/-- `unpack_ltab` -/
def unpackLtab : Option (Except ℤ (List LptLprops)) :=
  andThen (unpackNode crc16 garbage buf UBIFS_LPT_LTAB c.ltabSz (fun place => some (0,place))
    c.lptLebs (unpackLtabEntry c garbage buf)) fun (_,ltab) => some (.ok ltab)

/-- A LEB number in `unpack_lsave`. -/
def unpackLsaveEntry (place : Place) : Option (Except ℤ (ℕ×Place)) :=
  (ubifsUnpackBits garbage buf place c.lnumBits).map fun (lnum,place) =>
    if lnum<c.mainFirst∨c.lebCnt≤lnum then .error (-EINVAL) else .ok (lnum,place)

/-- `unpack_lsave` -/
def unpackLsave : Option (Except ℤ (List ℕ)) :=
  andThen (unpackNode crc16 garbage buf UBIFS_LPT_LSAVE c.lsaveSz (fun place => some (0,place))
    c.lsaveCnt (unpackLsaveEntry c garbage buf)) fun (_,lsave) => some (.ok lsave)

end

end ArdroneKernel.UbifsLpt
