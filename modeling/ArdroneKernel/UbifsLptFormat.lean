import ArdroneKernel.UbifsLptTree

/-!
# A new LEB properties tree

Executable model of `calc_dflt_lpt_geom` and `ubifs_create_dflt_lpt` of
`fs/ubifs/lpt.c`, and of `read_ltab` and `read_lsave`. The nodes are packed into
a buffer of one LEB, which is written when the next node has no room. What went
where is kept in a log that the source does not have.
-/

namespace ArdroneKernel.UbifsLpt

open UbifsLprops

def UBIFS_INO_NODE_SZ : ℕ := 160

def UBIFS_IDX_NODE_SZ : ℕ := 28

def UBIFS_BRANCH_SZ : ℕ := 12

def UBIFS_SK_LEN : ℕ := 8

def UBIFS_MIN_LEB_CNT : ℕ := 17

def DEFAULT_LSAVE_CNT : ℕ := 256

/-- `ALIGN` -/
def align (x a : ℕ) : ℕ := (x+a-1)/a*a

/-- `ubifs_idx_node_sz`, with the only length of keys there is. -/
def ubifsIdxNodeSz (childCnt : ℕ) : ℕ := UBIFS_IDX_NODE_SZ+(UBIFS_BRANCH_SZ+UBIFS_SK_LEN)*childCnt

/-! ## Geometry -/

namespace LptInfo

variable (c : LptInfo)

/-- `pnode_cnt`. -/
def pnodeCnt : ℕ := divRoundUp c.mainLebs UBIFS_LPT_FANOUT

/-- The loop over the levels that counts the nnodes. -/
def nnodeCntLoop : ℕ → ℕ → ℕ → ℕ
  | 0,_,cnt => cnt
  | levels+1,n,cnt =>
    let n := divRoundUp n UBIFS_LPT_FANOUT
    nnodeCntLoop levels n (cnt+n)

/-- `nnode_cnt`. -/
def nnodeCnt : ℕ :=
  let n := divRoundUp c.pnodeCnt UBIFS_LPT_FANOUT
  nnodeCntLoop (c.lptHght-1) n n

/-- `lpt_sz` before the wastage is added. -/
def lptSzNet : ℕ :=
  c.pnodeCnt*c.pnodeSz+c.nnodeCnt*c.nnodeSz+c.ltabSz+if c.bigLpt then c.lsaveSz else 0

/-- The loop that adds the wastage of one LEB after another, with a bound on
its rounds. -/
def wastageLoop (perLeb : ℕ) : ℕ → ℕ → ℕ → ℕ×ℕ
  | 0,sz,tot => (sz,tot)
  | fuel+1,sz,tot =>
    if c.lebSize<sz then wastageLoop perLeb fuel (sz+perLeb-c.lebSize) (tot+perLeb) else (sz,tot)

/-- `lpt_sz`. -/
def lptSz : ℕ :=
  let perLeb := max c.pnodeSz c.nnodeSz
  let (sz,tot) := c.wastageLoop perLeb (c.lptSzNet+perLeb) (c.lptSzNet+perLeb) perLeb
  c.lptSzNet+(tot+(align sz c.minIoSize-sz))

end LptInfo

/-- The loop of `calc_dflt_lpt_geom` that finds enough LEBs, for some rounds. -/
def dfltGeomLoop (mainLebs : ℕ) : ℕ → LptInfo → Except ℤ LptInfo
  | 0,_ => .error (-EINVAL)
  | rounds+1,c =>
    let lebsNeeded := (c.lptSz*4+c.lebSize-1)/c.lebSize
    if c.lptLebs<lebsNeeded then
      if mainLebs≤lebsNeeded then .error (-EINVAL)
      else dfltGeomLoop mainLebs rounds {c with lptLebs := lebsNeeded,mainLebs := mainLebs-lebsNeeded}
    else if c.lebSize<c.ltabSz then .error (-EINVAL)
    else .ok c

/-- `calc_dflt_lpt_geom` -/
def calcDfltLptGeom (c : LptInfo) (mainLebs : ℕ) : Except ℤ LptInfo :=
  if mainLebs≤UBIFS_MIN_LPT_LEBS then .error (-EINVAL)
  else
    let c : LptInfo := {c with
      lptLebs := UBIFS_MIN_LPT_LEBS
      mainLebs := mainLebs-UBIFS_MIN_LPT_LEBS
      bigLpt := false}
    dfltGeomLoop mainLebs 64 (if c.lebSize<c.lptSz then {c with bigLpt := true} else c)

/-! ## LEBs are filled -/

/-- What is written: pnodes by their numbers, nnodes by row and column, and the
two tables. -/
inductive Item where
  | pnode (num : ℕ)
  | nnode (row col : ℕ)
  | lsave
  | ltab
  deriving DecidableEq

/-- Something that has been packed, and where. -/
structure Placed where
  item : Item
  lnum : ℕ
  offs : ℕ
  bytes : List UInt8

/-- The variables of `ubifs_create_dflt_lpt` for the LEB that is filled. -/
structure Writer where
  lnum : ℕ
  len : ℕ
  buf : List UInt8
  ltab : List LptLprops
  /-- The LEBs that have been written. -/
  flash : ℕ → Option (List UInt8)
  /-- What has been packed. -/
  log : List Placed

section

variable (c : LptInfo)

/-- `set_ltab`, inside the area. -/
def setLtab (ltab : List LptLprops) (lnum free dirty : ℕ) : Option (List LptLprops) :=
  if c.lptFirst≤lnum∧lnum≤c.lptLast then
    (ltab[lnum-c.lptFirst]?).map fun l =>
      ltab.set (lnum-c.lptFirst) {l with free := free,dirty := dirty}
  else none

/-- `ubi_leb_change`, which may fail. -/
def ubiLebChange (fails : ℕ → Option ℤ) (lnum : ℕ) (data : List UInt8) : Option ℤ :=
  if c.lebSize<data.length then some (-EINVAL) else fails lnum

/-- The buffer is padded and written. -/
def Writer.change (fails : ℕ → Option ℤ) (w : Writer) : Except ℤ Writer :=
  let alen := align w.len c.minIoSize
  let data := w.buf.take w.len++List.replicate (alen-w.len) 0xff
  match ubiLebChange c fails w.lnum data with
  | some err => .error err
  | none => .ok {w with
      buf := data++w.buf.drop alen
      flash := Function.update w.flash w.lnum (some data)}

/-- The next node starts a LEB when it has no room in this one. -/
def Writer.breakLeb (fails : ℕ → Option ℤ) (sz : ℕ) (w : Writer) : Option (Except ℤ Writer) :=
  if c.lebSize<w.len+sz then
    let alen := align w.len c.minIoSize
    (setLtab c w.ltab w.lnum (c.lebSize-alen) (alen-w.len)).map fun ltab =>
      match {w with ltab := ltab}.change c fails with
      | .error err => .error err
      | .ok w => .ok {w with lnum := w.lnum+1,len := 0}
  else some (.ok w)

end

/-- A node is packed at the end of the buffer. -/
def Writer.put (item : Item) (sz : ℕ) (pack : List UInt8 → Option (List UInt8)) (w : Writer) :
    Option (Except ℤ Writer) :=
  (pack ((w.buf.drop w.len).take sz)).map fun bytes =>
    .ok {w with
      buf := w.buf.take w.len++bytes++w.buf.drop (w.len+sz)
      len := w.len+sz
      log := w.log++[⟨item,w.lnum,w.len,bytes⟩]}

/-! ## Pnodes and nnodes -/

/-- The properties of the LEB with the root of the index. -/
def indexLprops (c : LptInfo) : Lprops :=
  let nodeSz := align (ubifsIdxNodeSz 1) 8
  let iopos := align nodeSz c.minIoSize
  ⟨c.lebSize-iopos,iopos-nodeSz,{ index := true }⟩

/-- The properties of the LEB with the root inode. -/
def inodeLprops (c : LptInfo) : Lprops :=
  let nodeSz := UBIFS_INO_NODE_SZ
  let iopos := align nodeSz c.minIoSize
  ⟨c.lebSize-iopos,iopos-nodeSz,{}⟩

/-- The properties of a LEB without data. -/
def freeLprops (c : LptInfo) : Lprops := ⟨c.lebSize,0,{}⟩

/-- The pnodes of an empty file-system. -/
def dfltPnode (c : LptInfo) (num : ℕ) : Pnode :=
  if num=0 then ⟨0,[indexLprops c,inodeLprops c,freeLprops c,freeLprops c]⟩
  else ⟨num,List.replicate UBIFS_LPT_FANOUT (freeLprops c)⟩

/-- Where the next node of the level below is, and how many there are. -/
structure Below where
  blnum : ℕ
  boffs : ℕ
  bcnt : ℕ

/-- Where the root is. -/
structure Root where
  lptLnum : ℕ
  lptOffs : ℕ

section

variable (c : LptInfo) (crc16 : List UInt8 → UInt16) (fails : ℕ → Option ℤ)

/-- The loop over the remaining pnodes. -/
def addPnodes : ℕ → ℕ → Writer → Option (Except ℤ Writer)
  | 0,_,w => some (.ok w)
  | n+1,num,w =>
    andThen (w.breakLeb c fails c.pnodeSz) fun w =>
      andThen (w.put (.pnode num) c.pnodeSz fun buf =>
        ubifsPackPnode c.toInfo crc16 buf (dfltPnode c num)) fun w => addPnodes n (num+1) w

/-- The loop that sets the branches of a nnode, for some of them. -/
def setBranches (bsz : ℕ) : ℕ → Below → List Nbranch×Below
  | 0,b => ([],b)
  | n+1,b =>
    if b.bcnt≠0 then
      let b := if c.lebSize<b.boffs+bsz then {b with blnum := b.blnum+1,boffs := 0} else b
      let (rest,b') := setBranches bsz n {b with boffs := b.boffs+bsz,bcnt := b.bcnt-1}
      (⟨b.blnum,b.boffs⟩::rest,b')
    else
      let (rest,b') := setBranches bsz n b
      (⟨0,0⟩::rest,b')

/-- The loop over the nnodes of a row, with the number of them in the row. -/
def addRow (row bsz cnt : ℕ) :
    ℕ → ℕ → Root → Below → Writer → Option (Except ℤ (Root×Below×Writer))
  | 0,_,root,b,w => some (.ok (root,b,w))
  | n+1,i,root,b,w =>
    andThen (w.breakLeb c fails c.nnodeSz) fun w =>
      let root : Root := if cnt=1 then ⟨w.lnum,w.len⟩ else root
      let (nbranch,b) := setBranches c bsz UBIFS_LPT_FANOUT b
      andThen (w.put (.nnode row i) c.nnodeSz fun buf =>
        ubifsPackNnode c.toInfo crc16 buf ⟨calcNnodeNum row i,nbranch⟩) fun w =>
          addRow row bsz cnt n (i+1) root b w

/-- The loop that finds the row above the pnodes, which is the one of `lpt_hght`. -/
def lowestRow (cnt : ℕ) : ℕ := Info.hghtLoop cnt cnt 0 UBIFS_LPT_FANOUT

/-- The loop over the rows, with a bound on its rounds. -/
def addRows : ℕ → ℕ → ℕ → ℕ → Root → Below → Writer → Option (Except ℤ (Root×Writer))
  | 0,_,_,_,_,_,_ => none
  | fuel+1,row,cnt,bsz,root,b,w =>
    let cnt := divRoundUp cnt UBIFS_LPT_FANOUT
    andThen (addRow c crc16 fails row bsz cnt cnt 0 root b w) fun (root,b,w) =>
      if cnt=1 then some (.ok (root,w))
      else addRows fuel (row-1) cnt c.nnodeSz root {b with bcnt := cnt} w

/-! ## The tables -/

/-- The LEB numbers that are saved. -/
def dfltLsave : List ℕ :=
  (List.range c.lsaveCnt).map fun i => if i<c.mainLebs then c.mainFirst+i else c.mainFirst

/-- The save table of the big model, and where it is. -/
def addLsave (w : Writer) : Option (Except ℤ (ℕ×ℕ×Writer)) :=
  if c.bigLpt then
    andThen (w.breakLeb c fails c.lsaveSz) fun w =>
      andThen (w.put .lsave c.lsaveSz fun buf =>
        ubifsPackLsave c.toInfo crc16 buf (dfltLsave c)) fun w' =>
          some (.ok (w.lnum,w.len,w'))
  else some (.ok (0,0,w))

/-- The table of the area, with its own space accounted for, and the last LEB. -/
def addLtab (w : Writer) : Option (Except ℤ (ℕ×ℕ×Writer)) :=
  andThen (w.breakLeb c fails c.ltabSz) fun w =>
    let alen := align (w.len+c.ltabSz) c.minIoSize
    (setLtab c w.ltab w.lnum (c.lebSize-alen) (alen-(w.len+c.ltabSz))).bind fun ltab =>
      andThen ({w with ltab := ltab}.put .ltab c.ltabSz fun buf =>
        ubifsPackLtab c.toInfo crc16 buf ltab) fun w' =>
          match w'.change c fails with
          | .error err => some (.error err)
          | .ok w' => some (.ok (w.lnum,w.len,w'))

end

/-- What `ubifs_create_dflt_lpt` leaves. -/
structure Created where
  info : LptInfo
  root : Root
  lsaveLnum : ℕ
  lsaveOffs : ℕ
  ltabLnum : ℕ
  ltabOffs : ℕ
  nheadLnum : ℕ
  nheadOffs : ℕ
  flash : ℕ → Option (List UInt8)
  log : List Placed

/-- What `ubifs_create_dflt_lpt` writes, with what is in the buffer before. -/
def writeDfltLpt (c : LptInfo) (crc16 : List UInt8 → UInt16) (fails : ℕ → Option ℤ)
    (buf : List UInt8) : Option (Except ℤ Created) :=
  let w : Writer := ⟨c.lptFirst,0,buf,List.replicate c.lptLebs ⟨c.lebSize,0,false,false⟩,
    fun _ => none,[]⟩
  andThen (w.put (.pnode 0) c.pnodeSz fun buf =>
    ubifsPackPnode c.toInfo crc16 buf (dfltPnode c 0)) fun w =>
  andThen (addPnodes c crc16 fails (c.pnodeCnt-1) 1 w) fun w =>
  andThen (addRows c crc16 fails c.pnodeCnt (lowestRow c.pnodeCnt) c.pnodeCnt c.pnodeSz ⟨0,0⟩
    ⟨c.lptFirst,0,c.pnodeCnt⟩ w) fun (root,w) =>
  andThen (addLsave c crc16 fails w) fun (lsaveLnum,lsaveOffs,w) =>
  andThen (addLtab c crc16 fails w) fun (ltabLnum,ltabOffs,w) =>
    some (.ok ⟨c,root,lsaveLnum,lsaveOffs,ltabLnum,ltabOffs,w.lnum,align w.len c.minIoSize,
      w.flash,w.log⟩)

/-- `ubifs_create_dflt_lpt` -/
def ubifsCreateDfltLpt (c : LptInfo) (crc16 : List UInt8 → UInt16) (fails : ℕ → Option ℤ)
    (buf : List UInt8) (mainLebs lptFirst : ℕ) : Option (Except ℤ Created) :=
  match calcDfltLptGeom c mainLebs with
  | .error err => some (.error err)
  | .ok c => writeDfltLpt {c with lptFirst := lptFirst} crc16 fails buf

/-! ## The tables are read -/

section

variable (c : LptInfo) (f : Flash)

/-- `read_ltab` -/
def readLtab (ltabLnum ltabOffs : ℕ) : Option (Except ℤ (List LptLprops)) :=
  match f.ubiRead ltabLnum ltabOffs c.ltabSz with
  | .error err => some (.error err)
  | .ok buf => unpackLtab c.toInfo f.crc16 f.garbage buf

/-- The loop of `read_lsave`, which gets the properties into memory. -/
def lookupAll : List ℕ → LptM Unit
  | [] => pure ()
  | lnum::lsave =>
    if lnum≥c.lebCnt then lookupAll lsave
    else do
      let _ ← ubifsLptLookup c f lnum
      lookupAll lsave

/-- `read_lsave` -/
def readLsave (lsaveLnum lsaveOffs : ℕ) : LptM (List ℕ) := fun s =>
  match f.ubiRead lsaveLnum lsaveOffs c.lsaveSz with
  | .error err => some (.error err,s)
  | .ok buf => (unpackLsave c.toInfo f.crc16 f.garbage buf).bind fun r => match r with
    | .error err => some (.error err,s)
    | .ok lsave => (lookupAll c f lsave s).map fun (r,s) => (r.map fun _ => lsave,s)

end

end ArdroneKernel.UbifsLpt
