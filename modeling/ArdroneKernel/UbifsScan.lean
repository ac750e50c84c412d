import ArdroneKernel.CheckedBuffer

/-!
# Scanning a LEB

`ubifs_scan_a_node`, `ubifs_add_snod` and `ubifs_scan` of `fs/ubifs/scan.c`,
`ubifs_check_node` and `ubifs_pad` of `fs/ubifs/io.c`, and `ubifs_recover_leb` of
`fs/ubifs/recovery.c` with what it calls. The outer option fails when a byte outside
of the scan buffer is touched or the fuel runs out. Messages are left out, the dump of
a corrupted area is not.
-/

namespace ArdroneKernel.UbifsScan

open CheckedBuffer LittleEndian

/-! ## Sizes and codes -/

/-- `UBIFS_NODE_MAGIC` -/
def NODE_MAGIC : ℕ := 0x06101831

/-- `UBIFS_CH_SZ` -/
def CH_SZ : ℕ := 24

/-- `UBIFS_PAD_NODE_SZ` -/
def PAD_NODE_SZ : ℕ := 28

/-- `UBIFS_PADDING_BYTE` -/
def PADDING_BYTE : UInt8 := 0xce

/-- `UBIFS_DATA_NODE` -/
def DATA_NODE : ℕ := 1

/-- `UBIFS_PAD_NODE` -/
def PAD_NODE : ℕ := 5

/-- `UBIFS_NODE_TYPES_CNT` -/
def NODE_TYPES_CNT : ℕ := 12

/-- `UBIFS_IN_NODE_GROUP` -/
def IN_NODE_GROUP : ℕ := 1

/-- `-EUCLEAN` -/
def EUCLEAN : ℤ := -117

/-- `-EINVAL` -/
def EINVAL : ℤ := -22

/-- `-ENOMEM` -/
def ENOMEM : ℤ := -12

/-- `-EBADMSG` -/
def EBADMSG : ℤ := -74

/-- `SCANNED_GARBAGE` -/
def GARBAGE : ℤ := 0

/-- `SCANNED_EMPTY_SPACE` -/
def EMPTY_SPACE : ℤ := -1

/-- `SCANNED_A_NODE` -/
def A_NODE : ℤ := -2

/-- `SCANNED_A_CORRUPT_NODE` -/
def A_CORRUPT_NODE : ℤ := -3

/-- `SCANNED_A_BAD_PAD_NODE` -/
def A_BAD_PAD_NODE : ℤ := -4

/-- `UBIFS_IDX_NODE_SZ` and `UBIFS_BRANCH_SZ` with keys, as in `ubifs_idx_node_sz`. -/
def idxNodeSz (keyLen childCnt : ℕ) : ℕ := 28+(12+keyLen)*childCnt

/-- What `struct ubifs_info` tells. The mount has seen to it that the I/O unit is a power of two
and at least 8, a LEB is made of I/O units and the largest indexing node fits in one. -/
structure Info where
  /-- `leb_size`. -/
  lebSize : ℕ
  /-- `min_io_shift`. -/
  minIoShift : ℕ
  /-- `max_write_shift`. -/
  maxWriteShift : ℕ
  /-- `fanout`. -/
  fanout : ℕ
  /-- `key_len`. -/
  keyLen : ℕ
  /-- `crc32`, from `UBIFS_CRC32_INIT`. -/
  crc32 : List UInt8 → ℕ
  /-- `mounting` or `remounting_rw`, when CRCs of data nodes are always checked. -/
  mounting : Bool
  /-- `no_chk_data_crc`. -/
  noChkDataCrc : Bool
  /-- `ro_mount` and not `remounting_rw`. -/
  roMount : Bool
  lebInt : lebSize<2^31
  minIo : 3≤ minIoShift
  unit : 2^minIoShift∣lebSize
  ioLe : minIoShift≤ maxWriteShift
  maxWrite : maxWriteShift≤30
  idxFits : idxNodeSz keyLen fanout≤lebSize

/-- `min_io_size`. -/
def Info.minIoSize (c : Info) : ℕ := 2^c.minIoShift

/-- `max_write_size`. -/
def Info.maxWriteSize (c : Info) : ℕ := 2^c.maxWriteShift

/-- What UBI and the allocator answer during a scan. -/
structure Env where
  /-- The result of `ubi_read` into the scan buffer. -/
  readErr : ℤ
  /-- Whether there is memory for the scanning information. -/
  allocSleb : Bool
  /-- Whether there is memory for the node at an offset. -/
  alloc : ℤ → Bool
  /-- Whether there is memory to note an unclean LEB. -/
  allocUnclean : Bool
  /-- The result of unmapping the LEB. -/
  unmapErr : ℤ
  /-- The result of reading what is before the start of the scan. -/
  headErr : ℤ
  /-- The bytes before the start of the scan. -/
  head : List UInt8
  /-- The result of `ubi_leb_change`. -/
  changeErr : ℤ
  /-- What is on flash. -/
  flash : List UInt8

/-- A number in an `int`. -/
def int32 (x : ℤ) : ℤ := (x+2^31)%2^32-2^31

/-- An `int` as a `size_t`. -/
def sizeT (x : ℤ) : ℕ := (x%2^32).toNat

/-- `ALIGN` of an `int` to a power of two. -/
def align (x a : ℤ) : ℤ := int32 (x+a-1)/a*a

/-- `ubifs_idx_node_sz` -/
def ubifsIdxNodeSz (c : Info) (childCnt : ℕ) : ℕ := idxNodeSz c.keyLen childCnt

/-- `ranges`: the shortest or only length, and the longest or zero. -/
def ranges (c : Info) : ℕ → ℕ×ℕ
  | 0 => (160,160+4096)
  | 1 => (48,48+4096)
  | 2 => (56,56+255+1)
  | 3 => (56,56+255+1)
  | 4 => (56,0)
  | 5 => (PAD_NODE_SZ,0)
  | 6 => (4096,0)
  | 7 => (512,0)
  | 8 => (64,0)
  | 9 => (ubifsIdxNodeSz c 1,ubifsIdxNodeSz c c.fanout)
  | 10 => (32,0)
  | _ => (32+8,c.lebSize)

/-! ## Nodes -/

/-- The length of a node of a type is not one of the right ones. -/
def badLen (c : Info) (type : ℕ) (nodeLen : ℤ) : Prop :=
  if (ranges c type).2=0 then nodeLen≠(ranges c type).1
  else nodeLen<(ranges c type).1∨(ranges c type).2<nodeLen

instance (c : Info) (type : ℕ) (nodeLen : ℤ) : Decidable (badLen c type nodeLen) := by
  unfold badLen
  infer_instance

/-- `ubifs_check_node` -/
def ubifsCheckNode (c : Info) (buf : List UInt8) (pos offs : ℤ) (mustChkCrc : Bool) : Option ℤ :=
  (readField buf pos 4).bind fun magic =>
  if magic≠NODE_MAGIC then some EUCLEAN
  else
    (readField buf (pos+20) 1).bind fun type =>
    if NODE_TYPES_CNT≤type then some EINVAL
    else
      (readField buf (pos+16) 4).bind fun len =>
      let nodeLen := int32 len
      if c.lebSize< int32 (nodeLen+offs)∨badLen c type nodeLen then some EINVAL
      else if mustChkCrc=false∧type=DATA_NODE∧c.mounting=false∧c.noChkDataCrc=true then some 0
      else
        (readBytes buf (pos+8) (sizeT (nodeLen-8))).bind fun bytes =>
        (readField buf (pos+4) 4).bind fun nodeCrc =>
        if c.crc32 bytes≠nodeCrc then some EUCLEAN else some 0

/-- `scan_padding_bytes` -/
def scanPaddingBytes (buf : List UInt8) (pos len : ℤ) : Option ℤ :=
  (countRun buf PADDING_BYTE pos (min (PAD_NODE_SZ : ℤ) len).toNat).map fun padLen : ℕ =>
    if padLen=0∨padLen%8≠0 then GARBAGE else (padLen : ℤ)

/-- What a padding node with a right checksum scans as. -/
def scanPadNode (c : Info) (offs nodeLen padLen : ℤ) : ℤ :=
  if padLen<0∨c.lebSize< int32 (int32 (offs+nodeLen)+padLen) then A_BAD_PAD_NODE
  else if int32 (nodeLen+padLen)%8≠0 then A_BAD_PAD_NODE
  else int32 (nodeLen+padLen)

/-- `ubifs_scan_a_node` -/
def ubifsScanANode (c : Info) (buf : List UInt8) (pos len offs : ℤ) : Option ℤ :=
  (readField buf pos 4).bind fun magic =>
  if magic=0xffffffff then some EMPTY_SPACE
  else if magic≠NODE_MAGIC then scanPaddingBytes buf pos len
  else if len<CH_SZ then some GARBAGE
  else
    (ubifsCheckNode c buf pos offs true).bind fun err =>
    if err≠0 then some A_CORRUPT_NODE
    else
      (readField buf (pos+20) 1).bind fun type =>
      if type=PAD_NODE then
        (readField buf (pos+24) 4).bind fun padLen =>
        (readField buf (pos+16) 4).map fun nodeLen : ℕ =>
        scanPadNode c offs (int32 nodeLen) (int32 padLen)
      else some A_NODE

/-- `struct ubifs_scan_node`. -/
structure Snod where
  sqnum : ℕ
  type : ℕ
  offs : ℤ
  len : ℤ
  /-- `node`, from the start of the scan buffer. -/
  node : ℤ
  /-- The words of `key`, if the node has one. -/
  key : Option (ℕ×ℕ)

/-- The key of a node that has one. -/
def readKey (buf : List UInt8) (pos : ℤ) (type : ℕ) : Option (Option (ℕ×ℕ)) :=
  if type<4 then
    (readField buf (pos+24) 4).bind fun k =>
    (readField buf (pos+28) 4).map fun l => some (k,l)
  else some none

/-- `ubifs_add_snod`, as far as the new entry goes. -/
def ubifsAddSnod (env : Env) (buf : List UInt8) (pos offs : ℤ) : Option (Except ℤ Snod) :=
  if env.alloc offs then
    (readField buf (pos+8) 8).bind fun sqnum =>
    (readField buf (pos+20) 1).bind fun type =>
    (readField buf (pos+16) 4).bind fun len =>
    (readKey buf pos type).map fun key => .ok ⟨sqnum,type,offs,int32 len,pos,key⟩
  else some (.error ENOMEM)

/-! ## The scan -/

/-- Where a scan stands, and the nodes that it has listed. -/
structure Cursor where
  offs : ℤ
  /-- `buf`, from the start of the scan buffer. -/
  pos : ℤ
  len : ℤ
  nodes : List Snod

/-- The scan goes on so many bytes further. -/
def Cursor.skip (cur : Cursor) (n : ℤ) : Cursor where
  offs := int32 (cur.offs+n)
  pos := cur.pos+n
  len := int32 (cur.len-n)
  nodes := cur.nodes

/-- A valid node is listed and skipped. -/
def takeNode (env : Env) (buf : List UInt8) (cur : Cursor) : Option (Except ℤ Cursor) :=
  (ubifsAddSnod env buf cur.pos cur.offs).bind fun
    | .error err => some (.error err)
    | .ok snod =>
      (readField buf (cur.pos+16) 4).map fun len : ℕ =>
        .ok ({cur with nodes := cur.nodes++[snod]}.skip (int32 ((len+7)%2^32/8*8 : ℕ)))

/-- The dump of `ubifs_scanned_corruption`. -/
def hexDump (c : Info) (buf : List UInt8) (cur : Cursor) : Option (List UInt8) :=
  readBytes buf cur.pos (sizeT (min 8192 (int32 (c.lebSize-cur.offs))))

/-- The corrupted end of a scan. -/
def corrupted {α : Type} (c : Info) (buf : List UInt8) (quiet : Bool) (cur : Cursor) :
    Option (Except ℤ α) :=
  if quiet then some (.error EUCLEAN) else (hexDump c buf cur).map fun _ => .error EUCLEAN

/-- The main loop of `ubifs_scan`. -/
def scanLoop (c : Info) (env : Env) (buf : List UInt8) (quiet : Bool) :
    ℕ → Cursor → Option (Except ℤ Cursor)
  | 0, _ => none
  | n+1, cur =>
    if cur.len<8 then some (.ok cur)
    else
      (ubifsScanANode c buf cur.pos cur.len cur.offs).bind fun ret =>
      if 0<ret then scanLoop c env buf quiet n (cur.skip ret)
      else if ret=EMPTY_SPACE then some (.ok cur)
      else if ret=GARBAGE∨ret=A_CORRUPT_NODE∨ret=A_BAD_PAD_NODE then corrupted c buf quiet cur
      else if ret=A_NODE then
        (takeNode env buf cur).bind fun
          | .error err => some (.error err)
          | .ok cur => scanLoop c env buf quiet n cur
      else some (.error EINVAL)

/-- The words of empty space. -/
def skipWords (buf : List UInt8) : ℕ → Cursor → Option Cursor
  | 0, _ => none
  | n+1, cur =>
    if 4<cur.len then
      (readField buf cur.pos 4).bind fun word =>
      if word≠0xffffffff then some cur else skipWords buf n (cur.skip 4)
    else some cur

/-- The bytes of empty space, and whether all of it is empty. -/
def skipBytes (buf : List UInt8) : ℕ → Cursor → Option (Cursor×Bool)
  | 0, _ => none
  | n+1, cur =>
    if cur.len≠0 then
      (readField buf cur.pos 1).bind fun byte =>
      if byte≠0xff then some (cur,false) else skipBytes buf n (cur.skip 1)
    else some (cur,true)

/-- `struct ubifs_scan_leb`. -/
structure Sleb where
  nodes : List Snod
  endpt : ℤ
  ecc : Bool

/-- `ubifs_start_scan`: whether the data may have bit errors. -/
def ubifsStartScan (env : Env) : Except ℤ Bool :=
  if env.allocSleb=false then .error ENOMEM
  else if env.readErr≠0∧env.readErr≠EBADMSG then .error env.readErr
  else .ok (decide (env.readErr=EBADMSG))

/-- The scan at the start. -/
def Cursor.start (c : Info) (offs : ℤ) : Cursor := ⟨offs,offs,int32 (c.lebSize-offs),[]⟩

/-- What `ubifs_scan` does after its loop. -/
def scanEnd (c : Info) (buf : List UInt8) (quiet ecc : Bool) (fuel : ℕ) (cur : Cursor) :
    Option (Except ℤ Sleb) :=
  if cur.offs%c.minIoSize≠0 then corrupted c buf quiet cur
  else
    (skipWords buf fuel cur).bind fun words =>
    (skipBytes buf fuel words).bind fun bytes =>
    if bytes.2 then some (.ok ⟨cur.nodes,align cur.offs c.minIoSize,ecc⟩)
    else corrupted c buf quiet bytes.1

/-- `ubifs_scan`. What it has read of the LEB is in the buffer. -/
def ubifsScan (c : Info) (env : Env) (buf : List UInt8) (offs : ℤ) (quiet : Bool) (fuel : ℕ) :
    Option (Except ℤ Sleb) :=
  match ubifsStartScan env with
  | .error err => some (.error err)
  | .ok ecc =>
    (scanLoop c env buf quiet fuel (Cursor.start c offs)).bind fun
      | .error err => some (.error err)
      | .ok cur => scanEnd c buf quiet ecc fuel cur

/-! ## Recovery -/

/-- `is_empty` -/
def isEmpty (buf : List UInt8) (pos len : ℤ) : Option Bool :=
  (countRun buf 0xff pos len.toNat).map fun n : ℕ => decide (n=len.toNat)

/-- `first_non_ff` -/
def firstNonFf (buf : List UInt8) (pos len : ℤ) : Option ℤ :=
  (countRun buf 0xff pos len.toNat).map fun n : ℕ => if n<len.toNat then (n : ℤ) else -1

/-- `is_last_write` -/
def isLastWrite (c : Info) (buf : List UInt8) (pos offs : ℤ) : Option Bool :=
  let emptyOffs := align (int32 (offs+1)) c.maxWriteSize
  isEmpty buf (pos+emptyOffs-offs) (int32 (c.lebSize-emptyOffs))

/-- The padding node that `ubifs_pad` writes, for so many bytes after it. -/
def padNode (c : Info) (padLen : ℕ) : List UInt8 :=
  let body := leBytes 8 0++leBytes 4 PAD_NODE_SZ++[UInt8.ofNat PAD_NODE,0,0,0]++leBytes 4 padLen
  leBytes 4 NODE_MAGIC++leBytes 4 (c.crc32 body)++body

/-- `ubifs_pad` -/
def ubifsPad (c : Info) (buf : List UInt8) (pos pad : ℤ) : Option (List UInt8) :=
  if (PAD_NODE_SZ : ℤ)≤pad then
    (writeBytes buf pos (padNode c (sizeT (pad-PAD_NODE_SZ)))).bind fun buf =>
    fill buf (pos+PAD_NODE_SZ) (sizeT (pad-PAD_NODE_SZ)) 0
  else if 0<pad then fill buf pos (sizeT pad) PADDING_BYTE
  else some buf

/-- `clean_buf` -/
def cleanBuf (c : Info) (buf : List UInt8) (cur : Cursor) : Option (List UInt8×Cursor) :=
  let emptyOffs := align cur.offs c.minIoSize
  let padLen := int32 (emptyOffs-cur.offs)
  (ubifsPad c buf cur.pos padLen).bind fun buf =>
  let cur := cur.skip padLen
  (fill buf cur.pos (sizeT (int32 (c.lebSize-emptyOffs))) 0xff).map fun buf => (buf,cur)

/-- `no_more_nodes` -/
def noMoreNodes (c : Info) (buf : List UInt8) (pos len offs : ℤ) : Option Bool :=
  (readField buf (pos+16) 4).bind fun dlen =>
  let skip := int32 (align (int32 (offs+CH_SZ)) c.maxWriteSize-offs)
  (isEmpty buf (pos+skip) (int32 (len-skip))).bind fun empty =>
  if empty then some true
  else
    (ubifsCheckNode c buf pos offs false).bind fun err =>
    if err≠EUCLEAN then some false
    else
      let skip := int32 (align (int32 (offs+int32 dlen)) c.maxWriteSize-offs)
      isEmpty buf (pos+skip) (int32 (len-skip))

/-- Where the recovery of a LEB stands. -/
structure Stand where
  buf : List UInt8
  cur : Cursor
  needClean : Bool
  emptyChkd : Bool

/-- The buffer is cleaned from the cursor on. -/
def cleaned (c : Info) (x : Stand) : Option (Except ℤ Stand) :=
  (cleanBuf c x.buf x.cur).map fun r => .ok ⟨r.1,r.2,true,true⟩

/-- Whether what was found at the cursor may be the end of the last write. -/
def lastChance (c : Info) (buf : List UInt8) (cur : Cursor) (ret : ℤ) : Option Bool :=
  if ret=GARBAGE∨ret=A_BAD_PAD_NODE then isLastWrite c buf cur.pos cur.offs
  else if ret=A_CORRUPT_NODE then noMoreNodes c buf cur.pos cur.len cur.offs
  else some false

/-- The main loop of `ubifs_recover_leb`. -/
def recoverLoop (c : Info) (env : Env) (x : Stand) : ℕ → Bool → Cursor → Option (Except ℤ Stand)
  | 0, _, _ => none
  | n+1, quiet, cur =>
    if cur.len<8 then some (.ok {x with cur := cur})
    else
      (ubifsScanANode c x.buf cur.pos cur.len cur.offs).bind fun ret =>
      if ret=A_NODE then
        (takeNode env x.buf cur).bind fun
          | .error err => some (.error err)
          | .ok cur => recoverLoop c env x n quiet cur
      else if 0<ret then recoverLoop c env x n quiet (cur.skip ret)
      else if ret=EMPTY_SPACE then
        (isEmpty x.buf cur.pos cur.len).bind fun empty =>
        if empty then some (.ok {x with cur := cur,emptyChkd := true})
        else
          (isLastWrite c x.buf cur.pos cur.offs).bind fun last =>
          if last then cleaned c {x with cur := cur} else some (.ok {x with cur := cur})
      else
        (lastChance c x.buf cur ret).bind fun last =>
        if last then cleaned c {x with cur := cur}
        else if quiet then recoverLoop c env x n false cur
        else if ret=GARBAGE∨ret=A_CORRUPT_NODE∨ret=A_BAD_PAD_NODE then corrupted c x.buf false cur
        else some (.error EINVAL)

/-- The check of empty space after the loop. -/
def checkEmpty (c : Info) (x : Stand) : Option (Except ℤ Stand) :=
  if x.emptyChkd then some (.ok x)
  else
    (isEmpty x.buf x.cur.pos x.cur.len).bind fun empty =>
    if empty then some (.ok x)
    else
      (isLastWrite c x.buf x.cur.pos x.cur.offs).bind fun last =>
      if last then cleaned c x
      else
        (firstNonFf x.buf x.cur.pos x.cur.len).bind fun corruption =>
        corrupted c x.buf false
          {x.cur with offs := int32 (x.cur.offs+corruption),pos := x.cur.pos+corruption}

/-- `drop_incomplete_group`, the last node first: what stays, and the offset of dropped nodes. -/
def dropIncompleteGroup (buf : List UInt8) : List Snod → Option (List Snod×Option ℤ)
  | [] => some ([],none)
  | snod::nodes =>
    (readField buf (snod.node+21) 1).bind fun groupType =>
    if groupType≠IN_NODE_GROUP then some (snod::nodes,none)
    else (dropIncompleteGroup buf nodes).map fun r => (r.1,some (r.2.getD snod.offs))

/-- Nodes of an incomplete group are dropped and cleaned. -/
def dropGroup (c : Info) (x : Stand) : Option (Except ℤ Stand) :=
  (dropIncompleteGroup x.buf x.cur.nodes.reverse).bind fun r =>
  match r.2 with
  | none => some (.ok x)
  | some offs => cleaned c {x with cur := ⟨offs,offs,int32 (c.lebSize-offs),r.1.reverse⟩}

/-- A last I/O unit that is not full is padded. -/
def alignEnd (c : Info) (x : Stand) : Option (Except ℤ Stand) :=
  if x.cur.offs%c.minIoSize≠0 then cleaned c x else some (.ok x)

/-- What a recovered LEB comes to. -/
structure Recovered where
  sleb : Sleb
  /-- The scan buffer. -/
  buf : List UInt8
  /-- What is on flash. -/
  flash : List UInt8
  /-- The `endpt` of a new entry of `unclean_leb_list`. -/
  unclean : Option ℤ

/-- The end of the last node that is kept. -/
def lastEnd (start : ℤ) (nodes : List Snod) : ℤ :=
  match nodes.getLast? with
  | none => start
  | some snod => int32 (snod.offs+snod.len)

/-- `fix_unclean_leb` -/
def fixUncleanLeb (c : Info) (env : Env) (buf : List UInt8) (sleb : Sleb) (start : ℤ) :
    Option (Except ℤ Recovered) :=
  let endpt := lastEnd start sleb.nodes
  if c.roMount then
    if env.allocUnclean then some (.ok ⟨sleb,buf,env.flash,some endpt⟩) else some (.error ENOMEM)
  else if endpt=0 then
    if env.unmapErr≠0 then some (.error env.unmapErr)
    else some (.ok ⟨sleb,buf,List.replicate c.lebSize 0xff,none⟩)
  else if start≠0∧env.headErr≠0 then some (.error env.headErr)
  else
    let len := align endpt c.minIoSize
    let padLen := int32 (len-align endpt 8)
    (writeBytes buf 0 (env.head.take start.toNat)).bind fun buf =>
    (if endpt<len∧0<padLen then ubifsPad c buf (len-padLen) padLen else some buf).bind fun buf =>
    (readBytes buf 0 (sizeT len)).map fun bytes =>
    if env.changeErr≠0 then .error env.changeErr
    else .ok ⟨sleb,buf,bytes++List.replicate (c.lebSize-bytes.length) 0xff,none⟩

/-- What `ubifs_recover_leb` does after its loop. -/
def recoverEnd (c : Info) (env : Env) (start : ℤ) (ecc grouped : Bool) (x : Stand) :
    Option (Except ℤ Recovered) :=
  (checkEmpty c x).bind fun
  | .error err => some (.error err)
  | .ok x =>
    (if grouped then dropGroup c x else some (.ok x)).bind fun
    | .error err => some (.error err)
    | .ok x =>
      (alignEnd c x).bind fun
      | .error err => some (.error err)
      | .ok x =>
        let sleb : Sleb := ⟨x.cur.nodes,align x.cur.offs c.minIoSize,ecc⟩
        if x.needClean then fixUncleanLeb c env x.buf sleb start
        else some (.ok ⟨sleb,x.buf,env.flash,none⟩)

/-- `ubifs_recover_leb`. What it has read of the LEB is in the buffer. -/
def ubifsRecoverLeb (c : Info) (env : Env) (buf : List UInt8) (offs : ℤ) (grouped : Bool)
    (fuel : ℕ) : Option (Except ℤ Recovered) :=
  match ubifsStartScan env with
  | .error err => some (.error err)
  | .ok ecc =>
    let cur := Cursor.start c offs
    (recoverLoop c env ⟨buf,cur,ecc,false⟩ fuel true cur).bind fun
      | .error err => some (.error err)
      | .ok x => recoverEnd c env offs ecc grouped x

end ArdroneKernel.UbifsScan
