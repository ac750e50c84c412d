import ArdroneKernel.UbifsWbufPlaces
import Mathlib.Data.List.Pairwise

/-!
# Reads through a write-buffer

`ubifs_read_node_wbuf` and `ubifs_check_node` of `fs/ubifs/io.c`, and `read_wbuf` of
`fs/ubifs/tnc.c`. A read takes what is in the write-buffer from there, and the rest from flash.
-/

namespace ArdroneKernel.UbifsWbuf

variable {β : Type} {c : Info}

/-! ## Bytes -/

/-- The byte that a write put to a place. -/
def Written.get (x : Written β) (lnum pos : ℕ) : Option β :=
  if x.lnum=lnum∧x.offs≤pos then x.bytes[pos-x.offs]? else none

/-- The byte at a place, by the last write to it. -/
def byteAt (erased : β) (flash : List (Written β)) (lnum pos : ℕ) : β :=
  (flash.reverse.findSome? fun x => x.get lnum pos).getD erased

/-- `ubi_read` -/
def ubiRead (erased : β) (flash : List (Written β)) (lnum offs len : ℕ) : List β :=
  (List.range len).map fun k => byteAt erased flash lnum (offs+k)

/-- `read_wbuf`, which is also how `ubifs_read_node_wbuf` reads. -/
def readWbuf (erased : β) (d : Disk β) (len lnum offs : ℕ) : List β :=
  if d.w.lnum=some lnum∧d.w.offs<offs+len then
    let rlen := d.w.offs-offs
    ubiRead erased d.flash lnum offs rlen++
      (d.w.buf.drop (offs+rlen-d.w.offs)).take (len-rlen)
  else ubiRead erased d.flash lnum offs len

variable {d : Disk β} {flash : List (Written β)} {lnum pos offs : ℕ} {b erased : β}

theorem get_eq_some {x : Written β} :
    x.get lnum pos=some b↔x.lnum=lnum∧x.offs≤pos∧x.bytes[pos-x.offs]?=some b := by
  unfold Written.get
  split
  next h => exact ⟨fun hb => ⟨h.1,h.2,hb⟩,fun hb => hb.2.2⟩
  next h => exact ⟨nofun,fun hb => absurd ⟨hb.1,hb.2.1⟩ h⟩

/-- A place of which something is stored is in what was written. -/
theorem lt_of_get {x : Written β} (h : x.get lnum pos=some b) :
    x.offs≤pos∧pos<x.offs+x.bytes.length := by
  have ⟨_,hle,hb⟩ := get_eq_some.mp h
  have hlt := (List.getElem?_eq_some_iff.mp hb).1
  omega

/-- Two writes of different places. -/
def Apart (x y : Written β) : Prop :=
  x.lnum=y.lnum → x.offs+x.bytes.length≤y.offs∨y.offs+y.bytes.length≤x.offs

instance : Std.Symm (@Apart β) := ⟨fun _ _ h hl => (h hl.symm).symm⟩

/-- Only one write covers a place. -/
theorem Ordered.unique (h : Ordered flash) {x y : Written β} {b' : β} (hx : x∈flash)
    (hy : y∈flash) (hbx : x.get lnum pos=some b) (hby : y.get lnum pos=some b') : b=b' := by
  have happart : flash.Pairwise Apart := h.imp fun hle hl => .inl (hle hl)
  by_cases hxy : x=y
  · rw [hxy,hby] at hbx
    exact (Option.some_inj.mp hbx).symm
  · have hdis := happart.forall hx hy hxy
      ((get_eq_some.mp hbx).1.trans (get_eq_some.mp hby).1.symm)
    have hlx := lt_of_get hbx
    have hly := lt_of_get hby
    omega

theorem Ordered.byteAt (h : Ordered flash) (hstored : Stored flash lnum pos b) :
    byteAt erased flash lnum pos=b := by
  have ⟨x,hx,hget⟩ := hstored
  have hsome := get_eq_some.mpr hget
  unfold UbifsWbuf.byteAt
  cases hfind : flash.reverse.findSome? fun x => x.get lnum pos with
  | none =>
    have hnone := List.findSome?_eq_none_iff.mp hfind x (List.mem_reverse.mpr hx)
    cases hsome.symm.trans hnone
  | some b' =>
    have ⟨y,hy,hb'⟩ := List.exists_of_findSome?_eq_some hfind
    exact (h.unique hx (List.mem_reverse.mp hy) hsome hb').symm

theorem Erased.not_stored (h : Erased flash lnum offs) (hle : offs≤pos) :
    ¬Stored flash lnum pos b := by
  rintro ⟨x,hx,hget⟩
  have hlt := lt_of_get (get_eq_some.mpr hget)
  have hend := h x hx hget.1
  omega

theorem getElem?_ubiRead (len k : ℕ) (hk : k<len) :
    (ubiRead erased flash lnum offs len)[k]?=some (byteAt erased flash lnum (offs+k)) := by
  unfold ubiRead
  rw [List.getElem?_map,List.getElem?_range hk]
  rfl

theorem length_ubiRead (len : ℕ) : (ubiRead erased flash lnum offs len).length=len := by
  unfold ubiRead
  rw [List.length_map,List.length_range]

/-- A read returns bytes that are all held. -/
theorem readWbuf_held (hplaced : ∀ l,d.w.lnum=some l → Placed c d l) (hordered : Ordered d.flash)
    {bytes : List β} (hheld : ∀ k b,bytes[k]?=some b → Held d lnum (offs+k) b) :
    readWbuf erased d bytes.length lnum offs=bytes := by
  have hbelow : ∀ k b,bytes[k]?=some b → (d.w.lnum=some lnum → offs+k<d.w.offs) →
      byteAt erased d.flash lnum (offs+k)=b := by
    intro k b hb hlt
    rcases hheld k b hb with hstored|⟨hl,hle,_⟩
    · exact hordered.byteAt hstored
    · have hk := hlt hl
      omega
  unfold readWbuf
  split
  next hover =>
    have ⟨hl,hlt⟩ := hover
    have herased := (hplaced lnum hl).erased
    refine List.ext_getElem? fun k => ?_
    by_cases hk : k<d.w.offs-offs
    · rw [List.getElem?_append_left (by rwa [length_ubiRead]),getElem?_ubiRead _ k hk]
      have hlen : k<bytes.length := by omega
      rw [List.getElem?_eq_getElem hlen]
      exact congrArg some (hbelow k _ (List.getElem?_eq_getElem hlen) fun _ => by omega)
    · rw [List.getElem?_append_right (by rw [length_ubiRead]; omega),length_ubiRead]
      by_cases hlen : k<bytes.length
      · rw [List.getElem?_take_of_lt (by omega),List.getElem?_drop]
        have hget := List.getElem?_eq_getElem hlen
        rcases hheld k _ hget with hstored|⟨_,hle,hb⟩
        · exact absurd hstored (herased.not_stored (by omega))
        · rw [hget,← hb]
          congr 1
          omega
      · rw [List.getElem?_eq_none (Nat.le_of_not_lt hlen),List.getElem?_eq_none]
        rw [List.length_take]
        omega
  next hover =>
    refine List.ext_getElem? fun k => ?_
    by_cases hlen : k<bytes.length
    · rw [getElem?_ubiRead _ k hlen]
      have hget := List.getElem?_eq_getElem hlen
      rw [hget]
      refine congrArg some (hbelow k _ hget fun hl => ?_)
      have hnot := not_and.mp hover hl
      omega
    · rw [List.getElem?_eq_none (Nat.le_of_not_lt hlen),List.getElem?_eq_none]
      rw [length_ubiRead]
      exact Nat.le_of_not_lt hlen

/-! ## Nodes -/

def UBIFS_NODE_MAGIC : ℕ := 0x06101831
def UBIFS_NODE_TYPES_CNT : ℕ := 12
def UBIFS_DATA_NODE : ℕ := 1
def UBIFS_CRC32_INIT : ℕ := 0xffffffff
def EINVAL : ℤ := 22
def ENOSPC : ℤ := 28
def EUCLEAN : ℤ := 117

/-- `struct ubifs_node_range`, in which `len` and `min_len` are one. -/
structure NodeRange where
  minLen : ℕ
  maxLen : ℕ

/-- What `ubifs_check_node` uses of `struct ubifs_info`, and the checksum. -/
structure Checks where
  ranges : ℕ → NodeRange
  mounting : Bool
  remountingRw : Bool
  noChkDataCrc : Bool
  crc32 : ℕ → List UInt8 → ℕ

/-- A byte of a node. -/
def u8 (buf : List UInt8) (k : ℕ) : ℕ := (buf.getD k 0).toNat

/-- `le32_to_cpu` -/
def le32 (buf : List UInt8) (k : ℕ) : ℕ :=
  u8 buf k+256*u8 buf (k+1)+256^2*u8 buf (k+2)+256^3*u8 buf (k+3)

/-- The fields of `struct ubifs_ch`. -/
def chMagic (buf : List UInt8) : ℕ := le32 buf 0
def chCrc (buf : List UInt8) : ℕ := le32 buf 4
def chLen (buf : List UInt8) : ℕ := le32 buf 16
def chNodeType (buf : List UInt8) : ℕ := u8 buf 20

/-- A length that nodes of a type do not have. -/
def NodeRange.excludes (r : NodeRange) (len : ℕ) : Bool :=
  if r.maxLen=0 then len≠r.minLen else len<r.minLen∨r.maxLen<len

/-- `ubifs_check_node`, when the CRC of data nodes need not be checked. -/
def ubifsCheckNode (c : Info) (k : Checks) (buf : List UInt8) (offs : ℕ) : ℤ :=
  if chMagic buf≠UBIFS_NODE_MAGIC then -EUCLEAN
  else if UBIFS_NODE_TYPES_CNT≤chNodeType buf then -EINVAL
  else if c.lebSize<chLen buf+offs then -EINVAL
  else if (k.ranges (chNodeType buf)).excludes (chLen buf) then -EINVAL
  else if chNodeType buf=UBIFS_DATA_NODE∧k.mounting=false∧k.remountingRw=false∧
      k.noChkDataCrc=true then 0
  else if k.crc32 UBIFS_CRC32_INIT ((buf.drop 8).take (chLen buf-8))≠chCrc buf then -EUCLEAN
  else 0

/-- `ubifs_read_node_wbuf`, with what it stores in the buffer. -/
def ubifsReadNodeWbuf (c : Info) (k : Checks) (erased : UInt8) (d : Disk UInt8)
    (type len lnum offs : ℕ) : ℤ×List UInt8 :=
  let buf := readWbuf erased d len lnum offs
  if type≠chNodeType buf then (-EINVAL,buf)
  else
    let err := ubifsCheckNode c k buf offs
    if err≠0 then (err,buf)
    else if chLen buf≠len then (-EINVAL,buf)
    else (0,buf)

/-- A node of a type, with a valid header and checksum. -/
structure IsNode (k : Checks) (type : ℕ) (node : List UInt8) : Prop where
  magic : chMagic node=UBIFS_NODE_MAGIC
  nodeType : chNodeType node=type
  known : type<UBIFS_NODE_TYPES_CNT
  len : chLen node=node.length
  range : (k.ranges type).excludes node.length=false
  crc : k.crc32 UBIFS_CRC32_INIT ((node.drop 8).take (node.length-8))=chCrc node

theorem IsNode.check {k : Checks} {type : ℕ} {node : List UInt8} (h : IsNode k type node)
    (hroom : offs+node.length≤c.lebSize) : ubifsCheckNode c k node offs=0 := by
  unfold ubifsCheckNode
  rw [h.nodeType,h.len,if_neg (not_not.mpr h.magic),if_neg (Nat.not_le.mpr h.known),
    if_neg (by omega),h.range,if_neg nofun]
  split
  · rfl
  · rw [if_neg (not_not.mpr h.crc)]

/-- A node is read as it was written. -/
theorem IsNode.read {k : Checks} {type : ℕ} {node : List UInt8} (h : IsNode k type node)
    {erased : UInt8} {d : Disk UInt8} (hread : readWbuf erased d node.length lnum offs=node)
    (hroom : offs+node.length≤c.lebSize) :
    ubifsReadNodeWbuf c k erased d type node.length lnum offs=(0,node) := by
  unfold ubifsReadNodeWbuf
  rw [hread,if_neg (not_not.mpr h.nodeType.symm),h.check hroom,if_neg (not_not.mpr rfl),
    if_neg (not_not.mpr h.len)]

end ArdroneKernel.UbifsWbuf
