import ArdroneKernel.UbifsJournal
import ArdroneKernel.UbifsWbufPlaces

/-!
# Buffers of journal operations

Each operation of `fs/ubifs/journal.c` allocates a buffer, prepares its nodes in
it, gives it to `ubifs_wbuf_write_nolock` and enters the places of the nodes in
the TNC. The writer rounds the length up to eight bytes and writes whole write
units from the buffer of its caller.
-/

namespace ArdroneKernel.UbifsJournal

open UbifsWbuf

/-- `UBIFS_BLOCK_SIZE` -/
def BLOCK_SIZE : ℕ := 4096

/-- `UBIFS_MAX_DATA_NODE_SZ` -/
def MAX_DATA_NODE_SZ : ℕ := DATA_NODE_SZ+BLOCK_SIZE

/-- `WORST_COMPR_FACTOR` -/
def WORST_COMPR_FACTOR : ℕ := 2

/-- `COMPRESSED_DATA_NODE_BUF_SZ` -/
def COMPRESSED_DATA_NODE_BUF_SZ : ℕ := DATA_NODE_SZ+BLOCK_SIZE*WORST_COMPR_FACTOR

/-! ## What the writer takes from the buffer -/

/-- Bytes of the buffer that are copied to the write-buffer or written to flash. -/
structure Copy where
  /-- Where they are in the buffer. -/
  src : ℕ
  len : ℕ
  /-- Where they are, or will be, in the LEB. -/
  offs : ℕ

variable {β : Type}

/-- How many bytes of a longer node `ubifs_wbuf_write_nolock` uses up to get to a write unit. -/
def firstPart (c : Info) (w : Wbuf β) : ℕ :=
  if 0<w.used then w.avail else if w.offs%c.maxWriteSize≠0 then w.size else 0

/-- What `ubifs_wbuf_write_nolock` takes, when no write fails. -/
def wbufCopies (c : Info) (w : Wbuf β) (len : ℕ) : List Copy :=
  let alignedLen := align len 8
  if c.lebSize-w.offs-w.used<alignedLen then []
  else if alignedLen≤w.avail then [⟨0,len,w.offs+w.used⟩]
  else
    let written := firstPart c w
    let offs := if written=0 then w.offs else w.offs+w.size
    let n := (alignedLen-written)/c.maxWriteSize*c.maxWriteSize
    (if written=0 then [] else [⟨0,written,w.offs+w.used⟩])++
      (if n=0 then [] else [⟨written,n,offs⟩])++
      if alignedLen-written-n=0 then [] else [⟨written+n,len-written-n,offs+n⟩]

/-- What `ubifs_wbuf_write_nolock` asserts of the write-buffer. -/
structure Asserted (c : Info) (w : Wbuf β) : Prop where
  used : 8∣w.used
  avail : w.used<w.size
  size : 8∣w.size
  le : w.size≤c.maxWriteSize
  offs : 8∣w.offs
  room : w.offs+w.size≤c.lebSize

/-! ## What the operations allocate and prepare -/

/-- A buffer with its nodes. -/
structure Layout where
  /-- What `kmalloc` gets. -/
  size : ℕ
  /-- Where nodes are packed or prepared, and how many bytes. -/
  prepared : List (ℕ×ℕ)
  /-- The length that is reserved and written. -/
  len : ℕ
  /-- Where a node begins in the buffer, and which place behind the one written is entered for
  it in the TNC. -/
  entered : List (ℕ×ℕ)

/-- `pack_inode`: attached data is dropped with the last reference. -/
def packInode (start : ℕ) (inode : Inode) : ℕ×ℕ :=
  (start,INO_NODE_SZ+if inode.nlink=0 then 0 else inode.dataLen)

/-- The data node of the last block of a file that is truncated. -/
structure LastBlock where
  /-- `size`. -/
  size : ℕ
  /-- How long the data are after recompression, if they are compressed. -/
  recompressed : Option ℕ

/-- The length of the data node that `ubifs_jnl_truncate` writes, or zero. -/
def truncateDlen (newSize : ℕ) (block : Option LastBlock) : ℕ :=
  let dlen := newSize%BLOCK_SIZE
  if dlen=0 then 0
  else
    match block with
    | none => 0
    | some dn =>
      if dn.size≤dlen then 0
      else match dn.recompressed with
        | some outLen => DATA_NODE_SZ+outLen
        | none => dlen+DATA_NODE_SZ

/-- The operations, with what they are called with. -/
inductive Writing where
  | update (dir inode : Inode) (nameLen : ℕ) (deletion xent : Bool)
  | writeData (inum outLen : ℕ)
  | writeInode (inode : Inode)
  | rename (oldInode oldDir newDir : Inode) (newInode : Option Inode) (oldNameLen newNameLen : ℕ)
  | truncate (inode : Inode) (newSize : ℕ) (block : Option LastBlock)
  | deleteXattr (host inode : Inode) (nameLen : ℕ)
  | changeXattr (inode host : Inode)

/-- The buffer of `ubifs_jnl_update`. -/
def layoutUpdate (dir inode : Inode) (nameLen : ℕ) (deletion : Bool) : Layout :=
  let lastReference := deletion&&inode.nlink==0
  let dlen := DENT_NODE_SZ+nameLen+1
  let ilen := if lastReference then INO_NODE_SZ else INO_NODE_SZ+inode.dataLen
  let len := align dlen 8+align ilen 8+INO_NODE_SZ
  { size := len
    prepared := [(0,dlen),packInode (align dlen 8) inode,
      packInode (align dlen 8+align ilen 8) dir]
    len := len
    entered := (if deletion then [] else [(0,0)])++[(align dlen 8,align dlen 8),
      (align dlen 8+align ilen 8,align dlen 8+align ilen 8)] }

/-- The buffer of `ubifs_jnl_write_data`. -/
def layoutWriteData (outLen : ℕ) : Layout where
  size := COMPRESSED_DATA_NODE_BUF_SZ
  prepared := [(0,DATA_NODE_SZ+outLen)]
  len := DATA_NODE_SZ+outLen
  entered := [(0,0)]

/-- The buffer of `ubifs_jnl_write_inode`. -/
def layoutWriteInode (inode : Inode) : Layout :=
  let len := if inode.nlink=0 then INO_NODE_SZ else INO_NODE_SZ+inode.dataLen
  { size := len
    prepared := [packInode 0 inode]
    len := len
    entered := if inode.nlink=0 then [] else [(0,0)] }

/-- The buffer of `ubifs_jnl_rename`. -/
def layoutRename (oldDir newDir : Inode) (newInode : Option Inode) (oldNameLen newNameLen : ℕ) :
    Layout :=
  let dlen₁ := DENT_NODE_SZ+newNameLen+1
  let dlen₂ := DENT_NODE_SZ+oldNameLen+1
  let ilen := match newInode with
    | some inode => if inode.nlink=0 then INO_NODE_SZ else INO_NODE_SZ+inode.dataLen
    | none => 0
  let plen := INO_NODE_SZ
  let move := oldDir.ino≠newDir.ino
  let len := align dlen₁ 8+align dlen₂ 8+align ilen 8+align plen 8
  let len := if move then len+plen else len
  let p := align dlen₁ 8+align dlen₂ 8
  let p' := p+align ilen 8
  { size := len
    prepared := [(0,dlen₁),(align dlen₁ 8,dlen₂)]++(newInode.map (packInode p)).toList++
      [packInode p' oldDir]++if move then [packInode (p'+align plen 8) newDir] else []
    len := len
    entered := [(0,0)]++(newInode.map fun _ => (p,p)).toList++[(p',p')]++
      if move then [(p'+align plen 8,p'+align plen 8)] else [] }

/-- The buffer of `ubifs_jnl_truncate`. -/
def layoutTruncate (inode : Inode) (newSize : ℕ) (block : Option LastBlock) : Layout :=
  let dlen := truncateDlen newSize block
  let dn := INO_NODE_SZ+TRUN_NODE_SZ
  { size := TRUN_NODE_SZ+INO_NODE_SZ+MAX_DATA_NODE_SZ*WORST_COMPR_FACTOR
    prepared := [packInode 0 inode,(INO_NODE_SZ,TRUN_NODE_SZ)]++
      if dlen=0 then [] else [(dn,dlen)]
    len := TRUN_NODE_SZ+INO_NODE_SZ+dlen
    entered := (if dlen=0 then [] else [(dn,INO_NODE_SZ+TRUN_NODE_SZ)])++[(0,0)] }

/-- The buffer of `ubifs_jnl_delete_xattr`. -/
def layoutDeleteXattr (host inode : Inode) (nameLen : ℕ) : Layout :=
  let xlen := DENT_NODE_SZ+nameLen+1
  let hlen := host.dataLen+INO_NODE_SZ
  let len := align xlen 8+INO_NODE_SZ+align hlen 8
  { size := len
    prepared := [(0,xlen),packInode (align xlen 8) inode,packInode (align xlen 8+INO_NODE_SZ) host]
    len := len
    entered := [(align xlen 8+INO_NODE_SZ,len-hlen)] }

/-- The buffer of `ubifs_jnl_change_xattr`. -/
def layoutChangeXattr (inode host : Inode) : Layout :=
  let len₁ := INO_NODE_SZ+host.dataLen
  let len₂ := INO_NODE_SZ+inode.dataLen
  { size := align len₁ 8+align len₂ 8
    prepared := [packInode 0 host,packInode (align len₁ 8) inode]
    len := align len₁ 8+align len₂ 8
    entered := [(0,0),(align len₁ 8,align len₁ 8)] }

namespace Writing

/-- The buffer of an operation. -/
def layout : Writing → Layout
  | update dir inode nameLen deletion _ => layoutUpdate dir inode nameLen deletion
  | writeData _ outLen => layoutWriteData outLen
  | writeInode inode => layoutWriteInode inode
  | rename _ oldDir newDir newInode oldNameLen newNameLen =>
    layoutRename oldDir newDir newInode oldNameLen newNameLen
  | truncate inode newSize block => layoutTruncate inode newSize block
  | deleteXattr host inode nameLen => layoutDeleteXattr host inode nameLen
  | changeXattr inode host => layoutChangeXattr inode host

/-- What the callers of an operation see to: only attributes have hosts with attached data, blocks
are not longer than `UBIFS_BLOCK_SIZE`, files and directories have no attached data, and an
attribute that is deleted has lost its last link. -/
def Called : Writing → Prop
  | update dir _ _ _ xent => xent=false → dir.dataLen=0
  | writeData _ outLen => outLen≤BLOCK_SIZE
  | writeInode _ => True
  | rename _ oldDir newDir _ _ _ => oldDir.dataLen=0∧newDir.dataLen=0
  | truncate inode _ block => inode.dataLen=0∧
      ∀ dn∈block,∀ outLen∈dn.recompressed,outLen≤BLOCK_SIZE
  | deleteXattr _ inode _ => inode.nlink=0
  | changeXattr _ _ => True

end Writing

/-- The rounded length ends with a whole write unit written from the buffer. -/
def EndsInUnit (c : Info) (w : Wbuf β) (len : ℕ) : Prop :=
  w.avail<align len 8∧(align len 8-firstPart c w)%c.maxWriteSize=0

/-- An operation touches nothing outside its buffer, and its nodes are where the TNC says. -/
structure Inside (c : Info) (w : Wbuf β) (x : Writing) : Prop where
  copied : ∀ y∈wbufCopies c w x.layout.len,y.src+y.len≤x.layout.size
  prepared : ∀ r∈x.layout.prepared,r.1+r.2≤x.layout.size
  entered : ∀ e∈x.layout.entered,∃ y∈wbufCopies c w x.layout.len,y.src≤e.1∧e.1<y.src+y.len∧
    y.offs+(e.1-y.src)=w.offs+w.used+e.2

/-- When an operation stays inside its buffer. -/
def Writing.Holds (c : Info) (w : Wbuf β) : Writing → Prop
  | .update dir _ _ _ _ => dir.nlink=0∨dir.dataLen=0
  | .writeInode inode => inode.nlink=0∨inode.dataLen%8=0∨
      ¬EndsInUnit c w (INO_NODE_SZ+inode.dataLen)
  | .deleteXattr host _ _ => host.dataLen%8=0
  | _ => True

/-! ## What the writer takes -/

variable {c : Info} {w : Wbuf β} {len x : ℕ}

theorem align_spec (n : ℕ) : n≤align n 8∧align n 8<n+8∧8∣align n 8 := by
  unfold align
  omega

theorem Units.eight_dvd_write (hc : c.Units) : 8∣c.maxWriteSize := hc.eight_dvd.trans hc.dvd

/-- The first part fills the write-buffer, or there is none and the buffer is empty. -/
theorem firstPart_cases (hw : Asserted c w) :
    (firstPart c w=0∧w.used=0)∨(firstPart c w=w.avail∧0<w.avail) := by
  have havail : 0<w.avail := Nat.sub_pos_of_lt hw.avail
  unfold firstPart
  split_ifs with hused hoffs
  · exact Or.inr ⟨rfl,havail⟩
  · have hzero : w.used=0 := by omega
    refine Or.inr ⟨?_,havail⟩
    unfold Wbuf.avail
    rw [hzero,Nat.sub_zero]
  · exact Or.inl ⟨rfl,by omega⟩

theorem firstPart_dvd (hw : Asserted c w) : 8∣firstPart c w := by
  rcases firstPart_cases hw with hfirst | hfirst
  · rw [hfirst.1]
    exact Nat.dvd_zero 8
  · rw [hfirst.1]
    exact Nat.dvd_sub hw.size hw.used

/-- What is taken, when it goes beyond the write-buffer. -/
theorem wbufCopies_long (hspace : align len 8≤c.lebSize-w.offs-w.used)
    (hlong : w.avail<align len 8) {y : Copy} :
    y∈wbufCopies c w len ↔
      (firstPart c w≠0∧y=⟨0,firstPart c w,w.offs+w.used⟩)∨
      ((align len 8-firstPart c w)/c.maxWriteSize*c.maxWriteSize≠0∧
        y=⟨firstPart c w,(align len 8-firstPart c w)/c.maxWriteSize*c.maxWriteSize,
          if firstPart c w=0 then w.offs else w.offs+w.size⟩)∨
      (align len 8-firstPart c w-
          (align len 8-firstPart c w)/c.maxWriteSize*c.maxWriteSize≠0∧
        y=⟨firstPart c w+(align len 8-firstPart c w)/c.maxWriteSize*c.maxWriteSize,
          len-firstPart c w-(align len 8-firstPart c w)/c.maxWriteSize*c.maxWriteSize,
          (if firstPart c w=0 then w.offs else w.offs+w.size)+
            (align len 8-firstPart c w)/c.maxWriteSize*c.maxWriteSize⟩) := by
  have hite : ∀ (p : Prop) [Decidable p] (z : Copy),
      y∈(if p then [] else [z]) ↔ ¬p∧y=z := by
    intro p _ z
    split_ifs with hp <;> simp [hp]
  unfold wbufCopies
  rw [if_neg (by omega),if_neg (by omega),List.mem_append,List.mem_append,hite,hite,hite,or_assoc]

theorem wbufCopies_short (hspace : align len 8≤c.lebSize-w.offs-w.used)
    (hshort : align len 8≤w.avail) : wbufCopies c w len=[⟨0,len,w.offs+w.used⟩] := by
  unfold wbufCopies
  rw [if_neg (by omega),if_pos hshort]

/-- What is taken goes to the LEB in order. -/
theorem wbufCopies_offs (hw : Asserted c w) (hspace : align len 8≤c.lebSize-w.offs-w.used)
    {y : Copy} (hy : y∈wbufCopies c w len) : y.offs=w.offs+w.used+y.src := by
  have havail : w.used+w.avail=w.size := Nat.add_sub_cancel' hw.avail.le
  by_cases hshort : align len 8≤w.avail
  · rw [wbufCopies_short hspace hshort,List.mem_singleton] at hy
    rw [hy]
    rfl
  · have hstart : (if firstPart c w=0 then w.offs else w.offs+w.size)=
        w.offs+w.used+firstPart c w := by
      rcases firstPart_cases hw with hfirst | hfirst
      · rw [if_pos hfirst.1,hfirst.1,hfirst.2]
        rfl
      · rw [if_neg (by omega),hfirst.1]
        omega
    rw [wbufCopies_long hspace (by omega),hstart] at hy
    rcases hy with ⟨-,rfl⟩ | ⟨-,rfl⟩ | ⟨-,rfl⟩
    · rfl
    · rfl
    · exact Nat.add_assoc _ _ _

/-- Every byte is taken. -/
theorem wbufCopies_cover (hspace : align len 8≤c.lebSize-w.offs-w.used) (hx : x<len) :
    ∃ y∈wbufCopies c w len,y.src≤x∧x<y.src+y.len := by
  have halign := align_spec len
  by_cases hshort : align len 8≤w.avail
  · rw [wbufCopies_short hspace hshort]
    exact ⟨_,List.mem_singleton.mpr rfl,Nat.zero_le _,by
      dsimp only
      omega⟩
  · have hmem := fun y => (wbufCopies_long hspace (show w.avail<align len 8 by omega) (y := y)).mpr
    generalize (align len 8-firstPart c w)/c.maxWriteSize*c.maxWriteSize=n at hmem
    by_cases hfirst : x<firstPart c w
    · exact ⟨_,hmem _ (Or.inl ⟨by omega,rfl⟩),Nat.zero_le _,by
        dsimp only
        omega⟩
    · by_cases hmid : x<firstPart c w+n
      · exact ⟨_,hmem _ (Or.inr (Or.inl ⟨by omega,rfl⟩)),by
          dsimp only
          omega,hmid⟩
      · exact ⟨_,hmem _ (Or.inr (Or.inr ⟨by omega,rfl⟩)),by
          dsimp only
          omega,by
          dsimp only
          omega⟩

/-- Nothing is taken from beyond the rounded length. -/
theorem wbufCopies_le (hw : Asserted c w) (hspace : align len 8≤c.lebSize-w.offs-w.used)
    {y : Copy} (hy : y∈wbufCopies c w len) : y.src+y.len≤align len 8 := by
  have halign := align_spec len
  by_cases hshort : align len 8≤w.avail
  · rw [wbufCopies_short hspace hshort,List.mem_singleton] at hy
    rw [hy]
    dsimp only
    omega
  · have hfirst := firstPart_cases hw
    have hn := Nat.div_mul_le_self (align len 8-firstPart c w) c.maxWriteSize
    rw [wbufCopies_long hspace (by omega)] at hy
    rcases hy with ⟨-,rfl⟩ | ⟨-,rfl⟩ | ⟨-,rfl⟩ <;> dsimp only <;> omega

/-- Bytes beyond the length are taken exactly when it is no multiple of eight and the rounded
length ends with a whole write unit. -/
theorem wbufCopies_inside_iff (hc : c.Units) (hw : Asserted c w)
    (hspace : align len 8≤c.lebSize-w.offs-w.used) :
    (∀ y∈wbufCopies c w len,y.src+y.len≤len) ↔ len%8=0∨¬EndsInUnit c w len := by
  have halign := align_spec len
  have hfirst := firstPart_cases hw
  have hdvd := firstPart_dvd hw
  have hmod := Nat.div_add_mod' (align len 8-firstPart c w) c.maxWriteSize
  constructor
  · intro hall
    by_contra hnot
    rw [not_or,not_not] at hnot
    obtain ⟨hlen,hlong,hunit⟩ := hnot
    have hmem := hall _ ((wbufCopies_long hspace hlong).mpr (Or.inr (Or.inl ⟨by omega,rfl⟩)))
    dsimp only at hmem
    omega
  · rintro hor y hy
    by_cases height : len%8=0
    · have hle := wbufCopies_le hw hspace hy
      omega
    · by_cases hshort : align len 8≤w.avail
      · rw [wbufCopies_short hspace hshort,List.mem_singleton] at hy
        rw [hy]
        exact (Nat.zero_add _).le
      · have hrest : (align len 8-firstPart c w)%c.maxWriteSize≠0 := fun hunit =>
          (hor.resolve_left height) ⟨by omega,hunit⟩
        have hn : 8∣(align len 8-firstPart c w)/c.maxWriteSize*c.maxWriteSize :=
          (Units.eight_dvd_write hc).mul_left _
        rw [wbufCopies_long hspace (by omega)] at hy
        rcases hy with ⟨-,rfl⟩ | ⟨-,rfl⟩ | ⟨-,rfl⟩ <;> dsimp only <;> omega

/-! ## What the operations promise -/

/-- The space that is reserved for an operation does for the rounded length. -/
theorem align_fits (hc : c.Units) (hw : Asserted c w) (hspace : len≤c.lebSize-w.offs-w.used) :
    align len 8≤c.lebSize-w.offs-w.used := by
  have halign := align_spec len
  have hleb := hc.eight_dvd.trans hc.leb
  have hoffs := hw.offs
  have hused := hw.used
  omega

/-- A node is where the TNC says exactly when the place entered is the one in the buffer. -/
theorem entered_iff (hw : Asserted c w) (hspace : align len 8≤c.lebSize-w.offs-w.used) {e : ℕ×ℕ}
    (he : e.1<len) :
    (∃ y∈wbufCopies c w len,y.src≤e.1∧e.1<y.src+y.len∧
      y.offs+(e.1-y.src)=w.offs+w.used+e.2) ↔ e.1=e.2 := by
  constructor
  · rintro ⟨y,hy,hle,-,hplace⟩
    have hoffs := wbufCopies_offs hw hspace hy
    omega
  · intro heq
    obtain ⟨y,hy,hle,hlt⟩ := wbufCopies_cover (w := w) hspace he
    have hoffs := wbufCopies_offs hw hspace hy
    exact ⟨y,hy,hle,hlt,by omega⟩

/-- What is left to show of a layout. -/
structure Sound (l : Layout) : Prop where
  prepared : ∀ r∈l.prepared,r.1+r.2≤l.size
  entered : ∀ e∈l.entered,e.1=e.2

theorem inside_iff_sound (hc : c.Units) (hw : Asserted c w) {x : Writing}
    (hspace : x.layout.len≤c.lebSize-w.offs-w.used)
    (hstart : ∀ e∈x.layout.entered,e.1<x.layout.len) :
    Inside c w x ↔ (∀ y∈wbufCopies c w x.layout.len,y.src+y.len≤x.layout.size)∧
      Sound x.layout := by
  have hfits := align_fits hc hw hspace
  constructor
  · intro h
    exact ⟨h.copied,h.prepared,fun e he =>
      (entered_iff hw hfits (hstart e he)).mp (h.entered e he)⟩
  · rintro ⟨hcopied,hsound⟩
    exact ⟨hcopied,hsound.prepared,fun e he =>
      (entered_iff hw hfits (hstart e he)).mpr (hsound.entered e he)⟩

/-- In a buffer that has the rounded length the writer stays inside. -/
theorem copied_inside (hc : c.Units) (hw : Asserted c w) {l : Layout}
    (hspace : l.len≤c.lebSize-w.offs-w.used) (hsize : align l.len 8≤l.size) :
    ∀ y∈wbufCopies c w l.len,y.src+y.len≤l.size :=
  fun _ hy => (wbufCopies_le hw (align_fits hc hw hspace) hy).trans hsize

/-- What holds of an operation's buffer, whatever the write-buffer is like. -/
structure Shape (x : Writing) (holds : Prop) : Prop where
  start : ∀ e∈x.layout.entered,e.1<x.layout.len
  size : align x.layout.len 8≤x.layout.size
  sound : Sound x.layout ↔ holds

theorem Shape.inside_iff {x : Writing} {holds : Prop} (h : Shape x holds) (hc : c.Units)
    (hw : Asserted c w) (hspace : x.layout.len≤c.lebSize-w.offs-w.used) :
    Inside c w x ↔ holds := by
  rw [inside_iff_sound hc hw hspace h.start,h.sound]
  exact and_iff_right (copied_inside hc hw hspace h.size)

theorem packInode_le {start : ℕ} {inode : Inode} {ilen : ℕ}
    (h : inode.nlink≠0 → ilen=INO_NODE_SZ+inode.dataLen) (hle : INO_NODE_SZ≤ ilen) :
    (packInode start inode).2≤ ilen := by
  unfold packInode
  by_cases hl : inode.nlink=0
  · rwa [if_pos hl]
  · rw [if_neg hl,h hl]

theorem packInode_bare {start : ℕ} {inode : Inode} (h : inode.nlink=0∨inode.dataLen=0) :
    (packInode start inode).2=INO_NODE_SZ := by
  unfold packInode
  rcases h with hl | hl
  · rw [if_pos hl,Nat.add_zero]
  · rw [hl,ite_self,Nat.add_zero]

theorem shape_update (dir inode : Inode) (nameLen : ℕ) (deletion xent : Bool) :
    Shape (.update dir inode nameLen deletion xent) (dir.nlink=0∨dir.dataLen=0) := by
  have hd := align_spec (DENT_NODE_SZ+nameLen+1)
  have hpack : (packInode (align (DENT_NODE_SZ+nameLen+1) 8) inode).2≤
      if (deletion&&inode.nlink==0)=true then INO_NODE_SZ else INO_NODE_SZ+inode.dataLen :=
    packInode_le (fun hl => if_neg (by simp [hl])) (by split_ifs <;> omega)
  have hpair : ∀ e∈(layoutUpdate dir inode nameLen deletion).entered,
      e.1=e.2∧e.1<(layoutUpdate dir inode nameLen deletion).len := by
    intro e he
    unfold layoutUpdate INO_NODE_SZ at he ⊢
    rcases List.mem_append.mp he with he | he
    · split_ifs at he
      · cases he
      · rw [List.mem_singleton.mp he]
        exact ⟨rfl,by
          dsimp only
          omega⟩
    · simp only [List.mem_cons,List.not_mem_nil,or_false] at he
      rcases he with rfl | rfl <;> exact ⟨rfl,by
        dsimp only
        omega⟩
  refine ⟨fun e he => (hpair e he).2,?_,?_,?_⟩
  · unfold Writing.layout layoutUpdate INO_NODE_SZ
    dsimp only
    have hi := align_spec (if (deletion&&inode.nlink==0)=true then 160 else 160+inode.dataLen)
    generalize align (if (deletion&&inode.nlink==0)=true then 160 else 160+inode.dataLen) 8=a
      at hi ⊢
    generalize align (DENT_NODE_SZ+nameLen+1) 8=d at hd ⊢
    have hsum := align_spec (d+a+160)
    omega
  · intro hsound
    have hlast := hsound.prepared _ (List.mem_cons_of_mem _ (List.mem_cons_of_mem _
      (List.mem_singleton.mpr rfl)))
    unfold Writing.layout layoutUpdate packInode at hlast
    dsimp only at hlast
    by_cases hl : dir.nlink=0
    · exact Or.inl hl
    · rw [if_neg hl] at hlast
      exact Or.inr (by omega)
  · intro hdir
    refine ⟨fun r hr => ?_,fun e he => (hpair e he).1⟩
    have hpack' : (packInode 0 dir).2=INO_NODE_SZ := packInode_bare hdir
    unfold Writing.layout layoutUpdate at hr ⊢
    dsimp only at hr ⊢
    have hi := align_spec (if (deletion&&inode.nlink==0)=true then INO_NODE_SZ
      else INO_NODE_SZ+inode.dataLen)
    simp only [List.mem_cons,List.not_mem_nil,or_false] at hr
    rcases hr with rfl | rfl | rfl
    · omega
    · change align (DENT_NODE_SZ+nameLen+1) 8+(packInode _ inode).2≤_
      omega
    · change align (DENT_NODE_SZ+nameLen+1) 8+align _ 8+(packInode 0 dir).2≤_
      omega

theorem shape_writeData (inum outLen : ℕ) (hout : outLen≤BLOCK_SIZE) :
    Shape (.writeData inum outLen) True := by
  have halign := align_spec (DATA_NODE_SZ+outLen)
  unfold BLOCK_SIZE at hout
  refine ⟨fun e he => ?_,?_,iff_true_intro ⟨fun r hr => ?_,fun e he => ?_⟩⟩
  · rw [List.mem_singleton.mp he]
    exact Nat.lt_add_right _ (by decide)
  · unfold Writing.layout layoutWriteData COMPRESSED_DATA_NODE_BUF_SZ BLOCK_SIZE WORST_COMPR_FACTOR
    dsimp only
    omega
  · rw [List.mem_singleton.mp hr]
    unfold Writing.layout layoutWriteData COMPRESSED_DATA_NODE_BUF_SZ BLOCK_SIZE WORST_COMPR_FACTOR
    dsimp only
    omega
  · rw [List.mem_singleton.mp he]

theorem shape_truncate (inode : Inode) (newSize : ℕ) (block : Option LastBlock)
    (hcalled : Writing.Called (.truncate inode newSize block)) :
    Shape (.truncate inode newSize block) True := by
  have hdlen : truncateDlen newSize block≤MAX_DATA_NODE_SZ := by
    unfold truncateDlen MAX_DATA_NODE_SZ BLOCK_SIZE
    dsimp only
    split_ifs
    · exact Nat.zero_le _
    · cases hb : block with
      | none => exact Nat.zero_le _
      | some dn =>
        dsimp only
        split_ifs
        · exact Nat.zero_le _
        · cases hr : dn.recompressed with
          | none =>
            dsimp only
            omega
          | some outLen =>
            have hout := hcalled.2 dn hb outLen hr
            exact Nat.add_le_add_left hout _
  unfold MAX_DATA_NODE_SZ DATA_NODE_SZ BLOCK_SIZE at hdlen
  have hpack : (packInode 0 inode).2=INO_NODE_SZ := packInode_bare (Or.inr hcalled.1)
  have hpair : ∀ e∈(layoutTruncate inode newSize block).entered,
      e.1=e.2∧e.1<(layoutTruncate inode newSize block).len := by
    intro e he
    unfold layoutTruncate at he ⊢
    unfold INO_NODE_SZ TRUN_NODE_SZ at he ⊢
    rcases List.mem_append.mp he with he | he
    · split_ifs at he with hzero
      · cases he
      · rw [List.mem_singleton.mp he]
        exact ⟨rfl,by
          dsimp only
          omega⟩
    · rw [List.mem_singleton.mp he]
      exact ⟨rfl,by
        dsimp only
        omega⟩
  refine ⟨fun e he => (hpair e he).2,?_,iff_true_intro ⟨fun r hr => ?_,fun e he => (hpair e he).1⟩⟩
  · unfold Writing.layout layoutTruncate MAX_DATA_NODE_SZ
    unfold INO_NODE_SZ TRUN_NODE_SZ DATA_NODE_SZ BLOCK_SIZE WORST_COMPR_FACTOR
    dsimp only
    have halign := align_spec (56+160+truncateDlen newSize block)
    omega
  · unfold Writing.layout layoutTruncate MAX_DATA_NODE_SZ at hr ⊢
    unfold TRUN_NODE_SZ DATA_NODE_SZ BLOCK_SIZE WORST_COMPR_FACTOR at hr ⊢
    dsimp only at hr ⊢
    rcases List.mem_append.mp hr with hr | hr
    · simp only [List.mem_cons,List.not_mem_nil,or_false] at hr
      rcases hr with rfl | rfl
      · change 0+(packInode 0 inode).2≤_
        omega
      · omega
    · split_ifs at hr
      · cases hr
      · rw [List.mem_singleton.mp hr]
        omega

theorem shape_deleteXattr (host inode : Inode) (nameLen : ℕ) (hinode : inode.nlink=0) :
    Shape (.deleteXattr host inode nameLen) (host.dataLen%8=0) := by
  have hd := align_spec (DENT_NODE_SZ+nameLen+1)
  have hh := align_spec (host.dataLen+INO_NODE_SZ)
  have hpack : (packInode 0 inode).2=INO_NODE_SZ := packInode_bare (Or.inl hinode)
  have hhost : (packInode 0 host).2≤host.dataLen+INO_NODE_SZ :=
    packInode_le (fun _ => Nat.add_comm _ _) (Nat.le_add_left _ _)
  have hplace : (∀ e∈(layoutDeleteXattr host inode nameLen).entered,e.1=e.2) ↔
      host.dataLen%8=0 := by
    unfold layoutDeleteXattr INO_NODE_SZ
    unfold INO_NODE_SZ at hh
    simp only [List.mem_singleton,forall_eq]
    omega
  refine ⟨fun e he => ?_,?_,?_⟩
  · rw [List.mem_singleton.mp he]
    unfold Writing.layout layoutDeleteXattr
    unfold INO_NODE_SZ at hh ⊢
    dsimp only
    omega
  · unfold Writing.layout layoutDeleteXattr
    unfold INO_NODE_SZ at hh ⊢
    dsimp only
    generalize align (DENT_NODE_SZ+nameLen+1) 8=d at hd ⊢
    generalize align (host.dataLen+160) 8=a at hh ⊢
    have hsum := align_spec (d+160+a)
    omega
  · rw [←hplace]
    refine ⟨fun h => h.entered,fun h => ⟨fun r hr => ?_,h⟩⟩
    unfold Writing.layout layoutDeleteXattr at hr ⊢
    dsimp only at hr ⊢
    simp only [List.mem_cons,List.not_mem_nil,or_false] at hr
    rcases hr with rfl | rfl | rfl
    · omega
    · change align (DENT_NODE_SZ+nameLen+1) 8+(packInode 0 inode).2≤_
      omega
    · change align (DENT_NODE_SZ+nameLen+1) 8+INO_NODE_SZ+(packInode 0 host).2≤_
      omega

theorem shape_changeXattr (inode host : Inode) : Shape (.changeXattr inode host) True := by
  have hh := align_spec (INO_NODE_SZ+host.dataLen)
  have hi := align_spec (INO_NODE_SZ+inode.dataLen)
  have hhost : (packInode 0 host).2≤INO_NODE_SZ+host.dataLen :=
    packInode_le (fun _ => rfl) (Nat.le_add_right _ _)
  have hinode : (packInode 0 inode).2≤INO_NODE_SZ+inode.dataLen :=
    packInode_le (fun _ => rfl) (Nat.le_add_right _ _)
  have hpos : 0<INO_NODE_SZ := by decide
  refine ⟨fun e he => ?_,?_,iff_true_intro ⟨fun r hr => ?_,fun e he => ?_⟩⟩
  · unfold Writing.layout layoutChangeXattr at he ⊢
    simp only [List.mem_cons,List.not_mem_nil,or_false] at he
    rcases he with rfl | rfl <;> dsimp only <;> omega
  · unfold Writing.layout layoutChangeXattr
    dsimp only
    generalize align (INO_NODE_SZ+host.dataLen) 8=a at hh ⊢
    generalize align (INO_NODE_SZ+inode.dataLen) 8=d at hi ⊢
    have hsum := align_spec (a+d)
    omega
  · unfold Writing.layout layoutChangeXattr at hr ⊢
    dsimp only at hr ⊢
    simp only [List.mem_cons,List.not_mem_nil,or_false] at hr
    rcases hr with rfl | rfl
    · change 0+(packInode 0 host).2≤_
      omega
    · change align (INO_NODE_SZ+host.dataLen) 8+(packInode 0 inode).2≤_
      omega
  · unfold Writing.layout layoutChangeXattr at he
    simp only [List.mem_cons,List.not_mem_nil,or_false] at he
    rcases he with rfl | rfl <;> rfl

theorem shape_rename (oldInode oldDir newDir : Inode) (newInode : Option Inode)
    (oldNameLen newNameLen : ℕ) (hold : oldDir.dataLen=0) (hnew : newDir.dataLen=0) :
    Shape (.rename oldInode oldDir newDir newInode oldNameLen newNameLen) True := by
  have hd1 := align_spec (DENT_NODE_SZ+newNameLen+1)
  have hd2 := align_spec (DENT_NODE_SZ+oldNameLen+1)
  have hp : align INO_NODE_SZ 8=160 := rfl
  have hdirs : ∀ start,(packInode start oldDir).2=160∧(packInode start newDir).2=160 :=
    fun start => ⟨packInode_bare (Or.inr hold),packInode_bare (Or.inr hnew)⟩
  have hino : INO_NODE_SZ=160 := rfl
  -- the inode of a name that is replaced
  obtain ⟨ilen,hilen,hpacked⟩ : ∃ ilen,
      (match newInode with
        | some inode => if inode.nlink=0 then INO_NODE_SZ else INO_NODE_SZ+inode.dataLen
        | none => 0)=ilen∧∀ inode∈newInode,∀ start,(packInode start inode).2≤ ilen := by
    refine ⟨_,rfl,fun inode hmem start => ?_⟩
    rw [Option.mem_def] at hmem
    subst hmem
    dsimp only
    exact packInode_le (fun hl => if_neg hl) (by split_ifs <;> omega)
  have hi := align_spec ilen
  have hpair : ∀ e∈(layoutRename oldDir newDir newInode oldNameLen newNameLen).entered,
      e.1=e.2∧e.1<(layoutRename oldDir newDir newInode oldNameLen newNameLen).len := by
    intro e he
    unfold layoutRename at he ⊢
    dsimp only at he ⊢
    rw [hilen] at he ⊢
    simp only [List.mem_append,List.mem_singleton,Option.mem_toList,
      Option.map_eq_some_iff] at he
    by_cases hmove : oldDir.ino≠newDir.ino
    · simp only [if_pos hmove,List.mem_singleton] at he ⊢
      rcases he with ((rfl | ⟨_,-,rfl⟩) | rfl) | rfl <;> exact ⟨rfl,by
        dsimp only
        omega⟩
    · simp only [if_neg hmove,List.not_mem_nil,or_false] at he ⊢
      rcases he with (rfl | ⟨_,-,rfl⟩) | rfl <;> exact ⟨rfl,by
        dsimp only
        omega⟩
  refine ⟨fun e he => (hpair e he).2,?_,iff_true_intro ⟨fun r hr => ?_,fun e he => (hpair e he).1⟩⟩
  · unfold Writing.layout layoutRename
    dsimp only
    rw [hilen,hp,hino]
    generalize align (DENT_NODE_SZ+newNameLen+1) 8=d at hd1 ⊢
    generalize align (DENT_NODE_SZ+oldNameLen+1) 8=e at hd2 ⊢
    generalize align ilen 8=a at hi ⊢
    by_cases hmove : oldDir.ino≠newDir.ino
    · simp only [if_pos hmove]
      have hsum := align_spec (d+e+a+160+160)
      omega
    · simp only [if_neg hmove]
      have hsum := align_spec (d+e+a+160)
      omega
  · unfold Writing.layout layoutRename at hr ⊢
    dsimp only at hr ⊢
    rw [hilen] at hr ⊢
    simp only [List.mem_append,List.mem_cons,List.not_mem_nil,or_false,Option.mem_toList,
      Option.map_eq_some_iff] at hr
    rcases hr with (((rfl | rfl) | ⟨inode,hmem,rfl⟩) | rfl) | hr
    · dsimp only
      split_ifs <;> omega
    · dsimp only
      split_ifs <;> omega
    · have hle := hpacked inode hmem (align (DENT_NODE_SZ+newNameLen+1) 8+
        align (DENT_NODE_SZ+oldNameLen+1) 8)
      change align (DENT_NODE_SZ+newNameLen+1) 8+align (DENT_NODE_SZ+oldNameLen+1) 8+
        (packInode _ inode).2≤_
      split_ifs <;> omega
    · have hle := (hdirs (align (DENT_NODE_SZ+newNameLen+1) 8+
        align (DENT_NODE_SZ+oldNameLen+1) 8+align ilen 8)).1
      change align (DENT_NODE_SZ+newNameLen+1) 8+align (DENT_NODE_SZ+oldNameLen+1) 8+
        align ilen 8+(packInode _ oldDir).2≤_
      split_ifs <;> omega
    · split_ifs at hr with hmove
      · rw [List.mem_singleton.mp hr,if_pos hmove]
        have hle := (hdirs (align (DENT_NODE_SZ+newNameLen+1) 8+
          align (DENT_NODE_SZ+oldNameLen+1) 8+align ilen 8+align INO_NODE_SZ 8)).2
        change align (DENT_NODE_SZ+newNameLen+1) 8+align (DENT_NODE_SZ+oldNameLen+1) 8+
          align ilen 8+align INO_NODE_SZ 8+(packInode _ newDir).2≤_
        omega
      · cases hr

/-- An inode node is the one buffer that is not rounded up. -/
theorem inside_writeInode (hc : c.Units) (hw : Asserted c w) (inode : Inode)
    (hspace : (Writing.writeInode inode).layout.len≤c.lebSize-w.offs-w.used) :
    Inside c w (.writeInode inode) ↔ inode.nlink=0∨inode.dataLen%8=0∨
      ¬EndsInUnit c w (INO_NODE_SZ+inode.dataLen) := by
  have hpos : 0<(layoutWriteInode inode).len := by
    unfold layoutWriteInode INO_NODE_SZ
    dsimp only
    split_ifs <;> omega
  have hstart : ∀ e∈(layoutWriteInode inode).entered,e=(0,0) := by
    intro e he
    unfold layoutWriteInode at he
    split_ifs at he
    · cases he
    · exact List.mem_singleton.mp he
  have hsound : Sound (Writing.writeInode inode).layout := by
    refine ⟨fun r hr => ?_,fun e he => ?_⟩
    · rw [List.mem_singleton.mp hr]
      change 0+(packInode 0 inode).2≤ if inode.nlink=0 then INO_NODE_SZ else INO_NODE_SZ+inode.dataLen
      rw [Nat.zero_add]
      exact packInode_le (fun hl => if_neg hl) (by split_ifs <;> omega)
    · rw [hstart e he]
  rw [inside_iff_sound hc hw hspace fun e he => by
    rw [hstart e he]
    exact hpos,and_iff_left hsound]
  refine (wbufCopies_inside_iff hc hw (align_fits hc hw hspace)).trans ?_
  change (if inode.nlink=0 then INO_NODE_SZ else INO_NODE_SZ+inode.dataLen)%8=0∨
    ¬EndsInUnit c w (if inode.nlink=0 then INO_NODE_SZ else INO_NODE_SZ+inode.dataLen) ↔ _
  by_cases hl : inode.nlink=0
  · rw [if_pos hl]
    exact iff_of_true (Or.inl rfl) (Or.inl hl)
  · rw [if_neg hl]
    have hmod : (INO_NODE_SZ+inode.dataLen)%8=inode.dataLen%8 := by
      unfold INO_NODE_SZ
      omega
    rw [hmod]
    simp only [hl,false_or]

/-- Exactly then an operation stays inside its buffer, and its nodes are where the TNC says. -/
theorem inside_iff_holds (c : Info) (w : Wbuf β) (x : Writing) (hc : c.Units) (hw : Asserted c w)
    (hcalled : x.Called) (hspace : x.layout.len≤c.lebSize-w.offs-w.used) :
    Inside c w x ↔ x.Holds c w := by
  cases x with
  | update dir inode nameLen deletion xent =>
    exact (shape_update dir inode nameLen deletion xent).inside_iff hc hw hspace
  | writeData inum outLen => exact (shape_writeData inum outLen hcalled).inside_iff hc hw hspace
  | writeInode inode => exact inside_writeInode hc hw inode hspace
  | rename oldInode oldDir newDir newInode oldNameLen newNameLen =>
    exact (shape_rename oldInode oldDir newDir newInode oldNameLen newNameLen hcalled.1
      hcalled.2).inside_iff hc hw hspace
  | truncate inode newSize block =>
    exact (shape_truncate inode newSize block hcalled).inside_iff hc hw hspace
  | deleteXattr host inode nameLen =>
    exact (shape_deleteXattr host inode nameLen hcalled).inside_iff hc hw hspace
  | changeXattr inode host => exact (shape_changeXattr inode host).inside_iff hc hw hspace

/-- NAND flash with pages of 2048 bytes. -/
def pageUnits : Info := ⟨126976,2048,2048,0⟩

theorem pageUnits_units : pageUnits.Units where
  eight := by decide
  unit := ⟨11,rfl⟩
  write := ⟨11,rfl⟩
  dvd := dvd_rfl
  leb := by decide

/-- An empty write-buffer at the start of a LEB. -/
def emptyHead : Wbuf UInt8 := ⟨some 7,0,2048,[],[],0⟩

theorem emptyHead_asserted : Asserted pageUnits emptyHead where
  used := Nat.dvd_zero 8
  avail := by decide
  size := by decide
  le := by decide
  offs := Nat.dvd_zero 8
  room := by decide

/-- A symbolic link. -/
def symlink (dataLen : ℕ) : Inode := ⟨70,1,dataLen,false,false⟩

theorem inside_iff_holds_example : Inside pageUnits emptyHead (.writeInode (symlink 3936)) :=
  (inside_iff_holds pageUnits emptyHead (.writeInode (symlink 3936)) pageUnits_units
    emptyHead_asserted trivial (by decide)).mpr (Or.inr (Or.inl (by decide)))

/-- Of the inode node of a symbolic link of 3932 characters, four bytes too many are written. -/
theorem writeInode_reads_beyond :
    ¬∀ (c : Info) (w : Wbuf UInt8) (x : Writing),c.Units → Asserted c w → x.Called →
      x.layout.len≤c.lebSize-w.offs-w.used → Inside c w x := by
  intro h
  have hspace : (Writing.writeInode (symlink 3932)).layout.len≤
      pageUnits.lebSize-emptyHead.offs-emptyHead.used := by decide
  have hinside := h pageUnits emptyHead (.writeInode (symlink 3932)) pageUnits_units
    emptyHead_asserted trivial hspace
  rw [inside_writeInode pageUnits_units emptyHead_asserted (symlink 3932) hspace] at hinside
  rcases hinside with hl | hl | hl
  · cases hl
  · revert hl
    decide
  · exact hl ⟨by decide,by decide⟩

end ArdroneKernel.UbifsJournal
