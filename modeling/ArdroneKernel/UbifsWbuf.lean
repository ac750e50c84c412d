import Mathlib.Algebra.Order.Ring.Nat

/-!
# Write-buffers of UBIFS

`ubifs_wbuf_init`, `ubifs_wbuf_seek_nolock`, `ubifs_wbuf_write_nolock`,
`ubifs_wbuf_sync_nolock` and the array of inode numbers of `fs/ubifs/io.c`, over bytes
of any type. What is on flash is the list of what `ubi_leb_write` has written.
-/

namespace ArdroneKernel.UbifsWbuf

variable {β : Type}

/-- `UBIFS_CH_SZ` -/
def CH_SZ : ℕ := 24

/-- What `init_constants_early` sets. -/
structure Info where
  lebSize : ℕ
  minIoSize : ℕ
  maxWriteSize : ℕ
  lebStart : ℕ

/-- What it accepts, after the smallest units were rounded up. -/
structure Info.Accepted (c : Info) : Prop where
  eight : 8≤c.minIoSize
  unit : ∃ k,c.minIoSize=2^k
  write : ∃ k,c.maxWriteSize=2^k
  le : c.minIoSize≤c.maxWriteSize
  dvd : c.minIoSize∣c.maxWriteSize

/-- `ALIGN` -/
def align (n a : ℕ) : ℕ := (n+(a-1))/a*a

/-- What was written at once. -/
structure Written (β : Type) where
  lnum : ℕ
  offs : ℕ
  bytes : List β

/-- `struct ubifs_wbuf` -/
structure Wbuf (β : Type) where
  /-- Nothing before the buffer is seeked. -/
  lnum : Option ℕ
  offs : ℕ
  size : ℕ
  /-- The first `used` bytes of `buf`. -/
  buf : List β
  inodes : List ℕ
  nextIno : ℕ

/-- `used` -/
def Wbuf.used (w : Wbuf β) : ℕ := w.buf.length

/-- `avail` -/
def Wbuf.avail (w : Wbuf β) : ℕ := w.size-w.used

/-- A write-buffer, and what is on flash. -/
structure Disk (β : Type) where
  flash : List (Written β)
  w : Wbuf β

variable (c : Info)

/-- `ubifs_wbuf_init` -/
def ubifsWbufInit : Wbuf β where
  lnum := none
  offs := 0
  size := c.maxWriteSize-c.lebStart%c.maxWriteSize
  buf := []
  inodes := List.replicate (c.maxWriteSize/CH_SZ+1) 0
  nextIno := 0

/-- The size of a buffer that starts at an offset. -/
def sizeAt (offs : ℕ) : ℕ :=
  if c.lebSize-offs<c.maxWriteSize then c.lebSize-offs
  else if offs%c.maxWriteSize≠0 then align offs c.maxWriteSize-offs
  else c.maxWriteSize

/-- `ubifs_wbuf_sync_nolock`. What is padded is `pad`. -/
def ubifsWbufSync (pad : β) (roError ok : Bool) (d : Disk β) : Bool×Disk β :=
  match d.w.lnum with
  | none => (true,d)
  | some lnum =>
    if d.w.used=0 then (true,d)
    else if roError then (false,d)
    else if ok then
      let syncLen := align d.w.used c.minIoSize
      let offs := d.w.offs+syncLen
      (true,{
        flash := d.flash++[⟨lnum,d.w.offs,d.w.buf++List.replicate (syncLen-d.w.used) pad⟩]
        w := {d.w with
          offs := offs
          size := sizeAt c offs
          buf := []
          nextIno := 0 } })
    else (false,d)

/-- `ubifs_wbuf_seek_nolock` -/
def ubifsWbufSeek (pad : β) (roError ok : Bool) (d : Disk β) (lnum offs : ℕ) : Bool×Disk β :=
  match (if 0<d.w.used then ubifsWbufSync c pad roError ok d else (true,d)) with
  | (false,d) => (false,d)
  | (true,d) => (true,{d with
      w := {d.w with
        lnum := some lnum
        offs := offs
        size := sizeAt c offs
        buf := [] } })

/-- The size of a buffer after a whole write unit. -/
def nextSize (offs : ℕ) : ℕ :=
  if c.maxWriteSize≤c.lebSize-offs then c.maxWriteSize else c.lebSize-offs

/-- The end of `ubifs_wbuf_write_nolock`: what is left of a node goes to the flash in
whole write units, and the remains to the buffer. -/
def writeRest (ok : Bool) (d : Disk β) (lnum offs : ℕ) (rest : List β) : Bool×Disk β :=
  let n := rest.length/c.maxWriteSize*c.maxWriteSize
  if n≠0∧ok=false then (false,d)
  else
    (true,{
      flash := if n≠0 then d.flash++[⟨lnum,offs,rest.take n⟩] else d.flash
      w := {d.w with
        offs := offs+n
        size := nextSize c (offs+n)
        buf := rest.drop n
        nextIno := 0 } })

/-- `ubifs_wbuf_write_nolock`, of something with the padding to eight bytes. Whether
its writes to flash succeed is given by their places. -/
def ubifsWbufWrite (ok : ℕ → Bool) (d : Disk β) (buf : List β) : Bool×Disk β :=
  let w := d.w
  match w.lnum with
  | none => (false,d)
  | some lnum =>
    if c.lebSize<w.offs+w.used+buf.length then (false,d)
    else if buf.length≤w.avail then
      if buf.length=w.avail then
        if ok 0 then
          (true,{
            flash := d.flash++[⟨lnum,w.offs,w.buf++buf⟩]
            w := {w with
              offs := w.offs+w.size
              size := nextSize c (w.offs+w.size)
              buf := []
              nextIno := 0 } })
        else (false,d)
      else (true,{d with w := {w with buf := w.buf++buf}})
    else if 0<w.used then
      if ok 0 then
        writeRest c (ok 1) {d with flash := d.flash++[⟨lnum,w.offs,w.buf++buf.take w.avail⟩]}
          lnum (w.offs+w.size) (buf.drop w.avail)
      else (false,d)
    else if w.offs%c.maxWriteSize≠0 then
      if ok 0 then
        writeRest c (ok 1) {d with flash := d.flash++[⟨lnum,w.offs,buf.take w.size⟩]}
          lnum (w.offs+w.size) (buf.drop w.size)
      else (false,d)
    else writeRest c (ok 1) d lnum w.offs buf

/-- `ubifs_wbuf_add_ino_nolock` -/
def ubifsWbufAddIno (w : Wbuf β) (inum : ℕ) : Wbuf β :=
  if w.used=0 then w
  else {w with inodes := w.inodes.set w.nextIno inum, nextIno := w.nextIno+1}

/-- `wbuf_has_ino` -/
def wbufHasIno (w : Wbuf β) (inum : ℕ) : Bool := (w.inodes.take w.nextIno).contains inum

end ArdroneKernel.UbifsWbuf
