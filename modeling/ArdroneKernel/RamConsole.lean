import ArdroneKernel.ByteBuffers

/-!
# The RAM console

Executable model of `drivers/staging/android/ram_console.c`: the ring buffer of
console output that a following boot saves, without and with error correction.
The codec of `lib/reed_solomon` is a parameter.
-/

namespace ArdroneKernel.RamConsole

open ByteBuffers

/-- `RAM_CONSOLE_SIG` -/
def RAM_CONSOLE_SIG : ℕ := 0x43474244

/-- `sizeof(struct ram_console_buffer)` -/
def HEADER_SIZE : ℕ := 12

/-- `DIV_ROUND_UP` -/
def divRoundUp (n d : ℕ) : ℕ := (n+d-1)/d

/-- The configuration of the error correction, with the codec. The parity is
that of a systematic code: it is computed from the data, and data that agree
with their parity have no errors. -/
structure Ecc where
  /-- `ECC_BLOCK_SIZE`. -/
  blockSize : ℕ
  /-- `ECC_SIZE`. -/
  eccSize : ℕ
  /-- The block size must be a power of 2. -/
  blockSize_pow : ∃ k,blockSize=2^k
  /-- `ram_console_encode_rs8`. -/
  encode : List UInt8 → List UInt8
  /-- `ram_console_decode_rs8`: what it returns, and the data it corrects. -/
  decode : List UInt8 → List UInt8 → ℤ×List UInt8
  decode_length : ∀ data ecc,(decode data ecc).2.length=data.length
  decode_encode : ∀ data,0<data.length → data.length≤ max blockSize HEADER_SIZE →
    decode data (encode data)=(0,data)

/-! ## Memory -/

/-- `struct ram_console_buffer`, with the parities after the data. -/
structure Buffer where
  /-- `sig`. -/
  sig : ℕ
  /-- `start`. -/
  start : ℕ
  /-- `size`. -/
  size : ℕ
  /-- `data`. -/
  data : List UInt8
  /-- The parities from `ram_console_par_buffer` on. -/
  par : ℕ → List UInt8

/-- A number of 32 bits in memory. -/
def le32 (n : ℕ) : List UInt8 :=
  [UInt8.ofNat n,UInt8.ofNat (n/2^8),UInt8.ofNat (n/2^16),UInt8.ofNat (n/2^24)]

/-- The number of 32 bits at an offset. -/
def le32At (bytes : List UInt8) (offs : ℕ) : ℕ :=
  (bytes.getD offs 0).toNat+2^8*(bytes.getD (offs+1) 0).toNat+
    2^16*(bytes.getD (offs+2) 0).toNat+2^24*(bytes.getD (offs+3) 0).toNat

/-- The bytes of the header. -/
def Buffer.header (b : Buffer) : List UInt8 := le32 b.sig++le32 b.start++le32 b.size

/-- The buffer with a header of these bytes. -/
def Buffer.withHeader (b : Buffer) (bytes : List UInt8) : Buffer :=
  { b with sig := le32At bytes 0, start := le32At bytes 4, size := le32At bytes 8 }

/-- `ram_console_buffer_size` for a memory of some size, unless that is invalid. -/
def bufferSize (ecc : Option Ecc) (total : ℕ) : Option ℕ :=
  if total<HEADER_SIZE then none
  else
    let n := total-HEADER_SIZE
    match ecc with
    | none => some n
    | some e =>
      let parities := (divRoundUp n e.blockSize+1)*e.eccSize
      if n<parities then none else some (n-parities)

/-- A console in a memory of a valid size. -/
structure Console where
  /-- `CONFIG_ANDROID_RAM_CONSOLE_ERROR_CORRECTION`. -/
  ecc : Option Ecc
  /-- `buffer_size`. -/
  total : ℕ
  /-- `ram_console_buffer_size`. -/
  size : ℕ
  total_lt : total<2^32
  valid : bufferSize ecc total=some size

/-- The parity of the header is after those of the blocks. -/
def headerSlot (size : ℕ) (e : Ecc) : ℕ := divRoundUp size e.blockSize

/-! ## Writing -/

/-- The loop of `ram_console_update` over the blocks, for at most so many of
them. The size of a block is that of the last one, once it was met. -/
def encodeBlocks (e : Ecc) (data : List UInt8) (bufferEnd stop : ℕ) :
    ℕ → ℕ → ℕ → ℕ → (ℕ → List UInt8) → ℕ → List UInt8
  | 0, _, _, _, par => par
  | n+1, block, slot, size, par =>
    let size := if block+e.blockSize>bufferEnd then bufferEnd-block else size
    let par := Function.update par slot (e.encode ((data.drop block).take size))
    if block+e.blockSize<stop then
      encodeBlocks e data bufferEnd stop n (block+e.blockSize) (slot+1) size par
    else par

/-- `ram_console_update` -/
def ramConsoleUpdate (c : Console) (b : Buffer) (s : List UInt8) : Buffer :=
  let data := putAt b.data b.start s
  match c.ecc with
  | none => { b with data := data }
  | some e =>
    { b with
      data := data
      par := encodeBlocks e data c.size (b.start+s.length) (s.length+1)
        (b.start/e.blockSize*e.blockSize) (b.start/e.blockSize) e.blockSize b.par }

/-- `ram_console_update_header` -/
def ramConsoleUpdateHeader (c : Console) (b : Buffer) : Buffer :=
  match c.ecc with
  | none => b
  | some e => { b with par := Function.update b.par (headerSlot c.size e) (e.encode b.header) }

/-- `ram_console_write` from its last piece on. -/
def writeLast (c : Console) (b : Buffer) (s : List UInt8) : Buffer :=
  let b := ramConsoleUpdate c b s
  let b := { b with
    start := b.start+s.length
    size := if b.size<c.size then b.size+s.length else b.size }
  ramConsoleUpdateHeader c b

/-- `ram_console_write` -/
def ramConsoleWrite (c : Console) (b : Buffer) (s : List UInt8) : Buffer :=
  let s := if s.length>c.size then s.drop (s.length-c.size) else s
  let rem := c.size-b.start
  if rem<s.length then
    writeLast c { ramConsoleUpdate c b (s.take rem) with start := 0, size := c.size } (s.drop rem)
  else writeLast c b s

/-! ## Saving the old log -/

/-- What the error correction counts. -/
structure Errors where
  /-- `ram_console_corrected_bytes`. -/
  corrected : ℤ
  /-- `ram_console_bad_blocks`. -/
  bad : ℤ

/-- What `ram_console_decode_rs8` returned is counted. -/
def Errors.count (errs : Errors) (numerr : ℤ) : Errors :=
  if numerr>0 then { errs with corrected := errs.corrected+numerr }
  else if numerr<0 then { errs with bad := errs.bad+1 }
  else errs

/-- The bytes of a text. -/
def text (s : String) : List UInt8 := s.toList.map fun c => UInt8.ofNat c.toNat

/-- `strbuf`, which has room for 79 characters. -/
def statusLine (errs : Errors) : List UInt8 :=
  (text (if errs.corrected≠0∨errs.bad≠0 then
      "\n"++toString errs.corrected++" Corrected bytes, "++toString errs.bad++
        " unrecoverable blocks\n"
    else "\nNo errors detected\n")).take 79

/-- The loop of `ram_console_save_old` over the blocks, for at most so many of them. -/
def decodeBlocks (e : Ecc) (bufferEnd stop : ℕ) (par : ℕ → List UInt8) :
    ℕ → ℕ → ℕ → List UInt8 → Errors → List UInt8×Errors
  | 0, _, _, data, errs => (data,errs)
  | n+1, block, slot, data, errs =>
    if block<stop then
      let size := if block+e.blockSize>bufferEnd then bufferEnd-block else e.blockSize
      let (numerr,bytes) := e.decode ((data.drop block).take size) (par slot)
      decodeBlocks e bufferEnd stop par n (block+e.blockSize) (slot+1) (putAt data block bytes)
        (errs.count numerr)
    else (data,errs)

/-- The log in a buffer, the oldest bytes first. -/
def oldLog (start size : ℕ) (data : List UInt8) : List UInt8 :=
  (data.drop start).take (size-start)++data.take start

/-- `ram_console_save_old`: the corrected data and the old log, unless `kmalloc` fails. -/
def ramConsoleSaveOld (c : Console) (b : Buffer) (kmalloc : Bool) (errs : Errors) :
    List UInt8×Option (List UInt8) :=
  match c.ecc with
  | none => (b.data,if kmalloc then some (oldLog b.start b.size b.data) else none)
  | some e =>
    let (data,errs) := decodeBlocks e c.size b.size b.par b.size 0 0 b.data errs
    (data,if kmalloc then some (oldLog b.start b.size data++statusLine errs) else none)

/-! ## Starting -/

/-- `ram_console_init` of a valid size, with a codec: the old log, and the buffer it leaves. -/
def ramConsoleInit (c : Console) (kmalloc : Bool) (b : Buffer) : Option (List UInt8)×Buffer :=
  let (b,errs) :=
    match c.ecc with
    | none => (b,(⟨0,0⟩ : Errors))
    | some e =>
      let (numerr,bytes) := e.decode b.header (b.par (headerSlot c.size e))
      (b.withHeader bytes,Errors.count ⟨0,0⟩ numerr)
  let (data,old) :=
    if b.sig=RAM_CONSOLE_SIG then
      if b.size>c.size∨b.start>b.size then (b.data,none)
      else ramConsoleSaveOld c b kmalloc errs
    else (b.data,none)
  (old,{ b with data := data, sig := RAM_CONSOLE_SIG, start := 0, size := 0 })

/-- The writes of a boot, one after the other. -/
def writes (c : Console) (b : Buffer) (ss : List (List UInt8)) : Buffer :=
  ss.foldl (ramConsoleWrite c) b

end ArdroneKernel.RamConsole
