import ArdroneKernel.Execution
import Mathlib.Algebra.Order.Ring.Nat
import Mathlib.Data.Finset.Basic

/-!
# The Android log

A ring of bytes holds entries of several lengths. Writers append entries, each
reader has an offset of its own. A write first moves the readers it would
overtake. A writer notes the write head when it is entered, and takes the mutex
later: other operations may run in between.
-/

namespace ArdroneKernel.Logger

def LOGGER_ENTRY_MAX_LEN : ℕ := 4*1024

/-- `sizeof(struct logger_entry)` -/
def HEADER_LEN : ℕ := 20

def LOGGER_ENTRY_MAX_PAYLOAD : ℕ := LOGGER_ENTRY_MAX_LEN-HEADER_LEN

/-- The bytes of a number, the lowest first. -/
def le16 (x : UInt16) : List UInt8 := [x.toUInt8,(x>>>8).toUInt8]

/-- The bytes of a number, the lowest first. -/
def le32 (x : UInt32) : List UInt8 :=
  [x.toUInt8,(x>>>8).toUInt8,(x>>>16).toUInt8,(x>>>24).toUInt8]

/-- `struct logger_entry` without the payload. -/
structure LoggerEntry where
  /-- The length of the payload. -/
  len : UInt16
  pad : UInt16
  pid : UInt32
  tid : UInt32
  sec : UInt32
  nsec : UInt32

def LoggerEntry.bytes (h : LoggerEntry) : List UInt8 :=
  le16 h.len++le16 h.pad++le32 h.pid++le32 h.tid++le32 h.sec++le32 h.nsec

/-- `struct logger_log`, with the offsets of the open readers. -/
structure Log where
  buffer : ℕ → UInt8
  /-- The write head. -/
  wOff : ℕ
  /-- New readers start here. -/
  head : ℕ
  readers : ℕ → Option ℕ

section

variable (size : ℕ)

/-- `logger_offset` -/
def loggerOffset (n : ℕ) : ℕ := n&&&(size-1)

/-- The length of the entry at an offset, with its header. -/
def getEntryLen (log : Log) (off : ℕ) : ℕ :=
  let val :=
    if size-off=1 then (log.buffer off).toNat+256*(log.buffer 0).toNat
    else (log.buffer off).toNat+256*(log.buffer (off+1)).toNat
  HEADER_LEN+val

/-- The bytes a copy from the log reads. -/
def copied (log : Log) (off len : ℕ) : List UInt8 := (List.range len).map fun i => log.buffer (off+i)

def EFAULT : ℤ := 14

def EINVAL : ℤ := 22

def EAGAIN : ℤ := 11

/-- `fault₁` and `fault₂` tell whether a copy to the user fails. -/
def doReadLogToUser (log : Log) (reader rOff count : ℕ) (fault₁ fault₂ : Bool) :
    Except ℤ (List UInt8×Log) :=
  let len := min count (size-rOff)
  if fault₁ then .error (-EFAULT)
  else if count≠len∧fault₂ then .error (-EFAULT)
  else .ok (copied log rOff len++copied log 0 (count-len),
    { log with
      readers := Function.update log.readers reader (some (loggerOffset size (rOff+count))) })

/-- The part of `logger_read` that holds the mutex. Without an entry to read
it waits or fails. -/
def loggerRead (log : Log) (reader rOff count : ℕ) (fault₁ fault₂ : Bool) :
    Except ℤ (List UInt8×Log) :=
  if log.wOff=rOff then .error (-EAGAIN)
  else
    let ret := getEntryLen size log rOff
    if count<ret then .error (-EINVAL)
    else doReadLogToUser size log reader rOff ret fault₁ fault₂

/-- The loop of `get_next_entry`: every entry has a header, so that it ends.
The result also counts the entries. -/
def nextLoop (log : Log) (len : ℕ) : ℕ → ℕ → ℕ → ℕ → ℕ×ℕ
  | 0, off, _, passed => (off,passed)
  | fuel+1, off, count, passed =>
    let nr := getEntryLen size log off
    let off := loggerOffset size (off+nr)
    let count := count+nr
    if count<len then nextLoop log len fuel off count (passed+1) else (off,passed+1)

def getNextEntry (log : Log) (off len : ℕ) : ℕ×ℕ := nextLoop size log len (len+1) off 0 0

/-- Does the line from `a` to `b` cross `c`? -/
def clockInterval (a b c : ℕ) : Bool :=
  if b<a then decide (a<c∨b≥c) else decide (a<c∧b≥c)

/-- Where a reader or the start head is moved to before a write of `len` bytes,
and the entries it passes. -/
def fixUp (log : Log) (len off : ℕ) : ℕ×ℕ :=
  let old := log.wOff
  let new := loggerOffset size (old+len)
  if clockInterval old new off then getNextEntry size log off len else (off,0)

def fixUpReaders (log : Log) (len : ℕ) : Log :=
  { log with
    head := (fixUp size log len log.head).1
    readers := fun reader => (log.readers reader).map fun off => (fixUp size log len off).1 }

def memcpy (buffer : ℕ → UInt8) (off : ℕ) (bytes : List UInt8) : ℕ → UInt8 := fun i =>
  if off≤ i∧i<off+bytes.length then bytes.getD (i-off) 0 else buffer i

def doWriteLog (log : Log) (buf : List UInt8) : Log :=
  let count := buf.length
  let len := min count (size-log.wOff)
  let buffer := memcpy log.buffer log.wOff (buf.take len)
  let buffer := if count≠len then memcpy buffer 0 (buf.drop len) else buffer
  { log with buffer := buffer, wOff := loggerOffset size (log.wOff+count) }

/-- A segment of user memory. A copy from it that fails leaves some bytes in the log. -/
structure Segment where
  data : List UInt8
  fault₁ : Option (ℕ → UInt8)
  fault₂ : Option (ℕ → UInt8)

/-- Copies `count` bytes of the segment, and tells whether it succeeds. -/
def doWriteLogFromUser (log : Log) (seg : Segment) (count : ℕ) : Bool×Log :=
  let buf := seg.data.take count
  let len := min count (size-log.wOff)
  match (if len≠0 then seg.fault₁ else none) with
  | some left =>
    (false,{ log with buffer := memcpy log.buffer log.wOff ((List.range len).map left) })
  | none =>
    let buffer := memcpy log.buffer log.wOff (buf.take len)
    match (if count≠len then seg.fault₂ else none) with
    | some left =>
      (false,{ log with buffer := memcpy buffer 0 ((List.range (count-len)).map left) })
    | none =>
      let buffer := if count≠len then memcpy buffer 0 (buf.drop len) else buffer
      (true,{ log with buffer := buffer, wOff := loggerOffset size (log.wOff+count) })

/-- The loop of `logger_aio_write` over the segments. -/
def segmentLoop (headerLen orig : ℕ) : List Segment → ℕ → Log → ℤ×Log
  | [], ret, log => (ret,log)
  | seg::segs, ret, log =>
    let len := min seg.data.length (headerLen-ret)
    let res := doWriteLogFromUser size log seg len
    if res.1 then segmentLoop headerLen orig segs (ret+len) res.2
    else (-EFAULT,{ res.2 with wOff := orig })

/-- The length of the payload: that of all segments, up to the maximum. -/
def payloadLen (segs : List Segment) : ℕ :=
  min (segs.map fun seg => seg.data.length).sum LOGGER_ENTRY_MAX_PAYLOAD

/-- `logger_aio_write` from where it takes the mutex; `orig` is the write head
when it was entered, `header` gives the fields but the length. -/
def loggerAioWrite (log : Log) (orig : ℕ) (header : LoggerEntry) (segs : List Segment) : ℤ×Log :=
  let headerLen := payloadLen segs
  let header := { header with len := UInt16.ofNat headerLen }
  if headerLen=0 then (0,log)
  else
    let log := fixUpReaders size log (HEADER_LEN+headerLen)
    let log := doWriteLog size log header.bytes
    segmentLoop size headerLen orig segs 0 log

/-- `LOGGER_FLUSH_LOG` -/
def flushLog (log : Log) : Log :=
  { log with
    head := log.wOff
    readers := fun reader => (log.readers reader).map fun _ => log.wOff }

def loggerOpen (log : Log) (reader : ℕ) : Log :=
  { log with readers := Function.update log.readers reader (some log.head) }

def loggerRelease (log : Log) (reader : ℕ) : Log :=
  { log with readers := Function.update log.readers reader none }

/-! ## Runs -/

/-- An operation. A writer is entered before it writes. -/
inductive Op where
  | openReader (reader : ℕ)
  | release (reader : ℕ)
  | read (reader count : ℕ) (fault₁ fault₂ : Bool)
  | flush
  | enter (writer : ℕ)
  | write (writer : ℕ) (header : LoggerEntry) (segs : List Segment)

/-- An entry that was written, and where. -/
structure Written where
  header : LoggerEntry
  payload : List UInt8
  off : ℕ

def Written.bytes (w : Written) : List UInt8 := w.header.bytes++w.payload

/-- The payload of a write. -/
def payloadOf (segs : List Segment) : List UInt8 :=
  (segs.flatMap fun seg => seg.data).take (payloadLen segs)

/-- The log, with what was done to it. -/
structure Session where
  log : Log
  /-- The write heads noted by the writers that were entered. -/
  entered : ℕ → Option ℕ
  /-- The writes that succeeded. -/
  hist : List Written
  /-- The entries that the write head passed or reached again. -/
  overtaken : Finset ℕ
  /-- The entries before this one were flushed. -/
  flushed : ℕ
  /-- The entries before the start head. -/
  headPos : ℕ
  /-- The entries before the first one of each reader. -/
  first : ℕ → ℕ
  /-- The entries each reader is past. -/
  pos : ℕ → ℕ
  /-- What each reader was given. -/
  got : ℕ → List (List UInt8)

def Session.start : Session :=
  ⟨⟨fun _ => 0,0,0,fun _ => none⟩,fun _ => none,[],∅,0,0,fun _ => 0,fun _ => 0,fun _ => []⟩

/-- The entries the write head passes or reaches in a write of `len` bytes. -/
def crossed (c : Session) (len : ℕ) : Finset ℕ :=
  (Finset.range c.hist.length).filter fun i =>
    ∃ w∈c.hist[i]?,clockInterval c.log.wOff (loggerOffset size (c.log.wOff+len)) w.off=true

def step (c : Session) : Op → Option Session
  | .openReader reader =>
    if c.log.readers reader=none then
      some { c with
        log := loggerOpen c.log reader
        first := Function.update c.first reader c.headPos
        pos := Function.update c.pos reader c.headPos
        got := Function.update c.got reader [] }
    else none
  | .release reader => some { c with log := loggerRelease c.log reader }
  | .read reader count fault₁ fault₂ =>
    match c.log.readers reader with
    | none => none
    | some rOff =>
      match loggerRead size c.log reader rOff count fault₁ fault₂ with
      | .error _ => some c
      | .ok (bytes,log) => some { c with
          log := log
          pos := Function.update c.pos reader (c.pos reader+1)
          got := Function.update c.got reader (c.got reader++[bytes]) }
  | .flush => some { c with
      log := flushLog c.log
      flushed := c.hist.length
      headPos := c.hist.length
      pos := fun reader => if (c.log.readers reader).isSome then c.hist.length else c.pos reader }
  | .enter writer => some { c with
      entered := Function.update c.entered writer (some c.log.wOff) }
  | .write writer header segs =>
    match c.entered writer with
    | none => none
    | some orig =>
      let len := HEADER_LEN+payloadLen segs
      let res := loggerAioWrite size c.log orig header segs
      let c' : Session := { c with
        log := res.2
        entered := Function.update c.entered writer none }
      if payloadLen segs=0 then some c'
      else
        let c' : Session := { c' with
          overtaken := c.overtaken∪crossed size c len
          headPos := c.headPos+(fixUp size c.log len c.log.head).2
          pos := fun reader => match c.log.readers reader with
            | none => c.pos reader
            | some off => c.pos reader+(fixUp size c.log len off).2 }
        if res.1<0 then some c'
        else some { c' with
          hist := c.hist++[⟨{ header with len := UInt16.ofNat (payloadLen segs) },
            payloadOf segs,c.log.wOff⟩] }

end

end ArdroneKernel.Logger
