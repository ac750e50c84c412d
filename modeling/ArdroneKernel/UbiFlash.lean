import ArdroneKernel.UbiScan

/-!
# Flash

The VID headers and the data areas of physical eraseblocks, the steps that
change them, and what a power cut leaves of such steps. A scan reads what the
flash holds.
-/

namespace ArdroneKernel.UbiFlash

open UbiScan

/-- What the area of a VID header holds. -/
inductive VidArea where
  /-- Nothing but 0xFF bytes. -/
  | ff
  /-- A corrupted header. -/
  | bad
  /-- A header. -/
  | hdr (h : VidHdr)
  deriving DecidableEq

/-- A physical eraseblock that was erased has an EC header. -/
structure Peb where
  /-- The area of the VID header. -/
  vid : VidArea
  /-- The data area. -/
  data : ℕ → UInt8

/-- An eraseblock after it was erased. -/
def Peb.erased : Peb := ⟨.ff,fun _ => 0xFF⟩

/-- The first bytes of the data area. -/
def Peb.bytes (b : Peb) (n : ℕ) : List UInt8 := (List.range n).map b.data

/-- All physical eraseblocks. -/
abbrev Flash := ℕ → Peb

/-- Some bytes of an area are other ones. -/
def putBytes (data : ℕ → UInt8) (offset : ℕ) (bytes : List UInt8) (i : ℕ) : UInt8 :=
  if offset≤ i∧i<offset+bytes.length then bytes.getD (i-offset) 0xFF else data i

/-- What an area holds after bytes are programmed: bits are cleared only. -/
def programmed (data : ℕ → UInt8) (offset : ℕ) (buf : List UInt8) : List UInt8 :=
  buf.mapIdx fun i b => data (offset+i)&&&b

/-- A step that changes the flash. -/
inductive FlashStep where
  /-- The area of a VID header is written. -/
  | vid (p : ℕ) (area : VidArea)
  /-- Some bytes of a data area become other ones. -/
  | data (p offset : ℕ) (bytes : List UInt8)
  /-- An eraseblock is erased. -/
  | erase (p : ℕ)

/-- The flash after a step. -/
def FlashStep.apply (f : Flash) : FlashStep → Flash
  | .vid p area => Function.update f p { f p with vid := area }
  | .data p offset bytes =>
    Function.update f p { f p with data := putBytes (f p).data offset bytes }
  | .erase p => Function.update f p Peb.erased

end ArdroneKernel.UbiFlash
