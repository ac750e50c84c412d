import ArdroneKernel.Logger
import Mathlib.Data.List.GetD
import Mathlib.Data.Nat.ModEq

/-!
# What the readers of the log get

Counting the bytes of all successful writes gives every entry a position that
never changes; the offsets in the ring are these positions modulo its size. A
reader stands at the start of an entry, and the bytes from there on to the
write head are those that were written.
-/

namespace ArdroneKernel.Logger

open Execution Function

variable {size W : ℕ}

/-! ## The ring -/

theorem loggerOffset_eq (hsize : ∃ k,size=2^k) (n : ℕ) : loggerOffset size n=n%size := by
  have ⟨k,hk⟩ := hsize
  rw [hk]
  exact Nat.and_two_pow_sub_one_eq_mod n k

/-- A position modulo the size of the ring, from a position not long before it. -/
theorem mod_add_cases (hpos : 0<size) {j : ℕ} (hj : j≤ size) :
    W%size+j<size∧(W+j)%size=W%size+j∨size≤W%size+j∧(W+j)%size=W%size+j-size := by
  have hw := Nat.mod_lt W hpos
  rw [←Nat.mod_add_mod]
  by_cases h : W%size+j<size
  · exact .inl ⟨h,Nat.mod_eq_of_lt h⟩
  · refine .inr ⟨not_lt.mp h,?_⟩
    rw [Nat.mod_eq_sub_mod (not_lt.mp h)]
    exact Nat.mod_eq_of_lt (by omega)

/-- The line from the write head to where it goes crosses an offset not more
than the size behind it. -/
theorem clockInterval_iff {R len : ℕ} (hR : R≤W) (hW : W<R+size) (hlen : len<size) :
    clockInterval (W%size) ((W+len)%size) (R%size)=true ↔ R+size≤W+len := by
  have hpos : 0<size := by omega
  have hr := Nat.mod_lt R hpos
  have hn := mod_add_cases (W := W) hpos hlen.le
  have hd := mod_add_cases (W := R) hpos (show W-R≤ size by omega)
  rw [Nat.add_sub_cancel' hR] at hd
  unfold clockInterval
  split <;> rw [decide_eq_true_iff] <;> omega

/-- Bytes were written at a position, and what lies less than the size before
their end is as it was. -/
structure Wrote (size W : ℕ) (base buffer : ℕ → UInt8) (bytes : List UInt8) : Prop where
  new : ∀ j,(h : j<bytes.length) → buffer ((W+j)%size)=bytes[j]
  old : ∀ q<W,W+bytes.length≤q+size → buffer (q%size)=base (q%size)

variable {base buffer buffer' : ℕ → UInt8} {xs ys : List UInt8}

theorem Wrote.append (h : Wrote size W base buffer xs)
    (h' : Wrote size (W+xs.length) buffer buffer' ys) (hle : xs.length+ys.length≤ size) :
    Wrote size W base buffer' (xs++ys) := by
  refine ⟨fun j hj => ?_,fun q hq hlen => ?_⟩
  · by_cases hx : j<xs.length
    · rw [List.getElem_append_left hx,h'.old _ (by omega) (by omega),h.new j hx]
    · have hj' : W+j=W+xs.length+(j-xs.length) := by omega
      rw [List.getElem_append_right (not_lt.mp hx),hj']
      exact h'.new _ _
  · rw [List.length_append] at hlen
    rw [h'.old q (by omega) (by omega),h.old q hq (by omega)]

theorem memcpy_in (buffer : ℕ → UInt8) {off i : ℕ} (bytes : List UInt8) (h1 : off≤ i)
    (h2 : i-off<bytes.length) : memcpy buffer off bytes i=bytes[i-off] := by
  unfold memcpy
  rw [if_pos ⟨h1,by omega⟩,List.getD_eq_getElem _ _ h2]

theorem memcpy_out (buffer : ℕ → UInt8) {off i : ℕ} (bytes : List UInt8)
    (h : i<off∨off+bytes.length≤ i) : memcpy buffer off bytes i=buffer i := by
  unfold memcpy
  rw [if_neg (by omega)]

/-- Bytes that may run over the end of the ring. -/
theorem wrote_wrap (hpos : 0<size) (base : ℕ → UInt8) (bytes : List UInt8)
    (hle : bytes.length≤ size) :
    Wrote size W base
      (if bytes.length≠min bytes.length (size-W%size) then
        memcpy (memcpy base (W%size) (bytes.take (min bytes.length (size-W%size)))) 0
          (bytes.drop (min bytes.length (size-W%size)))
      else memcpy base (W%size) (bytes.take (min bytes.length (size-W%size)))) bytes := by
  have hw := Nat.mod_lt W hpos
  generalize hl : min bytes.length (size-W%size)=l
  have htake : (bytes.take l).length=l := by
    rw [List.length_take]
    omega
  refine ⟨fun j hj => ?_,fun q hq hlen => ?_⟩
  · have hin : W%size+j<size →
        memcpy base (W%size) (bytes.take l) (W%size+j)=bytes[j] := by
      intro hlt
      have hj' : W%size+j-W%size=j := Nat.add_sub_cancel_left _ _
      rw [memcpy_in base (bytes.take l) (Nat.le_add_right _ _) (by rw [htake]; omega)]
      simp only [hj',List.getElem_take]
    rcases mod_add_cases (W := W) hpos (show j≤ size by omega) with ⟨hlt,heq⟩|⟨hge,heq⟩
    · rw [heq]
      split
      · rw [memcpy_out _ _ (by rw [List.length_drop]; omega)]
        exact hin hlt
      · exact hin hlt
    · rw [heq,if_pos (by omega),memcpy_in _ _ (Nat.zero_le _) (by rw [List.length_drop]; omega)]
      have hj' : l+(W%size+j-size-0)=j := by omega
      simp only [List.getElem_drop,hj']
  · have hd := mod_add_cases (W := q) hpos (show W-q≤ size by omega)
    rw [Nat.add_sub_cancel' hq.le] at hd
    have hout : memcpy base (W%size) (bytes.take l) (q%size)=base (q%size) :=
      memcpy_out _ _ (by rw [htake]; omega)
    split
    · rw [memcpy_out _ _ (by rw [List.length_drop]; omega)]
      exact hout
    · exact hout

/-! ## Entries and their positions -/

theorem le16_toNat (x : UInt16) : x.toUInt8.toNat+256*(x>>>8).toUInt8.toNat=x.toNat := by
  have hx := x.toNat_lt
  have h1 : x.toUInt8.toNat=x.toNat%256 := UInt16.toNat_toUInt8 x
  have h2 : (x>>>8).toUInt8.toNat=x.toNat/256%256 := by
    have h₈ : UInt16.toNat 8%16=8 := rfl
    rw [UInt16.toNat_toUInt8,UInt16.toNat_shiftRight,h₈,Nat.shiftRight_eq_div_pow]
  omega

theorem LoggerEntry.length_bytes (h : LoggerEntry) : h.bytes.length=HEADER_LEN := rfl

/-- An entry whose length field is right, and that fits. -/
structure Proper (w : Written) : Prop where
  len : w.header.len.toNat=w.payload.length
  le : w.bytes.length≤LOGGER_ENTRY_MAX_LEN

theorem Written.length_bytes (w : Written) : w.bytes.length=HEADER_LEN+w.payload.length := by
  unfold Written.bytes
  rw [List.length_append,LoggerEntry.length_bytes]

/-- All bytes written, one entry after the other. -/
def stream (ws : List Written) : List UInt8 := ws.flatMap Written.bytes

/-- Where an entry starts among all bytes written. -/
def position (ws : List Written) (i : ℕ) : ℕ := (stream (ws.take i)).length

variable {ws : List Written} {w : Written} {i p : ℕ} {log : Log} {off : ℕ}

theorem position_length (ws : List Written) : position ws ws.length=(stream ws).length := by
  unfold position
  rw [List.take_length]

theorem stream_append (xs ys : List Written) : stream (xs++ys)=stream xs++stream ys :=
  List.flatMap_append

theorem position_succ (h : ws[i]?=some w) : position ws (i+1)=position ws i+w.bytes.length := by
  unfold position
  rw [List.take_add_one,h,stream_append,List.length_append]
  simp [stream]

theorem position_mono {j : ℕ} (h : i≤j) : position ws i≤position ws j := by
  unfold position
  have htake : ws.take j=ws.take i++(ws.drop i).take (j-i) := by
    rw [←List.take_add,Nat.add_sub_cancel' h]
  rw [htake,stream_append,List.length_append]
  exact Nat.le_add_right _ _

theorem position_le (ws : List Written) (i : ℕ) : position ws i≤(stream ws).length := by
  rcases le_total i ws.length with h|h
  · exact (position_mono h).trans (position_length ws).le
  · unfold position
    rw [List.take_of_length_le h]

theorem position_append (h : i≤ws.length) : position (ws++[w]) i=position ws i := by
  unfold position
  rw [List.take_append_of_le_length h]

theorem stream_get (h : ws[i]?=some w) {j : ℕ} (hj : j<w.bytes.length) :
    (stream ws)[position ws i+j]?=w.bytes[j]? := by
  have ⟨hi,hw⟩ := List.getElem?_eq_some_iff.mp h
  have hsplit : ws=ws.take i++w::ws.drop (i+1) := by
    rw [←hw,List.cons_getElem_drop_succ,List.take_append_drop]
  have hs : stream ws=stream (ws.take i)++(w.bytes++stream (ws.drop (i+1))) := by
    conv_lhs => rw [hsplit,stream_append]
    rfl
  unfold position
  rw [hs,List.getElem?_append_right (Nat.le_add_right _ _),Nat.add_sub_cancel_left,
    List.getElem?_append_left hj]

/-- An offset is that of an entry, or the write head, and all bytes from there
to the write head are in the ring. -/
structure At (size : ℕ) (ws : List Written) (buffer : ℕ → UInt8) (p off : ℕ) : Prop where
  le : p≤ws.length
  off : off=position ws p%size
  near : (stream ws).length<position ws p+size
  bytes : ∀ q,position ws p≤q → (h : q<(stream ws).length) → buffer (q%size)=(stream ws)[q]

theorem At.get (h : At size ws buffer p off) (hw : ws[p]?=some w) {j : ℕ} (hj : j<w.bytes.length) :
    buffer ((position ws p+j)%size)=w.bytes[j] := by
  have hs := stream_get hw hj
  rw [List.getElem?_eq_getElem hj] at hs
  have ⟨hlt,heq⟩ := List.getElem?_eq_some_iff.mp hs
  exact (h.bytes _ (Nat.le_add_right _ _) hlt).trans heq

/-- The length read at the start of an entry. -/
theorem getEntryLen_at (hbig : LOGGER_ENTRY_MAX_LEN<size) (h : At size ws log.buffer p off)
    (hw : ws[p]?=some w) (proper : Proper w) :
    getEntryLen size log off=w.bytes.length := by
  have hlen := w.length_bytes
  have hpos : 0<size := by omega
  have hlt := Nat.mod_lt (position ws p) hpos
  have hhead : HEADER_LEN=20 := rfl
  have h0 := h.get hw (show 0<w.bytes.length by omega)
  have h1 := h.get hw (show 1<w.bytes.length by omega)
  rw [Nat.add_zero,←h.off] at h0
  have hb0 : w.bytes[0]=w.header.len.toUInt8 := rfl
  have hb1 : w.bytes[1]=(w.header.len>>>8).toUInt8 := rfl
  rw [hb0] at h0
  rw [hb1] at h1
  have hoff := h.off
  have hval := le16_toNat w.header.len
  rw [proper.len] at hval
  have hcases := mod_add_cases (W := position ws p) hpos (show 1≤ size by omega)
  unfold getEntryLen
  rw [hlen]
  split
  · next hone =>
    have hnext : (position ws p+1)%size=0 := by omega
    rw [hnext] at h1
    rw [h0,h1,hval]
  · next hone =>
    have hnext : (position ws p+1)%size=off+1 := by omega
    rw [hnext] at h1
    rw [h0,h1,hval]

/-! ## Moving readers forward -/

/-- The entry after one that is intact. -/
theorem At.next (h : At size ws buffer p off) (hw : ws[p]?=some w) :
    At size ws buffer (p+1) ((off+w.bytes.length)%size) := by
  have hs := position_succ hw
  have hlt := (List.getElem?_eq_some_iff.mp hw).1
  refine ⟨hlt,?_,?_,fun q hq hlen => h.bytes q (by omega) hlen⟩
  · rw [h.off,Nat.mod_add_mod,hs]
  · have := h.near
    omega

/-- The entries passed are those that start less than the length after the first one. -/
theorem nextLoop_spec (hsize : ∃ k,size=2^k) (hbig : LOGGER_ENTRY_MAX_LEN<size)
    (proper : ∀ w∈ws,Proper w) (log : Log) (len fuel : ℕ) : ∀ (p off count passed : ℕ),
    At size ws log.buffer p off → count<len → len-count≤fuel →
    position ws p+(len-count)≤(stream ws).length →
    ∃ n off',nextLoop size log len fuel off count passed=(off',passed+n)∧
      At size ws log.buffer (p+n) off'∧position ws p+(len-count)≤position ws (p+n)∧
      ∀ i,p≤ i → i<p+n → position ws i<position ws p+(len-count) := by
  induction fuel with
  | zero =>
    intro p off count passed _ _ hfuel
    omega
  | succ fuel ih =>
    intro p off count passed h hcount hfuel hroom
    have hlt : p<ws.length := by
      by_contra hge
      have heq : p=ws.length := le_antisymm h.le (not_lt.mp hge)
      rw [heq,position_length] at hroom
      omega
    have hw : ws[p]?=some ws[p] := List.getElem?_eq_getElem hlt
    have hp := proper _ (List.getElem_mem hlt)
    have hnr := getEntryLen_at hbig h hw hp
    have hnext := h.next hw
    have hs := position_succ hw
    have hlen := Written.length_bytes ws[p]
    have hhead : HEADER_LEN=20 := rfl
    unfold nextLoop
    dsimp only
    rw [hnr,loggerOffset_eq hsize]
    split
    · next hmore =>
      have ⟨n,off',heq,hat,hfar,hnear⟩ := ih (p+1) _ (count+ws[p].bytes.length) (passed+1) hnext
        hmore (by omega) (by omega)
      refine ⟨n+1,off',?_,?_,?_,fun i hi hi' => ?_⟩
      · rw [heq,Nat.add_assoc,Nat.add_comm 1 n]
      · rw [Nat.add_comm n 1,←Nat.add_assoc]
        exact hat
      · rw [Nat.add_comm n 1,←Nat.add_assoc]
        omega
      · by_cases hip : i=p
        · rw [hip]
          omega
        · have := hnear i (by omega) (by omega)
          omega
    · next hdone =>
      refine ⟨1,_,rfl,hnext,by omega,fun i hi hi' => ?_⟩
      have hip : i=p := by omega
      rw [hip]
      omega

/-- The entries after an offset start as many bytes after it. -/
def entryStart (size : ℕ) (log : Log) (off : ℕ) : ℕ → ℕ
  | 0 => 0
  | n+1 => entryStart size log off n+
    getEntryLen size log ((off+entryStart size log off n)%size)

theorem entryStart_eq (hbig : LOGGER_ENTRY_MAX_LEN<size) (proper : ∀ w∈ws,Proper w)
    (h : At size ws log.buffer p off) (n : ℕ) (hn : p+n≤ws.length) :
    position ws (p+n)=position ws p+entryStart size log off n∧
      At size ws log.buffer (p+n) ((off+entryStart size log off n)%size) := by
  have hmod : off%size=off := by
    rw [h.off,Nat.mod_mod]
  induction n with
  | zero =>
    refine ⟨rfl,?_⟩
    unfold entryStart
    rw [Nat.add_zero,Nat.add_zero,hmod]
    exact h
  | succ n ih =>
    have ⟨hpos,hat⟩ := ih (by omega)
    have hlt : p+n<ws.length := by omega
    have hw : ws[p+n]?=some ws[p+n] := List.getElem?_eq_getElem hlt
    have hnr := getEntryLen_at hbig hat hw (proper _ (List.getElem_mem hlt))
    have hs := position_succ hw
    unfold entryStart
    rw [hnr]
    refine ⟨?_,?_⟩
    · rw [←Nat.add_assoc,hs,hpos,Nat.add_assoc]
    · have hnext := hat.next hw
      rw [Nat.mod_add_mod] at hnext
      rw [←Nat.add_assoc off]
      exact hnext

/-- Half of the ring holds an entry. -/
theorem double_le (hsize : ∃ k,size=2^k) (hbig : LOGGER_ENTRY_MAX_LEN<size) :
    2*LOGGER_ENTRY_MAX_LEN≤ size := by
  have ⟨k,hk⟩ := hsize
  have h12 : LOGGER_ENTRY_MAX_LEN=2^12 := rfl
  rw [h12,hk] at hbig ⊢
  have hlt : 12<k := (Nat.pow_lt_pow_iff_right (by decide)).mp hbig
  have hle := Nat.pow_le_pow_right (show 0<2 by decide) (show 12+1≤k from hlt)
  omega

/-- What a write of some length does to an offset in the log. -/
structure Moved (size len : ℕ) (ws : List Written) (log : Log) (p off : ℕ) (res : ℕ×ℕ) :
    Prop where
  hat : At size ws log.buffer (p+res.2) res.1
  room : (stream ws).length+len<position ws (p+res.2)+size
  /-- The entries passed start less than the length after the offset, which is crossed. -/
  near : ∀ i,p≤ i → i<p+res.2 → position ws i<position ws p+len∧
    clockInterval log.wOff (loggerOffset size (log.wOff+len)) off=true

theorem fixUp_moved (hsize : ∃ k,size=2^k) (hbig : LOGGER_ENTRY_MAX_LEN<size)
    (proper : ∀ w∈ws,Proper w) (hw : log.wOff=(stream ws).length%size) {off len : ℕ}
    (h : At size ws log.buffer p off) (hlen : 0<len) (hmax : len≤LOGGER_ENTRY_MAX_LEN) :
    Moved size len ws log p off (fixUp size log len off) := by
  have hdouble := double_le hsize hbig
  have hcross := clockInterval_iff (position_le ws p) h.near (show len<size by omega)
  have hnew : loggerOffset size (log.wOff+len)=((stream ws).length+len)%size := by
    rw [loggerOffset_eq hsize,hw,Nat.mod_add_mod]
  rw [←hw,←h.off,←hnew] at hcross
  unfold fixUp
  by_cases hc : clockInterval log.wOff (loggerOffset size (log.wOff+len)) off=true
  · rw [if_pos hc]
    have hin := hcross.mp hc
    have ⟨n,off',heq,hat,hfar,hnear⟩ := nextLoop_spec hsize hbig proper log len (len+1) p off 0 0 h
      hlen (by omega) (by omega)
    unfold getNextEntry
    rw [heq,Nat.zero_add]
    have hlt := h.near
    refine ⟨hat,?_,fun i hi hi' => ⟨?_,hc⟩⟩
    · dsimp only
      omega
    · exact hnear i hi hi'
  · rw [if_neg hc]
    have hout := mt hcross.mpr hc
    refine ⟨h,?_,fun i hi hi' => absurd hi' (not_lt.mpr hi)⟩
    rw [Nat.add_zero]
    omega

/-! ## Writing -/

/-- Bytes were written at a position, and the readers were left alone. -/
structure Stored (size W : ℕ) (log log' : Log) (bytes : List UInt8) : Prop where
  wrote : Wrote size W log.buffer log'.buffer bytes
  head : log'.head=log.head
  readers : log'.readers=log.readers

theorem Stored.append {log log' log'' : Log} (h : Stored size W log log' xs)
    (h' : Stored size (W+xs.length) log' log'' ys) (hle : xs.length+ys.length≤ size) :
    Stored size W log log'' (xs++ys) :=
  ⟨h.wrote.append h'.wrote hle,h'.head.trans h.head,h'.readers.trans h.readers⟩

/-- Bytes that do not run over the end of the ring. -/
theorem wrote_short (hpos : 0<size) (base : ℕ → UInt8) (bytes : List UInt8)
    (hle : bytes.length≤ size-W%size) :
    Wrote size W base (memcpy base (W%size) bytes) bytes := by
  have h := wrote_wrap (W := W) hpos base bytes (by omega)
  rw [min_eq_left hle,if_neg (not_not.mpr rfl),List.take_length] at h
  exact h

theorem doWriteLog_stored (hsize : ∃ k,size=2^k) (log : Log) (hw : log.wOff=W%size)
    (buf : List UInt8) (hle : buf.length≤ size) :
    Stored size W log (doWriteLog size log buf) buf∧
      (doWriteLog size log buf).wOff=(W+buf.length)%size := by
  have hpos : 0<size := by
    have ⟨k,hk⟩ := hsize
    rw [hk]
    exact Nat.two_pow_pos k
  have h := wrote_wrap (W := W) hpos log.buffer buf hle
  rw [←hw] at h
  refine ⟨⟨h,rfl,rfl⟩,?_⟩
  unfold doWriteLog
  dsimp only
  rw [loggerOffset_eq hsize,hw,Nat.mod_add_mod]

/-- What a copy from a segment leaves in the log. -/
def Copied (size W : ℕ) (log : Log) (bytes : List UInt8) (res : Bool×Log) : Prop :=
  if res.1 then Stored size W log res.2 bytes∧res.2.wOff=(W+bytes.length)%size
  else ∃ left,left.length≤bytes.length∧Stored size W log res.2 left

theorem doWriteLogFromUser_copied (hsize : ∃ k,size=2^k) (hw : log.wOff=W%size) (seg : Segment)
    {count : ℕ} (hc : count≤ seg.data.length) (hle : count≤ size) :
    Copied size W log (seg.data.take count) (doWriteLogFromUser size log seg count) := by
  have hpos : 0<size := by
    have ⟨k,hk⟩ := hsize
    rw [hk]
    exact Nat.two_pow_pos k
  have htake : (seg.data.take count).length=count := by
    rw [List.length_take]
    omega
  unfold doWriteLogFromUser
  dsimp only
  rw [hw]
  cases (if min count (size-W%size)≠0 then seg.fault₁ else none) with
  | some left =>
    refine ⟨(List.range (min count (size-W%size))).map left,?_,?_,rfl,rfl⟩
    · rw [List.length_map,List.length_range,htake]
      exact min_le_left _ _
    · refine wrote_short hpos log.buffer _ ?_
      rw [List.length_map,List.length_range]
      exact min_le_right _ _
  | none =>
    by_cases hwrap : count≠min count (size-W%size)
    case neg =>
      rw [if_neg hwrap,if_neg hwrap]
      have h := wrote_wrap (W := W) hpos log.buffer (seg.data.take count) (by omega)
      rw [htake,if_neg hwrap] at h
      refine ⟨⟨h,rfl,rfl⟩,?_⟩
      rw [htake,loggerOffset_eq hsize,Nat.mod_add_mod]
    rw [if_pos hwrap,if_pos hwrap]
    cases seg.fault₂ with
    | some left =>
      -- The first copy, and what is left of the second one.
      have hlen : ((List.range (count-min count (size-W%size))).map left).length=
          count-min count (size-W%size) := by
        rw [List.length_map,List.length_range]
      have hfirst : ((seg.data.take count).take (min count (size-W%size))).length=
          min count (size-W%size) := by
        rw [List.length_take,htake]
        omega
      generalize hx : (seg.data.take count).take (min count (size-W%size))=xs at hfirst ⊢
      generalize hy : (List.range (count-min count (size-W%size))).map left=ys at hlen ⊢
      have hall : (xs++ys).length=count := by
        rw [List.length_append,hfirst,hlen]
        omega
      have h := wrote_wrap (W := W) hpos log.buffer (xs++ys) (by omega)
      rw [hall,if_pos hwrap,List.take_left' hfirst,List.drop_left' hfirst] at h
      subst hy
      exact ⟨_,by rw [hall,htake],h,rfl,rfl⟩
    | none =>
      have h := wrote_wrap (W := W) hpos log.buffer (seg.data.take count) (by omega)
      rw [htake,if_pos hwrap] at h
      refine ⟨⟨h,rfl,rfl⟩,?_⟩
      rw [htake,loggerOffset_eq hsize,Nat.mod_add_mod]

/-- The segments are copied one after the other, as far as the payload goes. -/
theorem segmentLoop_spec (hsize : ∃ k,size=2^k) (headerLen orig : ℕ) (segs : List Segment) :
    ∀ (ret W : ℕ) (log : Log),log.wOff=W%size → ret≤headerLen → headerLen≤ size →
    (Stored size W log (segmentLoop size headerLen orig segs ret log).2
        ((segs.flatMap fun seg => seg.data).take (headerLen-ret))∧
      0≤(segmentLoop size headerLen orig segs ret log).1∧
      (segmentLoop size headerLen orig segs ret log).2.wOff=
        (W+((segs.flatMap fun seg => seg.data).take (headerLen-ret)).length)%size)∨
    ∃ left,left.length≤headerLen-ret∧
      Stored size W log (segmentLoop size headerLen orig segs ret log).2 left∧
      (segmentLoop size headerLen orig segs ret log).1<0∧
      (segmentLoop size headerLen orig segs ret log).2.wOff=orig := by
  induction segs with
  | nil =>
    intro ret W log hw _ _
    refine .inl ⟨⟨⟨fun j hj => ?_,fun _ _ _ => rfl⟩,rfl,rfl⟩,Int.natCast_nonneg _,?_⟩
    · simp at hj
    · show log.wOff=_
      rw [hw]
      simp
  | cons seg segs ih =>
    intro ret W log hw hret hle
    have hcopy := doWriteLogFromUser_copied hsize hw seg
      (min_le_left seg.data.length (headerLen-ret)) (by omega)
    unfold segmentLoop
    dsimp only
    generalize doWriteLogFromUser size log seg (min seg.data.length (headerLen-ret))=res at hcopy ⊢
    have htake : (seg.data.take (min seg.data.length (headerLen-ret))).length=
        min seg.data.length (headerLen-ret) := by
      rw [List.length_take]
      omega
    unfold Copied at hcopy
    by_cases hok : res.1=true
    · rw [if_pos hok] at hcopy ⊢
      have ⟨hst,hoff⟩ := hcopy
      have hall : ((seg::segs).flatMap fun seg => seg.data).take (headerLen-ret)=
          seg.data.take (min seg.data.length (headerLen-ret))++
            (segs.flatMap fun seg => seg.data).take
              (headerLen-(ret+min seg.data.length (headerLen-ret))) := by
        rw [List.flatMap_cons,List.take_append]
        congr 1
        · rcases le_total seg.data.length (headerLen-ret) with h|h
          · rw [min_eq_left h,List.take_length,List.take_of_length_le h]
          · rw [min_eq_right h]
        · congr 1
          omega
      rcases ih (ret+min seg.data.length (headerLen-ret)) _ res.2 hoff (by omega) hle with
        ⟨hst',hpos,hoff'⟩|⟨left,hlen,hst',hneg,hoff'⟩
      · refine .inl ⟨?_,hpos,?_⟩
        · rw [hall]
          refine hst.append hst' ?_
          rw [htake,List.length_take]
          omega
        · rw [hall,List.length_append,hoff',Nat.add_assoc]
      · refine .inr ⟨_,?_,hst.append hst' ?_,hneg,hoff'⟩
        · rw [List.length_append,htake]
          omega
        · omega
    · rw [if_neg hok] at hcopy ⊢
      have ⟨left,hlen,hst⟩ := hcopy
      refine .inr ⟨left,?_,⟨hst.wrote,hst.head,hst.readers⟩,?_,rfl⟩
      · omega
      · show -EFAULT<0
        decide

/-- A copy from a segment to a write head does not succeed. -/
def copyFails (size wOff : ℕ) (seg : Segment) (count : ℕ) : Bool :=
  (min count (size-wOff)≠0∧seg.fault₁.isSome)∨(count≠min count (size-wOff)∧seg.fault₂.isSome)

/-- A copy from the segments does not succeed. -/
def userFails (size headerLen : ℕ) : List Segment → ℕ → ℕ → Bool
  | [], _, _ => false
  | seg::segs, ret, wOff =>
    let len := min seg.data.length (headerLen-ret)
    copyFails size wOff seg len||userFails size headerLen segs (ret+len)
      (loggerOffset size (wOff+len))

theorem doWriteLogFromUser_of_fails {seg : Segment} {count : ℕ}
    (h : copyFails size log.wOff seg count=false) :
    (doWriteLogFromUser size log seg count).1=true∧
      (doWriteLogFromUser size log seg count).2.wOff=loggerOffset size (log.wOff+count) := by
  unfold copyFails at h
  rw [decide_eq_false_iff_not,not_or,not_and,not_and] at h
  have h1 : (if min count (size-log.wOff)≠0 then seg.fault₁ else none)=none := by
    split
    · next hne => exact Option.not_isSome_iff_eq_none.mp (h.1 hne)
    · rfl
  have h2 : (if count≠min count (size-log.wOff) then seg.fault₂ else none)=none := by
    split
    · next hne => exact Option.not_isSome_iff_eq_none.mp (h.2 hne)
    · rfl
  unfold doWriteLogFromUser
  dsimp only
  rw [h1]
  rw [h2]
  exact ⟨rfl,rfl⟩

theorem segmentLoop_of_fails (headerLen orig : ℕ) (segs : List Segment) : ∀ (ret : ℕ) (log : Log),
    userFails size headerLen segs ret log.wOff=false →
    0≤(segmentLoop size headerLen orig segs ret log).1 := by
  induction segs with
  | nil => exact fun ret log _ => Int.natCast_nonneg ret
  | cons seg segs ih =>
    intro ret log h
    unfold userFails at h
    rw [Bool.or_eq_false_iff] at h
    have ⟨hok,hoff⟩ := doWriteLogFromUser_of_fails h.1
    unfold segmentLoop
    rw [if_pos hok]
    refine ih _ _ ?_
    rw [hoff]
    exact h.2

/-! ## What readers get -/

/-- The bytes from an offset to the write head are those of some entries. -/
def Unread (size : ℕ) (log : Log) (off : ℕ) (ws : List Written) : Prop :=
  (stream ws).length<size∧(off+(stream ws).length)%size=log.wOff∧
    ∀ i,(h : i<(stream ws).length) → log.buffer ((off+i)%size)=(stream ws)[i]

/-- What a reader was given are entries in the order they were written, and the
others since its start were flushed or overtaken. -/
def Followed (c : Session) (reader : ℕ) : Prop :=
  c.first reader≤c.pos reader∧∃ idx : List ℕ,idx.Pairwise (·<·)∧(∀ i∈idx,c.first reader≤ i∧i<c.pos reader)∧
    idx.map (fun i => c.hist[i]?.map Written.bytes)=(c.got reader).map some∧
    ∀ i,c.first reader≤ i → i<c.pos reader → i∉idx → i<c.flushed∨i∈c.overtaken

/-- What holds between two operations. -/
structure Sound (size : ℕ) (c : Session) : Prop where
  lengths : ∀ w∈c.hist,w.header.len.toNat=w.payload.length
  followed : ∀ reader off,c.log.readers reader=some off → Followed c reader
  /-- What a reader did not get yet is intact. -/
  unread : ∀ reader off,c.log.readers reader=some off →
    c.pos reader≤c.hist.length∧Unread size c.log off (c.hist.drop (c.pos reader))
  /-- The entries new readers start with are intact. -/
  start : c.headPos≤c.hist.length∧Unread size c.log c.log.head (c.hist.drop c.headPos)
  /-- A read that succeeds returns the next entry. -/
  reads : ∀ reader off count fault₁ fault₂ bytes log,c.log.readers reader=some off →
    loggerRead size c.log reader off count fault₁ fault₂=.ok (bytes,log) →
    ∃ w,c.hist[c.pos reader]?=some w∧bytes=w.bytes

/-- A write that fails finds the write head where it was when it was entered,
and no entry a reader has yet to read starts after the new write head, but
less than the length of the write after the offset of the reader. -/
def Steady (size : ℕ) (c : Session) : Op → Prop
  | .write writer _ segs => payloadLen segs≠0 →
    (c.entered writer=some c.log.wOff∨userFails size (payloadLen segs) segs 0
      (loggerOffset size (c.log.wOff+HEADER_LEN))=false)∧
    ∀ reader off,c.log.readers reader=some off →
      clockInterval c.log.wOff
        (loggerOffset size (c.log.wOff+(HEADER_LEN+payloadLen segs))) off=true →
      ∀ n,entryStart size c.log off n<HEADER_LEN+payloadLen segs →
        (off+size-c.log.wOff)%size+entryStart size c.log off n≤HEADER_LEN+payloadLen segs
  | _ => True

/-- What every operation keeps. -/
structure Inv (size : ℕ) (c : Session) : Prop where
  proper : ∀ w∈c.hist,Proper w
  offs : ∀ i w,c.hist[i]?=some w → w.off=position c.hist i%size
  wOff : c.log.wOff=(stream c.hist).length%size
  head : At size c.hist c.log.buffer c.headPos c.log.head
  readers : ∀ reader off,c.log.readers reader=some off →
    At size c.hist c.log.buffer (c.pos reader) off
  followed : ∀ reader off,c.log.readers reader=some off → Followed c reader

theorem stream_split (ws : List Written) (p : ℕ) :
    stream ws=stream (ws.take p)++stream (ws.drop p) := by
  rw [←stream_append,List.take_append_drop]

theorem At.unread (h : At size ws log.buffer p off) (hw : log.wOff=(stream ws).length%size) :
    Unread size log off (ws.drop p) := by
  have hs := stream_split ws p
  have hlen : (stream ws).length=position ws p+(stream (ws.drop p)).length := by
    conv_lhs => rw [hs,List.length_append]
    rfl
  have hnear := h.near
  refine ⟨by omega,?_,fun i hi => ?_⟩
  · rw [hw,h.off,Nat.mod_add_mod,←hlen]
  · rw [h.off,Nat.mod_add_mod]
    have hb := h.bytes (position ws p+i) (Nat.le_add_right _ _) (by omega)
    rw [hb]
    have hget : (stream ws)[position ws p+i]?=(stream (ws.drop p))[i]? := by
      conv_lhs => rw [hs]
      unfold position
      rw [List.getElem?_append_right (Nat.le_add_right _ _),Nat.add_sub_cancel_left]
    rw [List.getElem?_eq_getElem (by omega),List.getElem?_eq_getElem hi] at hget
    exact Option.some.inj hget

/-- The two copies of a read get the bytes of the entry. -/
theorem copied_eq (hbig : LOGGER_ENTRY_MAX_LEN<size) (h : At size ws log.buffer p off)
    (hw : ws[p]?=some w) (proper : Proper w) :
    copied log off (min w.bytes.length (size-off))++
      copied log 0 (w.bytes.length-min w.bytes.length (size-off))=w.bytes := by
  have hle := proper.le
  have hpos : 0<size := by omega
  have hlt := Nat.mod_lt (position ws p) hpos
  have hoff := h.off
  have hlen : ∀ o n,(copied log o n).length=n := fun o n => by
    unfold copied
    rw [List.length_map,List.length_range]
  apply List.ext_getElem
  · rw [List.length_append,hlen,hlen]
    omega
  · intro i hi hi'
    have hcases := mod_add_cases (W := position ws p) hpos (show i≤ size by omega)
    rw [←h.get hw hi']
    by_cases hfirst : i< min w.bytes.length (size-off)
    · rw [List.getElem_append_left (by rw [hlen]; exact hfirst)]
      unfold copied
      rw [List.getElem_map,List.getElem_range]
      congr 1
      omega
    · rw [List.getElem_append_right (by rw [hlen]; exact not_lt.mp hfirst)]
      unfold copied
      rw [List.getElem_map,List.getElem_range]
      congr 1
      rw [List.length_map,List.length_range]
      omega

/-- A read that succeeds returns the entry at the offset, and moves on to the next one. -/
theorem loggerRead_ok (hsize : ∃ k,size=2^k) (hbig : LOGGER_ENTRY_MAX_LEN<size)
    (proper : ∀ w∈ws,Proper w) {log log' : Log} {reader off count : ℕ} {fault₁ fault₂ : Bool}
    {bytes : List UInt8} (h : At size ws log.buffer p off)
    (hw : log.wOff=(stream ws).length%size)
    (ok : loggerRead size log reader off count fault₁ fault₂=.ok (bytes,log')) :
    ∃ w,ws[p]?=some w∧bytes=w.bytes∧log'={ log with
      readers := update log.readers reader (some ((off+w.bytes.length)%size)) } := by
  unfold loggerRead at ok
  split at ok
  · cases ok
  next hne =>
  have hlt : p<ws.length := by
    by_contra hge
    have heq : p=ws.length := le_antisymm h.le (not_lt.mp hge)
    refine hne ?_
    rw [hw,h.off,heq,position_length]
  have hp : ws[p]?=some ws[p] := List.getElem?_eq_getElem hlt
  have hproper := proper _ (List.getElem_mem hlt)
  dsimp only at ok
  rw [getEntryLen_at hbig h hp hproper] at ok
  split at ok
  · cases ok
  unfold doReadLogToUser at ok
  dsimp only at ok
  rw [copied_eq hbig h hp hproper] at ok
  split at ok
  · cases ok
  split at ok
  · cases ok
  have ok := Except.ok.inj ok
  refine ⟨ws[p],hp,(congrArg Prod.fst ok).symm,?_⟩
  rw [←loggerOffset_eq hsize]
  exact (congrArg Prod.snd ok).symm

/-! ## Writes -/

/-- The entry a write makes. -/
def newEntry (off : ℕ) (header : LoggerEntry) (segs : List Segment) : Written :=
  ⟨{ header with len := UInt16.ofNat (payloadLen segs) },payloadOf segs,off⟩

theorem payloadLen_le (segs : List Segment) : payloadLen segs≤LOGGER_ENTRY_MAX_PAYLOAD :=
  min_le_right _ _

theorem length_payloadOf (segs : List Segment) : (payloadOf segs).length=payloadLen segs := by
  unfold payloadOf
  rw [List.length_take,List.length_flatMap,min_eq_left]
  exact min_le_left _ _

theorem length_newEntry (off : ℕ) (header : LoggerEntry) (segs : List Segment) :
    (newEntry off header segs).bytes.length=HEADER_LEN+payloadLen segs := by
  rw [Written.length_bytes]
  unfold newEntry
  rw [length_payloadOf]

theorem newEntry_proper (off : ℕ) (header : LoggerEntry) (segs : List Segment) :
    Proper (newEntry off header segs) := by
  have hle := payloadLen_le segs
  have hmax : LOGGER_ENTRY_MAX_PAYLOAD=4076 := rfl
  refine ⟨?_,?_⟩
  · unfold newEntry
    rw [length_payloadOf,UInt16.toNat_ofNat',Nat.mod_eq_of_lt (by omega)]
  · rw [length_newEntry]
    exact Nat.add_le_of_le_sub' (by decide) hle

/-- A write that is not empty: its entry, or some bytes in its place. -/
structure WriteDone (size : ℕ) (ws : List Written) (log : Log) (orig : ℕ) (w : Written)
    (res : ℤ×Log) : Prop where
  head : res.2.head=(fixUp size log w.bytes.length log.head).1
  readers : res.2.readers=fun reader =>
    (log.readers reader).map fun off => (fixUp size log w.bytes.length off).1
  stored : ¬res.1<0 → Wrote size (stream ws).length log.buffer res.2.buffer w.bytes∧
    res.2.wOff=((stream ws).length+w.bytes.length)%size
  failed : res.1<0 → res.2.wOff=orig∧∃ left : List UInt8,left.length≤w.bytes.length∧
    Wrote size (stream ws).length log.buffer res.2.buffer left

theorem loggerAioWrite_spec (hsize : ∃ k,size=2^k) (hbig : LOGGER_ENTRY_MAX_LEN<size)
    (hw : log.wOff=(stream ws).length%size) (orig : ℕ) (header : LoggerEntry) (segs : List Segment)
    (hne : payloadLen segs≠0) :
    WriteDone size ws log orig (newEntry log.wOff header segs)
      (loggerAioWrite size log orig header segs) := by
  have hlen := length_newEntry log.wOff header segs
  have hmax := (newEntry_proper log.wOff header segs).le
  have hhead : ({ header with len := UInt16.ofNat (payloadLen segs) } : LoggerEntry).bytes.length=
      HEADER_LEN := LoggerEntry.length_bytes _
  unfold loggerAioWrite
  rw [if_neg hne,←hlen]
  have ⟨hst,hoff⟩ := doWriteLog_stored hsize
    (fixUpReaders size log (newEntry log.wOff header segs).bytes.length) hw
    ({ header with len := UInt16.ofNat (payloadLen segs) } : LoggerEntry).bytes (by omega)
  have hbytes : (newEntry log.wOff header segs).bytes=
      ({ header with len := UInt16.ofNat (payloadLen segs) } : LoggerEntry).bytes++
        (segs.flatMap fun seg => seg.data).take (payloadLen segs-0) := rfl
  have htake : ((segs.flatMap fun seg => seg.data).take (payloadLen segs-0)).length=
      payloadLen segs := length_payloadOf segs
  rcases segmentLoop_spec hsize (payloadLen segs) orig segs 0 _ _ hoff (Nat.zero_le _)
      (by omega) with ⟨hst',hpos,hoff'⟩|⟨left,hleft,hst',hneg,hoff'⟩
  · have hall := hst.append hst' (by omega)
    refine ⟨hall.head,hall.readers,fun _ => ⟨hall.wrote,?_⟩,fun h => absurd h (not_lt.mpr hpos)⟩
    rw [hoff',htake,hlen,hhead,Nat.add_assoc]
  · have hall := hst.append hst' (by omega)
    refine ⟨hall.head,hall.readers,fun h => absurd hneg h,fun _ => ⟨hoff',_,?_,hall.wrote⟩⟩
    rw [List.length_append]
    omega

/-- A write all of whose copies succeed does not fail. -/
theorem loggerAioWrite_of_fails {orig : ℕ} {header : LoggerEntry} {segs : List Segment}
    (hne : payloadLen segs≠0)
    (h : userFails size (payloadLen segs) segs 0 (loggerOffset size (log.wOff+HEADER_LEN))=false) :
    0≤(loggerAioWrite size log orig header segs).1 := by
  unfold loggerAioWrite
  rw [if_neg hne]
  exact segmentLoop_of_fails _ _ _ 0 _ h

/-- After a write, an offset that was moved out of its way is still right. -/
theorem At.stored (h : At size ws buffer p off) {w : Written}
    (room : (stream ws).length+w.bytes.length<position ws p+size)
    (hwr : Wrote size (stream ws).length buffer buffer' w.bytes) :
    At size (ws++[w]) buffer' p off := by
  have hlen : (stream (ws++[w])).length=(stream ws).length+w.bytes.length := by
    simp [stream]
  have hs : stream (ws++[w])=stream ws++w.bytes := by
    simp [stream]
  have hle := h.le
  refine ⟨by rw [List.length_append]; omega,?_,?_,fun q hq hlt => ?_⟩
  · rw [position_append h.le]
    exact h.off
  · rw [hlen,position_append h.le]
    exact room
  · rw [position_append h.le] at hq
    have hget : (stream (ws++[w]))[q]?=(stream ws++w.bytes)[q]? := by rw [hs]
    rw [List.getElem?_eq_getElem hlt] at hget
    by_cases hold : q<(stream ws).length
    · rw [List.getElem?_append_left hold,List.getElem?_eq_getElem hold] at hget
      rw [Option.some.inj hget,hwr.old q hold (by omega)]
      exact h.bytes q hq hold
    · have hj : q-(stream ws).length<w.bytes.length := by omega
      rw [List.getElem?_append_right (not_lt.mp hold),List.getElem?_eq_getElem hj] at hget
      rw [Option.some.inj hget,←hwr.new _ hj,Nat.add_sub_cancel' (not_lt.mp hold)]

theorem At.failed (h : At size ws buffer p off) {len : ℕ} {left : List UInt8}
    (room : (stream ws).length+len<position ws p+size) (hle : left.length≤len)
    (hwr : Wrote size (stream ws).length buffer buffer' left) :
    At size ws buffer' p off :=
  ⟨h.le,h.off,h.near,fun q hq hlt => (hwr.old q hlt (by omega)).trans (h.bytes q hq hlt)⟩

/-! ## Runs -/

/-- A reader that is moved past entries which were flushed or overtaken. -/
theorem Followed.keep {c c' : Session} {reader : ℕ} (h : Followed c reader)
    (first : c'.first reader=c.first reader) (got : c'.got reader=c.got reader)
    (pos : c.pos reader≤c'.pos reader)
    (hist : ∀ i<c.pos reader,c'.hist[i]?=c.hist[i]?)
    (old : ∀ i<c.pos reader,i<c.flushed∨i∈c.overtaken → i<c'.flushed∨i∈c'.overtaken)
    (new : ∀ i,c.pos reader≤ i → i<c'.pos reader → i<c'.flushed∨i∈c'.overtaken) :
    Followed c' reader := by
  have ⟨hstart,idx,hsorted,hin,hgot,hmissed⟩ := h
  refine ⟨first▸hstart.trans pos,idx,hsorted,fun i hi => ?_,?_,fun i h1 h2 hnot => ?_⟩
  · rw [first]
    exact ⟨(hin i hi).1,(hin i hi).2.trans_le pos⟩
  · rw [got,←hgot]
    refine List.map_congr_left fun i hi => ?_
    rw [hist i (hin i hi).2]
  · rw [first] at h1
    by_cases hi : i<c.pos reader
    · exact old i hi (hmissed i h1 hi hnot)
    · exact new i (not_lt.mp hi) h2

/-- A reader that gets the next entry. -/
theorem Followed.read {c c' : Session} {reader : ℕ} {w : Written} (h : Followed c reader)
    (hw : c.hist[c.pos reader]?=some w) (first : c'.first reader=c.first reader)
    (got : c'.got reader=c.got reader++[w.bytes])
    (pos : c'.pos reader=c.pos reader+1) (hist : c'.hist=c.hist) (flushed : c'.flushed=c.flushed)
    (overtaken : c'.overtaken=c.overtaken) : Followed c' reader := by
  have ⟨start,idx,hsorted,hin,hgot,hmissed⟩ := h
  refine ⟨?_,idx++[c.pos reader],?_,fun i hi => ?_,?_,fun i h1 h2 hnot => ?_⟩
  · rw [first,pos]
    exact start.trans (Nat.le_succ _)
  · refine List.pairwise_append.mpr ⟨hsorted,List.pairwise_singleton _ _,fun i hi j hj => ?_⟩
    rw [List.mem_singleton.mp hj]
    exact (hin i hi).2
  · rw [first,pos]
    rcases List.mem_append.mp hi with hi|hi
    · exact ⟨(hin i hi).1,(hin i hi).2.trans (Nat.lt_succ_self _)⟩
    · rw [List.mem_singleton.mp hi]
      exact ⟨start,Nat.lt_succ_self _⟩
  · rw [hist,got,List.map_append,List.map_append,hgot]
    congr 1
    rw [List.map_singleton,hw]
    rfl
  · rw [first] at h1
    rw [List.mem_append,List.mem_singleton,not_or] at hnot
    rw [flushed,overtaken]
    exact hmissed i h1 (by omega) hnot.1

theorem At.write_head (hpos : 0<size) (hw : log.wOff=(stream ws).length%size) :
    At size ws log.buffer ws.length log.wOff := by
  refine ⟨le_rfl,?_,?_,fun q hq hlt => ?_⟩
  · rw [position_length]
    exact hw
  · rw [position_length]
    omega
  · rw [position_length] at hq
    omega

/-- The entries a reader is moved past are overtaken, where the condition holds. -/
theorem crossed_of_steady (hsize : ∃ k,size=2^k) (hbig : LOGGER_ENTRY_MAX_LEN<size) {c : Session}
    (h : Inv size c) {len : ℕ} (hmax : len≤LOGGER_ENTRY_MAX_LEN) {p off : ℕ}
    (hat : At size c.hist c.log.buffer p off) {res : ℕ×ℕ}
    (moved : Moved size len c.hist c.log p off res)
    (steady : clockInterval c.log.wOff (loggerOffset size (c.log.wOff+len)) off=true →
      ∀ n,entryStart size c.log off n<len →
        (off+size-c.log.wOff)%size+entryStart size c.log off n≤len) :
    ∀ i,p≤ i → i<p+res.2 → i∈crossed size c len := by
  intro i hi hi'
  have ⟨hnear,hcross⟩ := moved.near i hi hi'
  have hle := moved.hat.le
  have hlt : i<c.hist.length := by omega
  have hpi : p+(i-p)=i := by omega
  have ⟨hstart,_⟩ := entryStart_eq hbig h.proper hat (i-p) (by omega)
  rw [hpi] at hstart
  have hst := steady hcross (i-p) (by omega)
  have hnew : loggerOffset size (c.log.wOff+len)=((stream c.hist).length+len)%size := by
    rw [loggerOffset_eq hsize,h.wOff,Nat.mod_add_mod]
  have hpl := position_le c.hist p
  have hcross' := hcross
  rw [hnew,h.wOff,hat.off,clockInterval_iff hpl hat.near (by omega)] at hcross'
  have hn := hat.near
  -- The distance of the reader from the write head.
  have hdist : (off+size-c.log.wOff)%size=position c.hist p+size-(stream c.hist).length := by
    have hd := mod_add_cases (W := position c.hist p) (show 0<size by omega)
      (show (stream c.hist).length-position c.hist p≤ size by omega)
    have hr := Nat.mod_lt (position c.hist p) (show 0<size by omega)
    rw [Nat.add_sub_cancel' hpl,←hat.off,←h.wOff] at hd
    rcases hd with ⟨h1,h2⟩|⟨h1,h2⟩
    · rw [Nat.mod_eq_of_lt (by omega)]
      omega
    · rw [Nat.mod_eq_sub_mod (by omega),Nat.mod_eq_of_lt (by omega)]
      omega
  have hil := position_le c.hist i
  refine Finset.mem_filter.mpr ⟨Finset.mem_range.mpr hlt,c.hist[i],?_,?_⟩
  · exact List.getElem?_eq_getElem hlt
  · rw [h.offs i _ (List.getElem?_eq_getElem hlt),hnew,h.wOff,
      clockInterval_iff hil (by omega) (by omega)]
    omega

theorem start_inv (hpos : 0<size) : Inv size Session.start := by
  have hnear : 0<0+size := by omega
  refine ⟨?_,?_,rfl,⟨le_rfl,rfl,hnear,fun q _ hlt => absurd hlt (Nat.not_lt_zero q)⟩,?_,?_⟩
  · intro w hw
    cases hw
  · intro i w hw
    cases hw
  · intro reader off hr
    cases hr
  · intro reader off hr
    cases hr

/-- The log after a write, for the readers and the start head. -/
theorem write_inv (hsize : ∃ k,size=2^k) (hbig : LOGGER_ENTRY_MAX_LEN<size) {c : Session}
    (h : Inv size c) {writer orig : ℕ} {header : LoggerEntry} {segs : List Segment}
    (steady : Steady size c (.write writer header segs)) (hent : c.entered writer=some orig)
    (hne : payloadLen segs≠0) {c' : Session}
    (hs : step size c (.write writer header segs)=some c') : Inv size c' := by
  have ⟨hfail,hgap⟩ := steady hne
  have hlen := length_newEntry c.log.wOff header segs
  have hproper := newEntry_proper c.log.wOff header segs
  have hmax := hproper.le
  have hpos : 0<(newEntry c.log.wOff header segs).bytes.length := by
    omega
  have hdone := loggerAioWrite_spec hsize hbig h.wOff orig header segs hne
  have hhead := fixUp_moved hsize hbig h.proper h.wOff h.head hpos hmax
  have hreaders : ∀ k off,c.log.readers k=some off → Moved size
      (newEntry c.log.wOff header segs).bytes.length c.hist c.log (c.pos k) off
      (fixUp size c.log (newEntry c.log.wOff header segs).bytes.length off) := fun k off hk =>
    fixUp_moved hsize hbig h.proper h.wOff (h.readers k off hk) hpos hmax
  rw [←hlen] at hgap
  have hcross : ∀ k off,c.log.readers k=some off → ∀ i,c.pos k≤ i →
      i<c.pos k+(fixUp size c.log (newEntry c.log.wOff header segs).bytes.length off).2 →
      i∈crossed size c (newEntry c.log.wOff header segs).bytes.length := fun k off hk =>
    crossed_of_steady hsize hbig h hmax (h.readers k off hk) (hreaders k off hk) (hgap k off hk)
  unfold step at hs
  dsimp only at hs
  rw [hent] at hs
  dsimp only at hs
  rw [if_neg hne,←hlen] at hs
  generalize hres : loggerAioWrite size c.log orig header segs=res at hdone hs
  have hwhere : ∀ k off,res.2.readers k=some off → ∃ old,c.log.readers k=some old∧
      off=(fixUp size c.log (newEntry c.log.wOff header segs).bytes.length old).1 := by
    intro k off hk
    rw [hdone.readers] at hk
    have ⟨old,hold,heq⟩ := Option.map_eq_some_iff.mp hk
    exact ⟨old,hold,heq.symm⟩
  have hkeep : ∀ {c' : Session} k off,c.log.readers k=some off →
      c'.first k=c.first k → c'.got k=c.got k →
      c'.pos k=c.pos k+(fixUp size c.log (newEntry c.log.wOff header segs).bytes.length off).2 →
      (∀ i<c.hist.length,c'.hist[i]?=c.hist[i]?) → c'.flushed=c.flushed →
      c'.overtaken=c.overtaken∪crossed size c (newEntry c.log.wOff header segs).bytes.length →
      Followed c' k := by
    intro c' k off hk hfirst hgot hp hhist hflushed hovertaken
    have hle := (h.readers k off hk).le
    refine (h.followed k off hk).keep hfirst hgot (by omega) (fun i hi => hhist i (by omega)) ?_ ?_
    · intro i _ hi
      rw [hflushed,hovertaken]
      exact hi.imp_right fun hi => Finset.mem_union_left _ hi
    · intro i h1 h2
      rw [hovertaken]
      rw [hp] at h2
      exact .inr (Finset.mem_union_right _ (hcross k off hk i h1 h2))
  by_cases hneg : res.1<0
  · rw [if_pos hneg] at hs
    have hs := Option.some.inj hs
    have ⟨hback,left,hleft,hwrote⟩ := hdone.failed hneg
    -- The write head was not moved since the writer was entered.
    have horig : orig=c.log.wOff := by
      rcases hfail with hfail|hfail
      · rw [hent] at hfail
        exact Option.some.inj hfail
      · have hok : 0≤(loggerAioWrite size c.log orig header segs).1 :=
          loggerAioWrite_of_fails hne hfail
        rw [hres] at hok
        omega
    subst hs
    refine ⟨h.proper,h.offs,?_,?_,fun k off hk => ?_,fun k off hk => ?_⟩
    · exact (hback.trans horig).trans h.wOff
    · rw [hdone.head]
      exact hhead.hat.failed hhead.room hleft hwrote
    · have ⟨old,hold,heq⟩ := hwhere k off hk
      have hmoved := hreaders k old hold
      dsimp only
      rw [hold,heq]
      exact hmoved.hat.failed hmoved.room hleft hwrote
    · have ⟨old,hold,_⟩ := hwhere k off hk
      refine hkeep k old hold rfl rfl ?_ (fun _ _ => rfl) rfl rfl
      dsimp only
      rw [hold]
  · rw [if_neg hneg] at hs
    have hs := Option.some.inj hs
    have ⟨hwrote,hoff⟩ := hdone.stored hneg
    subst hs
    refine ⟨fun w hw => ?_,fun i w hw => ?_,?_,?_,fun k off hk => ?_,fun k off hk => ?_⟩
    · rcases List.mem_append.mp hw with hw|hw
      · exact h.proper w hw
      · rw [List.mem_singleton.mp hw]
        exact hproper
    · by_cases hi : i<c.hist.length
      · rw [List.getElem?_append_left hi] at hw
        rw [position_append hi.le]
        exact h.offs i w hw
      · rw [List.getElem?_append_right (not_lt.mp hi)] at hw
        have ⟨hz,heq⟩ := List.getElem?_eq_some_iff.mp hw
        rw [List.length_singleton] at hz
        have hil : i=c.hist.length := by omega
        rw [hil,position_append le_rfl,position_length,←h.wOff,←heq]
        simp
    · rw [hoff,stream_append,List.length_append]
      simp [stream,newEntry]
    · rw [hdone.head]
      exact hhead.hat.stored hhead.room hwrote
    · have ⟨old,hold,heq⟩ := hwhere k off hk
      have hmoved := hreaders k old hold
      dsimp only
      rw [hold,heq]
      exact hmoved.hat.stored hmoved.room hwrote
    · have ⟨old,hold,_⟩ := hwhere k off hk
      refine hkeep k old hold rfl rfl ?_ (fun i hi => List.getElem?_append_left hi) rfl rfl
      dsimp only
      rw [hold]

theorem step_inv (hsize : ∃ k,size=2^k) (hbig : LOGGER_ENTRY_MAX_LEN<size) {c c' : Session}
    {op : Op} (h : Inv size c) (steady : Steady size c op) (hs : step size c op=some c') :
    Inv size c' := by
  have hpos : 0<size := by omega
  cases op with
  | openReader reader =>
    unfold step at hs
    dsimp only at hs
    split at hs
    case isFalse => cases hs
    have hs := Option.some.inj hs
    subst hs
    refine ⟨h.proper,h.offs,h.wOff,h.head,fun k off hk => ?_,fun k off hk => ?_⟩
    · dsimp only [loggerOpen] at hk ⊢
      by_cases hkr : k=reader
      · rw [hkr,update_self] at hk
        rw [hkr,update_self,←Option.some.inj hk]
        exact h.head
      · rw [update_of_ne hkr] at hk ⊢
        exact h.readers k off hk
    · dsimp only [loggerOpen] at hk
      by_cases hkr : k=reader
      · subst hkr
        refine ⟨?_,[],List.Pairwise.nil,fun i hi => absurd hi List.not_mem_nil,?_,?_⟩
        · dsimp only
          rw [update_self,update_self]
        · dsimp only
          rw [update_self]
          rfl
        · intro i h1 h2
          dsimp only at h1 h2
          rw [update_self] at h1 h2
          omega
      · rw [update_of_ne hkr] at hk
        refine (h.followed k off hk).keep ?_ ?_ ?_ (fun _ _ => rfl) (fun _ _ hi => hi) ?_
        · exact update_of_ne hkr _ _
        · exact update_of_ne hkr _ _
        · exact (update_of_ne hkr _ _).ge
        · intro i h1 h2
          dsimp only at h2
          rw [update_of_ne hkr] at h2
          omega
  | release reader =>
    have hs := Option.some.inj hs
    subst hs
    have hold : ∀ k off,(loggerRelease c.log reader).readers k=some off →
        c.log.readers k=some off := by
      intro k off hk
      unfold loggerRelease at hk
      dsimp only at hk
      by_cases hkr : k=reader
      · rw [hkr,update_self] at hk
        cases hk
      · rw [update_of_ne hkr] at hk
        exact hk
    exact ⟨h.proper,h.offs,h.wOff,h.head,fun k off hk => h.readers k off (hold k off hk),
      fun k off hk => h.followed k off (hold k off hk)⟩
  | read reader count fault₁ fault₂ =>
    unfold step at hs
    dsimp only at hs
    cases hr : c.log.readers reader with
    | none =>
      rw [hr] at hs
      cases hs
    | some rOff =>
      rw [hr] at hs
      dsimp only at hs
      cases hread : loggerRead size c.log reader rOff count fault₁ fault₂ with
      | error err =>
        rw [hread] at hs
        rw [←Option.some.inj hs]
        exact h
      | ok res =>
        obtain ⟨bytes,log⟩ := res
        rw [hread] at hs
        have hs := Option.some.inj hs
        have hat := h.readers reader rOff hr
        have ⟨w,hw,hbytes,hlog⟩ := loggerRead_ok hsize hbig h.proper hat h.wOff hread
        subst hbytes hlog hs
        refine ⟨h.proper,h.offs,h.wOff,h.head,fun k off hk => ?_,fun k off hk => ?_⟩
        · dsimp only at hk ⊢
          by_cases hkr : k=reader
          · rw [hkr,update_self] at hk
            rw [hkr,update_self,←Option.some.inj hk]
            exact hat.next hw
          · rw [update_of_ne hkr] at hk ⊢
            exact h.readers k off hk
        · dsimp only at hk
          by_cases hkr : k=reader
          · subst hkr
            exact (h.followed k rOff hr).read hw rfl (update_self _ _ _)
              (update_self _ _ _) rfl rfl rfl
          · rw [update_of_ne hkr] at hk
            refine (h.followed k off hk).keep rfl ?_ ?_ (fun _ _ => rfl) (fun _ _ hi => hi) ?_
            · exact update_of_ne hkr _ _
            · exact (update_of_ne hkr _ _).ge
            · intro i h1 h2
              dsimp only at h2
              rw [update_of_ne hkr] at h2
              omega
  | flush =>
    have hs := Option.some.inj hs
    subst hs
    have hend := At.write_head hpos h.wOff
    have hpos : ∀ k off,(flushLog c.log).readers k=some off →
        ∃ old,c.log.readers k=some old∧off=c.log.wOff := by
      intro k off hk
      have ⟨old,hold,heq⟩ := Option.map_eq_some_iff.mp hk
      exact ⟨old,hold,heq.symm⟩
    refine ⟨h.proper,h.offs,h.wOff,hend,fun k off hk => ?_,fun k off hk => ?_⟩
    · have ⟨old,hold,heq⟩ := hpos k off hk
      dsimp only
      rw [hold,heq,if_pos (Option.isSome_some)]
      exact hend
    · have ⟨old,hold,heq⟩ := hpos k off hk
      have hle := (h.readers k old hold).le
      refine (h.followed k old hold).keep rfl rfl ?_ (fun _ _ => rfl) ?_ ?_
      · dsimp only
        rw [hold,if_pos (Option.isSome_some)]
        exact hle
      · exact fun i hi _ => .inl (hi.trans_le hle)
      · intro i _ h2
        dsimp only at h2
        rw [hold,if_pos (Option.isSome_some)] at h2
        exact .inl h2
  | enter writer =>
    have hs := Option.some.inj hs
    subst hs
    exact ⟨h.proper,h.offs,h.wOff,h.head,h.readers,h.followed⟩
  | write writer header segs =>
    cases hent : c.entered writer with
    | none =>
      unfold step at hs
      dsimp only at hs
      rw [hent] at hs
      cases hs
    | some orig =>
      by_cases hne : payloadLen segs=0
      · unfold step at hs
        dsimp only at hs
        rw [hent] at hs
        dsimp only at hs
        rw [if_pos hne] at hs
        have hs := Option.some.inj hs
        have hlog : (loggerAioWrite size c.log orig header segs).2=c.log := by
          unfold loggerAioWrite
          rw [if_pos hne]
        rw [hlog] at hs
        subst hs
        exact ⟨h.proper,h.offs,h.wOff,h.head,h.readers,h.followed⟩
      · exact write_inv hsize hbig h steady hent hne hs

theorem Inv.sound (hsize : ∃ k,size=2^k) (hbig : LOGGER_ENTRY_MAX_LEN<size) {c : Session}
    (h : Inv size c) : Sound size c := by
  refine ⟨fun w hw => (h.proper w hw).len,h.followed,?_,?_,?_⟩
  · exact fun k off hk => ⟨(h.readers k off hk).le,(h.readers k off hk).unread h.wOff⟩
  · exact ⟨h.head.le,h.head.unread h.wOff⟩
  · intro k off count fault₁ fault₂ bytes log hk ok
    have ⟨w,hw,hbytes,_⟩ := loggerRead_ok hsize hbig h.proper (h.readers k off hk) h.wOff ok
    exact ⟨w,hw,hbytes⟩

/-- Readers get the entries that were written, whole and in order, and miss
only what was flushed or overtaken. -/
theorem run_sound (hsize : ∃ k,size=2^k) (hbig : LOGGER_ENTRY_MAX_LEN<size) {ops : List Op}
    {c : Session} (h : Run (step size) (Steady size) Session.start ops c) : Sound size c :=
  (h.invariant (Inv size) (start_inv (by omega))
    (fun hinv steady hs => step_inv hsize hbig hinv steady hs)).sound hsize hbig

/-- An entry without fields. -/
def blank : LoggerEntry := ⟨0,0,0,0,0,0⟩

/-- A reader gets the entry of a write. -/
theorem run_sound_example : ∃ c,Run (step 8192) (Steady 8192) Session.start
    [.openReader 0,.enter 1,.write 1 blank [⟨[65],none,none⟩],.read 0 21 false false] c∧
      (c.got 0).length=1∧Sound 8192 c := by
  have ⟨c,hc,hgot⟩ : ∃ c,Run (step 8192) (Steady 8192) Session.start
      [.openReader 0,.enter 1,.write 1 blank [⟨[65],none,none⟩],.read 0 21 false false] c∧
        (c.got 0).length=1 := by
    refine ⟨_,Run.cons trivial rfl (Run.cons trivial rfl (Run.cons ?_ rfl (Run.cons trivial rfl
      (Run.nil _)))),by decide +kernel⟩
    refine fun _ => ⟨.inl rfl,fun reader off hr hcross => ?_⟩
    by_cases hk : reader=0
    · have hoff : off=0 := by
        rw [hk] at hr
        exact (Option.some.inj hr).symm
      rw [hoff] at hcross
      cases hcross
    · have hr : update (fun _ => none) 0 (some 0) reader=some off := hr
      rw [update_of_ne hk] at hr
      cases hr
  exact ⟨c,hc,hgot,run_sound ⟨13,rfl⟩ (by decide) hc⟩

/-- A write that fails takes the write head back to where it was when it was
entered, over the entry of another writer. -/
theorem run_lost : ¬∀ ops c,Run (step 8192) (fun _ _ => True) Session.start ops c →
    Sound 8192 c := by
  intro h
  have ⟨c,hc,hp⟩ := exists_run (step 8192) (fun _ _ => true) Session.start
    [.openReader 0,.enter 1,.enter 2,.write 2 blank [⟨[65],none,none⟩],
      .write 1 blank [⟨[66],some fun _ => 0,none⟩]]
    (fun c => decide (c.log.readers 0=some 0∧c.pos 0=0∧c.log.wOff=0∧
      (stream (c.hist.drop 0)).length=21)) (by decide +kernel)
  have ⟨hr,hpos,hoff,hlen⟩ := of_decide_eq_true hp
  have ⟨_,_,hend,_⟩ := (h _ c (hc.mono fun _ _ _ => trivial)).unread 0 0 hr
  rw [hpos,hoff,hlen] at hend
  cases hend

end ArdroneKernel.Logger
