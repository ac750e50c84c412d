import ArdroneKernel.RamConsole
import Mathlib.Data.List.GetD

/-!
# The log of the RAM console

The ring buffer holds the last bytes that were written. With error correction
each block with such bytes, and the header, agree with their parities after
every write, so that the following boot finds no errors.
-/

namespace ArdroneKernel.RamConsole

open ByteBuffers Function

variable {c : Console} {e : Ecc} {b : Buffer} {data s log : List UInt8} {start size n : ℕ}
  {b : Buffer} {b : Buffer}

/-! ## The ring -/

/-- Bytes that fit before the end. -/
theorem oldLog_put (hdata : data.length=n) (hstart : start≤ size) (hsize : size≤ n)
    (hopen : size<n → start=size) (hfit : start+s.length≤ n) :
    oldLog (start+s.length) (if size<n then size+s.length else size) (putAt data start s)=
      lastOf n (oldLog start size data++s) := by
  have htake := putAt_take s (show start≤ data.length by omega)
  have hdrop := putAt_drop (k := start+s.length) s (show start≤ data.length by omega) le_rfl
  unfold oldLog
  rw [htake,hdrop]
  by_cases hlt : size<n
  · rw [if_pos hlt,hopen hlt,Nat.sub_self,Nat.sub_self,List.take_zero,List.take_zero,
      List.nil_append,List.nil_append,lastOf_of_le]
    rw [List.length_append,List.length_take]
    omega
  · have hfull : size=n := by omega
    have hrest : (data.drop start).take (n-start)=data.drop start :=
      List.take_of_length_le (by rw [List.length_drop]; omega)
    have hrest' : (data.drop (start+s.length)).take (n-(start+s.length))=
        data.drop (start+s.length) :=
      List.take_of_length_le (by rw [List.length_drop]; omega)
    rw [if_neg hlt,hfull,hrest,hrest']
    unfold lastOf
    have hlen : (data.drop start++data.take start++s).length-n=s.length := by
      rw [List.length_append,List.length_append,List.length_drop,List.length_take]
      omega
    rw [hlen,List.append_assoc (data.drop start),List.drop_append,List.drop_drop,
      List.length_drop,Nat.sub_eq_zero_of_le (show s.length≤ data.length-start by omega),
      List.drop_zero]

/-- Bytes that go on at the start. -/
theorem oldLog_wrap (hdata : data.length=n) (hstart : start≤ size) (hsize : size≤ n)
    (hopen : size<n → start=size) (hwrap : n-start<s.length) (hle : s.length≤ n) :
    oldLog (s.drop (n-start)).length n
        (putAt (putAt data start (s.take (n-start))) 0 (s.drop (n-start)))=
      lastOf n (oldLog start size data++s) := by
  have hfirst : (s.take (n-start)).length=n-start := by
    rw [List.length_take]
    omega
  have hsecond : (s.drop (n-start)).length=s.length-(n-start) := List.length_drop
  have hdata1 : putAt data start (s.take (n-start))=data.take start++s.take (n-start) := by
    unfold putAt
    rw [hfirst,List.drop_of_length_le (by omega),List.append_nil]
  have hlen1 : (data.take start++s.take (n-start)).length=n := by
    rw [List.length_append,hfirst,List.length_take]
    omega
  rw [hdata1]
  generalize hd1 : data.take start++s.take (n-start)=data1 at hlen1
  have htake := putAt_take (s.drop (n-start)) (Nat.zero_le data1.length)
  have hdrop := putAt_drop (k := (s.drop (n-start)).length) (s.drop (n-start))
    (Nat.zero_le data1.length) (by omega)
  rw [Nat.zero_add,List.take_zero,List.nil_append] at htake
  have hold : oldLog (s.drop (n-start)).length n (putAt data1 0 (s.drop (n-start)))=
      data1.drop (s.length-(n-start))++s.drop (n-start) := by
    unfold oldLog
    rw [htake,hdrop,hsecond,List.take_of_length_le (by rw [List.length_drop]; omega)]
  have hall : data.take start++s=data1++s.drop (n-start) := by
    rw [←hd1,List.append_assoc,List.take_append_drop]
  rw [hold]
  unfold oldLog lastOf
  by_cases hlt : size<n
  · have hlen : (data.take start++s).length-n=s.length-(n-start) := by
      rw [List.length_append,List.length_take]
      omega
    rw [hopen hlt,Nat.sub_self,List.take_zero,List.nil_append,←hopen hlt,hlen,hall,List.drop_append,
      hlen1,Nat.sub_eq_zero_of_le (show s.length-(n-start)≤ n by omega),List.drop_zero]
  · have hfull : size=n := by omega
    have hrest : (data.drop start).take (n-start)=data.drop start :=
      List.take_of_length_le (by rw [List.length_drop]; omega)
    have hlen : (data.drop start++data.take start++s).length-n=
        (data.drop start).length+(s.length-(n-start)) := by
      rw [List.length_append,List.length_append,List.length_drop,List.length_take]
      omega
    rw [hfull,hrest,hlen,List.append_assoc,List.drop_length_add_append,hall,List.drop_append,hlen1,
      Nat.sub_eq_zero_of_le (show s.length-(n-start)≤ n by omega),List.drop_zero]

/-! ## Writes -/

/-- What is held of a log. -/
structure Held (c : Console) (log : List UInt8) (b : Buffer) : Prop where
  sig : b.sig=RAM_CONSOLE_SIG
  data : b.data.length=c.size
  start_le : b.start≤ b.size
  size_le : b.size≤ c.size
  /-- Before the buffer is full, the log starts with it. -/
  starts : b.size<c.size → b.start=b.size
  log : oldLog b.start b.size b.data=lastOf c.size log

/-- Replacing the bytes leaves the header. -/
theorem update_fields (c : Console) (b : Buffer) (s : List UInt8) :
    (ramConsoleUpdate c b s).data=putAt b.data b.start s∧
      (ramConsoleUpdate c b s).sig=b.sig∧(ramConsoleUpdate c b s).start=b.start∧
      (ramConsoleUpdate c b s).size=b.size := by
  unfold ramConsoleUpdate
  cases c.ecc <;> exact ⟨rfl,rfl,rfl,rfl⟩

/-- The last piece moves the cursors. -/
theorem writeLast_fields (c : Console) (b : Buffer) (s : List UInt8) :
    (writeLast c b s).data=putAt b.data b.start s∧(writeLast c b s).sig=b.sig∧
      (writeLast c b s).start=b.start+s.length∧
      (writeLast c b s).size=if b.size<c.size then b.size+s.length else b.size := by
  have ⟨hd,hsig,hst,hsz⟩ := update_fields c b s
  unfold writeLast ramConsoleUpdateHeader
  dsimp only
  rw [hsig,hst,hsz]
  cases c.ecc <;> exact ⟨hd,rfl,rfl,rfl⟩

/-- The bytes of a write that the buffer can hold. -/
theorem write_clip (n : ℕ) (s : List UInt8) :
    (if s.length>n then s.drop (s.length-n) else s)=lastOf n s := by
  by_cases h : s.length>n
  · rw [if_pos h]
    rfl
  · rw [if_neg h,lastOf_of_le (not_lt.mp h)]

theorem Held.write (h : Held c log b) (s : List UInt8) :
    Held c (log++s) (ramConsoleWrite c b s) := by
  have hlen := lastOf_length c.size s
  unfold ramConsoleWrite
  rw [write_clip]
  have hlog : lastOf c.size (log++s)=
      lastOf c.size (oldLog b.start b.size b.data++lastOf c.size s) := by
    rw [lastOf_append,h.log]
  generalize lastOf c.size s=s' at hlen hlog ⊢
  have hstart := h.start_le
  have hsize := h.size_le
  have hstarts := h.starts
  by_cases hwrap : c.size-b.start<s'.length
  · rw [if_pos hwrap]
    have ⟨hd,hsig,_,_⟩ := update_fields c b (s'.take (c.size-b.start))
    have ⟨f1,f2,f3,f4⟩ := writeLast_fields c { ramConsoleUpdate c b (s'.take (c.size-b.start)) with
      start := 0, size := c.size } (s'.drop (c.size-b.start))
    replace f1 := f1.trans (congrArg (fun d => putAt d 0 (s'.drop (c.size-b.start))) hd)
    rw [Nat.zero_add] at f3
    rw [if_neg (lt_irrefl _)] at f4
    have hrest : (s'.drop (c.size-b.start)).length≤ c.size := by
      rw [List.length_drop]
      omega
    refine ⟨f2.trans (hsig.trans h.sig),?_,?_,?_,?_,?_⟩
    · have hput1 : (putAt b.data b.start (s'.take (c.size-b.start))).length=c.size := by
        rw [putAt_length,h.data]
        rw [List.length_take,h.data]
        omega
      rw [f1,putAt_length,hput1]
      rw [hput1,Nat.zero_add]
      exact hrest
    · rw [f3,f4]
      exact hrest
    · rw [f4]
    · rw [f4]
      exact fun hlt => absurd hlt (lt_irrefl _)
    · rw [f1,f3,f4,hlog]
      exact oldLog_wrap h.data hstart hsize hstarts hwrap (by omega)
  · rw [if_neg hwrap]
    have ⟨f1,f2,f3,f4⟩ := writeLast_fields c b s'
    refine ⟨f2.trans h.sig,?_,?_,?_,?_,?_⟩
    · rw [f1,putAt_length,h.data]
      rw [h.data]
      omega
    · rw [f3,f4]
      split <;> omega
    · rw [f4]
      split <;> omega
    · rw [f3,f4]
      intro hlt
      by_cases hfull : b.size<c.size
      · rw [if_pos hfull,hstarts hfull]
      · rw [if_neg hfull] at hlt
        exact absurd hlt hfull
    · rw [f1,f3,f4,hlog]
      exact oldLog_put h.data hstart hsize hstarts (by omega)

theorem Held.writes (ss : List (List UInt8)) : ∀ {log : List UInt8} {b : Buffer},Held c log b →
    Held c (log++ss.flatten) (writes c b ss) := by
  induction ss with
  | nil =>
    intro log b h
    rw [List.flatten_nil,List.append_nil]
    exact h
  | cons s ss ih =>
    intro log b h
    rw [List.flatten_cons,←List.append_assoc]
    exact ih (h.write s)

/-! ## Parities -/

theorem blockSize_pos (e : Ecc) : 0<e.blockSize := by
  have ⟨k,hk⟩ := e.blockSize_pow
  rw [hk]
  exact Nat.two_pow_pos k

/-- A block of the data; the last one may be short. -/
def blockAt (e : Ecc) (data : List UInt8) (j : ℕ) : List UInt8 :=
  (data.drop (j*e.blockSize)).take e.blockSize

/-- The blocks with the first bytes of the data agree with their parities. -/
def BlocksRight (e : Ecc) (data : List UInt8) (par : ℕ → List UInt8) (n : ℕ) : Prop :=
  ∀ j,j*e.blockSize<n → par j=e.encode (blockAt e data j)

/-- The blocks with bytes of the log, and the header, agree with their parities. -/
structure Coded (c : Console) (e : Ecc) (b : Buffer) : Prop where
  blocks : BlocksRight e b.data b.par b.size
  header : b.par (headerSlot c.size e)=e.encode b.header

/-- The size of the last block is no more than what is there. -/
theorem take_last (e : Ecc) (data : List UInt8) (j : ℕ) :
    (data.drop (j*e.blockSize)).take (if j*e.blockSize+e.blockSize>data.length then
      data.length-j*e.blockSize else e.blockSize)=blockAt e data j := by
  unfold blockAt
  split
  · rw [List.take_of_length_le (by rw [List.length_drop]),
      List.take_of_length_le (by rw [List.length_drop]; omega)]
  · rfl

/-- Which parities the loop computes. -/
theorem encodeBlocks_spec (e : Ecc) (data : List UInt8) (stop : ℕ) (hstop : stop≤ data.length)
    (n : ℕ) : ∀ (j : ℕ) (par : ℕ → List UInt8),0<n → stop≤(j+n)*e.blockSize → ∀ k,
      encodeBlocks e data data.length stop n (j*e.blockSize) j e.blockSize par k=
        if k=j∨j<k∧k*e.blockSize<stop then e.encode (blockAt e data k) else par k := by
  induction n with
  | zero =>
    intro _ _ hn
    exact absurd hn (lt_irrefl 0)
  | succ n ih =>
    intro j par _ hfuel k
    have hnext : j*e.blockSize+e.blockSize=(j+1)*e.blockSize := (Nat.succ_mul _ _).symm
    unfold encodeBlocks
    dsimp only
    rw [take_last]
    by_cases hmore : j*e.blockSize+e.blockSize<stop
    · have hn : 0<n := by
        by_contra hz
        rw [Nat.eq_zero_of_not_pos hz,Nat.zero_add,←hnext] at hfuel
        omega
      rw [if_pos hmore,if_neg (by omega),hnext,ih (j+1) _ hn (by rw [Nat.add_right_comm]; exact hfuel)]
      rw [hnext] at hmore
      by_cases hk : k=j
      · rw [if_neg (by omega),hk,update_self,if_pos (Or.inl rfl)]
      · rw [update_of_ne hk]
        by_cases hk1 : k=j+1
        · rw [if_pos (Or.inl hk1),if_pos (Or.inr ⟨by omega,hk1▸hmore⟩)]
        · have hiff : k=j+1∨j+1<k∧k*e.blockSize<stop ↔ k=j∨j<k∧k*e.blockSize<stop := by omega
          simp only [hiff]
    · rw [if_neg hmore]
      have hbeyond : j<k → ¬k*e.blockSize<stop := by
        intro hjk hlt
        have := Nat.mul_le_mul_right e.blockSize hjk
        rw [Nat.succ_mul] at this
        omega
      by_cases hk : k=j
      · rw [hk,update_self,if_pos (Or.inl rfl)]
      · rw [update_of_ne hk,if_neg]
        rintro (heq|⟨hjk,hlt⟩)
        · exact hk heq
        · exact hbeyond hjk hlt

/-- A piece that is written has the parities of its blocks computed. -/
theorem update_blocks (hecc : c.ecc=some e) (hdata : b.data.length=c.size)
    (h : BlocksRight e b.data b.par n) (hstart : b.start≤ n) (hfit : b.start+s.length≤ c.size) :
    BlocksRight e (ramConsoleUpdate c b s).data (ramConsoleUpdate c b s).par
      (max n (b.start+s.length)) := by
  have hpos := blockSize_pos e
  have hput : (putAt b.data b.start s).length=c.size := by
    rw [putAt_length,hdata]
    rw [hdata]
    exact hfit
  have hfloor := Nat.div_mul_le_self b.start e.blockSize
  have hceil := Nat.lt_div_mul_add hpos (a := b.start)
  intro j hj
  unfold ramConsoleUpdate
  rw [hecc]
  dsimp only
  have hspec := encodeBlocks_spec e (putAt b.data b.start s) (b.start+s.length) (by omega)
    (s.length+1) (b.start/e.blockSize) b.par (Nat.succ_pos _) (by
      rw [Nat.add_mul]
      have := Nat.le_mul_of_pos_right s.length hpos
      rw [Nat.succ_mul]
      omega) j
  rw [hput] at hspec
  rw [hspec]
  by_cases hin : j=b.start/e.blockSize∨b.start/e.blockSize<j∧j*e.blockSize<b.start+s.length
  · rw [if_pos hin]
  · rw [if_neg hin]
    by_cases hbefore : j<b.start/e.blockSize
    · have hend : j*e.blockSize+e.blockSize≤ b.start := by
        have := Nat.mul_le_mul_right e.blockSize hbefore
        rw [Nat.succ_mul] at this
        omega
      have hsame : blockAt e (putAt b.data b.start s) j=blockAt e b.data j :=
        putAt_slice_before s (by omega) hend
      rw [hsame]
      exact h j (by omega)
    · have hafter : b.start+s.length≤ j*e.blockSize := by omega
      have hsame : blockAt e (putAt b.data b.start s) j=blockAt e b.data j := by
        unfold blockAt
        rw [putAt_drop s (by omega) hafter]
      rw [hsame]
      exact h j (by omega)

/-- The slot of the header is none of a block. -/
theorem block_lt_headerSlot {j : ℕ} (h : j*e.blockSize<n) : j<headerSlot n e := by
  have hpos := blockSize_pos e
  unfold headerSlot divRoundUp
  rw [Nat.lt_iff_add_one_le,Nat.le_div_iff_mul_le hpos,Nat.succ_mul]
  omega

/-- The last piece of a write leaves the parities right. -/
theorem writeLast_coded (hecc : c.ecc=some e) (hdata : b.data.length=c.size)
    (h : BlocksRight e b.data b.par b.size) (hstart : b.start≤ b.size) (hsize : b.size≤ c.size)
    (hstarts : b.size<c.size → b.start=b.size) (hfit : b.start+s.length≤ c.size) :
    Coded c e (writeLast c b s) := by
  have hblocks := update_blocks hecc hdata h hstart hfit
  have ⟨_,_,hst,hsz⟩ := update_fields c b s
  unfold writeLast ramConsoleUpdateHeader
  rw [hecc]
  refine ⟨fun j hj => ?_,update_self ..⟩
  dsimp only at hj ⊢
  rw [hsz] at hj
  have hlt : j*e.blockSize< max b.size (b.start+s.length) := by
    by_cases hopen : b.size<c.size
    · rw [if_pos hopen,←hstarts hopen] at hj
      exact lt_max_of_lt_right hj
    · rw [if_neg hopen] at hj
      exact lt_max_of_lt_left hj
  rw [update_of_ne (block_lt_headerSlot (hlt.trans_le (max_le hsize hfit))).ne]
  exact hblocks j hlt

/-- After every write the parities are right. -/
theorem write_coded (hecc : c.ecc=some e) (h : Held c log b)
    (hb : BlocksRight e b.data b.par b.size) (s : List UInt8) :
    Coded c e (ramConsoleWrite c b s) := by
  have hlen := lastOf_length c.size s
  unfold ramConsoleWrite
  rw [write_clip]
  generalize lastOf c.size s=s' at hlen ⊢
  have hstart := h.start_le
  have hsize := h.size_le
  by_cases hwrap : c.size-b.start<s'.length
  · rw [if_pos hwrap]
    have hfirst : (s'.take (c.size-b.start)).length=c.size-b.start := by
      rw [List.length_take]
      omega
    have hput := update_blocks (s := s'.take (c.size-b.start)) hecc h.data hb hstart (by omega)
    have hfull : max b.size (b.start+(s'.take (c.size-b.start)).length)=c.size := by omega
    rw [hfull] at hput
    refine writeLast_coded hecc ?_ hput (Nat.zero_le _) le_rfl (fun hlt => absurd hlt (lt_irrefl _)) ?_
    · rw [(update_fields c b _).1,putAt_length,h.data]
      rw [h.data]
      omega
    · change 0+(s'.drop (c.size-b.start)).length≤ c.size
      rw [List.length_drop]
      omega
  · rw [if_neg hwrap]
    exact writeLast_coded hecc h.data hb hstart hsize h.starts (by omega)

/-! ## A boot -/

theorem le32At_le32 (n : ℕ) (hn : n<2^32) (before after : List UInt8) :
    le32At (before++le32 n++after) before.length=n := by
  have hget : ∀ i,i<4 → (before++le32 n++after).getD (before.length+i) 0=(le32 n).getD i 0 := by
    intro i hi
    rw [List.append_assoc,List.getD_append_right _ _ _ _ (Nat.le_add_right _ _),
      Nat.add_sub_cancel_left,List.getD_append _ _ _ _ (by exact hi)]
  have hbyte : ∀ m : ℕ,(UInt8.ofNat m).toNat=m%2^8 := fun m => UInt8.toNat_ofNat
  unfold le32At
  have h0 := hget 0 (by decide)
  rw [Nat.add_zero] at h0
  rw [h0,hget 1 (by decide),hget 2 (by decide),hget 3 (by decide)]
  unfold le32
  simp only [List.getD_cons_zero,List.getD_cons_succ,hbyte]
  omega

/-- A header is read as it was written. -/
theorem withHeader_header (hsig : b.sig<2^32) (hstart : b.start<2^32) (hsize : b.size<2^32) :
    b.withHeader b.header=b := by
  have h1 := le32At_le32 b.sig hsig [] (le32 b.start++le32 b.size)
  have h2 := le32At_le32 b.start hstart (le32 b.sig) (le32 b.size)
  have h3 := le32At_le32 b.size hsize (le32 b.sig++le32 b.start) []
  unfold Buffer.withHeader Buffer.header
  have e1 : le32At (le32 b.sig++le32 b.start++le32 b.size) 0=b.sig := h1
  have e2 : le32At (le32 b.sig++le32 b.start++le32 b.size) 4=b.start := h2
  have e3 : le32At (le32 b.sig++le32 b.start++le32 b.size) 8=b.size := h3
  rw [e1,e2,e3]

/-- Blocks that agree with their parities are left as they are, without errors. -/
theorem decodeBlocks_right (e : Ecc) (data : List UInt8) (par : ℕ → List UInt8) (stop : ℕ)
    (hstop : stop≤ data.length) (h : BlocksRight e data par stop) (errs : Errors) (n : ℕ) : ∀ j,
      decodeBlocks e data.length stop par n (j*e.blockSize) j data errs=(data,errs) := by
  induction n with
  | zero => intro j; rfl
  | succ n ih =>
    intro j
    unfold decodeBlocks
    by_cases hlt : j*e.blockSize<stop
    · have hlen : (blockAt e data j).length=min e.blockSize (data.length-j*e.blockSize) := by
        unfold blockAt
        rw [List.length_take,List.length_drop]
      have hpos := blockSize_pos e
      have hdecode : e.decode ((data.drop (j*e.blockSize)).take
          (if j*e.blockSize+e.blockSize>data.length then data.length-j*e.blockSize
            else e.blockSize)) (par j)=(0,blockAt e data j) := by
        rw [take_last,h j hlt]
        exact e.decode_encode _ (by omega) (by omega)
      have hsame : putAt data (j*e.blockSize) (blockAt e data j)=data := putAt_same ..
      rw [if_pos hlt]
      simp only [hdecode,hsame]
      rw [←Nat.succ_mul]
      exact ih (j+1)
    · rw [if_neg hlt]

/-- Decoding keeps the size of the data. -/
theorem decodeBlocks_length (e : Ecc) (bufferEnd stop : ℕ) (par : ℕ → List UInt8)
    (hstop : stop≤ bufferEnd) (n : ℕ) : ∀ (block slot : ℕ) (data : List UInt8) (errs : Errors),
      data.length=bufferEnd →
      (decodeBlocks e bufferEnd stop par n block slot data errs).1.length=bufferEnd := by
  induction n with
  | zero => intro _ _ data _ h; exact h
  | succ n ih =>
    intro block slot data errs h
    unfold decodeBlocks
    split
    next hlt =>
      refine ih _ _ _ _ ?_
      rw [putAt_length,h]
      rw [e.decode_length,List.length_take,List.length_drop]
      omega
    · exact h

/-- After a start nothing is logged. -/
theorem init_held (c : Console) (kmalloc : Bool) (hdata : b.data.length=c.size) :
    Held c [] (ramConsoleInit c kmalloc b).2∧(ramConsoleInit c kmalloc b).2.size=0 := by
  have hlen : (ramConsoleInit c kmalloc b).2.data.length=c.size := by
    unfold ramConsoleInit ramConsoleSaveOld
    cases c.ecc with
    | none =>
      dsimp only
      split_ifs <;> exact hdata
    | some e =>
      dsimp only
      by_cases hsig : (b.withHeader (e.decode b.header (b.par (headerSlot c.size e))).2).sig=
          RAM_CONSOLE_SIG
      · rw [if_pos hsig]
        split
        · exact hdata
        next hok => exact decodeBlocks_length e c.size _ _ (by omega) _ _ _ _ _ hdata
      · rw [if_neg hsig]
        exact hdata
  refine ⟨⟨rfl,hlen,le_rfl,Nat.zero_le _,fun _ => rfl,?_⟩,rfl⟩
  change oldLog 0 0 _=_
  unfold oldLog lastOf
  rw [Nat.sub_self,List.take_zero,List.take_zero,List.length_nil,Nat.zero_sub,List.drop_zero]
  rfl

theorem size_lt (c : Console) : c.size<2^32 := by
  have hlt := c.total_lt
  have hvalid := c.valid
  unfold bufferSize at hvalid
  by_cases h : c.total<HEADER_SIZE
  · rw [if_pos h] at hvalid
    cases hvalid
  rw [if_neg h] at hvalid
  cases hecc : c.ecc with
  | none =>
    rw [hecc] at hvalid
    have := Option.some.inj hvalid
    omega
  | some e =>
    rw [hecc] at hvalid
    dsimp only at hvalid
    split at hvalid
    · cases hvalid
    · have := Option.some.inj hvalid
      omega

/-- What a start saves of a log that agrees with its parities. -/
theorem init_saves (h : Held c log b) (hcoded : ∀ e,c.ecc=some e → Coded c e b) :
    (ramConsoleInit c true b).1=some (lastOf c.size log++
      match c.ecc with
      | none => []
      | some _ => statusLine ⟨0,0⟩) := by
  have hsize := h.size_le
  have hstart := h.start_le
  have hword := size_lt c
  have hgood : ¬(b.size>c.size∨b.start>b.size) := by omega
  unfold ramConsoleInit ramConsoleSaveOld
  cases hecc : c.ecc with
  | none =>
    dsimp only
    rw [if_pos h.sig,if_neg hgood,if_pos rfl,h.log,List.append_nil]
  | some e =>
    have hc := hcoded e hecc
    have hheader : e.decode b.header (b.par (headerSlot c.size e))=(0,b.header) := by
      rw [hc.header]
      exact e.decode_encode _ (by unfold Buffer.header le32; simp) (le_max_right _ _)
    have hsig : b.sig<2^32 := by
      rw [h.sig]
      decide
    simp only [hheader,withHeader_header hsig (show b.start<2^32 by omega)
      (show b.size<2^32 by omega),if_pos h.sig,if_neg hgood]
    have hblocks := decodeBlocks_right e b.data b.par b.size (by rw [h.data]; exact hsize) hc.blocks
      ⟨0,0⟩ b.size 0
    rw [h.data,Nat.zero_mul] at hblocks
    have hcount : Errors.count ⟨0,0⟩ 0=⟨0,0⟩ := rfl
    rw [hcount,hblocks]
    rw [if_pos trivial,h.log]

/-- After writes the parities are right. -/
theorem writes_coded (hecc : c.ecc=some e) (ss : List (List UInt8)) : ∀ {log : List UInt8}
    {b : Buffer},Held c log b → BlocksRight e b.data b.par b.size → ss≠[] →
      Coded c e (writes c b ss) := by
  induction ss with
  | nil =>
    intro _ _ _ _ hne
    exact absurd rfl hne
  | cons s ss ih =>
    intro log b h hb _
    have hc := write_coded hecc h hb s
    by_cases hss : ss=[]
    · rw [hss]
      exact hc
    · exact ih (h.write s) hc.blocks hss

/-- The console after a start and some writes. -/
theorem boot_held (c : Console) (kmalloc : Bool) (hdata : b.data.length=c.size)
    (ss : List (List UInt8)) :
    Held c ss.flatten (writes c (ramConsoleInit c kmalloc b).2 ss) :=
  Held.writes ss (init_held c kmalloc hdata).1

theorem boot_coded (kmalloc : Bool) (hecc : c.ecc=some e) (hdata : b.data.length=c.size)
    {ss : List (List UInt8)} (hne : ss≠[]) :
    Coded c e (writes c (ramConsoleInit c kmalloc b).2 ss) := by
  have ⟨hheld,hzero⟩ := init_held c kmalloc hdata
  refine writes_coded hecc ss hheld (fun j hj => ?_) hne
  exact absurd hj (Nat.not_lt_zero _)

/-- A boot saves the last bytes that the one before it wrote. With error
correction a line about errors follows them, and after every write the parities
of the header and of all blocks with logged bytes are right. -/
theorem console_preserved (c : Console) (kmalloc : Bool) (b : Buffer)
    (hdata : b.data.length=c.size) (ss : List (List UInt8)) :
    let b' := writes c (ramConsoleInit c kmalloc b).2 ss
    b'.start≤ c.size∧b'.size≤ c.size∧
      (c.ecc=none → (ramConsoleInit c true b').1=some (lastOf c.size ss.flatten))∧
      ∀ e,c.ecc=some e → ss≠[] →
        (ramConsoleInit c true b').1=some (lastOf c.size ss.flatten++statusLine ⟨0,0⟩)∧
        Coded c e b' := by
  intro b'
  have h : Held c ss.flatten b' := boot_held c kmalloc hdata ss
  refine ⟨h.start_le.trans h.size_le,h.size_le,fun hnone => ?_,fun e he hne => ?_⟩
  · have hsaved := init_saves h fun e he => by
      rw [hnone] at he
      cases he
    rw [hnone,List.append_nil] at hsaved
    exact hsaved
  · have hcoded : Coded c e b' := boot_coded kmalloc he hdata hne
    have hsaved := init_saves h fun e' he' => by
      rw [he] at he'
      exact Option.some.inj he'▸hcoded
    rw [he] at hsaved
    exact ⟨hsaved,hcoded⟩

/-- The code whose generator has the root 1 only: its parity is the sum of the bytes. -/
def sumCode : Ecc where
  blockSize := 4
  eccSize := 1
  blockSize_pow := ⟨2,rfl⟩
  encode data := [data.foldl (·^^^·) 0]
  decode data ecc := if ecc=[data.foldl (·^^^·) 0] then (0,data) else (-74,data)
  decode_length data ecc := by split <;> rfl
  decode_encode data _ _ := if_pos rfl

def sumConsole : Console := ⟨some sumCode,32,14,by decide,rfl⟩

def zeroMemory : Buffer := ⟨0,0,0,List.replicate 14 0,fun _ => [0]⟩

theorem console_preserved_example :
    (ramConsoleInit sumConsole true (writes sumConsole (ramConsoleInit sumConsole true zeroMemory).2
      [[72,105],[33]])).1=some ([72,105,33]++statusLine ⟨0,0⟩) :=
  ((console_preserved sumConsole true zeroMemory rfl [[72,105],[33]]).2.2.2 sumCode rfl nofun).1

/-- With error correction the old log is not the bytes alone. -/
theorem status_saved : ¬∀ (c : Console) (kmalloc : Bool) (b : Buffer),b.data.length=c.size →
    ∀ ss,(ramConsoleInit c true (writes c (ramConsoleInit c kmalloc b).2 ss)).1=
      some (lastOf c.size ss.flatten) := by
  intro h
  have hbytes := h sumConsole true zeroMemory rfl [[72,105]]
  have hsaved := init_saves (boot_held sumConsole true (b := zeroMemory) rfl [[72,105]])
    fun e he => boot_coded true he rfl nofun
  rw [hbytes] at hsaved
  have hlen := congrArg List.length (Option.some.inj hsaved)
  have hstatus : (statusLine ⟨0,0⟩).length=20 := by decide
  have hzero : (statusLine ⟨0,0⟩).length=0 := Nat.left_eq_add.mp hlen
  omega

end ArdroneKernel.RamConsole
