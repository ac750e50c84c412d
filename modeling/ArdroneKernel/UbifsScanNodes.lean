import ArdroneKernel.UbifsScan
import Mathlib.Tactic.IntervalCases

/-!
# What a scan finds at an offset

As long as no length makes a sum of `int`s overflow, a node or padding that the
scan accepts is inside the LEB, and so is all that is read to find that out.
-/

namespace ArdroneKernel.UbifsScan

open CheckedBuffer LittleEndian

variable {c : Info} {buf : List UInt8} {k : ℕ}

theorem int32_of_lt {x : ℤ} (hl : -2^31≤x) (hr : x<2^31) : int32 x=x := by
  unfold int32
  omega

theorem sizeT_of_lt {x : ℤ} (hl : 0≤x) (hr : x<2^31) : sizeT x=x.toNat := by
  unfold sizeT
  omega

/-- A sum that does not overflow is compared as it should be. -/
theorem le_of_int32 {n m : ℕ} (hsum : k+n<2^31) (h : ¬(m : ℤ)< int32 ((n : ℤ)+k)) : k+n≤ m := by
  rw [int32_of_lt (by omega) (by omega)] at h
  omega

/-- The length in a common header. -/
def nodeLen (buf : List UInt8) (k : ℕ) : ℕ := field buf (k+16) 4

/-- The type in a common header. -/
def nodeType (buf : List UInt8) (k : ℕ) : ℕ := field buf (k+20) 1

/-- The length in a padding node. -/
def padLen (buf : List UInt8) (k : ℕ) : ℕ := field buf (k+24) 4

/-- There is room for a common header, its magic number is right, and so is its length for its
type. -/
structure Header (c : Info) (buf : List UInt8) (k : ℕ) : Prop where
  room : k+CH_SZ≤c.lebSize
  magic : field buf k 4=NODE_MAGIC
  type : nodeType buf k<NODE_TYPES_CNT
  len : ¬badLen c (nodeType buf k) (int32 (nodeLen buf k))

/-- There is a node with a right checksum. -/
structure Valid (c : Info) (buf : List UInt8) (k : ℕ) : Prop extends Header c buf k where
  fits : k+nodeLen buf k≤c.lebSize
  crc : c.crc32 ((buf.drop (k+8)).take (nodeLen buf k-8))=field buf (k+4) 4

/-- The end of what is found at an offset is beyond the largest `int`: the end of a node of a
right length, or the end of the padding of a valid padding node. -/
def Overflows (c : Info) (buf : List UInt8) (k : ℕ) : Prop :=
  Header c buf k∧2^31≤k+nodeLen buf k∨
  Valid c buf k∧nodeType buf k=PAD_NODE∧(PAD_NODE_SZ+padLen buf k)%8=0∧
    PAD_NODE_SZ+padLen buf k<2^31∧2^31≤k+PAD_NODE_SZ+padLen buf k

/-! ## Lengths -/

theorem ranges_bounds (c : Info) {type : ℕ} (htype : type<NODE_TYPES_CNT) :
    CH_SZ≤(ranges c type).1∧((ranges c type).2=0 → (ranges c type).1≤4096)∧
      (ranges c type).2≤ max 4256 c.lebSize∧(type<4 → 48≤(ranges c type).1)∧
      (type=PAD_NODE → (ranges c type).1=PAD_NODE_SZ∧(ranges c type).2=0) := by
  have hidx := c.idxFits
  have hone : 28≤ idxNodeSz c.keyLen 1 := Nat.le_add_right _ _
  have hfanout : 28≤ idxNodeSz c.keyLen c.fanout := Nat.le_add_right _ _
  unfold NODE_TYPES_CNT at htype
  unfold CH_SZ PAD_NODE PAD_NODE_SZ
  interval_cases type
  case «5» => simp [ranges,PAD_NODE_SZ]
  all_goals
    simp only [ranges,ubifsIdxNodeSz]
    omega

/-- A right length is at least that of a common header, and more where there is a key. -/
theorem badLen_bounds {type : ℕ} {n : ℤ} (htype : type<NODE_TYPES_CNT)
    (h : ¬badLen c type n) :
    (CH_SZ : ℤ)≤ n∧n≤ max 4256 c.lebSize∧(type<4 → 48≤ n)∧(type=PAD_NODE → n=PAD_NODE_SZ) := by
  obtain ⟨hmin,hone,hmax,hkey,hpad⟩ := ranges_bounds c htype
  unfold badLen at h
  split_ifs at h with hzero
  · have heq := not_not.mp h
    refine ⟨by omega,by omega,fun hlt => ?_,fun hp => ?_⟩
    · omega
    · rw [heq,(hpad hp).1]
  · refine ⟨by omega,by omega,fun hlt => ?_,fun hp => ?_⟩
    · omega
    · exact absurd (hpad hp).2 hzero

theorem Header.bounds (h : Header c buf k) :
    CH_SZ≤nodeLen buf k∧nodeLen buf k<2^31∧int32 (nodeLen buf k)=nodeLen buf k∧
      (nodeType buf k<4 → 48≤nodeLen buf k)∧
      (nodeType buf k=PAD_NODE → nodeLen buf k=PAD_NODE_SZ) := by
  have hb := badLen_bounds h.type h.len
  have hlt := field_lt buf (k+16) 4
  change nodeLen buf k<256^4 at hlt
  unfold int32 at hb ⊢
  omega

/-! ## Checking a node -/

/-- With room for a header all of its fields can be read. -/
theorem readHeader (hlen : buf.length=c.lebSize) (hroom : k+CH_SZ≤c.lebSize) :
    readField buf (k : ℤ) 4=some (field buf k 4)∧
    readField buf ((k : ℤ)+4) 4=some (field buf (k+4) 4)∧
    readField buf ((k : ℤ)+8) 8=some (field buf (k+8) 8)∧
    readField buf ((k : ℤ)+16) 4=some (nodeLen buf k)∧
    readField buf ((k : ℤ)+20) 1=some (nodeType buf k)∧
    readField buf ((k : ℤ)+21) 1=some (field buf (k+21) 1) := by
  unfold CH_SZ at hroom
  have hread : ∀ i n : ℕ,i+n≤24 → readField buf ((k : ℤ)+i) n=some (field buf (k+i) n) := by
    intro i n hin
    have hcast : (k : ℤ)+i=((k+i : ℕ) : ℤ) := by omega
    exact readField_eq (by omega)
  exact ⟨readField_eq (by omega),hread 4 4 (by decide),hread 8 8 (by decide),
    hread 16 4 (by decide),hread 20 1 (by decide),hread 21 1 (by decide)⟩

/-- The bytes that the checksum is about. -/
theorem readBody {n : ℕ} (hlen : buf.length=c.lebSize) (hmin : CH_SZ≤ n) (hfits : k+n≤c.lebSize) :
    readBytes buf ((k : ℤ)+8) (sizeT ((n : ℤ)-8))=some ((buf.drop (k+8)).take (n-8)) := by
  have hint := c.lebInt
  unfold CH_SZ at hmin
  have hsize : sizeT ((n : ℤ)-8)=n-8 := by
    rw [sizeT_of_lt (by omega) (by omega)]
    omega
  have hcast : (k : ℤ)+8=((k+8 : ℕ) : ℤ) := by omega
  rw [hsize,hcast]
  exact readBytes_eq (by omega)

/-- What the check of a node finds, unless a length overflows. -/
theorem ubifsCheckNode_spec (hlen : buf.length=c.lebSize) (hroom : k+CH_SZ≤c.lebSize)
    (hno : ¬Overflows c buf k) (mustChkCrc : Bool) :
    ∃ r,ubifsCheckNode c buf (k : ℤ) (k : ℤ) mustChkCrc=some r∧
      (r=0 → mustChkCrc=true → Valid c buf k)∧
      (r=EUCLEAN → field buf k 4=NODE_MAGIC → Header c buf k∧k+nodeLen buf k≤c.lebSize) := by
  obtain ⟨hmagic,hcrc,-,hnlen,htype,-⟩ := readHeader hlen hroom
  unfold ubifsCheckNode
  rw [hmagic,Option.bind_some]
  by_cases hm : field buf k 4≠NODE_MAGIC
  · rw [if_pos hm]
    exact ⟨EUCLEAN,rfl,fun h => absurd h (by decide),fun _ h => absurd h hm⟩
  rw [if_neg hm,htype,Option.bind_some]
  have hm := not_not.mp hm
  by_cases ht : NODE_TYPES_CNT≤nodeType buf k
  · rw [if_pos ht]
    exact ⟨EINVAL,rfl,fun h => absurd h (by decide),fun h => absurd h (by decide)⟩
  rw [if_neg ht,hnlen,Option.bind_some]
  by_cases hbad : (c.lebSize : ℤ)< int32 (int32 (nodeLen buf k)+k)∨
      badLen c (nodeType buf k) (int32 (nodeLen buf k))
  · rw [if_pos hbad]
    exact ⟨EINVAL,rfl,fun h => absurd h (by decide),fun h => absurd h (by decide)⟩
  rw [if_neg hbad]
  by_cases hskip : mustChkCrc=false∧nodeType buf k=DATA_NODE∧c.mounting=false∧c.noChkDataCrc=true
  · rw [if_pos hskip]
    refine ⟨0,rfl,fun _ h => ?_,fun h => absurd h (by decide)⟩
    rw [hskip.1] at h
    cases h
  · rw [if_neg hskip]
    have hhead : Header c buf k :=
      ⟨hroom,hm,Nat.lt_of_not_le ht,fun h => hbad (Or.inr h)⟩
    obtain ⟨hmin,hmax,heq,-,-⟩ := hhead.bounds
    have hsum : k+nodeLen buf k<2^31 :=
      Nat.lt_of_not_le fun h => hno (Or.inl ⟨hhead,h⟩)
    have hfits : k+nodeLen buf k≤c.lebSize := by
      have hle := (not_or.mp hbad).1
      rw [heq] at hle
      exact le_of_int32 hsum hle
    have hbytes := readBody hlen hmin hfits
    rw [←heq] at hbytes
    rw [hbytes,Option.bind_some,hcrc,Option.bind_some]
    by_cases hsame : c.crc32 ((buf.drop (k+8)).take (nodeLen buf k-8))≠field buf (k+4) 4
    · rw [if_pos hsame]
      exact ⟨EUCLEAN,rfl,fun h => absurd h (by decide),fun _ _ => ⟨hhead,hfits⟩⟩
    · rw [if_neg hsame]
      exact ⟨0,rfl,fun _ _ => ⟨hhead,hfits,not_not.mp hsame⟩,fun h => absurd h (by decide)⟩

/-- The checksum of a node whose end overflows runs out of the buffer. -/
theorem readBody_overflow {n : ℕ} (hlen : buf.length=c.lebSize) (hroom : k+CH_SZ≤c.lebSize)
    (hmin : CH_SZ≤ n) (hmax : n<2^31) (hover : 2^31≤k+n) :
    ¬(c.lebSize : ℤ)< int32 ((n : ℤ)+k)∧readBytes buf ((k : ℤ)+8) (sizeT ((n : ℤ)-8))=none := by
  have hint := c.lebInt
  unfold CH_SZ at hmin hroom
  have hsize : sizeT ((n : ℤ)-8)=n-8 := by
    rw [sizeT_of_lt (by omega) (by omega)]
    omega
  refine ⟨?_,readBytes_none (by omega) (by omega)⟩
  unfold int32
  omega

/-- A node whose end overflows is not checked. -/
theorem ubifsCheckNode_overflow (hlen : buf.length=c.lebSize) (h : Header c buf k)
    (hover : 2^31≤k+nodeLen buf k) : ubifsCheckNode c buf (k : ℤ) (k : ℤ) true=none := by
  obtain ⟨hmagic,-,-,hnlen,htype,-⟩ := readHeader hlen h.room
  obtain ⟨hmin,hmax,heq,-,-⟩ := h.bounds
  obtain ⟨hwrap,hbytes⟩ := readBody_overflow hlen h.room hmin hmax hover
  have hbad : ¬((c.lebSize : ℤ)< int32 (int32 (nodeLen buf k)+k)∨
      badLen c (nodeType buf k) (int32 (nodeLen buf k))) := by
    rw [heq]
    exact not_or.mpr ⟨hwrap,heq ▸ h.len⟩
  have hmust : ¬(true=false∧nodeType buf k=DATA_NODE∧c.mounting=false∧c.noChkDataCrc=true) :=
    fun hskip => absurd hskip.1 (by decide)
  unfold ubifsCheckNode
  rw [hmagic,Option.bind_some,if_neg (not_not.mpr h.magic),htype,Option.bind_some,
    if_neg (Nat.not_le.mpr h.type),hnlen,Option.bind_some]
  rw [if_neg hbad,if_neg hmust,heq,hbytes]
  rfl

/-- A valid node passes the check. -/
theorem ubifsCheckNode_valid (hlen : buf.length=c.lebSize) (h : Valid c buf k) :
    ubifsCheckNode c buf (k : ℤ) (k : ℤ) true=some 0 := by
  obtain ⟨hmagic,hcrc,-,hnlen,htype,-⟩ := readHeader hlen h.room
  obtain ⟨hmin,hmax,heq,-,-⟩ := h.bounds
  have hsum : (nodeLen buf k : ℤ)+k≤c.lebSize := by
    have hfits := h.fits
    omega
  have hbad : ¬((c.lebSize : ℤ)< int32 (int32 (nodeLen buf k)+k)∨
      badLen c (nodeType buf k) (int32 (nodeLen buf k))) := by
    have hint := c.lebInt
    rw [heq]
    refine not_or.mpr ⟨?_,heq ▸ h.len⟩
    rw [int32_of_lt (by omega) (by omega)]
    exact not_lt.mpr hsum
  have hmust : ¬(true=false∧nodeType buf k=DATA_NODE∧c.mounting=false∧c.noChkDataCrc=true) :=
    fun hskip => absurd hskip.1 (by decide)
  unfold ubifsCheckNode
  rw [hmagic,Option.bind_some,if_neg (not_not.mpr h.magic),htype,Option.bind_some,
    if_neg (Nat.not_le.mpr h.type),hnlen,Option.bind_some]
  rw [if_neg hbad,if_neg hmust,heq,readBody hlen hmin h.fits,Option.bind_some,hcrc,
    Option.bind_some,if_neg (not_not.mpr h.crc)]

/-! ## Scanning a node -/

/-- Padding bytes are inside the LEB, and there are 8, 16 or 24 of them. -/
theorem scanPaddingBytes_spec (hlen : buf.length=c.lebSize) (hk : k+8≤c.lebSize) :
    ∃ ret,scanPaddingBytes buf (k : ℤ) ((c.lebSize : ℤ)-k)=some ret∧0≤ret∧8∣ret∧
      k+ret≤c.lebSize := by
  have hsize : k+(min (PAD_NODE_SZ : ℤ) ((c.lebSize : ℤ)-k)).toNat≤buf.length := by omega
  obtain ⟨m,hm,hcount,-,-⟩ := countRun_spec (v := PADDING_BYTE) hsize
  unfold scanPaddingBytes
  rw [hcount,Option.map_some]
  split_ifs with hpad
  · exact ⟨GARBAGE,rfl,le_rfl,dvd_zero 8,by
      unfold GARBAGE
      omega⟩
  · exact ⟨m,rfl,by omega,by omega,by omega⟩

/-- Padding after a padding node is inside the LEB, unless its end overflows. -/
theorem scanPadNode_spec {n : ℕ} (hn : n<2^32) (hfits : k+PAD_NODE_SZ≤c.lebSize)
    (hno : ¬((PAD_NODE_SZ+n)%8=0∧PAD_NODE_SZ+n<2^31∧2^31≤k+PAD_NODE_SZ+n)) :
    (0<scanPadNode c k PAD_NODE_SZ (int32 n) →
      8∣scanPadNode c k PAD_NODE_SZ (int32 n)∧k+scanPadNode c k PAD_NODE_SZ (int32 n)≤c.lebSize)∧
    scanPadNode c k PAD_NODE_SZ (int32 n)≠A_NODE∧
    scanPadNode c k PAD_NODE_SZ (int32 n)≠A_CORRUPT_NODE := by
  have hint := c.lebInt
  have hroom : int32 ((k : ℤ)+PAD_NODE_SZ)=k+PAD_NODE_SZ := int32_of_lt (by omega) (by omega)
  unfold scanPadNode
  unfold A_BAD_PAD_NODE A_NODE A_CORRUPT_NODE
  split_ifs with hbad hal
  · omega
  · omega
  · unfold int32 at *
    omega

/-- Padding whose end overflows is taken for padding. -/
theorem scanPadNode_overflow {n : ℕ} (hfits : k+PAD_NODE_SZ≤c.lebSize)
    (hal : (PAD_NODE_SZ+n)%8=0) (hn : PAD_NODE_SZ+n<2^31) (hover : 2^31≤k+PAD_NODE_SZ+n) :
    scanPadNode c k PAD_NODE_SZ (int32 n)=PAD_NODE_SZ+n := by
  have hint := c.lebInt
  have hroom : int32 ((k : ℤ)+PAD_NODE_SZ)=k+PAD_NODE_SZ := int32_of_lt (by omega) (by omega)
  have hpad : int32 (n : ℤ)=n := int32_of_lt (by omega) (by omega)
  have hsum : int32 ((PAD_NODE_SZ : ℤ)+n)=PAD_NODE_SZ+n := int32_of_lt (by omega) (by omega)
  have hwrap : ¬(c.lebSize : ℤ)< int32 ((k : ℤ)+PAD_NODE_SZ+n) := by
    unfold int32
    omega
  unfold scanPadNode
  rw [hroom,hpad,hsum,if_neg (not_or.mpr ⟨by omega,hwrap⟩),if_neg (not_not.mpr (by omega))]

/-- What a scan finds, unless a length overflows. -/
theorem ubifsScanANode_spec (hlen : buf.length=c.lebSize) (hk : k+8≤c.lebSize) (hal : 8∣k)
    (hno : ¬Overflows c buf k) :
    ∃ ret,ubifsScanANode c buf (k : ℤ) ((c.lebSize : ℤ)-k) (k : ℤ)=some ret∧
      (0<ret → 8∣ret∧k+ret≤c.lebSize)∧
      (ret=A_NODE → Valid c buf k)∧
      (ret=A_CORRUPT_NODE → field buf k 4=NODE_MAGIC∧k+CH_SZ≤c.lebSize) := by
  have hcode : ∀ ret∈[EMPTY_SPACE,GARBAGE,A_BAD_PAD_NODE],
      (0<ret → 8∣ret∧k+ret≤c.lebSize)∧(ret=A_NODE → Valid c buf k)∧
        (ret=A_CORRUPT_NODE → field buf k 4=NODE_MAGIC∧k+CH_SZ≤c.lebSize) := by
    intro ret hret
    unfold EMPTY_SPACE GARBAGE A_BAD_PAD_NODE at hret
    unfold A_NODE A_CORRUPT_NODE
    refine ⟨fun h => ?_,fun h => ?_,fun h => ?_⟩
    all_goals
      simp only [List.mem_cons,List.not_mem_nil,or_false] at hret
      omega
  have hmagic : readField buf (k : ℤ) 4=some (field buf k 4) := readField_eq (by omega)
  unfold ubifsScanANode
  rw [hmagic,Option.bind_some]
  by_cases hempty : field buf k 4=0xffffffff
  · rw [if_pos hempty]
    exact ⟨EMPTY_SPACE,rfl,hcode _ (by simp)⟩
  rw [if_neg hempty]
  by_cases hm : field buf k 4≠NODE_MAGIC
  · rw [if_pos hm]
    obtain ⟨ret,hret,hpos,hdvd,hle⟩ := scanPaddingBytes_spec hlen hk
    refine ⟨ret,hret,fun _ => ⟨hdvd,hle⟩,fun h => ?_,fun h => ?_⟩
    · rw [h] at hpos
      cases hpos
    · rw [h] at hpos
      cases hpos
  rw [if_neg hm]
  by_cases hroom : (c.lebSize : ℤ)-k<CH_SZ
  · rw [if_pos hroom]
    exact ⟨GARBAGE,rfl,hcode _ (by simp)⟩
  rw [if_neg hroom]
  have hroom' : k+CH_SZ≤c.lebSize := by omega
  obtain ⟨err,herr,hvalid,-⟩ := ubifsCheckNode_spec hlen hroom' hno true
  rw [herr,Option.bind_some]
  by_cases hbad : err≠0
  · rw [if_pos hbad]
    refine ⟨A_CORRUPT_NODE,rfl,fun h => absurd h (by decide),fun h => absurd h (by decide),
      fun _ => ⟨not_not.mp hm,hroom'⟩⟩
  rw [if_neg hbad,(readHeader hlen hroom').2.2.2.2.1,Option.bind_some]
  have hv := hvalid (not_not.mp hbad) rfl
  by_cases htype : nodeType buf k=PAD_NODE
  · have hnlen : nodeLen buf k=PAD_NODE_SZ := hv.bounds.2.2.2.2 htype
    have hfits := hv.fits
    rw [hnlen] at hfits
    have hread : readField buf ((k : ℤ)+24) 4=some (padLen buf k) := by
      unfold PAD_NODE_SZ at hfits
      have hcast : (k : ℤ)+24=((k+24 : ℕ) : ℤ) := by omega
      rw [hcast]
      exact readField_eq (by omega)
    have hsmall : int32 ((PAD_NODE_SZ : ℕ) : ℤ)=PAD_NODE_SZ := by decide
    have hspec := scanPadNode_spec (field_lt buf (k+24) 4) hfits fun h =>
      hno (Or.inr ⟨hv,htype,h⟩)
    rw [if_pos htype,hread,Option.bind_some,(readHeader hlen hroom').2.2.2.1,Option.map_some,hnlen,
      hsmall]
    exact ⟨_,rfl,hspec.1,fun h => absurd h hspec.2.1,fun h => absurd h hspec.2.2⟩
  · rw [if_neg htype]
    refine ⟨A_NODE,rfl,fun h => absurd h (by decide),fun _ => hv,fun h => absurd h (by decide)⟩

/-- An overflow is either not survived or scanned as a step beyond the LEB. -/
theorem ubifsScanANode_overflow (hlen : buf.length=c.lebSize) (h : Overflows c buf k) :
    ubifsScanANode c buf (k : ℤ) ((c.lebSize : ℤ)-k) (k : ℤ)=none∨
      ∃ n : ℕ,ubifsScanANode c buf (k : ℤ) ((c.lebSize : ℤ)-k) (k : ℤ)=some (n : ℤ)∧
        n<2^31∧2^31≤k+n := by
  have hhead : Header c buf k := by
    rcases h with h | h
    · exact h.1
    · exact h.1.toHeader
  have hroom := hhead.room
  have hread := readHeader hlen hroom
  have hroom' : ¬(c.lebSize : ℤ)-k<CH_SZ := by omega
  have hnempty : ¬field buf k 4=0xffffffff := by
    rw [hhead.magic]
    decide
  unfold ubifsScanANode
  rw [hread.1,Option.bind_some,if_neg hnempty,if_neg (not_not.mpr hhead.magic),if_neg hroom']
  rcases h with ⟨-,hover⟩ | ⟨hv,htype,hal,hn,hover⟩
  · rw [ubifsCheckNode_overflow hlen hhead hover]
    exact Or.inl rfl
  · have hnlen : nodeLen buf k=PAD_NODE_SZ := hv.bounds.2.2.2.2 htype
    have hfits := hv.fits
    rw [hnlen] at hfits
    have hpad : readField buf ((k : ℤ)+24) 4=some (padLen buf k) := by
      unfold PAD_NODE_SZ at hfits
      have hcast : (k : ℤ)+24=((k+24 : ℕ) : ℤ) := by omega
      rw [hcast]
      exact readField_eq (by omega)
    have hsmall : int32 ((PAD_NODE_SZ : ℕ) : ℤ)=PAD_NODE_SZ := by decide
    rw [ubifsCheckNode_valid hlen hv,Option.bind_some,if_neg (not_not.mpr rfl),hread.2.2.2.2.1,
      Option.bind_some,if_pos htype,hpad,Option.bind_some,hread.2.2.2.1,Option.map_some,hnlen,
      hsmall,scanPadNode_overflow hfits hal hn hover]
    exact Or.inr ⟨PAD_NODE_SZ+padLen buf k,rfl,hn,by omega⟩

end ArdroneKernel.UbifsScan
