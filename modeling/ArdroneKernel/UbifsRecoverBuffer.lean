import ArdroneKernel.UbifsScanRuns
import Mathlib.Tactic.Linarith

/-!
# The buffer of a recovery

What the recovery of a LEB looks at and what it writes stays inside of the scan
buffer, and below the cursor nothing changes.
-/

namespace ArdroneKernel.UbifsScan

open CheckedBuffer LittleEndian

variable {c : Info} {env : Env} {buf : List UInt8} {start k : ℕ} {cur : Cursor}

/-! ## Looking -/

/-- Looking for empty space reads only what there is. -/
theorem isEmpty_spec {pos len : ℤ} (h : 0<len → 0≤pos∧pos+len≤buf.length) :
    ∃ b,isEmpty buf pos len=some b∧
      (b=true → ∀ j : ℕ,pos≤j → (j : ℤ)<pos+len → buf[j]?=some 0xff) := by
  unfold isEmpty
  by_cases hlen : 0<len
  · have hin := h hlen
    obtain ⟨p,rfl⟩ := Int.eq_ofNat_of_zero_le hin.1
    obtain ⟨n,rfl⟩ := Int.eq_ofNat_of_zero_le hlen.le
    obtain ⟨m,-,hcount,hrun,-⟩ := countRun_spec (v := 0xff) (show p+n≤buf.length by omega)
    rw [Int.toNat_natCast,hcount,Option.map_some]
    refine ⟨_,rfl,fun hall j hj hlt => ?_⟩
    have hm := of_decide_eq_true hall
    have hbyte := hrun (j-p) (by omega)
    rwa [show p+(j-p)=j by omega] at hbyte
  · have hzero : len.toNat=0 := by omega
    rw [hzero]
    exact ⟨_,rfl,fun _ j hj hlt => absurd (hj.trans_lt hlt) (by omega)⟩

theorem int32_add {m n : ℕ} (h : m+n<2^31) : int32 ((m : ℤ)+n)=((m+n : ℕ) : ℤ) := by
  rw [int32_of_lt (by omega) (by omega)]
  omega

/-- Rounding up to the units of a write, which may overflow once. -/
theorem align_write (c : Info) {x : ℕ} (hx : x<2^31) :
    ∃ u : ℕ,align (x : ℤ) c.maxWriteSize=int32 u∧x≤u∧u≤2^31 := by
  have hpos : 0<c.maxWriteSize := Nat.two_pow_pos _
  have hle : c.maxWriteSize≤2^30 := Nat.pow_le_pow_right (by decide) c.maxWrite
  obtain ⟨r,hr⟩ := pow_dvd_pow 2 (show c.maxWriteShift≤31 from c.maxWrite.trans (by decide))
  change 2^31=c.maxWriteSize*r at hr
  have hdiv := Nat.div_add_mod' (x+c.maxWriteSize-1) c.maxWriteSize
  have hmod := Nat.mod_lt (x+c.maxWriteSize-1) hpos
  have hup : (x+c.maxWriteSize-1)/c.maxWriteSize*c.maxWriteSize≤2^31 := by
    rw [hr,Nat.mul_comm]
    refine Nat.mul_le_mul_left _ (Nat.lt_succ_iff.mp ((Nat.div_lt_iff_lt_mul hpos).mpr ?_))
    rw [Nat.succ_mul,Nat.mul_comm r,←hr]
    omega
  refine ⟨(x+c.maxWriteSize-1)/c.maxWriteSize*c.maxWriteSize,?_,by omega,hup⟩
  have hsum : (x : ℤ)+c.maxWriteSize-1=((x+c.maxWriteSize-1 : ℕ) : ℤ) := by omega
  unfold align
  rw [hsum]
  by_cases hover : x+c.maxWriteSize-1<2^31
  · rw [int32_of_lt (by omega) (by omega),int32_of_lt (by omega) (by omega)]
    rfl
  · -- the unit divides 2^31, which is where the sum is rounded to
    have hu : (x+c.maxWriteSize-1)/c.maxWriteSize=r := by
      refine Nat.le_antisymm ?_ ?_
      · exact Nat.le_of_mul_le_mul_right (by rwa [Nat.mul_comm r,←hr]) hpos
      · rw [Nat.le_div_iff_mul_le hpos,Nat.mul_comm r,←hr]
        omega
    have hwrap : int32 ((x+c.maxWriteSize-1 : ℕ) : ℤ)=
        ((x+c.maxWriteSize-1 : ℕ) : ℤ)+(-(2*r : ℕ) : ℤ)*c.maxWriteSize := by
      have hprod : (-(2*r : ℕ) : ℤ)*c.maxWriteSize=-2^32 := by
        have hcast : ((c.maxWriteSize*r : ℕ) : ℤ)=2^31 := by rw [←hr]; rfl
        push_cast at hcast ⊢
        linarith
      unfold int32
      omega
    have hdivz : (((x+c.maxWriteSize-1 : ℕ) : ℤ))/(c.maxWriteSize : ℤ)=r := by
      rw [←hu]
      rfl
    rw [hwrap,Int.add_mul_ediv_right _ _ (by omega),hdivz,hu]
    have hprod : (((r*c.maxWriteSize : ℕ) : ℤ))=2^31 := by
      rw [Nat.mul_comm,←hr]
      rfl
    have hneg : ((r : ℤ)+-(2*r : ℕ))*c.maxWriteSize=-2^31 := by
      push_cast at hprod ⊢
      linarith
    rw [hneg,hprod]
    decide

/-- Whether an offset was in the last write can be told. -/
theorem isLastWrite_spec (hlen : buf.length=c.lebSize) (hk : k≤c.lebSize) :
    ∃ b,isLastWrite c buf k k=some b := by
  have hint := c.lebInt
  have height := eight_dvd c
  obtain ⟨u,hu,hle,hmax⟩ := align_write c (show k+1<2^31 by omega)
  have hone : int32 ((k : ℤ)+1)=((k+1 : ℕ) : ℤ) := int32_of_lt (by omega) (by omega)
  have hcheck : int32 ((c.lebSize : ℤ)-int32 u)=(c.lebSize : ℤ)-u := by
    unfold int32
    omega
  unfold isLastWrite
  rw [hone,hu]
  dsimp only
  rw [hcheck]
  have hin : 0<(c.lebSize : ℤ)-u →
      0≤(k : ℤ)+int32 u-k∧(k : ℤ)+int32 u-k+((c.lebSize : ℤ)-u)≤buf.length := by
    intro hpos
    rw [int32_of_lt (by omega) (by omega)]
    omega
  obtain ⟨b,hb,-⟩ := isEmpty_spec hin
  exact ⟨b,hb⟩

/-- The end of a skip to the units of a write. -/
theorem skip_spec (hlen : buf.length=c.lebSize) {x : ℕ} (hx : x<2^31) (hkx : k≤x) :
    ∃ b,isEmpty buf ((k : ℤ)+int32 (align (x : ℤ) c.maxWriteSize-k))
      (int32 ((c.lebSize : ℤ)-k-int32 (align (x : ℤ) c.maxWriteSize-k)))=some b := by
  have hint := c.lebInt
  obtain ⟨u,hu,hle,hmax⟩ := align_write c hx
  have hcheck : int32 ((c.lebSize : ℤ)-k-int32 (int32 u-k))=(c.lebSize : ℤ)-u := by
    unfold int32
    omega
  rw [hu,hcheck]
  have hin : 0<(c.lebSize : ℤ)-u → 0≤(k : ℤ)+int32 (int32 u-k)∧
      (k : ℤ)+int32 (int32 u-k)+((c.lebSize : ℤ)-u)≤buf.length := by
    intro hpos
    have hsmall : int32 (u : ℤ)=u := int32_of_lt (by omega) (by omega)
    rw [hsmall,int32_of_lt (by omega) (by omega)]
    omega
  obtain ⟨b,hb,-⟩ := isEmpty_spec hin
  exact ⟨b,hb⟩

/-- Whether there are more nodes can be told. -/
theorem noMoreNodes_spec (hlen : buf.length=c.lebSize) (hroom : k+CH_SZ≤c.lebSize)
    (hmagic : field buf k 4=NODE_MAGIC) (hno : ¬Overflows c buf k) :
    ∃ b,noMoreNodes c buf k ((c.lebSize : ℤ)-k) k=some b := by
  have hread := readHeader hlen hroom
  obtain ⟨b,hb⟩ := skip_spec hlen (hroom.trans_lt c.lebInt) (Nat.le_add_right k CH_SZ)
  obtain ⟨err,herr,-,hfits⟩ := ubifsCheckNode_spec hlen hroom hno false
  unfold noMoreNodes
  rw [hread.2.2.2.1,Option.bind_some,int32_add (hroom.trans_lt c.lebInt)]
  dsimp only
  rw [hb,Option.bind_some]
  by_cases hempty : b=true
  · rw [if_pos hempty]
    exact ⟨true,rfl⟩
  rw [if_neg hempty,herr,Option.bind_some]
  by_cases hbad : err≠EUCLEAN
  · rw [if_pos hbad]
    exact ⟨false,rfl⟩
  rw [if_neg hbad]
  obtain ⟨hheader,hle⟩ := hfits (not_not.mp hbad) hmagic
  rw [hheader.bounds.2.2.1,int32_add (hle.trans_lt c.lebInt)]
  exact skip_spec hlen (hle.trans_lt c.lebInt) (Nat.le_add_right _ _)

/-! ## Writing -/

/-- The buffer is the same but for some offsets. -/
structure Same (l m : ℕ) (buf buf' : List UInt8) : Prop where
  length : buf'.length=buf.length
  other : ∀ j,j<l∨m≤j → buf'[j]?=buf[j]?

theorem Same.refl (l m : ℕ) (buf : List UInt8) : Same l m buf buf := ⟨rfl,fun _ _ => rfl⟩

theorem Same.trans {l m : ℕ} {buf' buf'' : List UInt8} (h : Same l m buf buf')
    (h' : Same l m buf' buf'') : Same l m buf buf'' :=
  ⟨h'.length.trans h.length,fun j hj => (h'.other j hj).trans (h.other j hj)⟩

theorem Same.mono {l m l' m' : ℕ} {buf' : List UInt8} (h : Same l m buf buf') (hl : l'≤l)
    (hm : m≤ m') : Same l' m' buf buf' :=
  ⟨h.length,fun j hj => h.other j (by omega)⟩

theorem Blank.same {l m : ℕ} {buf' : List UInt8} (h : Blank buf k) (hs : Same l m buf buf')
    (hm : m≤k) : Blank buf' k := by
  intro j hj hlt
  rw [hs.other j (Or.inr (hm.trans hj))]
  exact h j hj (hs.length ▸ hlt)

theorem patch_same {xs : List UInt8} (h : k+xs.length≤buf.length) :
    Same k (k+xs.length) buf (patch buf k xs) :=
  ⟨length_patch h,fun _ hj => getElem?_patch_out h hj⟩

theorem fill_spec {n : ℕ} {v : UInt8} (h : k+n≤buf.length) :
    ∃ buf',fill buf (k : ℤ) n v=some buf'∧Same k (k+n) buf buf'∧
      ∀ j,k≤j → j<k+n → buf'[j]?=some v := by
  have hin : k+(List.replicate n v).length≤buf.length := by
    rw [List.length_replicate]
    exact h
  have hsame := patch_same hin
  rw [List.length_replicate] at hsame
  refine ⟨_,fill_eq h,hsame,fun j hj hlt => ?_⟩
  have hbyte := getElem?_patch_in hin (i := j-k) (by
    rw [List.length_replicate]
    omega)
  rw [show k+(j-k)=j by omega] at hbyte
  rw [hbyte,List.getElem?_replicate,if_pos (by omega)]

theorem length_padNode (c : Info) (n : ℕ) : (padNode c n).length=PAD_NODE_SZ := by
  unfold padNode PAD_NODE_SZ
  simp

/-- Padding writes what it is told to. -/
theorem ubifsPad_spec {n : ℕ} (hn : n<2^31) (h : k+n≤buf.length) :
    ∃ buf',ubifsPad c buf (k : ℤ) (n : ℤ)=some buf'∧Same k (k+n) buf buf' := by
  unfold ubifsPad
  by_cases hnode : (PAD_NODE_SZ : ℤ)≤ n
  · rw [if_pos hnode]
    have hsize : sizeT ((n : ℤ)-PAD_NODE_SZ)=n-PAD_NODE_SZ := by
      rw [sizeT_of_lt (by omega) (by omega)]
      omega
    have hin : k+(padNode c (n-PAD_NODE_SZ)).length≤buf.length := by
      rw [length_padNode]
      omega
    have hnode' := patch_same hin
    have hlen := length_patch hin
    obtain ⟨buf',hbuf,hsame,-⟩ := fill_spec (v := 0)
      (show k+PAD_NODE_SZ+(n-PAD_NODE_SZ)≤(patch buf k (padNode c (n-PAD_NODE_SZ))).length by
        omega)
    rw [hsize,writeBytes_eq hin,Option.bind_some,
      show (k : ℤ)+PAD_NODE_SZ=((k+PAD_NODE_SZ : ℕ) : ℤ) by omega,hbuf]
    rw [length_padNode] at hnode'
    exact ⟨buf',rfl,(hnode'.mono le_rfl (by omega)).trans (hsame.mono (by omega) (by omega))⟩
  rw [if_neg hnode]
  by_cases hbytes : (0 : ℤ)<n
  · rw [if_pos hbytes,sizeT_of_lt (by omega) (by omega),Int.toNat_natCast]
    obtain ⟨buf',hbuf,hsame,-⟩ := fill_spec (v := PADDING_BYTE) h
    exact ⟨buf',hbuf,hsame⟩
  · rw [if_neg hbytes]
    exact ⟨buf,rfl,Same.refl _ _ _⟩

/-- Cleaning pads to whole I/O units and leaves empty space after them. -/
theorem cleanBuf_spec (hlen : buf.length=c.lebSize) (h : At c k cur) :
    ∃ buf' cur' l,cleanBuf c buf cur=some (buf',cur')∧At c l cur'∧cur'.nodes=cur.nodes∧k≤l∧
      c.minIoSize∣l∧Same k c.lebSize buf buf'∧Blank buf' l := by
  have hint := c.lebInt
  have hle := h.le
  obtain ⟨l,hl,hkl,hlle,hdvd,-,-⟩ := align_spec hle
  have hpad : int32 ((l : ℤ)-k)=((l-k : ℕ) : ℤ) := by
    rw [int32_of_lt (by omega) (by omega)]
    omega
  obtain ⟨buf1,hbuf1,hsame1⟩ := ubifsPad_spec (c := c) (show l-k<2^31 by omega)
    (show k+(l-k)≤buf.length by omega)
  have hat : At c (k+(l-k)) (cur.skip ((l-k : ℕ) : ℤ)) := h.skip (by omega)
  rw [show k+(l-k)=l by omega] at hat hsame1
  have hlen1 := hsame1.length
  obtain ⟨buf2,hbuf2,hsame2,hff⟩ := fill_spec (v := 0xff)
    (show l+(c.lebSize-l)≤buf1.length by omega)
  have hsize : sizeT (int32 ((c.lebSize : ℤ)-l))=c.lebSize-l := by
    rw [int32_of_lt (by omega) (by omega),sizeT_of_lt (by omega) (by omega)]
    omega
  refine ⟨buf2,_,l,?_,hat,rfl,hkl,hdvd,?_,fun j hj hlt => ?_⟩
  · unfold cleanBuf
    rw [h.offs,h.pos,hl]
    dsimp only
    rw [hpad,hbuf1,Option.bind_some,hat.pos,hsize,hbuf2]
    rfl
  · exact (hsame1.mono le_rfl (by omega)).trans (hsame2.mono (by omega) (by omega))
  · have hlen2 := hsame2.length
    exact hff j hj (by omega)

end ArdroneKernel.UbifsScan
