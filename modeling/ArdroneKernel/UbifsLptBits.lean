import ArdroneKernel.BitFields
import ArdroneKernel.UbifsLpt

/-!
# Bit fields of the LEB properties tree

What `pack_bits` writes is the field at its place, and nothing before it
changes. What `ubifs_unpack_bits` returns is the field at its place. Both stay
inside the buffer as long as the field does.
-/

namespace ArdroneKernel.UbifsLpt

open BitFields

/-- The place of a bit. -/
def placeOf (k : ℕ) : Place := ⟨k/8,k%8⟩

variable {buf buf' : List UInt8} {k n v p : ℕ}

/-! ## Unpacking -/

theorem readBytes_eq (h : p+n≤buf.length) :
    readBytes buf p n=some (joinBytes ((buf.drop p).take n)) := by
  induction n generalizing p with
  | zero => simp [readBytes,joinBytes]
  | succ n ih =>
    have hp : p<buf.length := by omega
    unfold readBytes
    rw [List.getElem?_eq_getElem hp,ih (by omega),List.drop_eq_getElem_cons hp,
      List.take_succ_cons]
    rfl

theorem bit_window {i : ℕ} (hi : i<8*n) :
    bit ((buf.drop p).take n) i=bit buf (8*p+i) := by
  unfold bit
  have hdiv : (8*p+i)/8=p+i/8 := by omega
  have hmod : (8*p+i)%8=i%8 := by omega
  rw [hdiv,hmod,List.getD_eq_getElem?_getD,List.getElem?_take,List.getElem?_drop,
    if_pos (by omega),List.getD_eq_getElem?_getD]

theorem testBit_shr_shl {w i : ℕ} (hn : n≤32) :
    (((w<<<(32-n))%2^32)>>>(32-n)).testBit i=(decide (i< n) && w.testBit i) := by
  rw [Nat.testBit_shiftRight,Nat.testBit_mod_two_pow,Nat.testBit_shiftLeft]
  have hle : 32-n+i≥32-n := Nat.le_add_right _ _
  have hsub : 32-n+i-(32-n)=i := by omega
  rw [decide_eq_true hle,Bool.true_and,hsub]
  by_cases hi : i< n
  · rw [decide_eq_true hi,decide_eq_true (by omega : 32-n+i<32)]
  · rw [decide_eq_false hi,decide_eq_false (by omega : ¬32-n+i<32)]

/-- The bits before the cut to the width of the field. -/
theorem unpackWord_spec (garbage : ℕ) (buf : List UInt8) (p : ℕ) {b : ℕ} (hb : b<8) (hn : 0< n) (hn' : n≤32)
    (h : 8*p+b+n≤8*buf.length) :
    ∃ w,unpackWord garbage buf p b ((n+b+7)>>>3)=some w∧
      ∀ i< n,w.testBit i=bit buf (8*p+b+i) := by
  have hbytes : (n+b+7)>>>3=(n+b+7)/8 := Nat.shiftRight_eq_div_pow _ 3
  rw [hbytes]
  have hp : p<buf.length := by omega
  unfold unpackWord
  by_cases hb0 : b=0
  · rw [if_neg (by omega),readBytes_eq (by omega)]
    refine ⟨_,rfl,fun i hi => ?_⟩
    rw [testBit_joinBytes,bit_window (by omega),hb0]
    rfl
  · rw [if_pos hb0,List.getElem?_eq_getElem hp]
    have hfirst : ∀ i<8-b,(buf[p].toNat>>>b).testBit i=bit buf (8*p+b+i) := by
      intro i hi
      unfold bit
      have hdiv : (8*p+b+i)/8=p := by omega
      have hmod : (8*p+b+i)%8=b+i := by omega
      rw [hdiv,hmod,List.getD_eq_getElem _ _ hp,Nat.testBit_shiftRight]
    have hlow : ∀ val i,i<8-b → ((val<<<(8-b))%2^32).testBit i=false := by
      intro val i hi
      rw [Nat.testBit_mod_two_pow,Nat.testBit_shiftLeft,decide_eq_false (by omega : ¬i≥8-b)]
      simp
    by_cases hone : (n+b+7)/8=1
    · -- The field ends in the byte it starts in: what the garbage leaves is cut off.
      rw [if_pos hone]
      refine ⟨_,rfl,fun i hi => ?_⟩
      rw [Nat.testBit_or,hlow _ i (by omega),Bool.false_or]
      exact hfirst i (by omega)
    · rw [if_neg hone,readBytes_eq (by omega)]
      refine ⟨_,rfl,fun i hi => ?_⟩
      rw [Nat.testBit_or]
      by_cases hi8 : i<8-b
      · rw [hlow _ i hi8,Bool.false_or]
        exact hfirst i hi8
      · have hzero : (buf[p].toNat>>>b).testBit i=false := by
          rw [Nat.testBit_shiftRight]
          exact testBit_byte _ (by omega)
        rw [hzero,Bool.or_false,Nat.testBit_mod_two_pow,Nat.testBit_shiftLeft,
          decide_eq_true (by omega : i<32),decide_eq_true (by omega : i≥8-b),Bool.true_and,
          Bool.true_and,testBit_joinBytes,bit_window (by omega)]
        have hi' : 8*(p+1)+(i-(8-b))=8*p+b+i := by omega
        rw [hi']

/-- `ubifs_unpack_bits` returns the field at its place. -/
theorem ubifsUnpackBits_spec (garbage : Place → ℕ) (hn : 0< n) (hn' : n≤32)
    (h : k+n≤8*buf.length) :
    ubifsUnpackBits garbage buf (placeOf k) n=some (fieldAt buf k n,placeOf (k+n)) := by
  have hk : 8*(k/8)+k%8=k := Nat.div_add_mod k 8
  have ⟨w,hw,hbits⟩ := unpackWord_spec (garbage (placeOf k)) buf (k/8)
    (Nat.mod_lt k (by decide)) hn hn' (by omega)
  unfold ubifsUnpackBits
  have hplace : (placeOf k).addr=k/8 := rfl
  have hpos : (placeOf k).pos=k%8 := rfl
  rw [if_pos ⟨hn,hn',Nat.mod_lt k (by decide)⟩,hplace,hpos,hw]
  have hval : ((w<<<(32-n))%2^32)>>>(32-n)=fieldAt buf k n := by
    refine (fieldAt_eq ?_ fun i hi => ?_).symm
    · refine Nat.lt_pow_two_of_testBit _ fun i hi => ?_
      rw [testBit_shr_shl hn',decide_eq_false (by omega),Bool.false_and]
    · rw [testBit_shr_shl hn',decide_eq_true hi,Bool.true_and,hbits i hi,hk]
  have hnext : (⟨k/8+(n+k%8)>>>3,(n+k%8)%8⟩ : Place)=placeOf (k+n) := by
    have hshift : (n+k%8)>>>3=(n+k%8)/8 := Nat.shiftRight_eq_div_pow _ 3
    congr 1 <;> omega
  rw [Option.map_some,hval,hnext]

/-! ## Packing -/

/-- The bits from a place to the end of its byte are clear. -/
def Clear (buf : List UInt8) (k : ℕ) : Prop := ∀ i,k%8≠0 → k≤ i → i/8=k/8 → bit buf i=false

theorem length_setByte (h : p<buf.length) :
    ∃ buf',setByte buf p v=some buf'∧buf'.length=buf.length∧
      ∀ j,buf'.getD j 0=if j=p then UInt8.ofNat v else buf.getD j 0 := by
  refine ⟨buf.set p (UInt8.ofNat v),if_pos h,List.length_set,fun j => ?_⟩
  rw [List.getD_eq_getElem?_getD,List.getElem?_set]
  by_cases hj : j=p
  · subst hj
    rw [if_pos rfl,if_pos h,if_pos rfl]
    rfl
  · rw [if_neg (Ne.symm hj),if_neg hj,List.getD_eq_getElem?_getD]

theorem packRest_spec (h : p+n<buf.length) : ∃ buf',packRest n buf p v=some (buf',p+n)∧
    buf'.length=buf.length∧∀ j,buf'.getD j 0=
      if p<j∧j≤p+n then UInt8.ofNat (v>>>(8*(j-p-1))) else buf.getD j 0 := by
  induction n generalizing buf p v with
  | zero => exact ⟨buf,rfl,rfl,fun j => (if_neg (by omega)).symm⟩
  | succ n ih =>
    have ⟨b1,hset,hlen1,hget1⟩ := length_setByte (v := v) (show p+1<buf.length by omega)
    have ⟨b2,hrest,hlen2,hget2⟩ := ih (v := v>>>8) (show p+1+n<b1.length by omega)
    unfold packRest
    rw [hset,Option.bind_some,hrest]
    have hend : p+1+n=p+(n+1) := by omega
    rw [hend]
    refine ⟨b2,rfl,hlen2.trans hlen1,fun j => ?_⟩
    rw [hget2,hget1]
    by_cases hj : j=p+1
    · subst hj
      rw [if_neg (by omega),if_pos rfl,if_pos (by omega)]
      have hzero : p+1-p-1=0 := by omega
      rw [hzero]
      rfl
    · rw [if_neg hj]
      by_cases hin : p<j∧j≤p+(n+1)
      · rw [if_pos (by omega),if_pos hin,←Nat.shiftRight_add]
        have hshift : 8+8*(j-(p+1)-1)=8*(j-p-1) := by omega
        rw [hshift]
      · rw [if_neg (by omega),if_neg hin]

theorem testBit_ofNat {i : ℕ} (hi : i<8) : (UInt8.ofNat v).toNat.testBit i=v.testBit i := by
  have hmod : (UInt8.ofNat v).toNat=v%2^8 := rfl
  rw [hmod,Nat.testBit_mod_two_pow,decide_eq_true hi,Bool.true_and]

/-- The first byte keeps the bits before the place, and the value starts at it. -/
theorem packFirst_spec {b : ℕ} (hb : b<8) (hp : p<buf.length) (hclear : Clear buf (8*p+b)) :
    ∃ buf',packFirst buf p b v=some buf'∧buf'.length=buf.length∧
      (∀ j,j≠p → buf'.getD j 0=buf.getD j 0)∧
      ∀ i<8,bit buf' (8*p+i)=if i<b then bit buf (8*p+i) else v.testBit (i-b) := by
  unfold packFirst
  have hdiv : ∀ i<8,(8*p+i)/8=p := fun i hi => by omega
  have hmod : ∀ i<8,(8*p+i)%8=i := fun i hi => by omega
  by_cases hb0 : b=0
  · subst hb0
    have ⟨buf',hset,hlen,hget⟩ := length_setByte (v := v) hp
    refine ⟨buf',hset,hlen,fun j hj => (hget j).trans (if_neg hj),fun i hi => ?_⟩
    unfold bit
    rw [hdiv i hi,hmod i hi,hget,if_pos rfl,testBit_ofNat hi,if_neg (Nat.not_lt_zero i)]
    rfl
  · rw [if_pos hb0,List.getElem?_eq_getElem hp,Option.bind_some]
    have ⟨buf',hset,hlen,hget⟩ := length_setByte (v := buf[p].toNat|||(v%2^8)<<<b) hp
    refine ⟨buf',hset,hlen,fun j hj => (hget j).trans (if_neg hj),fun i hi => ?_⟩
    have hold : bit buf (8*p+i)=buf[p].toNat.testBit i := by
      unfold bit
      rw [hdiv i hi,hmod i hi,List.getD_eq_getElem _ _ hp]
    have hnew : bit buf' (8*p+i)=(buf[p].toNat.testBit i ||
        (decide (i≥b) && (decide (i-b<8) && v.testBit (i-b)))) := by
      unfold bit
      rw [hdiv i hi,hmod i hi,hget,if_pos rfl,testBit_ofNat hi,Nat.testBit_or,
        Nat.testBit_shiftLeft,Nat.testBit_mod_two_pow]
    rw [hnew]
    by_cases hib : i<b
    · rw [if_pos hib,hold,decide_eq_false (by omega),Bool.false_and,Bool.or_false]
    · have hzero := hclear (8*p+i) (by omega) (by omega) (by omega)
      rw [if_neg hib,←hold,hzero,decide_eq_true (by omega : i≥b),
        decide_eq_true (by omega : i-b<8),Bool.false_or,Bool.true_and,Bool.true_and]

/-- `pack_bits` writes a field that fits its width, changes no bit before it
and no byte after it, and leaves the rest of its last byte clear. -/
theorem packBits_spec (hn : 0< n) (hn' : n≤32) (hv : v<2^n) (hclear : Clear buf k)
    (h : k+n≤8*buf.length) :
    ∃ buf',packBits buf (placeOf k) v n=some (buf',placeOf (k+n))∧buf'.length=buf.length∧
      (∀ i<k,bit buf' i=bit buf i)∧fieldAt buf' k n=v∧Clear buf' (k+n)∧
      ∀ i,8*((k+n+7)/8)≤ i → bit buf' i=bit buf i := by
  have hk : 8*(k/8)+k%8=k := Nat.div_add_mod k 8
  have hb : k%8<8 := Nat.mod_lt k (by decide)
  have hp : k/8<buf.length := by omega
  have ⟨b1,hfirst,hlen1,hother1,hbits1⟩ := packFirst_spec (v := v) hb hp (hk.symm▸hclear)
  have ⟨b2,hrest,hlen2,hget2⟩ := packRest_spec (v := v>>>(8-k%8))
    (show k/8+(n+k%8-1)/8<b1.length by omega)
  have hfits : v>>>n=0 := by
    rw [Nat.shiftRight_eq_div_pow]
    exact Nat.div_eq_of_lt hv
  have hnew : ∀ i,k≤ i → i<8*((k+n+7)/8) → bit b2 i=v.testBit (i-k) := by
    intro i hki hi
    have hi' : 8*(i/8)+i%8=i := Nat.div_add_mod i 8
    have him : i%8<8 := Nat.mod_lt i (by decide)
    by_cases hsame : i/8=k/8
    · have hstay : bit b2 i=bit b1 i := by
        unfold bit
        rw [hget2,if_neg (by omega)]
      have hb1 := hbits1 (i%8) him
      rw [←hsame,hi',if_neg (by omega)] at hb1
      rw [hstay,hb1]
      congr 1
      omega
    · unfold bit
      rw [hget2,if_pos (by omega),testBit_ofNat him,Nat.testBit_shiftRight,Nat.testBit_shiftRight]
      congr 1
      omega
  have hplace : (⟨if (n+k%8)%8=0 then k/8+(n+k%8-1)/8+1 else k/8+(n+k%8-1)/8,(n+k%8)%8⟩ : Place)=
      placeOf (k+n) := by
    split <;> congr 1 <;> omega
  refine ⟨b2,?_,hlen2.trans hlen1,fun i hi => ?_,fieldAt_eq hv fun i hi => ?_,?_,fun i hi => ?_⟩
  · unfold packBits
    dsimp only
    have haddr : (placeOf k).addr=k/8 := rfl
    have hpos : (placeOf k).pos=k%8 := rfl
    rw [haddr,hpos,if_pos ⟨hn,hn',hb,hfits⟩,hfirst,Option.bind_some,hrest,Option.map_some]
    rw [hplace]
  · have hi' : 8*(i/8)+i%8=i := Nat.div_add_mod i 8
    have hstay : bit b2 i=bit b1 i := by
      unfold bit
      rw [hget2,if_neg (by omega)]
    rw [hstay]
    by_cases hsame : i/8=k/8
    · have hb1 := hbits1 (i%8) (Nat.mod_lt i (by decide))
      rw [←hsame,hi',if_pos (by omega)] at hb1
      exact hb1
    · unfold bit
      rw [hother1 _ hsame]
  · rw [hnew (k+i) (Nat.le_add_right k i) (by omega),Nat.add_sub_cancel_left]
  · intro i hpos hki hbyte
    rw [hnew i (by omega) (by omega)]
    refine Nat.testBit_lt_two_pow (hv.trans_le ?_)
    exact Nat.pow_le_pow_right (by decide) (by omega)
  · unfold bit
    rw [hget2,if_neg (by omega),hother1 _ (by omega)]

/-- A row of fields fits their widths. -/
def Fits (fs : List (ℕ×ℕ)) : Prop := ∀ f∈fs,0<f.1∧f.1≤32∧f.2<2^f.1

/-- Values that are packed one after another are a row of fields. -/
theorem packAll_spec {fs : List (ℕ×ℕ)} (hfs : Fits fs) (hclear : Clear buf k)
    (h : k+width fs≤8*buf.length) :
    ∃ buf',packAll fs buf (placeOf k)=some (buf',placeOf (k+width fs))∧
      buf'.length=buf.length∧(∀ i<k,bit buf' i=bit buf i)∧Laid buf' k fs∧
      Clear buf' (k+width fs) := by
  induction fs generalizing buf k with
  | nil => exact ⟨buf,rfl,rfl,fun _ _ => rfl,trivial,hclear⟩
  | cons f fs ih =>
    rcases f with ⟨n,v⟩
    obtain ⟨hf,hrest⟩ := List.forall_mem_cons.mp hfs
    obtain ⟨hn,hn',hv⟩ := hf
    unfold width at h
    obtain ⟨b1,hpack,hlen1,hbefore1,hfield,hclear1,_⟩ :=
      packBits_spec hn hn' hv hclear (by omega)
    obtain ⟨b2,hall,hlen2,hbefore2,hlaid,hclear2⟩ := ih hrest hclear1 (by omega)
    have hw : k+n+width fs=k+width ((n,v)::fs) := by
      have hcons : width ((n,v)::fs)=n+width fs := rfl
      omega
    refine ⟨b2,?_,hlen2.trans hlen1,fun i hi => ?_,⟨?_,hlaid⟩,hw▸hclear2⟩
    · unfold packAll
      rw [hpack,Option.bind_some]
      dsimp only
      rw [hall,hw]
    · exact (hbefore2 i (by omega)).trans (hbefore1 i hi)
    · exact (fieldAt_congr fun i hi => hbefore2 (k+i) (by omega)).trans hfield

/-! ## Nodes -/

/-- The bytes after the check sum, up to a size. -/
theorem afterCrc_congr {sz : ℕ} (hlen : buf'.length=buf.length)
    (h : ∀ i,16≤ i → bit buf' i=bit buf i) : afterCrc buf' sz=afterCrc buf sz := by
  have hdrop : buf'.drop UBIFS_LPT_CRC_BYTES=buf.drop UBIFS_LPT_CRC_BYTES := by
    refine ext_bit (by rw [List.length_drop,List.length_drop,hlen]) fun i hi => ?_
    unfold UBIFS_LPT_CRC_BYTES at hi ⊢
    have hb : ∀ b : List UInt8,bit (b.drop 2) i=bit b (16+i) := by
      intro b
      unfold bit
      have hdiv : (16+i)/8=2+i/8 := by omega
      have hmod : (16+i)%8=i%8 := by omega
      rw [hdiv,hmod,List.getD_eq_getElem?_getD,List.getElem?_drop,List.getD_eq_getElem?_getD]
    rw [hb,hb]
    exact h (16+i) (by omega)
  unfold afterCrc
  rw [hlen,hdrop]

/-- A packed node has its fields after the check sum of the bytes that follow,
and padding bits that are clear. -/
structure Packed (crc16 : List UInt8 → UInt16) (sz : ℕ) (fs : List (ℕ×ℕ)) (buf : List UInt8) :
    Prop where
  length : buf.length=sz
  laid : Laid buf 16 fs
  crc : ∃ bytes,afterCrc buf sz=some bytes∧fieldAt buf 0 16=(crc16 bytes).toNat
  clear : ∀ i,16+width fs≤ i → bit buf i=false

theorem packNode_spec (crc16 : List UInt8 → UInt16) {sz : ℕ} {fs : List (ℕ×ℕ)} (hfs : Fits fs)
    (hlen : buf.length=sz) (hsz : sz=(16+width fs+7)/8) :
    ∃ buf',packNode crc16 buf sz fs=some buf'∧Packed crc16 sz fs buf' := by
  have hstart : (⟨UBIFS_LPT_CRC_BYTES,0⟩ : Place)=placeOf 16 := rfl
  have hzero : (⟨0,0⟩ : Place)=placeOf 0 := rfl
  have ⟨b1,hall,hlen1,_,hlaid,hclear⟩ := packAll_spec hfs
    (fun i hne => absurd rfl hne : Clear buf 16) (by omega)
  have hafter : afterCrc b1 sz=some ((b1.drop UBIFS_LPT_CRC_BYTES).take
      (sz-UBIFS_LPT_CRC_BYTES)) := if_pos (by omega)
  set bytes := (b1.drop UBIFS_LPT_CRC_BYTES).take (sz-UBIFS_LPT_CRC_BYTES)
  have ⟨b2,hcrc,hlen2,_,hfield,_,hbeyond⟩ := packBits_spec
    (by decide : 0<16) (by decide) (crc16 bytes).toNat_lt
    (fun i hne => absurd rfl hne : Clear b1 0) (by omega)
  have hsame : ∀ i,16≤ i → bit b2 i=bit b1 i := fun i hi => hbeyond i hi
  refine ⟨b2,?_,hlen2.trans (hlen1.trans hlen),hlaid.congr fun i _ => hsame (16+i) (by omega),
    ⟨bytes,?_,hfield⟩,fun i hi => ?_⟩
  · unfold packNode
    rw [hstart,hall,Option.bind_some]
    dsimp only
    rw [hafter,Option.bind_some,hzero]
    unfold UBIFS_LPT_CRC_BITS
    rw [hcrc]
    rfl
  · rw [afterCrc_congr hlen2 hsame]
    exact hafter
  · rw [hsame i (by omega)]
    by_cases hend : i<8*buf.length
    · exact hclear i (by omega) hi (by omega)
    · unfold bit
      rw [List.getD_eq_default _ _ (by omega)]
      exact Nat.zero_testBit _

end ArdroneKernel.UbifsLpt
