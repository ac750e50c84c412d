import ArdroneKernel.UbifsLptBits
import Mathlib.Tactic.Ring

/-!
# The nodes of the LEB properties tree survive packing

Every node whose values fit the geometry is read back as it was packed, and a
buffer from which a node is read is what packing that node gives, up to the
padding. The table of the area itself and the saved LEB numbers are read back
only where their values pass the checks of their unpack functions.
-/

namespace ArdroneKernel.UbifsLpt

open BitFields

variable {buf buf' : List UInt8} {k n v w : ℕ}

/-! ## Entries -/

/-- An entry is read inside the buffer and tells its fields, and the fields of
an entry in range are read back. -/
structure Reads {α : Type} (buf : List UInt8) (entry : Place → Option (Except ℤ (α×Place)))
    (w : ℕ) (fields : α → List (ℕ×ℕ)) (ok : α → Prop) (stored : α → α) : Prop where
  reads : ∀ k,k+w≤8*buf.length → (∃ e,entry (placeOf k)=some (.error e))∨
    ∃ x,entry (placeOf k)=some (.ok (x,placeOf (k+w)))∧Laid buf k (fields x)∧Fits (fields x)∧
      width (fields x)=w
  returns : ∀ k x,k+w≤8*buf.length → ok x → Laid buf k (fields x) →
    entry (placeOf k)=some (.ok (stored x,placeOf (k+w)))

theorem fits_append {fs gs : List (ℕ×ℕ)} : Fits (fs++gs) ↔ Fits fs∧Fits gs := List.forall_mem_append

theorem andThen_ok {α β : Type} {x : α} {f : α → Option (Except ℤ β)} :
    andThen (some (.ok x)) f=f x := rfl

theorem andThen_error {α β : Type} {e : ℤ} {f : α → Option (Except ℤ β)} :
    andThen (some (.error e)) f=some (.error e) := rfl

section

variable {α : Type} {entry : Place → Option (Except ℤ (α×Place))} {fields : α → List (ℕ×ℕ)}
  {ok : α → Prop} {stored : α → α}

/-- The loop reads as many entries as it should. -/
theorem Reads.loop_reads (h : Reads buf entry w fields ok stored) :
    ∀ n k,k+n*w≤8*buf.length → (∃ e,unpackLoop entry n (placeOf k)=some (.error e))∨
      ∃ xs,unpackLoop entry n (placeOf k)=some (.ok (xs,placeOf (k+n*w)))∧xs.length=n∧
        Laid buf k (xs.flatMap fields)∧Fits (xs.flatMap fields)∧width (xs.flatMap fields)=n*w := by
  intro n
  induction n with
  | zero =>
    intro k _
    refine .inr ⟨[],?_,rfl,trivial,fun f hf => absurd hf List.not_mem_nil,?_⟩
    · rw [Nat.zero_mul]
      rfl
    · rw [Nat.zero_mul]
      rfl
  | succ n ih =>
    intro k hk
    have hsucc : (n+1)*w=w+n*w := by ring
    unfold unpackLoop
    rcases h.reads k (by omega) with ⟨e,he⟩|⟨x,hx,hlaid,hfits,hw⟩
    · exact .inl ⟨e,by rw [he,andThen_error]⟩
    · rw [hx,andThen_ok]
      dsimp only
      rcases ih (k+w) (by omega) with ⟨e,he⟩|⟨xs,hxs,hlen,hlaid',hfits',hw'⟩
      · exact .inl ⟨e,by rw [he,andThen_error]⟩
      · have hend : k+w+n*w=k+(n+1)*w := by omega
        refine .inr ⟨x::xs,?_,congrArg (·+1) hlen,?_,?_,?_⟩
        · rw [hxs,andThen_ok,hend]
        · rw [List.flatMap_cons,laid_append,hw]
          exact ⟨hlaid,hlaid'⟩
        · rw [List.flatMap_cons,fits_append]
          exact ⟨hfits,hfits'⟩
        · rw [List.flatMap_cons,width_append,hw,hw',hsucc]

/-- The loop reads back entries in range. -/
theorem Reads.loop_returns (h : Reads buf entry w fields ok stored)
    (hw : ∀ x,width (fields x)=w) : ∀ (xs : List α) (k : ℕ),(∀ x∈xs,ok x) → k+xs.length*w≤8*buf.length →
      Laid buf k (xs.flatMap fields) →
      unpackLoop entry xs.length (placeOf k)=
        some (.ok (xs.map stored,placeOf (k+xs.length*w))) := by
  intro xs
  induction xs with
  | nil =>
    intro k _ _ _
    rw [List.length_nil,Nat.zero_mul]
    rfl
  | cons x xs ih =>
    intro k hok hk hlaid
    have ⟨hx,hxs⟩ := List.forall_mem_cons.mp hok
    have hsucc : (x::xs).length*w=w+xs.length*w := by
      rw [List.length_cons]
      ring
    rw [List.flatMap_cons,laid_append,hw] at hlaid
    have hrest := ih (k+w) hxs (by omega) hlaid.2
    have hend : k+w+xs.length*w=k+(x::xs).length*w := by omega
    rw [List.length_cons]
    unfold unpackLoop
    rw [h.returns k x (by omega) hx hlaid.1,andThen_ok]
    dsimp only
    rw [hrest,andThen_ok,hend]
    rfl

end

/-! ## Nodes -/

/-- The number of a node is read inside the buffer. -/
structure ReadsNum (buf : List UInt8) (num : Place → Option (ℕ×Place)) (w : ℕ)
    (fields : ℕ → List (ℕ×ℕ)) (stored : ℕ → ℕ) : Prop where
  width : ∀ m,width (fields m)=w
  reads : ∀ k,k+w≤8*buf.length → ∃ m,num (placeOf k)=some (m,placeOf (k+w))∧
    Laid buf k (fields m)∧Fits (fields m)
  returns : ∀ k m,k+w≤8*buf.length → Laid buf k (fields m) →
    num (placeOf k)=some (stored m,placeOf (k+w))

theorem readsNum_none (buf : List UInt8) :
    ReadsNum buf (fun place => some (0,place)) 0 (fun _ => []) fun _ => 0 :=
  ⟨fun _ => rfl,fun _ _ => ⟨0,rfl,trivial,fun _ hf => absurd hf List.not_mem_nil⟩,
    fun _ _ _ _ => rfl⟩

theorem readsNum_big (c : Info) (garbage : Place → ℕ) (buf : List UInt8) (old : ℕ)
    (hpos : 0<c.pcntBits) (hle : c.pcntBits≤32) :
    ReadsNum buf (unpackNum c garbage buf old) c.numBits (numFields c)
      fun m => if c.bigLpt then m else old := by
  unfold unpackNum Info.numBits numFields
  cases c.bigLpt with
  | false => exact ⟨fun _ => rfl,
      fun _ _ => ⟨old,rfl,trivial,fun _ hf => absurd hf List.not_mem_nil⟩,fun _ _ _ _ => rfl⟩
  | true =>
    refine ⟨fun _ => rfl,fun k hk => ⟨fieldAt buf k c.pcntBits,
      ubifsUnpackBits_spec garbage hpos hle hk,⟨rfl,trivial⟩,?_⟩,fun k m hk hlaid => ?_⟩
    · intro f hf
      rw [List.mem_singleton.mp hf]
      exact ⟨hpos,hle,fieldAt_lt⟩
    · have hspec := ubifsUnpackBits_spec garbage hpos hle hk
      rw [hlaid.1] at hspec
      exact hspec

theorem checkLptCrc_reads (crc16 : List UInt8 → UInt16) (garbage : Place → ℕ) {sz : ℕ}
    (hlen : buf.length=sz) (hsz : 2≤ sz) : ∃ bytes,afterCrc buf sz=some bytes∧
    checkLptCrc crc16 garbage buf sz=some (if fieldAt buf 0 16≠(crc16 bytes).toNat then
      .error (-EINVAL) else .ok ()) := by
  have hzero : (⟨0,0⟩ : Place)=placeOf 0 := rfl
  have hafter : afterCrc buf sz=some ((buf.drop UBIFS_LPT_CRC_BYTES).take
      (sz-UBIFS_LPT_CRC_BYTES)) := if_pos hlen.ge
  refine ⟨_,hafter,?_⟩
  unfold checkLptCrc UBIFS_LPT_CRC_BITS
  rw [hzero,ubifsUnpackBits_spec garbage (by decide) (by decide) (by omega),Option.bind_some]
  rw [hafter]
  rfl

section

variable {α : Type} {entry : Place → Option (Except ℤ (α×Place))} {fields : α → List (ℕ×ℕ)}
  {ok : α → Prop} {stored : α → α} {num : Place → Option (ℕ×Place)} {wn type sz cnt : ℕ}
  {numF : ℕ → List (ℕ×ℕ)} {storedNum : ℕ → ℕ}

/-- What is packed for a node. -/
def nodeFields (type : ℕ) (numF : ℕ → List (ℕ×ℕ)) (fields : α → List (ℕ×ℕ)) (m : ℕ)
    (xs : List α) : List (ℕ×ℕ) := (UBIFS_LPT_TYPE_BITS,type)::numF m++xs.flatMap fields

/-- A packed node is read back. -/
theorem unpackNode_returns (crc16 : List UInt8 → UInt16) (garbage : Place → ℕ)
    (hnum : ReadsNum buf num wn numF storedNum) (h : Reads buf entry w fields ok stored)
    (hw : ∀ x,width (fields x)=w) {m : ℕ} {xs : List α} (hxs : ∀ x∈xs,ok x)
    (hcnt : xs.length=cnt) (hsz : 20+wn+cnt*w≤8*sz)
    (hp : Packed crc16 sz (nodeFields type numF fields m xs) buf) :
    unpackNode crc16 garbage buf type sz num cnt entry=some (.ok (storedNum m,xs.map stored)) := by
  have hlen := hp.length
  have hlaid : Laid buf 16 ((UBIFS_LPT_TYPE_BITS,type)::numF m++xs.flatMap fields) := hp.laid
  rw [List.cons_append] at hlaid
  have ⟨htype,hrest⟩ := hlaid
  have htype : fieldAt buf 16 4=type := htype
  rw [laid_append,hnum.width] at hrest
  have h20 : 16+UBIFS_LPT_TYPE_BITS=20 := rfl
  have hstart : (⟨UBIFS_LPT_CRC_BYTES,0⟩ : Place)=placeOf 16 := rfl
  have hcheck : checkLptType garbage buf type (placeOf 16)=some (.ok (placeOf 20)) := by
    unfold checkLptType UBIFS_LPT_TYPE_BITS
    rw [ubifsUnpackBits_spec garbage (by decide) (by decide) (by omega),Option.map_some]
    dsimp only
    rw [if_neg (not_not.mpr htype)]
  have ⟨bytes,hafter,hcrc⟩ := checkLptCrc_reads crc16 garbage hlen (by omega)
  have ⟨bytes',hafter',hfield⟩ := hp.crc
  rw [hafter] at hafter'
  cases hafter'
  rw [if_neg (not_not.mpr hfield)] at hcrc
  unfold unpackNode
  rw [hstart,hcheck,andThen_ok,hnum.returns 20 m (by omega) hrest.1,Option.bind_some]
  dsimp only
  rw [←hcnt,h.loop_returns hw xs (20+wn) hxs (by rw [hcnt,hlen]; omega) hrest.2,andThen_ok]
  rw [hcrc,andThen_ok]

/-- Whatever a buffer holds is read inside it, and a node that is read has the
fields of the buffer. -/
theorem unpackNode_reads (crc16 : List UInt8 → UInt16) (garbage : Place → ℕ)
    (hnum : ReadsNum buf num wn numF storedNum) (h : Reads buf entry w fields ok stored)
    (htype : type<2^UBIFS_LPT_TYPE_BITS) (hlen : buf.length=sz) (hsz : 20+wn+cnt*w≤8*sz) :
    (∃ e,unpackNode crc16 garbage buf type sz num cnt entry=some (.error e))∨
    ∃ m xs,unpackNode crc16 garbage buf type sz num cnt entry=some (.ok (m,xs))∧
      xs.length=cnt∧Laid buf 16 (nodeFields type numF fields m xs)∧
      Fits (nodeFields type numF fields m xs)∧
      width (nodeFields type numF fields m xs)=4+wn+cnt*w∧
      ∃ bytes,afterCrc buf sz=some bytes∧fieldAt buf 0 16=(crc16 bytes).toNat := by
  have hstart : (⟨UBIFS_LPT_CRC_BYTES,0⟩ : Place)=placeOf 16 := rfl
  have hcheck : checkLptType garbage buf type (placeOf 16)=
      some (if fieldAt buf 16 4≠type then .error (-EINVAL) else .ok (placeOf 20)) := by
    unfold checkLptType UBIFS_LPT_TYPE_BITS
    rw [ubifsUnpackBits_spec garbage (by decide) (by decide) (by omega)]
    rfl
  unfold unpackNode
  rw [hstart,hcheck]
  by_cases ht : fieldAt buf 16 4=type
  swap
  · rw [if_pos ht,andThen_error]
    exact .inl ⟨_,rfl⟩
  rw [if_neg (not_not.mpr ht),andThen_ok]
  have ⟨m,hm,hlaidm,hfitsm⟩ := hnum.reads 20 (by omega)
  rw [hm,Option.bind_some]
  dsimp only
  rcases h.loop_reads cnt (20+wn) (by omega) with ⟨e,he⟩|⟨xs,hxs,hcnt,hlaid,hfits,hwidth⟩
  · rw [he,andThen_error]
    exact .inl ⟨e,rfl⟩
  rw [hxs,andThen_ok]
  have ⟨bytes,hafter,hcrc⟩ := checkLptCrc_reads crc16 garbage hlen (by omega)
  rw [hcrc]
  by_cases hfield : fieldAt buf 0 16=(crc16 bytes).toNat
  swap
  · rw [if_pos hfield,andThen_error]
    exact .inl ⟨_,rfl⟩
  rw [if_neg (not_not.mpr hfield),andThen_ok]
  refine .inr ⟨m,xs,rfl,hcnt,?_,?_,?_,bytes,hafter,hfield⟩
  · unfold nodeFields
    refine ⟨ht,laid_append.mpr ⟨hlaidm,?_⟩⟩
    rw [hnum.width]
    exact hlaid
  · unfold nodeFields
    have hbits : 0<UBIFS_LPT_TYPE_BITS∧UBIFS_LPT_TYPE_BITS≤32 := by decide
    exact List.forall_mem_cons.mpr ⟨⟨hbits.1,hbits.2,htype⟩,fits_append.mpr ⟨hfitsm,hfits⟩⟩
  · unfold nodeFields
    rw [List.cons_append]
    have hcons : width ((UBIFS_LPT_TYPE_BITS,type)::(numF m++xs.flatMap fields))=
      4+width (numF m++xs.flatMap fields) := rfl
    rw [hcons,width_append,hnum.width,hwidth,Nat.add_assoc]

end

/-! ## Geometry -/

/-- What the callers of `do_calc_lpt_geom` have checked, with at least one bit
for the number of a node. -/
structure Valid (c : Info) : Prop where
  lebSize : UBIFS_MIN_LEB_SZ≤c.lebSize∧c.lebSize<2^31
  lptLebs : UBIFS_MIN_LPT_LEBS≤c.lptLebs∧c.lptLebs<2^31
  lebCnt : c.mainLebs≤c.lebCnt∧c.lebCnt≤c.maxLebCnt∧c.maxLebCnt<2^31
  lptFirst : 0<c.lptFirst
  pcntBits : 1≤c.pcntBits

theorem fls_le {n b : ℕ} (h : n<2^b) : fls n≤b := Nat.size_le.mpr h

theorem lt_fls (n : ℕ) : n<2^fls n := Nat.lt_size_self n

theorem fls_pos {n : ℕ} (h : 0< n) : 0<fls n := Nat.size_pos.mpr h

variable {c : Info}

theorem Valid.spaceBits (h : Valid c) : 0<c.spaceBits∧c.spaceBits≤32∧
    ∀ x≤c.lebSize,x>>>3<2^c.spaceBits := by
  have ⟨hmin,hmax⟩ := h.lebSize
  unfold UBIFS_MIN_LEB_SZ at hmin
  have hle := fls_le hmax
  have hge : 3<fls c.lebSize := by
    by_contra hlt
    have := (lt_fls c.lebSize).trans_le (Nat.pow_le_pow_right (by decide) (not_lt.mp hlt))
    omega
  unfold Info.spaceBits
  refine ⟨by omega,by omega,fun x hx => ?_⟩
  have hlt := lt_fls c.lebSize
  have hpow : 2^fls c.lebSize=2^(fls c.lebSize-3)*2^3 := by
    rw [←pow_add]
    congr 1
    omega
  rw [hpow] at hlt
  rw [Nat.shiftRight_eq_div_pow]
  exact Nat.div_lt_of_lt_mul ((hx.trans_lt hlt).trans_eq (Nat.mul_comm _ _))

theorem Valid.pcnt (h : Valid c) : c.pcntBits≤32 := by
  have hmax := h.lebCnt.2.2
  refine (fls_le (b := 31) ?_).trans (by decide)
  unfold divRoundUp UBIFS_LPT_FANOUT
  omega

theorem Valid.lptLnum (h : Valid c) : 0<c.lptLnumBits∧c.lptLnumBits≤32∧
    ∀ x≤c.lptLebs,x<2^c.lptLnumBits := by
  have ⟨hmin,hmax⟩ := h.lptLebs
  unfold UBIFS_MIN_LPT_LEBS at hmin
  exact ⟨fls_pos (by omega),(fls_le hmax).trans (by decide),fun x hx => hx.trans_lt (lt_fls _)⟩

theorem Valid.lptOffs (h : Valid c) : 0<c.lptOffsBits∧c.lptOffsBits≤32∧
    ∀ x<c.lebSize,x<2^c.lptOffsBits := by
  have ⟨hmin,hmax⟩ := h.lebSize
  unfold UBIFS_MIN_LEB_SZ at hmin
  refine ⟨fls_pos (by omega),(fls_le (b := 31) (by omega)).trans (by decide),fun x hx => ?_⟩
  exact (Nat.le_sub_one_of_lt hx).trans_lt (lt_fls _)

theorem Valid.lptSpc (h : Valid c) : 0<c.lptSpcBits∧c.lptSpcBits≤31∧
    ∀ x≤c.lebSize,x<2^c.lptSpcBits := by
  have ⟨hmin,hmax⟩ := h.lebSize
  unfold UBIFS_MIN_LEB_SZ at hmin
  exact ⟨fls_pos (by omega),fls_le hmax,fun x hx => hx.trans_lt (lt_fls _)⟩

theorem Valid.lnum (h : Valid c) : 0<c.lnumBits∧c.lnumBits≤32∧
    ∀ x<c.maxLebCnt,x<2^c.lnumBits := by
  have hmax := h.lebCnt.2.2
  have hpos : 1<c.maxLebCnt := by
    by_contra hle
    have hzero : divRoundUp c.maxLebCnt UBIFS_LPT_FANOUT-1=0 := by
      unfold divRoundUp UBIFS_LPT_FANOUT
      omega
    have hbits := h.pcntBits
    unfold Info.pcntBits at hbits
    rw [hzero] at hbits
    cases hbits
  refine ⟨fls_pos (by omega),(fls_le (b := 31) (by omega)).trans (by decide),fun x hx => ?_⟩
  exact (Nat.le_sub_one_of_lt hx).trans_lt (lt_fls _)

end ArdroneKernel.UbifsLpt
