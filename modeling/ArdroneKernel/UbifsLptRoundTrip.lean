import ArdroneKernel.UbifsLptNums

/-!
# Packed nodes are read back

Pnodes and nnodes in range are read back as they were packed. The table of the
area itself and the saved LEB numbers are read back when their values also pass
the checks of their unpack functions. Whatever a buffer holds, it is read
inside its bounds, and what is read packs into the same fields.
-/

namespace ArdroneKernel.UbifsLpt

open BitFields UbifsLprops

variable {c : Info} {crc16 : List UInt8 → UInt16} {garbage : Place → ℕ} {buf : List UInt8}
  {k n : ℕ}

/-! ## Entries of each kind -/

theorem unpackBits_laid (garbage : Place → ℕ) {v : ℕ} {fs : List (ℕ×ℕ)} (hn : 0< n) (hn' : n≤32)
    (h : k+n≤8*buf.length) (hlaid : Laid buf k ((n,v)::fs)) :
    ubifsUnpackBits garbage buf (placeOf k) n=some (v,placeOf (k+n))∧Laid buf (k+n) fs := by
  have hspec := ubifsUnpackBits_spec garbage hn hn' h
  rw [hlaid.1] at hspec
  exact ⟨hspec,hlaid.2⟩

/-- The properties of a LEB that a pnode tells. -/
def storedLprops (c : Info) (lprops : Lprops) : Lprops :=
  let lprops : Lprops := { lprops with flags := { index := lprops.flags.index } }
  { lprops with flags := { lprops.flags with cat := ubifsCategorizeLprops c.toLimits lprops } }

theorem shl_shr_three (x : ℕ) : x<<<3>>>3=x := by
  omega

theorem shr_shl_three {x : ℕ} (hx : x%8=0) : x>>>3<<<3=x := by
  omega

theorem toNat_ne_zero {v : ℕ} (hv : v<2) : (decide (v≠0)).toNat=v := by
  rcases Nat.le_one_iff_eq_zero_or_eq_one.mp (Nat.le_of_lt_succ hv) with rfl|rfl
  · rfl
  · rfl

theorem toNat_ne_zero' (b : Bool) : decide (b.toNat≠0)=b := by cases b <;> rfl

theorem reads_lprops (h : Valid c) (garbage : Place → ℕ) (buf : List UInt8) :
    Reads buf (unpackLprops c garbage buf) (c.spaceBits*2+1) (lpropsFields c)
      (fun l => l.free%8=0∧l.dirty%8=0) (storedLprops c) := by
  have ⟨hpos,hle,_⟩ := h.spaceBits
  have hend : ∀ k,k+c.spaceBits+c.spaceBits+1=k+(c.spaceBits*2+1) := fun k => by omega
  constructor
  · intro k hk
    right
    unfold unpackLprops
    rw [ubifsUnpackBits_spec garbage hpos hle (by omega),Option.bind_some]
    dsimp only
    rw [ubifsUnpackBits_spec garbage hpos hle (by omega),Option.bind_some]
    rw [ubifsUnpackBits_spec garbage (by decide) (by decide) (by omega),Option.map_some,hend]
    have hindex : fieldAt buf (k+c.spaceBits+c.spaceBits) 1<2^1 := fieldAt_lt
    refine ⟨_,rfl,?_,?_,?_⟩
    · unfold lpropsFields
      rw [shl_shr_three,shl_shr_three]
      exact ⟨rfl,rfl,(toNat_ne_zero hindex).symm,trivial⟩
    · unfold lpropsFields
      rw [shl_shr_three,shl_shr_three]
      intro f hf
      simp only [List.mem_cons,List.not_mem_nil,or_false] at hf
      rcases hf with rfl|rfl|rfl
      · exact ⟨hpos,hle,fieldAt_lt⟩
      · exact ⟨hpos,hle,fieldAt_lt⟩
      · exact ⟨Nat.one_pos,Nat.le_add_left 1 31,(toNat_ne_zero hindex).trans_lt hindex⟩
    · have hwidth : ∀ l,width (lpropsFields c l)=c.spaceBits+(c.spaceBits+(1+0)) := fun l => rfl
      rw [hwidth]
      omega
  · intro k l hk ⟨hfree,hdirty⟩ hlaid
    have ⟨hf,hlaid⟩ := unpackBits_laid garbage hpos hle (by omega) hlaid
    have ⟨hd,hlaid⟩ := unpackBits_laid garbage hpos hle (by omega) hlaid
    have ⟨hi,_⟩ := unpackBits_laid garbage (by decide) (by decide) (by omega) hlaid
    unfold unpackLprops
    rw [hf,Option.bind_some]
    dsimp only
    rw [hd,Option.bind_some]
    rw [hi,Option.map_some,hend,shr_shl_three hfree,shr_shl_three hdirty,toNat_ne_zero']
    rfl

theorem reads_nbranch (h : Valid c) (garbage : Place → ℕ) (buf : List UInt8) :
    Reads buf (unpackNbranch c garbage buf) (c.lptLnumBits+c.lptOffsBits) (nbranchFields c)
      (fun b => b.lnum=0∨c.lptFirst≤b.lnum∧b.lnum≤c.lptLast) id := by
  have ⟨hpos,hle,_⟩ := h.lptLnum
  have ⟨hpos',hle',_⟩ := h.lptOffs
  have hend : ∀ k,k+c.lptLnumBits+c.lptOffsBits=k+(c.lptLnumBits+c.lptOffsBits) :=
    fun k => Nat.add_assoc _ _ _
  have hlast : c.lptLast+1=c.lptLebs+c.lptFirst := by
    have hmin := h.lptLebs.1
    unfold UBIFS_MIN_LPT_LEBS at hmin
    unfold Info.lptLast
    omega
  have hfirst := h.lptFirst
  constructor
  · intro k hk
    right
    unfold unpackNbranch
    rw [ubifsUnpackBits_spec garbage hpos hle (by omega),Option.bind_some]
    dsimp only
    rw [ubifsUnpackBits_spec garbage hpos' hle' (by omega),Option.map_some,hend]
    -- An absent branch is told by the number after the last one.
    have hlnum : ∀ v offs,nbranchFields c ⟨if v+c.lptFirst=c.lptLast+1 then 0 else v+c.lptFirst,offs⟩=
        [(c.lptLnumBits,v),(c.lptOffsBits,offs)] := by
      intro v offs
      unfold nbranchFields
      dsimp only
      by_cases hv : v+c.lptFirst=c.lptLast+1
      · rw [if_pos hv,if_pos rfl,←hv,Nat.add_sub_cancel]
      · rw [if_neg hv,if_neg (by omega),Nat.add_sub_cancel]
    refine ⟨_,rfl,?_,?_,rfl⟩
    · rw [hlnum]
      exact ⟨rfl,rfl,trivial⟩
    · rw [hlnum]
      intro f hf
      simp only [List.mem_cons,List.not_mem_nil,or_false] at hf
      rcases hf with rfl|rfl
      · exact ⟨hpos,hle,fieldAt_lt⟩
      · exact ⟨hpos',hle',fieldAt_lt⟩
  · intro k b hk hok hlaid
    have ⟨hl,hlaid⟩ := unpackBits_laid garbage hpos hle (by omega) hlaid
    have ⟨ho,_⟩ := unpackBits_laid garbage hpos' hle' (by omega) hlaid
    unfold unpackNbranch
    rw [hl,Option.bind_some]
    dsimp only
    rw [ho,Option.map_some,hend]
    have hback : (if (if b.lnum=0 then c.lptLast+1 else b.lnum)-c.lptFirst+c.lptFirst=c.lptLast+1
        then 0 else (if b.lnum=0 then c.lptLast+1 else b.lnum)-c.lptFirst+c.lptFirst)=b.lnum := by
      by_cases hzero : b.lnum=0
      · rw [if_pos hzero,if_pos (by omega),hzero]
      · rw [if_neg hzero,if_neg (by omega)]
        omega
    rw [hback]
    rfl

theorem int_eq {x : ℕ} (hx : x<2^31) : int x=x := by
  unfold int
  rw [Int.bmod_eq_of_le (by omega) (by omega)]

theorem reads_ltab (h : Valid c) (garbage : Place → ℕ) (buf : List UInt8) :
    Reads buf (unpackLtabEntry c garbage buf) (c.lptSpcBits+c.lptSpcBits) (ltabFields c)
      (fun l => l.free+l.dirty≤c.lebSize) fun l => ⟨l.free,l.dirty,false,false⟩ := by
  have ⟨hpos,hle,_⟩ := h.lptSpc
  have hle' : c.lptSpcBits≤32 := hle.trans (by decide)
  have hend : ∀ k,k+c.lptSpcBits+c.lptSpcBits=k+(c.lptSpcBits+c.lptSpcBits) :=
    fun k => Nat.add_assoc _ _ _
  constructor
  · intro k hk
    unfold unpackLtabEntry
    rw [ubifsUnpackBits_spec garbage hpos hle' (by omega),Option.bind_some]
    dsimp only
    rw [ubifsUnpackBits_spec garbage hpos hle' (by omega),Option.map_some,hend]
    split
    · exact .inl ⟨_,rfl⟩
    · refine .inr ⟨_,rfl,⟨rfl,rfl,trivial⟩,?_,rfl⟩
      intro f hf
      simp only [ltabFields,List.mem_cons,List.not_mem_nil,or_false] at hf
      rcases hf with rfl|rfl
      · exact ⟨hpos,hle',fieldAt_lt⟩
      · exact ⟨hpos,hle',fieldAt_lt⟩
  · intro k l hk hok hlaid
    have ⟨hf,hlaid⟩ := unpackBits_laid garbage hpos hle' (by omega) hlaid
    have ⟨hd,_⟩ := unpackBits_laid garbage hpos hle' (by omega) hlaid
    have hmax := h.lebSize.2
    unfold unpackLtabEntry
    rw [hf,Option.bind_some]
    dsimp only
    rw [hd,Option.map_some,hend,int_eq (by omega),int_eq (by omega),int_eq (by omega)]
    rw [if_neg (by omega)]

theorem reads_lsave (h : Valid c) (garbage : Place → ℕ) (buf : List UInt8) :
    Reads buf (unpackLsaveEntry c garbage buf) c.lnumBits (fun lnum => [(c.lnumBits,lnum)])
      (fun lnum => c.mainFirst≤lnum∧lnum<c.lebCnt) id := by
  have ⟨hpos,hle,_⟩ := h.lnum
  constructor
  · intro k hk
    unfold unpackLsaveEntry
    rw [ubifsUnpackBits_spec garbage hpos hle hk,Option.map_some]
    dsimp only
    split
    · exact .inl ⟨_,rfl⟩
    · refine .inr ⟨_,rfl,⟨rfl,trivial⟩,?_,rfl⟩
      intro f hf
      rw [List.mem_singleton.mp hf]
      exact ⟨hpos,hle,fieldAt_lt⟩
  · intro k lnum hk ⟨hfirst,hcnt⟩ hlaid
    have ⟨hl,_⟩ := unpackBits_laid garbage hpos hle hk hlaid
    unfold unpackLsaveEntry
    rw [hl,Option.map_some]
    dsimp only
    rw [if_neg (by omega)]
    rfl

/-! ## Nodes of each kind -/

/-- Whatever a buffer of the size held before, packing a node into it and
unpacking it gives the values of the node. -/
def RoundTrips {α β : Type} (sz : ℕ) (pack : List UInt8 → α → Option (List UInt8))
    (unpack : List UInt8 → Option (Except ℤ β)) (x : α) (stored : β) : Prop :=
  ∀ buf : List UInt8,buf.length=sz → ∃ buf',pack buf x=some buf'∧buf'.length=sz∧
    unpack buf'=some (.ok stored)

/-- Whatever a buffer of the size holds, unpacking reads only inside it, and
what it returns packs into the same bits after the check sum and before the
padding, and into the same buffer if its padding is clear. -/
def Reproduces {α : Type} (sz bits : ℕ) (pack : List UInt8 → α → Option (List UInt8))
    (unpack : List UInt8 → Option (Except ℤ α)) : Prop :=
  ∀ buf : List UInt8,buf.length=sz → (∃ e,unpack buf=some (.error e))∨
    ∃ x,unpack buf=some (.ok x)∧∀ old : List UInt8,old.length=sz →
      ∃ buf',pack old x=some buf'∧buf'.length=sz∧
        (∀ i,16≤ i → i<bits → bit buf' i=bit buf i)∧
        ((∀ i,bits≤ i → bit buf i=false) → buf'=buf)

/-- A buffer from which fields are read is what packing them gives. -/
theorem repacked {sz : ℕ} {fs : List (ℕ×ℕ)} (hlen : buf.length=sz) (hfits : Fits fs)
    (hlaid : Laid buf 16 fs) (hsz : sz=(16+width fs+7)/8)
    (hcrc : ∃ bytes,afterCrc buf sz=some bytes∧fieldAt buf 0 16=(crc16 bytes).toNat)
    {old : List UInt8} (hold : old.length=sz) :
    ∃ buf',packNode crc16 old sz fs=some buf'∧buf'.length=sz∧
      (∀ i,16≤ i → i<16+width fs → bit buf' i=bit buf i)∧
      ((∀ i,16+width fs≤ i → bit buf i=false) → buf'=buf) := by
  have ⟨buf',hpack,hpacked⟩ := packNode_spec crc16 hfits hold hsz
  have hsame : ∀ i,16≤ i → i<16+width fs → bit buf' i=bit buf i := by
    intro i hi hw
    have hbit := hlaid.bits hpacked.laid (i-16) (by omega)
    rwa [Nat.add_sub_cancel' hi] at hbit
  refine ⟨buf',hpack,hpacked.length,hsame,fun hclear => ?_⟩
  have hafter : ∀ i,16≤ i → bit buf' i=bit buf i := by
    intro i hi
    by_cases hw : i<16+width fs
    · exact hsame i hi hw
    · rw [hpacked.clear i (not_lt.mp hw),hclear i (not_lt.mp hw)]
  have hlen' : buf'.length=buf.length := hpacked.length.trans hlen.symm
  -- The bytes after the check sum agree, so the check sums do.
  have ⟨bytes,hbytes,hfield⟩ := hcrc
  have ⟨bytes',hbytes',hfield'⟩ := hpacked.crc
  rw [afterCrc_congr hlen' hafter,hbytes] at hbytes'
  cases hbytes'
  refine ext_bit hlen' fun i hi => ?_
  by_cases hi16 : i<16
  · have hb : bit buf' (0+i)=bit buf (0+i) := by
      rw [bit_of_fieldAt hi16,bit_of_fieldAt hi16,hfield,hfield']
    rwa [Nat.zero_add] at hb
  · exact hafter i (not_lt.mp hi16)

section

variable {α β : Type} {entry : List UInt8 → Place → Option (Except ℤ (α×Place))}
  {fields : α → List (ℕ×ℕ)} {ok : α → Prop} {stored : α → α}
  {num : List UInt8 → Place → Option (ℕ×Place)} {w wn type sz cnt : ℕ}
  {numF : ℕ → List (ℕ×ℕ)} {storedNum : ℕ → ℕ}

/-- What an unpack function makes of the number and the entries. -/
def unpacked (crc16 : List UInt8 → UInt16) (garbage : Place → ℕ) (type sz cnt : ℕ)
    (num : List UInt8 → Place → Option (ℕ×Place))
    (entry : List UInt8 → Place → Option (Except ℤ (α×Place))) (make : ℕ → List α → β)
    (buf : List UInt8) : Option (Except ℤ β) :=
  andThen (unpackNode crc16 garbage buf type sz (num buf) cnt (entry buf)) fun (m,xs) =>
    some (.ok (make m xs))

theorem node_roundTrips (make : ℕ → List α → β)
    (hnum : ∀ buf,ReadsNum buf (num buf) wn numF storedNum)
    (h : ∀ buf,Reads buf (entry buf) w fields ok stored) (hw : ∀ x,width (fields x)=w)
    {m : ℕ} {xs : List α} (hxs : ∀ x∈xs,ok x) (hcnt : xs.length=cnt)
    (hfits : Fits (nodeFields type numF fields m xs)) (hsz : sz=(20+wn+cnt*w+7)/8)
    {pack : List UInt8 → β → Option (List UInt8)} {x : β}
    (hpack : ∀ buf,pack buf x=packNode crc16 buf sz (nodeFields type numF fields m xs)) :
    RoundTrips sz pack (unpacked crc16 garbage type sz cnt num entry make) x
      (make (storedNum m) (xs.map stored)) := by
  intro buf hlen
  have hwidth : width (nodeFields type numF fields m xs)=4+wn+cnt*w := by
    have hflat : ∀ ys : List α,width (ys.flatMap fields)=ys.length*w := by
      intro ys
      induction ys with
      | nil => exact (Nat.zero_mul w).symm
      | cons y ys ih =>
        rw [List.flatMap_cons,width_append,hw,ih,List.length_cons]
        ring
    have hcons : width (nodeFields type numF fields m xs)=
        4+width (numF m++xs.flatMap fields) := rfl
    rw [hcons,width_append,(hnum buf).width,hflat,hcnt,Nat.add_assoc]
  have ⟨buf',hp,hpacked⟩ := packNode_spec crc16 hfits hlen (by rw [hwidth,hsz]; congr 1; omega)
  refine ⟨buf',(hpack buf).trans hp,hpacked.length,?_⟩
  unfold unpacked
  rw [unpackNode_returns crc16 garbage (hnum buf') (h buf') hw hxs hcnt (by omega) hpacked,
    andThen_ok]

theorem node_reproduces (make : ℕ → List α → β)
    (hnum : ∀ buf,ReadsNum buf (num buf) wn numF storedNum)
    (h : ∀ buf,Reads buf (entry buf) w fields ok stored) (htype : type<2^UBIFS_LPT_TYPE_BITS)
    (hsz : sz=(20+wn+cnt*w+7)/8) {pack : List UInt8 → β → Option (List UInt8)}
    (hpack : ∀ buf m xs,pack buf (make m xs)=
      packNode crc16 buf sz (nodeFields type numF fields m xs)) :
    Reproduces sz (20+wn+cnt*w) pack (unpacked crc16 garbage type sz cnt num entry make) := by
  intro buf hlen
  have hroom : 20+wn+cnt*w≤8*sz := by omega
  unfold unpacked
  rcases unpackNode_reads crc16 garbage (hnum buf) (h buf) htype hlen hroom with
    ⟨e,he⟩|⟨m,xs,hread,_,hlaid,hfits,hwidth,hcrc⟩
  · exact .inl ⟨e,by rw [he,andThen_error]⟩
  · refine .inr ⟨make m xs,by rw [hread,andThen_ok],fun old hold => ?_⟩
    have hend : 16+width (nodeFields type numF fields m xs)=20+wn+cnt*w := by omega
    have hback := repacked hlen hfits hlaid (by rw [hend]; exact hsz) hcrc hold
    rw [hend] at hback
    rw [hpack]
    exact hback

end

/-! ## Values in range -/

/-- A pnode of the tree. -/
structure PnodeOk (c : Info) (pnode : Pnode) : Prop where
  num : PnodeNum c pnode.num
  length : pnode.lprops.length=UBIFS_LPT_FANOUT
  lprops : ∀ l∈pnode.lprops,(l.free≤c.lebSize∧l.free%8=0)∧l.dirty≤c.lebSize∧l.dirty%8=0

/-- A nnode of the tree, with branches inside the area or absent. -/
structure NnodeOk (c : Info) (nnode : Nnode) : Prop where
  num : NnodeNum c nnode.num
  length : nnode.nbranch.length=UBIFS_LPT_FANOUT
  nbranch : ∀ b∈nnode.nbranch,(b.lnum=0∨c.lptFirst≤b.lnum∧b.lnum≤c.lptLast)∧b.offs<c.lebSize

/-- A table of the area, with no entry that has more space than a LEB. -/
structure LtabOk (c : Info) (ltab : List LptLprops) : Prop where
  length : ltab.length=c.lptLebs
  entries : ∀ l∈ltab,l.free+l.dirty≤c.lebSize

/-- Saved LEB numbers, all of the main area. -/
structure LsaveOk (c : Info) (lsave : List ℕ) : Prop where
  length : lsave.length=c.lsaveCnt
  lnums : ∀ lnum∈lsave,c.mainFirst≤lnum∧lnum<c.lebCnt

theorem fits_flatMap {α : Type} {fields : α → List (ℕ×ℕ)} {xs : List α}
    (h : ∀ x∈xs,Fits (fields x)) : Fits (xs.flatMap fields) := by
  intro f hf
  have ⟨x,hx,hfx⟩ := List.mem_flatMap.mp hf
  exact h x hx f hfx

theorem fits_node {α : Type} {fields : α → List (ℕ×ℕ)} {xs : List α} {numF : ℕ → List (ℕ×ℕ)}
    {type m : ℕ} (htype : type<2^UBIFS_LPT_TYPE_BITS) (hnum : Fits (numF m))
    (h : ∀ x∈xs,Fits (fields x)) : Fits (nodeFields type numF fields m xs) := by
  have hbits : 0<UBIFS_LPT_TYPE_BITS∧UBIFS_LPT_TYPE_BITS≤32 := by decide
  unfold nodeFields
  exact List.forall_mem_cons.mpr ⟨⟨hbits.1,hbits.2,htype⟩,fits_append.mpr ⟨hnum,fits_flatMap h⟩⟩

theorem fits_num (h : Valid c) {m : ℕ} (hm : m<2^c.pcntBits) : Fits (numFields c m) := by
  unfold numFields
  split
  · intro f hf
    rw [List.mem_singleton.mp hf]
    exact ⟨h.pcntBits,h.pcnt,hm⟩
  · exact fun f hf => absurd hf List.not_mem_nil

theorem fits_lprops (h : Valid c) {l : Lprops} (hfree : l.free≤c.lebSize)
    (hdirty : l.dirty≤c.lebSize) : Fits (lpropsFields c l) := by
  have ⟨hpos,hle,hroom⟩ := h.spaceBits
  intro f hf
  simp only [lpropsFields,List.mem_cons,List.not_mem_nil,or_false] at hf
  rcases hf with rfl|rfl|rfl
  · exact ⟨hpos,hle,hroom _ hfree⟩
  · exact ⟨hpos,hle,hroom _ hdirty⟩
  · exact ⟨Nat.one_pos,Nat.le_add_left 1 31,l.flags.index.toNat_lt⟩

theorem fits_nbranch (h : Valid c) {b : Nbranch}
    (hlnum : b.lnum=0∨c.lptFirst≤b.lnum∧b.lnum≤c.lptLast) (hoffs : b.offs<c.lebSize) :
    Fits (nbranchFields c b) := by
  have ⟨hpos,hle,hroom⟩ := h.lptLnum
  have ⟨hpos',hle',hroom'⟩ := h.lptOffs
  have hlebs := h.lptLebs.1
  unfold UBIFS_MIN_LPT_LEBS at hlebs
  intro f hf
  simp only [nbranchFields,List.mem_cons,List.not_mem_nil,or_false] at hf
  rcases hf with rfl|rfl
  · refine ⟨hpos,hle,hroom _ ?_⟩
    unfold Info.lptLast at hlnum ⊢
    split <;> omega
  · exact ⟨hpos',hle',hroom' _ hoffs⟩

theorem fits_ltab (h : Valid c) {l : LptLprops} (hl : l.free+l.dirty≤c.lebSize) :
    Fits (ltabFields c l) := by
  have ⟨hpos,hle,hroom⟩ := h.lptSpc
  intro f hf
  simp only [ltabFields,List.mem_cons,List.not_mem_nil,or_false] at hf
  rcases hf with rfl|rfl
  · exact ⟨hpos,hle.trans (by decide),hroom _ ((Nat.le_add_right _ _).trans hl)⟩
  · exact ⟨hpos,hle.trans (by decide),hroom _ ((Nat.le_add_left _ _).trans hl)⟩

theorem fits_lsave (h : Valid c) {lnum : ℕ} (hlnum : lnum<c.lebCnt) :
    Fits [(c.lnumBits,lnum)] := by
  have ⟨hpos,hle,hroom⟩ := h.lnum
  intro f hf
  rw [List.mem_singleton.mp hf]
  exact ⟨hpos,hle,hroom _ (hlnum.trans_le h.lebCnt.2.1)⟩

/-! ## The four kinds -/

theorem pnode_bits (c : Info) : c.pnodeBits=20+c.numBits+UBIFS_LPT_FANOUT*(c.spaceBits*2+1) := by
  unfold Info.pnodeBits UBIFS_LPT_CRC_BITS UBIFS_LPT_TYPE_BITS
  ring

theorem nnode_bits (c : Info) :
    c.nnodeBits=20+c.numBits+UBIFS_LPT_FANOUT*(c.lptLnumBits+c.lptOffsBits) := by
  unfold Info.nnodeBits UBIFS_LPT_CRC_BITS UBIFS_LPT_TYPE_BITS
  ring

theorem ltab_bits (c : Info) : c.ltabBits=20+0+c.lptLebs*(c.lptSpcBits+c.lptSpcBits) := by
  unfold Info.ltabBits UBIFS_LPT_CRC_BITS UBIFS_LPT_TYPE_BITS
  ring

theorem lsave_bits (c : Info) : c.lsaveBits=20+0+c.lsaveCnt*c.lnumBits := by
  unfold Info.lsaveBits UBIFS_LPT_CRC_BITS UBIFS_LPT_TYPE_BITS
  ring

theorem pnode_roundTrips (h : Valid c) (crc16 : List UInt8 → UInt16) (garbage : Place → ℕ)
    {pnode : Pnode} (old : Pnode) (hok : PnodeOk c pnode) :
    RoundTrips c.pnodeSz (ubifsPackPnode c crc16)
      (fun buf => unpackPnode c crc16 garbage buf old) pnode
      ⟨if c.bigLpt then pnode.num else old.num,pnode.lprops.map (storedLprops c)⟩ := by
  refine node_roundTrips Pnode.mk
    (fun buf => readsNum_big c garbage buf old.num h.pcntBits h.pcnt)
    (fun buf => reads_lprops h garbage buf) (fun l => ?_) (fun l hl => ?_) hok.length
    (fits_node (by decide) (fits_num h (hok.num.lt h)) fun l hl => ?_) ?_ fun buf => rfl
  · have hwidth : width (lpropsFields c l)=c.spaceBits+(c.spaceBits+(1+0)) := rfl
    rw [hwidth]
    ring
  · exact ⟨(hok.lprops l hl).1.2,(hok.lprops l hl).2.2⟩
  · exact fits_lprops h (hok.lprops l hl).1.1 (hok.lprops l hl).2.1
  · unfold Info.pnodeSz
    rw [pnode_bits]

theorem nnode_roundTrips (h : Valid c) (crc16 : List UInt8 → UInt16) (garbage : Place → ℕ)
    {nnode : Nnode} (old : Nnode) (hok : NnodeOk c nnode) :
    RoundTrips c.nnodeSz (ubifsPackNnode c crc16)
      (fun buf => ubifsUnpackNnode c crc16 garbage buf old) nnode
      ⟨if c.bigLpt then nnode.num else old.num,nnode.nbranch⟩ := by
  have hid : nnode.nbranch=nnode.nbranch.map id := (List.map_id _).symm
  rw [hid]
  refine node_roundTrips Nnode.mk
    (fun buf => readsNum_big c garbage buf old.num h.pcntBits h.pcnt)
    (fun buf => reads_nbranch h garbage buf) (fun b => rfl) (fun b hb => (hok.nbranch b hb).1)
    hok.length (fits_node (by decide) (fits_num h (hok.num.lt h)) fun b hb => ?_) ?_ fun buf => rfl
  · exact fits_nbranch h (hok.nbranch b hb).1 (hok.nbranch b hb).2
  · unfold Info.nnodeSz
    rw [nnode_bits]

theorem ltab_roundTrips (h : Valid c) (crc16 : List UInt8 → UInt16) (garbage : Place → ℕ)
    {ltab : List LptLprops} (hok : LtabOk c ltab) :
    RoundTrips c.ltabSz (ubifsPackLtab c crc16) (unpackLtab c crc16 garbage) ltab
      (ltab.map fun l => ⟨l.free,l.dirty,false,false⟩) := by
  refine node_roundTrips (fun _ ltab => ltab) readsNum_none
    (fun buf => reads_ltab h garbage buf) (fun l => rfl) hok.entries hok.length
    (fits_node (m := 0) (by decide) (fun f hf => absurd hf List.not_mem_nil) fun l hl => ?_) ?_
    fun buf => rfl
  · exact fits_ltab h (hok.entries l hl)
  · unfold Info.ltabSz
    rw [ltab_bits]

theorem lsave_roundTrips (h : Valid c) (crc16 : List UInt8 → UInt16) (garbage : Place → ℕ)
    {lsave : List ℕ} (hok : LsaveOk c lsave) :
    RoundTrips c.lsaveSz (ubifsPackLsave c crc16) (unpackLsave c crc16 garbage) lsave lsave := by
  have hback : RoundTrips c.lsaveSz (ubifsPackLsave c crc16) (unpackLsave c crc16 garbage) lsave
      (lsave.map id) := by
    refine node_roundTrips (fun _ lsave => lsave) readsNum_none
      (fun buf => reads_lsave h garbage buf) (fun lnum => rfl) hok.lnums hok.length
      (fits_node (m := 0) (by decide) (fun f hf => absurd hf List.not_mem_nil) fun lnum hl => ?_) ?_
      fun buf => rfl
    · exact fits_lsave h (hok.lnums lnum hl).2
    · unfold Info.lsaveSz
      rw [lsave_bits]
  rwa [List.map_id] at hback

theorem pnode_reproduces (h : Valid c) (crc16 : List UInt8 → UInt16) (garbage : Place → ℕ)
    (old : Pnode) : Reproduces c.pnodeSz c.pnodeBits (ubifsPackPnode c crc16)
      fun buf => unpackPnode c crc16 garbage buf old := by
  rw [pnode_bits]
  refine node_reproduces Pnode.mk
    (fun buf => readsNum_big c garbage buf old.num h.pcntBits h.pcnt)
    (fun buf => reads_lprops h garbage buf) (by decide) ?_ fun buf m xs => rfl
  unfold Info.pnodeSz
  rw [pnode_bits]

theorem nnode_reproduces (h : Valid c) (crc16 : List UInt8 → UInt16) (garbage : Place → ℕ)
    (old : Nnode) : Reproduces c.nnodeSz c.nnodeBits (ubifsPackNnode c crc16)
      fun buf => ubifsUnpackNnode c crc16 garbage buf old := by
  rw [nnode_bits]
  refine node_reproduces Nnode.mk
    (fun buf => readsNum_big c garbage buf old.num h.pcntBits h.pcnt)
    (fun buf => reads_nbranch h garbage buf) (by decide) ?_ fun buf m xs => rfl
  unfold Info.nnodeSz
  rw [nnode_bits]

theorem ltab_reproduces (h : Valid c) (crc16 : List UInt8 → UInt16) (garbage : Place → ℕ) :
    Reproduces c.ltabSz c.ltabBits (ubifsPackLtab c crc16) (unpackLtab c crc16 garbage) := by
  rw [ltab_bits]
  refine node_reproduces (fun _ ltab => ltab) readsNum_none
    (fun buf => reads_ltab h garbage buf) (by decide) ?_ fun buf m xs => rfl
  unfold Info.ltabSz
  rw [ltab_bits]

theorem lsave_reproduces (h : Valid c) (crc16 : List UInt8 → UInt16) (garbage : Place → ℕ) :
    Reproduces c.lsaveSz c.lsaveBits (ubifsPackLsave c crc16) (unpackLsave c crc16 garbage) := by
  rw [lsave_bits]
  refine node_reproduces (fun _ lsave => lsave) readsNum_none
    (fun buf => reads_lsave h garbage buf) (by decide) ?_ fun buf m xs => rfl
  unfold Info.lsaveSz
  rw [lsave_bits]

/-- The format of the nodes round-trips, for every geometry and in both models. -/
theorem lptNodes_roundTrip (c : Info) (h : Valid c) (crc16 : List UInt8 → UInt16)
    (garbage : Place → ℕ) :
    ((∀ pnode old,PnodeOk c pnode → RoundTrips c.pnodeSz (ubifsPackPnode c crc16)
        (fun buf => unpackPnode c crc16 garbage buf old) pnode
        ⟨if c.bigLpt then pnode.num else old.num,pnode.lprops.map (storedLprops c)⟩)∧
      (∀ nnode old,NnodeOk c nnode → RoundTrips c.nnodeSz (ubifsPackNnode c crc16)
        (fun buf => ubifsUnpackNnode c crc16 garbage buf old) nnode
        ⟨if c.bigLpt then nnode.num else old.num,nnode.nbranch⟩)∧
      (∀ ltab,LtabOk c ltab → RoundTrips c.ltabSz (ubifsPackLtab c crc16)
        (unpackLtab c crc16 garbage) ltab (ltab.map fun l => ⟨l.free,l.dirty,false,false⟩))∧
      ∀ lsave,LsaveOk c lsave → RoundTrips c.lsaveSz (ubifsPackLsave c crc16)
        (unpackLsave c crc16 garbage) lsave lsave)∧
    (∀ old,Reproduces c.pnodeSz c.pnodeBits (ubifsPackPnode c crc16)
      fun buf => unpackPnode c crc16 garbage buf old)∧
    (∀ old,Reproduces c.nnodeSz c.nnodeBits (ubifsPackNnode c crc16)
      fun buf => ubifsUnpackNnode c crc16 garbage buf old)∧
    Reproduces c.ltabSz c.ltabBits (ubifsPackLtab c crc16) (unpackLtab c crc16 garbage)∧
    Reproduces c.lsaveSz c.lsaveBits (ubifsPackLsave c crc16) (unpackLsave c crc16 garbage) := by
  refine ⟨⟨fun pnode old hok => ?_,fun nnode old hok => ?_,fun ltab hok => ?_,fun lsave hok => ?_⟩,
    fun old => ?_,fun old => ?_,?_,?_⟩
  · exact pnode_roundTrips h crc16 garbage old hok
  · exact nnode_roundTrips h crc16 garbage old hok
  · exact ltab_roundTrips h crc16 garbage hok
  · exact lsave_roundTrips h crc16 garbage hok
  · exact pnode_reproduces h crc16 garbage old
  · exact nnode_reproduces h crc16 garbage old
  · exact ltab_reproduces h crc16 garbage
  · exact lsave_reproduces h crc16 garbage

/-- A small file-system with the big model. -/
def smallInfo : Info where
  lebSize := 15360
  minIdxNodeSz := 128
  deadWm := 512
  mainLebs := 12
  lebCnt := 21
  maxLebCnt := 24
  lptFirst := 7
  lptLebs := 2
  lsaveCnt := 2
  bigLpt := true

theorem smallInfo_valid : Valid smallInfo where
  lebSize := by decide
  lptLebs := by decide
  lebCnt := by decide
  lptFirst := by decide
  pcntBits := by decide

theorem lptNodes_roundTrip_example :
    RoundTrips smallInfo.lsaveSz (ubifsPackLsave smallInfo fun _ => 0)
      (unpackLsave smallInfo (fun _ => 0) fun _ => 0) [9,20] [9,20] :=
  (lptNodes_roundTrip smallInfo smallInfo_valid (fun _ => 0) fun _ => 0).1.2.2.2 [9,20]
    ⟨by decide,by decide⟩

/-- A table whose entries have all their space both free and dirty, and a LEB
number before the main area, are packed but not read back. -/
theorem ltab_lsave_not_back :
    (¬∀ c : Info,Valid c → ∀ (crc16 : List UInt8 → UInt16) (garbage : Place → ℕ)
      (ltab : List LptLprops),ltab.length=c.lptLebs →
      (∀ l∈ltab,(l.free≤c.lebSize∧l.free%8=0)∧l.dirty≤c.lebSize∧l.dirty%8=0) →
      RoundTrips c.ltabSz (ubifsPackLtab c crc16) (unpackLtab c crc16 garbage) ltab
        (ltab.map fun l => ⟨l.free,l.dirty,false,false⟩))∧
    ¬∀ c : Info,Valid c → ∀ (crc16 : List UInt8 → UInt16) (garbage : Place → ℕ)
      (lsave : List ℕ),lsave.length=c.lsaveCnt → (∀ lnum∈lsave,lnum<c.maxLebCnt) →
      RoundTrips c.lsaveSz (ubifsPackLsave c crc16) (unpackLsave c crc16 garbage) lsave lsave := by
  constructor
  · intro h
    have ⟨buf,hpack,_,hunpack⟩ := h smallInfo smallInfo_valid (fun _ => 0) (fun _ => 0)
      [⟨15360,15360,false,false⟩,⟨0,0,false,false⟩] rfl (by decide)
      (List.replicate 10 0) (by decide)
    have hbytes : ubifsPackLtab smallInfo (fun _ => 0) (List.replicate 10 0)
        [⟨15360,15360,false,false⟩,⟨0,0,false,false⟩]=some [0,0,2,192,3,240,0,0,0,0] := by decide
    rw [hbytes] at hpack
    cases hpack
    have hno : unpackLtab smallInfo (fun _ => 0) (fun _ => 0) [0,0,2,192,3,240,0,0,0,0]=
        some (.error (-EINVAL)) := by decide
    cases hunpack
  · intro h
    have ⟨buf,hpack,_,hunpack⟩ := h smallInfo smallInfo_valid (fun _ => 0) (fun _ => 0) [0,0] rfl
      (by decide) (List.replicate 4 0) (by decide)
    have hbytes : ubifsPackLsave smallInfo (fun _ => 0) (List.replicate 4 0) [0,0]=
        some [0,0,3,0] := by decide
    rw [hbytes] at hpack
    cases hpack
    have hno : unpackLsave smallInfo (fun _ => 0) (fun _ => 0) [0,0,3,0]=
        some (.error (-EINVAL)) := by decide
    cases hunpack

end ArdroneKernel.UbifsLpt
