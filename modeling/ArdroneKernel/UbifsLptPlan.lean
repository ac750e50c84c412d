import ArdroneKernel.NextFit
import ArdroneKernel.UbifsLptFormat
import ArdroneKernel.UbifsLptRoundTrip

/-!
# The plan of a new tree

The geometry that `calc_dflt_lpt_geom` accepts has room for four times the
nodes. The rows of the tree are counted from the pnodes up, each has a quarter
of the nodes of the one below, and next fit says where each node goes.
-/

namespace ArdroneKernel.UbifsLpt

open NextFit

/-! ## Geometry -/

/-- A volume as UBI and `init_constants_early` give it, and what
`create_default_filesystem` asks for. -/
structure Geometry (c : LptInfo) (mainLebs lptFirst : ℕ) : Prop where
  lebSize : UBIFS_MIN_LEB_SZ≤c.lebSize∧c.lebSize<2^31
  lebCnt : UBIFS_MIN_LEB_CNT≤c.lebCnt∧c.lebCnt<2^31
  maxLebCnt : c.maxLebCnt=c.lebCnt
  lsaveCnt : c.lsaveCnt=DEFAULT_LSAVE_CNT
  mainLebs : mainLebs≤c.lebCnt
  lptFirst : 0<lptFirst
  /-- The unit of UBI, which divides a LEB, is made 8 when it is less. -/
  minIoSize : ∃ k,2^k∣c.lebSize∧c.minIoSize=max 8 (2^k)

/-- What a geometry is when it has been accepted. -/
structure Planned (c : LptInfo) : Prop where
  valid : Valid c.toInfo
  maxLebCnt : c.maxLebCnt=c.lebCnt
  mainLebs : 0<c.mainLebs
  lsaveCnt : c.lsaveCnt=DEFAULT_LSAVE_CNT
  ltabSz : c.ltabSz≤c.lebSize
  room : 4*c.lptSzNet≤c.lptLebs*c.lebSize
  minIoSize : 8∣c.minIoSize∧c.minIoSize≤c.lebSize∧(c.minIoSize=8∨c.minIoSize∣c.lebSize)

theorem lptSzNet_le (c : LptInfo) : c.lptSzNet≤c.lptSz := Nat.le_add_right _ _

/-- What the loop changes and what it has when it ends. -/
theorem dfltGeomLoop_spec {mainLebs rounds : ℕ} {c c' : LptInfo}
    (h : dfltGeomLoop mainLebs rounds c=.ok c') (hlebs : UBIFS_MIN_LPT_LEBS≤c.lptLebs)
    (hmain : c.mainLebs+c.lptLebs=mainLebs) (hpos : 0<c.mainLebs) :
    (∃ m n,c'={c with mainLebs := m,lptLebs := n})∧UBIFS_MIN_LPT_LEBS≤c'.lptLebs∧
      c'.mainLebs+c'.lptLebs=mainLebs∧0<c'.mainLebs∧
      (c'.lptSz*4+c'.lebSize-1)/c'.lebSize≤c'.lptLebs∧c'.ltabSz≤c'.lebSize := by
  induction rounds generalizing c with
  | zero => cases h
  | succ rounds ih =>
    unfold dfltGeomLoop at h
    dsimp only at h
    split at h
    next hmore =>
      split at h
      · cases h
      next hless =>
        have ⟨⟨m,n,he⟩,hrest⟩ := ih h (Nat.le_of_lt (Nat.lt_of_le_of_lt hlebs hmore))
          (Nat.sub_add_cancel (Nat.le_of_not_le hless)) (Nat.sub_pos_of_lt (Nat.not_le.mp hless))
        exact ⟨⟨m,n,he⟩,hrest⟩
    next hmore =>
      split at h
      · cases h
      next hltab =>
        cases h
        exact ⟨⟨c'.mainLebs,c'.lptLebs,rfl⟩,hlebs,hmain,hpos,Nat.not_lt.mp hmore,Nat.not_lt.mp hltab⟩

theorem le_mul_of_div_le {x n L : ℕ} (hL : 0<L) (h : (x+L-1)/L≤n) : x≤n*L := by
  have hmod := Nat.div_add_mod (x+L-1) L
  have hlt := Nat.mod_lt (x+L-1) hL
  have hmul := Nat.mul_le_mul_right L h
  rw [Nat.mul_comm L] at hmod
  omega

/-- An accepted geometry has room. -/
theorem calcDfltLptGeom_planned {c c' : LptInfo} {mainLebs lptFirst : ℕ}
    (hg : Geometry c mainLebs lptFirst) (h : calcDfltLptGeom c mainLebs=.ok c') :
    Planned {c' with lptFirst := lptFirst}∧c'.mainLebs+c'.lptLebs=mainLebs∧
      c'.lebSize=c.lebSize∧c'.lebCnt=c.lebCnt∧c'.minIoSize=c.minIoSize := by
  unfold calcDfltLptGeom at h
  split at h
  · cases h
  next hmain =>
    have hmain := Nat.not_le.mp hmain
    dsimp only at h
    have hloop : ∃ big : Bool,dfltGeomLoop mainLebs 64 {c with
        lptLebs := UBIFS_MIN_LPT_LEBS,mainLebs := mainLebs-UBIFS_MIN_LPT_LEBS,bigLpt := big}=
          .ok c' := by
      split at h
      · exact ⟨true,h⟩
      · exact ⟨false,h⟩
    have ⟨big,hloop⟩ := hloop
    have ⟨⟨m,n,he⟩,hlebs,hsum,hpos,hneeded,hltab⟩ := dfltGeomLoop_spec hloop (Nat.le_refl _)
      (Nat.sub_add_cancel hmain.le) (Nat.sub_pos_of_lt hmain)
    have hL : 0<c.lebSize := Nat.lt_of_lt_of_le (by decide) hg.lebSize.1
    have hlebSize : c'.lebSize=c.lebSize := by rw [he]
    have hlebCnt : c'.lebCnt=c.lebCnt := by rw [he]
    have hmaxLebCnt : c'.maxLebCnt=c.lebCnt := by rw [he]; exact hg.maxLebCnt
    have hminIo : c'.minIoSize=c.minIoSize := by rw [he]
    have hroom := le_mul_of_div_le (hlebSize▸hL) hneeded
    have hnet := lptSzNet_le c'
    have hcnt := hg.lebCnt
    unfold UBIFS_MIN_LEB_CNT at hcnt
    have hmainLe := hg.mainLebs
    refine ⟨⟨⟨?_,?_,?_,hg.lptFirst,?_⟩,?_,hpos,?_,hltab,?_,?_⟩,hsum,hlebSize,hlebCnt,hminIo⟩
    · exact hlebSize▸hg.lebSize
    · exact ⟨hlebs,show c'.lptLebs<2^31 by omega⟩
    · exact ⟨show c'.mainLebs≤c'.lebCnt by omega,show c'.lebCnt≤c'.maxLebCnt by omega,
        show c'.maxLebCnt<2^31 by omega⟩
    · refine fls_pos ?_
      rw [hmaxLebCnt]
      unfold divRoundUp UBIFS_LPT_FANOUT
      omega
    · exact hmaxLebCnt.trans hlebCnt.symm
    · rw [he]
      exact hg.lsaveCnt
    · change 4*c'.lptSzNet≤c'.lptLebs*c'.lebSize
      omega
    · rw [hminIo,hlebSize]
      have ⟨k,hdvd,hunit⟩ := hg.minIoSize
      rw [hunit]
      rcases Nat.lt_or_ge k 3 with hk|hk
      · have hlt : 2^k≤8 := Nat.pow_le_pow_right (by decide) (Nat.le_of_lt hk)
        rw [Nat.max_eq_left hlt]
        exact ⟨Nat.dvd_refl 8,Nat.le_trans (by decide) hg.lebSize.1,.inl rfl⟩
      · have hge : 2^3≤2^k := Nat.pow_le_pow_right (by decide) hk
        rw [Nat.max_eq_right (show 8≤2^k from hge)]
        exact ⟨Nat.pow_dvd_pow 2 hk,Nat.le_of_dvd hL hdvd,.inr hdvd⟩

/-! ## Sizes -/

theorem Planned.pnodeSz_le {c : LptInfo} (h : Planned c) : c.pnodeSz≤c.lebSize := by
  have hspace := h.valid.spaceBits.2.1
  have hpcnt := h.valid.pcnt
  have hmin := h.valid.lebSize.1
  have hnum : c.numBits≤32 := by
    unfold Info.numBits
    split
    · exact hpcnt
    · exact Nat.zero_le _
  unfold UBIFS_MIN_LEB_SZ at hmin
  unfold Info.pnodeSz Info.pnodeBits UBIFS_LPT_CRC_BITS UBIFS_LPT_TYPE_BITS UBIFS_LPT_FANOUT
  omega

theorem Planned.nnodeSz_le {c : LptInfo} (h : Planned c) : c.nnodeSz≤c.lebSize := by
  have hlnum := h.valid.lptLnum.2.1
  have hoffs := h.valid.lptOffs.2.1
  have hpcnt := h.valid.pcnt
  have hmin := h.valid.lebSize.1
  have hnum : c.numBits≤32 := by
    unfold Info.numBits
    split
    · exact hpcnt
    · exact Nat.zero_le _
  unfold UBIFS_MIN_LEB_SZ at hmin
  unfold Info.nnodeSz Info.nnodeBits UBIFS_LPT_CRC_BITS UBIFS_LPT_TYPE_BITS UBIFS_LPT_FANOUT
  omega

theorem Planned.lsaveSz_le {c : LptInfo} (h : Planned c) : c.lsaveSz≤c.lebSize := by
  have hlnum := h.valid.lnum.2.1
  have hmin := h.valid.lebSize.1
  unfold UBIFS_MIN_LEB_SZ at hmin
  unfold Info.lsaveSz Info.lsaveBits UBIFS_LPT_CRC_BITS UBIFS_LPT_TYPE_BITS
  rw [h.lsaveCnt]
  unfold DEFAULT_LSAVE_CNT
  omega

/-! ## Rows -/

section

variable (c : LptInfo)

/-- The number of nodes of a level; the pnodes are the lowest one. -/
def lvCnt : ℕ → ℕ
  | 0 => c.pnodeCnt
  | lv+1 => divRoundUp (lvCnt lv) UBIFS_LPT_FANOUT

/-- The size of the nodes of a level. -/
def lvSz : ℕ → ℕ
  | 0 => c.pnodeSz
  | _+1 => c.nnodeSz

/-- Where a level starts. -/
def lvStart : ℕ → Cursor
  | 0 => ⟨c.lptFirst,0⟩
  | lv+1 => Cursor.skip c.lebSize (lvSz c lv) (lvCnt c lv) (lvStart lv)

/-- The writer before a node of a level. -/
def lvCursor (lv k : ℕ) : Cursor := Cursor.skip c.lebSize (lvSz c lv) k (lvStart c lv)

/-- Where a node of a level goes. -/
def lvPlace (lv k : ℕ) : Cursor := (lvCursor c lv k).place c.lebSize (lvSz c lv)

/-- The bytes of the levels below. -/
def lvBytes : ℕ → ℕ
  | 0 => 0
  | lv+1 => lvBytes lv+lvCnt c lv*lvSz c lv

/-- The nnodes up to a level. -/
def lvNnodes : ℕ → ℕ
  | 0 => 0
  | lv+1 => lvNnodes lv+lvCnt c (lv+1)

end

variable {c : LptInfo}

theorem divRoundUp_le_iff (m n : ℕ) : divRoundUp m UBIFS_LPT_FANOUT≤n↔m≤4*n := by
  unfold divRoundUp UBIFS_LPT_FANOUT
  omega

theorem lvCnt_le_iff (c : LptInfo) (lv n : ℕ) : lvCnt c lv≤n↔c.pnodeCnt≤4^lv*n := by
  induction lv generalizing n with
  | zero => rw [pow_zero,Nat.one_mul]; exact Iff.rfl
  | succ lv ih =>
    unfold lvCnt
    rw [divRoundUp_le_iff,ih,pow_succ,Nat.mul_assoc]

theorem Planned.pnodeCnt_pos (h : Planned c) : 0<c.pnodeCnt := by
  have hmain := h.mainLebs
  unfold LptInfo.pnodeCnt divRoundUp UBIFS_LPT_FANOUT
  omega

theorem Planned.lvCnt_pos (h : Planned c) (lv : ℕ) : 0<lvCnt c lv := by
  have hpos := h.pnodeCnt_pos
  rw [← Nat.not_le,lvCnt_le_iff,Nat.mul_zero]
  exact Nat.not_le.mpr hpos

theorem Planned.maxPnodeCnt_eq (h : Planned c) : c.maxPnodeCnt=c.pnodeCnt := by
  unfold Info.maxPnodeCnt LptInfo.pnodeCnt
  rw [h.maxLebCnt,Nat.add_sub_cancel]

/-- The root is the only node of its row, and no other row has one. -/
theorem Planned.lvCnt_eq_one_iff (h : Planned c) {lv : ℕ} (hlv : lv<c.lptHght) :
    lvCnt c (lv+1)=1↔lv+1=c.lptHght := by
  have hpos := h.lvCnt_pos (lv+1)
  have hle : lvCnt c (lv+1)=1↔c.pnodeCnt≤4^(lv+1) := by
    rw [← Nat.mul_one (4^(lv+1)),← lvCnt_le_iff]
    omega
  rw [hle,← h.maxPnodeCnt_eq]
  constructor
  · intro hsmall
    rcases lptHght_least c.toInfo with hone|hbig
    · omega
    · by_contra hne
      have hpow : 4^(lv+1)≤4^(c.lptHght-1) := Nat.pow_le_pow_right (by decide) (by omega)
      omega
  · intro he
    rw [he]
    exact maxPnodeCnt_le c.toInfo

theorem hghtLoop_succ (m fuel hght n : ℕ) :
    Info.hghtLoop m fuel (hght+1) n=Info.hghtLoop m fuel hght n+1 := by
  induction fuel generalizing hght n with
  | zero => rfl
  | succ fuel ih =>
    unfold Info.hghtLoop
    split
    · exact ih _ _
    · rfl

theorem Planned.lowestRow_eq (h : Planned c) : lowestRow c.pnodeCnt+1=c.lptHght := by
  unfold Info.lptHght lowestRow
  rw [h.maxPnodeCnt_eq,hghtLoop_succ]

/-! ## Room -/

theorem nnodeCntLoop_eq (c : LptInfo) (n lv : ℕ) :
    LptInfo.nnodeCntLoop n (lvCnt c lv) (lvNnodes c lv)=lvNnodes c (lv+n) := by
  induction n generalizing lv with
  | zero => rfl
  | succ n ih =>
    have hnext := ih (lv+1)
    rw [Nat.add_right_comm] at hnext
    exact hnext

theorem nnodeCnt_eq (c : LptInfo) : c.nnodeCnt=lvNnodes c c.lptHght := by
  have hpos := lptHght_pos c.toInfo
  have hone : lvNnodes c 1=lvCnt c 1 := Nat.zero_add _
  have hloop := nnodeCntLoop_eq c (c.lptHght-1) 1
  rw [hone,Nat.add_sub_cancel' hpos] at hloop
  exact hloop

theorem lvBytes_succ (c : LptInfo) (lv : ℕ) :
    lvBytes c (lv+1)=c.pnodeCnt*c.pnodeSz+lvNnodes c lv*c.nnodeSz := by
  induction lv with
  | zero =>
    rw [show lvNnodes c 0=0 from rfl,Nat.zero_mul]
    exact Nat.zero_add _
  | succ lv ih =>
    have hstep : lvBytes c (lv+1+1)=lvBytes c (lv+1)+lvCnt c (lv+1)*c.nnodeSz := rfl
    rw [hstep,ih,show lvNnodes c (lv+1)=lvNnodes c lv+lvCnt c (lv+1) from rfl,Nat.add_mul,
      Nat.add_assoc]

theorem lvBytes_mono (c : LptInfo) {lv lv' : ℕ} (h : lv≤lv') : lvBytes c lv≤lvBytes c lv' := by
  induction h with
  | refl => exact Nat.le_refl _
  | step _ ih => exact ih.trans (Nat.le_add_right _ _)

/-- All that is written, with the tables. -/
theorem lptSzNet_eq (c : LptInfo) :
    c.lptSzNet=lvBytes c (c.lptHght+1)+c.ltabSz+if c.bigLpt then c.lsaveSz else 0 := by
  unfold LptInfo.lptSzNet
  rw [lvBytes_succ,nnodeCnt_eq]

theorem Planned.lvSz_le (h : Planned c) (lv : ℕ) : lvSz c lv≤c.lebSize := by
  cases lv with
  | zero => exact h.pnodeSz_le
  | succ lv => exact h.nnodeSz_le

/-- The cursor of a node is within twice the bytes before it. -/
theorem lvCursor_within (c : LptInfo) (lv k : ℕ) :
    (lvCursor c lv k).Within c.lebSize c.lptFirst (lvBytes c lv+k*lvSz c lv) := by
  have hstart : (lvStart c lv).Within c.lebSize c.lptFirst (lvBytes c lv) := by
    induction lv with
    | zero => exact Cursor.Within.start _ _
    | succ lv ih => exact ih.skip _
  exact hstart.skip k

/-- The bytes up to a node are among all that is written. -/
theorem lvBytes_node_le {lv k : ℕ} (hlv : lv≤c.lptHght) (hk : k<lvCnt c lv) :
    lvBytes c lv+k*lvSz c lv+lvSz c lv≤c.lptSzNet := by
  have hnode : k*lvSz c lv+lvSz c lv≤lvCnt c lv*lvSz c lv := by
    rw [← Nat.succ_mul]
    exact Nat.mul_le_mul_right _ hk
  have hstep : lvBytes c (lv+1)=lvBytes c lv+lvCnt c lv*lvSz c lv := rfl
  have hmono : lvBytes c (lv+1)≤lvBytes c (c.lptHght+1) := lvBytes_mono c (Nat.succ_le_succ hlv)
  rw [lptSzNet_eq]
  omega

/-- A place inside the area. -/
theorem Planned.place_in (h : Planned c) {total sz : ℕ} {cur : Cursor}
    (hcur : cur.Within c.lebSize c.lptFirst total) (hroom : total+sz≤c.lptSzNet) :
    c.lptFirst≤(cur.place c.lebSize sz).bin∧
      (cur.place c.lebSize sz).bin<c.lptFirst+c.lptLebs := by
  have hL : 0<c.lebSize := Nat.lt_of_lt_of_le (by decide) h.valid.lebSize.1
  have hlebs : 0<c.lptLebs := Nat.lt_of_lt_of_le (by decide) h.valid.lptLebs.1
  have hall := h.room
  exact ⟨(hcur.place sz).1,hcur.place_lt hL hlebs (by omega)⟩

theorem Planned.lvPlace_in (h : Planned c) {lv k : ℕ} (hlv : lv≤c.lptHght) (hk : k<lvCnt c lv) :
    c.lptFirst≤(lvPlace c lv k).bin∧(lvPlace c lv k).bin<c.lptFirst+c.lptLebs∧
      (lvPlace c lv k).offs+lvSz c lv≤c.lebSize := by
  have ⟨hfirst,hlast⟩ := h.place_in (lvCursor_within c lv k) (lvBytes_node_le hlv hk)
  exact ⟨hfirst,hlast,Cursor.place_fits (h.lvSz_le lv)⟩

end ArdroneKernel.UbifsLpt
