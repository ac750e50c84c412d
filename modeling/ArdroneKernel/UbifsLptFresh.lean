import ArdroneKernel.UbifsLptRows
import ArdroneKernel.UbifsLptWays

/-!
# A new tree reads back

From the root down, every node that has been written is read where the branch
above it says, passes its checks, and says what was meant. The properties that
are found are those of an empty file-system.
-/

namespace ArdroneKernel.UbifsLpt

open UbifsLprops

variable {c : LptInfo} {crc16 : List UInt8 → UInt16} {out : Created}

/-! ## What is read -/

/-- A LEB as it is read: what has not been written is erased. -/
def lebContents (c : LptInfo) (flash : ℕ → Option (List UInt8)) (lnum : ℕ) : List UInt8 :=
  let data := (flash lnum).getD []
  data++List.replicate (c.lebSize-data.length) 0xff

/-- Reading from what has been written. -/
def flashOf (out : Created) (crc16 : List UInt8 → UInt16) (garbage : Place → ℕ) : Flash :=
  ⟨fun lnum offs n => if out.info.lebSize<offs+n then .error (-EINVAL)
    else .ok (slice (lebContents out.info out.flash lnum) offs n),crc16,garbage⟩

/-- The tree before a node has been read. -/
def newTree (out : Created) (ltab : ℕ → LptLprops) : Lpt :=
  ⟨out.root.lptLnum,out.root.lptOffs,out.ltabLnum,fun _ _ => none,fun _ => none,0,0,0,false,ltab⟩

theorem newTree_good (out : Created) (ltab : ℕ → LptLprops) :
    MemGood out.info (newTree out ltab) :=
  ⟨nofun,nofun,fun _ _ h => absurd rfl h,fun _ h => absurd rfl h⟩

/-- What has been packed is read where it was put. -/
theorem OnFlash.read {ltab : List LptLprops} (h : OnFlash out.info out.flash out.log ltab)
    (crc16 : List UInt8 → UInt16) {x : Placed} (hx : x∈out.log) (garbage : Place → ℕ) :
    (flashOf out crc16 garbage).ubiRead x.lnum x.offs x.bytes.length=.ok x.bytes := by
  have ⟨hroom,data,hdata,hslice⟩ := h.stored x hx
  have hlen : (slice data x.offs x.bytes.length).length=x.bytes.length := congrArg _ hslice
  unfold slice at hlen
  rw [List.length_take,List.length_drop] at hlen
  unfold flashOf lebContents
  dsimp only
  rw [if_neg (Nat.not_lt.mpr hroom),hdata,Option.getD_some]
  rcases Nat.eq_zero_or_pos x.bytes.length with hzero|hpos
  · rw [hzero,List.length_eq_zero_iff.mp hzero]
    rfl
  · rw [slice_append_left (by omega),hslice]

theorem validateNnode_planned (h : Planned c) {lv i iip : ℕ} {parent : Option MemNnode}
    (hlv : lv<c.lptHght)
    (hnum : calcNnodeNumFromParent c.lptHght parent iip=calcNnodeNum (c.lptHght-1-lv) i)
    (hlevel : levelBelow c parent=lv+1) (num : ℕ)
    (hbig : c.bigLpt=true → num=calcNnodeNum (c.lptHght-1-lv) i) :
    validateNnode c ⟨num,(lvNnode c lv i).nbranch⟩ parent iip=.ok () := by
  have hfirst := h.valid.lptFirst
  unfold validateNnode
  rw [hnum,hlevel]
  rw [if_neg fun e => e.2 (hbig e.1),if_neg (by omega),if_neg]
  intro hany
  have ⟨b,hb,hbad⟩ := List.any_eq_true.mp hany
  have ⟨j,_,hj⟩ := List.mem_map.mp hb
  have ⟨hin,hroom⟩ := h.lvBranch_in (k := 4*i+j) (Nat.le_of_lt hlv)
  have hsz : (if lv+1=1 then c.pnodeSz else c.nnodeSz)=lvSz c lv := by
    cases lv with
    | zero => rfl
    | succ lv => exact if_neg (by omega)
  rw [← hj,hsz] at hbad
  rcases hin with ⟨hzero,hoffs⟩|⟨hlow,hhigh⟩
  · rw [if_pos hzero] at hbad
    exact of_decide_eq_true hbad hoffs
  · rw [if_neg (by omega)] at hbad
    have hbad := of_decide_eq_true hbad
    omega

/-- A nnode is read as it was planned. -/
theorem Fresh.makeNnode_eq (h : Fresh crc16 out) (garbage : Place → ℕ) {lv i : ℕ}
    (parent : Option MemNnode) (iip : ℕ) (hlv : lv<out.info.lptHght) (hi : i<lvCnt out.info (lv+1))
    (hnum : calcNnodeNumFromParent out.info.lptHght parent iip=
      calcNnodeNum (out.info.lptHght-1-lv) i)
    (hlevel : levelBelow out.info parent=lv+1) :
    makeNnode out.info (flashOf out crc16 garbage)
      ⟨(lvPlace out.info (lv+1) i).bin,(lvPlace out.info (lv+1) i).offs⟩ parent iip=
        some (.ok ⟨calcNnodeNum (out.info.lptHght-1-lv) i,lv+1,iip,
          (lvNnode out.info lv i).nbranch⟩) := by
  have ⟨x,hx,hplanned⟩ := h.nodes (lv+1) hlv i hi
  have ⟨ltab,_,honFlash⟩ := h.ltab
  have ⟨hlen,hunpack⟩ : NnodeBytes out.info crc16 (lvNnode out.info lv i) x.bytes := hplanned.bytes
  have hread := honFlash.read crc16 hx garbage
  have hlnum : (lvPlace out.info (lv+1) i).bin≠0 := by
    have hin : out.info.lptFirst≤(lvPlace out.info (lv+1) i).bin := (h.planned.lvPlace_in hlv hi).1
    have hfirst := h.planned.valid.lptFirst
    omega
  rw [hplanned.lnum,hplanned.offs,hlen] at hread
  unfold makeNnode
  dsimp only
  rw [if_neg hlnum,hread]
  dsimp only
  rw [show (flashOf out crc16 garbage).crc16=crc16 from rfl,
    hunpack (flashOf out crc16 garbage).garbage (emptyNnode 0),andThen_ok]
  have hvalid := validateNnode_planned h.planned hlv hnum hlevel
    (if out.info.bigLpt then (lvNnode out.info lv i).num else (emptyNnode 0).num)
    fun hbig => if_pos hbig
  have hsame : (if out.info.bigLpt then (if out.info.bigLpt then (lvNnode out.info lv i).num
      else (emptyNnode 0).num) else calcNnodeNumFromParent out.info.lptHght parent iip)=
      calcNnodeNum (out.info.lptHght-1-lv) i := by
    split
    · rfl
    · exact hnum
  rw [hvalid]
  rw [hsame,hlevel]

/-- Every nnode of the tree is in the view as it was planned. -/
theorem Fresh.nnodeView_eq (h : Fresh crc16 out) (garbage : Place → ℕ) (ltab : ℕ → LptLprops)
    {lv row col : ℕ} (hlv : row+lv+1=out.info.lptHght) (hcol : col<lvCnt out.info (lv+1)) :
    nnodeView out.info (flashOf out crc16 garbage) (newTree out ltab) row col=
      some (.ok ⟨calcNnodeNum row col,lv+1,if row=0 then 0 else col%4,
        (lvNnode out.info lv col).nbranch⟩) := by
  induction row generalizing lv col with
  | zero =>
    have htop : lv+1=out.info.lptHght := by omega
    have hone := (h.planned.lvCnt_eq_one_iff (show lv<out.info.lptHght by omega)).mpr htop
    have hzero : col=0 := by omega
    subst hzero
    have hrow : out.info.lptHght-1-lv=0 := by omega
    have hmake := h.makeNnode_eq garbage none 0 (by omega) hcol (by rw [hrow]; rfl) htop.symm
    have hroot : branchTo (newTree out ltab) none 0=
        some ⟨(lvPlace out.info (lv+1) 0).bin,(lvPlace out.info (lv+1) 0).offs⟩ := by
      unfold branchTo newTree
      rw [h.root,htop]
      rfl
    have hview := nnodeView_root (c := out.info) (f := flashOf out crc16 garbage)
      (s := newTree out ltab) rfl
    rw [Option.some.inj hroot,hmake,hrow] at hview
    exact hview
  | succ row ih =>
    have hdiv : 4*(col/4)+col%4=col := Nat.div_add_mod col 4
    have hcol' : col/4<lvCnt out.info (lv+1+1) := by
      refine Nat.not_le.mp fun hle => ?_
      have := (divRoundUp_le_iff (lvCnt out.info (lv+1)) (col/4)).mp hle
      omega
    have hparent := ih (by omega) hcol'
    let p : MemNnode := ⟨calcNnodeNum row (col/4),lv+1+1,if row=0 then 0 else col/4%4,
      (lvNnode out.info (lv+1) (col/4)).nbranch⟩
    have hchild := nnodeView_child (n := ⟨row,col/4,p⟩) hparent (Nat.mod_lt col (by decide)) rfl
    have hrow : out.info.lptHght-1-lv=row+1 := by omega
    have hnum : calcNnodeNumFromParent out.info.lptHght (some p) (col%4)=
        calcNnodeNum (out.info.lptHght-1-lv) col := by
      rw [hrow]
      conv_rhs => rw [← hdiv]
      exact calcNnodeNumFromParent_eq (by omega) rfl (show lv+1+1=_ by omega)
        (Nat.mod_lt col (by decide))
    have hbranch : p.nbranch[col%4]?=
        some ⟨(lvPlace out.info (lv+1) col).bin,(lvPlace out.info (lv+1) col).offs⟩ := by
      have hlt : col%4<4 := Nat.mod_lt col (by decide)
      have hget : p.nbranch[col%4]?=some (lvBranch out.info (lv+1) (4*(col/4)+col%4)) := by
        have hp : p.nbranch=(List.range 4).map fun j =>
          lvBranch out.info (lv+1) (4*(col/4)+j) := rfl
        rw [hp,List.getElem?_map,List.getElem?_range hlt]
        rfl
      rw [hget,hdiv]
      unfold lvBranch
      rw [if_pos hcol]
    have hmake := h.makeNnode_eq garbage (some p) (col%4) (by omega) hcol hnum rfl
    rw [hdiv] at hchild
    rw [hchild]
    rw [hbranch,Option.bind_some,hmake,hrow]
    rfl

/-! ## Properties -/

/-- The properties of the LEBs of an empty file-system. -/
def emptyLprops (c : LptInfo) (i : ℕ) : Lprops := storedLprops c.toInfo (roundFree (dfltLprops c i))

/-- Nothing is lost by the units when a LEB is a multiple of them. -/
theorem Planned.dfltLprops_dvd (h : Planned c) (h8 : 8∣c.lebSize) (i : ℕ) :
    8∣(dfltLprops c i).free := by
  have halign : ∀ n,8∣align n c.minIoSize := fun n => h.minIoSize.1.trans (dvd_align n c.minIoSize)
  unfold dfltLprops
  split
  · exact Nat.dvd_sub h8 (halign _)
  · split
    · exact Nat.dvd_sub h8 (halign _)
    · exact h8

theorem Planned.emptyLprops_valid (h : Planned c) (i : ℕ) :
    ¬(c.lebSize<(emptyLprops c i).free∨(emptyLprops c i).free%c.minIoSize≠0∨
      (emptyLprops c i).free&&&7≠0∨c.lebSize<(emptyLprops c i).dirty∨
      (emptyLprops c i).dirty&&&7≠0∨c.lebSize<(emptyLprops c i).dirty+(emptyLprops c i).free) := by
  have hspace := h.space_ok i
  have hsum := hspace.sum
  have hdirty := hspace.dirty
  have hfree : (emptyLprops c i).free=(dfltLprops c i).free/8*8 := rfl
  have hsame : (emptyLprops c i).dirty=(dfltLprops c i).dirty := rfl
  have hmask : ∀ x : ℕ,x&&&7=x%8 := fun x => Nat.and_two_pow_sub_one_eq_mod x 3
  have hunit : (dfltLprops c i).free/8*8%c.minIoSize=0 := by
    rcases hspace.unit with hunit|hunit
    · rw [hunit]
      omega
    · have h8 := h.minIoSize.1.trans hunit
      rw [Nat.div_mul_cancel h8]
      exact Nat.mod_eq_zero_of_dvd hunit
  rw [hfree,hsame,hmask,hmask,hunit]
  omega

/-- Every pnode is in the view, with the properties of an empty file-system. -/
theorem Fresh.pnodeView_eq (h : Fresh crc16 out) (garbage : Place → ℕ) (ltab : ℕ → LptLprops)
    {col : ℕ} (hcol : col<out.info.pnodeCnt) :
    pnodeView out.info (flashOf out crc16 garbage) (newTree out ltab) col=
      some (.ok ⟨col,col%4,setPnodeLnum out.info col
        ((List.range 4).map fun j => emptyLprops out.info (4*col+j))⟩) := by
  have hplan := h.planned
  have hpos := lptHght_pos out.info.toInfo
  have hdiv : 4*(col/4)+col%4=col := Nat.div_add_mod col 4
  have hiip : col%4<4 := Nat.mod_lt col (by decide)
  have hlow : col<4^out.info.lptHght := by
    refine hcol.trans_le ?_
    rw [← hplan.maxPnodeCnt_eq]
    exact maxPnodeCnt_le out.info.toInfo
  have hcol1 : col/4<4^(out.info.lptHght-1) := by
    have hpow : 4^out.info.lptHght=4^(out.info.lptHght-1)*4 := by
      rw [← pow_succ,Nat.sub_add_cancel hpos]
    omega
  have hcol' : col/4<lvCnt out.info 1 := by
    refine Nat.not_le.mp fun hle => ?_
    have := (divRoundUp_le_iff (lvCnt out.info 0) (col/4)).mp hle
    change out.info.pnodeCnt≤_ at this
    omega
  have hparent := h.nnodeView_eq garbage ltab
    (show out.info.lptHght-1+0+1=out.info.lptHght by omega) hcol'
  have ⟨x,hx,hplanned⟩ := h.nodes 0 (Nat.zero_le _) col hcol
  have ⟨_,_,honFlash⟩ := h.ltab
  have ⟨hlen,hunpack⟩ : PnodeBytes out.info crc16 col x.bytes := hplanned.bytes
  have hread := honFlash.read crc16 hx garbage
  rw [hplanned.lnum,hplanned.offs,hlen] at hread
  have hlnum : (lvPlace out.info 0 col).bin≠0 := by
    have hin := (hplan.lvPlace_in (Nat.zero_le _) (show col<lvCnt out.info 0 from hcol)).1
    have hfirst := hplan.valid.lptFirst
    omega
  have hbranch : (lvNnode out.info 0 (col/4)).nbranch[col%4]?=
      some ⟨(lvPlace out.info 0 col).bin,(lvPlace out.info 0 col).offs⟩ := by
    have hget : (lvNnode out.info 0 (col/4)).nbranch[col%4]?=
        some (lvBranch out.info 0 (4*(col/4)+col%4)) := by
      unfold lvNnode
      rw [List.getElem?_map,List.getElem?_range hiip]
      rfl
    rw [hget,hdiv]
    unfold lvBranch
    rw [if_pos (show col<lvCnt out.info 0 from hcol)]
  have hnum : calcPnodeNumFromParent out.info.lptHght
      (calcNnodeNum (out.info.lptHght-1) (col/4)) (col%4)=col := by
    rw [calcPnodeNumFromParent_eq hcol1 hiip,hdiv]
  unfold pnodeView
  rw [hparent]
  change makePnode _ _ _ _=_
  unfold makePnode
  rw [hbranch,Option.bind_some,if_neg hlnum,hread]
  dsimp only
  rw [show (flashOf out crc16 garbage).crc16=crc16 from rfl,
    hunpack (flashOf out crc16 garbage).garbage ⟨0,[]⟩,andThen_ok]
  have hvalid : ∀ parent : MemNnode,parent.num=calcNnodeNum (out.info.lptHght-1) (col/4) →
      validatePnode out.info ⟨if out.info.bigLpt then col else 0,
        (List.range 4).map fun j => emptyLprops out.info (4*col+j)⟩ parent (col%4)=.ok () := by
    intro parent hparent
    unfold validatePnode
    rw [hparent,hnum,if_neg fun e => e.2 (if_pos e.1),if_neg]
    intro hany
    have ⟨l,hl,hbad⟩ := List.any_eq_true.mp hany
    have ⟨j,_,hj⟩ := List.mem_map.mp hl
    rw [← hj] at hbad
    exact hplan.emptyLprops_valid (4*col+j) (of_decide_eq_true hbad)
  have hsame : (if out.info.bigLpt then (if out.info.bigLpt then col else 0) else col)=col := by
    split <;> rfl
  have hstored : (List.range 4).map (fun j => storedLprops out.info.toInfo
      (roundFree (dfltLprops out.info (4*col+j))))=
      (List.range 4).map fun j => emptyLprops out.info (4*col+j) := rfl
  rw [hstored,hvalid _ rfl]
  rw [hnum,hsame]

/-- The LEBs of the main area are those of an empty file-system. -/
theorem Fresh.props (h : Fresh crc16 out) (garbage : Place → ℕ) (ltab : ℕ → LptLprops) {i : ℕ}
    (hi : i<out.info.mainLebs) : ∃ p,pnodeView out.info (flashOf out crc16 garbage)
        (newTree out ltab) (i/4)=some (.ok p)∧
      p.lprops[i%4]?=some ⟨out.info.mainFirst+i,emptyLprops out.info i⟩ := by
  have hcol : i/4<out.info.pnodeCnt := by
    unfold LptInfo.pnodeCnt divRoundUp UBIFS_LPT_FANOUT
    omega
  have hmain := h.planned.valid.lebCnt.1
  refine ⟨_,h.pnodeView_eq garbage ltab hcol,?_⟩
  have hlt : i%4<4 := Nat.mod_lt i (by decide)
  have hdiv : 4*(i/4)+i%4=i := Nat.div_add_mod i 4
  unfold setPnodeLnum
  dsimp only
  rw [List.getElem?_mapIdx,List.getElem?_map,List.getElem?_range hlt,Option.map_some,
    Option.map_some,hdiv]
  have hlnum : (i/4)<<<UBIFS_LPT_FANOUT_SHIFT+out.info.mainFirst+i%4=out.info.mainFirst+i := by
    unfold UBIFS_LPT_FANOUT_SHIFT
    omega
  rw [hlnum,if_neg]
  unfold Info.mainFirst
  omega

theorem Fresh.readable (h : Fresh crc16 out) (garbage : Place → ℕ) (ltab : ℕ → LptLprops) :
    Readable out.info (flashOf out crc16 garbage) (newTree out ltab) := fun _ hi =>
  have ⟨p,hp,_⟩ := h.props garbage ltab hi
  ⟨p,hp⟩

/-! ## The tables -/

/-- LEBs of the main area are looked up one after another. -/
theorem lookupAll_ensures {f : Flash} {s : Lpt} (hmax : c.lebCnt≤c.maxLebCnt)
    {lnums : List ℕ} (hlnums : ∀ lnum∈lnums,c.mainFirst≤lnum∧lnum<c.lebCnt)
    (hmain : c.mainLebs≤c.lebCnt) (h : MemGood c s) (hread : Readable c f s) :
    Ensures c f (lookupAll c f lnums) s fun _ _ => True := by
  induction lnums generalizing s with
  | nil => exact Ensures.pure h trivial
  | cons lnum lnums ih =>
    have ⟨hfirst,hlast⟩ := hlnums lnum List.mem_cons_self
    have hi : lnum-c.mainFirst<c.mainLebs := by
      unfold Info.mainFirst at hfirst ⊢
      omega
    have ⟨p,hp⟩ := hread _ hi
    unfold lookupAll
    rw [if_neg (Nat.not_le.mpr hlast)]
    refine (ubifsLptLookup_ensures rfl (pnode_col_lt hmax hi) h hp).bind
      fun _ t hgood hsame _ => ?_
    refine ih (fun x hx => hlnums x (List.mem_cons_of_mem lnum hx)) hgood fun i hi => ?_
    have ⟨q,hq⟩ := hread i hi
    exact ⟨q,(hsame.pnodes _).trans hq⟩

theorem Fresh.readLsave_ok (h : Fresh crc16 out) (hbig : out.info.bigLpt=true)
    (garbage : Place → ℕ) (ltab : ℕ → LptLprops) :
    ∃ t,readLsave out.info (flashOf out crc16 garbage) out.lsaveLnum out.lsaveOffs
      (newTree out ltab)=some (.ok (dfltLsave out.info),t) := by
  have ⟨x,hx,_,hlnum,hoffs,hlen,hunpack⟩ := h.lsave hbig
  have ⟨_,_,honFlash⟩ := h.ltab
  have hread := honFlash.read crc16 hx garbage
  have hmain := h.planned.valid.lebCnt
  have hpos := h.planned.mainLebs
  rw [hlnum,hoffs,hlen] at hread
  have hlnums : ∀ lnum∈dfltLsave out.info,out.info.mainFirst≤lnum∧lnum<out.info.lebCnt := by
    intro lnum hmem
    have ⟨i,_,hi⟩ := List.mem_map.mp hmem
    rw [← hi]
    unfold Info.mainFirst
    split <;> omega
  have ⟨u,t,hrun,_⟩ := lookupAll_ensures hmain.2.1 hlnums hmain.1 (newTree_good out ltab)
    (h.readable garbage ltab)
  refine ⟨t,?_⟩
  unfold readLsave
  rw [hread]
  dsimp only
  rw [show (flashOf out crc16 garbage).crc16=crc16 from rfl,hunpack,Option.bind_some]
  dsimp only
  rw [hrun]
  rfl

/-! ## All of it -/

/-- Something of the log, where some variables say it is. -/
def Logged (out : Created) (item : Item) (lnum offs : ℕ) : Prop :=
  ∃ x∈out.log,x.item=item∧x.lnum=lnum∧x.offs=offs

theorem Fresh.logged (h : Fresh crc16 out) {lv k : ℕ} (hlv : lv≤out.info.lptHght)
    (hk : k<lvCnt out.info lv) :
    Logged out (lvItem out.info lv k) (lvPlace out.info lv k).bin (lvPlace out.info lv k).offs :=
  have ⟨x,hx,hplanned⟩ := h.nodes lv hlv k hk
  ⟨x,hx,hplanned.item,hplanned.lnum,hplanned.offs⟩

/-- The branches of a nnode in the view are where the nodes below were written. -/
theorem Fresh.branches (h : Fresh crc16 out) (garbage : Place → ℕ) (ltab : ℕ → LptLprops)
    {lv row col : ℕ} (hlv : row+lv+1=out.info.lptHght) (hcol : col<lvCnt out.info (lv+1)) :
    ∃ n,nnodeView out.info (flashOf out crc16 garbage) (newTree out ltab) row col=some (.ok n)∧
      ∀ j<4,∃ b,n.nbranch[j]?=some b∧
        if 4*col+j<lvCnt out.info lv
          then Logged out (lvItem out.info lv (4*col+j)) b.lnum b.offs else b=⟨0,0⟩ := by
  refine ⟨_,h.nnodeView_eq garbage ltab hlv hcol,fun j hj => ⟨lvBranch out.info lv (4*col+j),?_,?_⟩⟩
  · unfold lvNnode
    rw [List.getElem?_map,List.getElem?_range hj]
    rfl
  · unfold lvBranch
    split
    next hk => exact h.logged (by omega) hk
    · rfl

/-- A new tree is written inside its area, and reads back. -/
theorem dfltLpt_reads_back {c : LptInfo} {mainLebs lptFirst : ℕ}
    (hg : Geometry c mainLebs lptFirst) (crc16 : List UInt8 → UInt16) (fails : ℕ → Option ℤ)
    {buf : List UInt8} (hbuf : buf.length=c.lebSize) :
    ∃ r,ubifsCreateDfltLpt c crc16 fails buf mainLebs lptFirst=some r∧
      ∀ out,r=.ok out →
      (∀ lnum data,out.flash lnum=some data →
        lptFirst≤lnum∧lnum<lptFirst+out.info.lptLebs∧data.length≤c.lebSize)∧
      (∀ x∈out.log,x.offs+x.bytes.length≤c.lebSize∧∃ data,out.flash x.lnum=some data∧
        slice data x.offs x.bytes.length=x.bytes)∧
      out.log.map Placed.item=dfltItems out.info∧lvCnt out.info out.info.lptHght=1∧
      Logged out (.nnode 0 0) out.root.lptLnum out.root.lptOffs∧
      Logged out .ltab out.ltabLnum out.ltabOffs∧
      (out.info.bigLpt=true → Logged out .lsave out.lsaveLnum out.lsaveOffs)∧
      (∀ i,(emptyLprops out.info i).free=(dfltLprops out.info i).free/8*8∧
        (8∣c.lebSize → (emptyLprops out.info i).free=(dfltLprops out.info i).free)∧
        (emptyLprops out.info i).dirty=(dfltLprops out.info i).dirty∧
        (emptyLprops out.info i).flags.index=(dfltLprops out.info i).flags.index)∧
      ∀ (garbage : Place → ℕ) (ltab₀ : ℕ → LptLprops),
        MemGood out.info (newTree out ltab₀)∧
        (∀ row lv col,row+lv+1=out.info.lptHght → col<lvCnt out.info (lv+1) →
          ∃ n,nnodeView out.info (flashOf out crc16 garbage) (newTree out ltab₀) row col=
              some (.ok n)∧
            ∀ j<4,∃ b,n.nbranch[j]?=some b∧if 4*col+j<lvCnt out.info lv
              then Logged out (lvItem out.info lv (4*col+j)) b.lnum b.offs else b=⟨0,0⟩)∧
        (∀ i<out.info.mainLebs,(∃ p,pnodeView out.info (flashOf out crc16 garbage)
            (newTree out ltab₀) (i/4)=some (.ok p))∧
          ∃ t,ubifsLptLookup out.info (flashOf out crc16 garbage) (out.info.mainFirst+i)
            (newTree out ltab₀)=
              some (.ok (some ⟨out.info.mainFirst+i,emptyLprops out.info i⟩),t))∧
        (∃ ltab,readLtab out.info (flashOf out crc16 garbage) out.ltabLnum out.ltabOffs=
            some (.ok ltab)∧
          ∀ i<out.info.lptLebs,∃ l,ltab[i]?=some l∧
            l.free+l.dirty+used out.log (lptFirst+i)=c.lebSize)∧
        (out.info.bigLpt=true → ∃ t,readLsave out.info (flashOf out crc16 garbage) out.lsaveLnum
          out.lsaveOffs (newTree out ltab₀)=some (.ok (dfltLsave out.info),t)) := by
  have ⟨r,hr,hyields⟩ := ubifsCreateDfltLpt_yields hg crc16 fails hbuf
  refine ⟨r,hr,fun out hout => ?_⟩
  have ⟨h,_,hsize,_,hfirst⟩ := hyields out hout
  have hplan := h.planned
  have hpos := lptHght_pos out.info.toInfo
  have ⟨ltab,⟨x,hx,hitem,hlnum,hoffs,hlen,hunpack⟩,honFlash⟩ := h.ltab
  have htop : lvCnt out.info out.info.lptHght=1 := by
    have hone := (hplan.lvCnt_eq_one_iff (show out.info.lptHght-1<out.info.lptHght by omega)).mpr
      (Nat.sub_add_cancel hpos)
    rwa [Nat.sub_add_cancel hpos] at hone
  refine ⟨fun lnum data hdata => ?_,fun y hy => hsize▸honFlash.stored y hy,h.items,htop,?_,
    ⟨x,hx,hitem,hlnum,hoffs⟩,fun hbig => ?_,fun i => ⟨rfl,fun h8 => Nat.div_mul_cancel
      (hplan.dfltLprops_dvd (hsize.symm▸h8) i),rfl,rfl⟩,fun garbage ltab₀ =>
    ⟨newTree_good out ltab₀,fun row lv col hrow hcol => h.branches garbage ltab₀ hrow hcol,
      fun i hi => ?_,⟨ltab,?_,fun i hi => ?_⟩,fun hbig => h.readLsave_ok hbig garbage ltab₀⟩⟩
  · have ⟨hin,hlast,hroom⟩ := honFlash.area lnum data hdata
    have hlebs : 0<out.info.lptLebs := Nat.lt_of_lt_of_le (by decide) hplan.valid.lptLebs.1
    unfold Info.lptLast at hlast
    exact ⟨hfirst▸hin,by omega,hsize▸hroom⟩
  · have hroot := h.logged (Nat.le_refl _) (htop.symm▸Nat.one_pos : 0<lvCnt out.info out.info.lptHght)
    have hitem' : ∀ n,n=out.info.lptHght → lvItem out.info n 0=.nnode 0 0 := by
      intro n hn
      cases n with
      | zero => omega
      | succ n =>
        change Item.nnode (out.info.lptHght-1-n) 0=_
        rw [show out.info.lptHght-1-n=0 by omega]
    rw [h.root,← hitem' _ rfl]
    exact hroot
  · have ⟨y,hy,hitem',hlnum',hoffs',_⟩ := h.lsave hbig
    exact ⟨y,hy,hitem',hlnum',hoffs'⟩
  · have ⟨p,hp,hl⟩ := h.props garbage ltab₀ hi
    have hmax := hplan.valid.lebCnt.2.1
    refine ⟨⟨p,hp⟩,?_⟩
    have ⟨l,t,hrun,_,_,hl'⟩ := ubifsLptLookup_ensures (Nat.add_sub_cancel_left ..)
      (pnode_col_lt hmax hi) (newTree_good out ltab₀) hp
    rw [hl'.trans hl] at hrun
    exact ⟨t,hrun⟩
  · have hread := honFlash.read crc16 hx garbage
    rw [hlnum,hoffs,hlen] at hread
    unfold readLtab
    rw [hread]
    exact hunpack garbage
  · have ⟨l,hl,hsum⟩ := honFlash.accounts i hi
    exact ⟨l,hl,hsize▸hfirst▸hsum⟩

/-- A small volume. -/
def smallVolume : LptInfo where
  lebSize := 15360
  minIdxNodeSz := 128
  deadWm := 512
  mainLebs := 0
  lebCnt := 17
  maxLebCnt := 17
  lptFirst := 0
  lptLebs := 0
  lsaveCnt := DEFAULT_LSAVE_CNT
  bigLpt := false
  minIoSize := 512

theorem smallVolume_geometry : Geometry smallVolume 10 6 where
  lebSize := by decide
  lebCnt := by decide
  maxLebCnt := rfl
  lsaveCnt := rfl
  mainLebs := by decide
  lptFirst := by decide
  minIoSize := ⟨9,by decide,rfl⟩

theorem dfltLpt_reads_back_example : ∃ out,
    ubifsCreateDfltLpt smallVolume (fun _ => 0) (fun _ => none) (List.replicate 15360 0) 10 6=
      some (.ok out)∧Logged out (.nnode 0 0) out.root.lptLnum out.root.lptOffs := by
  have ⟨r,hr,h⟩ := dfltLpt_reads_back smallVolume_geometry (fun _ => 0) (fun _ => none)
    (List.length_replicate : (List.replicate 15360 (0 : UInt8)).length=15360)
  have hok : ∃ r∈ubifsCreateDfltLpt smallVolume (fun _ => 0) (fun _ => none)
      (List.replicate 15360 0) 10 6,r.isOk=true := by decide +kernel
  have ⟨r',hr',hok'⟩ := hok
  cases hr.symm.trans hr'
  cases r with
  | error err => cases hok'
  | ok out => exact ⟨out,hr,(h out rfl).2.2.2.2.1⟩

end ArdroneKernel.UbifsLpt
