import ArdroneKernel.UbifsLptPlan
import ArdroneKernel.UbifsLptViews
import ArdroneKernel.UbifsLptWriter

/-!
# The levels of a new tree

Level after level is packed where the plan has its nodes. The branches follow
the level below with a cursor of their own, which opens a new LEB exactly where
the writer did, so they are the places of the nodes below.
-/

namespace ArdroneKernel.UbifsLpt

open NextFit UbifsLprops

variable {c : LptInfo} {crc16 : List UInt8 → UInt16} {fails : ℕ → Option ℤ} {w : Writer} {lv k : ℕ}

/-! ## Pnodes -/

/-- The properties as a pnode has room for them: free space in units of 8 bytes. -/
def roundFree (l : Lprops) : Lprops := {l with free := l.free/8*8}

/-- The default properties of a LEB, by its place in the main area. -/
def dfltLprops (c : LptInfo) (i : ℕ) : Lprops :=
  if i=0 then indexLprops c else if i=1 then inodeLprops c else freeLprops c

/-- Space that a pnode can have. -/
structure SpaceOk (c : LptInfo) (l : Lprops) : Prop where
  dirty : l.dirty%8=0
  sum : l.free+l.dirty≤c.lebSize
  unit : c.minIoSize=8∨c.minIoSize∣l.free

theorem dvd_align (n a : ℕ) : a∣align n a := Nat.dvd_mul_left _ _

/-- A node at the start of a LEB, which is padded to the unit. -/
theorem Planned.space_of_node (h : Planned c) {n : ℕ} (hn : n≤160) (hn8 : n%8=0) (b : Bool) :
    SpaceOk c ⟨c.lebSize-align n c.minIoSize,align n c.minIoSize-n,{ index := b }⟩ := by
  have ⟨h8,hle,hunit⟩ := h.minIoSize
  have hpos : 0<c.minIoSize := Nat.pos_of_ne_zero fun e => by
    have hmin := h.valid.lebSize.1
    rcases hunit with hunit|hunit
    · omega
    · rw [e] at hunit
      rw [Nat.eq_zero_of_zero_dvd hunit] at hmin
      cases hmin
  have hdvd := dvd_align n c.minIoSize
  have halign8 : align n c.minIoSize%8=0 := Nat.mod_eq_zero_of_dvd (h8.trans hdvd)
  have hroom : align n c.minIoSize≤c.lebSize := by
    have hmin := h.valid.lebSize.1
    unfold UBIFS_MIN_LEB_SZ at hmin
    by_cases hbig : 160≤c.minIoSize
    · have hquot : (n+c.minIoSize-1)/c.minIoSize≤1 := by
        rw [Nat.div_le_iff_le_mul_add_pred hpos]
        omega
      calc (n+c.minIoSize-1)/c.minIoSize*c.minIoSize≤1*c.minIoSize := Nat.mul_le_mul_right _ hquot
        _≤c.lebSize := by omega
    · have hlt : align n c.minIoSize≤n+c.minIoSize-1 := Nat.div_mul_le_self _ _
      omega
  refine ⟨?_,?_,?_⟩
  · dsimp only
    omega
  · dsimp only
    omega
  · rcases hunit with hunit|hunit
    · exact .inl hunit
    · exact .inr (Nat.dvd_sub hunit hdvd)

theorem Planned.space_ok (h : Planned c) (i : ℕ) : SpaceOk c (dfltLprops c i) := by
  unfold dfltLprops
  split
  · exact h.space_of_node (n := 48) (by decide) (by decide) true
  · split
    · exact h.space_of_node (n := 160) (by decide) (by decide) false
    · exact ⟨rfl,Nat.le_refl _,h.minIoSize.2.2⟩

theorem dfltPnode_lprops (c : LptInfo) (num : ℕ) :
    (dfltPnode c num).lprops=(List.range 4).map fun j => dfltLprops c (4*num+j) := by
  unfold dfltPnode
  by_cases hnum : num=0
  · rw [if_pos hnum,hnum]
    rfl
  · rw [if_neg hnum]
    have hfree : ∀ j,dfltLprops c (4*num+j)=freeLprops c := fun j => by
      unfold dfltLprops
      rw [if_neg (by omega),if_neg (by omega)]
    refine List.eq_replicate_iff.mpr ⟨?_,?_⟩|>.symm
    · rfl
    · intro l hl
      have ⟨j,_,hj⟩ := List.mem_map.mp hl
      rw [← hj,hfree]

theorem dfltPnode_num (c : LptInfo) (num : ℕ) : (dfltPnode c num).num=num := by
  unfold dfltPnode
  split
  next h => exact h.symm
  · rfl

/-- Space is packed in units of 8 bytes. -/
theorem packPnode_round (c : Info) (crc16 : List UInt8 → UInt16) (buf : List UInt8) (p : Pnode) :
    ubifsPackPnode c crc16 buf p=ubifsPackPnode c crc16 buf ⟨p.num,p.lprops.map roundFree⟩ := by
  have hfields : ∀ l,lpropsFields c (roundFree l)=lpropsFields c l := by
    intro l
    have hfree : (l.free/8*8)>>>3=l.free>>>3 := by
      rw [Nat.shiftRight_eq_div_pow,Nat.shiftRight_eq_div_pow]
      exact Nat.mul_div_cancel _ (by decide)
    unfold lpropsFields roundFree
    rw [hfree]
  have hflat : (p.lprops.map roundFree).flatMap (lpropsFields c)=
      p.lprops.flatMap (lpropsFields c) := by
    rw [List.flatMap_map]
    exact congrArg (p.lprops.flatMap ·) (funext hfields)
  unfold ubifsPackPnode
  rw [hflat]

/-- What the bytes of a pnode say. -/
def PnodeBytes (c : LptInfo) (crc16 : List UInt8 → UInt16) (num : ℕ) (bytes : List UInt8) : Prop :=
  bytes.length=c.pnodeSz∧∀ (garbage : Place → ℕ) (old : Pnode),
    unpackPnode c.toInfo crc16 garbage bytes old=some (.ok ⟨if c.bigLpt then num else old.num,
      (List.range 4).map fun j => storedLprops c.toInfo (roundFree (dfltLprops c (4*num+j)))⟩)

/-- What the bytes of a nnode say. -/
def NnodeBytes (c : LptInfo) (crc16 : List UInt8 → UInt16) (n : Nnode) (bytes : List UInt8) : Prop :=
  bytes.length=c.nnodeSz∧∀ (garbage : Place → ℕ) (old : Nnode),
    ubifsUnpackNnode c.toInfo crc16 garbage bytes old=
      some (.ok ⟨if c.bigLpt then n.num else old.num,n.nbranch⟩)

/-- What is packed is read back with any values in uninitialised variables. -/
theorem packs_of_roundTrips {ι α β : Type} (i0 : ι) {sz : ℕ}
    {pack : List UInt8 → α → Option (List UInt8)} {unpack : ι → List UInt8 → Option (Except ℤ β)}
    {x : α} {stored : ι → β} (h : ∀ i,RoundTrips sz pack (unpack i) x (stored i))
    (old : List UInt8) (hold : old.length=sz) :
    ∃ bytes,pack old x=some bytes∧bytes.length=sz∧
      ∀ i,unpack i bytes=some (.ok (stored i)) := by
  have ⟨bytes,hpack,hlen,_⟩ := h i0 old hold
  refine ⟨bytes,hpack,hlen,fun i => ?_⟩
  have ⟨bytes',hpack',_,hunpack⟩ := h i old hold
  rw [hpack] at hpack'
  cases hpack'
  exact hunpack

theorem Planned.pnode_packs (h : Planned c) (crc16 : List UInt8 → UInt16) {num : ℕ}
    (hnum : num<c.pnodeCnt) (old : List UInt8) (hold : old.length=c.pnodeSz) :
    ∃ bytes,ubifsPackPnode c.toInfo crc16 old (dfltPnode c num)=some bytes∧
      bytes.length=c.pnodeSz∧PnodeBytes c crc16 num bytes := by
  have hok : PnodeOk c.toInfo
      ⟨num,(List.range 4).map fun j => roundFree (dfltLprops c (4*num+j))⟩ := by
    refine ⟨⟨num,h.maxPnodeCnt_eq.symm▸hnum,?_⟩,rfl,fun l hl => ?_⟩
    · exact (calcPnodeNum_eq c.toInfo (h.maxPnodeCnt_eq.symm▸hnum)).symm
    · have ⟨j,_,hj⟩ := List.mem_map.mp hl
      have hspace := h.space_ok (4*num+j)
      have hsum := hspace.sum
      have hdirty := hspace.dirty
      rw [← hj]
      unfold roundFree
      dsimp only
      omega
  have hround : ∀ buf,ubifsPackPnode c.toInfo crc16 buf (dfltPnode c num)=
      ubifsPackPnode c.toInfo crc16 buf
        ⟨num,(List.range 4).map fun j => roundFree (dfltLprops c (4*num+j))⟩ := by
    intro buf
    rw [packPnode_round,dfltPnode_num,dfltPnode_lprops,List.map_map]
    rfl
  have hpacks := packs_of_roundTrips ((fun _ => 0,⟨0,[]⟩) : (Place → ℕ)×Pnode)
    (fun i => pnode_roundTrips h.valid crc16 i.1 i.2 hok) old hold
  have ⟨bytes,hpack,hlen,hunpack⟩ := hpacks
  refine ⟨bytes,(hround old).trans hpack,hlen,hlen,fun garbage old => ?_⟩
  have hback := hunpack ⟨garbage,old⟩
  rwa [List.map_map] at hback

/-! ## Nnodes -/

/-- The branch to a node of a level. -/
def lvBranch (c : LptInfo) (lv k : ℕ) : Nbranch :=
  if k<lvCnt c lv then ⟨(lvPlace c lv k).bin,(lvPlace c lv k).offs⟩ else ⟨0,0⟩

/-- A nnode above a level. -/
def lvNnode (c : LptInfo) (lv i : ℕ) : Nnode :=
  ⟨calcNnodeNum (c.lptHght-1-lv) i,(List.range 4).map fun j => lvBranch c lv (4*i+j)⟩

theorem Planned.lvBranch_in (h : Planned c) (hlv : lv≤c.lptHght) :
    ((lvBranch c lv k).lnum=0∧(lvBranch c lv k).offs=0∨
      c.lptFirst≤(lvBranch c lv k).lnum∧(lvBranch c lv k).lnum≤c.lptLast)∧
    (lvBranch c lv k).offs+lvSz c lv≤c.lebSize := by
  unfold lvBranch
  split
  next hk =>
    have ⟨hfirst,hlast,hroom⟩ := h.lvPlace_in hlv hk
    refine ⟨.inr ⟨hfirst,?_⟩,hroom⟩
    unfold Info.lptLast
    dsimp only
    omega
  · refine ⟨.inl ⟨rfl,rfl⟩,?_⟩
    rw [Nat.zero_add]
    exact h.lvSz_le lv

theorem lvSz_pos (c : LptInfo) (lv : ℕ) : 0<lvSz c lv := by
  cases lv with
  | zero =>
    change 0<c.pnodeSz
    unfold Info.pnodeSz Info.pnodeBits UBIFS_LPT_CRC_BITS UBIFS_LPT_TYPE_BITS
    omega
  | succ lv =>
    change 0<c.nnodeSz
    unfold Info.nnodeSz Info.nnodeBits UBIFS_LPT_CRC_BITS UBIFS_LPT_TYPE_BITS
    omega

theorem Planned.nnode_packs (h : Planned c) (crc16 : List UInt8 → UInt16) {lv : ℕ} (i : ℕ)
    (hlv : lv<c.lptHght) (old : List UInt8) (hold : old.length=c.nnodeSz) :
    ∃ bytes,ubifsPackNnode c.toInfo crc16 old (lvNnode c lv i)=some bytes∧
      bytes.length=c.nnodeSz∧NnodeBytes c crc16 (lvNnode c lv i) bytes := by
  have hok : NnodeOk c.toInfo (lvNnode c lv i) := by
    refine ⟨⟨c.lptHght-1-lv,by omega,i,rfl⟩,rfl,fun b hb => ?_⟩
    have ⟨j,_,hj⟩ := List.mem_map.mp hb
    have ⟨hin,hroom⟩ := h.lvBranch_in (k := 4*i+j) (Nat.le_of_lt hlv)
    have hpos := lvSz_pos c lv
    rw [← hj]
    refine ⟨?_,by omega⟩
    rcases hin with hin|hin
    · exact .inl hin.1
    · exact .inr hin
  have ⟨bytes,hpack,hlen,hunpack⟩ := packs_of_roundTrips ((fun _ => 0,⟨0,[]⟩) : (Place → ℕ)×Nnode)
    (fun i => nnode_roundTrips h.valid crc16 i.1 i.2 hok) old hold
  exact ⟨bytes,hpack,hlen,hlen,fun garbage old => hunpack ⟨garbage,old⟩⟩

/-! ## The log of a level -/

/-- The nodes of the levels. -/
def lvItem (c : LptInfo) : ℕ → ℕ → Item
  | 0,k => .pnode k
  | lv+1,k => .nnode (c.lptHght-1-lv) k

def LvBytes (c : LptInfo) (crc16 : List UInt8 → UInt16) : ℕ → ℕ → List UInt8 → Prop
  | 0,k,bytes => PnodeBytes c crc16 k bytes
  | lv+1,k,bytes => NnodeBytes c crc16 (lvNnode c lv k) bytes

/-- A node is where the plan has it. -/
structure AsPlanned (c : LptInfo) (crc16 : List UInt8 → UInt16) (lv k : ℕ) (x : Placed) : Prop where
  item : x.item=lvItem c lv k
  lnum : x.lnum=(lvPlace c lv k).bin
  offs : x.offs=(lvPlace c lv k).offs
  bytes : LvBytes c crc16 lv k x.bytes

/-- Some nodes of a level from one on. -/
def NodesFrom (c : LptInfo) (crc16 : List UInt8 → UInt16) (lv : ℕ) : ℕ → List Placed → Prop
  | _,[] => True
  | k,x::xs => AsPlanned c crc16 lv k x∧NodesFrom c crc16 lv (k+1) xs

theorem NodesFrom.get {xs : List Placed} (h : NodesFrom c crc16 lv k xs) {j : ℕ} (hj : j<xs.length) :
    ∃ x∈xs,AsPlanned c crc16 lv (k+j) x := by
  induction xs generalizing k j with
  | nil => cases hj
  | cons x xs ih =>
    cases j with
    | zero => exact ⟨x,List.mem_cons_self,h.1⟩
    | succ j =>
      have ⟨y,hy,hplanned⟩ := ih h.2 (Nat.lt_of_succ_lt_succ hj)
      rw [Nat.add_right_comm] at hplanned
      exact ⟨y,List.mem_cons_of_mem x hy,hplanned⟩

theorem NodesFrom.items {xs : List Placed} (h : NodesFrom c crc16 lv k xs) :
    xs.map Placed.item=(List.range' k xs.length).map (lvItem c lv) := by
  induction xs generalizing k with
  | nil => rfl
  | cons x xs ih =>
    rw [List.map_cons,List.length_cons,List.range'_succ,List.map_cons,h.1.item,ih h.2]

/-- The levels that are complete. -/
structure Levels (c : LptInfo) (crc16 : List UInt8 → UInt16) (lv : ℕ) (log : List Placed) : Prop where
  nodes : ∀ l<lv,∀ k<lvCnt c l,∃ x∈log,AsPlanned c crc16 l k x
  items : log.map Placed.item=
    (List.range lv).flatMap fun l => (List.range (lvCnt c l)).map (lvItem c l)

theorem Levels.add {lv : ℕ} {log xs : List Placed} (h : Levels c crc16 lv log)
    (hxs : NodesFrom c crc16 lv 0 xs) (hlen : xs.length=lvCnt c lv) :
    Levels c crc16 (lv+1) (log++xs) := by
  refine ⟨fun l hl k hk => ?_,?_⟩
  · rcases Nat.lt_or_eq_of_le (Nat.le_of_lt_succ hl) with hlt|he
    · have ⟨x,hx,hplanned⟩ := h.nodes l hlt k hk
      exact ⟨x,List.mem_append_left xs hx,hplanned⟩
    · subst he
      have ⟨x,hx,hplanned⟩ := hxs.get (j := k) (hlen.symm▸hk)
      rw [Nat.zero_add] at hplanned
      exact ⟨x,List.mem_append_right log hx,hplanned⟩
  · rw [List.map_append,h.items,hxs.items,hlen,List.range_succ,List.flatMap_append,
      List.flatMap_singleton,← List.range_eq_range']

/-! ## The loops -/

theorem Planned.minIoSize_pos (h : Planned c) : 0<c.minIoSize := by
  have ⟨h8,_,hunit⟩ := h.minIoSize
  have hmin := h.valid.lebSize.1
  rcases hunit with hunit|hunit
  · omega
  · refine Nat.pos_of_ne_zero fun e => ?_
    rw [e] at hunit
    rw [Nat.eq_zero_of_zero_dvd hunit] at hmin
    cases hmin

/-- The LEB is changed before a node of a level when next fit says so. -/
theorem Planned.break_level (h : Planned c) (fails : ℕ → Option ℤ) (hw : Filled c w)
    (hlv : lv≤c.lptHght) (hk : k<lvCnt c lv) (hcur : w.cursor=lvCursor c lv k) :
    Yields (w.breakLeb c fails (lvSz c lv)) fun w' =>
      Filled c w'∧w'.cursor=lvPlace c lv k∧w'.log=w.log := by
  have hlast := (h.lvPlace_in hlv hk).2.1
  unfold lvPlace at hlast ⊢
  rw [← hcur] at hlast ⊢
  exact breakLeb_yields hw h.minIoSize_pos hlast

/-- A node of a level is packed where the plan has it. -/
theorem Planned.put_level (h : Planned c) (hw : Filled c w) (hlv : lv≤c.lptHght) (hk : k<lvCnt c lv)
    (hcur : w.cursor=lvPlace c lv k) {pack : List UInt8 → Option (List UInt8)}
    (hpack : ∀ old : List UInt8,old.length=lvSz c lv →
      ∃ bytes,pack old=some bytes∧bytes.length=lvSz c lv∧LvBytes c crc16 lv k bytes) :
    Yields (w.put (lvItem c lv k) (lvSz c lv) pack) fun w' =>
      Filled c w'∧w'.cursor=lvCursor c lv (k+1)∧
        ∃ x,w'.log=w.log++[x]∧AsPlanned c crc16 lv k x := by
  have hroom := (h.lvPlace_in hlv hk).2.2
  have hbin : w.lnum=(lvPlace c lv k).bin := congrArg Cursor.bin hcur
  have hoffs : w.len=(lvPlace c lv k).offs := congrArg Cursor.offs hcur
  have ⟨r,hr,hyields⟩ := put_yields hw (by rw [hoffs]; exact hroom) (lvItem c lv k) hpack
  refine ⟨r,hr,fun w' hw' => ?_⟩
  have ⟨hfilled,hcursor,_,bytes,hbytes,hlog⟩ := hyields w' hw'
  refine ⟨hfilled,?_,⟨_,w.lnum,w.len,bytes⟩,hlog,rfl,hbin,hoffs,hbytes⟩
  rw [hcursor,hbin,hoffs]
  rfl

/-- The pnodes after some. -/
theorem Planned.addPnodes_yields (h : Planned c) (crc16 : List UInt8 → UInt16)
    (fails : ℕ → Option ℤ) {n k : ℕ} (hn : k+n=c.pnodeCnt) (hw : Filled c w)
    (hcur : w.cursor=lvCursor c 0 k) :
    Yields (addPnodes c crc16 fails n k w) fun w' => Filled c w'∧w'.cursor=lvStart c 1∧
      ∃ xs,w'.log=w.log++xs∧xs.length=n∧NodesFrom c crc16 0 k xs := by
  induction n generalizing k w with
  | zero =>
    refine Yields.ok ⟨hw,?_,[],(List.append_nil _).symm,rfl,trivial⟩
    rw [hcur,show k=c.pnodeCnt from hn]
    rfl
  | succ n ih =>
    have hk : k<lvCnt c 0 := show k<c.pnodeCnt by omega
    refine (h.break_level fails hw (Nat.zero_le _) hk hcur).bind
      fun w1 ⟨hw1,hcur1,hlog1⟩ => ?_
    refine (h.put_level hw1 (Nat.zero_le _) hk hcur1 (h.pnode_packs crc16 hk)).bind
      fun w2 ⟨hw2,hcur2,x,hlog2,hx⟩ => ?_
    have ⟨r,hr,hyields⟩ := ih (by omega) hw2 hcur2
    refine ⟨r,hr,fun w' hw' => ?_⟩
    have ⟨hfilled,hcursor,xs,hlog,hlen,hxs⟩ := hyields w' hw'
    refine ⟨hfilled,hcursor,x::xs,?_,congrArg (·+1) hlen,hx,hxs⟩
    rw [hlog,hlog2,hlog1,List.append_assoc]
    rfl

/-- The level below, after some of its nodes. -/
def belowAt (c : LptInfo) (lv k : ℕ) : Below :=
  let cur := lvCursor c lv (min k (lvCnt c lv))
  ⟨cur.bin,cur.offs,lvCnt c lv-k⟩

/-- The branches are the places of the nodes below. -/
theorem setBranches_eq (c : LptInfo) (lv n k : ℕ) : setBranches c (lvSz c lv) n (belowAt c lv k)=
    ((List.range n).map fun j => lvBranch c lv (k+j),belowAt c lv (k+n)) := by
  induction n generalizing k with
  | zero => rfl
  | succ n ih =>
    have hrange : (List.range (n+1)).map (fun j => lvBranch c lv (k+j))=
        lvBranch c lv k::(List.range n).map fun j => lvBranch c lv (k+1+j) := by
      rw [List.range_succ_eq_map,List.map_cons,List.map_map,Nat.add_zero]
      refine congrArg _ (List.map_congr_left fun j _ => ?_)
      exact congrArg (lvBranch c lv) (show k+(j+1)=k+1+j by omega)
    have hcount : k+(n+1)=k+1+n := by omega
    rw [hrange,hcount]
    unfold setBranches
    by_cases hk : k<lvCnt c lv
    · have hmin : min k (lvCnt c lv)=k := Nat.min_eq_left hk.le
      have hmin' : min (k+1) (lvCnt c lv)=k+1 := Nat.min_eq_left hk
      -- The cursor of the branches makes the step of the writer.
      have hstep : (if c.lebSize<(belowAt c lv k).boffs+lvSz c lv then
          {belowAt c lv k with blnum := (belowAt c lv k).blnum+1,boffs := 0} else belowAt c lv k)=
          (⟨(lvPlace c lv k).bin,(lvPlace c lv k).offs,lvCnt c lv-k⟩ : Below) := by
        unfold belowAt lvPlace Cursor.place
        rw [hmin]
        split <;> rfl
      have hnext : ({(⟨(lvPlace c lv k).bin,(lvPlace c lv k).offs,lvCnt c lv-k⟩ : Below) with
          boffs := (lvPlace c lv k).offs+lvSz c lv,bcnt := lvCnt c lv-k-1} : Below)=
          belowAt c lv (k+1) := by
        unfold belowAt
        rw [hmin']
        rfl
      have hleft : (belowAt c lv k).bcnt≠0 := Nat.sub_ne_zero_of_lt hk
      rw [if_pos hleft]
      rw [hstep]
      dsimp only
      rw [hnext,ih]
      unfold lvBranch
      rw [if_pos hk]
    · have hmin : min k (lvCnt c lv)=lvCnt c lv := Nat.min_eq_right (Nat.not_lt.mp hk)
      have hmin' : min (k+1) (lvCnt c lv)=lvCnt c lv :=
        Nat.min_eq_right (Nat.le_succ_of_le (Nat.not_lt.mp hk))
      have hnone : ¬(belowAt c lv k).bcnt≠0 := by
        unfold belowAt
        dsimp only
        omega
      have hnext : belowAt c lv k=belowAt c lv (k+1) := by
        unfold belowAt
        rw [hmin,hmin',show lvCnt c lv-k=0 by omega,show lvCnt c lv-(k+1)=0 by omega]
      rw [if_neg hnone,hnext,ih]
      unfold lvBranch
      rw [if_neg hk]

end ArdroneKernel.UbifsLpt
