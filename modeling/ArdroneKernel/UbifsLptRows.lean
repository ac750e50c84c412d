import ArdroneKernel.UbifsLptLevels

/-!
# The rows and the tables of a new tree

The rows of nnodes end with the root, at the height of the tree. The tables
come after them, and the table of the area accounts for its own bytes too.
-/

namespace ArdroneKernel.UbifsLpt

open NextFit

variable {c : LptInfo} {crc16 : List UInt8 → UInt16} {fails : ℕ → Option ℤ} {w : Writer}
  {buf : List UInt8}

/-- Where the root goes. -/
def rootPlace (c : LptInfo) : Root :=
  ⟨(lvPlace c c.lptHght 0).bin,(lvPlace c c.lptHght 0).offs⟩

/-- The nnodes of a row after some. -/
theorem Planned.addRow_yields (h : Planned c) (crc16 : List UInt8 → UInt16)
    (fails : ℕ → Option ℤ) {lv n i : ℕ} (hlv : lv<c.lptHght) (hn : i+n=lvCnt c (lv+1))
    (hw : Filled c w) (hcur : w.cursor=lvCursor c (lv+1) i) (root : Root)
    (hroot : lvCnt c (lv+1)=1 → 0< i → root=rootPlace c) :
    Yields (addRow c crc16 fails (c.lptHght-1-lv) (lvSz c lv) (lvCnt c (lv+1)) n i root
        (belowAt c lv (4*i)) w) fun (root',b,w') =>
      Filled c w'∧w'.cursor=lvStart c (lv+2)∧b=belowAt c lv (4*lvCnt c (lv+1))∧
        (lvCnt c (lv+1)=1 → root'=rootPlace c)∧
        ∃ xs,w'.log=w.log++xs∧xs.length=n∧NodesFrom c crc16 (lv+1) i xs := by
  induction n generalizing i w root with
  | zero =>
    have hi : i=lvCnt c (lv+1) := hn
    refine Yields.ok ⟨hw,?_,by rw [hi],fun hone => hroot hone (by omega),[],
      (List.append_nil _).symm,rfl,trivial⟩
    rw [hcur,hi]
    rfl
  | succ n ih =>
    have hi : i<lvCnt c (lv+1) := by omega
    refine (h.break_level fails hw hlv hi hcur).bind fun w1 ⟨hw1,hcur1,hlog1⟩ => ?_
    have hbranches := setBranches_eq c lv UBIFS_LPT_FANOUT (4*i)
    rw [hbranches]
    have hput : Yields (w1.put (.nnode (c.lptHght-1-lv) i) c.nnodeSz fun buf =>
        ubifsPackNnode c.toInfo crc16 buf ⟨calcNnodeNum (c.lptHght-1-lv) i,
          (List.range UBIFS_LPT_FANOUT).map fun j => lvBranch c lv (4*i+j)⟩) fun w' =>
        Filled c w'∧w'.cursor=lvCursor c (lv+1) (i+1)∧
          ∃ x,w'.log=w1.log++[x]∧AsPlanned c crc16 (lv+1) i x :=
      h.put_level hw1 hlv hi hcur1 (h.nnode_packs crc16 i hlv)
    refine hput.bind fun w2 ⟨hw2,hcur2,x,hlog2,hx⟩ => ?_
    have hnext : ∀ hone : lvCnt c (lv+1)=1,0< i+1 →
        (if lvCnt c (lv+1)=1 then (⟨w1.lnum,w1.len⟩ : Root) else root)=rootPlace c := by
      intro hone _
      have hi0 : i=0 := by omega
      have htop := (h.lvCnt_eq_one_iff hlv).mp hone
      have hplace : w1.cursor=lvPlace c c.lptHght 0 := by rw [hcur1,hi0,← htop]
      rw [if_pos hone]
      unfold rootPlace
      rw [← hplace]
      rfl
    have ⟨r,hr,hyields⟩ := ih (by omega) hw2 hcur2 _ hnext
    refine ⟨r,hr,fun ⟨root',b,w'⟩ hw' => ?_⟩
    have ⟨hfilled,hcursor,hb,hroot',xs,hlog,hlen,hxs⟩ := hyields _ hw'
    refine ⟨hfilled,hcursor,hb,hroot',x::xs,?_,congrArg (·+1) hlen,hx,hxs⟩
    rw [hlog,hlog2,hlog1,List.append_assoc]
    rfl

/-- The level that is done is the one below the next. -/
theorem belowAt_next (c : LptInfo) (lv : ℕ) :
    {belowAt c lv (4*lvCnt c (lv+1)) with bcnt := lvCnt c (lv+1)}=belowAt c (lv+1) 0 := by
  have hall : lvCnt c lv≤4*lvCnt c (lv+1) :=
    (divRoundUp_le_iff (lvCnt c lv) (lvCnt c (lv+1))).mp (Nat.le_refl _)
  unfold belowAt
  rw [Nat.min_eq_right hall,Nat.min_eq_left (Nat.zero_le _)]
  rfl

/-- The rows up to the root. -/
theorem Planned.addRows_yields (h : Planned c) (crc16 : List UInt8 → UInt16)
    (fails : ℕ → Option ℤ) {lv fuel : ℕ} (hfuel : c.lptHght≤lv+fuel) (hlv : lv<c.lptHght)
    (hw : Filled c w) (hcur : w.cursor=lvStart c (lv+1)) (hlog : Levels c crc16 (lv+1) w.log)
    (root : Root) :
    Yields (addRows c crc16 fails fuel (c.lptHght-1-lv) (lvCnt c lv) (lvSz c lv) root
        (belowAt c lv 0) w) fun (root',w') =>
      Filled c w'∧w'.cursor=lvStart c (c.lptHght+1)∧root'=rootPlace c∧
        Levels c crc16 (c.lptHght+1) w'.log := by
  induction fuel generalizing lv w root with
  | zero => omega
  | succ fuel ih =>
    have hrow := h.addRow_yields crc16 fails hlv (Nat.zero_add _) hw hcur root
      fun _ hi => absurd hi (Nat.lt_irrefl 0)
    refine hrow.bind fun ⟨root',b,w'⟩ ⟨hw',hcur',hb,hroot,xs,hxs,hlen,hnodes⟩ => ?_
    have hlevels : Levels c crc16 (lv+2) w'.log := hxs▸hlog.add hnodes hlen
    by_cases hone : lvCnt c (lv+1)=1
    · have htop := (h.lvCnt_eq_one_iff hlv).mp hone
      have hdone : (if divRoundUp (lvCnt c lv) UBIFS_LPT_FANOUT=1 then some (.ok (root',w'))
          else addRows c crc16 fails fuel (c.lptHght-1-lv-1)
            (divRoundUp (lvCnt c lv) UBIFS_LPT_FANOUT) c.nnodeSz root'
            {b with bcnt := divRoundUp (lvCnt c lv) UBIFS_LPT_FANOUT} w' :
          Option (Except ℤ (Root×Writer)))=some (.ok (root',w')) := if_pos hone
      dsimp only
      rw [hdone,← htop]
      exact Yields.ok ⟨hw',hcur',hroot hone,hlevels⟩
    · have hne : lv+1≠c.lptHght := fun e => hone ((h.lvCnt_eq_one_iff hlv).mpr e)
      have hmore : (if divRoundUp (lvCnt c lv) UBIFS_LPT_FANOUT=1 then some (.ok (root',w'))
          else addRows c crc16 fails fuel (c.lptHght-1-lv-1)
            (divRoundUp (lvCnt c lv) UBIFS_LPT_FANOUT) c.nnodeSz root'
            {b with bcnt := divRoundUp (lvCnt c lv) UBIFS_LPT_FANOUT} w' :
          Option (Except ℤ (Root×Writer)))=
          addRows c crc16 fails fuel (c.lptHght-1-(lv+1)) (lvCnt c (lv+1)) (lvSz c (lv+1)) root'
            (belowAt c (lv+1) 0) w' := by
        rw [if_neg (show ¬divRoundUp (lvCnt c lv) UBIFS_LPT_FANOUT=1 from hone),
          ← belowAt_next,← hb]
        rfl
      dsimp only
      rw [hmore]
      exact ih (by omega) (by omega) hw' hcur' hlevels root'

/-- There are no more rows than pnodes. -/
theorem Planned.hght_le (h : Planned c) : c.lptHght≤c.pnodeCnt := by
  have hpos := h.pnodeCnt_pos
  rcases lptHght_least c.toInfo with hone|hbig
  · omega
  · have hlt : c.lptHght-1<4^(c.lptHght-1) := Nat.lt_pow_self (by decide)
    rw [h.maxPnodeCnt_eq] at hbig
    omega

/-! ## The tables -/

/-- What the bytes of the save table say. -/
def LsaveBytes (c : LptInfo) (crc16 : List UInt8 → UInt16) (bytes : List UInt8) : Prop :=
  bytes.length=c.lsaveSz∧∀ garbage : Place → ℕ,
    unpackLsave c.toInfo crc16 garbage bytes=some (.ok (dfltLsave c))

/-- What the bytes of the table of the area say. -/
def LtabBytes (c : LptInfo) (crc16 : List UInt8 → UInt16) (ltab : List LptLprops)
    (bytes : List UInt8) : Prop :=
  bytes.length=c.ltabSz∧∀ garbage : Place → ℕ,
    unpackLtab c.toInfo crc16 garbage bytes=some (.ok ltab)

theorem Planned.lsave_packs (h : Planned c) (crc16 : List UInt8 → UInt16) (old : List UInt8)
    (hold : old.length=c.lsaveSz) : ∃ bytes,
      ubifsPackLsave c.toInfo crc16 old (dfltLsave c)=some bytes∧bytes.length=c.lsaveSz∧
        LsaveBytes c crc16 bytes := by
  have hok : LsaveOk c.toInfo (dfltLsave c) := by
    refine ⟨?_,fun lnum hlnum => ?_⟩
    · unfold dfltLsave
      rw [List.length_map,List.length_range]
    · have ⟨i,_,hi⟩ := List.mem_map.mp hlnum
      have hmain := h.mainLebs
      have hcnt := h.valid.lebCnt.1
      rw [← hi]
      unfold Info.mainFirst
      split <;> omega
  have ⟨bytes,hpack,hlen,hunpack⟩ := packs_of_roundTrips (fun _ => 0 : Place → ℕ)
    (fun garbage => lsave_roundTrips h.valid crc16 garbage hok) old hold
  exact ⟨bytes,hpack,hlen,hlen,hunpack⟩

theorem Planned.ltab_packs (h : Planned c) (crc16 : List UInt8 → UInt16) {ltab : List LptLprops}
    (hlen : ltab.length=c.lptLebs)
    (hltab : ∀ l∈ltab,l.free+l.dirty≤c.lebSize∧l.tgc=false∧l.cmt=false) (old : List UInt8)
    (hold : old.length=c.ltabSz) : ∃ bytes,
      ubifsPackLtab c.toInfo crc16 old ltab=some bytes∧bytes.length=c.ltabSz∧
        LtabBytes c crc16 ltab bytes := by
  have ⟨bytes,hpack,hlen',hunpack⟩ := packs_of_roundTrips (fun _ => 0 : Place → ℕ)
    (fun garbage => ltab_roundTrips h.valid crc16 garbage ⟨hlen,fun l hl => (hltab l hl).1⟩) old hold
  have hsame : ltab.map (fun l => (⟨l.free,l.dirty,false,false⟩ : LptLprops))=ltab := by
    refine (List.map_congr_left fun l hl => ?_).trans (List.map_id ltab)
    have ⟨_,htgc,hcmt⟩ := hltab l hl
    cases l with
    | mk free dirty tgc cmt =>
      cases htgc
      cases hcmt
      rfl
  rw [hsame] at hunpack
  exact ⟨bytes,hpack,hlen',hlen',hunpack⟩

/-- The end of the tree, and the start of the table of the area. -/
def treeEnd (c : LptInfo) : Cursor := lvStart c (c.lptHght+1)

def tablesStart (c : LptInfo) : Cursor :=
  if c.bigLpt then (treeEnd c).next c.lebSize c.lsaveSz else treeEnd c

theorem treeEnd_within (c : LptInfo) :
    (treeEnd c).Within c.lebSize c.lptFirst (lvBytes c (c.lptHght+1)) := by
  have hwithin := lvCursor_within c (c.lptHght+1) 0
  rw [Nat.zero_mul,Nat.add_zero] at hwithin
  exact hwithin

theorem tablesStart_within (c : LptInfo) : (tablesStart c).Within c.lebSize c.lptFirst
    (lvBytes c (c.lptHght+1)+if c.bigLpt then c.lsaveSz else 0) := by
  unfold tablesStart
  split
  · exact (treeEnd_within c).next
  · exact treeEnd_within c

/-- The save table, and where it is. -/
theorem Planned.addLsave_yields (h : Planned c) (crc16 : List UInt8 → UInt16)
    (fails : ℕ → Option ℤ) (hw : Filled c w) (hcur : w.cursor=treeEnd c) :
    Yields (addLsave c crc16 fails w) fun (lnum,offs,w') =>
      Filled c w'∧w'.cursor=tablesStart c∧
        ∃ xs,w'.log=w.log++xs∧xs.map Placed.item=(if c.bigLpt then [.lsave] else [])∧
          (c.bigLpt=true → ∃ x∈xs,x.item=.lsave∧x.lnum=lnum∧x.offs=offs∧
            LsaveBytes c crc16 x.bytes) := by
  unfold addLsave tablesStart
  by_cases hbig : c.bigLpt=true
  · have hroom : lvBytes c (c.lptHght+1)+c.lsaveSz≤c.lptSzNet := by
      rw [lptSzNet_eq,if_pos hbig]
      omega
    have hlast := (h.place_in (treeEnd_within c) hroom).2
    rw [← hcur] at hlast
    rw [if_pos hbig,if_pos hbig]
    refine (breakLeb_yields hw h.minIoSize_pos hlast).bind fun w1 ⟨hw1,hcur1,hlog1⟩ => ?_
    have hfits : w1.len+c.lsaveSz≤c.lebSize := by
      have hplace := Cursor.place_fits (c := w.cursor) h.lsaveSz_le
      rwa [← hcur1] at hplace
    refine (put_yields hw1 hfits .lsave (h.lsave_packs crc16)).bind
      fun w2 ⟨hw2,hcur2,_,bytes,hbytes,hlog2⟩ => ?_
    refine Yields.ok ⟨hw2,?_,[⟨.lsave,w1.lnum,w1.len,bytes⟩],?_,?_,fun _ =>
      ⟨_,List.mem_singleton.mpr rfl,rfl,rfl,rfl,hbytes⟩⟩
    · rw [hcur2,← hcur]
      unfold Cursor.next
      rw [← hcur1]
      rfl
    · rw [hlog2,hlog1]
    · rw [if_pos hbig]
      rfl
  · rw [if_neg hbig,if_neg hbig]
    refine Yields.ok ⟨hw,hcur,[],(List.append_nil _).symm,?_,fun e => absurd e hbig⟩
    rw [if_neg hbig]
    rfl

/-- The table in memory has no part in packing. -/
theorem put_withLtab (w : Writer) (ltab : List LptLprops) (item : Item) (sz : ℕ)
    (pack : List UInt8 → Option (List UInt8)) : {w with ltab := ltab}.put item sz pack=
      (w.put item sz pack).map fun r => r.map fun w' => {w' with ltab := ltab} := by
  unfold Writer.put
  cases pack ((w.buf.drop w.len).take sz) <;> rfl

theorem align_lt (n : ℕ) {a : ℕ} (ha : 0<a) : align n a<n+a := by
  have hle : align n a≤n+a-1 := Nat.div_mul_le_self _ _
  omega

/-- Every entry of the table that is written is in range. -/
theorem Planned.ltab_set_ok (h : Planned c) (hw : Filled c w) (k n : ℕ) {ltab : List LptLprops}
    (hltab : ltab=w.ltab.set k
      ⟨c.lebSize-align n c.minIoSize,align n c.minIoSize-n,false,false⟩) :
    ltab.length=c.lptLebs∧∀ l∈ltab,l.free+l.dirty≤c.lebSize∧l.tgc=false∧l.cmt=false := by
  subst hltab
  have hlength := hw.ltabLength
  refine ⟨(List.length_set ..).trans hlength,fun l hl => ?_⟩
  rcases List.mem_or_eq_of_mem_set hl with hl|rfl
  · have ⟨i,hi,hget⟩ := List.mem_iff_getElem.mp hl
    have hget' := List.getElem?_eq_getElem hi
    rw [hget] at hget'
    rcases Nat.lt_or_ge (c.lptFirst+i) w.lnum with hlt|hge
    · have ⟨l',hl',hsum,hflags⟩ := hw.full i hlt
      rw [hget'] at hl'
      cases hl'
      exact ⟨by omega,hflags⟩
    · have hfree := hw.free i (by omega) hge
      rw [hget'] at hfree
      cases hfree
      exact ⟨Nat.le_refl _,rfl,rfl⟩
  · have hlt := align_lt n h.minIoSize_pos
    have hunit := h.minIoSize.2.1
    refine ⟨?_,rfl,rfl⟩
    dsimp only
    omega

/-- What is on flash at the end, and the table of the area. -/
structure OnFlash (c : LptInfo) (flash : ℕ → Option (List UInt8)) (log : List Placed)
    (ltab : List LptLprops) : Prop where
  area : ∀ lnum data,flash lnum=some data →
    c.lptFirst≤lnum∧lnum≤c.lptLast∧data.length≤c.lebSize
  stored : ∀ x∈log,x.offs+x.bytes.length≤c.lebSize∧
    ∃ data,flash x.lnum=some data∧slice data x.offs x.bytes.length=x.bytes
  accounts : ∀ i<c.lptLebs,∃ l,ltab[i]?=some l∧
    l.free+l.dirty+used log (c.lptFirst+i)=c.lebSize

theorem Filled.lnum_le (hw : Filled c w) {x : Placed} (hx : x∈w.log) : x.lnum≤w.lnum := by
  rcases (hw.inPlace x hx).2.2 with hplace|hplace
  · exact hplace.1.le
  · exact hplace.1.le

/-- The last LEB is written. -/
theorem change_onFlash (hw : Filled c w) (hio : 0<c.minIoSize)
    (hlast : w.lnum<c.lptFirst+c.lptLebs) {w' : Writer}
    (h : {w with ltab := closedLtab c w}.change c fails=.ok w') :
    OnFlash c w'.flash w'.log (closedLtab c w)∧w'.log=w.log := by
  have ⟨hfilled,hlog,_,_,_,hltab⟩ := change_filled hw hio hlast h
  have hclosed : closedLtab c w=w'.ltab := hltab.symm
  refine ⟨⟨fun lnum data hflash => ?_,fun x hx => ?_,fun i hi => ?_⟩,hlog⟩
  · have ⟨hfirst,hlt,hlen⟩ := hfilled.flash lnum data hflash
    dsimp only at hlt
    unfold Info.lptLast
    exact ⟨hfirst,by omega,hlen⟩
  · have ⟨_,hroom,hplace⟩ := hfilled.inPlace x hx
    have hle := hw.lnum_le (hlog▸hx)
    refine ⟨hroom,?_⟩
    rcases hplace with ⟨_,hdata⟩|⟨hlnum,_⟩
    · exact hdata
    · dsimp only at hlnum
      omega
  · rw [hclosed]
    rcases Nat.lt_or_ge (c.lptFirst+i) (w.lnum+1) with hlt|hge
    · have ⟨l,hl,hsum,_⟩ := hfilled.full i hlt
      exact ⟨l,hl,hsum⟩
    · refine ⟨_,hfilled.free i hi hge,?_⟩
      have hzero := hw.usedLater (c.lptFirst+i) hge
      rw [hlog,hzero]
      rfl

/-- The table of the area accounts for every byte, its own too. -/
theorem Planned.addLtab_yields (h : Planned c) (crc16 : List UInt8 → UInt16)
    (fails : ℕ → Option ℤ) (hw : Filled c w) (hcur : w.cursor=tablesStart c) :
    Yields (addLtab c crc16 fails w) fun (lnum,offs,w') =>
      ∃ x ltab,w'.log=w.log++[x]∧x.item=.ltab∧x.lnum=lnum∧x.offs=offs∧
        LtabBytes c crc16 ltab x.bytes∧OnFlash c w'.flash w'.log ltab := by
  have hio := h.minIoSize_pos
  have hroom : (lvBytes c (c.lptHght+1)+if c.bigLpt then c.lsaveSz else 0)+c.ltabSz≤c.lptSzNet := by
    rw [lptSzNet_eq]
    omega
  have hlast := (h.place_in (tablesStart_within c) hroom).2
  rw [← hcur] at hlast
  refine (breakLeb_yields hw hio hlast).bind fun w1 ⟨hw1,hcur1,hlog1⟩ => ?_
  have hfits : w1.len+c.ltabSz≤c.lebSize := by
    have hplace := Cursor.place_fits (c := w.cursor) h.ltabSz
    rwa [← hcur1] at hplace
  have hlast1 : w1.lnum<c.lptFirst+c.lptLebs := by
    have hbin : w1.lnum=(w.cursor.place c.lebSize c.ltabSz).bin := congrArg Cursor.bin hcur1
    rwa [hbin]
  -- The entry of the LEB has the space that is left when the table is in it.
  let closed := w1.ltab.set (w1.lnum-c.lptFirst)
    ⟨c.lebSize-align (w1.len+c.ltabSz) c.minIoSize,
      align (w1.len+c.ltabSz) c.minIoSize-(w1.len+c.ltabSz),false,false⟩
  have hfirst := hw1.first
  have hset := setLtab_eq hw1.ltabLength hfirst hlast1
    (c.lebSize-align (w1.len+c.ltabSz) c.minIoSize)
    (align (w1.len+c.ltabSz) c.minIoSize-(w1.len+c.ltabSz)) (hw1.free _ (by omega) (by omega))
  dsimp only
  rw [hset,Option.bind_some,put_withLtab]
  have ⟨hlen,hclosed⟩ := h.ltab_set_ok hw1 _ _ (show closed=_ from rfl)
  have ⟨r,hr,hyields⟩ := put_yields hw1 hfits .ltab (h.ltab_packs crc16 hlen hclosed)
  rw [hr]
  cases r with
  | error err => exact Yields.error err _
  | ok w2 =>
    have ⟨hw2,hcur2,hltab2,bytes,hbytes,hlog2⟩ := hyields w2 rfl
    have hlnum : w2.lnum=w1.lnum := congrArg Cursor.bin hcur2
    have hlen2 : w2.len=w1.len+c.ltabSz := congrArg Cursor.offs hcur2
    have hsame : closed=closedLtab c w2 := by
      unfold closedLtab
      rw [hlnum,hlen2,hltab2]
    have hlast2 : w2.lnum<c.lptFirst+c.lptLebs := by rwa [hlnum]
    change Yields (andThen (some (.ok ({w2 with ltab := closed} : Writer))) _) _
    rw [andThen_ok]
    cases hchange : ({w2 with ltab := closed} : Writer).change c fails with
    | error err => exact Yields.error err _
    | ok w3 =>
      rw [hsame] at hchange
      have ⟨honFlash,hlog3⟩ := change_onFlash hw2 hio hlast2 hchange
      refine Yields.ok ⟨⟨.ltab,w1.lnum,w1.len,bytes⟩,closed,?_,rfl,rfl,rfl,hbytes,?_⟩
      · rw [hlog3,hlog2,hlog1]
      · rw [hsame]
        exact honFlash

/-! ## All that is written -/

/-- The nodes in the order in which they are written: the pnodes, the rows of
nnodes up to the root, and the tables. -/
def dfltItems (c : LptInfo) : List Item :=
  ((List.range (c.lptHght+1)).flatMap fun lv => (List.range (lvCnt c lv)).map (lvItem c lv))++
    (if c.bigLpt then [.lsave] else [])++[.ltab]

/-- What `ubifs_create_dflt_lpt` leaves on flash. -/
structure Fresh (crc16 : List UInt8 → UInt16) (out : Created) : Prop where
  planned : Planned out.info
  root : out.root=rootPlace out.info
  items : out.log.map Placed.item=dfltItems out.info
  nodes : ∀ lv≤out.info.lptHght,∀ k<lvCnt out.info lv,∃ x∈out.log,AsPlanned out.info crc16 lv k x
  lsave : out.info.bigLpt=true → ∃ x∈out.log,x.item=.lsave∧x.lnum=out.lsaveLnum∧
    x.offs=out.lsaveOffs∧LsaveBytes out.info crc16 x.bytes
  ltab : ∃ ltab,(∃ x∈out.log,x.item=.ltab∧x.lnum=out.ltabLnum∧x.offs=out.ltabOffs∧
    LtabBytes out.info crc16 ltab x.bytes)∧OnFlash out.info out.flash out.log ltab

/-- The writer before the first node. -/
theorem filled_start (hbuf : buf.length=c.lebSize) :
    Filled c ⟨c.lptFirst,0,buf,List.replicate c.lptLebs ⟨c.lebSize,0,false,false⟩,
      fun _ => none,[]⟩ := by
  constructor
  · exact Nat.le_refl _
  · exact Nat.zero_le _
  · exact hbuf
  · exact List.length_replicate
  · intro i hi _
    rw [List.getElem?_replicate,if_pos hi]
  · intro i hi
    dsimp only at hi
    omega
  · rfl
  · intro lnum _
    rfl
  · intro lnum data hflash
    cases hflash
  · intro x hx
    cases hx

theorem Planned.writeDfltLpt_yields (h : Planned c) (crc16 : List UInt8 → UInt16)
    (fails : ℕ → Option ℤ) (hbuf : buf.length=c.lebSize) :
    Yields (writeDfltLpt c crc16 fails buf) fun out => Fresh crc16 out∧out.info=c := by
  have hpnodes := h.pnodeCnt_pos
  have hhght := lptHght_pos c.toInfo
  have hstart := filled_start hbuf
  have hzero : lvPlace c 0 0=⟨c.lptFirst,0⟩ := by
    have hfits : (lvCursor c 0 0).offs+lvSz c 0≤c.lebSize := by
      rw [show (lvCursor c 0 0).offs=0 from rfl,Nat.zero_add]
      exact h.lvSz_le 0
    exact Cursor.place_of_fits hfits
  refine (h.put_level hstart (Nat.zero_le _) (k := 0) hpnodes hzero.symm
    (h.pnode_packs crc16 hpnodes)).bind fun w1 ⟨hw1,hcur1,x,hlog1,hx⟩ => ?_
  refine (h.addPnodes_yields crc16 fails (k := 1) (by omega) hw1 hcur1).bind
    fun w2 ⟨hw2,hcur2,xs,hlog2,hlen,hxs⟩ => ?_
  have hlevel : Levels c crc16 1 w2.log := by
    have hnone : Levels c crc16 0 [] := ⟨fun _ hl => absurd hl (Nat.not_lt_zero _),rfl⟩
    have hall : NodesFrom c crc16 0 0 (x::xs) := ⟨hx,hxs⟩
    have hadd := hnone.add hall (show xs.length+1=c.pnodeCnt by omega)
    rw [hlog2,hlog1]
    exact hadd
  have hrow : lowestRow c.pnodeCnt=c.lptHght-1-0 := by
    have := h.lowestRow_eq
    omega
  have hbelow : (⟨c.lptFirst,0,c.pnodeCnt⟩ : Below)=belowAt c 0 0 := by
    unfold belowAt
    rfl
  have hheight := h.hght_le
  rw [hrow,hbelow]
  refine (h.addRows_yields crc16 fails (by omega) hhght hw2 hcur2 hlevel
    ⟨0,0⟩).bind fun ⟨root,w3⟩ ⟨hw3,hcur3,hroot,hlevels⟩ => ?_
  refine (h.addLsave_yields crc16 fails hw3 hcur3).bind
    fun ⟨lsaveLnum,lsaveOffs,w4⟩ ⟨hw4,hcur4,ys,hlog4,hitems4,hlsave⟩ => ?_
  refine (h.addLtab_yields crc16 fails hw4 hcur4).bind
    fun ⟨ltabLnum,ltabOffs,w5⟩ ⟨z,ltab,hlog5,hitem,hlnum,hoffs,hbytes,honFlash⟩ => ?_
  refine Yields.ok ⟨⟨h,hroot,?_,fun lv hlv k hk => ?_,fun hbig => ?_,ltab,⟨z,?_,hitem,hlnum,
    hoffs,hbytes⟩,honFlash⟩,rfl⟩
  · rw [hlog5,hlog4,List.map_append,List.map_append,hlevels.items,hitems4,List.map_singleton,
      hitem]
    rfl
  · have ⟨y,hy,hplanned⟩ := hlevels.nodes lv (Nat.lt_succ_of_le hlv) k hk
    rw [hlog5,hlog4]
    exact ⟨y,List.mem_append_left _ (List.mem_append_left _ hy),hplanned⟩
  · have ⟨y,hy,hrest⟩ := hlsave hbig
    rw [hlog5,hlog4]
    exact ⟨y,List.mem_append_left _ (List.mem_append_right _ hy),hrest⟩
  · rw [hlog5]
    exact List.mem_append_right _ (List.mem_singleton.mpr rfl)

theorem ubifsCreateDfltLpt_yields {c : LptInfo} {mainLebs lptFirst : ℕ}
    (hg : Geometry c mainLebs lptFirst) (crc16 : List UInt8 → UInt16) (fails : ℕ → Option ℤ)
    (hbuf : buf.length=c.lebSize) :
    Yields (ubifsCreateDfltLpt c crc16 fails buf mainLebs lptFirst) fun out =>
      Fresh crc16 out∧out.info.lebCnt=c.lebCnt∧out.info.lebSize=c.lebSize∧
        out.info.mainLebs+out.info.lptLebs=mainLebs∧out.info.lptFirst=lptFirst := by
  unfold ubifsCreateDfltLpt
  cases hgeom : calcDfltLptGeom c mainLebs with
  | error err => exact Yields.error err _
  | ok c' =>
    have ⟨hplan,hsum,hsize,hcnt,_⟩ := calcDfltLptGeom_planned hg hgeom
    have ⟨r,hr,hyields⟩ := hplan.writeDfltLpt_yields crc16 fails (hbuf.trans hsize.symm)
    refine ⟨r,hr,fun out hout => ?_⟩
    have ⟨hfresh,hinfo⟩ := hyields out hout
    dsimp only
    rw [hinfo]
    exact ⟨hfresh,hcnt,hsize,hsum,rfl⟩

end ArdroneKernel.UbifsLpt
