import ArdroneKernel.UbifsLptNums
import ArdroneKernel.UbifsLptTree

/-!
# What the tree says

The view of the tree has for every place the node that is in memory there or
would be read. What is read is put into memory without a change of the view,
and every node of the view has the number of its place.
-/

namespace ArdroneKernel.UbifsLpt

open UbifsLprops Function

variable {c : LptInfo} {f : Flash} {s t : Lpt} {row col iip : ℕ} {n : MemNnode} {p : MemPnode}

/-! ## Numbers -/

/-- The number of a node is a one in front of its digits. -/
theorem calcNnodeNum_eq (row col : ℕ) : calcNnodeNum row col=4^row+turned row col 0 := by
  unfold calcNnodeNum
  rw [calcNnodeNum_go,turned_eq,Nat.one_mul]

/-- The number from the parent is the number of the place. -/
theorem calcNnodeNumFromParent_eq {hght : ℕ} {parent : MemNnode} (hrow : row≤hght)
    (hnum : parent.num=calcNnodeNum row col) (hlevel : parent.level=hght-row) (hiip : iip<4) :
    calcNnodeNumFromParent hght (some parent) iip=calcNnodeNum (row+1) (4*col+iip) := by
  have hlt := turned_lt row col
  have hpow : 4^row=2^(row*2) := by rw [Nat.mul_comm,pow_mul]; rfl
  have hshft : (hght-parent.level)*UBIFS_LPT_FANOUT_SHIFT=row*2 := by
    rw [hlevel,Nat.sub_sub_self hrow]
    rfl
  -- The leading one is taken away, and the branch put in its place.
  have hxor : parent.num^^^1<<<(row*2)=turned row col 0 := by
    rw [hnum,calcNnodeNum_eq,hpow,Nat.shiftLeft_eq,Nat.one_mul]
    rw [hpow] at hlt
    refine Nat.eq_of_testBit_eq fun i => ?_
    rw [Nat.testBit_xor,Nat.testBit_two_pow]
    by_cases hi : i=row*2
    · subst hi
      rw [Nat.testBit_two_pow_add_eq,Nat.testBit_lt_two_pow hlt]
      simp
    · rcases Nat.lt_or_gt_of_ne hi with hi'|hi'
      · rw [Nat.testBit_two_pow_add_gt hi']
        simp [Ne.symm hi]
      · have hsmall : ∀ x<2^(row*2+1),x.testBit i=false := fun x hx =>
          Nat.testBit_lt_two_pow (hx.trans_le (Nat.pow_le_pow_right (by decide) hi'))
        rw [hsmall _ (by rw [pow_succ]; omega),hsmall _ (by rw [pow_succ]; omega)]
        simp [Ne.symm hi]
  have hor : turned row col 0|||(UBIFS_LPT_FANOUT+iip)<<<(row*2)=
      (4+iip)*4^row+turned row col 0 := by
    rw [hpow] at hlt
    rw [Nat.or_comm,Nat.shiftLeft_eq,hpow,Nat.mul_comm,← Nat.two_pow_add_eq_or_of_lt hlt,
      Nat.mul_comm]
    rfl
  unfold calcNnodeNumFromParent
  dsimp only
  rw [hshft,hxor,hor,calcNnodeNum_eq,turned_succ]
  have hmod : (4*col+iip)%4=iip := by omega
  have hdiv : (4*col+iip)/4=col := by omega
  rw [hmod,hdiv]
  ring

/-- Turning digits round is one to one. -/
theorem turned_inj {n x y : ℕ} (hx : x<4^n) (hy : y<4^n) (h : turned n x 0=turned n y 0) : x=y := by
  have hback : ∀ z<4^n,turned n (turned n z 0) 0=z := fun z hz =>
    (turned_turned n z 0).trans (Nat.mod_eq_of_lt hz)
  rw [← hback x hx,h,hback y hy]

/-- Two places have two numbers. -/
theorem calcNnodeNum_inj {row' col' : ℕ} (hcol : col<4^row) (hcol' : col'<4^row')
    (h : calcNnodeNum row col=calcNnodeNum row' col') : row=row'∧col=col' := by
  rw [calcNnodeNum_eq,calcNnodeNum_eq] at h
  have hlt := turned_lt row col
  have hlt' := turned_lt row' col'
  have hne : ∀ {a b x y : ℕ},a<b → x<4^a → 4^a+x=4^b+y → False := by
    intro a b x y hab hx he
    have hpow : 4^(a+1)≤4^b := Nat.pow_le_pow_right (by decide) hab
    rw [pow_succ] at hpow
    omega
  rcases Nat.lt_trichotomy row row' with hrow|hrow|hrow
  · exact (hne hrow hlt h).elim
  · subst hrow
    exact ⟨rfl,turned_inj hcol hcol' (Nat.add_left_cancel h)⟩
  · exact (hne hrow hlt' h.symm).elim

/-- The number of a pnode is its place. -/
theorem calcPnodeNumFromParent_eq {hght : ℕ} (hcol : col<4^(hght-1)) (hiip : iip<4) :
    calcPnodeNumFromParent hght (calcNnodeNum (hght-1) col) iip=4*col+iip := by
  have hmask : iip=iip&&&(UBIFS_LPT_FANOUT-1) := by
    rw [show iip&&&(UBIFS_LPT_FANOUT-1)=iip%4 from Nat.and_two_pow_sub_one_eq_mod iip 2,
      Nat.mod_eq_of_lt hiip]
  unfold calcPnodeNumFromParent
  rw [calcPnodeNum_go]
  unfold calcNnodeNum
  rw [calcNnodeNum_go,turned_turned,Nat.mod_eq_of_lt hcol,hmask,shl_or_digit,← hmask,
    Nat.mod_eq_of_lt hiip]

/-! ## Nodes of the view -/

/-- A nnode as it should be at its place. -/
structure NnodeGood (c : LptInfo) (row col : ℕ) (n : MemNnode) : Prop where
  num : n.num=calcNnodeNum row col
  level : n.level=c.lptHght-row
  iip : n.iip=col%4
  length : n.nbranch.length=4

/-- A pnode as it should be at its place. -/
structure PnodeGood (c : LptInfo) (col : ℕ) (p : MemPnode) : Prop where
  num : p.num=col
  iip : p.iip=col%4
  length : p.lprops.length=4
  lnums : ∀ i l,p.lprops[i]?=some l →
    l.lnum=if c.mainFirst+(4*col+i)<c.lebCnt then c.mainFirst+(4*col+i) else 0

theorem andThen_eq_ok {α β : Type} {r : Option (Except ℤ α)} {g : α → Option (Except ℤ β)} {b : β}
    (h : andThen r g=some (.ok b)) : ∃ a,r=some (.ok a)∧g a=some (.ok b) := by
  match r,h with
  | none,h => cases h
  | some (.error e),h => cases h
  | some (.ok a),h => exact ⟨a,rfl,h⟩

theorem length_unpackLoop {α : Type} {entry : Place → Option (Except ℤ (α×Place))} {n : ℕ}
    {place : Place} {r : List α×Place} (h : unpackLoop entry n place=some (.ok r)) :
    r.1.length=n := by
  induction n generalizing place r with
  | zero =>
    cases h
    rfl
  | succ n ih =>
    unfold unpackLoop at h
    obtain ⟨⟨x,place'⟩,_,h⟩ := andThen_eq_ok h
    obtain ⟨⟨xs,place''⟩,hloop,h⟩ := andThen_eq_ok h
    cases h
    exact congrArg (·+1) (ih hloop)

theorem length_unpackNode {α : Type} {crc16 : List UInt8 → UInt16} {garbage : Place → ℕ}
    {buf : List UInt8} {type sz cnt : ℕ} {num : Place → Option (ℕ×Place)}
    {entry : Place → Option (Except ℤ (α×Place))} {r : ℕ×List α}
    (h : unpackNode crc16 garbage buf type sz num cnt entry=some (.ok r)) : r.2.length=cnt := by
  unfold unpackNode at h
  have ⟨place,_,h⟩ := andThen_eq_ok h
  have ⟨⟨n,place'⟩,_,h⟩ := Option.bind_eq_some_iff.mp h
  have ⟨⟨xs,_⟩,hloop,h⟩ := andThen_eq_ok h
  have ⟨_,_,h⟩ := andThen_eq_ok h
  cases h
  exact length_unpackLoop hloop

theorem makeNnode_length {b : Nbranch} {parent : Option MemNnode}
    (h : makeNnode c f b parent iip=some (.ok n)) :
    n.nbranch.length=4∧n.iip=iip∧n.level=levelBelow c parent∧
      n.num=calcNnodeNumFromParent c.lptHght parent iip := by
  unfold makeNnode at h
  have ⟨nnode,hmade,h⟩ := andThen_eq_ok h
  have hlength : nnode.nbranch.length=4 := by
    split at hmade
    · cases hmade
      rfl
    · split at hmade
      · cases hmade
      · unfold ubifsUnpackNnode at hmade
        have ⟨⟨num,nbranch⟩,hunpack,hmade⟩ := andThen_eq_ok hmade
        cases hmade
        exact length_unpackNode hunpack
  cases hvalid : validateNnode c nnode parent iip with
  | error err =>
    rw [hvalid] at h
    cases h
  | ok u =>
    rw [hvalid] at h
    cases h
    refine ⟨hlength,rfl,rfl,?_⟩
    dsimp only
    split
    next hbig =>
      unfold validateNnode at hvalid
      dsimp only at hvalid
      by_contra hne
      rw [if_pos ⟨hbig,hne⟩] at hvalid
      cases hvalid
    · rfl

theorem makeNnode_child {b : Nbranch} {parent n : MemNnode} (hp : NnodeGood c row col parent)
    (hrow : row<c.lptHght) (hiip : iip<4) (h : makeNnode c f b (some parent) iip=some (.ok n)) :
    NnodeGood c (row+1) (4*col+iip) n := by
  have ⟨hlength,hiip',hlevel,hnum⟩ := makeNnode_length h
  refine ⟨?_,?_,?_,hlength⟩
  · rw [hnum]
    exact calcNnodeNumFromParent_eq hrow.le hp.num hp.level hiip
  · rw [hlevel]
    unfold levelBelow
    dsimp only
    rw [hp.level]
    omega
  · omega

theorem makeNnode_root {b : Nbranch} (h : makeNnode c f b none 0=some (.ok n)) :
    NnodeGood c 0 0 n := by
  have ⟨hlength,hiip,hlevel,hnum⟩ := makeNnode_length h
  exact ⟨hnum,hlevel,hiip,hlength⟩

theorem setPnodeLnum_lnum {num i : ℕ} {lprops : List Lprops} {l : LebProps}
    (h : (setPnodeLnum c num lprops)[i]?=some l) :
    l.lnum=if c.mainFirst+(4*num+i)<c.lebCnt then c.mainFirst+(4*num+i) else 0 := by
  unfold setPnodeLnum at h
  rw [List.getElem?_mapIdx] at h
  have ⟨x,_,hl⟩ := Option.map_eq_some_iff.mp h
  have hshl : num<<<UBIFS_LPT_FANOUT_SHIFT=4*num := by
    rw [Nat.shiftLeft_eq,Nat.mul_comm]
    rfl
  rw [← hl]
  dsimp only
  split <;> split <;> omega

theorem makePnode_good {parent : MemNnode} (hp : NnodeGood c (c.lptHght-1) col parent)
    (hcol : col<4^(c.lptHght-1)) (hiip : iip<4) (h : makePnode c f parent iip=some (.ok p)) :
    PnodeGood c (4*col+iip) p := by
  have ⟨b,_,h⟩ := Option.bind_eq_some_iff.mp h
  have ⟨pnode,hmade,h⟩ := andThen_eq_ok h
  have hlength : pnode.lprops.length=4 := by
    split at hmade
    · cases hmade
      rfl
    · split at hmade
      · cases hmade
      · have ⟨⟨num,lprops⟩,hunpack,hmade⟩ := andThen_eq_ok hmade
        cases hmade
        exact length_unpackNode hunpack
  have hcalc : calcPnodeNumFromParent c.lptHght parent.num iip=4*col+iip := by
    rw [hp.num]
    exact calcPnodeNumFromParent_eq hcol hiip
  cases hvalid : validatePnode c pnode parent iip with
  | error err =>
    rw [hvalid] at h
    cases h
  | ok u =>
    rw [hvalid] at h
    cases h
    have hnum : (if c.bigLpt then pnode.num else calcPnodeNumFromParent c.lptHght parent.num iip)=
        4*col+iip := by
      split
      next hbig =>
        unfold validatePnode at hvalid
        by_contra hne
        rw [hcalc,if_pos ⟨hbig,hne⟩] at hvalid
        cases hvalid
      · exact hcalc
    refine ⟨hnum,?_,?_,fun i l hl => ?_⟩
    · dsimp only
      omega
    · unfold setPnodeLnum
      rw [List.length_mapIdx,hlength]
    · rw [← hnum]
      exact setPnodeLnum_lnum hl

/-! ## The view -/

/-- The nnode at a place, in memory or as it would be read. -/
def nnodeView (c : LptInfo) (f : Flash) (s : Lpt) : ℕ → ℕ → Option (Except ℤ MemNnode)
  | 0,col =>
    match s.nnodes 0 col with
    | some n => some (.ok n.node)
    | none => makeNnode c f ⟨s.lptLnum,s.lptOffs⟩ none 0
  | row+1,col =>
    match s.nnodes (row+1) col with
    | some n => some (.ok n.node)
    | none => andThen (nnodeView c f s row (col/4)) fun p =>
      (p.nbranch[col%4]?).bind fun b => makeNnode c f b (some p) (col%4)

/-- The pnode at a place. -/
def pnodeView (c : LptInfo) (f : Flash) (s : Lpt) (col : ℕ) : Option (Except ℤ MemPnode) :=
  match s.pnodes col with
  | some p => some (.ok p.node)
  | none => andThen (nnodeView c f s (c.lptHght-1) (col/4)) fun n => makePnode c f n (col%4)

/-- What is in memory is as it should be, and has its parents there. -/
structure MemGood (c : LptInfo) (s : Lpt) : Prop where
  nnodes : ∀ row col n,s.nnodes row col=some n →
    NnodeGood c row col n.node∧row<c.lptHght∧col<4^row
  pnodes : ∀ col p,s.pnodes col=some p → PnodeGood c col p.node∧col<4^c.lptHght
  parents : ∀ row col,s.nnodes (row+1) col≠none → s.nnodes row (col/4)≠none
  pnodeParents : ∀ col,s.pnodes col≠none → s.nnodes (c.lptHght-1) (col/4)≠none

theorem nnodeView_mem {n : Cnode MemNnode} (h : s.nnodes row col=some n) :
    nnodeView c f s row col=some (.ok n.node) := by
  cases row with
  | zero =>
    unfold nnodeView
    rw [h]
  | succ row =>
    unfold nnodeView
    rw [h]

/-- The view is good. -/
theorem MemGood.view (h : MemGood c s) (hrow : row<c.lptHght) (hcol : col<4^row)
    (hn : nnodeView c f s row col=some (.ok n)) : NnodeGood c row col n := by
  induction row generalizing col n with
  | zero =>
    cases hm : s.nnodes 0 col with
    | some m =>
      rw [nnodeView_mem hm] at hn
      cases hn
      exact (h.nnodes 0 col m hm).1
    | none =>
      unfold nnodeView at hn
      rw [hm] at hn
      have hzero : col=0 := Nat.lt_one_iff.mp hcol
      rw [hzero]
      exact makeNnode_root hn
  | succ row ih =>
    cases hm : s.nnodes (row+1) col with
    | some m =>
      rw [nnodeView_mem hm] at hn
      cases hn
      exact (h.nnodes _ col m hm).1
    | none =>
      unfold nnodeView at hn
      rw [hm] at hn
      have ⟨p,hp,hn⟩ := andThen_eq_ok hn
      have ⟨b,_,hn⟩ := Option.bind_eq_some_iff.mp hn
      have hdiv : col/4<4^row := by
        omega
      have hgood := makeNnode_child (ih (Nat.lt_of_succ_lt hrow) hdiv hp) (Nat.lt_of_succ_lt hrow)
        (Nat.mod_lt col (by decide)) hn
      rwa [Nat.div_add_mod] at hgood

theorem MemGood.pview (h : MemGood c s) (hcol : col<4^c.lptHght)
    (hp : pnodeView c f s col=some (.ok p)) : PnodeGood c col p := by
  unfold pnodeView at hp
  cases hm : s.pnodes col with
  | some q =>
    rw [hm] at hp
    cases hp
    exact (h.pnodes col q hm).1
  | none =>
    rw [hm] at hp
    have ⟨n,hn,hp⟩ := andThen_eq_ok hp
    have hpos := lptHght_pos c.toInfo
    have hdiv : col/4<4^(c.lptHght-1) := by
      have hpow : 4^c.lptHght=4^(c.lptHght-1)*4 := by
        rw [← pow_succ,Nat.sub_add_cancel hpos]
      omega
    have hgood := makePnode_good (h.view (by omega) hdiv hn) hdiv (Nat.mod_lt col (by decide)) hp
    rwa [Nat.div_add_mod] at hgood

/-- The nnode above one in the view is in the view. -/
theorem MemGood.view_parent (h : MemGood c s) (hn : nnodeView c f s (row+1) col=some (.ok n)) :
    ∃ m,nnodeView c f s row (col/4)=some (.ok m) := by
  cases hm : s.nnodes (row+1) col with
  | some k =>
    cases hp : s.nnodes row (col/4) with
    | some p => exact ⟨p.node,nnodeView_mem hp⟩
    | none =>
      refine absurd hp (h.parents row col fun e => ?_)
      rw [hm] at e
      cases e
  | none =>
    unfold nnodeView at hn
    rw [hm] at hn
    have ⟨m,hm,_⟩ := andThen_eq_ok hn
    exact ⟨m,hm⟩

theorem MemGood.view_above (h : MemGood c s) (hp : pnodeView c f s col=some (.ok p)) :
    ∃ m,nnodeView c f s (c.lptHght-1) (col/4)=some (.ok m) := by
  unfold pnodeView at hp
  cases hm : s.pnodes col with
  | some k =>
    cases hn : s.nnodes (c.lptHght-1) (col/4) with
    | some n => exact ⟨n.node,nnodeView_mem hn⟩
    | none =>
      refine absurd hn (h.pnodeParents col fun e => ?_)
      rw [hm] at e
      cases e
  | none =>
    rw [hm] at hp
    have ⟨m,hm,_⟩ := andThen_eq_ok hp
    exact ⟨m,hm⟩

/-- All nnodes above a pnode are in the view. -/
theorem MemGood.view_path (h : MemGood c s) (hp : pnodeView c f s col=some (.ok p)) (rows row : ℕ)
    (hrow : row+1+rows=c.lptHght) :
    ∃ m,nnodeView c f s row (col/4^(rows+1))=some (.ok m) := by
  induction rows generalizing row with
  | zero =>
    have ⟨m,hm⟩ := h.view_above hp
    have he : row=c.lptHght-1 := by omega
    rw [he]
    exact ⟨m,hm⟩
  | succ rows ih =>
    have ⟨n,hn⟩ := ih (row+1) (by omega)
    have ⟨m,hm⟩ := h.view_parent hn
    rw [Nat.div_div_eq_div_mul,← pow_succ] at hm
    exact ⟨m,hm⟩

/-! ## Views that stay the same -/

/-- The same nodes in both states, and none leaves memory. -/
structure Same (c : LptInfo) (f : Flash) (s t : Lpt) : Prop where
  nnodes : ∀ row col,nnodeView c f t row col=nnodeView c f s row col
  pnodes : ∀ col,pnodeView c f t col=pnodeView c f s col
  grows : ∀ row col,s.nnodes row col≠none → t.nnodes row col≠none

theorem Same.refl (c : LptInfo) (f : Flash) (s : Lpt) : Same c f s s :=
  ⟨fun _ _ => rfl,fun _ => rfl,fun _ _ => id⟩

theorem Same.trans {u : Lpt} (h : Same c f s t) (h' : Same c f t u) : Same c f s u :=
  ⟨fun row col => (h'.nnodes row col).trans (h.nnodes row col),
    fun col => (h'.pnodes col).trans (h.pnodes col),
    fun row col hm => h'.grows row col (h.grows row col hm)⟩

/-- The view depends on the nodes in memory and the place of the root only. -/
theorem nnodeView_congr (hnodes : t.nnodes=s.nnodes) (hlnum : t.lptLnum=s.lptLnum)
    (hoffs : t.lptOffs=s.lptOffs) (row col : ℕ) :
    nnodeView c f t row col=nnodeView c f s row col := by
  induction row generalizing col with
  | zero =>
    unfold nnodeView
    rw [hnodes,hlnum,hoffs]
  | succ row ih =>
    unfold nnodeView
    rw [hnodes,ih]

theorem Same.of_eq (hnodes : t.nnodes=s.nnodes) (hpnodes : t.pnodes=s.pnodes)
    (hlnum : t.lptLnum=s.lptLnum) (hoffs : t.lptOffs=s.lptOffs) : Same c f s t := by
  refine ⟨nnodeView_congr hnodes hlnum hoffs,fun col => ?_,fun row col => hnodes▸id⟩
  unfold pnodeView
  rw [hpnodes,nnodeView_congr hnodes hlnum hoffs]

theorem MemGood.of_eq (h : MemGood c s) (hnodes : t.nnodes=s.nnodes)
    (hpnodes : t.pnodes=s.pnodes) : MemGood c t :=
  ⟨hnodes▸h.nnodes,hpnodes▸h.pnodes,hnodes▸h.parents,by rw [hnodes,hpnodes]; exact h.pnodeParents⟩

theorem setNnode_self (s : Lpt) (row col : ℕ) (n : Cnode MemNnode) :
    (s.setNnode row col n).nnodes row col=some n := by
  unfold Lpt.setNnode
  dsimp only
  rw [update_self,update_self]

theorem setNnode_of_ne (s : Lpt) {row' col' : ℕ} (n : Cnode MemNnode)
    (h : ¬(row'=row∧col'=col)) : (s.setNnode row col n).nnodes row' col'=s.nnodes row' col' := by
  unfold Lpt.setNnode
  dsimp only
  by_cases hrow : row'=row
  · rw [hrow,update_self,update_of_ne fun e => h ⟨hrow,e⟩]
  · rw [update_of_ne hrow]

/-- A node of the view may be put into memory. -/
theorem Same.setNnode {n : Cnode MemNnode} (hn : nnodeView c f s row col=some (.ok n.node)) :
    Same c f s (s.setNnode row col n) := by
  have hview : ∀ row' col',nnodeView c f (s.setNnode row col n) row' col'=
      nnodeView c f s row' col' := by
    intro row' col'
    by_cases he : row'=row∧col'=col
    · rw [he.1,he.2,hn]
      exact nnodeView_mem (setNnode_self s row col n)
    · induction row' generalizing col' with
      | zero =>
        unfold nnodeView
        rw [setNnode_of_ne s n he]
        rfl
      | succ row' ih =>
        have hparent : nnodeView c f (s.setNnode row col n) row' (col'/4)=
            nnodeView c f s row' (col'/4) := by
          by_cases hp : row'=row∧col'/4=col
          · rw [hp.1,hp.2,hn]
            exact nnodeView_mem (setNnode_self s row col n)
          · exact ih _ hp
        unfold nnodeView
        rw [setNnode_of_ne s n he,hparent]
  refine ⟨hview,fun col' => ?_,fun row' col' hm => ?_⟩
  · unfold pnodeView
    rw [hview]
    rfl
  · by_cases he : row'=row∧col'=col
    · rw [he.1,he.2,setNnode_self]
      exact nofun
    · rwa [setNnode_of_ne s n he]

theorem MemGood.setNnode (h : MemGood c s) {n : Cnode MemNnode}
    (hgood : NnodeGood c row col n.node) (hrow : row<c.lptHght) (hcol : col<4^row)
    (hparent : ∀ row',row=row'+1 → s.nnodes row' (col/4)≠none) :
    MemGood c (s.setNnode row col n) := by
  have hgrows : ∀ row' col',s.nnodes row' col'≠none →
      (s.setNnode row col n).nnodes row' col'≠none := by
    intro row' col' hm
    by_cases he : row'=row∧col'=col
    · rw [he.1,he.2,setNnode_self]
      exact nofun
    · rwa [setNnode_of_ne s n he]
  refine ⟨fun row' col' m hm => ?_,h.pnodes,fun row' col' hm => ?_,
    fun col' hm => hgrows _ _ (h.pnodeParents col' hm)⟩
  · by_cases he : row'=row∧col'=col
    · rw [he.1,he.2,setNnode_self] at hm
      cases hm
      rw [he.1,he.2]
      exact ⟨hgood,hrow,hcol⟩
    · rw [setNnode_of_ne s n he] at hm
      exact h.nnodes row' col' m hm
  · refine hgrows _ _ ?_
    by_cases he : row'+1=row∧col'=col
    · rw [he.2]
      exact hparent row' he.1.symm
    · rw [setNnode_of_ne s n he] at hm
      exact h.parents row' col' hm

/-- A pnode of the view may be put into memory. -/
theorem Same.setPnode {p : Cnode MemPnode} (hp : pnodeView c f s col=some (.ok p.node)) :
    Same c f s (s.setPnode col p) := by
  refine ⟨nnodeView_congr rfl rfl rfl,fun col' => ?_,fun _ _ => id⟩
  by_cases he : col'=col
  · rw [he,hp]
    unfold pnodeView
    have hself : (s.setPnode col p).pnodes col=some p := update_self _ _ _
    rw [hself]
  · unfold pnodeView
    have hother : (s.setPnode col p).pnodes col'=s.pnodes col' := update_of_ne he _ _
    rw [hother,nnodeView_congr (t := s.setPnode col p) (s := s) rfl rfl rfl]

theorem MemGood.setPnode (h : MemGood c s) {p : Cnode MemPnode} (hgood : PnodeGood c col p.node)
    (hcol : col<4^c.lptHght) (hparent : s.nnodes (c.lptHght-1) (col/4)≠none) :
    MemGood c (s.setPnode col p) := by
  refine ⟨h.nnodes,fun col' q hq => ?_,h.parents,fun col' hq => ?_⟩
  · by_cases he : col'=col
    · have hself : (s.setPnode col p).pnodes col=some p := update_self _ _ _
      rw [he,hself] at hq
      cases hq
      rw [he]
      exact ⟨hgood,hcol⟩
    · exact h.pnodes col' q ((update_of_ne he _ _).symm.trans hq)
  · by_cases he : col'=col
    · rw [he]
      exact hparent
    · exact h.pnodeParents col' fun e => hq ((update_of_ne he _ _).trans e)

end ArdroneKernel.UbifsLpt
