import ArdroneKernel.UbifsLptLookups

/-!
# The scan of the tree

The scan has a path of nodes of the view, in memory or only read. It climbs
until it can go right, and comes to the next pnode whichever nodes were added
to the tree on the way.
-/

namespace ArdroneKernel.UbifsLpt

variable {c : LptInfo} {f : Flash} {s t : Lpt} {row col iip : ℕ} {path : List ScanNode}
  {p : MemPnode}

/-- A nnode of the path: one of the view, in memory when it is in the tree. -/
structure OnPath (c : LptInfo) (f : Flash) (row col : ℕ) (n : ScanNode) (s : Lpt) : Prop where
  atRow : n.entry.row=row
  atCol : n.entry.col=col
  view : nnodeView c f s row col=some (.ok n.entry.nnode)
  mem : n.inTree=true → s.nnodes row col≠none

/-- A path down to a place. -/
inductive IsPath (c : LptInfo) (f : Flash) (s : Lpt) : List ScanNode → ℕ → ℕ → Prop where
  | root {n} (hn : OnPath c f 0 0 n s) (hin : n.inTree=true) : IsPath c f s [n] 0 0
  | down {n path row col} (hn : OnPath c f (row+1) col n s) (hpath : IsPath c f s path row (col/4)) :
    IsPath c f s (n::path) (row+1) col

/-- The scan is at some properties. -/
structure At (c : LptInfo) (f : Flash) (i : ℕ) (pos : Position) (s : Lpt) : Prop where
  path : IsPath c f s pos.path (c.lptHght-1) (i/4/4)
  atCol : pos.pnode.entry.col=i/4
  view : pnodeView c f s (i/4)=some (.ok pos.pnode.entry.pnode)
  atIip : pos.iip=i%4

theorem OnPath.same {n : ScanNode} (hn : OnPath c f row col n s) (h : Same c f s t) :
    OnPath c f row col n t :=
  ⟨hn.atRow,hn.atCol,(h.nnodes row col).trans hn.view,fun hin => h.grows row col (hn.mem hin)⟩

theorem IsPath.same {path : List ScanNode} (hpath : IsPath c f s path row col)
    (h : Same c f s t) : IsPath c f t path row col := by
  induction hpath with
  | root hn hin => exact IsPath.root (hn.same h) hin
  | down hn _ ih => exact IsPath.down (hn.same h) ih

theorem IsPath.length (hpath : IsPath c f s path row col) :
    path.length=row+1 := by
  induction hpath with
  | root => rfl
  | down _ _ ih => exact congrArg (·+1) ih

/-- The lowest nnode of a path. -/
theorem IsPath.head {path : List ScanNode} (hpath : IsPath c f s path row col) :
    ∃ n rest,path=n::rest∧OnPath c f row col n s := by
  cases hpath with
  | root hn hin => exact ⟨_,_,rfl,hn⟩
  | down hn hpath => exact ⟨_,_,rfl,hn⟩

/-! ## Nodes for the scan -/

theorem scanGetNnode_ensures (h : MemGood c s) {n : ScanNode} (hn : OnPath c f row col n s)
    {m : MemNnode} {dest : ℕ} (hdest : 4*col+iip=dest) (hiip : iip<4)
    (hm : nnodeView c f s (row+1) dest=some (.ok m)) :
    Ensures c f (scanGetNnode c f n.entry iip) s (OnPath c f (row+1) dest) := by
  have ⟨hr,hc,hview,_⟩ := hn
  subst hr hc hdest
  cases hmem : s.nnodes (n.entry.row+1) (4*n.entry.col+iip) with
  | some k =>
    refine ⟨⟨true,childOf (some n.entry) iip k.node⟩,s,?_,h,Same.refl c f s,rfl,rfl,
      nnodeView_mem hmem,fun _ => ?_⟩
    · unfold scanGetNnode
      rw [show s.nnodes (n.entry.row+1) (UBIFS_LPT_FANOUT*n.entry.col+iip)=some k from hmem]
    · rw [hmem]
      exact nofun
  | none =>
    have hchild := nnodeView_child hview hiip hmem
    rw [hm] at hchild
    have ⟨b,hb,hmake⟩ := Option.bind_eq_some_iff.mp hchild.symm
    refine ⟨⟨false,childOf (some n.entry) iip m⟩,s,?_,h,Same.refl c f s,rfl,rfl,hm,nofun⟩
    unfold scanGetNnode
    rw [show s.nnodes (n.entry.row+1) (UBIFS_LPT_FANOUT*n.entry.col+iip)=none from hmem]
    rw [hb,Option.bind_some,hmake]
    rfl

/-- A pnode at the end of the path. -/
structure PnodeOn (c : LptInfo) (f : Flash) (col : ℕ) (p : ScanPnode) (s : Lpt) : Prop where
  atCol : p.entry.col=col
  view : pnodeView c f s col=some (.ok p.entry.pnode)

theorem scanGetPnode_ensures (h : MemGood c s) {n : ScanNode}
    (hn : OnPath c f (c.lptHght-1) col n s) {dest : ℕ} (hdest : 4*col+iip=dest) (hiip : iip<4)
    (hp : pnodeView c f s dest=some (.ok p)) :
    Ensures c f (scanGetPnode c f n.entry iip) s (PnodeOn c f dest) := by
  have ⟨hr,hc,hview,_⟩ := hn
  subst hc hdest
  cases hmem : s.pnodes (4*n.entry.col+iip) with
  | some k =>
    have hk : pnodeView c f s (4*n.entry.col+iip)=some (.ok k.node) := by
      unfold pnodeView
      rw [hmem]
    refine ⟨⟨true,⟨4*n.entry.col+iip,k.node⟩⟩,s,?_,h,Same.refl c f s,rfl,hk⟩
    unfold scanGetPnode
    rw [show s.pnodes (UBIFS_LPT_FANOUT*n.entry.col+iip)=some k from hmem]
    rfl
  | none =>
    have hmake := (pnodeView_child hview hiip hmem).symm.trans hp
    refine ⟨⟨false,⟨4*n.entry.col+iip,p⟩⟩,s,?_,h,Same.refl c f s,rfl,hp⟩
    unfold scanGetPnode
    rw [show s.pnodes (UBIFS_LPT_FANOUT*n.entry.col+iip)=none from hmem]
    rw [hmake]
    rfl

/-- The descent comes to the pnode of the LEB. -/
theorem descend_ensures {i rows : ℕ} (h : MemGood c s) (hp : pnodeView c f s (i/4)=some (.ok p))
    (hrow : row+1+rows=c.lptHght) {n : ScanNode} (hn : OnPath c f row (i/4^(rows+2)) n s)
    (hpath : IsPath c f s (n::path) row (i/4^(rows+2))) :
    Ensures c f (descend c f i rows (n::path) n.entry ((rows+1)*UBIFS_LPT_FANOUT_SHIFT)) s
      fun r t => IsPath c f t r.1 (c.lptHght-1) (i/4/4)∧PnodeOn c f (i/4) r.2 t := by
  induction rows generalizing row n path s with
  | zero =>
    have he : row=c.lptHght-1 := by omega
    subst he
    have hdiv : i/4^(0+2)=i/4/4 := (Nat.div_div_eq_div_mul i 4 4).symm
    have hget : Ensures c f (scanGetPnode c f n.entry (i/4^1%4)) s (PnodeOn c f (i/4)) :=
      scanGetPnode_ensures h hn ((digit_step i 1).trans (by rw [pow_one]))
        (Nat.mod_lt _ (by decide)) hp
    unfold descend
    rw [digit_eq]
    refine hget.bind fun q t hgood hsame hq => Ensures.pure hgood ⟨?_,hq⟩
    exact hdiv▸hpath.same hsame
  | succ rows ih =>
    have ⟨m,hm⟩ : ∃ m,nnodeView c f s (row+1) (i/4^(rows+2))=some (.ok m) :=
      h.view_way hp (by omega)
    have hget : Ensures c f (scanGetNnode c f n.entry (i/4^(rows+2)%4)) s
        (OnPath c f (row+1) (i/4^(rows+2))) :=
      scanGetNnode_ensures h hn (digit_step i (rows+2)) (Nat.mod_lt _ (by decide)) hm
    have hshft : (rows+1+1)*UBIFS_LPT_FANOUT_SHIFT-UBIFS_LPT_FANOUT_SHIFT=
      (rows+1)*UBIFS_LPT_FANOUT_SHIFT := by rw [Nat.succ_mul (rows+1),Nat.add_sub_cancel]
    have hdiv : i/4^(rows+2)/4=i/4^(rows+1+2) := by
      rw [Nat.div_div_eq_div_mul,← pow_succ]
    unfold descend
    rw [digit_eq,hshft]
    refine hget.bind fun m t hgood hsame hm => ?_
    refine ih hgood ((hsame.pnodes _).trans hp) (by omega) hm (IsPath.down hm ?_)
    rw [hdiv]
    exact hpath.same hsame

theorem scanFrom_ensures {lnum i : ℕ} (hlnum : lnum-c.mainFirst=i) (hi : i/4<4^c.lptHght)
    (h : MemGood c s) (hp : pnodeView c f s (i/4)=some (.ok p)) :
    Ensures c f (scanFrom c f lnum) s (At c f i) := by
  have hpos := lptHght_pos c.toInfo
  have hrow : 0+1+(c.lptHght-1)=c.lptHght := by omega
  have hzero : i/4^(c.lptHght-1+2)=0 := Nat.lt_one_iff.mp (div_pow_lt hrow hi)
  have ⟨m,hm⟩ := h.view_way hp hrow
  rw [hzero] at hm
  unfold scanFrom
  rw [hlnum]
  refine (getRoot_ensures h hm).bind fun a t hgood hsame ha => ?_
  have hroot : OnPath c f 0 (i/4^(c.lptHght-1+2)) ⟨true,a⟩ t := by
    rw [hzero]
    exact ⟨ha.atRow,ha.atCol,ha.view,fun _ => ha.mem⟩
  have hpath : IsPath c f t [⟨true,a⟩] 0 (i/4^(c.lptHght-1+2)) := by
    rw [hzero] at hroot ⊢
    exact IsPath.root hroot rfl
  have hdown := descend_ensures hgood ((hsame.pnodes _).trans hp) hrow hroot hpath
  rw [Nat.sub_add_cancel hpos] at hdown
  refine hdown.bind fun r u hgood' hsame' hr => Ensures.pure hgood' ?_
  exact ⟨hr.1,hr.2.atCol,hr.2.view,Nat.and_two_pow_sub_one_eq_mod i 2⟩

/-! ## To the next pnode -/

/-- The climb stops at the nnode with the next branch to the right. -/
theorem climb_spec (h : MemGood c s) (hpath : IsPath c f s path row col) (hrow : row<c.lptHght)
    (hcol : col<4^row) (hiip : iip<4) (hnext : 4*col+iip+1<4^(row+1)) :
    ∃ path' iip' row' col',climb path iip=some (path',iip')∧IsPath c f s path' row' col'∧
      row'≤row∧iip'+1<4∧4*col+iip+1=(4*col'+(iip'+1))*4^(row-row') := by
  induction hpath generalizing iip with
  | @root n hn hin =>
    have hstop : iip+1<UBIFS_LPT_FANOUT := by
      exact Nat.lt_of_le_of_lt (by omega) hnext
    refine ⟨[n],iip,0,0,?_,IsPath.root hn hin,Nat.le_refl 0,hstop,?_⟩
    · unfold climb
      rw [if_pos hstop]
    · rw [Nat.sub_zero,pow_zero,Nat.mul_one,Nat.add_assoc]
  | @down n path row col hn hpath ih =>
    by_cases hstop : iip+1<UBIFS_LPT_FANOUT
    · refine ⟨n::path,iip,row+1,col,?_,IsPath.down hn hpath,Nat.le_refl _,hstop,?_⟩
      · unfold climb
        rw [if_pos hstop]
      · rw [Nat.sub_self,pow_zero,Nat.mul_one,Nat.add_assoc]
    · have hlast : iip=3 := Nat.le_antisymm (Nat.le_of_lt_succ hiip)
        (Nat.le_of_succ_le_succ (Nat.le_of_not_lt hstop))
      have hnnode := (h.view hrow hcol hn.view).iip
      have hcol' : col/4<4^row := by
        omega
      have hmod : 4*(col/4)+col%4=col := Nat.div_add_mod col 4
      have hup : 4*(col/4)+col%4+1<4^(row+1) := by
        omega
      have ⟨path',iip',row',col',hclimb,hpath',hrow',hiip',heq⟩ :=
        ih (Nat.lt_of_succ_lt hrow) hcol' (Nat.mod_lt col (by decide)) hup
      refine ⟨path',iip',row',col',?_,hpath',hrow'.trans (Nat.le_succ row),hiip',?_⟩
      · unfold climb
        rw [if_neg hstop,hnnode]
        exact hclimb
      · rw [Nat.succ_sub hrow',pow_succ,← Nat.mul_assoc,← heq,hlast]
        omega

/-- To the right and down, one comes to the first pnode there. -/
theorem goRight_ensures {rows y : ℕ} (h : MemGood c s) (hpath : IsPath c f s path row col)
    (hrow : row+1+rows=c.lptHght) (hiip : iip<4) (hy : y=(4*col+iip)*4^rows)
    (hp : pnodeView c f s y=some (.ok p)) :
    Ensures c f (goRight c f rows path iip) s
      fun r t => IsPath c f t r.1 (c.lptHght-1) (y/4)∧PnodeOn c f y r.2 t := by
  induction rows generalizing row col iip path s with
  | zero =>
    have he : row=c.lptHght-1 := by omega
    subst he
    rw [pow_zero,Nat.mul_one] at hy
    have hdiv : y/4=col := by omega
    have ⟨n,rest,hcons,hn⟩ := hpath.head
    subst hcons
    refine (scanGetPnode_ensures h hn hy.symm hiip hp).bind fun q t hgood hsame hq => ?_
    refine Ensures.pure hgood ⟨?_,hq⟩
    rw [hdiv]
    exact hpath.same hsame
  | succ rows ih =>
    have ⟨n,rest,hcons,hn⟩ := hpath.head
    subst hcons
    have hfirst : y=(4*(4*col+iip)+0)*4^rows := by
      rw [hy,pow_succ]
      ring
    have ⟨m,hm⟩ := h.view_path hp rows (row+1) (by omega)
    have hdiv : y/4^(rows+1)=4*col+iip := by
      rw [hy]
      exact Nat.mul_div_cancel _ (Nat.pow_pos (by decide))
    rw [hdiv] at hm
    refine (scanGetNnode_ensures h hn rfl hiip hm).bind fun k t hgood hsame hk => ?_
    have hup : (4*col+iip)/4=col := by omega
    refine ih hgood (IsPath.down hk ?_) (by omega) (by decide) hfirst ((hsame.pnodes y).trans hp)
    rw [hup]
    exact hpath.same hsame

/-! ## The path is added to the tree -/

/-- The nodes of the path get into memory from the root down. -/
theorem addNnodes_spec (h : MemGood c s) (hpath : IsPath c f s path row col) (hrow : row<c.lptHght)
    (hcol : col<4^row) : MemGood c (addNnodes path s)∧
      Same c f s (addNnodes path s)∧(addNnodes path s).nnodes row col≠none∧
      IsPath c f (addNnodes path s) (path.map fun n => {n with inTree := true}) row col := by
  induction hpath with
  | @root n hn hin =>
    have he : addNnodes [n] s=s := by
      unfold addNnodes
      rw [if_pos hin]
      rfl
    rw [he]
    exact ⟨h,Same.refl c f s,hn.mem hin,
      IsPath.root ⟨hn.atRow,hn.atCol,hn.view,fun _ => hn.mem hin⟩ rfl⟩
  | @down n path row col hn hpath ih =>
    have hcol' : col/4<4^row := by
      omega
    have ⟨hgood,hsame,hparent,hmap⟩ := ih (Nat.lt_of_succ_lt hrow) hcol'
    by_cases hin : n.inTree
    · have he : addNnodes (n::path) s=addNnodes path s := by
        conv_lhs => unfold addNnodes
        exact if_pos hin
      have hmem := hsame.grows _ _ (hn.mem hin)
      rw [he]
      exact ⟨hgood,hsame,hmem,IsPath.down ⟨hn.atRow,hn.atCol,(hsame.nnodes _ _).trans hn.view,
        fun _ => hmem⟩ hmap⟩
    · have he : addNnodes (n::path) s=(addNnodes path s).setNnode (row+1) col
          ⟨n.entry.nnode,false,false⟩ := by
        conv_lhs => unfold addNnodes
        rw [← hn.atRow,← hn.atCol]
        exact if_neg hin
      have hview : nnodeView c f (addNnodes path s) (row+1) col=some (.ok n.entry.nnode) :=
        (hsame.nnodes _ _).trans hn.view
      have hset : Same c f (addNnodes path s) ((addNnodes path s).setNnode (row+1) col
        ⟨n.entry.nnode,false,false⟩) := Same.setNnode hview
      have hmem : ((addNnodes path s).setNnode (row+1) col
          ⟨n.entry.nnode,false,false⟩).nnodes (row+1) col≠none := by
        rw [setNnode_self]
        exact nofun
      rw [he]
      refine ⟨hgood.setNnode (hgood.view hrow hcol hview) hrow hcol fun row' e => ?_,
        hsame.trans hset,hmem,IsPath.down ⟨hn.atRow,hn.atCol,(hset.nnodes _ _).trans hview,
          fun _ => hmem⟩ (hmap.same hset)⟩
      cases e
      exact hparent

/-- The scan stays where it is when the path is added. -/
theorem addPath_spec (h : MemGood c s) {pos : Position} {i : ℕ} (hi : i/4<4^c.lptHght)
    (hat : At c f i pos s) : MemGood c (addPath pos s).2∧Same c f s (addPath pos s).2∧
      At c f i (addPath pos s).1 (addPath pos s).2 := by
  have hpos := lptHght_pos c.toInfo
  have hcol : i/4/4<4^(c.lptHght-1) := by
    have hpow : 4^c.lptHght=4^(c.lptHght-1)*4 := by rw [← pow_succ,Nat.sub_add_cancel hpos]
    omega
  have ⟨hgood,hsame,hmem,hmap⟩ := addNnodes_spec h hat.path (by omega) hcol
  have hview := (hsame.pnodes _).trans hat.view
  by_cases hin : pos.pnode.inTree
  · have he : (addPath pos s).2=addNnodes pos.path s := if_pos hin
    rw [he]
    exact ⟨hgood,hsame,hmap,hat.atCol,hview,hat.atIip⟩
  · have he : OnlyCounts ((addNnodes pos.path s).setPnode (i/4)
        ⟨pos.pnode.entry.pnode,false,false⟩) (addPath pos s).2 := by
      rw [← hat.atCol,show (addPath pos s).2=_ from if_neg hin]
      exact ⟨rfl,rfl,rfl,rfl⟩
    have hset : Same c f (addNnodes pos.path s) (addPath pos s).2 :=
      (Same.setPnode (p := ⟨pos.pnode.entry.pnode,false,false⟩) hview).trans he.same
    exact ⟨(hgood.setPnode (hgood.pview hi hview) hi hmem).of_eq he.nnodes he.pnodes,
      hsame.trans hset,hmap.same hset,hat.atCol,(hset.pnodes _).trans hview,hat.atIip⟩

/-- The next properties, with those of the first LEB after the last. -/
theorem nextPosition_ensures (h : MemGood c s) {pos : Position} {i : ℕ} (hat : At c f i pos s)
    (hmain : c.mainLebs≤c.lebCnt) (hi : i<c.mainLebs)
    (hlebs : ∀ j<c.mainLebs,j/4<4^c.lptHght∧∃ p,pnodeView c f s (j/4)=some (.ok p)) :
    Ensures c f (nextPosition c f (c.mainFirst+i) pos) s (At c f ((i+1)%c.mainLebs)) := by
  have hpos := lptHght_pos c.toInfo
  have hend : c.mainFirst+c.mainLebs=c.lebCnt := Nat.sub_add_cancel hmain
  unfold nextPosition
  by_cases hlast : c.mainFirst+i+1≥c.lebCnt
  · have hwrap : i+1=c.mainLebs := by omega
    have ⟨hzero,p,hp⟩ := hlebs 0 (by omega)
    rw [if_pos hlast,hwrap,Nat.mod_self]
    exact scanFrom_ensures (Nat.sub_self _) hzero h hp
  · have hnext : i+1<c.mainLebs := by omega
    rw [if_neg hlast,Nat.mod_eq_of_lt hnext]
    by_cases hin : pos.iip+1<UBIFS_LPT_FANOUT
    · have hiip : i%4+1<4 := by
        rw [← hat.atIip]
        exact hin
      have hdiv : (i+1)/4=i/4 := by omega
      rw [if_pos hin]
      refine Ensures.pure h ⟨?_,?_,?_,?_⟩
      · rw [hdiv]
        exact hat.path
      · rw [hdiv]
        exact hat.atCol
      · rw [hdiv]
        exact hat.view
      · dsimp only
        rw [hat.atIip]
        omega
    · have hiip : i%4=3 := by
        have : ¬i%4+1<4 := by
          rw [← hat.atIip]
          exact hin
        omega
      have hdiv : (i+1)/4=i/4+1 := by omega
      have ⟨hcol,p,hp⟩ := hlebs (i+1) hnext
      have hcol' : i/4/4<4^(c.lptHght-1) := by
        have hpow : 4^c.lptHght=4^(c.lptHght-1)*4 := by rw [← pow_succ,Nat.sub_add_cancel hpos]
        omega
      have hpnode := (h.pview (hlebs i hi).1 hat.view).iip
      have hplace : 4*(i/4/4)+i/4%4=i/4 := Nat.div_add_mod _ 4
      have hup : 4*(i/4/4)+i/4%4+1<4^(c.lptHght-1+1) := by
        rw [hplace,Nat.sub_add_cancel hpos,← hdiv]
        exact hcol
      have ⟨path',iip',row',col',hclimb,hpath',hrow',hiip',heq⟩ :=
        climb_spec h hat.path (by omega) hcol' (Nat.mod_lt _ (by decide)) hup
      rw [hplace,← hdiv] at heq
      have hlen := hpath'.length
      have hrows : c.lptHght-path'.length=c.lptHght-1-row' := by omega
      rw [if_neg hin,hpnode,hclimb]
      dsimp only
      rw [hrows]
      refine (goRight_ensures h hpath' (by omega) hiip' heq hp).bind fun r t hgood hsame hr => ?_
      refine Ensures.pure hgood ⟨hr.1,hr.2.atCol,hr.2.view,?_⟩
      dsimp only
      omega

end ArdroneKernel.UbifsLpt
