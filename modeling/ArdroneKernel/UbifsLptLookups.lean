import ArdroneKernel.UbifsLptViews

/-!
# Look-ups in the tree

A look-up reads the nodes on its way and returns what the view has for the LEB.
The look-up that makes the nodes dirty does the same.
-/

namespace ArdroneKernel.UbifsLpt

variable {c : LptInfo} {f : Flash} {s : Lpt} {α β : Type}

/-- A function succeeds, leaves memory good and the view as it was, and returns
something with a property. -/
def Ensures (c : LptInfo) (f : Flash) (x : LptM α) (s : Lpt) (Q : α → Lpt → Prop) : Prop :=
  ∃ a t,x s=some (.ok a,t)∧MemGood c t∧Same c f s t∧Q a t

theorem Ensures.pure (h : MemGood c s) {a : α} {Q : α → Lpt → Prop} (hQ : Q a s) :
    Ensures c f (Pure.pure a) s Q := ⟨a,s,rfl,h,Same.refl c f s,hQ⟩

/-- One function after another. -/
theorem Ensures.bind {x : LptM α} {g : α → LptM β} {P : α → Lpt → Prop} {Q : β → Lpt → Prop}
    (hx : Ensures c f x s P)
    (hg : ∀ a t,MemGood c t → Same c f s t → P a t → Ensures c f (g a) t Q) :
    Ensures c f (x>>=g) s Q := by
  have ⟨a,t,hrun,hgood,hsame,hP⟩ := hx
  have ⟨b,u,hrun',hgood',hsame',hQ⟩ := hg a t hgood hsame hP
  refine ⟨b,u,?_,hgood',hsame.trans hsame',hQ⟩
  change (x s).bind _=_
  rw [hrun]
  exact hrun'

/-- A nnode of the view that is in memory. -/
structure Held (c : LptInfo) (f : Flash) (row col : ℕ) (n : NnodeAt) (s : Lpt) : Prop where
  atRow : n.row=row
  atCol : n.col=col
  view : nnodeView c f s row col=some (.ok n.nnode)
  mem : s.nnodes row col≠none

/-- A pnode of the view that is in memory. -/
structure PHeld (c : LptInfo) (f : Flash) (col : ℕ) (p : PnodeAt) (s : Lpt) : Prop where
  atCol : p.col=col
  view : pnodeView c f s col=some (.ok p.pnode)
  mem : s.pnodes col≠none

variable {row col iip : ℕ} {n : NnodeAt} {p : MemPnode}

theorem Held.node_eq (hn : Held c f row col n s) {m : Cnode MemNnode}
    (hm : s.nnodes row col=some m) : m.node=n.nnode :=
  Except.ok.inj (Option.some.inj ((nnodeView_mem hm).symm.trans hn.view))

theorem PHeld.node_eq {p : PnodeAt} (hp : PHeld c f col p s) {m : Cnode MemPnode}
    (hm : s.pnodes col=some m) : m.node=p.pnode := by
  have hview := hp.view
  unfold pnodeView at hview
  rw [hm] at hview
  exact Except.ok.inj (Option.some.inj hview)

theorem nnodeView_root (hno : s.nnodes 0 0=none) :
    nnodeView c f s 0 0=makeNnode c f ⟨s.lptLnum,s.lptOffs⟩ none 0 := by
  unfold nnodeView
  rw [hno]

/-- What would be read below a nnode. -/
theorem nnodeView_child (hn : nnodeView c f s row col=some (.ok n.nnode)) (hiip : iip<4)
    (hno : s.nnodes (row+1) (4*col+iip)=none) : nnodeView c f s (row+1) (4*col+iip)=
      (n.nnode.nbranch[iip]?).bind fun b => makeNnode c f b (some n.nnode) iip := by
  have hdiv : (4*col+iip)/4=col := by omega
  have hmod : (4*col+iip)%4=iip := by omega
  unfold nnodeView
  rw [hno,hdiv,hmod,hn]
  rfl

theorem pnodeView_child (hn : nnodeView c f s (c.lptHght-1) col=some (.ok n.nnode)) (hiip : iip<4)
    (hno : s.pnodes (4*col+iip)=none) :
    pnodeView c f s (4*col+iip)=makePnode c f n.nnode iip := by
  have hdiv : (4*col+iip)/4=col := by omega
  have hmod : (4*col+iip)%4=iip := by omega
  unfold pnodeView
  rw [hno,hdiv,hmod,hn]
  rfl

/-- A nnode that is read is the one of the view. -/
theorem ubifsReadNnode_ensures (h : MemGood c s) {parent : Option NnodeAt} {b : Nbranch}
    {m : MemNnode} (hb : branchTo s parent iip=some b)
    (hm : makeNnode c f b (parent.map NnodeAt.nnode) iip=some (.ok m))
    (hrow : (childOf parent iip m).row<c.lptHght)
    (hcol : (childOf parent iip m).col<4^(childOf parent iip m).row)
    (hparent : ∀ row',(childOf parent iip m).row=row'+1 →
      s.nnodes row' ((childOf parent iip m).col/4)≠none)
    (hview : nnodeView c f s (childOf parent iip m).row (childOf parent iip m).col=
      some (.ok m)) :
    Ensures c f (ubifsReadNnode c f parent iip) s
      (Held c f (childOf parent iip m).row (childOf parent iip m).col) := by
  have hnode : (childOf parent iip m).nnode=m := by
    unfold childOf
    split <;> rfl
  refine ⟨childOf parent iip m,_,?_,h.setNnode (n := ⟨m,false,false⟩) (h.view hrow hcol hview) hrow
    hcol hparent,Same.setNnode hview,rfl,rfl,?_,?_⟩
  · unfold ubifsReadNnode
    rw [hb,Option.bind_some,hm]
    rfl
  · rw [hnode]
    exact nnodeView_mem (setNnode_self s _ _ _)
  · rw [setNnode_self]
    exact nofun

theorem getRoot_ensures (h : MemGood c s) {m : MemNnode} (hm : nnodeView c f s 0 0=some (.ok m)) :
    Ensures c f (getRoot c f) s (Held c f 0 0) := by
  have hpos := lptHght_pos c.toInfo
  cases hmem : s.nnodes 0 0 with
  | some k =>
    refine ⟨⟨0,0,k.node⟩,s,?_,h,Same.refl c f s,rfl,rfl,nnodeView_mem hmem,?_⟩
    · unfold getRoot
      rw [hmem]
    · rw [hmem]
      exact nofun
  | none =>
    have ⟨a,t,hrun,hrest⟩ : Ensures c f (ubifsReadNnode c f none 0) s (Held c f 0 0) :=
      ubifsReadNnode_ensures h rfl ((nnodeView_root hmem).symm.trans hm) hpos
        (Nat.lt_of_lt_of_eq Nat.one_pos (pow_zero 4).symm) (fun _ e => by cases e) hm
    refine ⟨a,t,?_,hrest⟩
    unfold getRoot
    rw [hmem]
    exact hrun

/-- A child in the view is got. -/
theorem ubifsGetNnode_ensures (h : MemGood c s) (hn : Held c f row col n s) {m : MemNnode} {dest : ℕ}
    (hdest : 4*col+iip=dest) (hrow : row+1<c.lptHght) (hcol : col<4^row) (hiip : iip<4)
    (hm : nnodeView c f s (row+1) dest=some (.ok m)) :
    Ensures c f (ubifsGetNnode c f n iip) s (Held c f (row+1) dest) := by
  have ⟨hr,hc,hview,hmem'⟩ := hn
  subst hr hc hdest
  have hcol' : 4*n.col+iip<4^(n.row+1) := by
    omega
  cases hmem : s.nnodes (n.row+1) (4*n.col+iip) with
  | some k =>
    refine ⟨childOf (some n) iip k.node,s,?_,h,Same.refl c f s,rfl,rfl,nnodeView_mem hmem,?_⟩
    · unfold ubifsGetNnode
      rw [show s.nnodes (n.row+1) (UBIFS_LPT_FANOUT*n.col+iip)=some k from hmem]
    · rw [hmem]
      exact nofun
  | none =>
    have hchild := nnodeView_child hview hiip hmem
    rw [hm] at hchild
    have ⟨b,hb,hmake⟩ := Option.bind_eq_some_iff.mp hchild.symm
    have hto : branchTo s (some n) iip=some b := hb
    have hdiv : (4*n.col+iip)/4=n.col := by omega
    have ⟨a,t,hrun,hrest⟩ : Ensures c f (ubifsReadNnode c f (some n) iip) s
        (Held c f (n.row+1) (4*n.col+iip)) :=
      ubifsReadNnode_ensures h hto hmake hrow hcol'
        (fun row' e => by
          cases e
          rwa [show (childOf (some n) iip m).col/4=n.col from hdiv]) hm
    refine ⟨a,t,?_,hrest⟩
    unfold ubifsGetNnode
    rw [show s.nnodes (n.row+1) (UBIFS_LPT_FANOUT*n.col+iip)=none from hmem]
    exact hrun

theorem ubifsGetPnode_ensures (h : MemGood c s) (hn : Held c f (c.lptHght-1) col n s) {dest : ℕ}
    (hdest : 4*col+iip=dest) (hcol : dest<4^c.lptHght) (hiip : iip<4)
    (hp : pnodeView c f s dest=some (.ok p)) :
    Ensures c f (ubifsGetPnode c f n iip) s (PHeld c f dest) := by
  have ⟨hr,hc,hview,hmem'⟩ := hn
  subst hc hdest
  cases hmem : s.pnodes (4*n.col+iip) with
  | some k =>
    have hk : pnodeView c f s (4*n.col+iip)=some (.ok k.node) := by
      unfold pnodeView
      rw [hmem]
    refine ⟨⟨4*n.col+iip,k.node⟩,s,?_,h,Same.refl c f s,rfl,hk,?_⟩
    · unfold ubifsGetPnode
      rw [show s.pnodes (UBIFS_LPT_FANOUT*n.col+iip)=some k from hmem]
      rfl
    · rw [hmem]
      exact nofun
  | none =>
    have hdiv : (4*n.col+iip)/4=n.col := by omega
    have hmake := (pnodeView_child hview hiip hmem).symm.trans hp
    have hgood := h.setPnode (p := ⟨p,false,false⟩) (h.pview hcol hp) hcol (hdiv.symm▸hmem')
    have hsame : Same c f s (s.setPnode (4*n.col+iip) ⟨p,false,false⟩) := Same.setPnode hp
    have hself : (s.setPnode (4*n.col+iip) ⟨p,false,false⟩).pnodes (4*n.col+iip)=
      some ⟨p,false,false⟩ := Function.update_self _ _ _
    let t : Lpt :=
      {s.setPnode (4*n.col+iip) ⟨p,false,false⟩ with pnodesHave := s.pnodesHave+1}
    have hsame' : Same c f s t := hsame.trans (Same.of_eq rfl rfl rfl rfl)
    refine ⟨⟨4*n.col+iip,p⟩,t,?_,hgood.of_eq rfl rfl,hsame',rfl,(hsame'.pnodes _).trans hp,?_⟩
    · unfold ubifsGetPnode
      rw [show s.pnodes (UBIFS_LPT_FANOUT*n.col+iip)=none from hmem]
      unfold readPnode
      rw [hmake]
      rfl
    · rw [show t.pnodes (4*n.col+iip)=some ⟨p,false,false⟩ from hself]
      exact nofun

/-! ## Nodes become dirty -/

/-- A change of the counters and of the table of the LPT area only. -/
structure OnlyCounts (s t : Lpt) : Prop where
  nnodes : t.nnodes=s.nnodes
  pnodes : t.pnodes=s.pnodes
  lptLnum : t.lptLnum=s.lptLnum
  lptOffs : t.lptOffs=s.lptOffs

theorem OnlyCounts.trans {t u : Lpt} (h : OnlyCounts s t) (h' : OnlyCounts t u) : OnlyCounts s u :=
  ⟨h'.nnodes.trans h.nnodes,h'.pnodes.trans h.pnodes,h'.lptLnum.trans h.lptLnum,
    h'.lptOffs.trans h.lptOffs⟩

theorem OnlyCounts.same {t : Lpt} (h : OnlyCounts s t) : Same c f s t :=
  Same.of_eq h.nnodes h.pnodes h.lptLnum h.lptOffs

theorem ubifsAddLptDirt_counts (c : LptInfo) (s : Lpt) (lnum dirty : ℕ) :
    OnlyCounts s (ubifsAddLptDirt c s lnum dirty) := by
  unfold ubifsAddLptDirt
  split <;> exact ⟨rfl,rfl,rfl,rfl⟩

/-- The parent of a nnode in memory has a branch for it. -/
theorem MemGood.branch (h : MemGood c s) {m : Cnode MemNnode} (hm : s.nnodes row col=some m)
    (hiip : iip<4) : ∃ b,m.node.nbranch[iip]?=some b := by
  refine ⟨_,List.getElem?_eq_getElem (h := ?_)⟩
  rwa [(h.nnodes _ _ _ hm).1.length]

theorem ubifsAddNnodeDirt_counts (h : MemGood c s) (hn : Held c f row col n s) {t : Lpt}
    (ht : OnlyCounts s t) : ∃ u,ubifsAddNnodeDirt c t n=some u∧OnlyCounts s u := by
  have ⟨hr,hc,hview,hmem⟩ := hn
  subst hr hc
  have ⟨m,hm⟩ := Option.ne_none_iff_exists'.mp hmem
  have hgood := h.nnodes _ _ _ hm
  have hnode := hn.node_eq hm
  unfold ubifsAddNnodeDirt
  cases hrow : n.row with
  | zero =>
    refine ⟨_,rfl,?_⟩
    have hroot := ht.trans (ubifsAddLptDirt_counts c t t.lptLnum c.nnodeSz)
    split
    · exact hroot
    · have hbit : OnlyCounts (ubifsAddLptDirt c t t.lptLnum c.nnodeSz)
          {ubifsAddLptDirt c t t.lptLnum c.nnodeSz with ltabDirty := true} := ⟨rfl,rfl,rfl,rfl⟩
      exact (hroot.trans hbit).trans (ubifsAddLptDirt_counts _ _ _ _)
  | succ row =>
    have hparent := h.parents row n.col (by rw [← hrow]; exact hmem)
    have ⟨k,hk⟩ := Option.ne_none_iff_exists'.mp hparent
    have hiip : n.nnode.iip<4 := by
      rw [← hnode,hgood.1.iip]
      exact Nat.mod_lt _ (by decide)
    have ⟨b,hb⟩ := h.branch hk hiip
    dsimp only
    rw [ht.nnodes,show s.nnodes row (n.col/UBIFS_LPT_FANOUT)=some k from hk,Option.bind_some,hb]
    exact ⟨_,rfl,ht.trans (ubifsAddLptDirt_counts _ _ _ _)⟩

theorem addPnodeDirt_counts (h : MemGood c s) {p : PnodeAt} (hp : PHeld c f col p s) {t : Lpt}
    (ht : OnlyCounts s t) : ∃ u,addPnodeDirt c t p=some u∧OnlyCounts s u := by
  have ⟨hc,hview,hmem⟩ := hp
  subst hc
  have ⟨m,hm⟩ := Option.ne_none_iff_exists'.mp hmem
  have hgood := h.pnodes _ _ hm
  have hnode := hp.node_eq hm
  have ⟨k,hk⟩ := Option.ne_none_iff_exists'.mp (h.pnodeParents p.col hmem)
  have hiip : p.pnode.iip<4 := by
    rw [← hnode,hgood.1.iip]
    exact Nat.mod_lt _ (by decide)
  have ⟨b,hb⟩ := h.branch hk hiip
  unfold addPnodeDirt
  rw [ht.nnodes,show s.nnodes (c.lptHght-1) (p.col/UBIFS_LPT_FANOUT)=some k from hk,
    Option.bind_some,hb]
  exact ⟨_,rfl,ht.trans (ubifsAddLptDirt_counts _ _ _ _)⟩

/-- A nnode stays what it is when it becomes dirty. -/
theorem dirtyCowNnode_ensures (h : MemGood c s) (hn : Held c f row col n s) :
    Ensures c f (dirtyCowNnode c n) s (Held c f row col) := by
  have ⟨u,hu,hcounts⟩ := ubifsAddNnodeDirt_counts h hn (t := {s with dirtyNnCnt := s.dirtyNnCnt+1})
    ⟨rfl,rfl,rfl,rfl⟩
  have ⟨hr,hc,hview,hmem⟩ := hn
  subst hr hc
  have ⟨m,hm⟩ := Option.ne_none_iff_exists'.mp hmem
  have hgood := h.nnodes _ _ _ hm
  have hnode := hn.node_eq hm
  have hrun : dirtyCowNnode c n s=if m.cow=false∧m.dirty then some (.ok n,s)
      else (ubifsAddNnodeDirt c {s with dirtyNnCnt := s.dirtyNnCnt+1} n).map fun s =>
        (.ok n,s.setNnode n.row n.col ⟨m.node,true,false⟩) := by
    unfold dirtyCowNnode
    rw [hm,Option.bind_some]
  by_cases hdirty : m.cow=false∧m.dirty
  · exact ⟨n,s,hrun.trans (if_pos hdirty),h,Same.refl c f s,rfl,rfl,hview,hmem⟩
  · have hsame := hcounts.same (c := c) (f := f)
    let k : Cnode MemNnode := ⟨m.node,true,false⟩
    have hk : nnodeView c f u n.row n.col=some (.ok k.node) := by
      rw [hsame.nnodes,hview,hnode]
    have hparent : ∀ row',n.row=row'+1 → u.nnodes row' (n.col/4)≠none := by
      intro row' e
      rw [hcounts.nnodes]
      refine h.parents row' n.col ?_
      rwa [← e]
    refine ⟨n,u.setNnode n.row n.col k,?_,(h.of_eq hcounts.nnodes hcounts.pnodes).setNnode
      hgood.1 hgood.2.1 hgood.2.2 hparent,hsame.trans (Same.setNnode hk),rfl,rfl,?_,?_⟩
    · rw [hrun,if_neg hdirty,hu]
      rfl
    · rw [nnodeView_mem (setNnode_self u n.row n.col k),← hnode]
    · rw [setNnode_self]
      exact nofun

theorem dirtyCowPnode_ensures (h : MemGood c s) {p : PnodeAt} (hp : PHeld c f col p s) :
    Ensures c f (dirtyCowPnode c p) s (PHeld c f col) := by
  have ⟨u,hu,hcounts⟩ := addPnodeDirt_counts h hp (t := {s with dirtyPnCnt := s.dirtyPnCnt+1})
    ⟨rfl,rfl,rfl,rfl⟩
  have ⟨hc,hview,hmem⟩ := hp
  subst hc
  have ⟨m,hm⟩ := Option.ne_none_iff_exists'.mp hmem
  have hgood := h.pnodes _ _ hm
  have hnode := hp.node_eq hm
  have hrun : dirtyCowPnode c p s=if m.cow=false∧m.dirty then some (.ok p,s)
      else (addPnodeDirt c {s with dirtyPnCnt := s.dirtyPnCnt+1} p).map fun s =>
        (.ok p,s.setPnode p.col ⟨m.node,true,false⟩) := by
    unfold dirtyCowPnode
    rw [hm,Option.bind_some]
  by_cases hdirty : m.cow=false∧m.dirty
  · exact ⟨p,s,hrun.trans (if_pos hdirty),h,Same.refl c f s,rfl,hview,hmem⟩
  · have hsame := hcounts.same (c := c) (f := f)
    let k : Cnode MemPnode := ⟨m.node,true,false⟩
    have hk : pnodeView c f u p.col=some (.ok k.node) := by
      rw [hsame.pnodes,hview,hnode]
    have hparent : u.nnodes (c.lptHght-1) (p.col/4)≠none := by
      rw [hcounts.nnodes]
      exact h.pnodeParents p.col hmem
    have hset := hsame.trans (Same.setPnode hk)
    refine ⟨p,u.setPnode p.col k,?_,(h.of_eq hcounts.nnodes hcounts.pnodes).setPnode
      hgood.1 hgood.2 hparent,hset,rfl,(hset.pnodes _).trans hview,?_⟩
    · rw [hrun,if_neg hdirty,hu]
      rfl
    · rw [show (u.setPnode p.col k).pnodes p.col=some k from Function.update_self _ _ _]
      exact nofun

/-! ## The way down -/

/-- A branch of the way is a digit of the place. -/
theorem digit_eq (i k : ℕ) :
    i>>>(k*UBIFS_LPT_FANOUT_SHIFT)&&&(UBIFS_LPT_FANOUT-1)=i/4^k%4 := by
  have hpow : 2^(k*UBIFS_LPT_FANOUT_SHIFT)=4^k := by
    rw [Nat.mul_comm,pow_mul]
    rfl
  rw [Nat.shiftRight_eq_div_pow,hpow]
  exact Nat.and_two_pow_sub_one_eq_mod _ 2

/-- One row down, by the next digit. -/
theorem digit_step (i k : ℕ) : 4*(i/4^(k+1))+i/4^k%4=i/4^k := by
  rw [pow_succ,← Nat.div_div_eq_div_mul]
  exact Nat.div_add_mod _ 4

theorem div_pow_lt {i row rows : ℕ} (hrow : row+1+rows=c.lptHght) (hi : i/4<4^c.lptHght) :
    i/4^(rows+2)<4^row := by
  have hpow : 4^c.lptHght=4^row*4^(rows+1) := by
    rw [← pow_add,← hrow]
    congr 1
    omega
  rw [pow_succ,Nat.mul_comm,← Nat.div_div_eq_div_mul]
  exact Nat.div_lt_of_lt_mul (by rwa [Nat.mul_comm,← hpow])

/-- The nnodes above a pnode, by the place of a LEB. -/
theorem MemGood.view_way (h : MemGood c s) {i row rows : ℕ}
    (hp : pnodeView c f s (i/4)=some (.ok p)) (hrow : row+1+rows=c.lptHght) :
    ∃ m,nnodeView c f s row (i/4^(rows+2))=some (.ok m) := by
  have ⟨m,hm⟩ := h.view_path hp rows row hrow
  rw [Nat.div_div_eq_div_mul,Nat.mul_comm,← pow_succ] at hm
  exact ⟨m,hm⟩

/-- What may be done to the nnodes on the way. -/
def Visits (c : LptInfo) (f : Flash) (visit : NnodeAt → LptM NnodeAt) : Prop :=
  ∀ row col n s,MemGood c s → Held c f row col n s → Ensures c f (visit n) s (Held c f row col)

/-- The loop goes down to the nnode above the pnode. -/
theorem lookupLoop_ensures {visit : NnodeAt → LptM NnodeAt} (hvisit : Visits c f visit) {i rows : ℕ}
    (hi : i/4<4^c.lptHght) (h : MemGood c s) (hp : pnodeView c f s (i/4)=some (.ok p))
    (hrow : row+1+rows=c.lptHght) (hn : Held c f row (i/4^(rows+2)) n s) :
    Ensures c f (lookupLoop c f visit i rows n ((rows+1)*UBIFS_LPT_FANOUT_SHIFT)) s
      fun r t => Held c f (c.lptHght-1) (i/4^2) r.1 t∧r.2=UBIFS_LPT_FANOUT_SHIFT := by
  induction rows generalizing row n s with
  | zero =>
    have he : row=c.lptHght-1 := by omega
    subst he
    exact Ensures.pure h ⟨hn,rfl⟩
  | succ rows ih =>
    have ⟨m,hm⟩ : ∃ m,nnodeView c f s (row+1) (i/4^(rows+2))=some (.ok m) :=
      h.view_way hp (by omega)
    have hcol := div_pow_lt hrow hi
    have hget : Ensures c f (ubifsGetNnode c f n (i/4^(rows+2)%4)) s
        (Held c f (row+1) (i/4^(rows+2))) :=
      ubifsGetNnode_ensures h hn (digit_step i (rows+2)) (by omega) hcol
        (Nat.mod_lt _ (by decide)) hm
    unfold lookupLoop
    rw [digit_eq]
    refine hget.bind fun a t hgood hsame ha => ?_
    refine (hvisit _ _ _ _ hgood ha).bind fun b u hgood' hsame' hb => ?_
    have hp' := ((hsame.trans hsame').pnodes _).trans hp
    have hshft : (rows+1+1)*UBIFS_LPT_FANOUT_SHIFT-UBIFS_LPT_FANOUT_SHIFT=
      (rows+1)*UBIFS_LPT_FANOUT_SHIFT := by rw [Nat.succ_mul (rows+1),Nat.add_sub_cancel]
    rw [hshft]
    exact ih hgood' hp' (by omega) hb

/-- A look-up returns the properties that the view has for the LEB. -/
theorem lookup_ensures {visit : NnodeAt → LptM NnodeAt} (hvisit : Visits c f visit)
    {visitPnode : PnodeAt → LptM PnodeAt}
    (hvisitPnode : ∀ col p s,MemGood c s → PHeld c f col p s →
      Ensures c f (visitPnode p) s (PHeld c f col))
    {lnum i : ℕ} (hlnum : lnum-c.mainFirst=i) (hi : i/4<4^c.lptHght) (h : MemGood c s)
    (hp : pnodeView c f s (i/4)=some (.ok p)) :
    Ensures c f (lookup c f visit visitPnode lnum) s fun l _ => l=p.lprops[i%4]? := by
  have hpos := lptHght_pos c.toInfo
  have hrow : 0+1+(c.lptHght-1)=c.lptHght := by omega
  have hzero : i/4^(c.lptHght-1+2)=0 := Nat.lt_one_iff.mp (div_pow_lt hrow hi)
  have ⟨m,hm⟩ := h.view_way hp hrow
  rw [hzero] at hm
  unfold lookup
  rw [hlnum]
  refine (getRoot_ensures h hm).bind fun a t hgood hsame ha => ?_
  refine (hvisit _ _ _ _ hgood ha).bind fun b u hgood' hsame' hb => ?_
  have hp' := ((hsame.trans hsame').pnodes _).trans hp
  have hb' : Held c f 0 (i/4^(c.lptHght-1+2)) b u := by rwa [hzero]
  have hloop := lookupLoop_ensures hvisit hi hgood' hp' hrow hb'
  rw [Nat.sub_add_cancel hpos] at hloop
  refine hloop.bind fun r v hgood'' hsame'' hr => ?_
  have hp'' := (hsame''.pnodes _).trans hp'
  have hget : Ensures c f (ubifsGetPnode c f r.1 (i/4^1%4)) v (PHeld c f (i/4)) :=
    ubifsGetPnode_ensures hgood'' hr.1 ((digit_step i 1).trans (by rw [pow_one])) hi
      (Nat.mod_lt _ (by decide)) hp''
  dsimp only
  rw [hr.2,← Nat.one_mul UBIFS_LPT_FANOUT_SHIFT,digit_eq]
  refine hget.bind fun q w hgood1 hsame1 hq => ?_
  refine (hvisitPnode _ _ _ hgood1 hq).bind fun q' x hgood2 hsame2 hq' => ?_
  have hview := hq'.view
  rw [hsame2.pnodes,hsame1.pnodes,hp''] at hview
  have hnode : p=q'.pnode := Except.ok.inj (Option.some.inj hview)
  refine Ensures.pure hgood2 ?_
  rw [hnode]
  exact congrArg (q'.pnode.lprops[·]?) (Nat.and_two_pow_sub_one_eq_mod i 2)

theorem visits_pure : Visits c f pure := fun _ _ _ _ h hn => Ensures.pure h hn

theorem visits_dirty : Visits c f (dirtyCowNnode c) := fun _ _ _ _ => dirtyCowNnode_ensures

theorem ubifsLptLookup_ensures {lnum i : ℕ} (hlnum : lnum-c.mainFirst=i) (hi : i/4<4^c.lptHght)
    (h : MemGood c s) (hp : pnodeView c f s (i/4)=some (.ok p)) :
    Ensures c f (ubifsLptLookup c f lnum) s fun l _ => l=p.lprops[i%4]? :=
  lookup_ensures visits_pure (fun _ _ _ h hq => Ensures.pure h hq) hlnum hi h hp

theorem ubifsLptLookupDirty_ensures {lnum i : ℕ} (hlnum : lnum-c.mainFirst=i) (hi : i/4<4^c.lptHght)
    (h : MemGood c s) (hp : pnodeView c f s (i/4)=some (.ok p)) :
    Ensures c f (ubifsLptLookupDirty c f lnum) s fun l _ => l=p.lprops[i%4]? :=
  lookup_ensures visits_dirty (fun _ _ _ h hq => dirtyCowPnode_ensures h hq) hlnum hi h hp

end ArdroneKernel.UbifsLpt
