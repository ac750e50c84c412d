import ArdroneKernel.UbifsLptScan
import Mathlib.Data.List.Nodup
import Mathlib.Data.Nat.ModEq

/-!
# Three ways to the properties of a LEB

The numbers say where the nodes are, both look-ups return the properties of the
LEB asked for, and a scan that is never stopped meets them once each, from the
start round to the end.
-/

namespace ArdroneKernel.UbifsLpt

variable {c : LptInfo} {f : Flash} {s t : Lpt} {scanCb : List (LebProps×Bool) → Answer}
  {props : ℕ → LebProps}

/-! ## The numbers along the path -/

/-- The nnode at a place, with its number from the numbers on the path. -/
def numbered (hght : ℕ) : ℕ → ℕ → MemNnode
  | 0,_ => ⟨calcNnodeNumFromParent hght none 0,hght,0,[]⟩
  | row+1,col =>
    let parent := numbered hght row (col/4)
    ⟨calcNnodeNumFromParent hght (some parent) (col%4),parent.level-1,col%4,[]⟩

theorem numbered_spec {hght row col : ℕ} (hrow : row≤hght) (hcol : col<4^row) :
    (numbered hght row col).num=calcNnodeNum row col∧(numbered hght row col).level=hght-row := by
  induction row generalizing col with
  | zero =>
    cases Nat.lt_one_iff.mp hcol
    exact ⟨rfl,rfl⟩
  | succ row ih =>
    have hdiv : col/4<4^row := by
      omega
    have ⟨hnum,hlevel⟩ := ih (Nat.le_of_succ_le hrow) hdiv
    refine ⟨?_,?_⟩
    · have hchild := calcNnodeNumFromParent_eq (Nat.le_of_succ_le hrow) hnum hlevel
        (Nat.mod_lt col (by decide))
      rwa [Nat.div_add_mod] at hchild
    · unfold numbered
      dsimp only
      omega

/-! ## The properties of the LEBs -/

/-- The properties of every LEB of the main area can be read. -/
def Readable (c : LptInfo) (f : Flash) (s : Lpt) : Prop :=
  ∀ i<c.mainLebs,∃ p,pnodeView c f s (i/4)=some (.ok p)

/-- Some properties are those of the LEBs. -/
def Shows (c : LptInfo) (f : Flash) (s : Lpt) (props : ℕ → LebProps) : Prop :=
  ∀ i<c.mainLebs,∃ p,pnodeView c f s (i/4)=some (.ok p)∧
    p.lprops[i%4]?=some (props (c.mainFirst+i))

theorem Shows.same {props : ℕ → LebProps} (hprops : Shows c f s props) (h : Same c f s t) :
    Shows c f t props := fun i hi =>
  have ⟨p,hp,hl⟩ := hprops i hi
  ⟨p,(h.pnodes _).trans hp,hl⟩

/-- The pnodes of the main area fit into the lowest row. -/
theorem pnode_col_lt (hmax : c.lebCnt≤c.maxLebCnt) {i : ℕ}
    (hi : i<c.mainLebs) : i/4<4^c.lptHght := by
  refine Nat.lt_of_lt_of_le ?_ (maxPnodeCnt_le c.toInfo)
  unfold Info.maxPnodeCnt divRoundUp
  rw [show UBIFS_LPT_FANOUT=4 from rfl]
  omega

/-- The properties of a LEB have its number. -/
theorem exists_props (hmain : c.mainLebs≤c.lebCnt) (hmax : c.lebCnt≤c.maxLebCnt)
    (h : MemGood c s) (hread : Readable c f s) :
    ∃ props,Shows c f s props∧
      ∀ lnum,c.mainFirst≤lnum → lnum<c.lebCnt → (props lnum).lnum=lnum := by
  have hend : c.mainFirst+c.mainLebs=c.lebCnt := Nat.sub_add_cancel hmain
  have hleb : ∀ i,∃ l : LebProps,i<c.mainLebs → l.lnum=c.mainFirst+i∧
      ∃ p,pnodeView c f s (i/4)=some (.ok p)∧p.lprops[i%4]?=some l := by
    intro i
    by_cases hi : i<c.mainLebs
    · have ⟨p,hp⟩ := hread i hi
      have hgood := h.pview (pnode_col_lt hmax hi) hp
      have hlt : i%4<p.lprops.length := by
        rw [hgood.length]
        exact Nat.mod_lt i (by decide)
      have hl := hgood.lnums _ _ (List.getElem?_eq_getElem hlt)
      have hplace : 4*(i/4)+i%4=i := Nat.div_add_mod i 4
      rw [hplace,if_pos (by omega)] at hl
      exact ⟨_,fun _ => ⟨hl,p,hp,List.getElem?_eq_getElem hlt⟩⟩
    · exact ⟨⟨0,⟨0,0,{}⟩⟩,fun hi' => (hi hi').elim⟩
  choose props hchosen using hleb
  refine ⟨fun lnum => props (lnum-c.mainFirst),fun i hi => ?_,fun lnum hfirst hlast => ?_⟩
  · dsimp only
    rw [Nat.add_sub_cancel_left]
    exact (hchosen i hi).2
  · rw [(hchosen (lnum-c.mainFirst) (by omega)).1]
    omega

/-! ## The order of the scan -/

/-- The LEBs of the main area from one round to another. -/
def scanOrder (c : LptInfo) (start endLnum : ℕ) : List ℕ :=
  (List.range ((endLnum+c.mainLebs-start)%c.mainLebs+1)).map fun k =>
    c.mainFirst+(start-c.mainFirst+k)%c.mainLebs

/-- No LEB comes twice. -/
theorem scanOrder_nodup (hmain : 0<c.mainLebs) (start endLnum : ℕ) :
    (scanOrder c start endLnum).Nodup := by
  refine List.Nodup.map_on (fun j hj k hk he => ?_) List.nodup_range
  have hlt := Nat.mod_lt (endLnum+c.mainLebs-start) hmain
  rw [List.mem_range] at hj hk
  have hmod : Nat.ModEq c.mainLebs (start-c.mainFirst+j) (start-c.mainFirst+k) :=
    Nat.add_left_cancel he
  exact Nat.ModEq.eq_of_lt_of_lt (Nat.ModEq.add_left_cancel' _ hmod) (by omega) (by omega)

/-- One LEB on in the order of the scan. -/
theorem scanOrder_next {N i e : ℕ} (hi : i<N) (he : e<N) (hne : i≠e) :
    (e+N-i)%N=(e+N-(i+1)%N)%N+1∧∀ k,(i+(k+1))%N=((i+1)%N+k)%N := by
  refine ⟨?_,fun k => ?_⟩
  · rcases Nat.lt_or_ge (i+1) N with hlt|hge
    · rw [Nat.mod_eq_of_lt hlt]
      rcases Nat.lt_or_gt_of_ne hne with hie|hie
      · rw [show e+N-i=e-i+N by omega,show e+N-(i+1)=e-(i+1)+N by omega,Nat.add_mod_right,
          Nat.add_mod_right,Nat.mod_eq_of_lt (by omega),Nat.mod_eq_of_lt (by omega)]
        omega
      · rw [Nat.mod_eq_of_lt (by omega),Nat.mod_eq_of_lt (by omega)]
        omega
    · rw [show i+1=N by omega,Nat.mod_self,Nat.sub_zero,Nat.add_mod_right,Nat.mod_eq_of_lt he,
        Nat.mod_eq_of_lt (by omega)]
      omega
  · rw [Nat.mod_add_mod]
    congr 1
    omega

/-- One round of the loop, up to the end or on to the next properties. -/
theorem scanLoop_round (endLnum fuel : ℕ) (hmax : c.lebCnt≤c.maxLebCnt) {i : ℕ} {pos : Position}
    (calls : List (LebProps×Bool)) (hlnum : (props (c.mainFirst+i)).lnum=c.mainFirst+i)
    (hcb : ∀ calls,∃ add,scanCb calls=.ok add false) (hi : i<c.mainLebs) (h : MemGood c s)
    (hprops : Shows c f s props) (hat : At c f i pos s) :
    ∃ pos' t,MemGood c t∧Same c f s t∧At c f i pos' t∧
      scanLoop c f endLnum scanCb (fuel+1) calls pos s=
        let calls := calls++[⟨props (c.mainFirst+i),pos.pnode.inTree⟩]
        if c.mainFirst+i=endLnum then some ((-ENOSPC,calls),t)
        else (nextPosition c f (c.mainFirst+i) pos' t).bind fun (r,s) =>
          match r with
          | .error err => some ((err,calls),s)
          | .ok pos => scanLoop c f endLnum scanCb fuel calls pos s := by
  have ⟨p,hp,hl⟩ := hprops i hi
  have hnode : p=pos.pnode.entry.pnode :=
    Except.ok.inj (Option.some.inj (hp.symm.trans hat.view))
  have hentry : pos.pnode.entry.pnode.lprops[pos.iip]?=some (props (c.mainFirst+i)) := by
    rw [← hnode,hat.atIip]
    exact hl
  have ⟨add,hadd⟩ := hcb (calls++[⟨props (c.mainFirst+i),pos.pnode.inTree⟩])
  have hplus := addPath_spec h (pnode_col_lt hmax hi) hat
  conv in scanLoop _ _ _ _ _ _ _ _ => unfold scanLoop
  rw [hentry,Option.bind_some]
  dsimp only
  rw [hadd]
  cases add with
  | true =>
    refine ⟨(addPath pos s).1,(addPath pos s).2,hplus.1,hplus.2.1,hplus.2.2,?_⟩
    dsimp only
    rewrite [if_pos rfl,if_neg Bool.false_ne_true,hlnum]
    rfl
  | false =>
    refine ⟨pos,s,h,Same.refl c f s,hat,?_⟩
    dsimp only
    rewrite [if_neg Bool.false_ne_true,if_neg Bool.false_ne_true,hlnum]
    rfl

/-- The loop comes round to the end. -/
theorem scanLoop_spec {endLnum e : ℕ} (hmain : c.mainLebs≤c.lebCnt) (hmax : c.lebCnt≤c.maxLebCnt)
    (hend : endLnum=c.mainFirst+e) (he : e<c.mainLebs)
    (hlnum : ∀ i<c.mainLebs,(props (c.mainFirst+i)).lnum=c.mainFirst+i)
    (hcb : ∀ calls,∃ add,scanCb calls=.ok add false) (n : ℕ) {i fuel : ℕ} {pos : Position}
    (calls : List (LebProps×Bool)) (hn : (e+c.mainLebs-i)%c.mainLebs=n) (hfuel : n< fuel)
    (hi : i<c.mainLebs) (h : MemGood c s) (hprops : Shows c f s props) (hat : At c f i pos s) :
    ∃ out t,scanLoop c f endLnum scanCb fuel calls pos s=some ((-ENOSPC,calls++out),t)∧
      MemGood c t∧Same c f s t∧out.map Prod.fst=(List.range (n+1)).map fun k =>
        props (c.mainFirst+(i+k)%c.mainLebs) := by
  induction n generalizing i fuel pos calls s with
  | zero =>
    match fuel,hfuel with
    | fuel+1,_ =>
      have ⟨pos',t,hgood,hsame,_,hround⟩ :=
        scanLoop_round endLnum fuel hmax calls (hlnum i hi) hcb hi h hprops hat
      have hat_end : i=e := by
        by_contra hne
        rw [(scanOrder_next hi he hne).1] at hn
        exact Nat.succ_ne_zero _ hn
      rw [hround,hend,hat_end,if_pos rfl]
      refine ⟨_,t,rfl,hgood,hsame,?_⟩
      rw [List.range_one,List.map_singleton,List.map_singleton,Nat.add_zero,Nat.mod_eq_of_lt he]
  | succ n ih =>
    match fuel,hfuel with
    | fuel+1,hfuel =>
      have ⟨pos',t,hgood,hsame,hat',hround⟩ :=
        scanLoop_round endLnum fuel hmax calls (hlnum i hi) hcb hi h hprops hat
      have hne : i≠e := by
        intro he'
        rw [he',Nat.add_sub_cancel_left,Nat.mod_self] at hn
        cases hn
      have ⟨hcount,hnext⟩ := scanOrder_next hi he hne
      have hlebs : ∀ j<c.mainLebs,j/4<4^c.lptHght∧∃ p,pnodeView c f t (j/4)=some (.ok p) :=
        fun j hj =>
          have ⟨p,hp,_⟩ := hprops.same hsame j hj
          ⟨pnode_col_lt hmax hj,p,hp⟩
      have ⟨pos'',u,hrun,hgood',hsame',hat''⟩ :=
        nextPosition_ensures hgood hat' hmain hi hlebs
      have ⟨out,v,hloop,hgood'',hsame'',hout⟩ :=
        ih (calls++[⟨props (c.mainFirst+i),pos.pnode.inTree⟩])
          (Nat.succ.inj (hcount.symm.trans hn)) (Nat.lt_of_succ_lt_succ hfuel)
          (Nat.mod_lt _ (Nat.zero_lt_of_lt hi)) hgood' ((hprops.same hsame).same hsame') hat''
      refine ⟨⟨props (c.mainFirst+i),pos.pnode.inTree⟩::out,v,?_,hgood'',
        (hsame.trans hsame').trans hsame'',?_⟩
      · rw [hround]
        rw [if_neg (by rw [hend]; exact fun e => hne (Nat.add_left_cancel e)),hrun]
        dsimp only [Option.bind_some]
        rw [hloop,List.append_assoc]
        rfl
      · have hrange : List.range (n+1+1)=0::(List.range (n+1)).map Nat.succ :=
          List.range_succ_eq_map
        rw [List.map_cons,hout,hrange,List.map_cons,List.map_map,Nat.add_zero i,Nat.mod_eq_of_lt hi]
        refine congrArg _ (List.map_congr_left fun k _ => ?_)
        exact congrArg (fun x => props (c.mainFirst+x)) (hnext k).symm

/-! ## All of them -/

/-- Where a scan starts. -/
def scanStart (c : LptInfo) (start : Option ℕ) (endLnum : ℕ) : ℕ :=
  start.getD (if endLnum+1≥c.lebCnt then c.mainFirst else endLnum+1)

/-- A scan that is never stopped meets the properties in their order. -/
theorem ubifsLptScanNolock_spec (hmain : c.mainLebs≤c.lebCnt) (hmax : c.lebCnt≤c.maxLebCnt)
    (h : MemGood c s) (hprops : Shows c f s props)
    (hlnum : ∀ lnum,c.mainFirst≤lnum → lnum<c.lebCnt → (props lnum).lnum=lnum) {start : Option ℕ}
    {endLnum fuel : ℕ} (hstart : ∀ lnum,start=some lnum → c.mainFirst≤lnum∧lnum<c.lebCnt)
    (hend : c.mainFirst≤endLnum) (hend' : endLnum<c.lebCnt)
    (hcb : ∀ calls,∃ add,scanCb calls=.ok add false) (hfuel : c.mainLebs≤fuel) :
    ∃ calls t,ubifsLptScanNolock c f fuel start endLnum scanCb s=some ((-ENOSPC,calls),t)∧
      MemGood c t∧Same c f s t∧
        calls.map Prod.fst=(scanOrder c (scanStart c start endLnum) endLnum).map props := by
  have hall : c.mainFirst+c.mainLebs=c.lebCnt := Nat.sub_add_cancel hmain
  have hin : c.mainFirst≤ scanStart c start endLnum∧scanStart c start endLnum<c.lebCnt := by
    unfold scanStart
    cases start with
    | none =>
      rw [Option.getD_none]
      split <;> omega
    | some lnum => exact hstart lnum rfl
  have hi : scanStart c start endLnum-c.mainFirst<c.mainLebs := by omega
  have ⟨p,hp,_⟩ := hprops _ hi
  have ⟨pos,t,hrun,hgood,hsame,hat⟩ := scanFrom_ensures rfl (pnode_col_lt hmax hi) h hp
  have hcount : (endLnum-c.mainFirst+c.mainLebs-(scanStart c start endLnum-c.mainFirst))%c.mainLebs=
      (endLnum+c.mainLebs-scanStart c start endLnum)%c.mainLebs := by
    congr 1
    omega
  have hlt := Nat.mod_lt (endLnum+c.mainLebs-scanStart c start endLnum) (Nat.zero_lt_of_lt hi)
  have hplace : endLnum=c.mainFirst+(endLnum-c.mainFirst) := by omega
  have he : endLnum-c.mainFirst<c.mainLebs := by omega
  have ⟨out,u,hloop,hgood',hsame',hout⟩ :=
    scanLoop_spec (f := f) hmain hmax hplace he
      (fun i hi => hlnum _ (by omega) (by omega)) hcb _ [] hcount (Nat.lt_of_lt_of_le hlt hfuel) hi
      hgood (hprops.same hsame) hat
  refine ⟨out,u,?_,hgood',hsame.trans hsame',?_⟩
  · unfold ubifsLptScanNolock
    rw [show start.getD _=scanStart c start endLnum from rfl]
    dsimp only
    rw [hrun]
    exact hloop
  · rw [hout]
    unfold scanOrder
    rw [List.map_map]
    rfl

/-- The nodes have the numbers of their places, and both look-ups and the scan
have the same properties for every LEB. -/
theorem lpt_ways_agree (hmain : c.mainLebs≤c.lebCnt) (hmax : c.lebCnt≤c.maxLebCnt)
    (h : MemGood c s) (hread : Readable c f s) :
    (∀ row col,row≤c.lptHght → col<4^row → (numbered c.lptHght row col).num=calcNnodeNum row col∧
      ∀ row' col',col'<4^row' → calcNnodeNum row col=calcNnodeNum row' col' → row=row'∧col=col')∧
    (∀ i<4^c.lptHght,calcPnodeNumFromParent c.lptHght
      (numbered c.lptHght (c.lptHght-1) (i/4)).num (i%4)=i)∧
    ∃ props : ℕ → LebProps,
      (∀ lnum,c.mainFirst≤lnum → lnum<c.lebCnt → (props lnum).lnum=lnum∧
        (∃ t,ubifsLptLookup c f lnum s=some (.ok (some (props lnum)),t)∧MemGood c t∧Same c f s t)∧
        ∃ t,ubifsLptLookupDirty c f lnum s=some (.ok (some (props lnum)),t)∧MemGood c t∧
          Same c f s t)∧
      ∀ (start : Option ℕ) endLnum fuel (scanCb : List (LebProps×Bool) → Answer),
        (∀ lnum,start=some lnum → c.mainFirst≤lnum∧lnum<c.lebCnt) → c.mainFirst≤endLnum →
        endLnum<c.lebCnt → (∀ calls,∃ add,scanCb calls=.ok add false) → c.mainLebs≤fuel →
        (scanOrder c (scanStart c start endLnum) endLnum).Nodup∧
        ∃ calls t,ubifsLptScanNolock c f fuel start endLnum scanCb s=some ((-ENOSPC,calls),t)∧
          MemGood c t∧Same c f s t∧
          calls.map Prod.fst=(scanOrder c (scanStart c start endLnum) endLnum).map props := by
  have hpos := lptHght_pos c.toInfo
  have hall : c.mainFirst+c.mainLebs=c.lebCnt := Nat.sub_add_cancel hmain
  have ⟨props,hprops,hlnum⟩ := exists_props hmain hmax h hread
  refine ⟨fun row col hrow hcol => ⟨(numbered_spec hrow hcol).1,fun row' col' hcol' =>
    calcNnodeNum_inj hcol hcol'⟩,fun i hi => ?_,props,fun lnum hfirst hlast => ⟨hlnum lnum hfirst
      hlast,?_,?_⟩,fun start endLnum fuel scanCb hstart hend hend' hcb hfuel => ⟨?_,?_⟩⟩
  · have hdiv : i/4<4^(c.lptHght-1) := by
      have hpow : 4^c.lptHght=4^(c.lptHght-1)*4 := by rw [← pow_succ,Nat.sub_add_cancel hpos]
      omega
    rw [(numbered_spec (Nat.sub_le _ 1) hdiv).1,
      calcPnodeNumFromParent_eq hdiv (Nat.mod_lt i (by decide))]
    exact Nat.div_add_mod i 4
  · have hi : lnum-c.mainFirst<c.mainLebs := by omega
    have ⟨p,hp,hl⟩ := hprops _ hi
    rw [Nat.add_sub_cancel' hfirst] at hl
    have ⟨l,t,hrun,hgood,hsame,hl'⟩ := ubifsLptLookup_ensures rfl (pnode_col_lt hmax hi) h hp
    rw [hl'.trans hl] at hrun
    exact ⟨t,hrun,hgood,hsame⟩
  · have hi : lnum-c.mainFirst<c.mainLebs := by omega
    have ⟨p,hp,hl⟩ := hprops _ hi
    rw [Nat.add_sub_cancel' hfirst] at hl
    have ⟨l,t,hrun,hgood,hsame,hl'⟩ := ubifsLptLookupDirty_ensures rfl (pnode_col_lt hmax hi) h hp
    rw [hl'.trans hl] at hrun
    exact ⟨t,hrun,hgood,hsame⟩
  · exact scanOrder_nodup (by omega) _ _
  · exact ubifsLptScanNolock_spec hmain hmax h hprops hlnum hstart hend hend' hcb hfuel

/-- A tree of two rows of nnodes that has not been written. -/
def newInfo : LptInfo where
  lebSize := 15360
  minIdxNodeSz := 128
  deadWm := 512
  mainLebs := 22
  lebCnt := 31
  maxLebCnt := 34
  lptFirst := 7
  lptLebs := 2
  lsaveCnt := 2
  bigLpt := true
  minIoSize := 512

def newLpt : Lpt := ⟨0,0,7,fun _ _ => none,fun _ => none,0,0,0,false,fun _ => ⟨0,0,false,false⟩⟩

def newFlash : Flash := ⟨fun _ _ _ => .error (-EINVAL),fun _ => 0,fun _ => 0⟩

theorem newLpt_good : MemGood newInfo newLpt :=
  ⟨nofun,nofun,fun _ _ h => absurd rfl h,fun _ h => absurd rfl h⟩

theorem newLpt_readable : Readable newInfo newFlash newLpt := by
  intro i hi
  have hall : ∀ col<6,∃ r∈pnodeView newInfo newFlash newLpt col,r.isOk=true := by decide +kernel
  have hcol : i/4<6 := Nat.div_lt_of_lt_mul (Nat.lt_of_lt_of_le hi (by decide))
  have ⟨r,hr,hok⟩ := hall _ hcol
  cases r with
  | error err => cases hok
  | ok p => exact ⟨p,hr⟩

theorem lpt_ways_agree_example : ∃ props : ℕ → LebProps,(props 30).lnum=30∧
    (∃ t,ubifsLptLookup newInfo newFlash 30 newLpt=some (.ok (some (props 30)),t))∧
    ∃ calls t,ubifsLptScanNolock newInfo newFlash 22 (some 30) 10 (fun _ => .ok true false) newLpt=
      some ((-ENOSPC,calls),t)∧calls.map Prod.fst=[props 30,props 9,props 10] := by
  have ⟨_,_,props,hlook,hscan⟩ :=
    lpt_ways_agree (c := newInfo) (by decide) (by decide) newLpt_good newLpt_readable
  have ⟨hlnum,⟨t,hrun,_⟩,_⟩ := hlook 30 (by decide) (by decide)
  have ⟨_,calls,u,hrun',_,_,hcalls⟩ := hscan (some 30) 10 22 (fun _ => .ok true false)
    (fun lnum hl => by cases hl; decide) (by decide) (by decide) (fun _ => ⟨true,rfl⟩) (by decide)
  exact ⟨props,hlnum,⟨t,hrun⟩,calls,u,hrun',hcalls⟩

end ArdroneKernel.UbifsLpt
