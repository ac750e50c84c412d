import ArdroneKernel.UbifsRecoverBuffer
import ArdroneKernel.Crc32

/-!
# Runs of a recovery

The recovery of a LEB ends with nodes in order and empty space after them, and
this holds exactly when no length on the way of the scan overflows.
-/

namespace ArdroneKernel.UbifsScan

open CheckedBuffer LittleEndian

variable {c : Info} {env : Env} {buf : List UInt8} {start k : ℕ} {cur : Cursor} {x : Stand}
  (env : Env)

/-! ## Where a recovery stands -/

/-- A recovery stands at an offset. -/
structure Held (c : Info) (start k : ℕ) (x : Stand) : Prop where
  length : x.buf.length=c.lebSize
  stands : At c k x.cur
  aligned : 8∣k
  after : start≤k
  listed : Listed start k x.cur.nodes
  placed : Placed c x.cur.nodes

/-- The recovery stands at an offset with empty space after it. -/
structure Clear (c : Info) (start k : ℕ) (x : Stand) : Prop extends Held c start k x where
  blank : Blank x.buf k

theorem eight_dvd_minIo (c : Info) : 8∣c.minIoSize := pow_dvd_pow 2 c.minIo

/-- Cleaning leaves empty space. -/
theorem cleaned_spec (h : Held c start k x) :
    ∃ y l,cleaned c x=some (.ok y)∧Clear c start l y∧y.emptyChkd=true∧c.minIoSize∣l := by
  obtain ⟨buf',cur',l,hclean,hat,hnodes,hle,hdvd,hsame,hblank⟩ := cleanBuf_spec h.length h.stands
  have hafter := h.after
  refine ⟨⟨buf',cur',true,true⟩,l,?_,⟨⟨hsame.length.trans h.length,hat,?_,by omega,?_,?_⟩,hblank⟩,
    rfl,hdvd⟩
  · unfold cleaned
    rw [hclean]
    rfl
  · exact (eight_dvd_minIo c).trans hdvd
  · rw [hnodes]
    exact h.listed.mono (by omega)
  · rw [hnodes]
    exact h.placed

/-- Whether a bad node was in the last write can be told. -/
theorem lastChance_spec (hlen : buf.length=c.lebSize) (hat : At c k cur) {ret : ℤ}
    (hcorrupt : ret=A_CORRUPT_NODE → field buf k 4=NODE_MAGIC∧k+CH_SZ≤c.lebSize)
    (hno : ¬Overflows c buf k) : ∃ b,lastChance c buf cur ret=some b := by
  unfold lastChance
  rw [hat.pos,hat.len,hat.offs]
  by_cases hbad : ret=GARBAGE∨ret=A_BAD_PAD_NODE
  · rw [if_pos hbad]
    exact isLastWrite_spec hlen hat.le
  rw [if_neg hbad]
  by_cases hc : ret=A_CORRUPT_NODE
  · rw [if_pos hc]
    exact noMoreNodes_spec hlen (hcorrupt hc).2 (hcorrupt hc).1 hno
  · rw [if_neg hc]
    exact ⟨false,rfl⟩

/-- The outcome of a part of the recovery: it ends, and if it succeeds something holds. -/
def Ends {α : Type} (r : Option (Except ℤ α)) (P : α → Prop) : Prop :=
  ∃ e,r=some e∧∀ y,e=.ok y → P y

theorem Ends.error {α : Type} {P : α → Prop} {r : Option (Except ℤ α)} {err : ℤ}
    (h : r=some (.error err)) : Ends r P :=
  ⟨_,h,nofun⟩

theorem Ends.ok {α : Type} {P : α → Prop} {r : Option (Except ℤ α)} {y : α}
    (h : r=some (.ok y)) (hp : P y) : Ends r P := by
  refine ⟨_,h,fun z hz => ?_⟩
  cases hz
  exact hp

/-- What the main loop of the recovery comes to. -/
def Found (c : Info) (start : ℕ) (y : Stand) : Prop :=
  ∃ l,Held c start l y∧(y.emptyChkd=true → Blank y.buf l)

theorem Going.held (hlen : x.buf.length=c.lebSize) (h : Going c x.buf start k cur) :
    Held c start k {x with cur := cur} :=
  ⟨hlen,h.stands,h.aligned,h.after,h.listed,h.placed⟩

/-- Empty space that was found, or that is made. -/
theorem found_cleaned (h : Held c start k x) : Ends (cleaned c x) (Found c start) := by
  obtain ⟨y,l,hy,hclear,-,-⟩ := cleaned_spec h
  exact Ends.ok hy ⟨l,hclear.toHeld,fun _ => hclear.blank⟩

/-- The main loop ends. -/
theorem recoverLoop_spec (hlen : x.buf.length=c.lebSize) (hchkd : x.emptyChkd=false)
    (hno : Bounded c x.buf start) (fuel : ℕ) (quiet : Bool)
    (hfuel : 2*c.lebSize+quiet.toNat<2*k+fuel) (h : Going c x.buf start k cur) :
    Ends (recoverLoop c env x fuel quiet cur) (Found c start) := by
  induction fuel generalizing k cur quiet with
  | zero =>
    have hle := h.stands.le
    omega
  | succ fuel ih =>
    have hheld := h.held hlen
    have hhere : Found c start {x with cur := cur} :=
      ⟨k,hheld,fun htrue => absurd (hchkd.symm.trans htrue) (by decide)⟩
    rw [recoverLoop]
    by_cases hshort : cur.len<8
    · rw [if_pos hshort]
      exact Ends.ok rfl hhere
    rw [if_neg hshort]
    have hk : k+8≤c.lebSize := by
      rw [h.stands.len] at hshort
      omega
    obtain ⟨ret,hret,hpad,hnode,hcorrupt⟩ :=
      ubifsScanANode_spec hlen hk h.aligned (hno k h.reached)
    have hscan : ubifsScanANode c x.buf cur.pos cur.len cur.offs=some ret := by
      rw [h.stands.pos,h.stands.len,h.stands.offs]
      exact hret
    rw [hscan,Option.bind_some]
    by_cases hvalid : ret=A_NODE
    · subst hvalid
      obtain ⟨r,hr,-,htake⟩ := takeNode_spec env hlen h hret (hnode rfl)
      rw [hr,Option.bind_some]
      rcases r with err | cur'
      · exact Ends.error rfl
      · obtain ⟨l,hl,-,hgoing⟩ := htake cur' rfl
        exact ih quiet (by omega) hgoing
    rw [if_neg hvalid]
    by_cases hpos : 0<ret
    · rw [if_pos hpos]
      obtain ⟨l,hl,-,hgoing⟩ := h.pad hk hret hpos (hpad hpos).1 (hpad hpos).2
      exact ih quiet (by omega) hgoing
    rw [if_neg hpos]
    by_cases hempty : ret=EMPTY_SPACE
    · rw [if_pos hempty]
      have hin : 0<(c.lebSize : ℤ)-k → 0≤(k : ℤ)∧(k : ℤ)+((c.lebSize : ℤ)-k)≤x.buf.length := by
        intro _
        omega
      obtain ⟨b,hb,hff⟩ := isEmpty_spec hin
      rw [h.stands.pos,h.stands.len,hb,Option.bind_some]
      by_cases hall : b=true
      · rw [if_pos hall]
        refine Ends.ok rfl ⟨k,⟨hlen,h.stands,h.aligned,h.after,h.listed,h.placed⟩,
          fun _ j hj hlt => hff hall j ?_ ?_⟩
        · exact Int.ofNat_le.mpr hj
        · change j<x.buf.length at hlt
          omega
      rw [if_neg hall]
      obtain ⟨last,hlast⟩ := isLastWrite_spec hlen h.stands.le
      rw [h.stands.offs,hlast,Option.bind_some]
      by_cases hl : last=true
      · rw [if_pos hl]
        exact found_cleaned hheld
      · rw [if_neg hl]
        exact Ends.ok rfl hhere
    rw [if_neg hempty]
    obtain ⟨last,hlast⟩ := lastChance_spec hlen h.stands hcorrupt (hno k h.reached)
    rw [hlast,Option.bind_some]
    by_cases hl : last=true
    · rw [if_pos hl]
      exact found_cleaned hheld
    rw [if_neg hl]
    by_cases hq : quiet=true
    · subst hq
      refine ih false ?_ h
      change 2*c.lebSize+1<_ at hfuel
      change 2*c.lebSize+0<_
      omega
    rw [if_neg hq]
    by_cases hbad : ret=GARBAGE∨ret=A_CORRUPT_NODE∨ret=A_BAD_PAD_NODE
    · rw [if_pos hbad]
      obtain ⟨err,herr⟩ :=
        corrupted_spec (α := Stand) hlen h.stands.offs h.stands.pos h.stands.le false
      exact Ends.error herr
    · rw [if_neg hbad]
      exact Ends.error rfl

/-! ## After the loop -/

/-- Empty space after the nodes is checked or made. -/
theorem checkEmpty_spec (h : Held c start k x) (hchkd : x.emptyChkd=true → Blank x.buf k) :
    Ends (checkEmpty c x) fun y => ∃ l,Clear c start l y := by
  have hlen := h.length
  have hle := h.stands.le
  unfold checkEmpty
  by_cases hc : x.emptyChkd=true
  · rw [if_pos hc]
    exact Ends.ok rfl ⟨k,h,hchkd hc⟩
  rw [if_neg hc,h.stands.pos,h.stands.len,h.stands.offs]
  obtain ⟨m,hm,hcount,hrun,-⟩ := countRun_spec (v := 0xff)
    (show k+(c.lebSize-k)≤x.buf.length by omega)
  have hnat : ((c.lebSize : ℤ)-k).toNat=c.lebSize-k := by omega
  unfold isEmpty
  rw [hnat,hcount,Option.map_some,Option.bind_some]
  by_cases hall : m=c.lebSize-k
  · rw [if_pos (decide_eq_true hall)]
    refine Ends.ok rfl ⟨k,h,fun j hj hlt => ?_⟩
    have hbyte := hrun (j-k) (by omega)
    rwa [show k+(j-k)=j by omega] at hbyte
  rw [if_neg (by
    rw [decide_eq_true_eq]
    exact hall)]
  obtain ⟨last,hlast⟩ := isLastWrite_spec hlen hle
  rw [hlast,Option.bind_some]
  by_cases hl : last=true
  · rw [if_pos hl]
    obtain ⟨y,l,hy,hclear,-,-⟩ := cleaned_spec h
    exact Ends.ok hy ⟨l,hclear⟩
  rw [if_neg hl]
  unfold firstNonFf
  rw [hnat,hcount,Option.map_some,if_pos (by omega),Option.bind_some]
  have hint := c.lebInt
  have hoffs : int32 ((k : ℤ)+m)=((k+m : ℕ) : ℤ) := int32_add (by omega)
  have hpos : (k : ℤ)+m=((k+m : ℕ) : ℤ) := (Int.natCast_add k m).symm
  rw [hoffs,hpos]
  have hroom : k+m≤c.lebSize := by omega
  have hcorrupted : ∀ y : Cursor,y.offs=(k+m : ℕ) → y.pos=(k+m : ℕ) →
      ∃ err,corrupted (α := Stand) c x.buf false y=some (.error err) :=
    fun y hy hp => corrupted_spec hlen hy hp hroom false
  obtain ⟨err,herr⟩ := hcorrupted {x.cur with offs := (k+m : ℕ),pos := (k+m : ℕ)} rfl rfl
  exact Ends.error herr

/-- The nodes of an incomplete group are the last ones. -/
theorem dropIncompleteGroup_spec (hlen : buf.length=c.lebSize) {nodes : List Snod}
    (hplaced : Placed c nodes) :
    ∃ r,dropIncompleteGroup buf nodes=some r∧
      (r.2=none → r.1=nodes)∧
      ∀ o,r.2=some o → ∃ d s,nodes=d++s::r.1∧s.offs=o := by
  induction nodes with
  | nil => exact ⟨_,rfl,fun _ => rfl,nofun⟩
  | cons s nodes ih =>
    obtain ⟨j,hoffs,hnode,-,hroom⟩ := hplaced s List.mem_cons_self
    obtain ⟨⟨kept,dropped⟩,hr,hnone,hsome⟩ := ih fun t ht => hplaced t (List.mem_cons_of_mem s ht)
    rw [dropIncompleteGroup,hnode,(readHeader hlen hroom).2.2.2.2.2,Option.bind_some]
    by_cases hgroup : field buf (j+21) 1≠IN_NODE_GROUP
    · rw [if_pos hgroup]
      exact ⟨_,rfl,fun _ => rfl,nofun⟩
    rw [if_neg hgroup,hr]
    refine ⟨_,rfl,nofun,fun o ho => ?_⟩
    rcases dropped with _ | o'
    · cases ho
      refine ⟨[],s,?_,rfl⟩
      change s::nodes=s::kept
      rw [←hnone rfl]
    · cases ho
      obtain ⟨d,t,ht,hoffs'⟩ := hsome o' rfl
      refine ⟨s::d,t,?_,hoffs'⟩
      change s::nodes=s::(d++t::kept)
      rw [ht]

theorem dropGroup_spec (h : Clear c start k x) :
    Ends (dropGroup c x) fun y => ∃ l,Clear c start l y := by
  have hint := c.lebInt
  have hplaced : Placed c x.cur.nodes.reverse := fun s hs => h.placed s (List.mem_reverse.mp hs)
  obtain ⟨r,hr,-,hsome⟩ := dropIncompleteGroup_spec h.length hplaced
  unfold dropGroup
  rw [hr,Option.bind_some]
  rcases hopt : r.2 with _ | o
  · exact Ends.ok rfl ⟨k,h⟩
  obtain ⟨d,s,hnodes,hoffs⟩ := hsome o hopt
  have hall : x.cur.nodes=r.1.reverse++s::d.reverse := by
    have hrev := congrArg List.reverse hnodes
    rw [List.reverse_reverse] at hrev
    rw [hrev]
    simp
  have hs : s∈x.cur.nodes := by
    rw [hall]
    simp
  obtain ⟨j,hj,-,hal,hroom⟩ := h.placed s hs
  have hstart := (h.listed.inside s hs).1
  have hkeep : ∀ t∈r.1.reverse,t∈x.cur.nodes := by
    intro t ht
    rw [hall]
    exact List.mem_append_left _ ht
  have hpair := h.listed.apart
  rw [hall] at hpair
  have hparts := List.pairwise_append.mp hpair
  have hheld : Held c start j {x with cur := ⟨o,o,int32 (c.lebSize-o),r.1.reverse⟩} := by
    rw [←hoffs,hj]
    refine ⟨h.length,⟨rfl,rfl,int32_of_lt (by omega) (by omega),by omega⟩,hal,by omega,⟨?_,?_⟩,?_⟩
    · intro t ht
      have hin := h.listed.inside t (hkeep t ht)
      refine ⟨hin.1,hin.2.1,?_⟩
      rw [←hj]
      exact hparts.2.2 t ht s List.mem_cons_self
    · exact hparts.1
    · exact fun t ht => h.placed t (hkeep t ht)
  obtain ⟨y,l,hy,hclear,-,-⟩ := cleaned_spec hheld
  exact Ends.ok hy ⟨l,hclear⟩

/-- The nodes end with a whole I/O unit. -/
theorem alignEnd_spec (h : Clear c start k x) :
    Ends (alignEnd c x) fun y => ∃ l,Clear c start l y∧c.minIoSize∣l := by
  unfold alignEnd
  by_cases hrest : x.cur.offs%c.minIoSize≠0
  · rw [if_pos hrest]
    obtain ⟨y,l,hy,hclear,-,hdvd⟩ := cleaned_spec h.toHeld
    exact Ends.ok hy ⟨l,hclear,hdvd⟩
  · rw [if_neg hrest]
    refine Ends.ok rfl ⟨k,h,?_⟩
    have hzero := not_not.mp hrest
    rw [h.stands.offs] at hzero
    exact Int.natCast_dvd_natCast.mp (Int.dvd_of_emod_eq_zero hzero)

/-- What a recovery that succeeds has found and left. -/
structure Restored (c : Info) (env : Env) (start : ℕ) (rec : Recovered) : Prop where
  length : rec.buf.length=c.lebSize
  scanned : Scanned c rec.buf start rec.sleb
  flash : rec.flash=env.flash∨Blank rec.flash rec.sleb.endpt.toNat

/-- The end of the last node. -/
theorem lastEnd_spec (h : Held c start k x) :
    ∃ e : ℕ,lastEnd start x.cur.nodes=e∧start≤e∧e≤k := by
  have hint := c.lebInt
  have hle := h.stands.le
  unfold lastEnd
  rcases hlast : x.cur.nodes.getLast? with _ | snod
  · exact ⟨start,rfl,le_rfl,h.after⟩
  · have hin := h.listed.inside snod (List.mem_of_getLast? hlast)
    refine ⟨(snod.offs+snod.len).toNat,?_,by omega,by omega⟩
    dsimp only
    rw [int32_of_lt (by omega) (by omega)]
    omega

/-- Rounding up to 8 bytes. -/
theorem align_eight {e : ℕ} (he : e+8≤2^31) :
    ∃ l : ℕ,align (e : ℤ) 8=l∧e≤l∧∀ m,8∣m → e≤ m → l≤ m := by
  refine ⟨(e+7)/8*8,?_,by omega,fun m hm hle => by omega⟩
  unfold align
  rw [int32_of_lt (by omega) (by omega)]
  omega

theorem blank_append {xs : List UInt8} {n : ℕ} (hk : xs.length≤k) :
    Blank (xs++List.replicate n 0xff) k := by
  intro j hj hlt
  rw [List.length_append,List.length_replicate] at hlt
  rw [List.getElem?_append_right (hk.trans hj),List.getElem?_replicate,if_pos (by omega)]

/-- Writing the LEB back keeps the empty space. -/
theorem fixUncleanLeb_spec (h : Clear c start k x) (hdvd : c.minIoSize∣k) (ecc : Bool) :
    Ends (fixUncleanLeb c env x.buf ⟨x.cur.nodes,k,ecc⟩ start) fun rec =>
      rec.sleb=⟨x.cur.nodes,k,ecc⟩∧rec.buf.length=c.lebSize∧Blank rec.buf k∧
        (rec.flash=env.flash∨Blank rec.flash k) := by
  have hint := c.lebInt
  have hlen := h.length
  have hle := h.stands.le
  obtain ⟨e,he,hse,hek⟩ := lastEnd_spec h.toHeld
  unfold fixUncleanLeb
  dsimp only
  rw [he]
  by_cases hro : c.roMount=true
  · rw [if_pos hro]
    by_cases halloc : env.allocUnclean=true
    · rw [if_pos halloc]
      exact Ends.ok rfl ⟨rfl,hlen,h.blank,Or.inl rfl⟩
    · rw [if_neg halloc]
      exact Ends.error rfl
  rw [if_neg hro]
  by_cases hzero : (e : ℤ)=0
  · rw [if_pos hzero]
    by_cases hunmap : env.unmapErr≠0
    · rw [if_pos hunmap]
      exact Ends.error rfl
    · rw [if_neg hunmap]
      refine Ends.ok rfl ⟨rfl,hlen,h.blank,Or.inr fun j _ hlt => ?_⟩
      rw [List.length_replicate] at hlt
      rw [List.getElem?_replicate,if_pos hlt]
  rw [if_neg hzero]
  by_cases hhead : (start : ℤ)≠0∧env.headErr≠0
  · rw [if_pos hhead]
    exact Ends.error rfl
  rw [if_neg hhead]
  obtain ⟨l,hl,hel,hlle,hldvd,hlt,-⟩ := align_spec (hek.trans hle)
  obtain ⟨f,hf,hef,hmin⟩ := align_eight (show e+8≤2^31 by
    have height := eight_dvd c
    omega)
  have hfl : f≤l := hmin l ((eight_dvd_minIo c).trans hldvd) hel
  have hlk : l≤k := by
    obtain ⟨p,rfl⟩ := hldvd
    obtain ⟨q,rfl⟩ := hdvd
    have hpq : c.minIoSize*p<c.minIoSize*(q+1) := by
      rw [Nat.mul_succ]
      omega
    exact Nat.mul_le_mul_left _ (Nat.lt_succ_iff.mp (Nat.lt_of_mul_lt_mul_left hpq))
  have hpad : int32 ((l : ℤ)-f)=((l-f : ℕ) : ℤ) := by
    rw [int32_of_lt (by omega) (by omega)]
    omega
  have hpos : (l : ℤ)-((l-f : ℕ) : ℤ)=f := by omega
  have htake : (env.head.take start).length≤ start := List.length_take_le _ _
  have hin : 0+(env.head.take start).length≤x.buf.length := by omega
  have hwrite := writeBytes_eq hin
  have hsame1 := (patch_same hin).mono (le_refl 0) (show _≤k by omega)
  rw [hl,hf,hpad,hpos,Int.toNat_natCast]
  rw [Nat.cast_zero] at hwrite
  rw [hwrite,Option.bind_some]
  -- the padding is below the end of the nodes as well
  have hmid : ∃ buf',(if (e : ℤ)<l∧(0 : ℤ)<((l-f : ℕ) : ℤ) then
      ubifsPad c (patch x.buf 0 (env.head.take start)) f ((l-f : ℕ) : ℤ)
      else some (patch x.buf 0 (env.head.take start)))=some buf'∧Same 0 k x.buf buf' := by
    split_ifs
    · obtain ⟨buf',hbuf,hsame⟩ := ubifsPad_spec (c := c) (show l-f<2^31 by omega)
        (show f+(l-f)≤(patch x.buf 0 (env.head.take start)).length by
          rw [hsame1.length]
          omega)
      exact ⟨buf',hbuf,hsame1.trans (hsame.mono (Nat.zero_le _) (by omega))⟩
    · exact ⟨_,rfl,hsame1⟩
  obtain ⟨buf',hbuf,hsame⟩ := hmid
  have hlen' := hsame.length
  have hread := readBytes_eq (show 0+l≤buf'.length by omega)
  rw [Nat.cast_zero] at hread
  rw [hbuf,Option.bind_some,sizeT_of_lt (by omega) (by omega),Int.toNat_natCast,hread,
    Option.map_some]
  by_cases hchange : env.changeErr≠0
  · rw [if_pos hchange]
    exact Ends.error rfl
  · rw [if_neg hchange]
    refine Ends.ok rfl ⟨rfl,hlen'.trans hlen,h.blank.same hsame le_rfl,Or.inr (blank_append ?_)⟩
    exact (List.length_take_le _ _).trans hlk

theorem recoverEnd_spec (ecc grouped : Bool) (h : Found c start x) :
    Ends (recoverEnd c env start ecc grouped x) (Restored c env start) := by
  obtain ⟨k,hheld,hchkd⟩ := h
  unfold recoverEnd
  obtain ⟨r,hr,hclear⟩ := checkEmpty_spec hheld hchkd
  rw [hr,Option.bind_some]
  rcases r with err | y
  · exact Ends.error rfl
  obtain ⟨k1,h1⟩ := hclear y rfl
  dsimp only
  have hdrop : Ends (if grouped=true then dropGroup c y else some (.ok y))
      fun z => ∃ l,Clear c start l z := by
    split_ifs
    · exact dropGroup_spec h1
    · exact Ends.ok rfl ⟨k1,h1⟩
  obtain ⟨r2,hr2,hclear2⟩ := hdrop
  rw [hr2,Option.bind_some]
  rcases r2 with err | z
  · exact Ends.error rfl
  obtain ⟨k2,h2⟩ := hclear2 z rfl
  dsimp only
  obtain ⟨r3,hr3,hclear3⟩ := alignEnd_spec h2
  rw [hr3,Option.bind_some]
  rcases r3 with err | w
  · exact Ends.error rfl
  obtain ⟨l,hl,hdvd⟩ := hclear3 w rfl
  dsimp only
  obtain ⟨e,he,-,-,-,-,hself⟩ := align_spec hl.stands.le
  have hend : align w.cur.offs c.minIoSize=l := by
    rw [hl.stands.offs,he,hself hdvd]
  have hle := hl.stands.le
  rw [hend]
  split_ifs
  · obtain ⟨r4,hr4,hfix⟩ := fixUncleanLeb_spec env hl hdvd ecc
    refine ⟨r4,hr4,fun rec hrec => ?_⟩
    obtain ⟨hsleb,hlen,hblank,hflash⟩ := hfix rec hrec
    refine ⟨hlen,?_,?_⟩
    · rw [hsleb]
      exact ⟨Int.natCast_nonneg l,Int.ofNat_le.mpr hle,hl.listed,hblank⟩
    · rw [hsleb]
      exact hflash
  · exact Ends.ok rfl ⟨hl.length,⟨Int.natCast_nonneg l,Int.ofNat_le.mpr hle,hl.listed,hl.blank⟩,
      Or.inl rfl⟩

/-- The recovery ends, touches nothing outside of its buffer, and leaves what it should. -/
def SafeRecover (c : Info) (buf : List UInt8) (start : ℕ) : Prop :=
  ∀ env grouped,∃ fuel,Ends (ubifsRecoverLeb c env buf start grouped fuel) (Restored c env start)

/-- A recovery on whose way no length overflows is safe. -/
theorem ubifsRecoverLeb_safe (hlen : buf.length=c.lebSize) (hle : start≤c.lebSize) (hal : 8∣start)
    (hno : Bounded c buf start) : SafeRecover c buf start := by
  intro env grouped
  refine ⟨2*c.lebSize+2,?_⟩
  unfold ubifsRecoverLeb
  rcases ubifsStartScan env with err | ecc
  · exact Ends.error rfl
  dsimp only
  have hloop := recoverLoop_spec (x := ⟨buf,Cursor.start c start,ecc,false⟩) env hlen rfl hno
    (2*c.lebSize+2) true (by
      change 2*c.lebSize+1<_
      omega) (Going.init hle hal)
  obtain ⟨r,hr,hfound⟩ := hloop
  rw [hr,Option.bind_some]
  rcases r with err | y
  · exact Ends.error rfl
  · exact recoverEnd_spec env ecc grouped (hfound y rfl)

/-! ## What an overflow does -/

/-- The loop has run out of the buffer or has ended with an offset and a length below zero. -/
def Lost (c : Info) (r : Option (Except ℤ Stand)) : Prop :=
  r=none∨∃ y : Stand,r=some (.ok y)∧y.buf.length=c.lebSize∧y.needClean=false∧y.emptyChkd=false∧
    -2^31≤y.cur.offs∧y.cur.offs<0∧y.cur.len<0∧2^31≤y.cur.pos

/-- From an overflow the loop is lost. -/
theorem recoverLoop_overflow (hlen : x.buf.length=c.lebSize) (hneed : x.needClean=false)
    (hchkd : x.emptyChkd=false) (h : At c k cur) (hover : Overflows c x.buf k) (fuel : ℕ)
    (quiet : Bool) : Lost c (recoverLoop c env x fuel quiet cur) := by
  have hint := c.lebInt
  have hroom : k+CH_SZ≤c.lebSize := by
    rcases hover with hover | hover
    · exact hover.1.room
    · exact hover.1.room
  rcases fuel with _ | fuel
  · exact Or.inl rfl
  have hshort : ¬cur.len<8 := by
    unfold CH_SZ at hroom
    rw [h.len]
    omega
  rw [recoverLoop,if_neg hshort,h.pos,h.len,h.offs]
  rcases ubifsScanANode_overflow hlen hover with hnone | ⟨n,hn,hsmall,hbig⟩
  · rw [hnone]
    exact Or.inl rfl
  · have hnode : ¬((n : ℤ)=A_NODE) := by
      unfold A_NODE
      omega
    rw [hn,Option.bind_some,if_neg hnode,if_pos (by omega)]
    rcases fuel with _ | fuel
    · exact Or.inl rfl
    have hoffs : (cur.skip n).offs=(k : ℤ)+n-2^32 := by
      change int32 (cur.offs+n)=_
      rw [h.offs]
      unfold int32
      omega
    have hlen' : (cur.skip n).len=(c.lebSize : ℤ)-k-n := by
      change int32 (cur.len-n)=_
      rw [h.len]
      exact int32_of_lt (by omega) (by omega)
    have hpos : (cur.skip n).pos=(k : ℤ)+n := by
      change cur.pos+n=_
      rw [h.pos]
    rw [recoverLoop,if_pos (by omega)]
    refine Or.inr ⟨_,rfl,hlen,hneed,hchkd,?_,?_,?_,?_⟩
    · change _≤(cur.skip n).offs
      omega
    · change (cur.skip n).offs<0
      omega
    · change (cur.skip n).len<0
      omega
    · change _≤(cur.skip n).pos
      omega

/-- Before an overflow to which the scan comes the loop is lost as well. -/
theorem recoverLoop_lost {l : ℕ} (halloc : ∀ offs,env.alloc offs=true)
    (hlen : x.buf.length=c.lebSize) (hneed : x.needClean=false) (hchkd : x.emptyChkd=false)
    (hover : Overflows c x.buf l) (hreach : Reached c x.buf k l) (h : Going c x.buf start k cur)
    (fuel : ℕ) (quiet : Bool) : Lost c (recoverLoop c env x fuel quiet cur) := by
  induction hreach using Relation.ReflTransGen.head_induction_on generalizing cur fuel quiet with
  | refl => exact recoverLoop_overflow env hlen hneed hchkd h.stands hover fuel quiet
  | @head k k' hstep _ ih =>
    by_cases hnow : Overflows c x.buf k
    · exact recoverLoop_overflow env hlen hneed hchkd h.stands hnow fuel quiet
    rcases fuel with _ | fuel
    · exact Or.inl rfl
    obtain ⟨hk,ret,hret,hstep⟩ := hstep
    obtain ⟨ret',hret',hpad,hnode,-⟩ := ubifsScanANode_spec hlen hk h.aligned hnow
    have hsame : ret'=ret := Option.some.inj (hret'.symm.trans hret)
    subst hsame
    have hscan : ubifsScanANode c x.buf cur.pos cur.len cur.offs=some ret' := by
      rw [h.stands.pos,h.stands.len,h.stands.offs]
      exact hret
    have hshort : ¬cur.len<8 := by
      rw [h.stands.len]
      omega
    rw [recoverLoop,if_neg hshort,hscan,Option.bind_some]
    rcases hstep with ⟨hpos,hk'⟩ | ⟨hvalid,hk'⟩
    · have hnot : ¬ret'=A_NODE := by
        unfold A_NODE
        omega
      obtain ⟨m,-,hm,hgoing⟩ := h.pad hk hret hpos (hpad hpos).1 (hpad hpos).2
      have hmk : m=k' := by omega
      rw [if_neg hnot,if_pos hpos]
      exact ih (hmk ▸ hgoing) fuel quiet
    · subst hvalid
      obtain ⟨r,hr,hok,htake⟩ := takeNode_spec env hlen h hret (hnode rfl)
      obtain ⟨cur',rfl⟩ := hok (halloc k)
      obtain ⟨m,-,hm,hgoing⟩ := htake cur' rfl
      rw [if_pos rfl,hr,Option.bind_some]
      exact ih ((hm.trans hk'.symm) ▸ hgoing) fuel quiet

/-- Rounding up an offset below zero. -/
theorem align_neg (c : Info) {y : ℤ} (hl : -2^31≤y) (hr : y<0) :
    (y%c.minIoSize=0 → align y c.minIoSize=y)∧
      (y%c.minIoSize≠0 → y<align y c.minIoSize∧align y c.minIoSize<y+c.minIoSize)∧
      c.minIoSize≤2^30 := by
  have hle : c.minIoSize≤2^30 :=
    Nat.pow_le_pow_right (by decide) (c.ioLe.trans c.maxWrite)
  have hpos : 0<c.minIoSize := Nat.two_pow_pos _
  have hdiv := Int.mul_ediv_add_emod (y+c.minIoSize-1) c.minIoSize
  have hlow := Int.emod_nonneg (y+c.minIoSize-1) (show (c.minIoSize : ℤ)≠0 by omega)
  have hhigh := Int.emod_lt_of_pos (y+c.minIoSize-1) (show (0 : ℤ)<c.minIoSize by omega)
  have halign : align y c.minIoSize=y+c.minIoSize-1-(y+c.minIoSize-1)%c.minIoSize := by
    unfold align
    rw [int32_of_lt (by omega) (by omega),Int.mul_comm]
    omega
  refine ⟨fun hzero => ?_,fun hrest => ?_,hle⟩
  · have hmod : (y+c.minIoSize-1)%(c.minIoSize : ℤ)=c.minIoSize-1 := by
      obtain ⟨q,hq⟩ := Int.dvd_of_emod_eq_zero hzero
      rw [hq,Int.add_sub_assoc,Int.mul_add_emod_self_left]
      exact Int.emod_eq_of_lt (by omega) (by omega)
    omega
  · have hne : (y+c.minIoSize-1)%(c.minIoSize : ℤ)≠c.minIoSize-1 := by
      intro hmod
      refine hrest (Int.emod_eq_zero_of_dvd ?_)
      have hd : (c.minIoSize : ℤ)∣y+c.minIoSize-1-(c.minIoSize-1) :=
        Int.dvd_self_sub_of_emod_eq hmod
      rwa [show y+(c.minIoSize : ℤ)-1-(c.minIoSize-1)=y by omega] at hd
    omega

/-- Cleaning at a position outside of the buffer touches a byte there. -/
theorem cleanBuf_outside (hlen : buf.length=c.lebSize) (hl : -2^31≤cur.offs) (hr : cur.offs<0)
    (hpos : 2^31≤cur.pos) (hrest : cur.offs%c.minIoSize≠0) : cleanBuf c buf cur=none := by
  have hint := c.lebInt
  obtain ⟨-,halign,hle⟩ := align_neg c hl hr
  have hsize : int32 (align cur.offs c.minIoSize-cur.offs)=align cur.offs c.minIoSize-cur.offs :=
    int32_of_lt (by omega) (by omega)
  have hnone : ubifsPad c buf cur.pos (align cur.offs c.minIoSize-cur.offs)=none := by
    unfold ubifsPad
    split_ifs with hnode hbytes
    · have hne : padNode c (sizeT (align cur.offs c.minIoSize-cur.offs-PAD_NODE_SZ))≠[] := by
        intro hnil
        have hlen' := congrArg List.length hnil
        cases hlen'
      rw [writeBytes_none hne (Or.inr (by omega))]
      rfl
    · refine fill_none ?_ (Or.inr (by omega))
      rw [sizeT_of_lt (by omega) (by omega)]
      omega
    · omega
  unfold cleanBuf
  dsimp only
  rw [hsize,hnone]
  rfl

/-- Answers with which nothing fails. -/
def calmEnv : Env where
  readErr := 0
  allocSleb := true
  alloc _ := true
  allocUnclean := true
  unmapErr := 0
  headErr := 0
  head := []
  changeErr := 0
  flash := []

/-- After a loop that is lost nothing good comes. -/
theorem recoverEnd_lost {y : Stand} (hlen : y.buf.length=c.lebSize) (hneed : y.needClean=false)
    (hchkd : y.emptyChkd=false) (hl : -2^31≤y.cur.offs) (hr : y.cur.offs<0) (hshort : y.cur.len<0)
    (hpos : 2^31≤y.cur.pos) (ecc : Bool) :
    ¬Ends (recoverEnd c calmEnv start ecc false y) (Restored c calmEnv start) := by
  have hcheck : checkEmpty c y=some (.ok y) := by
    have hzero : y.cur.len.toNat=0 := by omega
    unfold checkEmpty isEmpty
    rw [hchkd,hzero]
    rfl
  obtain ⟨hwhole,-,-⟩ := align_neg c hl hr
  rintro ⟨e,he,hend⟩
  unfold recoverEnd at he
  rw [hcheck,Option.bind_some] at he
  dsimp only at he
  rw [if_neg Bool.false_ne_true,Option.bind_some] at he
  dsimp only at he
  by_cases hrest : y.cur.offs%c.minIoSize≠0
  · have hnone : alignEnd c y=none := by
      unfold alignEnd cleaned
      rw [if_pos hrest,cleanBuf_outside hlen hl hr hpos hrest]
      rfl
    rw [hnone] at he
    cases he
  · have hsome : alignEnd c y=some (.ok y) := if_neg hrest
    rw [hsome,Option.bind_some] at he
    dsimp only at he
    rw [hneed,if_neg Bool.false_ne_true] at he
    have hlow := (hend _ (Option.some.inj he).symm).scanned.low
    change 0≤align y.cur.offs c.minIoSize at hlow
    omega

/-- A recovery that comes to an overflow is not safe. -/
theorem ubifsRecoverLeb_lost {l : ℕ} (hlen : buf.length=c.lebSize) (hle : start≤c.lebSize)
    (hal : 8∣start) (hreach : Reached c buf start l) (hover : Overflows c buf l) :
    ¬SafeRecover c buf start := by
  intro hsafe
  obtain ⟨fuel,e,he,hend⟩ := hsafe calmEnv false
  have hloop := recoverLoop_lost (x := ⟨buf,Cursor.start c start,false,false⟩) calmEnv
    (fun _ => rfl) hlen rfl rfl hover hreach (Going.init hle hal) fuel true
  have hstart : ubifsStartScan calmEnv=.ok false := by decide
  unfold ubifsRecoverLeb at he
  rw [hstart] at he
  dsimp only at he
  rcases hloop with hnone | ⟨y,hy,hlen',hneed,hchkd,hl,hr,hshort,hpos⟩
  · rw [hnone] at he
    cases he
  · rw [hy,Option.bind_some] at he
    exact recoverEnd_lost hlen' hneed hchkd hl hr hshort hpos false ⟨e,he,hend⟩

/-- Scanning and recovering a LEB are safe exactly if no length on the way overflows. -/
theorem safe_iff_bounded (c : Info) (buf : List UInt8) (start : ℕ) (hlen : buf.length=c.lebSize)
    (hle : start≤c.lebSize) (hal : 8∣start) :
    SafeScan c buf start∧SafeRecover c buf start ↔ Bounded c buf start := by
  constructor
  · exact fun h k hreach hover => ubifsRecoverLeb_lost hlen hle hal hreach hover h.2
  · exact fun h => ⟨ubifsScan_safe hlen hle hal h,ubifsRecoverLeb_safe hlen hle hal h⟩

/-! ## A padding node -/

/-- Eraseblocks of 16KiB with pages of 512 bytes. -/
def padInfo : Info where
  lebSize := 16384
  minIoShift := 9
  maxWriteShift := 9
  fanout := 8
  keyLen := 8
  crc32 := Crc32.crc32Le 0xffffffff
  mounting := false
  noChkDataCrc := false
  roMount := false
  lebInt := by decide
  minIo := by decide
  unit := ⟨32,rfl⟩
  ioLe := le_rfl
  maxWrite := by decide
  idxFits := by decide

/-- A padding node with the 4 bytes after it, and one for about 2GiB. -/
def padLeb : List UInt8 :=
  padNode padInfo 4++[0,0,0,0]++padNode padInfo (2^31-60)++List.replicate 16324 0xff

theorem padLeb_length : padLeb.length=padInfo.lebSize := by
  unfold padLeb
  rw [List.length_append,List.length_append,List.length_append,length_padNode,length_padNode,
    List.length_replicate]
  rfl

theorem safe_iff_bounded_example :
    SafeScan padInfo padLeb 0∧SafeRecover padInfo padLeb 0 ↔ Bounded padInfo padLeb 0 :=
  safe_iff_bounded padInfo padLeb 0 padLeb_length (Nat.zero_le _) (dvd_zero 8)

/-- The scan skips the first padding node. -/
theorem padLeb_reached : Reached padInfo padLeb 0 32 := by
  refine Relation.ReflTransGen.single ⟨by decide,32,?_,Or.inl ⟨by decide,by decide⟩⟩
  decide +kernel

theorem padLeb_valid : Valid padInfo padLeb 32 where
  room := by decide
  magic := by decide +kernel
  type := by decide +kernel
  len := by decide +kernel
  fits := by decide +kernel
  crc := by decide +kernel

theorem padLeb_overflows : Overflows padInfo padLeb 32 :=
  Or.inr ⟨padLeb_valid,by decide +kernel,by decide +kernel,by decide +kernel,by decide +kernel⟩

/-- A padding length just below 2GiB is accepted, and the nodes end at a negative offset. -/
theorem padding_ends_negative :
    (ubifsRecoverLeb padInfo calmEnv padLeb 0 false 3).map (fun r => match r with
      | .ok rec => some rec.sleb.endpt
      | .error _ => none)=some (some (-2^31))∧
    ¬(SafeScan padInfo padLeb 0∧SafeRecover padInfo padLeb 0) := by
  refine ⟨by decide +kernel,fun h => ?_⟩
  exact ubifsRecoverLeb_lost padLeb_length (Nat.zero_le _) (dvd_zero 8) padLeb_reached
    padLeb_overflows h.2

end ArdroneKernel.UbifsScan
