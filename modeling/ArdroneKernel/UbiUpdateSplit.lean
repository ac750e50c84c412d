import ArdroneKernel.UbiUpdateLebs

/-!
# Updates in any number of calls

What a volume holds after an update depends on the bytes of the update only. An
invariant says what was written and what is in the buffer after so many bytes.
-/

namespace ArdroneKernel.UbiUpdate

open UbiEba UbiFlash UbiEbaWrite ByteBuffers

variable {t : Target} {env : Env} {u : Upd} {data : List UInt8} {free : Finset ℕ}

/-! ## After some bytes -/

/-- The bytes of an update that belong to a LEB. -/
def lebBytes (t : Target) (data : List UInt8) (i : ℕ) : List UInt8 :=
  (data.drop (i*t.usable)).take t.usable

/-- The LEBs of an update. -/
def lebCount (t : Target) (n : ℕ) : ℕ := (n+t.usable-1)/t.usable

/-- The LEBs that are written after some of the bytes. -/
def lebsWritten (t : Target) (n k : ℕ) : ℕ := if k=n then lebCount t n else k/t.usable

/-- All that an update needs succeeds: each LEB is written to an eraseblock of its own. -/
structure Succeeds (t : Target) (env : Env) (free : Finset ℕ) (ebs : ℕ) : Prop where
  fault : ∀ n,env.fault n=false
  flush : env.flush=0
  change : env.change=0
  write : ∀ i<ebs,FirstOk (env.write i)
  peb : ∀ i<ebs,firstPeb (env.write i)∈free
  distinct : ∀ i j,i<j → j<ebs → firstPeb (env.write i)≠firstPeb (env.write j)

/-- What holds after some of the bytes of an update. -/
structure Mid (t : Target) (env : Env) (data : List UInt8) (k : ℕ) (u : Upd) : Prop where
  received : u.received=k
  bytes : u.bytes=data.length
  ebs : u.ebs=lebCount t data.length
  le : k≤ data.length
  buf : u.buf.length=t.lebSize
  /-- The buffer holds the start of a LEB. -/
  held : k<data.length → u.buf.take (k%t.usable)=(data.drop (k/t.usable*t.usable)).take (k%t.usable)
  roMode : u.eba.roMode=false
  freeErased : FreeErased u.eba
  outside : Outside u.eba t.vol.volId
  stored : ∀ i<lebsWritten t data.length k,LebReads t u.ebs u.eba i (lebBytes t data i)
  empty : ∀ i : ℕ,lebsWritten t data.length k≤ i → i<t.reservedPebs →
    u.eba.ebaTbl t.vol.volId i=none
  pebs : ∀ i,lebsWritten t data.length k≤ i → i<u.ebs → firstPeb (env.write i)∈u.eba.free
  trace : u.trace=(List.range (lebsWritten t data.length k)).map fun i =>
    .writeLeb i (lebBytes t data i)
  marked : u.updMarker=true∧u.vtblMarker=true∧u.updating=true

theorem split_div {q r n : ℕ} (hr : r<n) : (q*n+r)/n=q∧(q*n+r)%n=r := by
  have hn : 0<n := by omega
  constructor
  · rw [Nat.mul_comm,Nat.mul_add_div hn,Nat.div_eq_of_lt hr,Nat.add_zero]
  · rw [Nat.mul_comm,Nat.mul_add_mod,Nat.mod_eq_of_lt hr]

/-- The number of LEBs, when the last one has some bytes. -/
theorem lebCount_eq {q r : ℕ} (hpos : 0<r) (hr : r≤ t.usable) :
    lebCount t (q*t.usable+r)=q+1 := by
  have hq : q*t.usable+r+t.usable-1=(q+1)*t.usable+(r-1) := by
    rw [Nat.add_mul]
    omega
  unfold lebCount
  rw [hq]
  exact (split_div (by omega)).1

/-- There are LEBs left to write while there are bytes left. -/
theorem lnum_lt {k n : ℕ} (h : k<n) : k/t.usable<lebCount t n := by
  unfold lebCount
  rw [Nat.lt_iff_add_one_le,Nat.le_div_iff_mul_le (usable_pos t),Nat.add_mul]
  have := Nat.div_mul_le_self k t.usable
  omega

theorem lebCount_le {n m : ℕ} (h : n≤ m*t.usable) : lebCount t n≤ m := by
  have hpos := usable_pos t
  exact Nat.lt_succ_iff.mp ((Nat.div_lt_iff_lt_mul hpos).mpr (by rw [Nat.succ_mul]; omega))

/-- Another LEB was written. -/
theorem LebReads.keep {eba eba' : State} {ebs lnum p i : ℕ} {bytes new : List UInt8}
    (h : LebReads t ebs eba i bytes) (hw : Wrote t ebs eba eba' lnum p new)
    (ho : Outside eba t.vol.volId) (hne : i≠lnum) : LebReads t ebs eba' i bytes := by
  have htbl := hw.others i (by exact_mod_cast hne)
  have hflash : ∀ q,eba.ebaTbl t.vol.volId i=some q → eba'.flash q=eba.flash q := fun q hq =>
    hw.flash q (ho _ q hq)
  have hread : ∀ offs len,
      ebaReadLeb eba' t.vol.volId i offs len=ebaReadLeb eba t.vol.volId i offs len := by
    intro offs len
    unfold ebaReadLeb
    rw [htbl]
    cases hq : eba.ebaTbl t.vol.volId i with
    | none => rfl
    | some q =>
      dsimp only
      rw [hflash q hq]
  unfold LebReads at h ⊢
  simp only [hread]
  rw [htbl]
  by_cases hs : t.static=true
  · rw [if_pos hs] at h ⊢
    have ⟨q,hd,hq,hvid,hrest⟩ := h
    exact ⟨q,hd,hq,(congrArg Peb.vid (hflash q hq)).trans hvid,hrest⟩
  · rw [if_neg hs] at h ⊢
    exact h

/-- A piece of the bytes, up to the end of a LEB. -/
theorem takePiece_spec {k m : ℕ} (h : Mid t env data k u)
    (ok : Succeeds t env free (lebCount t data.length))
    (hfit : data.length≤ t.reservedPebs*t.usable) (hlt : k<data.length)
    (hroom : k%t.usable+m≤ t.usable) (hm : k+m≤ data.length) :
    ∃ u',takePiece t env u (k/t.usable) (k%t.usable) ((data.drop k).take m)=(0,u')∧
      Mid t env data (k+m) u' := by
  have hpos := usable_pos t
  have hle := usable_le t
  generalize hq : k/t.usable=q
  generalize hr : k%t.usable=r at hroom
  have hk : k=q*t.usable+r := by
    rw [←hq,←hr,Nat.mul_comm]
    exact (Nat.div_add_mod k t.usable).symm
  have hpiece : ((data.drop k).take m).length=m := by
    rw [List.length_take,List.length_drop]
    omega
  have hheld := h.held hlt
  rw [hq,hr] at hheld
  have hwritten : lebsWritten t data.length k=q := by
    unfold lebsWritten
    rw [if_neg (by omega),hq]
  have hbuf : (putAt u.buf r ((data.drop k).take m)).length=t.lebSize := by
    rw [putAt_length,h.buf]
    rw [hpiece,h.buf]
    omega
  have hnew : (putAt u.buf r ((data.drop k).take m)).take (r+m)=
      (data.drop (q*t.usable)).take (r+m) := by
    have hput := putAt_take ((data.drop k).take m) (show r≤ u.buf.length by rw [h.buf]; omega)
    rw [hpiece] at hput
    rw [hput,hheld,List.take_add,List.drop_drop,←hk]
  unfold takePiece
  rw [hpiece]
  have hcond : r+m=t.usable∨u.received+m=u.bytes ↔ r+m=t.usable∨k+m=data.length := by
    rw [h.received,h.bytes]
  have hnum' : u.received+m=k+m := by rw [h.received]
  by_cases hflush : r+m=t.usable∨k+m=data.length
  · rw [if_pos (hcond.mpr hflush)]
    have hnum : q<lebCount t data.length := hq▸lnum_lt hlt
    have hres : q<t.reservedPebs := hnum.trans_le (lebCount_le hfit)
    have hnext : lebsWritten t data.length (k+m)=q+1 := by
      unfold lebsWritten
      by_cases hend : k+m=data.length
      · rw [if_pos hend,←hend,hk,Nat.add_assoc,lebCount_eq (by omega) hroom]
      · rw [if_neg hend,hk,Nat.add_assoc,hflush.resolve_right hend,←Nat.succ_mul,
          Nat.mul_div_cancel _ hpos]
    have hleb : (data.drop (q*t.usable)).take (r+m)=lebBytes t data q := by
      unfold lebBytes
      rcases hflush with hfull|hend
      · rw [hfull]
      · have hlen : (data.drop (q*t.usable)).length=r+m := by
          rw [List.length_drop]
          omega
        rw [List.take_of_length_le hlen.le,List.take_of_length_le (by omega)]
    have ⟨buf',eba',hrun,hlen,hw⟩ := writeLeb_spec t env
      { u with buf := putAt u.buf r ((data.drop k).take m) } hroom (by dsimp only; omega) h.roMode h.freeErased h.outside
      (h.empty q hwritten.le hres) (ok.write q hnum)
      (h.pebs q hwritten.le (h.ebs▸hnum))
    rw [hrun]
    dsimp only
    refine ⟨_,rfl,?_⟩
    rw [hnew,hleb] at hw
    have hbefore : ∀ i,q+1≤ i → q≤ i∧i≠q := fun i hi => ⟨by omega,by omega⟩
    refine ⟨hnum',h.bytes,h.ebs,hm,hlen.trans hbuf,fun hopen => ?_,hw.roMode.trans h.roMode,
      hw.freeErased,hw.outside,fun i hi => ?_,fun i hi hlt => ?_,fun i hi hlt => ?_,?_,h.marked⟩
    · have hzero : (k+m)%t.usable=0 := by
        rw [hk,Nat.add_assoc,hflush.resolve_right (by omega),←Nat.succ_mul,Nat.mul_mod_left]
      rw [hzero,List.take_zero,List.take_zero]
    · by_cases hiq : i=q
      · rw [hiq]
        exact hw.reads
      · exact (h.stored i (by omega)).keep hw h.outside hiq
    · rw [hnext] at hi
      have hiq := hbefore i hi
      rw [hw.others i (by exact_mod_cast hiq.2)]
      exact h.empty i (by omega) hlt
    · refine hw.free _ (h.pebs i (by omega) hlt) fun heq => ?_
      exact ok.distinct q i (by omega) (h.ebs▸hlt) heq.symm
    · rw [hnext,List.range_succ,List.map_append,←hwritten,←h.trace,hwritten,hnew,hleb]
      rfl
  · rw [if_neg (hcond.not.mpr hflush)]
    have hlt' : r+m<t.usable := by omega
    have ⟨hdiv,hmod⟩ := split_div (q := q) hlt'
    rw [←Nat.add_assoc,←hk] at hdiv hmod
    have hsame : lebsWritten t data.length (k+m)=lebsWritten t data.length k := by
      rw [hwritten]
      unfold lebsWritten
      rw [if_neg (by omega),hdiv]
    refine ⟨_,rfl,⟨hnum',h.bytes,h.ebs,hm,hbuf,fun _ => ?_,h.roMode,h.freeErased,h.outside,?_,?_,?_,
      ?_,h.marked⟩⟩
    · rw [hdiv,hmod]
      exact hnew
    · rw [hsame]
      exact h.stored
    · rw [hsame]
      exact h.empty
    · rw [hsame]
      exact h.pebs
    · rw [hsame]
      exact h.trace

/-! ## Calls -/

/-- The loop takes all bytes of a call, from the start of a LEB on. -/
theorem moreLoop_spec (ok : Succeeds t env free (lebCount t data.length))
    (hfit : data.length≤ t.reservedPebs*t.usable) (n : ℕ) : ∀ (k c lnum : ℕ) (u : Upd),
    Mid t env data k u → k+c≤ data.length → c≤ n → (0<c → k%t.usable=0∧lnum=k/t.usable) →
    ∃ u',moreLoop t env n lnum ((data.drop k).take c) u=.left 0 u'∧Mid t env data (k+c) u' := by
  induction n with
  | zero =>
    intro k c lnum u h _ hn _
    have hc : c=0 := Nat.le_zero.mp hn
    exact ⟨u,rfl,hc▸h⟩
  | succ n ih =>
    intro k c lnum u h hc hn hstart
    have hlen : ((data.drop k).take c).length=c := by
      rw [List.length_take,List.length_drop]
      omega
    unfold moreLoop
    rw [hlen]
    by_cases hzero : c=0
    · rw [if_pos hzero]
      exact ⟨u,rfl,by rw [hzero]; exact h⟩
    rw [if_neg hzero]
    have ⟨hmod,hnum⟩ := hstart (Nat.pos_of_ne_zero hzero)
    have hpos := usable_pos t
    have hpiece : (if c>t.usable then ((data.drop k).take c).take t.usable
        else (data.drop k).take c)=(data.drop k).take (min c t.usable) := by
      split
      · rw [List.take_take,min_comm]
      · rw [min_eq_left (by omega)]
    have hplen : ((data.drop k).take (min c t.usable)).length=min c t.usable := by
      rw [List.length_take,List.length_drop]
      omega
    have ⟨u',hrun,hmid⟩ := takePiece_spec (m := min c t.usable) h ok hfit (by omega) (by omega)
      (by omega)
    rw [hmod,←hnum] at hrun
    rw [ok.fault,if_neg Bool.false_ne_true,hpiece,hrun,hplen]
    dsimp only
    rw [if_neg (not_not.mpr rfl),List.drop_take,List.drop_drop]
    have ⟨u'',hrest,hend⟩ := ih (k+min c t.usable) (c-min c t.usable) (lnum+1) u' hmid (by omega)
      (by omega) fun hleft => by
        have hfull : min c t.usable=t.usable := by omega
        rw [hfull,hnum]
        exact ⟨by rw [Nat.add_mod_right,hmod],(Nat.add_div_right k hpos).symm⟩
    refine ⟨u'',hrest,?_⟩
    rw [show k+c=k+min c t.usable+(c-min c t.usable) by omega]
    exact hend

theorem moreRest_spec (toWrite lnum : ℕ) {k c : ℕ} (h : Mid t env data k u)
    (ok : Succeeds t env free (lebCount t data.length))
    (hfit : data.length≤ t.reservedPebs*t.usable) (hc : k+c≤ data.length)
    (hstart : 0<c → k%t.usable=0∧lnum=k/t.usable) :
    ∃ u',moreRest t env toWrite lnum ((data.drop k).take c) u=moreFinish t env toWrite 0 u'∧
      Mid t env data (k+c) u' := by
  have hlen : ((data.drop k).take c).length=c := by
    rw [List.length_take,List.length_drop]
    omega
  have ⟨u',hrun,hmid⟩ := moreLoop_spec ok hfit c k c lnum u h hc le_rfl hstart
  refine ⟨u',?_,hmid⟩
  unfold moreRest
  rw [hlen,hrun]

/-- A call takes the bytes that are left of the update, however many it is given. -/
theorem moreUpdateData_spec (call : List UInt8) {k c : ℕ} (h : Mid t env data k u)
    (ok : Succeeds t env free (lebCount t data.length))
    (hfit : data.length≤ t.reservedPebs*t.usable) (hlt : k<data.length)
    (hc : c=min call.length (data.length-k)) (hcall : call.take c=(data.drop k).take c) :
    ∃ u',moreUpdateData t env u call=moreFinish t env c 0 u'∧Mid t env data (k+c) u' := by
  have hpos := usable_pos t
  have hdata : (if u.received+call.length>u.bytes then call.take (u.bytes-u.received) else call)=
      (data.drop k).take c := by
    rw [h.received,h.bytes,←hcall]
    by_cases hmore : k+call.length>data.length
    · rw [if_pos hmore,hc,min_eq_right (by omega)]
    · rw [if_neg hmore,hc,min_eq_left (by omega),List.take_length]
  have hlen : ((data.drop k).take c).length=c := by
    rw [List.length_take,List.length_drop]
    omega
  unfold moreUpdateData
  rw [h.roMode,if_neg Bool.false_ne_true]
  dsimp only
  rw [hdata,h.received,hlen]
  by_cases hoffs : k%t.usable=0
  · rw [if_neg (not_not.mpr hoffs)]
    exact moreRest_spec c _ h ok hfit (by omega) fun _ => ⟨hoffs,rfl⟩
  rw [if_pos hoffs,ok.fault,if_neg Bool.false_ne_true]
  have hmin : (if t.usable-k%t.usable>c then c else t.usable-k%t.usable)=
      min c (t.usable-k%t.usable) := by
    split
    · rw [min_eq_left (by omega)]
    · rw [min_eq_right (by omega)]
  have hmod := Nat.mod_lt k hpos
  rw [hmin,List.take_take,min_eq_left (min_le_left c _)]
  have ⟨u',hrun,hmid⟩ := takePiece_spec (m := min c (t.usable-k%t.usable)) h ok hfit hlt
    (by omega) (by omega)
  rw [hrun]
  rw [if_neg (not_not.mpr rfl),List.drop_take,List.drop_drop]
  generalize hm : min c (t.usable-k%t.usable)=m at hmid
  have ⟨u'',hrest,hend⟩ := moreRest_spec (c := c-m) c (k/t.usable+1) hmid ok hfit
    (by omega) fun hleft => by
      have hnext : k+m=(k/t.usable+1)*t.usable := by
        have := Nat.div_add_mod k t.usable
        rw [Nat.add_mul,Nat.mul_comm]
        omega
      rw [hnext]
      exact ⟨Nat.mul_mod_left _ _,(Nat.mul_div_cancel _ hpos).symm⟩
  refine ⟨u'',hrest,?_⟩
  rw [show k+c=k+m+(c-m) by omega]
  exact hend

/-- What an update leaves. -/
structure Finished (t : Target) (data : List UInt8) (u : Upd) : Prop where
  /-- Each LEB was written once, in order, and the marker was cleared after that. -/
  trace : u.trace=((List.range (lebCount t data.length)).map fun i =>
    .writeLeb i (lebBytes t data i))++[.flush,.clear]
  unmarked : u.updMarker=false∧u.vtblMarker=false∧u.updating=false
  /-- The LEBs read as the bytes, all LEBs of a dynamic volume. -/
  reads : ∀ i<t.reservedPebs,(t.static=true → i<lebCount t data.length) →
    LebReads t (lebCount t data.length) u.eba i (lebBytes t data i)
  sizes : t.static=true → u.corrupted=false∧u.usedBytes=data.length∧
    u.usedEbs=lebCount t data.length∧
    u.lastEbBytes=(lebBytes t data (lebCount t data.length-1)).length

/-- The LEBs that were not written are empty. -/
theorem reads_empty {eba : State} {i ebs : ℕ} (hs : ¬t.static=true)
    (hnone : eba.ebaTbl t.vol.volId i=none) (hi : lebCount t data.length≤ i) :
    LebReads t ebs eba i (lebBytes t data i) := by
  have hpos := usable_pos t
  have hlen : data.length≤ i*t.usable := by
    by_contra hlt
    have := lnum_lt (t := t) (not_le.mp hlt)
    rw [Nat.mul_div_cancel _ hpos] at this
    omega
  have hbytes : lebBytes t data i=[] := by
    unfold lebBytes
    rw [List.drop_of_length_le hlen,List.take_nil]
  unfold LebReads ebaReadLeb
  rw [if_neg hs,hnone,hbytes]
  rfl

/-- The sizes that `clear_update_marker` computes. -/
theorem sizes_eq {n : ℕ} (hn : 0<n) (hlen : data.length=n) :
    (if n%t.usable≠0 then n/t.usable+1 else n/t.usable)=lebCount t n∧
      (if n%t.usable≠0 then n%t.usable else t.usable)=(lebBytes t data (lebCount t n-1)).length := by
  have hpos := usable_pos t
  have hdiv := Nat.div_add_mod n t.usable
  have hmod := Nat.mod_lt n hpos
  have hbytes : ∀ q r,n=q*t.usable+r → 0<r → r≤ t.usable →
      lebCount t n=q+1∧(lebBytes t data (lebCount t n-1)).length=r := by
    intro q r hq hr hle
    have hcount : lebCount t n=q+1 := hq▸lebCount_eq hr hle
    refine ⟨hcount,?_⟩
    unfold lebBytes
    rw [hcount,Nat.add_sub_cancel,List.length_take,List.length_drop,hlen]
    omega
  by_cases hzero : n%t.usable=0
  · have hq : n/t.usable-1+1=n/t.usable := by
      have hne : n/t.usable≠0 := fun h => by
        rw [h,hzero,Nat.mul_zero] at hdiv
        omega
      exact Nat.sub_add_cancel (Nat.pos_of_ne_zero hne)
    have ⟨hcount,hlast⟩ := hbytes (n/t.usable-1) t.usable
      (by rw [←Nat.succ_mul,Nat.succ_eq_add_one,hq,Nat.mul_comm]; omega) hpos le_rfl
    rw [if_neg (not_not.mpr hzero),if_neg (not_not.mpr hzero),hlast,hcount,hq]
    exact ⟨rfl,rfl⟩
  · have ⟨hcount,hlast⟩ := hbytes (n/t.usable) (n%t.usable) (by rw [Nat.mul_comm]; omega)
      (Nat.pos_of_ne_zero hzero) hmod.le
    rw [if_pos hzero,if_pos hzero,hlast,hcount]
    exact ⟨rfl,rfl⟩

theorem moreFinish_open {k toWrite : ℕ} (h : Mid t env data k u) (hlt : k<data.length) :
    moreFinish t env toWrite 0 u=(0,u) := by
  unfold moreFinish
  rw [if_neg (by rw [h.received,h.bytes]; omega)]

theorem moreFinish_end (toWrite : ℕ) (h : Mid t env data data.length u)
    (ok : Succeeds t env free (lebCount t data.length)) (hpos : 0<data.length) :
    ∃ u',moreFinish t env toWrite 0 u=((toWrite : ℤ),u')∧Finished t data u' := by
  have hwritten : lebsWritten t data.length data.length=lebCount t data.length := if_pos rfl
  have htrace := h.trace
  have hstored := h.stored
  have hempty := h.empty
  rw [hwritten] at htrace hstored hempty
  rw [h.ebs] at hstored
  have hsizes := sizes_eq (t := t) hpos rfl
  unfold moreFinish clearUpdateMarker
  rw [if_pos (by rw [h.received,h.bytes])]
  dsimp only
  rw [if_neg (not_not.mpr ok.flush),ok.change,if_neg (not_not.mpr rfl)]
  refine ⟨_,rfl,?_,⟨rfl,rfl,rfl⟩,fun i hi hs => ?_,fun hs => ?_⟩
  · by_cases hs : t.static=true
    · rw [if_pos hs]
      rw [htrace,List.append_assoc]
      rfl
    · rw [if_neg hs]
      rw [htrace,List.append_assoc]
      rfl
  · rw [apply_ite Upd.eba,ite_self]
    by_cases hlt : i<lebCount t data.length
    · exact hstored i hlt
    · exact reads_empty (fun h => hlt (hs h)) (hempty i (not_lt.mp hlt) hi) (not_lt.mp hlt)
  · rw [if_pos hs]
    rw [h.bytes]
    exact ⟨rfl,rfl,hsizes.1,hsizes.2⟩

/-- Calls that leave some bytes of the update to come return zero. -/
theorem moreUpdates_spec (ok : Succeeds t env free (lebCount t data.length))
    (hfit : data.length≤ t.reservedPebs*t.usable) (calls : List (List UInt8)) :
    ∀ (k : ℕ) (u : Upd),Mid t env data k u →
      calls.flatten=(data.drop k).take calls.flatten.length →
      k+calls.flatten.length<data.length →
      ∃ u',moreUpdates t env u calls=(calls.map fun _ => 0,u')∧
        Mid t env data (k+calls.flatten.length) u' := by
  induction calls with
  | nil =>
    intro k u h _ _
    exact ⟨u,rfl,h⟩
  | cons call calls ih =>
    intro k u h hdata hlt
    rw [List.flatten_cons,List.length_append] at hlt hdata
    have hcall : call=(data.drop k).take call.length := by
      have := congrArg (List.take call.length) hdata
      rw [List.take_left,List.take_take,min_eq_left (Nat.le_add_right _ _)] at this
      exact this
    have hrest : calls.flatten=(data.drop (k+call.length)).take calls.flatten.length := by
      have := congrArg (List.drop call.length) hdata
      rw [List.drop_left,List.drop_take,List.drop_drop,Nat.add_sub_cancel_left] at this
      exact this
    have ⟨u1,hrun,hmid⟩ := moreUpdateData_spec call (c := call.length) h ok hfit (by omega) (by omega)
      (by rw [List.take_length]; exact hcall)
    rw [moreFinish_open hmid (by omega)] at hrun
    have ⟨u2,hruns,hend⟩ := ih (k+call.length) u1 hmid hrest (by omega)
    refine ⟨u2,?_,?_⟩
    · unfold moreUpdates
      rw [hrun]
      dsimp only
      rw [hruns]
      rfl
    · rw [List.flatten_cons,List.length_append,←Nat.add_assoc]
      exact hend

/-- What an update starts from. -/
structure Started (t : Target) (data : List UInt8) (u : Upd) : Prop where
  received : u.received=0
  bytes : u.bytes=data.length
  ebs : u.ebs=lebCount t data.length
  buf : u.buf.length=t.lebSize
  roMode : u.eba.roMode=false
  freeErased : FreeErased u.eba
  outside : Outside u.eba t.vol.volId
  empty : ∀ i : ℕ,i<t.reservedPebs → u.eba.ebaTbl t.vol.volId i=none
  trace : u.trace=[]
  marked : u.updMarker=true∧u.vtblMarker=true∧u.updating=true
  /-- There is something to write, and room for it. -/
  pos : 0<data.length
  fit : data.length≤ t.reservedPebs*t.usable

theorem Started.mid (h : Started t data u)
    (ok : Succeeds t env u.eba.free (lebCount t data.length)) : Mid t env data 0 u := by
  have hwritten : lebsWritten t data.length 0=0 := by
    unfold lebsWritten
    rw [if_neg h.pos.ne,Nat.zero_div]
  refine ⟨h.received,h.bytes,h.ebs,Nat.zero_le _,h.buf,fun _ => ?_,h.roMode,h.freeErased,h.outside,
    fun i hi => ?_,fun i _ hi => h.empty i hi,fun i _ hi => ok.peb i (h.ebs▸hi),?_,h.marked⟩
  · rw [Nat.zero_mod,List.take_zero,List.take_zero]
  · rw [hwritten] at hi
    exact absurd hi (Nat.not_lt_zero i)
  · rw [hwritten]
    exact h.trace

/-! ## The start -/

theorem ebaUnmapLeb_none {eba : State} {vol : Volume} {l l' lock put : ℤ}
    (h : eba.ebaTbl vol.volId l'=none) :
    (ebaUnmapLeb eba vol l lock put).2.ebaTbl vol.volId l'=none := by
  have hmap : (eba.map vol.volId l none).ebaTbl vol.volId l'=none := by
    by_contra hne
    have ⟨p,hp⟩ := Option.ne_none_iff_exists'.mp hne
    rw [map_none_some hp] at h
    cases h
  unfold ebaUnmapLeb
  split_ifs
  · exact h
  · exact h
  · split
    · exact h
    · rw [(wlPutPeb_fields _ _ _).2.1]
      exact hmap

/-- All LEBs of the volume are unmapped. -/
theorem wipeOut_spec (t : Target) (env : Env) (n : ℕ) : ∀ (i : ℕ) (eba : State),WellFormed eba → eba.roMode=false →
    (∀ j : ℕ,j< i → eba.ebaTbl t.vol.volId j=none) → (wipeOut t env n i eba).1=0 →
    WellFormed (wipeOut t env n i eba).2∧(wipeOut t env n i eba).2.roMode=false∧
      ∀ j : ℕ,j< i+n → (wipeOut t env n i eba).2.ebaTbl t.vol.volId j=none := by
  induction n with
  | zero =>
    intro i eba wf hro hnone _
    exact ⟨wf,hro,hnone⟩
  | succ n ih =>
    intro i eba wf hro hnone hz
    unfold wipeOut at hz ⊢
    dsimp only at hz ⊢
    rcases unmap_cases wf t.vol i (env.unmap i).1 (env.unmap i).2 with ⟨hne,_⟩|⟨h0,_,wf',hro',_,hl⟩
    · rw [if_pos hne] at hz
      exact absurd hz hne
    · rw [if_neg (not_not.mpr h0)] at hz ⊢
      have hnext : ∀ j : ℕ,j< i+1 →
          (ebaUnmapLeb eba t.vol i (env.unmap i).1 (env.unmap i).2).2.ebaTbl t.vol.volId j=none := by
        intro j hj
        by_cases hji : j=i
        · exact hji▸hl
        · exact ebaUnmapLeb_none (hnone j (by omega))
      have hrest := ih (i+1) _ wf' hro' hnext hz
      rw [Nat.add_assoc,Nat.add_comm 1 n] at hrest
      exact hrest

/-- `ubi_start_update` is what an update starts from. -/
theorem startUpdate_started {buf : List UInt8} (wf : WellFormed u.eba) (hro : u.eba.roMode=false)
    (hmark : u.updMarker=true → u.vtblMarker=true) (htrace : u.trace=[])
    (hbuf : buf.length=t.lebSize) (hpos : 0<data.length)
    (hfit : data.length≤ t.reservedPebs*t.usable)
    (h : (startUpdate t env u buf data.length).1=0) :
    Started t data (startUpdate t env u buf data.length).2 := by
  have hset : ∀ v : Upd,v=(setUpdateMarker env { u with updating := true }).2 →
      (setUpdateMarker env { u with updating := true }).1=0 →
      v.eba=u.eba∧v.trace=[]∧v.updMarker=true∧v.vtblMarker=true∧v.updating=true := by
    intro v hv hz
    rw [hv]
    unfold setUpdateMarker at hz ⊢
    by_cases hm : u.updMarker=true
    · rw [if_pos hm]
      exact ⟨rfl,htrace,hm,hmark hm,rfl⟩
    · rw [if_neg hm] at hz ⊢
      rw [if_pos hz]
      exact ⟨rfl,htrace,rfl,rfl,rfl⟩
  unfold startUpdate at h ⊢
  generalize setUpdateMarker env { u with updating := true }=r at h hset ⊢
  obtain ⟨err,v⟩ := r
  dsimp only at h hset ⊢
  by_cases herr : err=0
  case neg =>
    rw [if_pos herr] at h
    exact absurd h herr
  rw [if_neg (not_not.mpr herr)] at h ⊢
  have ⟨heba,hvt,hm1,hm2,hm3⟩ := hset v rfl herr
  rw [heba] at h ⊢
  have hwipe := wipeOut_spec t env t.reservedPebs 0 u.eba wf hro
    fun j hj => absurd hj (Nat.not_lt_zero j)
  generalize wipeOut t env t.reservedPebs 0 u.eba=w at h hwipe ⊢
  obtain ⟨err',eba⟩ := w
  by_cases herr' : err'=0
  case neg =>
    rw [if_pos herr'] at h
    exact absurd h herr'
  rw [if_neg (not_not.mpr herr'),if_neg hpos.ne'] at h ⊢
  have ⟨wf',hro',hnone⟩ := hwipe herr'
  by_cases hv : env.vmalloc=true
  · rw [if_neg (not_not.mpr hv)]
    exact ⟨rfl,rfl,rfl,hbuf,hro',wf'.freeErased,fun l p hl => (wf'.mapped _ l p hl).1,
      fun i hi => hnone i (by omega),hvt,⟨hm1,hm2,hm3⟩,hpos,hfit⟩
  · rw [if_pos hv] at h
    exact absurd h eba_errors.2

/-! ## Any number of calls -/

/-- The bytes of an update may arrive in any number of calls: all but the last
one return zero with the marker set, the last one returns the bytes it took,
and what the update leaves depends on the bytes only. -/
theorem update_any_calls (t : Target) (env : Env) (u : Upd) (data : List UInt8)
    (calls : List (List UInt8)) (last : List UInt8) (started : Started t data u)
    (ok : Succeeds t env u.eba.free (lebCount t data.length))
    (hopen : calls.flatten.length<data.length)
    (hdata : data=calls.flatten++last.take (data.length-calls.flatten.length)) :
    ∃ u₁ u₂,moreUpdates t env u calls=(calls.map fun _ => 0,u₁)∧
      u₁.updMarker=true∧u₁.vtblMarker=true∧Event.clear∉u₁.trace∧
      moreUpdateData t env u₁ last=(((data.length-calls.flatten.length : ℕ) : ℤ),u₂)∧
      Finished t data u₂ := by
  have hfirst : calls.flatten=(data.drop 0).take calls.flatten.length := by
    rw [List.drop_zero]
    conv_rhs => rw [hdata]
    rw [List.take_left]
  have ⟨u₁,hruns,hmid⟩ := moreUpdates_spec ok started.fit calls 0 u (started.mid ok) hfirst
    (by omega)
  rw [Nat.zero_add] at hmid
  have hlen : (last.take (data.length-calls.flatten.length)).length=
      data.length-calls.flatten.length := by
    have := congrArg List.length hdata
    rw [List.length_append] at this
    omega
  have hlast : last.take (data.length-calls.flatten.length)=
      (data.drop calls.flatten.length).take (data.length-calls.flatten.length) := by
    have hdrop : data.drop calls.flatten.length=
        last.take (data.length-calls.flatten.length) := by
      conv_lhs => rw [hdata]
      rw [List.drop_left]
    rw [hdrop,List.take_take,min_self]
  have ⟨u',hrun,hend⟩ := moreUpdateData_spec last hmid ok started.fit hopen
    (by rw [List.length_take] at hlen; omega) hlast
  rw [Nat.add_sub_cancel' hopen.le] at hend
  have ⟨u₂,hfin,hdone⟩ := moreFinish_end (data.length-calls.flatten.length) hend ok started.pos
  refine ⟨u₁,u₂,hruns,hmid.marked.1,hmid.marked.2.1,?_,hrun.trans hfin,hdone⟩
  rw [hmid.trace]
  intro hmem
  have ⟨i,_,hi⟩ := List.mem_map.mp hmem
  cases hi

/-- `ubi_start_update` unmaps what the volume held, and while bytes are still to come every call
returns zero, the volume is marked, and it holds the LEBs that are full and no other. -/
theorem update_unfinished (t : Target) (env : Env) (u : Upd) (buf data : List UInt8)
    (calls : List (List UInt8)) (wf : WellFormed u.eba) (hro : u.eba.roMode=false)
    (hmark : u.updMarker=true → u.vtblMarker=true) (htrace : u.trace=[]) (hbuf : buf.length=t.lebSize)
    (hfit : data.length≤ t.reservedPebs*t.usable)
    (hstart : (startUpdate t env u buf data.length).1=0)
    (ok : Succeeds t env (startUpdate t env u buf data.length).2.eba.free (lebCount t data.length))
    (hlt : calls.flatten.length<data.length) (hdata : calls.flatten=data.take calls.flatten.length) :
    ∃ u',moreUpdates t env (startUpdate t env u buf data.length).2 calls=(calls.map fun _ => 0,u')∧
      u'.updMarker=true∧u'.vtblMarker=true∧
      (∀ i<calls.flatten.length/t.usable,LebReads t u'.ebs u'.eba i (lebBytes t data i))∧
      ∀ i : ℕ,calls.flatten.length/t.usable≤ i → i<t.reservedPebs → u'.eba.ebaTbl t.vol.volId i=none := by
  have started := startUpdate_started wf hro hmark htrace hbuf (by omega) hfit hstart
  have ⟨u',hrun,hmid⟩ := moreUpdates_spec ok hfit calls 0 _ (started.mid ok) hdata (by omega)
  have hfull : lebsWritten t data.length (0+calls.flatten.length)=calls.flatten.length/t.usable := by
    rw [lebsWritten,Nat.zero_add,if_neg hlt.ne]
  have hstored := hmid.stored
  have hempty := hmid.empty
  rw [hfull] at hstored hempty
  exact ⟨u',hrun,hmid.marked.1,hmid.marked.2.1,hstored,hempty⟩

/-- Six bytes for LEBs of four. -/
def smallTarget : Target where
  dev := ⟨⟨8,4,fun _ => 0⟩,2,by decide,true⟩
  vol := ⟨1,0⟩
  static := false
  lebSize := 4
  alignment := 1
  reservedPebs := 3
  lebSize_aligned := by decide
  lebSize_pos := by decide
  alignment_aligned := by decide
  alignment_pos := Nat.one_pos
  alignment_le := by decide

def smallEnv : Env where
  fault _ := false
  write i := ⟨0,true,0,fun _ => 0,true,0,fun _ => ⟨i+1,0,0,.bad,0,0,fun _ => 0,0⟩⟩
  flush := 0
  change := 0
  unmap _ := (0,0)
  vmalloc := true

def smallUpd : Upd :=
  ⟨List.replicate 4 0,0,6,2,true,true,true,false,0,0,0,erasedState,[]⟩

theorem smallUpd_started : Started smallTarget [1,2,3,0xFF,5,6] smallUpd :=
  ⟨rfl,rfl,rfl,rfl,rfl,fun _ _ => rfl,nofun,fun _ _ => rfl,rfl,⟨rfl,rfl,rfl⟩,by decide,by decide⟩

theorem smallEnv_succeeds :
    Succeeds smallTarget smallEnv smallUpd.eba.free (lebCount smallTarget 6) where
  fault _ := rfl
  flush := rfl
  change := rfl
  write i _ := ⟨rfl,rfl,Int.natCast_nonneg (i+1),rfl,rfl⟩
  peb := by decide
  distinct i j hij _ h := by
    have hpeb : ∀ i,firstPeb (smallEnv.write i)=i+1 := fun i => Int.toNat_natCast (i+1)
    rw [hpeb,hpeb] at h
    omega

/-- The second call fills a LEB, and the last one brings too much. -/
theorem update_any_calls_example : ∃ u₁ u₂,
    moreUpdates smallTarget smallEnv smallUpd [[1],[2,3,0xFF,5]]=([0,0],u₁)∧
      moreUpdateData smallTarget smallEnv u₁ [6,7,8]=(1,u₂)∧
      Finished smallTarget [1,2,3,0xFF,5,6] u₂ := by
  have ⟨u₁,u₂,hruns,_,_,_,hrun,hdone⟩ := update_any_calls smallTarget smallEnv smallUpd
    [1,2,3,0xFF,5,6] [[1],[2,3,0xFF,5]] [6,7,8] smallUpd_started smallEnv_succeeds
    (by decide) (by decide)
  exact ⟨u₁,u₂,hruns,hrun,hdone⟩

/-- One LEB is full after five bytes. -/
theorem update_unfinished_example : ∃ u',
    moreUpdates smallTarget smallEnv (startUpdate smallTarget smallEnv smallUpd smallUpd.buf 6).2 [[1],[2,3,0xFF,5]]=
      ([0,0],u')∧u'.updMarker=true∧LebReads smallTarget u'.ebs u'.eba 0 [1,2,3,0xFF] := by
  have ⟨u',hrun,hmark,_,hstored,_⟩ := update_unfinished smallTarget smallEnv smallUpd smallUpd.buf
    [1,2,3,0xFF,5,6] [[1],[2,3,0xFF,5]] erasedState_wellFormed rfl (fun _ => rfl) rfl rfl (by decide) rfl
    smallEnv_succeeds (by decide) rfl
  exact ⟨u',hrun,hmark,hstored 0 (by decide)⟩

end ArdroneKernel.UbiUpdate
