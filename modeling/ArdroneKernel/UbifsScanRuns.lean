import ArdroneKernel.UbifsScanNodes
import Mathlib.Data.List.Pairwise

/-!
# Runs of a scan

Where a scan stands while nothing has overflowed, and that it ends with what it
lists in order and empty space after it.
-/

namespace ArdroneKernel.UbifsScan

open CheckedBuffer LittleEndian

variable {c : Info} {env : Env} {buf : List UInt8} {start k : ℕ} {cur : Cursor}

/-! ## Where a scan stands -/

/-- A scan goes from an offset to the next. -/
def Step (c : Info) (buf : List UInt8) (k l : ℕ) : Prop :=
  k+8≤c.lebSize∧∃ ret,ubifsScanANode c buf k ((c.lebSize : ℤ)-k) k=some ret∧
    (0<ret∧(l : ℤ)=k+ret∨ret=A_NODE∧l=k+(nodeLen buf k+7)/8*8)

/-- A scan comes to an offset. -/
def Reached (c : Info) (buf : List UInt8) : ℕ → ℕ → Prop := Relation.ReflTransGen (Step c buf)

/-- The cursor is at an offset. -/
structure At (c : Info) (k : ℕ) (cur : Cursor) : Prop where
  offs : cur.offs=k
  pos : cur.pos=k
  len : cur.len=(c.lebSize : ℤ)-k
  le : k≤c.lebSize

/-- Nodes are in order between two offsets. -/
structure Listed (start : ℕ) (endpt : ℤ) (nodes : List Snod) : Prop where
  inside : ∀ s∈nodes,start≤ s.offs∧0<s.len∧s.offs+s.len≤endpt
  apart : nodes.Pairwise fun s t => s.offs+s.len≤t.offs

/-- Nodes point to headers in the buffer. -/
def Placed (c : Info) (nodes : List Snod) : Prop :=
  ∀ s∈nodes,∃ j : ℕ,s.offs=j∧s.node=j∧8∣j∧j+CH_SZ≤c.lebSize

/-- A scan from an offset stands at another. -/
structure Going (c : Info) (buf : List UInt8) (start k : ℕ) (cur : Cursor) : Prop where
  stands : At c k cur
  aligned : 8∣k
  after : start≤k
  reached : Reached c buf start k
  listed : Listed start k cur.nodes
  placed : Placed c cur.nodes

theorem Listed.mono {e f : ℤ} {nodes : List Snod} (h : Listed start e nodes) (hle : e≤f) :
    Listed start f nodes where
  inside s hs := ⟨(h.inside s hs).1,(h.inside s hs).2.1,(h.inside s hs).2.2.trans hle⟩
  apart := h.apart

theorem At.skip (h : At c k cur) {n : ℕ} (hn : k+n≤c.lebSize) : At c (k+n) (cur.skip n) := by
  have hint := c.lebInt
  refine ⟨?_,?_,?_,hn⟩
  · change int32 (cur.offs+n)=_
    rw [h.offs,int32_of_lt (by omega) (by omega)]
    omega
  · change cur.pos+n=_
    rw [h.pos]
    omega
  · change int32 (cur.len-n)=_
    rw [h.len,int32_of_lt (by omega) (by omega)]
    omega

theorem At.init (hle : start≤c.lebSize) : At c start (Cursor.start c start) := by
  have hint := c.lebInt
  refine ⟨rfl,rfl,?_,hle⟩
  exact int32_of_lt (by omega) (by omega)

theorem Going.init (hle : start≤c.lebSize) (hal : 8∣start) :
    Going c buf start start (Cursor.start c start) where
  stands := At.init hle
  aligned := hal
  after := le_rfl
  reached := Relation.ReflTransGen.refl
  listed := ⟨fun _ hs => absurd hs List.not_mem_nil,List.Pairwise.nil⟩
  placed := fun _ hs => absurd hs List.not_mem_nil

/-- The LEB is made of units of 8 bytes. -/
theorem eight_dvd (c : Info) : 8∣c.lebSize :=
  (pow_dvd_pow 2 c.minIo).trans c.unit

/-! ## One step -/

/-- Padding is skipped. -/
theorem Going.pad (h : Going c buf start k cur) (hk : k+8≤c.lebSize) {ret : ℤ}
    (hret : ubifsScanANode c buf k ((c.lebSize : ℤ)-k) k=some ret) (hpos : 0<ret) (hdvd : 8∣ret)
    (hle : k+ret≤c.lebSize) : ∃ l>k,(l : ℤ)=k+ret∧Going c buf start l (cur.skip ret) := by
  obtain ⟨n,rfl⟩ := Int.eq_ofNat_of_zero_le hpos.le
  have hal := h.aligned
  have hafter := h.after
  exact ⟨k+n,by omega,by omega,h.stands.skip (by omega),by omega,by omega,
    h.reached.tail ⟨hk,_,hret,Or.inl ⟨hpos,by omega⟩⟩,h.listed.mono (by omega),h.placed⟩

theorem int32_align {n : ℕ} (hn : n+7<2^31) :
    int32 (((n+7)%2^32/8*8 : ℕ) : ℤ)=((n+7)/8*8 : ℕ) := by
  rw [Nat.mod_eq_of_lt (by omega)]
  exact int32_of_lt (by omega) (by omega)

/-- A valid node is listed. -/
theorem takeNode_spec (env : Env) (hlen : buf.length=c.lebSize) (h : Going c buf start k cur)
    (hret : ubifsScanANode c buf k ((c.lebSize : ℤ)-k) k=some A_NODE) (hv : Valid c buf k) :
    ∃ r,takeNode env buf cur=some r∧(env.alloc k=true → ∃ cur',r=.ok cur')∧
      ∀ cur',r=.ok cur' → ∃ l>k,l=k+(nodeLen buf k+7)/8*8∧Going c buf start l cur' := by
  obtain ⟨-,-,hsqnum,hnlen,htype,-⟩ := readHeader hlen hv.room
  obtain ⟨hmin,hmax,heq,hkeyed,-⟩ := hv.bounds
  have hfits := hv.fits
  have hint := c.lebInt
  have height := eight_dvd c
  have hal := h.aligned
  have hafter := h.after
  unfold CH_SZ at hmin
  have hkey : ∃ key,readKey buf (k : ℤ) (nodeType buf k)=some key := by
    unfold readKey
    split_ifs with hlt
    · have hread : ∀ i : ℕ,i≤44 → readField buf ((k : ℤ)+i) 4=some (field buf (k+i) 4) := by
        intro i hi
        have hcast : (k : ℤ)+i=((k+i : ℕ) : ℤ) := by omega
        exact readField_eq (by omega)
      refine ⟨some (field buf (k+24) 4,field buf (k+28) 4),?_⟩
      have hfirst := hread 24 (by decide)
      have hsecond := hread 28 (by decide)
      rw [Nat.cast_ofNat] at hfirst hsecond
      rw [hfirst,Option.bind_some,hsecond,Option.map_some]
    · exact ⟨none,rfl⟩
  obtain ⟨key,hkey⟩ := hkey
  unfold takeNode ubifsAddSnod
  rw [h.stands.pos,h.stands.offs]
  by_cases halloc : env.alloc k=true
  · rw [if_pos halloc,hsqnum,Option.bind_some,htype,Option.bind_some,hnlen,Option.bind_some,hkey,
      Option.map_some,Option.bind_some]
    dsimp only
    rw [Option.map_some]
    rw [int32_align (by omega)]
    refine ⟨_,rfl,fun _ => ⟨_,rfl⟩,fun cur' hcur => ?_⟩
    rw [←Except.ok.inj hcur]
    have hend : k+(nodeLen buf k+7)/8*8≤c.lebSize := by omega
    have hstands : ∀ nodes,At c k ⟨k,k,cur.len,nodes⟩ := fun _ =>
      ⟨rfl,rfl,h.stands.len,h.stands.le⟩
    refine ⟨k+(nodeLen buf k+7)/8*8,by omega,rfl,(hstands _).skip hend,by omega,by omega,
      h.reached.tail ⟨by omega,_,hret,Or.inr ⟨rfl,rfl⟩⟩,⟨?_,?_⟩,?_⟩
    · intro s hs
      rcases List.mem_append.mp hs with hs | hs
      · have hold := h.listed.inside s hs
        exact ⟨hold.1,hold.2.1,by omega⟩
      · rw [List.mem_singleton.mp hs]
        dsimp only
        omega
    · refine List.pairwise_append.mpr ⟨h.listed.apart,List.pairwise_singleton _ _,?_⟩
      intro s hs t ht
      rw [List.mem_singleton.mp ht]
      exact (h.listed.inside s hs).2.2
    · intro s hs
      rcases List.mem_append.mp hs with hs | hs
      · exact h.placed s hs
      · rw [List.mem_singleton.mp hs]
        exact ⟨k,rfl,rfl,hal,hv.room⟩
  · rw [if_neg halloc,Option.bind_some]
    refine ⟨_,rfl,fun h => absurd h halloc,fun cur' hcur => ?_⟩
    cases hcur

/-- The dump of a corruption is inside the LEB. -/
theorem corrupted_spec {α : Type} (hlen : buf.length=c.lebSize) (hoffs : cur.offs=k)
    (hpos : cur.pos=k) (hle : k≤c.lebSize) (quiet : Bool) :
    ∃ err,corrupted (α := α) c buf quiet cur=some (.error err) := by
  have hint := c.lebInt
  unfold corrupted
  split_ifs
  · exact ⟨EUCLEAN,rfl⟩
  · refine ⟨EUCLEAN,?_⟩
    unfold hexDump
    rw [hpos,hoffs,int32_of_lt (by omega) (by omega),sizeT_of_lt (by omega) (by omega),
      readBytes_eq (by omega)]
    rfl

/-! ## The whole scan -/

/-- No length on the way of a scan overflows. -/
def Bounded (c : Info) (buf : List UInt8) (start : ℕ) : Prop :=
  ∀ k,Reached c buf start k → ¬Overflows c buf k

/-- The main loop ends at an offset to which the scan comes. -/
theorem scanLoop_spec (env : Env) (hlen : buf.length=c.lebSize) (hno : Bounded c buf start)
    (quiet : Bool) (fuel : ℕ) (hfuel : c.lebSize<k+fuel) (h : Going c buf start k cur) :
    ∃ r,scanLoop c env buf quiet fuel cur=some r∧
      ∀ cur',r=.ok cur' → ∃ l≥k,Going c buf start l cur' := by
  induction fuel generalizing k cur with
  | zero =>
    have hle := h.stands.le
    omega
  | succ fuel ih =>
    rw [scanLoop]
    by_cases hshort : cur.len<8
    · rw [if_pos hshort]
      refine ⟨_,rfl,fun cur' hcur => ⟨k,le_rfl,?_⟩⟩
      cases hcur
      exact h
    rw [if_neg hshort]
    have hk : k+8≤c.lebSize := by
      rw [h.stands.len] at hshort
      omega
    obtain ⟨ret,hret,hpad,hnode,-⟩ :=
      ubifsScanANode_spec hlen hk h.aligned (hno k h.reached)
    rw [h.stands.pos,h.stands.len,h.stands.offs,hret,Option.bind_some]
    have hnext : ∀ {l cur'},k<l → Going c buf start l cur' → ∃ r,
        scanLoop c env buf quiet fuel cur'=some r∧
          ∀ cur'',r=.ok cur'' → ∃ m≥k,Going c buf start m cur'' := by
      intro l cur' hl hgoing
      obtain ⟨r,hr,hend⟩ := ih (by omega) hgoing
      refine ⟨r,hr,fun cur'' hcur => ?_⟩
      obtain ⟨m,hm,hgoing'⟩ := hend cur'' hcur
      exact ⟨m,by omega,hgoing'⟩
    by_cases hpos : 0<ret
    · rw [if_pos hpos]
      obtain ⟨l,hl,-,hgoing⟩ := h.pad hk hret hpos (hpad hpos).1 (hpad hpos).2
      exact hnext hl hgoing
    rw [if_neg hpos]
    by_cases hempty : ret=EMPTY_SPACE
    · rw [if_pos hempty]
      refine ⟨_,rfl,fun cur' hcur => ⟨k,le_rfl,?_⟩⟩
      cases hcur
      exact h
    rw [if_neg hempty]
    by_cases hbad : ret=GARBAGE∨ret=A_CORRUPT_NODE∨ret=A_BAD_PAD_NODE
    · rw [if_pos hbad]
      obtain ⟨err,herr⟩ := corrupted_spec (α := Cursor) hlen h.stands.offs h.stands.pos h.stands.le quiet
      refine ⟨_,herr,fun cur' hcur => ?_⟩
      cases hcur
    rw [if_neg hbad]
    by_cases hvalid : ret=A_NODE
    · subst hvalid
      obtain ⟨r,hr,-,htake⟩ := takeNode_spec env hlen h hret (hnode rfl)
      rw [hr,Option.bind_some]
      rcases r with err | cur'
      · refine ⟨_,rfl,fun cur' hcur => ?_⟩
        cases hcur
      · obtain ⟨l,hl,-,hgoing⟩ := htake cur' rfl
        exact hnext hl hgoing
    · rw [if_neg hvalid]
      refine ⟨_,rfl,fun cur' hcur => ?_⟩
      cases hcur

/-- All bytes from an offset on are 0xFF. -/
def Blank (buf : List UInt8) (k : ℕ) : Prop := ∀ j,k≤j → j<buf.length → buf[j]?=some 0xff

theorem skipWords_spec (hlen : buf.length=c.lebSize) (fuel : ℕ) (hfuel : c.lebSize<k+fuel)
    (h : At c k cur) :
    ∃ cur' l,skipWords buf fuel cur=some cur'∧At c l cur'∧cur'.nodes=cur.nodes∧k≤l∧
      ∀ j,k≤j → j<l → buf[j]?=some 0xff := by
  induction fuel generalizing k cur with
  | zero =>
    have hle := h.le
    omega
  | succ fuel ih =>
    rw [skipWords]
    by_cases hlong : 4<cur.len
    · rw [if_pos hlong]
      have hk : k+4≤c.lebSize := by
        rw [h.len] at hlong
        omega
      rw [h.pos,readField_eq (by omega),Option.bind_some]
      by_cases hword : field buf k 4≠0xffffffff
      · rw [if_pos hword]
        exact ⟨cur,k,rfl,h,rfl,le_rfl,fun j hj hlt => absurd hj (Nat.not_le.mpr hlt)⟩
      · rw [if_neg hword]
        obtain ⟨cur',l,hskip,hat,hnodes,hle,hff⟩ :=
          ih (by omega) (show At c (k+4) (cur.skip 4) from h.skip hk)
        refine ⟨cur',l,hskip,hat,hnodes,by omega,fun j hj hlt => ?_⟩
        by_cases hin : j<k+4
        · have hbyte := field_max (show k+4≤buf.length by omega)
            (show field buf k 4+1=256^4 by omega) (show j-k<4 by omega)
          rwa [show k+(j-k)=j by omega] at hbyte
        · exact hff j (by omega) hlt
    · rw [if_neg hlong]
      exact ⟨cur,k,rfl,h,rfl,le_rfl,fun j hj hlt => absurd hj (Nat.not_le.mpr hlt)⟩

theorem skipBytes_spec (hlen : buf.length=c.lebSize) (fuel : ℕ) (hfuel : c.lebSize<k+fuel)
    (h : At c k cur) :
    ∃ r l,skipBytes buf fuel cur=some r∧At c l r.1∧(r.2=true → Blank buf k) := by
  induction fuel generalizing k cur with
  | zero =>
    have hle := h.le
    omega
  | succ fuel ih =>
    rw [skipBytes]
    by_cases hlong : cur.len≠0
    · rw [if_pos hlong]
      have hk : k+1≤c.lebSize := by
        have hle := h.le
        rw [h.len] at hlong
        omega
      rw [h.pos,readField_eq (by omega),Option.bind_some]
      by_cases hbyte : field buf k 1≠0xff
      · rw [if_pos hbyte]
        exact ⟨_,k,rfl,h,nofun⟩
      · rw [if_neg hbyte]
        obtain ⟨r,l,hskip,hat,hblank⟩ :=
          ih (by omega) (show At c (k+1) (cur.skip 1) from h.skip hk)
        refine ⟨r,l,hskip,hat,fun htrue j hj hlt => ?_⟩
        rcases hj.eq_or_lt with rfl | hj
        · exact (field_eq_byte hlt 0xff).mp (not_not.mp hbyte)
        · exact hblank htrue j hj hlt
    · rw [if_neg hlong]
      refine ⟨_,k,rfl,h,fun _ j hj hlt => ?_⟩
      rw [h.len] at hlong
      omega

/-- Rounding an offset up to whole I/O units stays in the LEB. -/
theorem align_spec (hk : k≤c.lebSize) :
    ∃ l : ℕ,align (k : ℤ) c.minIoSize=l∧k≤l∧l≤c.lebSize∧c.minIoSize∣l∧
      l<k+c.minIoSize∧(c.minIoSize∣k → l=k) := by
  have hint := c.lebInt
  have hpos : 0<c.minIoSize := Nat.two_pow_pos _
  have hroom : c.lebSize+c.minIoSize≤2^31 := by
    obtain ⟨q,hq⟩ := c.unit
    obtain ⟨r,hr⟩ := pow_dvd_pow 2 (show c.minIoShift≤31 from
      c.ioLe.trans (c.maxWrite.trans (by decide)))
    change c.lebSize=c.minIoSize*q at hq
    change 2^31=c.minIoSize*r at hr
    have hlt : q<r := Nat.lt_of_mul_lt_mul_left (a := c.minIoSize) (by omega)
    calc c.lebSize+c.minIoSize=c.minIoSize*(q+1) := by rw [hq,Nat.mul_succ]
      _ ≤ c.minIoSize*r := Nat.mul_le_mul_left _ hlt
      _ = 2^31 := hr.symm
  have hdiv := Nat.div_add_mod' (k+c.minIoSize-1) c.minIoSize
  have hmod := Nat.mod_lt (k+c.minIoSize-1) hpos
  refine ⟨(k+c.minIoSize-1)/c.minIoSize*c.minIoSize,?_,by omega,?_,Nat.dvd_mul_left _ _,by omega,
    fun hdvd => ?_⟩
  · unfold align
    have hsum : (k : ℤ)+c.minIoSize-1=((k+c.minIoSize-1 : ℕ) : ℤ) := by omega
    rw [int32_of_lt (by omega) (by omega),hsum]
    rfl
  · obtain ⟨q,hq⟩ := c.unit
    change c.lebSize=c.minIoSize*q at hq
    rw [hq,Nat.mul_comm]
    refine Nat.mul_le_mul_left _ (Nat.lt_succ_iff.mp ((Nat.div_lt_iff_lt_mul hpos).mpr ?_))
    rw [Nat.succ_mul,Nat.mul_comm q,←hq]
    omega
  · obtain ⟨q,rfl⟩ := hdvd
    have hq : (c.minIoSize*q+c.minIoSize-1)/c.minIoSize=q := by
      rw [Nat.add_sub_assoc hpos,Nat.mul_add_div hpos,Nat.div_eq_of_lt (by omega),Nat.add_zero]
    rw [hq,Nat.mul_comm]

/-- What a scan that succeeds has found. -/
structure Scanned (c : Info) (buf : List UInt8) (start : ℕ) (sleb : Sleb) : Prop where
  low : 0≤ sleb.endpt
  high : sleb.endpt≤c.lebSize
  listed : Listed start sleb.endpt sleb.nodes
  blank : Blank buf sleb.endpt.toNat

/-- The scan ends, touches nothing outside of its buffer, and finds what it should. -/
def SafeScan (c : Info) (buf : List UInt8) (start : ℕ) : Prop :=
  ∀ env quiet,∃ fuel r,ubifsScan c env buf start quiet fuel=some r∧
    ∀ sleb,r=.ok sleb → Scanned c buf start sleb

theorem scanEnd_spec (hlen : buf.length=c.lebSize) (quiet ecc : Bool) (fuel : ℕ)
    (hfuel : c.lebSize<k+fuel) (h : Going c buf start k cur) :
    ∃ r,scanEnd c buf quiet ecc fuel cur=some r∧
      ∀ sleb,r=.ok sleb → Scanned c buf start sleb := by
  unfold scanEnd
  by_cases hrest : cur.offs%c.minIoSize≠0
  · rw [if_pos hrest]
    obtain ⟨err,herr⟩ := corrupted_spec (α := Sleb) hlen h.stands.offs h.stands.pos h.stands.le quiet
    refine ⟨_,herr,fun sleb hsleb => ?_⟩
    cases hsleb
  rw [if_neg hrest]
  have hdvd : c.minIoSize∣k := by
    have hzero := not_not.mp hrest
    rw [h.stands.offs] at hzero
    exact Int.natCast_dvd_natCast.mp (Int.dvd_of_emod_eq_zero hzero)
  obtain ⟨words,l,hwords,hat,-,hle,hff⟩ := skipWords_spec hlen fuel hfuel h.stands
  obtain ⟨bytes,m,hbytes,hat',hblank⟩ := skipBytes_spec hlen fuel (by omega) hat
  rw [hwords,Option.bind_some,hbytes,Option.bind_some]
  by_cases hclean : bytes.2=true
  · rw [if_pos hclean]
    refine ⟨_,rfl,fun sleb hsleb => ?_⟩
    cases hsleb
    obtain ⟨e,he,-,-,-,-,hsame⟩ := align_spec h.stands.le
    rw [hsame hdvd] at he
    have hend : align cur.offs c.minIoSize=k := by rw [h.stands.offs,he]
    have hkle := h.stands.le
    refine ⟨?_,?_,?_,?_⟩
    · change 0≤align cur.offs c.minIoSize
      omega
    · change align cur.offs c.minIoSize≤_
      omega
    · rw [hend]
      exact h.listed
    · rw [hend,Int.toNat_natCast]
      intro j hj hlt
      by_cases hin : j<l
      · exact hff j hj hin
      · exact hblank hclean j (Nat.le_of_not_lt hin) hlt
  · rw [if_neg hclean]
    obtain ⟨err,herr⟩ := corrupted_spec (α := Sleb) hlen hat'.offs hat'.pos hat'.le quiet
    refine ⟨_,herr,fun sleb hsleb => ?_⟩
    cases hsleb

/-- A scan on whose way no length overflows is safe. -/
theorem ubifsScan_safe (hlen : buf.length=c.lebSize) (hle : start≤c.lebSize) (hal : 8∣start)
    (hno : Bounded c buf start) : SafeScan c buf start := by
  intro env quiet
  refine ⟨c.lebSize+1,?_⟩
  unfold ubifsScan
  rcases ubifsStartScan env with err | ecc
  · refine ⟨_,rfl,fun sleb hsleb => ?_⟩
    cases hsleb
  dsimp only
  obtain ⟨r,hr,hend⟩ := scanLoop_spec env hlen hno quiet (c.lebSize+1) (by omega)
    (Going.init hle hal)
  rw [hr,Option.bind_some]
  rcases r with err | cur
  · refine ⟨_,rfl,fun sleb hsleb => ?_⟩
    cases hsleb
  · obtain ⟨l,-,hgoing⟩ := hend cur rfl
    exact scanEnd_spec hlen quiet ecc (c.lebSize+1) (by omega) hgoing

end ArdroneKernel.UbifsScan
