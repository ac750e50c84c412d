import ArdroneKernel.UbifsWbufBytes

/-!
# Where a write-buffer writes

The writes of a write-buffer are whole units of minimal size, and each begins where the last
ended.
-/

namespace ArdroneKernel.UbifsWbuf

variable {β : Type} {c : Info}

/-- Writes to a LEB that follow one another from one offset to another, in whole units. -/
inductive Chained (c : Info) (lnum : ℕ) : ℕ → List (Written β) → ℕ → Prop where
  | nil (a : ℕ) : Chained c lnum a [] a
  | cons {a b : ℕ} {bytes : List β} {l : List (Written β)} :
    0<bytes.length → c.minIoSize∣bytes.length → Chained c lnum (a+bytes.length) l b →
    Chained c lnum a (⟨lnum,a,bytes⟩::l) b

/-- Nothing was written to a LEB at an offset or behind it. -/
def Erased (flash : List (Written β)) (lnum offs : ℕ) : Prop :=
  ∀ x∈flash,x.lnum=lnum → x.offs+x.bytes.length≤offs

/-- In no LEB anything was written to a place of an earlier write, or before one. -/
def Ordered (flash : List (Written β)) : Prop :=
  flash.Pairwise fun x y => x.lnum=y.lnum → x.offs+x.bytes.length≤y.offs

/-- Where a write-buffer is in its LEB. -/
structure Placed (c : Info) (d : Disk β) (lnum : ℕ) : Prop where
  seeked : d.w.lnum=some lnum
  offs : c.minIoSize∣d.w.offs
  size : c.minIoSize∣d.w.size
  room : d.w.offs+d.w.size≤c.lebSize
  /-- The buffer ends with a write unit, or with the LEB. -/
  last : d.w.offs+d.w.size=c.lebSize∨c.maxWriteSize∣d.w.offs+d.w.size
  used : 8∣d.w.used
  erased : Erased d.flash lnum d.w.offs

variable {d : Disk β} {lnum a b : ℕ} {l : List (Written β)} {offs : ℕ}

/-! ## Chains -/

theorem Chained.one (lnum a : ℕ) {bytes : List β} (hpos : 0<bytes.length)
    (hunit : c.minIoSize∣bytes.length) : Chained c lnum a [⟨lnum,a,bytes⟩] (a+bytes.length) :=
  .cons hpos hunit (.nil _)

theorem Chained.append {e : ℕ} {l' : List (Written β)} (h : Chained c lnum a l b)
    (h' : Chained c lnum b l' e) : Chained c lnum a (l++l') e := by
  induction h with
  | nil => exact h'
  | cons hpos hunit _ ih => exact .cons hpos hunit (ih h')

/-- Behind a chain all is erased that was erased behind its start. -/
theorem Chained.erased {flash : List (Written β)} (h : Chained c lnum a l b)
    (ha : Erased flash lnum a) : Erased (flash++l) lnum b := by
  induction h generalizing flash with
  | nil => rwa [List.append_nil]
  | cons hpos hunit hrest ih =>
    rw [List.append_cons]
    refine ih fun x hx hl => ?_
    rcases List.mem_append.mp hx with hx|hx
    · exact Nat.le_add_right_of_le (ha x hx hl)
    · rw [List.mem_singleton.mp hx]

/-- A chain in erased space keeps the order. -/
theorem Chained.ordered {flash : List (Written β)} (h : Chained c lnum a l b)
    (ha : Erased flash lnum a) (hflash : Ordered flash) : Ordered (flash++l) := by
  induction h generalizing flash with
  | nil => rwa [List.append_nil]
  | cons hpos hunit hrest ih =>
    rw [List.append_cons]
    refine ih ((Chained.one _ _ hpos hunit).erased ha) ?_
    refine List.pairwise_append.mpr ⟨hflash,List.pairwise_singleton _ _,fun x hx y hy hl => ?_⟩
    rw [List.mem_singleton.mp hy] at hl ⊢
    exact ha x hx hl

/-! ## Sizes -/

/-- The units that a write-buffer is for. -/
structure Info.Units (c : Info) : Prop where
  eight : 8≤c.minIoSize
  unit : ∃ k,c.minIoSize=2^k
  write : ∃ k,c.maxWriteSize=2^k
  dvd : c.minIoSize∣c.maxWriteSize
  leb : c.minIoSize∣c.lebSize

namespace Info.Units

variable (hc : c.Units)
include hc

theorem write_pos : 0<c.maxWriteSize := by
  have ⟨k,hk⟩ := hc.write
  rw [hk]
  exact Nat.two_pow_pos k

theorem eight_dvd : 8∣c.minIoSize := by
  have ⟨k,hk⟩ := hc.unit
  have height := hc.eight
  rw [hk] at height ⊢
  have hle : 3≤k := (Nat.pow_le_pow_iff_right (Nat.lt_succ_self 1)).mp height
  exact pow_dvd_pow 2 hle

end Info.Units

/-- A new size for a buffer at an offset. -/
structure Fits (c : Info) (offs size : ℕ) : Prop where
  unit : c.minIoSize∣size
  room : offs+size≤c.lebSize
  last : offs+size=c.lebSize∨c.maxWriteSize∣offs+size

theorem fits_rest (hc : c.Units) (hoffs : c.minIoSize∣offs) (hle : offs≤c.lebSize) :
    Fits c offs (c.lebSize-offs) where
  unit := Nat.dvd_sub hc.leb hoffs
  room := by omega
  last := .inl (by omega)

theorem fits_whole (hc : c.Units) (hoffs : c.maxWriteSize∣offs)
    (hroom : c.maxWriteSize≤c.lebSize-offs) : Fits c offs c.maxWriteSize where
  unit := hc.dvd
  room := by
    have hpos := hc.write_pos
    omega
  last := .inr (Nat.dvd_add hoffs (dvd_refl _))

theorem fits_sizeAt (hc : c.Units) (hoffs : c.minIoSize∣offs) (hle : offs≤c.lebSize) :
    Fits c offs (sizeAt c offs) := by
  have hpos := hc.write_pos
  unfold sizeAt
  split
  · exact fits_rest hc hoffs hle
  next hroom =>
    split
    · have hup : align offs c.maxWriteSize<offs+c.maxWriteSize ∧offs≤align offs c.maxWriteSize := by
        unfold align
        have hmod := Nat.div_add_mod' (offs+(c.maxWriteSize-1)) c.maxWriteSize
        have hlt := Nat.mod_lt (offs+(c.maxWriteSize-1)) hpos
        omega
      have halign : c.maxWriteSize∣align offs c.maxWriteSize := Nat.dvd_mul_left _ _
      have hsum : offs+(align offs c.maxWriteSize-offs)=align offs c.maxWriteSize := by omega
      refine ⟨Nat.dvd_sub (hc.dvd.trans halign) hoffs,by omega,.inr ?_⟩
      rwa [hsum]
    next haligned =>
      exact fits_whole hc (Nat.dvd_of_mod_eq_zero (not_not.mp haligned)) (by omega)

/-- After a whole write unit, or at the end of the LEB. -/
theorem fits_nextSize (hc : c.Units) (hoffs : c.minIoSize∣offs) (hle : offs≤c.lebSize)
    (hlast : offs=c.lebSize∨c.maxWriteSize∣offs) :
    Fits c offs (nextSize c offs) := by
  have hpos := hc.write_pos
  unfold nextSize
  split
  next hroom =>
    rcases hlast with heq|hdvd
    · omega
    · exact fits_whole hc hdvd hroom
  · exact fits_rest hc hoffs hle

theorem align_le_size {n size : ℕ} (hpos : 0<c.minIoSize) (hunit : c.minIoSize∣size)
    (hle : n≤ size) : n≤align n c.minIoSize∧align n c.minIoSize≤ size := by
  have ⟨q,hq⟩ := hunit
  have hdiv := Nat.div_add_mod' (n+(c.minIoSize-1)) c.minIoSize
  have hlt := Nat.mod_lt (n+(c.minIoSize-1)) hpos
  unfold align
  refine ⟨by omega,?_⟩
  have hquot : (n+(c.minIoSize-1))/c.minIoSize<q+1 := by
    refine Nat.div_lt_of_lt_mul ?_
    rw [Nat.mul_add,← hq,Nat.mul_one]
    omega
  rw [hq,Nat.mul_comm c.minIoSize]
  exact Nat.mul_le_mul_right _ (Nat.le_of_lt_succ hquot)

/-! ## The operations -/

/-- What an operation writes to the LEB of the buffer, from where the buffer was to where it is. -/
structure Advanced (c : Info) (d d' : Disk β) (lnum : ℕ) : Prop where
  chained : ∃ l,d'.flash=d.flash++l∧Chained c lnum d.w.offs l d'.w.offs
  placed : Placed c d' lnum

/-- The buffer at a new offset, after what was written up to there. -/
theorem Placed.advance (h : Placed c d lnum) {d' : Disk β} {l : List (Written β)}
    (hl : Chained c lnum d.w.offs l d'.w.offs) (hflash : d'.flash=d.flash++l)
    (hlnum : d'.w.lnum=some lnum) (hoffs : c.minIoSize∣d'.w.offs) (hused : 8∣d'.w.used)
    (hfits : Fits c d'.w.offs d'.w.size) : Advanced c d d' lnum where
  chained := ⟨l,hflash,hl⟩
  placed := by
    refine ⟨hlnum,hoffs,hfits.unit,hfits.room,hfits.last,hused,?_⟩
    rw [hflash]
    exact hl.erased h.erased

theorem Placed.sync (hc : c.Units) (h : Placed c d lnum) (hs : Sized c d.w) (pad : β) :
    ∃ d',ubifsWbufSync c pad false true d=(true,d')∧Advanced c d d' lnum∧d'.w.used=0 := by
  have hpos : 0<c.minIoSize := Nat.lt_of_lt_of_le (by decide) hc.eight
  unfold ubifsWbufSync
  rw [h.seeked]
  dsimp only
  split
  next hzero => exact ⟨d,rfl,⟨⟨[],(List.append_nil _).symm,.nil _⟩,h⟩,hzero⟩
  next hused =>
    have ⟨hge,hle⟩ := align_le_size hpos h.size hs.fits
    have hroom := h.room
    have hunit : c.minIoSize∣align d.w.used c.minIoSize := Nat.dvd_mul_left _ _
    have hlen : (d.w.buf++List.replicate (align d.w.used c.minIoSize-d.w.used) pad).length=
        align d.w.used c.minIoSize := by
      rw [List.length_append,List.length_replicate]
      exact Nat.add_sub_cancel' hge
    have hoffs := Nat.dvd_add h.offs hunit
    have hend : d.w.offs+align d.w.used c.minIoSize≤c.lebSize := by omega
    refine ⟨_,rfl,h.advance ?_ rfl h.seeked hoffs ⟨0,rfl⟩ (fits_sizeAt hc hoffs hend),rfl⟩
    have hone : Chained c lnum d.w.offs [⟨lnum,d.w.offs,_⟩] (d.w.offs+_) :=
      .one lnum d.w.offs (by rw [hlen]; omega) (by rwa [hlen])
    rwa [hlen] at hone

/-- What is left of a node goes to flash in whole units from a whole unit on. -/
theorem Placed.writeRest (hc : c.Units) (h : Placed c d lnum) {e : Disk β} (rest : List β)
    (hew : e.w=d.w) (hflash : e.flash=d.flash++l) (hl : Chained c lnum d.w.offs l offs)
    (hoffs : c.maxWriteSize∣offs) (hroom : offs+rest.length≤c.lebSize) (height : 8∣rest.length) :
    ∃ d',writeRest c true e lnum offs rest=(true,d')∧Advanced c d d' lnum := by
  have hdm := Nat.div_add_mod' rest.length c.maxWriteSize
  have hle := Nat.div_mul_le_self rest.length c.maxWriteSize
  have hunit : c.maxWriteSize∣rest.length/c.maxWriteSize*c.maxWriteSize := Nat.dvd_mul_left _ _
  unfold UbifsWbuf.writeRest
  dsimp only
  generalize rest.length/c.maxWriteSize*c.maxWriteSize=n at hdm hle hunit
  rw [if_neg fun hfail => nomatch hfail.2]
  have hnew := Nat.dvd_add hoffs hunit
  have hmin := hc.dvd.trans hnew
  have hend : offs+n≤c.lebSize := by omega
  have h8 : 8∣n := (hc.eight_dvd.trans hc.dvd).trans hunit
  have hlen : (rest.take n).length=n := List.length_take_of_le hle
  have hused : 8∣(rest.drop n).length := by
    rw [List.length_drop]
    exact Nat.dvd_sub height h8
  by_cases hn : n≠0
  · rw [if_pos hn,hew,hflash,List.append_assoc]
    refine ⟨_,rfl,h.advance (hl.append ?_) rfl h.seeked hmin hused
      (fits_nextSize hc hmin hend (.inr hnew))⟩
    have hone : Chained c lnum offs [⟨lnum,offs,rest.take n⟩] (offs+_) :=
      .one lnum offs (by rw [hlen]; omega) (by rw [hlen]; exact hc.dvd.trans hunit)
    rwa [hlen] at hone
  · have hzero := not_not.mp hn
    rw [if_neg hn,hew,hflash]
    refine ⟨_,rfl,h.advance ?_ rfl h.seeked hmin hused
      (fits_nextSize hc hmin hend (.inr hnew))⟩
    rw [hzero]
    exact hl

/-- A write finds no room, or goes on where the buffer is. -/
theorem Placed.write (hc : c.Units) (h : Placed c d lnum) (hs : Sized c d.w) {buf : List β}
    (height : 8∣buf.length) (hpos : 0<buf.length) :
    ubifsWbufWrite c (fun _ => true) d buf=(false,d)∧c.lebSize<d.w.offs+d.w.used+buf.length∨
      ∃ d',ubifsWbufWrite c (fun _ => true) d buf=(true,d')∧
        d.w.offs+d.w.used+buf.length≤c.lebSize∧Advanced c d d' lnum := by
  have havail : d.w.used+d.w.avail=d.w.size := Nat.add_sub_cancel' hs.fits
  have hroom := h.room
  have hwhole : Chained c lnum d.w.offs ([] : List (Written β)) d.w.offs := .nil _
  unfold ubifsWbufWrite
  dsimp only
  rw [h.seeked]
  dsimp only
  split
  next hspace => exact .inl ⟨rfl,hspace⟩
  next hspace =>
    have hend : d.w.offs+d.w.used+buf.length≤c.lebSize := Nat.le_of_not_lt hspace
    right
    have hsizeOffs := Nat.dvd_add h.offs h.size
    split
    next hle =>
      split
      next heq =>
        have hlen : (d.w.buf++buf).length=d.w.size := by
          rw [List.length_append,heq]
          exact havail
        have hsize : 0<d.w.size := by omega
        refine ⟨_,rfl,hend,h.advance ?_ rfl rfl hsizeOffs ⟨0,rfl⟩
          (fits_nextSize hc hsizeOffs hroom h.last)⟩
        have hone : Chained c lnum d.w.offs [⟨lnum,d.w.offs,d.w.buf++buf⟩] (d.w.offs+_) :=
          .one lnum d.w.offs (by rwa [hlen]) (by rw [hlen]; exact h.size)
        rwa [hlen] at hone
      next hne =>
        refine ⟨_,rfl,hend,h.advance hwhole (List.append_nil _).symm rfl h.offs ?_
          ⟨h.size,hroom,h.last⟩⟩
        unfold Wbuf.used
        rw [List.length_append]
        exact Nat.dvd_add h.used height
    next hbig =>
      -- The rest does not fit, so the buffer ends with a write unit.
      have hlast : d.w.used+d.w.avail+1≤d.w.used+buf.length →
          c.maxWriteSize∣d.w.offs+d.w.size := by
        intro hlt
        rcases h.last with heq|hdvd
        · omega
        · exact hdvd
      have hdvd := hlast (by omega)
      have h8size : 8∣d.w.size := hc.eight_dvd.trans h.size
      split
      next hused =>
        have htake : (d.w.buf++buf.take d.w.avail).length=d.w.size := by
          rw [List.length_append,List.length_take_of_le (by omega)]
          exact havail
        have hone : Chained c lnum d.w.offs [⟨lnum,d.w.offs,d.w.buf++buf.take d.w.avail⟩]
            (d.w.offs+_) := .one lnum d.w.offs (by rw [htake]; omega) (by rw [htake]; exact h.size)
        rw [htake] at hone
        have hrest : (buf.drop d.w.avail).length=buf.length-d.w.avail := List.length_drop
        have h8avail : 8∣d.w.avail := Nat.dvd_sub h8size h.used
        have ⟨d',heq,hadv⟩ := h.writeRest hc (buf.drop d.w.avail)
          (e := {d with flash := d.flash++[⟨lnum,d.w.offs,d.w.buf++buf.take d.w.avail⟩]})
          rfl rfl hone hdvd (by omega) (by rw [hrest]; exact Nat.dvd_sub height h8avail)
        exact ⟨d',heq,hend,hadv⟩
      next hused =>
        split
        next hoffs =>
          have htake : (buf.take d.w.size).length=d.w.size := List.length_take_of_le (by omega)
          have hsize : d.w.size≠0 := by
            intro hempty
            rw [hempty,Nat.add_zero] at hdvd
            exact hoffs (Nat.mod_eq_zero_of_dvd hdvd)
          have hone : Chained c lnum d.w.offs [⟨lnum,d.w.offs,buf.take d.w.size⟩] (d.w.offs+_) :=
            .one lnum d.w.offs (by rw [htake]; omega) (by rw [htake]; exact h.size)
          rw [htake] at hone
          have hrest : (buf.drop d.w.size).length=buf.length-d.w.size := List.length_drop
          have ⟨d',heq,hadv⟩ := h.writeRest hc (buf.drop d.w.size)
            (e := {d with flash := d.flash++[⟨lnum,d.w.offs,buf.take d.w.size⟩]})
            rfl rfl hone hdvd (by omega) (by rw [hrest]; exact Nat.dvd_sub height h8size)
          exact ⟨d',heq,hend,hadv⟩
        next hoffs =>
          have ⟨d',heq,hadv⟩ := h.writeRest hc buf (e := d) rfl (List.append_nil _).symm hwhole
            (Nat.dvd_of_mod_eq_zero (not_not.mp hoffs)) (by omega) height
          exact ⟨d',heq,hend,hadv⟩

end ArdroneKernel.UbifsWbuf
