import ArdroneKernel.UbiSession
import Mathlib.Tactic.Ring

/-!
# Where the requests of a volume reach

Every access of a request to a LEB stays inside the volume and every copy
inside its buffer, in the runs where the sizes given to the two session
requests fit the volume, sessions start in order, and no read or direct write
starts behind the data.
-/

namespace ArdroneKernel.UbiVolumeBounds

open UbiVolumeDevice UbiSession

/-- An access to the LEBs of the volume, or inside a buffer. -/
def InRange (g : Geometry) : Access → Prop
  | .readLeb lnum offset len => 0≤lnum∧lnum<g.reservedPebs∧offset+len≤g.usableLebSize
  | .writeLeb lnum offset len _ => 0≤lnum∧lnum<g.reservedPebs∧offset+len≤g.usableLebSize
  | .writeLebSt lnum len _ _ => 0≤lnum∧lnum<g.reservedPebs∧len≤g.usableLebSize
  | .atomicLebChange lnum len _ => 0≤lnum∧lnum<g.reservedPebs∧len≤g.usableLebSize
  | .unmapLeb lnum => 0≤lnum∧lnum<g.reservedPebs
  | .store size offset len => len=0∨offset+len≤ size
  | .transfer _ => True
  | .changeRecord _ => True
  | .flush => True

instance (g : Geometry) : DecidablePred (InRange g)
  | .readLeb .. => inferInstanceAs (Decidable (_∧_))
  | .writeLeb .. => inferInstanceAs (Decidable (_∧_))
  | .writeLebSt .. => inferInstanceAs (Decidable (_∧_))
  | .atomicLebChange .. => inferInstanceAs (Decidable (_∧_))
  | .unmapLeb .. => inferInstanceAs (Decidable (_∧_))
  | .store .. => inferInstanceAs (Decidable (_∨_))
  | .transfer .. => inferInstanceAs (Decidable True)
  | .changeRecord .. => inferInstanceAs (Decidable True)
  | .flush => inferInstanceAs (Decidable True)

/-- The bytes carried to or from the user. -/
def transferred : List Access → ℕ
  | [] => 0
  | .transfer len::log => len+transferred log
  | _::log => transferred log

/-- The count of a read or of a direct write. -/
def requested (s : State) : Request → Option ℕ
  | .write _ count _ _ => if InSession s then none else some count
  | .read count _ _ => some count
  | _ => none

/-- A request reaches nothing outside the volume and its buffers, and carries
no more than it was asked for. -/
def Bounded (g : Geometry) (s : State) (r : Request) : Prop :=
  (∀ a∈(step g s r).log,InRange g a)∧
    ∀ count∈requested s r,transferred (step g s r).log≤count

/-- Counts are below `2^31` and offsets are non-negative 64-bit numbers. -/
def InDomain : Request → Prop
  | .write _ count offp _ => count<2^31∧offp<2^63
  | .read count offp _ => count<2^31∧offp<2^63
  | _ => True

/-- The data of a volume lies in its LEBs. -/
structure ValidVolume (g : Geometry) (v : Volume) : Prop where
  used : v.usedBytes≤g.reservedPebs*g.usableLebSize
  ebs : v.usedEbs≤g.reservedPebs
  last : v.lastEbBytes≤g.usableLebSize

/-- The requests that stay in range: session requests whose data fits, on an
idle volume, and transfers that do not start behind the data. -/
def Proper (g : Geometry) (s : State) : Request → Prop
  | .volup bytes st => volupAccepted g s st bytes →
    ¬InSession s∧updateStarts g s st bytes∧bytes≤(g.reservedPebs*g.usableLebSize : ℕ)
  | .ebch lnum bytes dtype st => ebchAccepted g s st lnum bytes dtype → bytes≠0 →
    ¬InSession s∧st.vmalloc=true∧bytes≤g.usableLebSize∧(g.minIoSize : ℤ)∣bytes
  | .write _ _ offp _ => ¬InSession s → s.vol.directWrites=true → g.volType=.dynamic →
    offp≤ s.vol.usedBytes
  | .read count offp _ => s.vol.updating=false → s.vol.updMarker=false → count≠0 →
    offp≤ s.vol.usedBytes
  | _ => True

/-! ## Arithmetic -/

variable (g : Geometry) {n : ℕ} {s : State} {m off len count : ℕ} {lnum : ℤ}

theorem usable_pos : 0<g.usableLebSize := Nat.sub_pos_of_lt g.pad_lt

theorem usable_le : g.usableLebSize≤g.lebSize := Nat.sub_le _ _

theorem minIo_pos : 0<g.minIoSize :=
  Nat.pos_of_dvd_of_pos g.io_dvd (usable_pos g)

theorem align_le {x a n : ℕ} (ha : 0<a) (hx : x≤n) (hn : a∣n) : align x a≤n := by
  have ⟨q,hq⟩ := hn
  subst hq
  have h : (x+(a-1))/a≤q := by
    refine Nat.lt_succ_iff.mp ((Nat.div_lt_iff_lt_mul ha).mpr ?_)
    calc x+(a-1)<a*q+a := by omega
      _=(q+1)*a := by ring
  calc (x+(a-1))/a*a≤q*a := Nat.mul_le_mul_right a h
    _=a*q := Nat.mul_comm q a

theorem le_align {a : ℕ} (x : ℕ) (ha : 0<a) : x≤align x a := by
  have h := Nat.div_add_mod (x+(a-1)) a
  have hm := Nat.mod_lt (x+(a-1)) ha
  unfold align
  rw [Nat.mul_comm]
  omega

theorem trimmed_le (buf : ℕ → UInt8) (n : ℕ) : trimmed buf n≤n := by
  induction n with
  | zero => exact le_refl 0
  | succ n ih =>
    unfold trimmed
    split <;> omega

theorem calcDataLen_le (buf : ℕ → UInt8) (h : n≤g.usableLebSize) :
    calcDataLen g.minIoSize buf n≤g.usableLebSize :=
  align_le (minIo_pos g) ((trimmed_le buf n).trans h) g.io_dvd

theorem toInt_natCast (h : n<2^31) : toInt n=n := by
  exact Int.bmod_eq_of_le (by omega) (by omega)

theorem div_usable_lt (h : n≤g.reservedPebs*g.usableLebSize) :
    n/g.usableLebSize<2^31 :=
  lt_of_le_of_lt ((Nat.div_le_iff_le_mul_add_pred (usable_pos g)).mpr (by
    rw [Nat.mul_comm]
    omega)) g.rsvd_int

/-- The clipped count of a transfer that starts inside the data. -/
theorem clipCount_eq {v : Volume} (hv : ValidVolume g v) {count offp : ℕ} (hc : count<2^31)
    (ho : offp≤v.usedBytes) : clipCount v count offp=min count (v.usedBytes-offp) := by
  have hr : g.reservedPebs*g.usableLebSize≤2^31*2^31 := by
    have h := usable_le g
    have hl := g.leb_int
    exact Nat.mul_le_mul g.rsvd_int.le (by omega)
  have hu := hv.used
  have hw : toLoff (offp+count)=offp+count := by
    exact Int.bmod_eq_of_le (by omega) (by omega)
  unfold clipCount
  rw [hw]
  by_cases hg : (offp : ℤ)+count>v.usedBytes
  · rw [if_pos hg]
    unfold toSize
    have hm : ((v.usedBytes : ℤ)-offp)%2^32=((v.usedBytes-offp : ℕ) : ℤ) := by
      omega
    rw [hm,Int.toNat_natCast,Nat.min_eq_right (by omega)]
  · rw [if_neg hg,Nat.min_eq_left (by omega)]

/-! ## Logs -/

/-- Everything asked for so far is in range. -/
def Clean (g : Geometry) (s : State) : Prop := ∀ a∈s.log,InRange g a

theorem Clean.emit {g : Geometry} (h : Clean g s) {a : Access} (ha : InRange g a) :
    Clean g (s.emit a) := by
  intro b hb
  simp only [State.emit,List.mem_append,List.mem_singleton] at hb
  cases hb with
  | inl hb => exact h b hb
  | inr hb => exact hb▸ha

theorem Clean.store {g : Geometry} (h : Clean g s) {off len : ℕ} {f : ℕ → UInt8}
    (hl : len=0∨off+len≤ s.bufSize) : Clean g (s.store off len f) := by
  unfold State.store
  cases s.vol.updBuf with
  | none => exact h.emit hl
  | some i => exact h.emit hl

theorem transferred_append (xs ys : List Access) :
    transferred (xs++ys)=transferred xs+transferred ys := by
  induction xs with
  | nil => simp [transferred]
  | cons x xs ih => cases x <;> simp [transferred,ih,Nat.add_assoc]

@[simp] theorem emit_log (s : State) (a : Access) : (s.emit a).log=s.log++[a] := rfl

/-- One round of a transfer: what is left of the position, and what is left to do. -/
theorem advance (hm : m*g.usableLebSize+off+count≤g.reservedPebs*g.usableLebSize) (hl : len≤count)
    (hfit : off+len≤g.usableLebSize) :
    ∃ m' off' : ℕ,(if off+len=g.usableLebSize then ((m : ℤ)+1,off+len-g.usableLebSize)
        else ((m : ℤ),off+len))=((m' : ℤ),off')∧off'<g.usableLebSize∧
      m'*g.usableLebSize+off'+(count-len)≤g.reservedPebs*g.usableLebSize := by
  by_cases he : off+len=g.usableLebSize
  · refine ⟨m+1,0,?_,usable_pos g,?_⟩
    · rw [if_pos he,he]
      simp
    · rw [Nat.add_mul,Nat.one_mul]
      omega
  · refine ⟨m,off+len,by rw [if_neg he],by omega,by omega⟩

/-- A LEB in front of the end of a transfer is in the volume. -/
theorem lnum_lt (g : Geometry) {m off count : ℕ} (hc : 0<count)
    (hm : m*g.usableLebSize+off+count≤g.reservedPebs*g.usableLebSize) : m<g.reservedPebs := by
  by_contra h
  have := Nat.mul_le_mul_right g.usableLebSize (not_lt.mp h)
  omega

theorem readLoop_bounds (st : Steps) {size : ℕ} (fuel : ℕ) (k : ℕ) (hoff : off<g.usableLebSize)
    (hm : m*g.usableLebSize+off+count≤g.reservedPebs*g.usableLebSize) (hc : 0<count)
    (hl : len≤count) (hs : len≤ size) (h : Clean g s) :
    Clean g (readLoop g st size fuel s k m off len count).1∧
      transferred (readLoop g st size fuel s k m off len count).1.log≤transferred s.log+count := by
  induction fuel generalizing s k m off len count with
  | zero => exact ⟨h,Nat.le_add_right _ _⟩
  | succ fuel ih =>
    have hlnum := lnum_lt g hc hm
    unfold readLoop
    have hclamp : (if off+len≥g.usableLebSize then g.usableLebSize-off else len)≤len∧
        off+(if off+len≥g.usableLebSize then g.usableLebSize-off else len)≤g.usableLebSize := by
      split <;> omega
    generalize (if off+len≥g.usableLebSize then g.usableLebSize-off else len)=l at hclamp ⊢
    obtain ⟨m',off',he,hoff',hm'⟩ := advance g hm (hclamp.1.trans hl) hclamp.2
    dsimp only
    rw [he]
    have h1 : Clean g (s.emit (.readLeb m off l)) :=
      h.emit ⟨Int.natCast_nonneg m,by exact_mod_cast hlnum,hclamp.2⟩
    have h2 : Clean g ((s.emit (.readLeb m off l)).emit (.store size 0 l)) :=
      h1.emit (Or.inr (by omega))
    have h3 : Clean g (((s.emit (.readLeb m off l)).emit (.store size 0 l)).emit (.transfer l)) :=
      h2.emit trivial
    have ht : transferred (((s.emit (.readLeb m off l)).emit (.store size 0 l)).emit
        (.transfer l)).log=transferred s.log+l := by
      simp [transferred_append,transferred]
    split
    · exact ⟨h2,by simp [transferred_append,transferred]⟩
    split
    · exact ⟨h3,by rw [ht]; omega⟩
    split
    · exact ⟨h3,by rw [ht]; omega⟩
    · obtain ⟨hi,hj⟩ := ih (k+1) hoff' hm' (by omega) (min_le_left _ _) (min_le_right _ _) h3
      exact ⟨hi,hj.trans (by rw [ht]; omega)⟩

theorem directWriteLoop_bounds (st : Steps) (data : ℕ → UInt8) {size : ℕ} (fuel : ℕ) (k pos : ℕ)
    (hoff : off<g.usableLebSize) (hm : m*g.usableLebSize+off+count≤g.reservedPebs*g.usableLebSize)
    (hl : len≤count) (hs : len≤ size) (h : Clean g s) :
    Clean g (directWriteLoop g st data size fuel s k pos m off len count).1∧
      transferred (directWriteLoop g st data size fuel s k pos m off len count).1.log≤
        transferred s.log+count := by
  induction fuel generalizing s k pos m off len count with
  | zero => exact ⟨h,Nat.le_add_right _ _⟩
  | succ fuel ih =>
    unfold directWriteLoop
    split
    · exact ⟨h,Nat.le_add_right _ _⟩
    next hc =>
    have hlnum := lnum_lt g (Nat.pos_of_ne_zero hc) hm
    have hclamp : (if off+len≥g.usableLebSize then g.usableLebSize-off else len)≤len∧
        off+(if off+len≥g.usableLebSize then g.usableLebSize-off else len)≤g.usableLebSize := by
      split <;> omega
    generalize (if off+len≥g.usableLebSize then g.usableLebSize-off else len)=l at hclamp ⊢
    obtain ⟨m',off',he,hoff',hm'⟩ := advance g hm (hclamp.1.trans hl) hclamp.2
    dsimp only
    rw [he]
    have h1 : Clean g (s.emit (.store size 0 l)) := h.emit (Or.inr (by omega))
    have h2 : Clean g ((s.emit (.store size 0 l)).emit (.transfer l)) := h1.emit trivial
    have h3 : Clean g (((s.emit (.store size 0 l)).emit (.transfer l)).emit
        (.writeLeb m off l fun i => data (pos+i))) :=
      h2.emit ⟨Int.natCast_nonneg m,by exact_mod_cast hlnum,hclamp.2⟩
    split
    · exact ⟨h2,by simp [transferred_append,transferred]; omega⟩
    have ht : transferred (((s.emit (.store size 0 l)).emit (.transfer l)).emit
        (.writeLeb m off l fun i => data (pos+i))).log=transferred s.log+l := by
      simp [transferred_append,transferred]
    split
    · exact ⟨h3,by rw [ht]; omega⟩
    · obtain ⟨hi,hj⟩ := ih (k+1) (pos+l) hoff' hm' (min_le_left _ _) (min_le_right _ _) h3
      exact ⟨hi,hj.trans (by rw [ht]; omega)⟩

theorem position (offp : ℕ) :
    offp/g.usableLebSize*g.usableLebSize+offp%g.usableLebSize=offp := by
  rw [Nat.mul_comm]
  exact Nat.div_add_mod offp g.usableLebSize

/-- A transfer of `c` bytes at `offp` that ends inside the volume. -/
theorem readBytes_bounds (st : Steps) (offp : ℕ) {c : ℕ} (hc : 0<c)
    (h : offp+c≤g.reservedPebs*g.usableLebSize) (hs : s.log=[]) :
    (∀ a∈(readBytes g s st offp c).1.log,InRange g a)∧
      transferred (readBytes g s st offp c).1.log≤c := by
  have hclean : Clean g s := by simp [Clean,hs]
  unfold readBytes
  dsimp only
  split
  · exact ⟨hclean,by simp [hs,transferred]⟩
  rw [toInt_natCast (div_usable_lt g (by omega))]
  have hpos := position g offp
  have ⟨hr,ht⟩ := readLoop_bounds g st c 0 (m := offp/g.usableLebSize)
    (Nat.mod_lt offp (usable_pos g)) (by omega) hc (min_le_left c (tbufSize g c))
    (min_le_right _ _) hclean
  rw [hs] at ht
  exact ⟨hr,ht.trans (by simp [transferred])⟩

theorem directWriteBytes_bounds (st : Steps) (data : ℕ → UInt8) (offp : ℕ) {c : ℕ}
    (h : offp+c≤g.reservedPebs*g.usableLebSize) (hs : s.log=[]) :
    (∀ a∈(directWriteBytes g s st data offp c).1.log,InRange g a)∧
      transferred (directWriteBytes g s st data offp c).1.log≤c := by
  have hclean : Clean g s := by simp [Clean,hs]
  have hzero : transferred s.log≤c := by simp [hs,transferred]
  unfold directWriteBytes
  dsimp only
  split
  · exact ⟨hclean,hzero⟩
  split
  · exact ⟨hclean,hzero⟩
  rw [toInt_natCast (div_usable_lt g (by omega))]
  have hpos := position g offp
  have ⟨hr,ht⟩ := directWriteLoop_bounds g st data c 0 0 (m := offp/g.usableLebSize)
    (Nat.mod_lt offp (usable_pos g)) (by omega) (min_le_left c (tbufSize g c))
    (min_le_right _ _) hclean
  rw [hs] at ht
  exact ⟨hr,ht.trans (by simp [transferred])⟩

theorem volCdevRead_bounds (st : Steps) {count offp : ℕ} (hv : ValidVolume g s.vol)
    (hc : count<2^31)
    (hp : s.vol.updating=false → s.vol.updMarker=false → count≠0 → offp≤ s.vol.usedBytes)
    (hs : s.log=[]) :
    (∀ a∈(volCdevRead g s st count offp).1.log,InRange g a)∧
      transferred (volCdevRead g s st count offp).1.log≤count := by
  have hnone : (∀ a∈s.log,InRange g a)∧transferred s.log≤count := by simp [hs,transferred]
  unfold volCdevRead
  split
  · exact hnone
  next h1 =>
  split
  · exact hnone
  next h2 =>
  split
  · exact hnone
  next h3 =>
  have hle := hp (by simpa using h1) (by simpa using h2) fun h => h3 (Or.inr h)
  have hu := hv.used
  have heq := clipCount_eq g hv hc hle
  have ⟨hr,ht⟩ := readBytes_bounds g st offp (c := clipCount s.vol count offp) (by omega) (by omega) hs
  exact ⟨hr,ht.trans (by omega)⟩

theorem volCdevDirectWrite_bounds (st : Steps) (data : ℕ → UInt8) {count offp : ℕ}
    (hv : ValidVolume g s.vol) (hc : count<2^31)
    (hp : s.vol.directWrites=true → g.volType=.dynamic → offp≤ s.vol.usedBytes) (hs : s.log=[]) :
    (∀ a∈(volCdevDirectWrite g s st data count offp).1.log,InRange g a)∧
      transferred (volCdevDirectWrite g s st data count offp).1.log≤count := by
  have hnone : (∀ a∈s.log,InRange g a)∧transferred s.log≤count := by simp [hs,transferred]
  unfold volCdevDirectWrite
  split
  · exact hnone
  next h1 =>
  split
  · exact hnone
  next h2 =>
  split
  · exact hnone
  have hdyn : g.volType=.dynamic := by
    cases ht : g.volType with
    | dynamic => rfl
    | static => exact absurd ht h2
  have hle := hp (by simpa using h1) hdyn
  have hu := hv.used
  have heq := clipCount_eq g hv hc hle
  have ⟨hr,ht⟩ := directWriteBytes_bounds g st data offp (c := clipCount s.vol count offp)
    (by omega) hs
  exact ⟨hr,ht.trans (by omega)⟩

/-! ## Sessions -/

/-- The data expected in a session fits the volume, and the buffer the data. -/
structure Sized (g : Geometry) (s : State) : Prop where
  update : s.vol.updating=true →
    s.vol.updBytes≤g.reservedPebs*g.usableLebSize∧s.bufSize=g.lebSize
  change : s.vol.changingLeb=true →
    s.vol.updBytes≤g.usableLebSize∧g.minIoSize∣s.vol.updBytes∧
      0≤ s.vol.chLnum∧s.vol.chLnum<g.reservedPebs∧s.bufSize=s.vol.updBytes

theorem keeps_bufSize {s s' : State} (h : Keeps s s') : s'.bufSize=s.bufSize := by
  unfold State.bufSize
  rw [h.updBuf,h.freed,h.bufs]

theorem keeps_sized {g : Geometry} {s s' : State} (h : Keeps s s') (hs : Sized g s) :
    Sized g s' where
  update := by
    rw [h.updating,h.updBytes,keeps_bufSize h]
    exact hs.update
  change := by
    rw [h.changing,h.updBytes,h.chLnum,keeps_bufSize h]
    exact hs.change

theorem sized_of_idle {g : Geometry} (h : ¬InSession s) : Sized g s where
  update := fun hu => absurd (Or.inl hu) h
  change := fun hc => absurd (Or.inr hc) h

theorem settles_sized {g : Geometry} {s s' : State} (h : Settles s s') (hs : Sized g s) :
    Sized g s' := by
  cases h with
  | inl h => exact keeps_sized h hs
  | inr h => exact sized_of_idle h.idle

/-- The size of the latest buffer. -/
theorem bufSize_fresh {s r : State} (c : Consistent s) {b : Buffer} (hb : r.bufs=s.bufs++[b])
    (hu : r.vol.updBuf=some s.bufs.length) (hf : r.freed=s.freed) : r.bufSize=b.size := by
  have hn : s.bufs.length∉s.freed := by
    intro hm
    have := c.allocated _ hm
    omega
  unfold State.bufSize
  rw [hu,hf,hb]
  simp [hn]

theorem clean_writeLeb {len : ℕ} (usedEbs err : ℤ) (h : Clean g s) (hb : g.usableLebSize≤ s.bufSize)
    (hl : len≤g.usableLebSize) (h0 : 0≤lnum) (hr : lnum<g.reservedPebs) :
    Clean g (writeLeb g s lnum len usedEbs err).1 := by
  unfold writeLeb
  cases g.volType with
  | dynamic =>
    dsimp only
    have ha := align_le (minIo_pos g) hl g.io_dvd
    have h1 : Clean g (s.store len (align len g.minIoSize-len) fun _ => 0xFF) :=
      h.store (Or.inr (by omega))
    split
    · exact h1
    · refine h1.emit ⟨h0,hr,?_⟩
      rw [Nat.zero_add]
      exact calcDataLen_le g _ ha
  | static => exact (h.store (Or.inr (by omega))).emit ⟨h0,hr,hl⟩

theorem clean_updatePiece (st : Steps) (data : ℕ → UInt8) (k pos : ℕ) {offs len : ℕ} (h : Clean g s)
    (hb : g.usableLebSize≤ s.bufSize) (hl : offs+len≤g.usableLebSize) (h0 : 0≤lnum)
    (hr : lnum<g.reservedPebs) :
    Clean g (updatePiece g s st data k pos lnum offs len).1 := by
  have h1 := same_store s offs len fun i => data (pos+(i-offs))
  have hc : Clean g (s.store offs len fun i => data (pos+(i-offs))) := h.store (Or.inr (by omega))
  have hb1 := keeps_bufSize h1.keeps
  unfold updatePiece
  generalize s.store offs len (fun i => data (pos+(i-offs)))=s1 at h1 hc hb1 ⊢
  dsimp only
  split
  · exact hc
  have h2 : Clean g (if offs+len=g.usableLebSize∨s1.vol.updReceived+len=s1.vol.updBytes then
      writeLeb g s1 lnum (offs+len) s1.vol.updEbs (st.leb k) else (s1,0)).1 := by
    split
    · exact clean_writeLeb g _ _ hc (by omega) hl h0 hr
    · exact hc
  generalize (if offs+len=g.usableLebSize∨s1.vol.updReceived+len=s1.vol.updBytes then
      writeLeb g s1 lnum (offs+len) s1.vol.updEbs (st.leb k) else (s1,0))=w at h2 ⊢
  split
  · exact h2
  · exact h2

theorem clean_updateLoop (st : Steps) (data : ℕ → UInt8) (fuel : ℕ) (k pos m count : ℕ)
    (h : Clean g s) (hb : g.usableLebSize≤ s.bufSize) (hr : s.vol.updReceived+count≤ s.vol.updBytes)
    (hm : count≠0 → s.vol.updReceived=m*g.usableLebSize)
    (hu : s.vol.updBytes≤g.reservedPebs*g.usableLebSize) :
    Clean g (updateLoop g st data fuel s k pos m count).1 := by
  induction fuel generalizing s k pos m count with
  | zero => exact h
  | succ fuel ih =>
    unfold updateLoop
    split
    · exact h
    next hc =>
    have hrec := hm hc
    have hlnum : m<g.reservedPebs := @lnum_lt g m 0 count (by omega) (by omega)
    have hle : min count g.usableLebSize≤count := min_le_left _ _
    have hle2 : min count g.usableLebSize≤g.usableLebSize := min_le_right _ _
    have hfull : count-min count g.usableLebSize≠0 → min count g.usableLebSize=g.usableLebSize := by
      omega
    generalize min count g.usableLebSize=len at hle hle2 hfull ⊢
    have h1 := clean_updatePiece g st data k pos h hb (by omega : 0+len≤_)
      (Int.natCast_nonneg m) (by exact_mod_cast hlnum)
    obtain ⟨hk,_⟩ := updatePiece_keeps g s st data k pos (m : ℤ) 0
      (show s.vol.updReceived+len≤ s.vol.updBytes by omega)
    obtain ⟨s1,fault,err,hsame,he⟩ := updatePiece_cases g s st data k pos m 0 len
    dsimp only
    rw [he] at h1 hk ⊢
    dsimp only at h1 hk ⊢
    by_cases hok : fault≠none∨err≠0
    · rw [if_pos hok]
      exact h1
    rw [if_neg hok] at h1 hk ⊢
    rw [if_neg hok]
    have hbuf := keeps_bufSize hk
    have hbytes := hk.updBytes
    have hrec1 : (s1.receive len).vol.updReceived=s.vol.updReceived+len := by
      simp [State.receive,hsame.vol]
    refine ih (k+1) (pos+len) (m+1) _ h1 (by omega) (by omega) (fun hne => ?_) (by omega)
    rw [hrec1,hrec,hfull hne]
    ring

theorem valid_updatePiece (st : Steps) (data : ℕ → UInt8) (k pos : ℕ) (lnum : ℤ) (offs len : ℕ)
    (h : ValidVolume g s.vol) :
    ValidVolume g (updatePiece g s st data k pos lnum offs len).1.vol := by
  have ⟨s1,fault,err,hsame,he⟩ := updatePiece_cases g s st data k pos lnum offs len
  have h1 : ValidVolume g s1.vol := hsame.vol.symm▸h
  rw [he]
  split
  · exact h1
  · exact ⟨h1.used,h1.ebs,h1.last⟩

theorem valid_updateLoop (st : Steps) (data : ℕ → UInt8) (fuel : ℕ) (k pos : ℕ) (lnum : ℤ)
    (count : ℕ) (h : ValidVolume g s.vol) :
    ValidVolume g (updateLoop g st data fuel s k pos lnum count).1.vol := by
  induction fuel generalizing s k pos lnum count with
  | zero => exact h
  | succ fuel ih =>
    unfold updateLoop
    split
    · exact h
    have h1 := valid_updatePiece g st data k pos lnum 0 (min count g.usableLebSize) h
    dsimp only
    split
    · exact h1
    · exact ih _ _ _ _ h1

/-- The data of an update that fits the volume lies in its LEBs. -/
theorem valid_newDataSize {v : Volume} {bytes : ℕ} (h : ValidVolume g v)
    (hb : bytes≤g.reservedPebs*g.usableLebSize) : ValidVolume g (newDataSize g v bytes) := by
  unfold newDataSize
  cases g.volType with
  | dynamic => exact h
  | static =>
    have hpos := position g bytes
    have hm := Nat.mod_lt bytes (usable_pos g)
    constructor
    · exact hb
    · dsimp only
      by_cases hr : bytes%g.usableLebSize≠0
      · rw [if_pos hr]
        exact @lnum_lt g (bytes/g.usableLebSize) 0 (bytes%g.usableLebSize)
          (Nat.pos_of_ne_zero hr) (by omega)
      · rw [if_neg hr]
        exact Nat.div_le_of_le_mul (by rw [Nat.mul_comm]; exact hb)
    · dsimp only
      split <;> omega

theorem updateEnd_bounds (st : Steps) (toWrite : ℕ) (err : ℤ) (h : Clean g s)
    (hv : ValidVolume g s.vol) (hu : s.vol.updBytes≤g.reservedPebs*g.usableLebSize) :
    Clean g (updateEnd g s st toWrite err).1∧
      ValidVolume g (updateEnd g s st toWrite err).1.vol := by
  unfold updateEnd
  split
  swap
  · exact ⟨h,hv⟩
  have h1 : Clean g (s.emit .flush) := h.emit trivial
  dsimp only
  split
  · exact ⟨h1,hv⟩
  have h2 : Clean g (clearUpdateMarker g (s.emit .flush) st (s.emit .flush).vol.updBytes).1 :=
    Clean.emit (s := { s.emit .flush with
      vol := { newDataSize g s.vol s.vol.updBytes with updMarker := false } }) h1 trivial
  have hv2 : ValidVolume g
      (clearUpdateMarker g (s.emit .flush) st (s.emit .flush).vol.updBytes).1.vol := by
    have k := valid_newDataSize g hv hu
    exact ⟨k.used,k.ebs,k.last⟩
  split
  · exact ⟨h2,hv2⟩
  · unfold State.vfree
    split
    · exact ⟨h2,hv2.used,hv2.ebs,hv2.last⟩
    · exact ⟨h2,hv2.used,hv2.ebs,hv2.last⟩

theorem moreUpdateData_bounds (st : Steps) (data : ℕ → UInt8) (count : ℕ) (h : Clean g s)
    (hv : ValidVolume g s.vol) (hr : s.vol.updReceived≤ s.vol.updBytes)
    (hu : s.vol.updBytes≤g.reservedPebs*g.usableLebSize) (hb : s.bufSize=g.lebSize) :
    Clean g (moreUpdateData g s st data count).1∧
      ValidVolume g (moreUpdateData g s st data count).1.vol := by
  have hsize := usable_le g
  have hpos := position g s.vol.updReceived
  have hoffs := Nat.mod_lt s.vol.updReceived (usable_pos g)
  have hdiv := div_usable_lt g (hr.trans hu)
  unfold moreUpdateData
  split
  · exact ⟨h,hv⟩
  rw [toInt_natCast hdiv]
  have hcount : s.vol.updReceived+(if s.vol.updReceived+count>s.vol.updBytes
      then s.vol.updBytes-s.vol.updReceived else count)≤ s.vol.updBytes := by
    split <;> omega
  generalize (if s.vol.updReceived+count>s.vol.updBytes
      then s.vol.updBytes-s.vol.updReceived else count)=count at hcount ⊢
  generalize s.vol.updReceived/g.usableLebSize=q at hpos ⊢
  generalize s.vol.updReceived%g.usableLebSize=offs at hpos hoffs ⊢
  by_cases ho : offs=0
  · subst ho
    simp only [ne_eq,not_true_eq_false,if_false,false_or,Nat.sub_zero]
    have h1 := clean_updateLoop g st data count 1 0 q count h (by omega) hcount (fun _ => by omega) hu
    have h2 := valid_updateLoop g st data count 1 0 q count hv
    have h3 := updateLoop_keeps g st data count s 1 0 q count hcount
    split
    · exact ⟨h1,h2⟩
    · exact updateEnd_bounds g st count _ h1 h2 (by rw [h3.updBytes]; exact hu)
  · simp only [ne_eq,ho,not_false_eq_true,if_true]
    have hq : q<g.reservedPebs := @lnum_lt g q 0 offs (Nat.pos_of_ne_zero ho) (by omega)
    have hhead : min (g.usableLebSize-offs) count≤count∧
        min (g.usableLebSize-offs) count≤g.usableLebSize-offs∧
        (count-min (g.usableLebSize-offs) count≠0 →
          min (g.usableLebSize-offs) count=g.usableLebSize-offs) := by omega
    generalize min (g.usableLebSize-offs) count=head at hhead ⊢
    have h1 := clean_updatePiece g st data 0 0 h (by omega) (by omega : offs+head≤_)
      (Int.natCast_nonneg q) (by exact_mod_cast hq)
    have hv1 := valid_updatePiece g st data 0 0 q offs head hv
    have ⟨hk,_⟩ := updatePiece_keeps g s st data 0 0 q offs
      (show s.vol.updReceived+head≤ s.vol.updBytes by omega)
    have ⟨s1,fault,err,hsame,he⟩ := updatePiece_cases g s st data 0 0 q offs head
    rw [he] at h1 hv1 hk ⊢
    dsimp only at h1 hv1 hk ⊢
    by_cases hok : fault≠none∨err≠0
    · rw [if_pos hok]
      exact ⟨h1,hv1⟩
    rw [if_neg hok] at h1 hv1 hk ⊢
    rw [if_neg hok]
    have hbuf := keeps_bufSize hk
    have hbytes := hk.updBytes
    have hrec1 : (s1.receive head).vol.updReceived=s.vol.updReceived+head := by
      simp [State.receive,hsame.vol]
    rw [←Nat.cast_succ]
    have h2 := clean_updateLoop g st data (count-head) 1 head (q+1) (count-head) h1
      (by omega) (by omega) (fun hne => by
        rw [hrec1,Nat.add_mul]
        omega) (by omega)
    have h3 := valid_updateLoop g st data (count-head) 1 head ((q+1 : ℕ) : ℤ) (count-head) hv1
    have h4 := updateLoop_keeps g st data (count-head) (s1.receive head) 1 head ((q+1 : ℕ) : ℤ)
      (count-head) (by omega)
    split
    · exact ⟨h2,h3⟩
    · exact updateEnd_bounds g st count _ h2 h3 (by rw [h4.updBytes,hbytes]; exact hu)

theorem vfree_log (s : State) : s.vfree.log=s.log := by
  unfold State.vfree
  cases s.vol.updBuf <;> rfl

theorem vfree_vol (s : State) : s.vfree.vol=s.vol := by
  unfold State.vfree
  cases s.vol.updBuf <;> rfl

theorem moreLebChangeData_bounds (st : Steps) (data : ℕ → UInt8) (count : ℕ) (h : Clean g s)
    (hv : ValidVolume g s.vol) (hr : s.vol.updReceived≤ s.vol.updBytes)
    (hu : s.vol.updBytes≤g.usableLebSize) (hio : g.minIoSize∣s.vol.updBytes) (h0 : 0≤ s.vol.chLnum)
    (hlt : s.vol.chLnum<g.reservedPebs) (hb : s.bufSize=s.vol.updBytes) :
    Clean g (moreLebChangeData g s st data count).1∧
      ValidVolume g (moreLebChangeData g s st data count).1.vol := by
  unfold moreLebChangeData
  split
  · exact ⟨h,hv⟩
  dsimp only
  have hcount : s.vol.updReceived+(if s.vol.updReceived+count>s.vol.updBytes
      then s.vol.updBytes-s.vol.updReceived else count)≤ s.vol.updBytes := by
    split <;> omega
  generalize (if s.vol.updReceived+count>s.vol.updBytes
      then s.vol.updBytes-s.vol.updReceived else count)=count at hcount ⊢
  have h1 := same_store s s.vol.updReceived count fun i => data (i-s.vol.updReceived)
  have c1 : Clean g (s.store s.vol.updReceived count fun i => data (i-s.vol.updReceived)) :=
    h.store (Or.inr (by omega))
  have b1 := keeps_bufSize h1.keeps
  generalize s.store s.vol.updReceived count (fun i => data (i-s.vol.updReceived))=s1
    at h1 c1 b1 ⊢
  have hv1 : ValidVolume g s1.vol := h1.vol.symm▸hv
  split
  · exact ⟨c1,hv1⟩
  split
  swap
  · exact ⟨c1,hv1.used,hv1.ebs,hv1.last⟩
  have hbytes : (s1.receive count).vol.updBytes=s.vol.updBytes := by
    simp [State.receive,h1.vol]
  have hch : (s1.receive count).vol.chLnum=s.vol.chLnum := by simp [State.receive,h1.vol]
  have halign : align s.vol.updBytes g.minIoSize=s.vol.updBytes :=
    le_antisymm (align_le (minIo_pos g) le_rfl hio) (le_align _ (minIo_pos g))
  rw [hbytes,halign,Nat.sub_self]
  have h3 := same_store (s1.receive count) s.vol.updBytes 0 fun _ => 0xFF
  have c3 : Clean g ((s1.receive count).store s.vol.updBytes 0 fun _ => 0xFF) :=
    Clean.store (s := s1.receive count) c1 (Or.inl rfl)
  generalize (s1.receive count).store s.vol.updBytes 0 (fun _ => 0xFF)=s3 at h3 c3 ⊢
  have hv3 : ValidVolume g s3.vol := by
    rw [h3.vol]
    exact ⟨hv1.used,hv1.ebs,hv1.last⟩
  have hc4 : Clean g (s3.emit (.atomicLebChange s3.vol.chLnum
      (calcDataLen g.minIoSize s3.bufBytes s.vol.updBytes) s3.bufBytes)) := by
    refine c3.emit ⟨?_,?_,calcDataLen_le g _ hu⟩
    · rw [h3.vol,hch]
      exact h0
    · rw [h3.vol,hch]
      exact hlt
  split
  · exact ⟨hc4,hv3⟩
  · refine ⟨?_,?_⟩
    · unfold Clean
      rw [vfree_log]
      exact hc4
    · rw [vfree_vol]
      exact ⟨hv3.used,hv3.ebs,hv3.last⟩

theorem clean_checkLoop (st : Steps) (i n : ℕ) (h : Clean g s)
    (hv : s.vol.lastEbBytes≤g.usableLebSize) (hi : i+n≤g.reservedPebs) :
    Clean g (checkLoop g st s i n).1 := by
  induction n generalizing s i with
  | zero => exact h
  | succ n ih =>
    unfold checkLoop
    have hs : (if i+1=s.vol.usedEbs then s.vol.lastEbBytes else g.usableLebSize)≤
        g.usableLebSize := by
      split <;> omega
    generalize (if i+1=s.vol.usedEbs then s.vol.lastEbBytes else g.usableLebSize)=size at hs ⊢
    have h1 : Clean g ((s.emit (.readLeb i 0 size)).emit (.store g.usableLebSize 0 size)) :=
      (Clean.emit (a := .readLeb i 0 size) h ⟨Int.natCast_nonneg i,by omega,by omega⟩).emit
        (Or.inr (by omega))
    split
    · exact h1
    · exact ih (i+1) h1 hv (by omega)

theorem clean_checkVolume (st : Steps) (h : Clean g s) (hv : ValidVolume g s.vol) :
    Clean g (checkVolume g s st).1 := by
  unfold checkVolume
  split
  · exact h
  split
  · exact h
  · exact clean_checkLoop g st 0 s.vol.usedEbs h hv.last (by rw [Nat.zero_add]; exact hv.ebs)

theorem revoke_bounds {g : Geometry} (m : OpenMode) (h : Clean g s) (hv : ValidVolume g s.vol) :
    Clean g (revokeExclusive s m)∧ValidVolume g (revokeExclusive s m).vol := by
  cases m <;> exact ⟨h,hv.used,hv.ebs,hv.last⟩

theorem volCdevWrite_bounds (st : Steps) (data : ℕ → UInt8) (count offp : ℕ) (c : Consistent s)
    (hz : Sized g s) (hv : ValidVolume g s.vol) (hs : s.log=[]) (hin : InSession s) :
    Clean g (volCdevWrite g s st data count offp).1∧
      ValidVolume g (volCdevWrite g s st data count offp).1.vol := by
  have h : Clean g s := by simp [Clean,hs]
  have ⟨_,_,_,_,_,_,hr⟩ := c.buffer hin
  unfold volCdevWrite
  rw [if_neg fun hno => hin.elim hno.1 hno.2]
  have hm : Clean g (if s.vol.updating=true then moreUpdateData g s st data count
      else moreLebChangeData g s st data count).1∧
      ValidVolume g (if s.vol.updating=true then moreUpdateData g s st data count
      else moreLebChangeData g s st data count).1.vol := by
    by_cases hu : s.vol.updating=true
    · rw [if_pos hu]
      have ⟨hb,hsz⟩ := hz.update hu
      exact moreUpdateData_bounds g st data count h hv hr hb hsz
    · rw [if_neg hu]
      have ⟨hb,hio,h0,hlt,hsz⟩ := hz.change (hin.resolve_left hu)
      exact moreLebChangeData_bounds g st data count h hv hr hb hio h0 hlt hsz
  generalize (if s.vol.updating=true then moreUpdateData g s st data count
      else moreLebChangeData g s st data count)=w at hm ⊢
  dsimp only
  split
  · exact hm
  split
  · exact hm
  split
  · exact revoke_bounds .readwrite hm.1 hm.2
  have hq := clean_checkVolume g st hm.1 hm.2
  have hk := same_checkVolume g w.1 st
  generalize checkVolume g w.1 st=q at hq hk ⊢
  have hvq : ValidVolume g q.1.vol := by
    rw [hk.vol]
    exact hm.2
  split
  · exact ⟨hq,hvq⟩
  · exact revoke_bounds .readwrite hq ⟨hvq.used,hvq.ebs,hvq.last⟩

/-! ## Starting a session -/

theorem clean_wipeLoop (st : Steps) (i n : ℕ) (h : Clean g s) (hi : i+n≤g.reservedPebs) :
    Clean g (wipeLoop st s i n).1 := by
  induction n generalizing s i with
  | zero => exact h
  | succ n ih =>
    unfold wipeLoop
    have h1 : Clean g (s.emit (.unmapLeb i)) :=
      Clean.emit (a := .unmapLeb i) h ⟨Int.natCast_nonneg i,by omega⟩
    split
    · exact h1
    · exact ih (i+1) h1 (by omega)

theorem expect_bounds {g : Geometry} (ebs : ℤ) (bytes : ℕ) (h : Clean g s)
    (hv : ValidVolume g s.vol) :
    Clean g (s.expect ebs bytes)∧ValidVolume g (s.expect ebs bytes).vol :=
  ⟨h,hv.used,hv.ebs,hv.last⟩

theorem startUpdate_bounds (st : Steps) (n : ℕ) (h : Clean g s) (hv : ValidVolume g s.vol) :
    Clean g (startUpdate g s st n).1∧ValidVolume g (startUpdate g s st n).1.vol := by
  have h1 : Clean g (setUpdateMarker
      { s with vol := { s.vol with updating := true }, session := s.session+1 } st).1∧
      ValidVolume g (setUpdateMarker
      { s with vol := { s.vol with updating := true }, session := s.session+1 } st).1.vol := by
    unfold setUpdateMarker
    split
    · exact ⟨h,hv.used,hv.ebs,hv.last⟩
    · exact ⟨Clean.emit h trivial,hv.used,hv.ebs,hv.last⟩
  unfold startUpdate
  dsimp only
  generalize setUpdateMarker { s with vol := { s.vol with updating := true }, session := s.session+1 }
    st=w at h1 ⊢
  split
  · exact h1
  have h2 := clean_wipeLoop g st 0 g.reservedPebs h1.1 (by omega)
  have hv2 : ValidVolume g (wipeLoop st w.1 0 g.reservedPebs).1.vol := by
    rw [(same_wipeLoop st w.1 0 g.reservedPebs).vol]
    exact h1.2
  generalize wipeLoop st w.1 0 g.reservedPebs=q at h2 hv2 ⊢
  split
  · exact ⟨h2,hv2⟩
  split
  · have h3 : Clean g (q.1.emit .flush) := h2.emit trivial
    split
    · exact ⟨h3,hv2⟩
    have k := valid_newDataSize g hv2 (Nat.zero_le _)
    have h4 : Clean g (clearUpdateMarker g (q.1.emit .flush) st 0).1 :=
      Clean.emit (s := { q.1.emit .flush with
        vol := { newDataSize g q.1.vol 0 with updMarker := false } }) h3 trivial
    have hv4 : ValidVolume g (clearUpdateMarker g (q.1.emit .flush) st 0).1.vol :=
      ⟨k.used,k.ebs,k.last⟩
    split
    · exact ⟨h4,hv4⟩
    · exact ⟨h4,hv4.used,hv4.ebs,hv4.last⟩
  · have h3 : Clean g (q.1.vmalloc g.lebSize st.vmalloc)∧
        ValidVolume g (q.1.vmalloc g.lebSize st.vmalloc).vol := by
      unfold State.vmalloc
      split
      · exact ⟨h2,hv2.used,hv2.ebs,hv2.last⟩
      · exact ⟨h2,hv2.used,hv2.ebs,hv2.last⟩
    split
    · exact h3
    · exact expect_bounds _ n h3.1 h3.2

theorem startUpdate_sized (st : Steps) (c : Consistent s) (hs : ¬InSession s)
    (hok : updateStarts g s st n) (hn : n≤g.reservedPebs*g.usableLebSize) :
    Sized g (startUpdate g s st n).1 := by
  have hidle : s.vol.changingLeb=false := by
    simp only [InSession,not_or,Bool.not_eq_true] at hs
    exact hs.2
  have hcases := startUpdate_cases g s st n
  rcases hcases with ⟨hno,_⟩|⟨_,_,hu,_,hr⟩|⟨_,_,_,hb,hbuf,_,hbytes,hr⟩
  · exact absurd hok hno
  · exact sized_of_idle (by simp [InSession,hu,hr.changing,hidle])
  · constructor
    · exact fun _ => ⟨by omega,bufSize_fresh c hb hbuf hr.freed⟩
    · intro hc
      rw [hr.changing,hidle] at hc
      cases hc

theorem startLebChange_bounds (st : Steps) (n : ℕ) (dtype : ℤ) (h : Clean g s)
    (hv : ValidVolume g s.vol) (h0 : 0≤lnum) (hlt : lnum<g.reservedPebs) :
    Clean g (startLebChange s st lnum n dtype).1∧
      ValidVolume g (startLebChange s st lnum n dtype).1.vol := by
  unfold startLebChange
  split
  · exact ⟨Clean.emit (a := .atomicLebChange lnum 0 _) h ⟨h0,hlt,Nat.zero_le _⟩,hv⟩
  dsimp only
  cases st.vmalloc with
  | true =>
    rw [vmalloc_gets _ ‹¬n=0›,if_neg (by simp)]
    exact ⟨h,hv.used,hv.ebs,hv.last⟩
  | false =>
    exact ⟨h,hv.used,hv.ebs,hv.last⟩

theorem startLebChange_sized (st : Steps) (dtype : ℤ) (c : Consistent s) (hs : ¬InSession s)
    (hv : st.vmalloc=true) (hn : n≠0) (h0 : 0≤lnum) (hlt : lnum<g.reservedPebs)
    (hle : n≤g.usableLebSize) (hio : g.minIoSize∣n) :
    Sized g (startLebChange s st lnum n dtype).1 := by
  unfold startLebChange
  rw [if_neg hn]
  dsimp only
  rw [hv,vmalloc_gets _ hn,if_neg (by simp)]
  constructor
  · exact fun hu => absurd (Or.inl hu) hs
  · intro _
    exact ⟨hle,hio,h0,hlt,bufSize_fresh (b := ⟨n,s.session+1⟩) c rfl rfl rfl⟩

/-! ## Requests -/

theorem getExclusive_bounds {g : Geometry} (h : Clean g s) (hv : ValidVolume g s.vol) :
    Clean g (getExclusive s).1∧ValidVolume g (getExclusive s).1.vol := by
  unfold getExclusive
  split
  · exact ⟨h,hv⟩
  · exact ⟨h,hv.used,hv.ebs,hv.last⟩

/-- What a state is after a request: the log in range, the volume valid and
the session within its size. -/
structure Safe (g : Geometry) (s : State) : Prop where
  clean : Clean g s
  valid : ValidVolume g s.vol
  sized : Sized g s

theorem Safe.revoke {g : Geometry} (h : Safe g s) {b : Prop} [Decidable b] :
    Safe g (if b then revokeExclusive s .readwrite else s) := by
  split
  · have ⟨hc,hv⟩ := revoke_bounds .readwrite h.clean h.valid
    exact ⟨hc,hv,keeps_sized (keeps_revokeExclusive s .readwrite) h.sized⟩
  · exact h

theorem iocVolup_safe (st : Steps) (bytes : ℤ) (c : Consistent s) (h : Safe g s)
    (hp : Proper g s (.volup bytes st)) : Safe g (iocVolup g s st bytes).1 := by
  have hneg := getExclusive_neg s
  have hk := keeps_getExclusive s
  have ⟨hc1,hv1⟩ := getExclusive_bounds h.clean h.valid
  have h1 : Safe g (getExclusive s).1 := ⟨hc1,hv1,keeps_sized hk h.sized⟩
  unfold iocVolup
  split
  · exact h
  next a1 =>
  split
  · exact h
  next a2 =>
  split
  · exact h
  next a3 =>
  dsimp only
  split
  · exact h
  next a4 =>
  split
  · exact h1
  next a5 =>
  have hacc : volupAccepted g s st bytes :=
    ⟨by simpa using a1,by simpa using a2,a3,by omega,by omega,by
      by_contra hh
      exact a5 (hneg.mpr hh)⟩
  have ⟨hs,hok,hle⟩ := hp hacc
  have hm : (getExclusive s).1.vol.updMarker=s.vol.updMarker := by
    unfold getExclusive
    split <;> rfl
  have hb : ((bytes.toNat : ℕ) : ℤ)=bytes := Int.toNat_of_nonneg (by omega)
  have hok' : updateStarts g (getExclusive s).1 st (bytes.toNat : ℕ) := by
    unfold updateStarts
    rw [hm,hb]
    exact hok
  have ⟨hc2,hv2⟩ := startUpdate_bounds g st bytes.toNat hc1 hv1
  exact Safe.revoke ⟨hc2,hv2,startUpdate_sized g st (hk.consistent c)
    (fun hin => hs (hk.inSession.mp hin)) hok' (by omega)⟩

theorem iocEbch_safe (st : Steps) (lnum bytes dtype : ℤ) (c : Consistent s) (h : Safe g s)
    (hp : Proper g s (.ebch lnum bytes dtype st)) :
    Safe g (iocEbch g s st lnum bytes dtype).1 := by
  have hneg := getExclusive_neg s
  have hk := keeps_getExclusive s
  have ⟨hc1,hv1⟩ := getExclusive_bounds h.clean h.valid
  have h1 : Safe g (getExclusive s).1 := ⟨hc1,hv1,keeps_sized hk h.sized⟩
  unfold iocEbch
  split
  · exact h
  next a1 =>
  split
  · exact h
  next a2 =>
  split
  · exact h
  next a3 =>
  split
  · exact h
  next a4 =>
  dsimp only
  split
  · exact h1
  next a5 =>
  have ⟨hc2,hv2⟩ := startLebChange_bounds g st bytes.toNat dtype hc1 hv1
    (show 0≤lnum by omega) (by omega)
  refine Safe.revoke ⟨hc2,hv2,?_⟩
  by_cases hz : bytes=0
  · subst hz
    exact keeps_sized (same_emit (getExclusive s).1 _).keeps h1.sized
  have hdyn : g.volType=.dynamic := by
    cases ht : g.volType with
    | dynamic => rfl
    | static => exact absurd (Or.inr ht) a2
  have hacc : ebchAccepted g s st lnum bytes dtype :=
    ⟨by simpa using a1,fun h => a2 (Or.inl h),hdyn,by omega,by omega,by omega,by omega,by omega,by
      by_contra hh
      exact a5 (hneg.mpr hh)⟩
  have ⟨hs,hvm,hle,hio⟩ := hp hacc hz
  have hb : ((bytes.toNat : ℕ) : ℤ)=bytes := Int.toNat_of_nonneg (by omega)
  rw [←hb] at hio
  exact startLebChange_sized g st dtype (hk.consistent c) (fun hin => hs (hk.inSession.mp hin)) hvm
    (by omega) (by omega) (by omega) (by omega) (Int.natCast_dvd_natCast.mp hio)

theorem iocEber_clean (st : Steps) (lnum : ℤ) (h : Clean g s) :
    Clean g (iocEber g s st lnum).1 := by
  unfold iocEber
  split
  · exact h
  split
  · exact h
  split
  · exact h
  have h1 : Clean g (s.emit (.unmapLeb lnum)) :=
    Clean.emit (a := .unmapLeb lnum) h ⟨by omega,by omega⟩
  split
  · exact h1
  · exact h1.emit trivial

theorem close_safe {g : Geometry} (h : Safe g s) (hs : ¬InSession s) :
    Safe g { s with vol := closeVolume s.vol s.mode, opened := false } := by
  have k : ValidVolume g (closeVolume s.vol s.mode) := by
    cases s.mode <;> exact ⟨h.valid.used,h.valid.ebs,h.valid.last⟩
  have hk := keeps_closeVolume s s.mode
  exact ⟨h.clean,k,sized_of_idle fun hin => hs (hk.inSession.mp hin)⟩

theorem vfree_safe {g : Geometry} (hc : Clean g s) (hv : ValidVolume g s.vol)
    (hs : ¬InSession s.vfree) : Safe g s.vfree := by
  refine ⟨?_,?_,sized_of_idle hs⟩
  · unfold Clean
    rw [vfree_log]
    exact hc
  · rw [vfree_vol]
    exact hv

theorem volCdevRelease_safe {g : Geometry} (c : Consistent s) (h : Safe g s) :
    Safe g (volCdevRelease s) := by
  have hone := c.one
  have hv := h.valid
  unfold volCdevRelease
  split
  next hu =>
    have hc : s.vol.changingLeb=false := by simpa [hu] using hone
    have hs : ¬InSession ({ s with vol := { s.vol with updating := false } } : State).vfree := by
      unfold InSession
      rw [vfree_vol]
      simp [hc]
    exact close_safe (vfree_safe h.clean ⟨hv.used,hv.ebs,hv.last⟩ hs) hs
  next hu =>
    split
    next hc =>
      have hs : ¬InSession ({ s with vol := { s.vol with changingLeb := false } } : State).vfree := by
        unfold InSession
        rw [vfree_vol]
        simpa using hu
      exact close_safe (vfree_safe h.clean ⟨hv.used,hv.ebs,hv.last⟩ hs) hs
    next hc => exact close_safe h fun hin => hin.elim hu hc

/-- A proper request leaves a safe state, and carries no more than asked. -/
theorem serve_safe (r : Request) (c : Consistent s) (h : Safe g s) (hl : s.log=[]) (hd : InDomain r)
    (hp : Proper g s r) :
    Safe g (serve g s r).1∧∀ count∈requested s r,transferred (serve g s r).1.log≤count := by
  have hv := h.valid
  have plain : ∀ q,requested s r=none → Safe g q →
      Safe g q∧∀ count∈requested s r,transferred q.log≤count := by
    intro q hq hs
    rw [hq]
    exact ⟨hs,by simp⟩
  have same : ∀ q,Same s q → Clean g q → Safe g q := by
    intro q hq hc
    refine ⟨hc,?_,keeps_sized hq.keeps h.sized⟩
    rw [hq.vol]
    exact hv
  have some_count : ∀ q count,requested s r=some count → transferred q≤count →
      ∀ n∈requested s r,transferred q≤n := by
    intro q count hq ht n hn
    rw [hq] at hn
    cases hn
    exact ht
  cases r with
  | volup bytes st => exact plain _ rfl (iocVolup_safe g st bytes c h hp)
  | ebch lnum bytes dtype st => exact plain _ rfl (iocEbch_safe g st lnum bytes dtype c h hp)
  | eber lnum st =>
    exact plain _ rfl (same _ (same_iocEber g s st lnum) (iocEber_clean g st lnum h.clean))
  | setDirectWrites value st =>
    rw [serve]
    split
    · exact plain _ rfl h
    · have hk : Keeps s { s with vol := { s.vol with directWrites := value } } := by
        constructor <;> simp
      exact plain _ rfl ⟨h.clean,⟨hv.used,hv.ebs,hv.last⟩,keeps_sized hk h.sized⟩
  | write data count offp st =>
    by_cases hin : InSession s
    · obtain ⟨hc,hvw⟩ := volCdevWrite_bounds g st data count offp c h.sized hv
        hl hin
      have hset := settles_sized (volCdevWrite_settles g st data count offp c) h.sized
      exact plain _ (if_pos hin) ⟨hc,hvw,hset⟩
    · have hw : volCdevWrite g s st data count offp=volCdevDirectWrite g s st data count offp := by
        unfold volCdevWrite
        rw [if_pos (not_or.mp hin)]
      obtain ⟨hr,ht⟩ := volCdevDirectWrite_bounds g st data hv hd.1 (hp hin) hl
      rw [serve,hw]
      exact ⟨same _ (same_volCdevDirectWrite g s st data count offp) hr,
        some_count _ count (if_neg hin) ht⟩
  | read count offp st =>
    obtain ⟨hr,ht⟩ := volCdevRead_bounds g st hv hd.1 hp hl
    exact ⟨same _ (same_volCdevRead g s st count offp) hr,some_count _ count rfl ht⟩
  | close => exact plain _ rfl (volCdevRelease_safe c h)
  | otherOpen mode =>
    refine plain _ rfl ⟨h.clean,?_,keeps_sized (keeps_openVolume s mode) h.sized⟩
    cases mode <;> dsimp only [serve,openVolume] <;> split <;> exact ⟨hv.used,hv.ebs,hv.last⟩
  | otherClose mode =>
    refine plain _ rfl ⟨h.clean,?_,keeps_sized (keeps_closeVolume s mode) h.sized⟩
    cases mode <;> exact ⟨hv.used,hv.ebs,hv.last⟩

/-- The same for one step, whatever the previous request asked for. -/
theorem step_bounded (r : Request) (c : Consistent s) (hv : ValidVolume g s.vol) (hz : Sized g s)
    (hd : InDomain r) (hp : s.opened=true → Proper g s r) :
    Safe g (step g s r)∧Bounded g s r := by
  have k : Keeps s { s with log := [] } := by constructor <;> simp
  have h : Safe g { s with log := [] } := ⟨by simp [Clean],hv,keeps_sized k hz⟩
  by_cases ho : s.opened=true
  · have hstep : step g s r=(serve g { s with log := [] } r).1 := if_pos ho
    have hreq : requested { s with log := [] } r=requested s r := by cases r <;> rfl
    have hprop : Proper g { s with log := [] } r := by
      have := hp ho
      cases r <;> exact this
    have ⟨hs,ht⟩ := serve_safe g r (k.consistent c) h rfl hd hprop
    unfold Bounded
    rw [hstep]
    exact ⟨hs,hs.clean,by rw [←hreq]; exact ht⟩
  · have hstep : step g s r={ s with log := [] } := if_neg ho
    unfold Bounded
    rw [hstep]
    exact ⟨h,h.clean,fun _ _ => Nat.zero_le _⟩

/-- Proper requests are orderly. -/
theorem Proper.orderly {g : Geometry} {r : Request} (h : Proper g s r) :
    Orderly g s r := by
  cases r with
  | volup bytes st => exact fun ha => ⟨(h ha).1,(h ha).2.1⟩
  | ebch lnum bytes dtype st => exact fun ha hz => ⟨(h ha hz).1,(h ha hz).2.1⟩
  | _ => trivial

/-- In a run of proper requests on a volume without a session, every request
stays inside the volume and its buffers. -/
theorem run_bounded (g : Geometry) {s : State} (c : Consistent s) (hs : ¬InSession s)
    (hv : ValidVolume g s.vol) (rs : List Request) (hd : ∀ r∈rs,InDomain r)
    (hp : ∀ pre r,pre++[r]<+:rs → (run g s pre).opened=true → Proper g (run g s pre) r) :
    ∀ pre r,pre++[r]<+:rs → Bounded g (run g s pre) r := by
  have hc := (run_consistent g c rs).mpr fun pre r h ho => (hp pre r h ho).orderly
  have hdom : ∀ pre r,pre++[r]<+:rs → InDomain r := fun pre r h => hd r (h.subset (by simp))
  have hall : ∀ pre,pre<+:rs → ValidVolume g (run g s pre).vol∧Sized g (run g s pre) := by
    intro pre
    induction pre using List.reverseRecOn with
    | nil => exact fun _ => ⟨hv,sized_of_idle hs⟩
    | append_singleton pre r ih =>
      intro h
      have hpre := (List.prefix_append pre [r]).trans h
      have ⟨hv1,hz1⟩ := ih hpre
      have ⟨hsafe,_⟩ := step_bounded g r (hc pre hpre) hv1 hz1 (hdom pre r h) (hp pre r h)
      rw [run_concat]
      exact ⟨hsafe.valid,hsafe.sized⟩
  intro pre r h
  have hpre := (List.prefix_append pre [r]).trans h
  have ⟨hv1,hz1⟩ := hall pre hpre
  exact (step_bounded g r (hc pre hpre) hv1 hz1 (hdom pre r h) (hp pre r h)).2

theorem freshState_valid : ValidVolume oneLeb freshState.vol :=
  ⟨by decide,by decide,by decide⟩

/-- An update of two bytes, and a read of the volume after it. -/
theorem run_bounded_example :
    Bounded oneLeb (run oneLeb freshState [.volup 2 goodSteps,.write (fun _ => 0) 2 0 goodSteps])
      (.read 2 0 goodSteps) := by
  refine run_bounded oneLeb freshState_consistent (by decide) freshState_valid
    [.volup 2 goodSteps,.write (fun _ => 0) 2 0 goodSteps,.read 2 0 goodSteps] ?_ ?_ _ _
    (List.prefix_refl _)
  · intro r hr
    simp only [List.mem_cons,List.not_mem_nil,or_false] at hr
    rcases hr with rfl|rfl|rfl
    · trivial
    · exact ⟨by decide,by decide⟩
    · exact ⟨by decide,by decide⟩
  intro pre r hp _
  match pre with
  | [] =>
    have hr : r=.volup 2 goodSteps := by simpa [List.cons_prefix_cons] using hp
    subst hr
    exact fun _ => ⟨by decide,⟨Or.inr rfl,fun _ _ => rfl,rfl⟩,by decide⟩
  | [_] =>
    have hr : r=.write (fun _ => 0) 2 0 goodSteps := by
      simp only [List.cons_append,List.nil_append,List.cons_prefix_cons] at hp
      exact hp.2.1
    subst hr
    exact fun _ _ _ => Nat.zero_le _
  | _::_::[] =>
    have hr : r=.read 2 0 goodSteps := by
      simp only [List.cons_append,List.nil_append,List.cons_prefix_cons] at hp
      exact hp.2.2.1
    subst hr
    exact fun _ _ _ => Nat.zero_le _
  | _::_::_::_ =>
    have hlen := hp.length_le
    simp only [List.length_append,List.length_cons,List.length_nil] at hlen
    omega

/-- An atomic change of a LEB with one byte more than the LEB holds. -/
theorem run_unbounded :
    ¬Bounded oneLeb (run oneLeb freshState [.ebch 0 65409 3 goodSteps])
      (.write (fun _ => 0) 65409 0 goodSteps)∧
    ¬∀ (g : Geometry) (s : State) (rs : List Request),Consistent s → ¬InSession s →
      ValidVolume g s.vol → (∀ r∈rs,InDomain r) →
      ∀ pre r,pre++[r]<+:rs → Bounded g (run g s pre) r := by
  have hbad : ¬Bounded oneLeb (run oneLeb freshState [.ebch 0 65409 3 goodSteps])
      (.write (fun _ => 0) 65409 0 goodSteps) := by
    intro h
    have hno : ¬∀ a∈(step oneLeb (run oneLeb freshState [.ebch 0 65409 3 goodSteps])
        (.write (fun _ => 0) 65409 0 goodSteps)).log,InRange oneLeb a := by decide +kernel
    exact hno h.1
  refine ⟨hbad,fun h => hbad (h oneLeb freshState
    [.ebch 0 65409 3 goodSteps,.write (fun _ => 0) 65409 0 goodSteps] freshState_consistent
    (by decide) freshState_valid ?_ _ _ (List.prefix_refl _))⟩
  intro r hr
  simp only [List.mem_cons,List.not_mem_nil,or_false] at hr
  rcases hr with rfl|rfl
  · trivial
  · exact ⟨by decide,by decide⟩

end ArdroneKernel.UbiVolumeBounds
