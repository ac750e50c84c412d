import ArdroneKernel.UbiVolumeDevice

/-!
# Update sessions of a volume

An update or an atomic LEB change owns a flag of the volume and the update
buffer while it lasts. The flags are set before the steps that may fail and
before the buffer exists, and a second request may arrive before the first
session has ended. The state stays consistent exactly in the runs where every
session starts on an idle volume and none of its first steps fails.
-/

namespace ArdroneKernel.UbiSession

open UbiVolumeDevice

/-- A flag of the volume is set. -/
def InSession (s : State) : Prop := s.vol.updating=true∨s.vol.changingLeb=true

instance (s : State) : Decidable (InSession s) := by unfold InSession; infer_instance

/-- What holds of the flags and of the update buffers after every request. -/
structure Consistent (s : State) : Prop where
  /-- At most one flag is set. -/
  one : ¬(s.vol.updating=true∧s.vol.changingLeb=true)
  /-- A session has a live buffer of its own, and no more data than it expects. -/
  buffer : InSession s → ∃ i b,s.vol.updBuf=some i∧s.bufs[i]? =some b∧b.session=s.session∧
    i∉s.freed∧s.vol.updReceived≤ s.vol.updBytes
  /-- Every buffer is freed once, that of the session in progress not yet. -/
  freedOnce : ∀ i<s.bufs.length,
    s.freed.count i=if InSession s∧s.vol.updBuf=some i then 0 else 1
  /-- Nothing else is freed. -/
  allocated : ∀ i∈s.freed,i<s.bufs.length
  /-- No buffer is of a session to come. -/
  tags : ∀ b∈s.bufs,b.session≤ s.session
  /-- No flag is left by a closed descriptor. -/
  closed : s.opened=false → ¬InSession s

/-- `UBI_IOCVOLUP` passes its checks and gets the volume. -/
def volupAccepted (g : Geometry) (s : State) (st : Steps) (bytes : ℤ) : Prop :=
  st.capable=true∧st.argFault=false∧s.mode≠.readonly∧0≤bytes∧
    bytes≤(g.reservedPebs : ℤ)*g.lebSize-g.dataPad∧
    s.vol.readers+s.vol.writers+s.vol.exclusive≤1

/-- `UBI_IOCEBCH` passes its checks and gets the volume. -/
def ebchAccepted (g : Geometry) (s : State) (st : Steps) (lnum bytes dtype : ℤ) : Prop :=
  st.argFault=false∧s.mode≠.readonly∧g.volType=.dynamic∧0≤lnum∧lnum<g.reservedPebs∧0≤bytes∧
    lnum<g.usableLebSize∧(dtype=1∨dtype=2∨dtype=3)∧
    s.vol.readers+s.vol.writers+s.vol.exclusive≤1

/-- Every step of `ubi_start_update` succeeds. -/
def updateStarts (g : Geometry) (s : State) (st : Steps) (bytes : ℤ) : Prop :=
  (s.vol.updMarker=true∨st.setRecord=0)∧(∀ i<g.reservedPebs,st.unmap i=0)∧
    if bytes=0 then st.flush=0∧st.clearRecord=0 else st.vmalloc=true

/-- An accepted request that starts a session finds the volume idle, and its
first steps succeed. -/
def Orderly (g : Geometry) (s : State) : Request → Prop
  | .volup bytes st => volupAccepted g s st bytes → ¬InSession s∧updateStarts g s st bytes
  | .ebch lnum bytes dtype st =>
    ebchAccepted g s st lnum bytes dtype → bytes≠0 → ¬InSession s∧st.vmalloc=true
  | _ => True

/-! ## Steps inside a session -/

/-- Only the contents of the buffers and the log differ. -/
structure Same (s s' : State) : Prop where
  vol : s'.vol=s.vol
  mode : s'.mode=s.mode
  session : s'.session=s.session
  bufs : s'.bufs=s.bufs
  freed : s'.freed=s.freed
  opened : s'.opened=s.opened

theorem Same.refl (s : State) : Same s s := ⟨rfl,rfl,rfl,rfl,rfl,rfl⟩

variable {a b c : State} (g : Geometry) {s : State}

theorem Same.trans (h : Same a b) (k : Same b c) : Same a c :=
  ⟨k.vol.trans h.vol,k.mode.trans h.mode,k.session.trans h.session,k.bufs.trans h.bufs,
    k.freed.trans h.freed,k.opened.trans h.opened⟩

theorem same_emit (s : State) (a : Access) : Same s (s.emit a) := ⟨rfl,rfl,rfl,rfl,rfl,rfl⟩

theorem same_store (s : State) (off len : ℕ) (f : ℕ → UInt8) : Same s (s.store off len f) := by
  unfold State.store
  cases s.vol.updBuf <;> exact ⟨rfl,rfl,rfl,rfl,rfl,rfl⟩

theorem same_writeLeb (s : State) (lnum : ℤ) (len : ℕ) (usedEbs err : ℤ) :
    Same s (writeLeb g s lnum len usedEbs err).1 := by
  unfold writeLeb
  cases g.volType with
  | dynamic =>
    dsimp only
    split
    · exact same_store s _ _ _
    · exact (same_store s _ _ _).trans (same_emit _ _)
  | static => exact (same_store s _ _ _).trans (same_emit _ _)

theorem same_wipeLoop (st : Steps) (s : State) (i n : ℕ) : Same s (wipeLoop st s i n).1 := by
  induction n generalizing s i with
  | zero => exact Same.refl s
  | succ n ih =>
    unfold wipeLoop
    split
    · exact same_emit s _
    · exact (same_emit s _).trans (ih _ _)

theorem same_checkLoop (st : Steps) (s : State) (i n : ℕ) :
    Same s (checkLoop g st s i n).1 := by
  induction n generalizing s i with
  | zero => exact Same.refl s
  | succ n ih =>
    unfold checkLoop
    dsimp only
    have h := (same_emit s (.readLeb i 0
      (if i+1=s.vol.usedEbs then s.vol.lastEbBytes else g.usableLebSize))).trans
      (same_emit _ (.store g.usableLebSize 0
        (if i+1=s.vol.usedEbs then s.vol.lastEbBytes else g.usableLebSize)))
    split
    · exact h
    · exact h.trans (ih _ _)

theorem same_checkVolume (s : State) (st : Steps) :
    Same s (checkVolume g s st).1 := by
  unfold checkVolume
  split
  · exact Same.refl s
  split
  · exact Same.refl s
  · exact same_checkLoop g st s 0 _

theorem same_readLoop (st : Steps) (t : ℕ) (fuel : ℕ) (s : State) (k : ℕ) (lnum : ℤ)
    (off len count : ℕ) :
    Same s (readLoop g st t fuel s k lnum off len count).1 := by
  induction fuel generalizing s k lnum off len count with
  | zero => exact Same.refl s
  | succ fuel ih =>
    unfold readLoop
    dsimp only
    generalize (if off+len≥g.usableLebSize then g.usableLebSize-off else len)=len
    have h := (same_emit s (.readLeb lnum off len)).trans (same_emit _ (.store t 0 len))
    have h2 := h.trans (same_emit _ (.transfer len))
    split
    · exact h
    split
    · exact h2
    split
    · exact h2
    · exact h2.trans (ih _ _ _ _ _ _)

theorem same_directWriteLoop (st : Steps) (data : ℕ → UInt8) (t : ℕ) (fuel : ℕ) (s : State)
    (k pos : ℕ) (lnum : ℤ) (off len count : ℕ) :
    Same s (directWriteLoop g st data t fuel s k pos lnum off len count).1 := by
  induction fuel generalizing s k pos lnum off len count with
  | zero => exact Same.refl s
  | succ fuel ih =>
    unfold directWriteLoop
    split
    · exact Same.refl s
    generalize (if off+len≥g.usableLebSize then g.usableLebSize-off else len)=len
    have h := (same_emit s (.store t 0 len)).trans (same_emit _ (.transfer len))
    have h2 := h.trans (same_emit _ (.writeLeb lnum off len fun i => data (pos+i)))
    split
    · exact h
    split
    · exact h2
    · exact h2.trans (ih _ _ _ _ _ _ _)

theorem same_readBytes (s : State) (st : Steps) (offp count : ℕ) :
    Same s (readBytes g s st offp count).1 := by
  unfold readBytes
  dsimp only
  split
  · exact Same.refl s
  · exact same_readLoop g st _ count s _ _ _ _ _

theorem same_volCdevRead (s : State) (st : Steps) (count offp : ℕ) :
    Same s (volCdevRead g s st count offp).1 := by
  unfold volCdevRead
  split_ifs
  · exact Same.refl s
  · exact Same.refl s
  · exact Same.refl s
  · exact same_readBytes g s st offp _

theorem same_directWriteBytes (s : State) (st : Steps) (data : ℕ → UInt8) (offp count : ℕ) :
    Same s (directWriteBytes g s st data offp count).1 := by
  unfold directWriteBytes
  dsimp only
  split
  · exact Same.refl s
  split
  · exact Same.refl s
  · exact same_directWriteLoop g st data _ count s _ _ _ _ _ _

theorem same_volCdevDirectWrite (s : State) (st : Steps) (data : ℕ → UInt8) (count offp : ℕ) :
    Same s (volCdevDirectWrite g s st data count offp).1 := by
  unfold volCdevDirectWrite
  split
  · exact Same.refl s
  split
  · exact Same.refl s
  split
  · exact Same.refl s
  · exact same_directWriteBytes g s st data offp _

theorem same_iocEber (s : State) (st : Steps) (lnum : ℤ) :
    Same s (iocEber g s st lnum).1 := by
  unfold iocEber
  split_ifs
  · exact Same.refl s
  · exact Same.refl s
  · exact Same.refl s
  · exact same_emit s _
  · exact (same_emit s _).trans (same_emit _ _)

/-- The session is the same, with more data received at most. -/
structure Keeps (s s' : State) : Prop where
  updating : s'.vol.updating=s.vol.updating
  changing : s'.vol.changingLeb=s.vol.changingLeb
  updBuf : s'.vol.updBuf=s.vol.updBuf
  updBytes : s'.vol.updBytes=s.vol.updBytes
  chLnum : s'.vol.chLnum=s.vol.chLnum
  session : s'.session=s.session
  bufs : s'.bufs=s.bufs
  freed : s'.freed=s.freed
  opened : s'.opened=s.opened
  received : s.vol.updReceived≤ s.vol.updBytes → s'.vol.updReceived≤ s'.vol.updBytes

theorem Keeps.trans (h : Keeps a b) (k : Keeps b c) : Keeps a c where
  updating := k.updating.trans h.updating
  changing := k.changing.trans h.changing
  updBuf := k.updBuf.trans h.updBuf
  updBytes := k.updBytes.trans h.updBytes
  chLnum := k.chLnum.trans h.chLnum
  session := k.session.trans h.session
  bufs := k.bufs.trans h.bufs
  freed := k.freed.trans h.freed
  opened := k.opened.trans h.opened
  received := k.received∘h.received

theorem Same.keeps {s s' : State} (h : Same s s') : Keeps s s' := by
  constructor <;> simp [h.vol,h.session,h.bufs,h.freed,h.opened]

theorem Keeps.inSession {s s' : State} (h : Keeps s s') : InSession s' ↔ InSession s := by
  rw [InSession,InSession,h.updating,h.changing]

theorem Keeps.consistent {s s' : State} (h : Keeps s s') (c : Consistent s) : Consistent s' where
  one := by
    rw [h.updating,h.changing]
    exact c.one
  buffer := by
    intro hs
    have ⟨i,b,hi,hb,ht,hf,hr⟩ := c.buffer (h.inSession.mp hs)
    exact ⟨i,b,h.updBuf.trans hi,by rw [h.bufs]; exact hb,ht.trans h.session.symm,
      by rw [h.freed]; exact hf,h.received hr⟩
  freedOnce := by
    intro i hi
    rw [h.bufs] at hi
    simp only [h.freed,h.inSession,h.updBuf,c.freedOnce i hi]
  allocated := by
    rw [h.freed,h.bufs]
    exact c.allocated
  tags := by
    rw [h.bufs,h.session]
    exact c.tags
  closed := by
    rw [h.opened,h.inSession]
    exact c.closed

theorem keeps_receive (len : ℕ) (h : s.vol.updReceived+len≤ s.vol.updBytes) :
    Keeps s (s.receive len) := by
  constructor <;> simp [State.receive,h]

/-- A piece that is received was copied and, if it completes a LEB, written. -/
theorem updatePiece_cases (s : State) (st : Steps) (data : ℕ → UInt8) (k pos : ℕ) (lnum : ℤ)
    (offs len : ℕ) :
    ∃ s1 fault err,Same s s1∧updatePiece g s st data k pos lnum offs len=
      (if fault≠none∨err≠0 then s1 else s1.receive len,fault,err) := by
  have h1 := same_store s offs len fun i => data (pos+(i-offs))
  unfold updatePiece
  generalize s.store offs len (fun i => data (pos+(i-offs)))=s1 at h1 ⊢
  dsimp only
  split
  · exact ⟨s1,some (-EFAULT),0,h1,by simp⟩
  split
  · have h2 := same_writeLeb g s1 lnum (offs+len) s1.vol.updEbs (st.leb k)
    generalize writeLeb g s1 lnum (offs+len) s1.vol.updEbs (st.leb k)=w at h2 ⊢
    by_cases he : w.2=0
    · exact ⟨w.1,none,0,h1.trans h2,by simp [he]⟩
    · exact ⟨w.1,none,w.2,h1.trans h2,by simp [he]⟩
  · exact ⟨s1,none,0,h1,by simp⟩

theorem updatePiece_keeps (s : State) (st : Steps) (data : ℕ → UInt8) (k pos : ℕ) (lnum : ℤ)
    (offs : ℕ) {len : ℕ} (h : s.vol.updReceived+len≤ s.vol.updBytes) :
    Keeps s (updatePiece g s st data k pos lnum offs len).1∧
    (updatePiece g s st data k pos lnum offs len).1.vol.updReceived≤ s.vol.updReceived+len := by
  have ⟨s1,fault,err,h1,he⟩ := updatePiece_cases g s st data k pos lnum offs len
  rw [he]
  have hb : s1.vol.updReceived+len≤ s1.vol.updBytes := by rw [h1.vol]; exact h
  split
  · exact ⟨h1.keeps,by rw [h1.vol]; omega⟩
  · refine ⟨h1.keeps.trans (keeps_receive len hb),?_⟩
    simp [State.receive,h1.vol]

theorem updateLoop_keeps (st : Steps) (data : ℕ → UInt8) (fuel : ℕ) (s : State) (k pos : ℕ)
    (lnum : ℤ) (count : ℕ) (h : s.vol.updReceived+count≤ s.vol.updBytes) :
    Keeps s (updateLoop g st data fuel s k pos lnum count).1 := by
  induction fuel generalizing s k pos lnum count with
  | zero => exact (Same.refl s).keeps
  | succ fuel ih =>
    unfold updateLoop
    split
    · exact (Same.refl s).keeps
    have hl : min count g.usableLebSize≤count := min_le_left _ _
    generalize min count g.usableLebSize=len at hl
    have ⟨hp,hr⟩ := updatePiece_keeps g s st data k pos lnum 0
      (show s.vol.updReceived+len≤ s.vol.updBytes by omega)
    dsimp only
    split
    · exact hp
    · refine hp.trans (ih _ _ _ _ _ ?_)
      rw [hp.updBytes]
      omega

theorem keeps_clearUpdateMarker (s : State) (st : Steps) (bytes : ℕ) :
    Keeps s (clearUpdateMarker g s st bytes).1 := by
  unfold clearUpdateMarker newDataSize
  cases g.volType <;> constructor <;> simp [State.emit]

/-- The session is over and its buffer freed. -/
structure Ends (s s' : State) : Prop where
  updating : s'.vol.updating=false
  changing : s'.vol.changingLeb=false
  session : s'.session=s.session
  bufs : s'.bufs=s.bufs
  freed : ∀ i,s.vol.updBuf=some i → s'.freed=i::s.freed

theorem Ends.idle {s s' : State} (h : Ends s s') : ¬InSession s' := by
  simp [InSession,h.updating,h.changing]

theorem Ends.consistent {s s' : State} (h : Ends s s') (c : Consistent s) (hs : InSession s) :
    Consistent s' := by
  have ⟨i,b,hi,hb,_,hf,_⟩ := c.buffer hs
  have hfreed := h.freed i hi
  have hlt : i<s.bufs.length := (List.getElem?_eq_some_iff.mp hb).choose
  constructor
  · simp [h.updating]
  · exact fun hs' => absurd hs' h.idle
  · intro j hj
    rw [h.bufs] at hj
    have hc := c.freedOnce j hj
    rw [if_neg fun hn => h.idle hn.1,hfreed,List.count_cons]
    by_cases hij : i=j
    · subst hij
      rw [if_pos ⟨hs,hi⟩] at hc
      simp [hc]
    · have hne : ¬(InSession s∧s.vol.updBuf=some j) := by
        simp only [hi,Option.some.injEq,hij,and_false,not_false_eq_true]
      rw [if_neg hne] at hc
      simp [hc,hij]
  · intro j hj
    rw [hfreed,List.mem_cons] at hj
    rw [h.bufs]
    cases hj with
    | inl he => exact he.symm▸hlt
    | inr hm => exact c.allocated j hm
  · rw [h.bufs,h.session]
    exact c.tags
  · exact fun _ => h.idle

theorem ends_vfree {s s' : State} (hu : s'.vol.updating=false) (hc : s'.vol.changingLeb=false)
    (hb : s'.vol.updBuf=s.vol.updBuf) (ht : s'.session=s.session) (ha : s'.bufs=s.bufs)
    (hf : s'.freed=s.freed) : Ends s s'.vfree := by
  unfold State.vfree
  cases hn : s'.vol.updBuf with
  | none => exact ⟨hu,hc,ht,ha,fun i hi => by rw [←hb,hn] at hi; simp at hi⟩
  | some j =>
    refine ⟨hu,hc,ht,ha,fun i hi => ?_⟩
    rw [←hb,hn,Option.some.injEq] at hi
    rw [←hi,←hf]

/-- A session goes on or is over. -/
def Settles (s s' : State) : Prop := Keeps s s'∨Ends s s'

theorem Settles.keeps (h : Settles a b) (k : Keeps b c) : Settles a c := by
  cases h with
  | inl h => exact Or.inl (h.trans k)
  | inr h =>
    exact Or.inr ⟨k.updating.trans h.updating,k.changing.trans h.changing,
      k.session.trans h.session,k.bufs.trans h.bufs,fun i hi => k.freed.trans (h.freed i hi)⟩

theorem Keeps.settles (h : Keeps a b) (k : Settles b c) : Settles a c := by
  cases k with
  | inl k => exact Or.inl (h.trans k)
  | inr k =>
    refine Or.inr ⟨k.updating,k.changing,k.session.trans h.session,k.bufs.trans h.bufs,?_⟩
    intro i hi
    rw [k.freed i (h.updBuf.trans hi),h.freed]

theorem Settles.consistent {s s' : State} (h : Settles s s') (c : Consistent s)
    (hs : InSession s) : Consistent s' := by
  cases h with
  | inl h => exact h.consistent c
  | inr h => exact h.consistent c hs

theorem updateEnd_settles (st : Steps) (toWrite : ℕ) (err : ℤ) (hc : s.vol.changingLeb=false) :
    Settles s (updateEnd g s st toWrite err).1 := by
  unfold updateEnd
  split
  swap
  · exact Or.inl (Same.refl s).keeps
  have h1 : Keeps s (s.emit .flush) := (same_emit s .flush).keeps
  dsimp only
  split
  · exact Or.inl h1
  have h2 := h1.trans (keeps_clearUpdateMarker g (s.emit .flush) st (s.emit .flush).vol.updBytes)
  split
  · exact Or.inl h2
  · exact Or.inr (ends_vfree rfl (h2.changing.trans hc) h2.updBuf h2.session h2.bufs h2.freed)

theorem moreUpdateData_settles (st : Steps) (data : ℕ → UInt8) (count : ℕ)
    (hc : s.vol.changingLeb=false) (hr : s.vol.updReceived≤ s.vol.updBytes) :
    Settles s (moreUpdateData g s st data count).1 := by
  unfold moreUpdateData
  split
  · exact Or.inl (Same.refl s).keeps
  dsimp only
  have hcount : s.vol.updReceived+(if s.vol.updReceived+count>s.vol.updBytes
      then s.vol.updBytes-s.vol.updReceived else count)≤ s.vol.updBytes := by
    split <;> omega
  generalize (if s.vol.updReceived+count>s.vol.updBytes
      then s.vol.updBytes-s.vol.updReceived else count)=count at hcount ⊢
  generalize toInt (s.vol.updReceived/g.usableLebSize : ℕ)=lnum
  have hhead : (if s.vol.updReceived%g.usableLebSize≠0
      then min (g.usableLebSize-s.vol.updReceived%g.usableLebSize) count else 0)≤count := by
    split <;> omega
  generalize (if s.vol.updReceived%g.usableLebSize≠0
      then min (g.usableLebSize-s.vol.updReceived%g.usableLebSize) count else 0)=head at hhead ⊢
  have h1 : Keeps s (if s.vol.updReceived%g.usableLebSize≠0 then
      updatePiece g s st data 0 0 lnum (s.vol.updReceived%g.usableLebSize) head
      else (s,none,0)).1∧(if s.vol.updReceived%g.usableLebSize≠0 then
      updatePiece g s st data 0 0 lnum (s.vol.updReceived%g.usableLebSize) head
      else (s,none,0)).1.vol.updReceived≤ s.vol.updReceived+head := by
    split
    · exact updatePiece_keeps g s st data 0 0 lnum _ (by omega)
    · exact ⟨(Same.refl s).keeps,by dsimp only; omega⟩
  generalize (if s.vol.updReceived%g.usableLebSize≠0 then
      updatePiece g s st data 0 0 lnum (s.vol.updReceived%g.usableLebSize) head
      else (s,none,0))=p at h1 ⊢
  have ⟨hp,hpr⟩ := h1
  split
  · exact Or.inl hp
  generalize (if s.vol.updReceived%g.usableLebSize≠0 then lnum+1 else lnum)=lnum
  have hq := hp.trans (updateLoop_keeps g st data (count-head) p.1 1 head lnum (count-head)
    (by rw [hp.updBytes]; omega))
  split
  · exact Or.inl hq
  · exact hq.settles (updateEnd_settles g st count _ (hq.changing.trans hc))

theorem moreLebChangeData_settles (st : Steps) (data : ℕ → UInt8) (count : ℕ)
    (hu : s.vol.updating=false) (hr : s.vol.updReceived≤ s.vol.updBytes) :
    Settles s (moreLebChangeData g s st data count).1 := by
  unfold moreLebChangeData
  split
  · exact Or.inl (Same.refl s).keeps
  dsimp only
  have hcount : s.vol.updReceived+(if s.vol.updReceived+count>s.vol.updBytes
      then s.vol.updBytes-s.vol.updReceived else count)≤ s.vol.updBytes := by
    split <;> omega
  generalize (if s.vol.updReceived+count>s.vol.updBytes
      then s.vol.updBytes-s.vol.updReceived else count)=count at hcount ⊢
  have h1 := same_store s s.vol.updReceived count fun i => data (i-s.vol.updReceived)
  generalize s.store s.vol.updReceived count (fun i => data (i-s.vol.updReceived))=s1 at h1 ⊢
  split
  · exact Or.inl h1.keeps
  have h2 := h1.keeps.trans (keeps_receive count (by rw [h1.vol]; exact hcount))
  generalize s1.receive count=s2 at h2 ⊢
  split
  swap
  · exact Or.inl h2
  have h3 := (same_store s2 s2.vol.updBytes (align s2.vol.updBytes g.minIoSize-s2.vol.updBytes)
    fun _ => 0xFF)
  generalize s2.store s2.vol.updBytes (align s2.vol.updBytes g.minIoSize-s2.vol.updBytes)
    (fun _ => 0xFF)=s3 at h3 ⊢
  have h4 := h2.trans (h3.trans (same_emit s3 (.atomicLebChange s3.vol.chLnum
    (calcDataLen g.minIoSize s3.bufBytes (align s2.vol.updBytes g.minIoSize)) s3.bufBytes))).keeps
  split
  · exact Or.inl h4
  · exact Or.inr (ends_vfree (h4.updating.trans hu) rfl h4.updBuf h4.session h4.bufs h4.freed)

/-! ## Starting a session -/

/-- A session without a buffer of its own is not consistent. -/
theorem not_consistent_of_tag {s r : State} (c : Consistent s) (hin : InSession r)
    (ht : r.session=s.session+1) (hb : r.bufs=s.bufs) : ¬Consistent r := by
  intro k
  have ⟨i,b,_,hi,htag,_,_⟩ := k.buffer hin
  have hle := c.tags b (by rw [←hb]; exact List.mem_of_getElem? hi)
  omega

/-- A session that loses its buffer is not consistent. -/
theorem not_consistent_of_leak {s r : State} (c : Consistent s) (hs : InSession s)
    (hf : r.freed=s.freed) (hl : s.bufs.length≤r.bufs.length)
    (hr : ¬InSession r∨∀ i,s.vol.updBuf=some i → r.vol.updBuf≠some i) : ¬Consistent r := by
  intro k
  have ⟨i,b,hi,hb,_,hn,_⟩ := c.buffer hs
  have hlt : i<s.bufs.length := (List.getElem?_eq_some_iff.mp hb).choose
  have hcount := k.freedOnce i (by omega)
  have hnot : ¬(InSession r∧r.vol.updBuf=some i) := by
    cases hr with
    | inl h => exact fun h' => h h'.1
    | inr h => exact fun h' => h i hi h'.2
  rw [if_neg hnot,hf,List.count_eq_zero.mpr hn] at hcount
  omega

/-- A session that starts on an idle volume with a buffer of its own. -/
theorem consistent_of_fresh {s r : State} (c : Consistent s) (hs : ¬InSession s) {n : ℕ}
    (hone : ¬(r.vol.updating=true∧r.vol.changingLeb=true)) (hin : InSession r)
    (hopen : r.opened=true) (ht : r.session=s.session+1)
    (hb : r.bufs=s.bufs++[⟨n,s.session+1⟩]) (hf : r.freed=s.freed)
    (hu : r.vol.updBuf=some s.bufs.length) (hr : r.vol.updReceived≤r.vol.updBytes) :
    Consistent r where
  one := hone
  buffer := by
    intro _
    refine ⟨s.bufs.length,⟨n,s.session+1⟩,hu,by rw [hb]; simp,ht.symm,?_,hr⟩
    intro hm
    have := c.allocated _ (by rwa [hf] at hm)
    omega
  freedOnce := by
    intro i hi
    rw [hb,List.length_append,List.length_singleton] at hi
    rw [hf,hu]
    by_cases he : i=s.bufs.length
    · subst he
      rw [if_pos ⟨hin,rfl⟩,List.count_eq_zero]
      intro hm
      have := c.allocated _ hm
      omega
    · have hne : ¬(InSession r∧some s.bufs.length=some i) := by
        intro hh
        exact he (Option.some.inj hh.2).symm
      rw [if_neg hne,c.freedOnce i (by omega),if_neg fun hh => hs hh.1]
  allocated := by
    intro i hi
    have := c.allocated i (by rwa [hf] at hi)
    rw [hb,List.length_append]
    omega
  tags := by
    intro b hm
    rw [hb,List.mem_append] at hm
    cases hm with
    | inl h =>
      have := c.tags b h
      omega
    | inr h =>
      rw [List.mem_singleton.mp h,ht]
  closed := by
    intro h
    simp [hopen] at h

theorem wipeLoop_eq_zero (st : Steps) (s : State) (i n : ℕ) :
    (wipeLoop st s i n).2=0 ↔ ∀ j<n,st.unmap (i+j)=0 := by
  induction n generalizing s i with
  | zero => simp [wipeLoop]
  | succ n ih =>
    unfold wipeLoop
    split
    next h =>
      constructor
      · exact fun h' => absurd h' h
      · exact fun h' => h' 0 (by omega)
    next h =>
      rw [ih,Nat.forall_lt_succ_left]
      simp only [Nat.add_zero,not_not.mp h,true_and]
      simp only [Nat.add_assoc,Nat.add_comm 1]

/-- What a start leaves behind, whether it succeeds or not. -/
structure Started (s r : State) : Prop where
  changing : r.vol.changingLeb=s.vol.changingLeb
  session : r.session=s.session+1
  freed : r.freed=s.freed
  opened : r.opened=s.opened

/-- A start before its buffer is asked for. -/
structure Wiped (s r : State) : Prop extends Started s r where
  updating : r.vol.updating=true
  bufs : r.bufs=s.bufs
  updBuf : r.vol.updBuf=s.vol.updBuf

theorem Wiped.same {s r q : State} (h : Wiped s r) (k : Same r q) : Wiped s q where
  changing := by rw [k.vol,h.changing]
  session := k.session.trans h.session
  freed := k.freed.trans h.freed
  opened := k.opened.trans h.opened
  updating := by rw [k.vol,h.updating]
  bufs := k.bufs.trans h.bufs
  updBuf := by rw [k.vol,h.updBuf]

theorem wiped_clearUpdateMarker {s r : State} (st : Steps) (bytes : ℕ) (h : Wiped s r) :
    Wiped s (clearUpdateMarker g r st bytes).1 := by
  have k := keeps_clearUpdateMarker g r st bytes
  exact ⟨⟨k.changing.trans h.changing,k.session.trans h.session,k.freed.trans h.freed,
    k.opened.trans h.opened⟩,k.updating.trans h.updating,k.bufs.trans h.bufs,
    k.updBuf.trans h.updBuf⟩

theorem wiped_setUpdateMarker (s : State) (st : Steps) :
    Wiped s (setUpdateMarker
      { s with vol := { s.vol with updating := true }, session := s.session+1 } st).1 := by
  unfold setUpdateMarker
  split <;> exact ⟨⟨rfl,rfl,rfl,rfl⟩,rfl,rfl,rfl⟩

theorem setUpdateMarker_eq_zero (s : State) (st : Steps) :
    (setUpdateMarker s st).2=0 ↔ s.vol.updMarker=true∨st.setRecord=0 := by
  unfold setUpdateMarker
  split <;> simp_all

theorem vmalloc_fails (s : State) (size : ℕ) :
    s.vmalloc size false={ s with vol := { s.vol with updBuf := none } } := by
  simp [State.vmalloc]

theorem vmalloc_gets (s : State) {size : ℕ} (h : size≠0) :
    s.vmalloc size true=
      { s with bufs := s.bufs++[⟨size,s.session⟩]
               vol := { s.vol with updBuf := some s.bufs.length } } := by
  simp [State.vmalloc,h]

/-- How a start ends: short of its buffer, without data, or with a buffer. -/
theorem startUpdate_cases (s : State) (st : Steps) (n : ℕ) :
    (¬updateStarts g s st n∧(startUpdate g s st n).1.vol.updating=true∧
      (startUpdate g s st n).1.bufs=s.bufs∧Started s (startUpdate g s st n).1)∨
    (updateStarts g s st n∧n=0∧(startUpdate g s st n).1.vol.updating=false∧
      (startUpdate g s st n).1.bufs=s.bufs∧Started s (startUpdate g s st n).1)∨
    (updateStarts g s st n∧n≠0∧(startUpdate g s st n).1.vol.updating=true∧
      (startUpdate g s st n).1.bufs=s.bufs++[⟨g.lebSize,s.session+1⟩]∧
      (startUpdate g s st n).1.vol.updBuf=some s.bufs.length∧
      (startUpdate g s st n).1.vol.updReceived=0∧(startUpdate g s st n).1.vol.updBytes=n∧
      Started s (startUpdate g s st n).1) := by
  have hm := setUpdateMarker_eq_zero
    { s with vol := { s.vol with updating := true }, session := s.session+1 } st
  have h1 := wiped_setUpdateMarker s st
  unfold startUpdate
  dsimp only
  generalize setUpdateMarker { s with vol := { s.vol with updating := true }, session := s.session+1 }
    st=w at hm h1 ⊢
  have hz := wipeLoop_eq_zero st w.1 0 g.reservedPebs
  have h2 := h1.same (same_wipeLoop st w.1 0 g.reservedPebs)
  generalize wipeLoop st w.1 0 g.reservedPebs=q at hz h2 ⊢
  simp only [Nat.zero_add] at hz
  unfold updateStarts
  by_cases hw : w.2=0
  swap
  · simp only [ne_eq,hw,not_false_eq_true,if_true]
    exact Or.inl ⟨fun h => hw (hm.mpr h.1),h1.updating,h1.bufs,h1.toStarted⟩
  by_cases hq : q.2=0
  swap
  · simp only [ne_eq,hw,hq,not_true_eq_false,not_false_eq_true,if_true,if_false]
    exact Or.inl ⟨fun h => hq (hz.mpr h.2.1),h2.updating,h2.bufs,h2.toStarted⟩
  simp only [ne_eq,hw,hq,not_true_eq_false,if_false]
  have hs : (s.vol.updMarker=true∨st.setRecord=0)∧(∀ i<g.reservedPebs,st.unmap i=0) :=
    ⟨hm.mp hw,hz.mp hq⟩
  by_cases hn : n=0
  · subst hn
    have h3 := h2.same (same_emit q.1 .flush)
    have h4 := wiped_clearUpdateMarker g st 0 h3
    have he : (clearUpdateMarker g (q.1.emit .flush) st 0).2=st.clearRecord := rfl
    generalize clearUpdateMarker g (q.1.emit .flush) st 0=r at h4 he ⊢
    by_cases hf : st.flush=0
    swap
    · rw [if_pos hf]
      exact Or.inl ⟨fun h => hf (by simpa using h.2.2 : st.flush=0∧_).1,h3.updating,h3.bufs,
        h3.toStarted⟩
    rw [if_neg (not_not.mpr hf)]
    by_cases hr : r.2=0
    swap
    · rw [if_pos hr]
      exact Or.inl ⟨fun h => hr (he.trans (by simpa using h.2.2 : st.flush=0∧_).2),h4.updating,
        h4.bufs,h4.toStarted⟩
    rw [if_neg (not_not.mpr hr)]
    exact Or.inr (Or.inl ⟨⟨hs.1,hs.2,by simpa using ⟨hf,he.symm.trans hr⟩⟩,rfl,rfl,h4.bufs,
      ⟨h4.changing,h4.session,h4.freed,h4.opened⟩⟩)
  · have hleb : g.lebSize≠0 := by
      have := g.pad_lt
      omega
    rw [if_neg hn]
    cases hv : st.vmalloc with
    | true =>
      rw [vmalloc_gets q.1 hleb]
      exact Or.inr (Or.inr ⟨⟨hs.1,hs.2,by simp [hn]⟩,hn,h2.updating,
        by simp [State.expect,h2.bufs,h2.session],by simp [State.expect,h2.bufs],rfl,rfl,
        ⟨h2.changing,h2.session,h2.freed,h2.opened⟩⟩)
    | false =>
      rw [vmalloc_fails]
      exact Or.inl ⟨fun h => by simpa [hn] using h.2.2,h2.updating,h2.bufs,
        ⟨h2.changing,h2.session,h2.freed,h2.opened⟩⟩

theorem startUpdate_consistent (st : Steps) (n : ℕ) (c : Consistent s) (ho : s.opened=true) :
    Consistent (startUpdate g s st n).1 ↔ ¬InSession s∧updateStarts g s st n := by
  have hcases := startUpdate_cases g s st n
  generalize (startUpdate g s st n).1=r at hcases
  constructor
  · intro k
    rcases hcases with ⟨_,hu,hb,hr⟩|⟨hok,_,_,hb,hr⟩|⟨hok,_,_,hb,hbuf,_,_,hr⟩
    · exact absurd k (not_consistent_of_tag c (Or.inl hu) hr.session hb)
    · refine ⟨fun hs => ?_,hok⟩
      by_cases hin : InSession r
      · exact not_consistent_of_tag c hin hr.session hb k
      · exact not_consistent_of_leak c hs hr.freed (by rw [hb]) (Or.inl hin) k
    · refine ⟨fun hs => ?_,hok⟩
      have ⟨i,b,hi,hb',_⟩ := c.buffer hs
      have hlt : i<s.bufs.length := (List.getElem?_eq_some_iff.mp hb').choose
      refine not_consistent_of_leak c hs hr.freed (by simp [hb]) (Or.inr fun j hj => ?_) k
      rw [hbuf]
      have hij : i=j := Option.some.inj (hi.symm.trans hj)
      simp only [ne_eq,Option.some.injEq]
      omega
  · intro ⟨hs,hok⟩
    have hidle : s.vol.changingLeb=false := by
      simp only [InSession,not_or,Bool.not_eq_true] at hs
      exact hs.2
    rcases hcases with ⟨hno,_⟩|⟨_,_,hu,hb,hr⟩|⟨_,_,hu,hb,hbuf,hrec,_,hr⟩
    · exact absurd hok hno
    · have hin : ¬InSession r := by simp [InSession,hu,hr.changing,hidle]
      constructor
      · simp [hu]
      · exact fun h => absurd h hin
      · intro i hi
        rw [hb] at hi
        rw [hr.freed,if_neg fun h => hin h.1,c.freedOnce i hi,if_neg fun h => hs h.1]
      · rw [hr.freed,hb]
        exact c.allocated
      · intro b hm
        rw [hb] at hm
        have := c.tags b hm
        rw [hr.session]
        omega
      · exact fun _ => hin
    · exact consistent_of_fresh c hs (by simp [hr.changing,hidle]) (Or.inl hu) (hr.opened.trans ho)
        hr.session hb hr.freed hbuf (by omega)

theorem startLebChange_consistent (st : Steps) (lnum : ℤ) {n : ℕ} (dtype : ℤ) (c : Consistent s)
    (ho : s.opened=true) (hn : n≠0) :
    Consistent (startLebChange s st lnum n dtype).1 ↔ ¬InSession s∧st.vmalloc=true := by
  unfold startLebChange
  rw [if_neg hn]
  dsimp only
  cases hv : st.vmalloc with
  | true =>
    rw [vmalloc_gets _ hn,if_neg (by simp)]
    simp only [and_true]
    constructor
    · intro k hs
      have ⟨i,b,hi,hb,_⟩ := c.buffer hs
      have hlt : i<s.bufs.length := (List.getElem?_eq_some_iff.mp hb).choose
      have hne : ∀ j,s.vol.updBuf=some j → some s.bufs.length≠some j := by
        intro j hj
        have hij : i=j := Option.some.inj (hi.symm.trans hj)
        simp only [ne_eq,Option.some.injEq]
        omega
      refine absurd k (not_consistent_of_leak c hs rfl ?_ (Or.inr hne))
      simp
    · intro hs
      have hidle : s.vol.updating=false := by
        simp only [InSession,not_or,Bool.not_eq_true] at hs
        exact hs.1
      exact consistent_of_fresh c hs (by simp [hidle]) (Or.inr rfl) ho rfl rfl rfl rfl (Nat.zero_le _)
  | false =>
    simp only [and_false,iff_false,Bool.false_eq_true]
    exact not_consistent_of_tag c (Or.inr rfl) rfl rfl

/-! ## Requests -/

theorem keeps_getExclusive (s : State) : Keeps s (getExclusive s).1 := by
  unfold getExclusive
  split
  · exact (Same.refl s).keeps
  · constructor <;> simp

theorem keeps_revokeExclusive (s : State) (m : OpenMode) : Keeps s (revokeExclusive s m) := by
  cases m <;> constructor <;> simp [revokeExclusive]

theorem keeps_openVolume (s : State) (m : OpenMode) :
    Keeps s { s with vol := openVolume s.vol m } := by
  cases m <;> constructor <;> simp [openVolume] <;> split <;> simp

theorem keeps_closeVolume (s : State) (m : OpenMode) :
    Keeps s { s with vol := closeVolume s.vol m } := by
  cases m <;> constructor <;> simp [closeVolume]

theorem volCdevRelease_consistent (c : Consistent s) :
    Consistent (volCdevRelease s) := by
  have key : ∀ q : State,Consistent q → ¬InSession q →
      Consistent { q with vol := closeVolume q.vol q.mode, opened := false } := by
    intro q hq hi
    have k := keeps_closeVolume q q.mode
    have hc := k.consistent hq
    have hn : ¬InSession { q with vol := closeVolume q.vol q.mode } := fun h => hi (k.inSession.mp h)
    exact ⟨hc.one,hc.buffer,hc.freedOnce,hc.allocated,hc.tags,fun _ => hn⟩
  unfold volCdevRelease
  have hone := c.one
  split
  next hu =>
    have hc : s.vol.changingLeb=false := by simpa [hu] using hone
    have e := @ends_vfree s { s with vol := { s.vol with updating := false } } rfl hc rfl rfl rfl rfl
    exact key _ (e.consistent c (Or.inl hu)) e.idle
  next hu =>
    split
    next hc =>
      have hu' : s.vol.updating=false := by simpa using hu
      have e := @ends_vfree s { s with vol := { s.vol with changingLeb := false } } hu' rfl rfl rfl
        rfl rfl
      exact key _ (e.consistent c (Or.inr hc)) e.idle
    next hc => exact key s c fun h => h.elim hu hc

theorem volCdevWrite_settles (st : Steps) (data : ℕ → UInt8) (count offp : ℕ) (c : Consistent s) :
    Settles s (volCdevWrite g s st data count offp).1 := by
  unfold volCdevWrite
  split
  · exact Or.inl (same_volCdevDirectWrite g s st data count offp).keeps
  next hin =>
  have hs : InSession s := by
    by_contra h
    exact hin (not_or.mp h)
  have ⟨_,_,_,_,_,_,hr⟩ := c.buffer hs
  have hm : Settles s (if s.vol.updating=true then moreUpdateData g s st data count
      else moreLebChangeData g s st data count).1 := by
    by_cases hu : s.vol.updating=true
    · rw [if_pos hu]
      have hc : s.vol.changingLeb=false := by
        have := c.one
        simpa [hu] using this
      exact moreUpdateData_settles g st data count hc hr
    · rw [if_neg hu]
      exact moreLebChangeData_settles g st data count (by simpa using hu) hr
  generalize (if s.vol.updating=true then moreUpdateData g s st data count
      else moreLebChangeData g s st data count)=w at hm ⊢
  dsimp only
  split
  · exact hm
  split
  · exact hm
  split
  · exact hm.keeps (keeps_revokeExclusive w.1 .readwrite)
  have hq := hm.keeps (same_checkVolume g w.1 st).keeps
  generalize checkVolume g w.1 st=q at hq ⊢
  split
  · exact hq
  · generalize (if q.2≠0 then true else q.1.vol.corrupted)=b
    have hk : Keeps q.1 { q.1 with vol := { q.1.vol with corrupted := b, checked := true } } := by
      constructor <;> simp
    exact hq.keeps (hk.trans (keeps_revokeExclusive _ .readwrite))

theorem volCdevWrite_consistent (st : Steps) (data : ℕ → UInt8) (count offp : ℕ) (c : Consistent s) :
    Consistent (volCdevWrite g s st data count offp).1 := by
  by_cases hs : InSession s
  · exact (volCdevWrite_settles g st data count offp c).consistent c hs
  · unfold volCdevWrite
    rw [if_pos (not_or.mp hs)]
    exact (same_volCdevDirectWrite g s st data count offp).keeps.consistent c

theorem getExclusive_neg (s : State) :
    (getExclusive s).2<0 ↔ ¬s.vol.readers+s.vol.writers+s.vol.exclusive≤1 := by
  unfold getExclusive
  split
  next h => simp [EBUSY]; omega
  next h => cases s.mode <;> simp [OpenMode.number] <;> omega

/-- A flag that the wrapper of a start leaves alone. -/
theorem consistent_wrapped {b : Prop} [Decidable b] :
    Consistent (if b then revokeExclusive s .readwrite else s) ↔ Consistent s := by
  split
  swap
  · rfl
  constructor
  · intro h
    have k : Keeps (revokeExclusive s .readwrite) s := by constructor <;> simp [revokeExclusive]
    exact k.consistent h
  · exact (keeps_revokeExclusive s .readwrite).consistent

theorem iocVolup_consistent (st : Steps) (bytes : ℤ) (c : Consistent s) (ho : s.opened=true) :
    Consistent (iocVolup g s st bytes).1 ↔
      (volupAccepted g s st bytes → ¬InSession s∧updateStarts g s st bytes) := by
  have hneg := getExclusive_neg s
  have hk := keeps_getExclusive s
  unfold iocVolup volupAccepted
  dsimp only
  split
  next h => simp [h,c]
  split
  next h => simp [h,c]
  split
  next h => simp [h,c]
  split
  next h =>
    refine ⟨fun _ h' => ?_,fun _ => c⟩
    omega
  split
  next h =>
    exact ⟨fun _ h' => absurd h'.2.2.2.2.2 (hneg.mp h),fun _ => hk.consistent c⟩
  next h1 h2 h3 h4 h5 =>
    rw [consistent_wrapped,startUpdate_consistent g st _ (hk.consistent c) (hk.opened.trans ho),
      hk.inSession]
    have hm : (getExclusive s).1.vol.updMarker=s.vol.updMarker := by
      unfold getExclusive
      split <;> rfl
    have hb : ((bytes.toNat : ℕ) : ℤ)=bytes := Int.toNat_of_nonneg (by omega)
    have hs : updateStarts g (getExclusive s).1 st (bytes.toNat : ℕ) ↔ updateStarts g s st bytes := by
      unfold updateStarts
      rw [hm,hb]
    rw [hs]
    have hacc : st.capable=true∧st.argFault=false∧s.mode≠.readonly∧0≤bytes∧
        bytes≤(g.reservedPebs : ℤ)*g.lebSize-g.dataPad∧
        s.vol.readers+s.vol.writers+s.vol.exclusive≤1 :=
      ⟨by simpa using h1,by simpa using h2,h3,by omega,by omega,by
        by_contra hh
        exact h5 (hneg.mpr hh)⟩
    exact ⟨fun h _ => h,fun h => h hacc⟩

theorem iocEbch_consistent (st : Steps) (lnum bytes dtype : ℤ) (c : Consistent s)
    (ho : s.opened=true) :
    Consistent (iocEbch g s st lnum bytes dtype).1 ↔
      (ebchAccepted g s st lnum bytes dtype → bytes≠0 → ¬InSession s∧st.vmalloc=true) := by
  have hneg := getExclusive_neg s
  have hk := keeps_getExclusive s
  unfold iocEbch ebchAccepted
  dsimp only
  split
  next h => simp [h,c]
  split
  next h => 
    refine ⟨fun _ h' => ?_,fun _ => c⟩
    rcases h with h|h
    · exact absurd h h'.2.1
    · rw [h'.2.2.1] at h
      cases h
  split
  next h =>
    refine ⟨fun _ h' => ?_,fun _ => c⟩
    omega
  split
  next h =>
    refine ⟨fun _ h' => ?_,fun _ => c⟩
    omega
  split
  next h =>
    exact ⟨fun _ h' => absurd h'.2.2.2.2.2.2.2.2 (hneg.mp h),fun _ => hk.consistent c⟩
  next h1 h2 h3 h4 h5 =>
    rw [consistent_wrapped]
    by_cases hz : bytes=0
    · subst hz
      have hsame : Same (getExclusive s).1
          (startLebChange (getExclusive s).1 st lnum (0 : ℤ).toNat dtype).1 := same_emit _ _
      exact ⟨fun _ _ h => absurd rfl h,fun _ => (hk.trans hsame.keeps).consistent c⟩
    rw [startLebChange_consistent st lnum dtype (hk.consistent c) (hk.opened.trans ho)
      (by omega),hk.inSession]
    have hdyn : g.volType=.dynamic := by
      cases ht : g.volType with
      | dynamic => rfl
      | static => exact absurd (Or.inr ht) h2
    have hacc : st.argFault=false∧s.mode≠.readonly∧g.volType=.dynamic∧0≤lnum∧
        lnum<g.reservedPebs∧0≤bytes∧lnum<g.usableLebSize∧(dtype=1∨dtype=2∨dtype=3)∧
        s.vol.readers+s.vol.writers+s.vol.exclusive≤1 :=
      ⟨by simpa using h1,fun h => h2 (Or.inl h),hdyn,by omega,by omega,by omega,by omega,by omega,by
        by_contra hh
        exact h5 (hneg.mpr hh)⟩
    exact ⟨fun h _ _ => h,fun h => h hacc hz⟩

/-- One request keeps the state consistent exactly if it is orderly. -/
theorem step_consistent (r : Request) (c : Consistent s) :
    Consistent (step g s r) ↔ (s.opened=true → Orderly g s r) := by
  have k : Keeps s { s with log := [] } := by constructor <;> simp
  have c' := k.consistent c
  unfold step
  dsimp only
  split
  swap
  next ho => exact ⟨fun _ h => absurd h ho,fun _ => c'⟩
  next ho =>
  have always : ∀ q,Consistent q → (Consistent q ↔ (s.opened=true → True)) := by simp
  cases r with
  | volup bytes st =>
    rw [serve,iocVolup_consistent g st bytes c' ho]
    exact ⟨fun h _ => h,fun h => h ho⟩
  | ebch lnum bytes dtype st =>
    rw [serve,iocEbch_consistent g st lnum bytes dtype c' ho]
    exact ⟨fun h _ => h,fun h => h ho⟩
  | eber lnum st => exact always _ ((same_iocEber g _ st lnum).keeps.consistent c')
  | setDirectWrites value st =>
    rw [serve]
    split
    · exact always _ c'
    · have hk : Keeps s { s with vol := { s.vol with directWrites := value }, log := [] } := by
        constructor <;> simp
      exact always _ (hk.consistent c)
  | write data count offp st => exact always _ (volCdevWrite_consistent g st data count offp c')
  | read count offp st =>
    exact always _ ((same_volCdevRead g _ st count offp).keeps.consistent c')
  | close => exact always _ (volCdevRelease_consistent c')
  | otherOpen mode => exact always _ ((keeps_openVolume _ mode).consistent c')
  | otherClose mode => exact always _ ((keeps_closeVolume _ mode).consistent c')

theorem run_concat (s : State) (rs : List Request) (r : Request) :
    run g s (rs++[r])=step g (run g s rs) r := by
  simp [run]

/-- The session state is consistent after every request of a run exactly if
every request that starts a session finds the volume idle and gets through its
first steps. -/
theorem run_consistent (g : Geometry) {s : State} (c : Consistent s) (rs : List Request) :
    (∀ pre,pre<+:rs → Consistent (run g s pre)) ↔
      ∀ pre r,pre++[r]<+:rs → (run g s pre).opened=true → Orderly g (run g s pre) r := by
  constructor
  · intro h pre r hp
    have h1 := h pre ((List.prefix_append pre [r]).trans hp)
    have h2 := h (pre++[r]) hp
    rw [run_concat] at h2
    exact (step_consistent g r h1).mp h2
  · intro h pre
    induction pre using List.reverseRecOn with
    | nil => exact fun _ => c
    | append_singleton pre r ih =>
      intro hp
      rw [run_concat]
      exact (step_consistent g r (ih ((List.prefix_append pre [r]).trans hp))).mpr (h pre r hp)

/-! ## Where it goes wrong -/

/-- One LEB of a NOR flash. -/
def oneLeb : Geometry where
  volType := .dynamic
  lebSize := 65408
  minIoSize := 1
  dataPad := 0
  reservedPebs := 1
  pad_lt := by decide
  io_dvd := ⟨65408,by decide⟩
  leb_int := by decide
  rsvd_int := by decide

/-- The volume with a descriptor open for writing, no session having run. -/
def freshState : State where
  vol :=
    { usedBytes := 65408, usedEbs := 1, lastEbBytes := 65408, updMarker := false
      corrupted := false, checked := true, directWrites := false, updating := false
      changingLeb := false, updBuf := none, updEbs := 0, updBytes := 0, updReceived := 0
      chLnum := 0, chDtype := 0, readers := 0, writers := 1, exclusive := 0 }
  mode := .readwrite
  opened := true
  session := 0
  bufs := []
  freed := []
  mem := fun _ _ => 0
  log := []

/-- Every step succeeds. -/
def goodSteps : Steps where
  roMode := false
  capable := true
  argFault := false
  userFault := fun _ => false
  setRecord := 0
  clearRecord := 0
  unmap := fun _ => 0
  flush := 0
  vmalloc := true
  leb := fun _ => 0
  checkVmalloc := true
  check := fun _ => 0

theorem freshState_consistent : Consistent freshState where
  one := by simp [freshState]
  buffer := by simp [freshState,InSession]
  freedOnce := by simp [freshState]
  allocated := by simp [freshState]
  tags := by simp [freshState]
  closed := by simp [freshState]

/-- An orderly run of an update and a close. -/
theorem run_consistent_example :
    Consistent (run oneLeb freshState
      [.volup 2 goodSteps,.write (fun _ => 0) 1 0 goodSteps,.close]) := by
  refine (run_consistent oneLeb freshState_consistent
    [.volup 2 goodSteps,.write (fun _ => 0) 1 0 goodSteps,.close]).mpr ?_ _ (List.prefix_refl _)
  intro pre r hp _
  match pre with
  | [] =>
    have hr : r=.volup 2 goodSteps := by simpa [List.cons_prefix_cons] using hp
    subst hr
    exact fun _ => ⟨by decide,Or.inr rfl,fun _ _ => rfl,rfl⟩
  | [_] =>
    have hr : r=.write (fun _ => 0) 1 0 goodSteps := by
      simp only [List.cons_append,List.nil_append,List.cons_prefix_cons] at hp
      exact hp.2.1
    subst hr
    trivial
  | _::_::[] =>
    have hr : r=.close := by
      simp only [List.cons_append,List.nil_append,List.cons_prefix_cons] at hp
      exact hp.2.2.1
    subst hr
    trivial
  | _::_::_::_ =>
    have hlen := hp.length_le
    simp only [List.length_append,List.length_cons,List.length_nil] at hlen
    omega

/-- An update that ends well, one that fails to set its marker, and a close:
the buffer of the first is freed twice. -/
theorem run_inconsistent :
    Consistent freshState∧
    (run oneLeb freshState [.volup 2 goodSteps,.write (fun _ => 0) 2 0 goodSteps,
      .volup 2 { goodSteps with setRecord := -5 },.close]).freed=[0,0]∧
    ¬∀ (g : Geometry) (s : State) (rs : List Request),Consistent s →
      ∀ pre,pre<+:rs → Consistent (run g s pre) := by
  have hf : (run oneLeb freshState [.volup 2 goodSteps,.write (fun _ => 0) 2 0 goodSteps,
      .volup 2 { goodSteps with setRecord := -5 },.close]).freed=[0,0] := by decide +kernel
  have hb : (run oneLeb freshState [.volup 2 goodSteps,.write (fun _ => 0) 2 0 goodSteps,
      .volup 2 { goodSteps with setRecord := -5 },.close]).bufs.length=1 := by decide +kernel
  refine ⟨freshState_consistent,hf,fun h => ?_⟩
  have c := h oneLeb freshState _ freshState_consistent _ (List.prefix_refl
    [.volup 2 goodSteps,.write (fun _ => 0) 2 0 goodSteps,
      .volup 2 { goodSteps with setRecord := -5 },.close])
  have hcount := c.freedOnce 0 (by rw [hb]; decide)
  rw [hf] at hcount
  split at hcount <;> simp at hcount

end ArdroneKernel.UbiSession
