import ArdroneKernel.DspChannelQueues

/-!
# Steps on channels

What holds whenever no thread and not the DPC is inside of its critical section, and that every
step keeps it.
-/

namespace ArdroneKernel.DspChannels

open FiniteTable Function

variable {k : Config} {s s' : State} {g h t : ℕ}

/-- Who has the event of a channel, between the end of a wait and the lock. -/
def State.Taken (s : State) (h : ℕ) : Prop :=
  ∃ t dequeue flush,s.calls.get t=some (.woken h dequeue true flush)

/-- The buffers in the hands of a call. -/
def Call.bounces : Call → SysBuf → ℕ
  | .adding _ req, b => if req.hostSysBuf=b then 1 else 0
  | .ending _ _ _ b' _, b => if b'=b then 1 else 0
  | _, _ => 0

/-- A buffer is in the hands of a call only on behalf of the user. -/
def Call.Owns (chnlId : ℕ) : Call → Prop
  | .adding _ req => Boxed chnlId req.hostBuf req.hostSysBuf
  | .ending _ dequeue ioc b _ => Boxed chnlId ioc.pbuf b∧(dequeue=false → b.isBounce=false)
  | _ => True

/-- The channel of a call is there. -/
def Call.Fits (s : State) (p : Call) : Prop :=
  ∀ h,p.channel=some h → ∃ c,s.channels.get h=some c∧p.Owns c.chnlId

namespace State

/-- How often a buffer was freed, and how often it is in use. -/
def uses (s : State) (n : ℕ) : ℤ :=
  s.freed.count (.bounce n)+s.channels.total (fun _ c => (c.bounces (.bounce n):ℤ))+
    s.calls.total fun _ p => (p.bounces (.bounce n):ℤ)

/-- The part of this that one channel and one call have. -/
def share (s : State) (n h t : ℕ) : ℤ :=
  s.freed.count (.bounce n)+s.channels.worth (fun _ c => (c.bounces (.bounce n):ℤ)) h+
    s.calls.worth (fun _ p => (p.bounces (.bounce n):ℤ)) t

/-- How often a buffer was allocated. -/
def allocated (s : State) (n : ℕ) : ℤ := if n<s.nextBuf then 1 else 0

end State

/-- The invariant. -/
structure Good (s : State) : Prop where
  sound : ∀ h c,s.channels.get h=some c → c.Sound
  rings : ∀ h c,s.channels.get h=some c → c.Rings (s.Taken h)
  fits : ∀ t p,s.calls.get t=some p → p.Fits s
  slots : ∀ id h,s.apChannel id=some h → ∃ c,s.channels.get h=some c∧c.chnlId=id
  buffers : ∀ n,s.uses n=s.allocated n
  own : ∀ b∈s.freed,b.isBounce=true

/-! ## One channel and one call -/

/-- All that happens to the channels, the calls and the buffers is about one channel and one
call. -/
structure Change (s s' : State) (h t : ℕ) : Prop where
  channels : ∀ g,g≠h → s'.channels.get g=s.channels.get g
  calls : ∀ u,u≠t → s'.calls.get u=s.calls.get u
  chnlId : ∀ c,s.channels.get h=some c → ∃ c',s'.channels.get h=some c'∧c'.chnlId=c.chnlId
  sound : ∀ c,s'.channels.get h=some c → c.Sound∧c.Rings (s'.Taken h)
  taken : ∀ g,g≠h → s.Taken g → s'.Taken g
  fits : ∀ p,s'.calls.get t=some p → p.Fits s'
  slots : s'.apChannel=s.apChannel
  buffers : ∀ n,s'.share n h t-s'.allocated n=s.share n h t-s.allocated n
  own : ∀ b∈s'.freed,b∈s.freed∨b.isBounce=true

theorem Channel.Rings.mono {c : Channel} {taken taken' : Prop} (rings : c.Rings taken)
    (h : taken → taken') : c.Rings taken' where
  unset := rings.unset
  set hne := (rings.set hne).imp_right h

namespace Change

theorem channel (ch : Change s s' h t) {g : ℕ} {c : Channel} (hget : s.channels.get g=some c) :
    ∃ c',s'.channels.get g=some c'∧c'.chnlId=c.chnlId := by
  by_cases hg : g=h
  · rw [hg] at hget ⊢
    exact ch.chnlId c hget
  · exact ⟨c,(ch.channels g hg).trans hget,rfl⟩

theorem uses (ch : Change s s' h t) (n : ℕ) :
    s'.uses n-s'.allocated n=s.uses n-s.allocated n := by
  have hbuf := ch.buffers n
  have hchannels := Table.total_other (f := fun _ (c : Channel) => (c.bounces (.bounce n):ℤ))
    (g := fun _ (c : Channel) => (c.bounces (.bounce n):ℤ)) ch.channels fun _ _ _ _ => rfl
  have hcalls := Table.total_other (f := fun _ (p : Call) => (p.bounces (.bounce n):ℤ))
    (g := fun _ (p : Call) => (p.bounces (.bounce n):ℤ)) ch.calls fun _ _ _ _ => rfl
  unfold State.share at hbuf
  unfold State.uses
  omega

theorem good (ch : Change s s' h t) (good : Good s) : Good s' where
  sound g c hget := by
    by_cases hg : g=h
    · exact (ch.sound c (by rwa [← hg])).1
    · exact good.sound g c ((ch.channels g hg).symm.trans hget)
  rings g c hget := by
    by_cases hg : g=h
    · rw [hg] at hget ⊢
      exact (ch.sound c hget).2
    · exact (good.rings g c ((ch.channels g hg).symm.trans hget)).mono (ch.taken g hg)
  fits u p hget := by
    by_cases hu : u=t
    · exact ch.fits p (by rwa [← hu])
    · intro g hg
      have ⟨c,hc,howns⟩ := good.fits u p ((ch.calls u hu).symm.trans hget) g hg
      have ⟨c',hc',hid⟩ := ch.channel hc
      exact ⟨c',hc',by rwa [hid]⟩
  slots id g hslot := by
    rw [ch.slots] at hslot
    have ⟨c,hc,hid⟩ := good.slots id g hslot
    have ⟨c',hc',hid'⟩ := ch.channel hc
    exact ⟨c',hc',hid'.trans hid⟩
  buffers n := by
    have huses := ch.uses n
    rw [good.buffers n,sub_self] at huses
    exact sub_eq_zero.mp huses
  own b hb := (ch.own b hb).elim (good.own b) id

end Change

/-- A call that is not about to give back an event. -/
def Call.Idle (p : Call) : Prop := ∀ h dequeue flush,p≠.woken h dequeue true flush

theorem State.Taken.keep (hidle : ∀ p,s.calls.get t=some p → p.Idle)
    (hcalls : ∀ u,u≠t → s'.calls.get u=s.calls.get u) (h : s.Taken g) : s'.Taken g := by
  obtain ⟨u,dequeue,flush,hget⟩ := h
  have hu : u≠t := fun hu => hidle _ (by rwa [← hu]) g dequeue flush rfl
  exact ⟨u,dequeue,flush,(hcalls u hu).trans hget⟩

namespace Good

/-- What no proof looks at. -/
theorem other (good : Good s) (openChannels : BitVec 8) (outputMask : BitVec 32)
    (lastOutput : ℕ) :
    Good {s with
      openChannels := openChannels
      outputMask := outputMask
      lastOutput := lastOutput} :=
  ⟨good.sound,good.rings,good.fits,good.slots,good.buffers,good.own⟩

/-- Nothing happens to the channels, and at most one call changes. -/
theorem changeCall (good : Good s) (hchannels : s'.channels=s.channels)
    (hcalls : ∀ u,u≠t → s'.calls.get u=s.calls.get u) (hslots : s'.apChannel=s.apChannel)
    (hidle : ∀ p,s.calls.get t=some p → p.Idle)
    (hfits : ∀ p,s'.calls.get t=some p → p.Fits s)
    (hbuffers : ∀ n,
      (s'.freed.count (.bounce n):ℤ)+s'.calls.worth (fun _ p => (p.bounces (.bounce n):ℤ)) t-
          s'.allocated n=
        s.freed.count (.bounce n)+s.calls.worth (fun _ p => (p.bounces (.bounce n):ℤ)) t-
          s.allocated n)
    (hown : ∀ b∈s'.freed,b∈s.freed∨b.isBounce=true) : Good s' := by
  have ch : Change s s' 0 t := by
    refine ⟨fun _ _ => by rw [hchannels],hcalls,fun c hc => ⟨c,by rwa [hchannels],rfl⟩,?_,?_,?_,
      hslots,?_,hown⟩
    · intro c hc
      rw [hchannels] at hc
      exact ⟨good.sound 0 c hc,(good.rings 0 c hc).mono (State.Taken.keep hidle hcalls)⟩
    · intro g _
      exact State.Taken.keep hidle hcalls
    · intro p hp g hg
      rw [hchannels]
      exact hfits p hp g hg
    · intro n
      have hbuf := hbuffers n
      have hchannel : s'.channels.worth (fun _ c => (c.bounces (.bounce n):ℤ)) 0=
          s.channels.worth (fun _ c => (c.bounces (.bounce n):ℤ)) 0 := by rw [hchannels]
      unfold State.share
      omega
  exact ch.good good

/-- A call begins or goes on, and nothing else happens. -/
theorem setCall (good : Good s) {p : Call} (hidle : ∀ p,s.calls.get t=some p → p.Idle)
    (hfits : p.Fits s)
    (hworth : ∀ n,s.calls.worth (fun _ p => (p.bounces (.bounce n):ℤ)) t=
      (p.bounces (.bounce n):ℤ)) : Good (s.setCall t p) := by
  have hnew : (s.setCall t p).calls.get t=some p := Table.get_put _ _ _
  refine good.changeCall rfl (fun u hu => Table.get_put_of_ne hu) rfl hidle ?_ ?_
    fun b hb => Or.inl hb
  · intro p' hp'
    cases hnew.symm.trans hp'
    exact hfits
  · intro n
    rw [Table.worth_some hnew,hworth]
    rfl

/-- A call returns, with no buffer in its hands. -/
theorem endCall (good : Good s) (hidle : ∀ p,s.calls.get t=some p → p.Idle)
    (hworth : ∀ n,s.calls.worth (fun _ p => (p.bounces (.bounce n):ℤ)) t=0) :
    Good (s.endCall t) := by
  have hnone : (s.endCall t).calls.get t=none := Table.get_erase _ _
  refine good.changeCall rfl (fun u hu => Table.get_erase_of_ne hu) rfl hidle ?_ ?_
    fun b hb => Or.inl hb
  · intro p hp
    cases hnone.symm.trans hp
  · intro n
    rw [Table.worth_none hnone,hworth]
    rfl

/-- Requests move along the queue of a channel. -/
theorem keep (good : Good s) {c c' : Channel} (hget : s.channels.get h=some c)
    (keeps : c.Keeps c' (s.Taken h)) : Good (s.setChannel h c') := by
  have hnew : (s.setChannel h c').channels.get h=some c' := Table.get_put _ _ _
  have hid : c'.chnlId=c.chnlId := keeps.moved.chnlId
  have hchnl (d : Channel) (hd : s.channels.get h=some d) :
      ∃ d',(s.setChannel h c').channels.get h=some d'∧d'.chnlId=d.chnlId := by
    cases hget.symm.trans hd
    exact ⟨c',hnew,hid⟩
  have hchannels (g : ℕ) (hg : g≠h) : (s.setChannel h c').channels.get g=s.channels.get g :=
    Table.get_put_of_ne hg
  have ch : Change s (s.setChannel h c') h 0 := by
    refine ⟨hchannels,fun _ _ => rfl,hchnl,?_,fun _ _ => id,?_,rfl,?_,fun b hb => Or.inl hb⟩
    · intro d hd
      cases hnew.symm.trans hd
      exact ⟨keeps.sound,keeps.rings⟩
    · intro p hp g hg
      have ⟨d,hd,howns⟩ := good.fits 0 p hp g hg
      by_cases hgh : g=h
      · rw [hgh] at hd ⊢
        have ⟨d',hd',hid'⟩ := hchnl d hd
        exact ⟨d',hd',by rwa [hid']⟩
      · exact ⟨d,(hchannels g hgh).trans hd,howns⟩
    · intro n
      unfold State.share
      rw [Table.worth_some hnew,Table.worth_some hget,keeps.moved.bounces]
      rfl
  exact ch.good good

/-- A channel and a call change. -/
theorem changeBoth (good : Good s) {c c' : Channel} (hget : s.channels.get h=some c)
    (hchannels : s'.channels=s.channels.put h c')
    (hcalls : ∀ u,u≠t → s'.calls.get u=s.calls.get u) (hslots : s'.apChannel=s.apChannel)
    (hid : c'.chnlId=c.chnlId) (sound : c'.Sound) (rings : c'.Rings (s'.Taken h))
    (htaken : ∀ g,g≠h → s.Taken g → s'.Taken g)
    (hfits : ∀ p,s'.calls.get t=some p → p.channel=some h∧p.Owns c.chnlId)
    (hbuffers : ∀ n,
      (c'.bounces (.bounce n):ℤ)+s'.calls.worth (fun _ p => (p.bounces (.bounce n):ℤ)) t=
        c.bounces (.bounce n)+s.calls.worth (fun _ p => (p.bounces (.bounce n):ℤ)) t)
    (hfreed : s'.freed=s.freed) (hnext : s'.nextBuf=s.nextBuf) : Good s' := by
  have hnew : s'.channels.get h=some c' := by
    rw [hchannels]
    exact Table.get_put _ _ _
  have ch : Change s s' h t := by
    refine ⟨?_,hcalls,?_,?_,htaken,?_,hslots,?_,?_⟩
    · intro g hg
      rw [hchannels]
      exact Table.get_put_of_ne hg
    · intro d hd
      cases hget.symm.trans hd
      exact ⟨c',hnew,hid⟩
    · intro d hd
      cases hnew.symm.trans hd
      exact ⟨sound,rings⟩
    · intro p hp g hg
      have ⟨hchannel,howns⟩ := hfits p hp
      cases hchannel.symm.trans hg
      exact ⟨c',hnew,by rwa [hid]⟩
    · intro n
      have hbuf := hbuffers n
      unfold State.share State.allocated
      rw [Table.worth_some hnew,Table.worth_some hget,hfreed,hnext]
      omega
    · intro b hb
      rw [hfreed] at hb
      exact Or.inl hb
  exact ch.good good

end Good

/-- A thread that has neither an event nor a buffer to give back. -/
def State.Plain (s : State) (t : ℕ) : Prop :=
  ∀ p,s.calls.get t=some p → p.Idle∧∀ n,p.bounces (.bounce n)=0

theorem State.Plain.of_none (h : s.calls.get t=none) : s.Plain t := by
  intro p hp
  cases h.symm.trans hp

theorem State.Plain.of_some {p : Call} (h : s.calls.get t=some p) (hidle : p.Idle)
    (hzero : ∀ n,p.bounces (.bounce n)=0) : s.Plain t := by
  intro p' hp'
  cases h.symm.trans hp'
  exact ⟨hidle,hzero⟩

theorem State.Plain.worth (h : s.Plain t) (n : ℕ) :
    s.calls.worth (fun _ p => (p.bounces (.bounce n):ℤ)) t=0 := by
  cases hget : s.calls.get t with
  | none => exact Table.worth_none hget
  | some p =>
    rw [Table.worth_some hget,(h p hget).2]
    rfl

theorem Call.Fits.intro {p : Call} {c : Channel} (hget : s.channels.get h=some c)
    (hchannel : p.channel=some h) (howns : p.Owns c.chnlId) : p.Fits s := by
  intro g hg
  cases hchannel.symm.trans hg
  exact ⟨c,hget,howns⟩

namespace Good

theorem setPlain (good : Good s) (plain : s.Plain t) {p : Call} (hfits : p.Fits s)
    (hzero : ∀ n,p.bounces (.bounce n)=0) : Good (s.setCall t p) := by
  refine good.setCall (fun p hp => (plain p hp).1) hfits fun n => ?_
  rw [plain.worth,hzero]
  rfl

theorem endPlain (good : Good s) (plain : s.Plain t) : Good (s.endCall t) :=
  good.endCall (fun p hp => (plain p hp).1) plain.worth

end Good

/-! ## Opening -/

variable {c : Channel} {input : Bool} {uioReqs : ℕ}

theorem open_good (good : Good s) (hnone : s.calls.get t=none) (chnlId : Option ℕ) :
    Good (bridgeChnlOpen s t chnlId input uioReqs).1 := by
  have hopening (id : ℕ) : Good (s.setCall t (.opening id input uioReqs)) :=
    good.setPlain (.of_none hnone) nofun fun _ => rfl
  unfold bridgeChnlOpen
  split
  · exact good
  · cases chnlId with
    | none =>
      dsimp only
      split
      · exact good
      · exact hopening _
    | some id =>
      dsimp only
      split
      · exact good
      · split
        · exact good
        · exact hopening id

/-- A channel at an address that is not in use. -/
theorem Good.insert (good : Good s) (input : Bool) (uioReqs : ℕ) (hfree : s.channels.get h=none) (chnlId : ℕ) :
    Good (s.setChannel h (.new chnlId input uioReqs)) := by
  have hnew : (s.setChannel h (.new chnlId input uioReqs)).channels.get h=
      some (.new chnlId input uioReqs) := Table.get_put _ _ _
  have hchannels (g : ℕ) (hg : g≠h) :
      (s.setChannel h (.new chnlId input uioReqs)).channels.get g=s.channels.get g :=
    Table.get_put_of_ne hg
  have hnone (d : Channel) (hd : s.channels.get h=some d) :
      ∃ d',(s.setChannel h (.new chnlId input uioReqs)).channels.get h=some d'∧
        d'.chnlId=d.chnlId := by
    cases hfree.symm.trans hd
  have ch : Change s (s.setChannel h (.new chnlId input uioReqs)) h 0 := by
    refine ⟨hchannels,fun _ _ => rfl,hnone,?_,fun _ _ => id,?_,rfl,?_,fun b hb => Or.inl hb⟩
    · intro d hd
      cases hnew.symm.trans hd
      exact ⟨Channel.new_sound _ _ _,fun _ => rfl,fun hne => absurd rfl hne⟩
    · intro p hp g hg
      have ⟨d,hd,howns⟩ := good.fits 0 p hp g hg
      have hgh : g≠h := by
        intro hgh
        rw [hgh] at hd
        cases hfree.symm.trans hd
      exact ⟨d,(hchannels g hgh).trans hd,howns⟩
    · intro n
      unfold State.share
      rw [Table.worth_some hnew,Table.worth_none hfree,Channel.new_bounces]
      rfl
  exact ch.good good

theorem Good.slot (good : Good s) (hget : s.channels.get h=some c) :
    Good {s with apChannel := update s.apChannel c.chnlId (some h)} := by
  refine ⟨good.sound,good.rings,good.fits,fun id g hslot => ?_,good.buffers,good.own⟩
  by_cases hid : id=c.chnlId
  · have hslot' : update s.apChannel c.chnlId (some h) id=some g := hslot
    rw [hid,update_self] at hslot'
    cases hslot'
    exact ⟨c,hget,hid.symm⟩
  · have hslot' : update s.apChannel c.chnlId (some h) id=some g := hslot
    rw [update_of_ne hid] at hslot'
    exact good.slots id g hslot'

theorem openInsert_good (good : Good s) {chnlId : ℕ}
    (hcall : s.calls.get t=some (.opening chnlId input uioReqs))
    (hfree : s.channels.get h=none) (allocated : Bool) :
    Good (bridgeChnlOpenInsert s t chnlId input uioReqs h allocated).1 := by
  have plain : s.Plain t := .of_some hcall nofun fun _ => rfl
  unfold bridgeChnlOpenInsert
  split
  · exact good.endPlain plain
  · have hnew : (s.setChannel h (.new chnlId input uioReqs)).channels.get h=
        some (.new chnlId input uioReqs) := Table.get_put _ _ _
    have good' := good.insert input uioReqs hfree chnlId
    have good'' := good'.setPlain (t := t) (p := .inserted h) plain
      (.intro hnew rfl trivial) fun _ => rfl
    exact good''.slot hnew

theorem Channel.Keeps.of_state (sound : c.Sound) {taken : Prop} (rings : c.Rings taken)
    (cancel eos opened : Bool) (bytesMoved : ℕ) :
    c.Keeps {c with
      cancel := cancel
      eos := eos
      opened := opened
      bytesMoved := bytesMoved} taken := by
  have moved : c.Moved {c with
      cancel := cancel
      eos := eos
      opened := opened
      bytesMoved := bytesMoved} := ⟨rfl,rfl,rfl,rfl,rfl,rfl⟩
  exact ⟨moved,moved.sound sound sound.reqs sound.cs,rings.unset,rings.set⟩

/-- The state, the byte count. -/
theorem Good.setState (good : Good s) (hget : s.channels.get h=some c) (cancel eos opened : Bool)
    (bytesMoved : ℕ) :
    Good (s.setChannel h {c with
      cancel := cancel
      eos := eos
      opened := opened
      bytesMoved := bytesMoved}) :=
  good.keep hget
    (.of_state (good.sound h c hget) (good.rings h c hget) cancel eos opened bytesMoved)

theorem openReady_good (good : Good s) (hcall : s.calls.get t=some (.inserted h))
    (hget : s.channels.get h=some c) : Good (bridgeChnlOpenReady s t h c).1 := by
  have plain : s.Plain t := .of_some hcall nofun fun _ => rfl
  have good' := (good.setState hget false false true c.bytesMoved).endPlain (t := t) plain
  exact good'.other _ _ _

/-! ## Requests -/

theorem State.allocated_succ (s : State) (n : ℕ) :
    ({s with nextBuf := s.nextBuf+1} : State).allocated n=
      s.allocated n+if SysBuf.bounce s.nextBuf=.bounce n then 1 else 0 := by
  unfold State.allocated
  simp only [SysBuf.bounce.injEq]
  split <;> split <;> split <;> omega

theorem count_freed (l : List SysBuf) (b b' : SysBuf) :
    ((l++[b]).count b':ℤ)=l.count b'+if b=b' then 1 else 0 := by
  rw [List.count_append,List.count_singleton,Int.natCast_add]
  simp only [beq_iff_eq]
  split <;> rfl

theorem cast_same (b b' : SysBuf) :
    ((if b=b' then 1 else 0:ℕ):ℤ)=if b=b' then 1 else 0 := by
  split <;> rfl

theorem add_good (good : Good s) (hnone : s.calls.get t=none) (hget : s.channels.get h=some c)
    (req : Request) (allocated copied : Bool) :
    Good (bridgeChnlAddIoReq s t h c req allocated copied).1 := by
  have plain := State.Plain.of_none hnone
  unfold bridgeChnlAddIoReq
  split
  · exact good
  split
  · exact good
  split
  · exact good
  split
  · exact good
  split
  next hid =>
    refine good.setPlain plain (.intro hget rfl ?_) fun n => rfl
    have hlow : decide (1<c.chnlId)=false := decide_eq_false (Nat.not_lt.mpr hid)
    unfold Call.Owns Boxed
    rw [hlow]
    rfl
  next hid =>
    have hhigh : decide (1<c.chnlId)=true := decide_eq_true (Nat.not_le.mp hid)
    split
    next addr haddr =>
      split
      · exact good
      have hbox : Boxed c.chnlId req.hostBuf (.bounce s.nextBuf) := by
        unfold Boxed
        rw [hhigh,haddr]
        rfl
      have hworth := plain.worth
      split
      · refine good.changeCall (t := t) rfl (fun _ _ => rfl) rfl (fun p hp => (plain p hp).1) ?_ ?_
          ?_
        · intro p hp
          cases hnone.symm.trans hp
        · intro n
          have halloc := s.allocated_succ n
          have hcount := count_freed s.freed (.bounce s.nextBuf) (.bounce n)
          unfold State.kfree
          unfold State.allocated at halloc ⊢
          dsimp only at halloc ⊢
          omega
        · intro b hb
          obtain hold|hb := List.mem_append.mp hb
          · exact Or.inl hold
          · rw [List.mem_singleton.mp hb]
            exact Or.inr rfl
      · let adding : Call := .adding h {req with hostSysBuf := .bounce s.nextBuf}
        have hnew : (s.calls.put t adding).get t=some adding := Table.get_put _ _ _
        refine good.changeCall (t := t) rfl (fun u hu => Table.get_put_of_ne hu) rfl
          (fun p hp => (plain p hp).1) ?_ ?_ fun b hb => Or.inl hb
        · intro p hp
          cases hnew.symm.trans hp
          exact .intro hget rfl hbox
        · intro n
          have halloc := s.allocated_succ n
          have hput : (s.calls.put t adding).worth (fun _ p => (p.bounces (.bounce n):ℤ)) t=
              if SysBuf.bounce s.nextBuf=.bounce n then 1 else 0 := by
            rw [Table.worth_some hnew]
            exact cast_same _ _
          unfold State.setCall
          rw [hput,hworth]
          unfold State.allocated at halloc ⊢
          dsimp only at halloc ⊢
          omega
    next hbuf =>
      refine good.setPlain plain (.intro hget rfl ?_) fun n => rfl
      have huser : req.hostBuf.isUser=false := by
        cases hhost : req.hostBuf with
        | user addr => exact absurd hhost (hbuf addr)
        | null => rfl
        | system addr => rfl
      unfold Call.Owns Boxed
      dsimp only
      rw [huser,Bool.and_false]
      rfl

/-- A request with a buffer fits, and there is a packet for it. -/
def Room (k : Config) (c : Channel) (req : Request) : Prop :=
  req.hostSysBuf.isBounce=true →
    (c.input=true∨req.byteSize≤k.usmBufSize)∧c.freePackets≠[]

theorem queue_good (good : Good s) {req : Request} (hcall : s.calls.get t=some (.adding h req))
    (hget : s.channels.get h=some c) (room : Room k c req) :
    Good (bridgeChnlAddIoReqQueue k s t h c req).1 := by
  have hboxed : Boxed c.chnlId req.hostBuf req.hostSysBuf := by
    have ⟨d,hd,howns⟩ := good.fits t _ hcall h rfl
    cases hget.symm.trans hd
    exact howns
  have hidle (p : Call) (hp : s.calls.get t=some p) : p.Idle := by
    cases hcall.symm.trans hp
    exact nofun
  have hworth (n : ℕ) : s.calls.worth (fun _ p => (p.bounces (.bounce n):ℤ)) t=
      if req.hostSysBuf=.bounce n then 1 else 0 := by
    rw [Table.worth_some hcall]
    exact cast_same _ _
  have hlost (hbounce : req.hostSysBuf.isBounce=false) : Good (s.endCall t) := by
    refine good.endCall hidle fun n => ?_
    rw [hworth,if_neg]
    intro heq
    rw [heq] at hbounce
    cases hbounce
  unfold bridgeChnlAddIoReqQueue
  split
  next hbig =>
    refine hlost (Bool.eq_false_iff.mpr fun hbounce => ?_)
    obtain hin|hle := (room hbounce).1
    · exact absurd (hin.symm.trans hbig.1) (by decide)
    · exact absurd hbig.2 (Nat.not_lt.mpr hle)
  next =>
    cases hfree : c.freePackets with
    | nil => exact hlost (Bool.eq_false_iff.mpr fun hbounce => (room hbounce).2 hfree)
    | cons chirp chirps =>
      have hbox : Boxed c.chnlId (req.irp k c chirp).hostUserBuf
          (req.irp k c chirp).hostSysBuf := by
        unfold Request.irp
        split
        · exact hboxed
        next hlow =>
          unfold Boxed
          rw [decide_eq_false hlow]
          rfl
      have hsame (n : ℕ) : (req.irp k c chirp).hostSysBuf=.bounce n↔req.hostSysBuf=.bounce n := by
        unfold Request.irp
        split
        · exact Iff.rfl
        next hlow =>
          refine ⟨nofun,fun heq => ?_⟩
          rw [heq] at hboxed
          exact absurd hboxed.bounce.1 hlow
      have sound := Channel.enqueue_sound (p := req.irp k c chirp) (good.sound h c hget) hfree
        rfl rfl hbox
      have rings := good.rings h c hget
      have htaken (g : ℕ) (htaken : s.Taken g) :
          ((s.setChannel h (c.enqueue (req.irp k c chirp) chirps)).endCall t).Taken g :=
        htaken.keep hidle fun u hu => Table.get_erase_of_ne hu
      have hnone : (s.calls.erase t).get t=none := Table.get_erase _ _
      refine Good.other ?_ _ _ _
      refine good.changeBoth hget rfl (fun u hu => Table.get_erase_of_ne hu) rfl rfl sound
        ⟨rings.unset,fun hne => (rings.set hne).imp_right (htaken h)⟩ (fun g _ => htaken g) ?_ ?_
        rfl rfl
      · intro p hp
        cases hnone.symm.trans hp
      · intro n
        have hworth' : ((s.setChannel h (c.enqueue (req.irp k c chirp) chirps)).endCall t).calls.worth
            (fun _ p => (p.bounces (.bounce n):ℤ)) t=0 := Table.worth_none hnone
        rw [hworth',hworth,Channel.enqueue_bounces,Int.natCast_add,cast_same,Int.add_zero]
        congr 1
        exact ite_congr (propext (hsame n)) (fun _ => rfl) fun _ => rfl

/-! ## Cancelling and clearing -/

/-- Nothing is cancelled that its event does not tell of. -/
def Channel.Answered (c : Channel) (taken : Prop) : Prop :=
  c.ioRequests=[]∨0<c.syncEvent∨taken

theorem cancel_good (good : Good s) (hget : s.channels.get h=some c)
    (answered : c.Answered (s.Taken h)) : Good (bridgeChnlCancelIo s h c) := by
  have good' := good.keep hget
    (Channel.cancelIo_keeps (good.sound h c hget) (good.rings h c hget) answered)
  exact good'.other _ _ _

/-- And the caller goes on. -/
theorem cancel_call (good : Good s) (hget : s.channels.get h=some c)
    (answered : c.Answered (s.Taken h)) (plain : s.Plain t) {p : Call} (hchannel : p.channel=some h)
    (howns : p.Owns c.chnlId) (hzero : ∀ n,p.bounces (.bounce n)=0) :
    Good ((bridgeChnlCancelIo s h c).setCall t p) := by
  have hnew : (bridgeChnlCancelIo s h c).channels.get h=some c.cancelIo := Table.get_put _ _ _
  have hid : c.cancelIo.chnlId=c.chnlId := c.cancelIo_moved.chnlId
  exact (cancel_good good hget answered).setPlain plain (.intro hnew hchannel (by rwa [hid])) hzero

theorem flush_good (good : Good s) (hnone : s.calls.get t=none) (hget : s.channels.get h=some c)
    (answered : c.input=true → c.Answered (s.Taken h)) (nowait : Bool) :
    Good (bridgeChnlFlushIo s t h c nowait).1 := by
  have plain := State.Plain.of_none hnone
  unfold bridgeChnlFlushIo
  split
  · split
    · exact good
    · exact good.setPlain plain (.intro hget rfl trivial) fun _ => rfl
  next hin =>
    exact cancel_call good hget (answered (Bool.not_eq_false _ ▸ hin)) plain rfl trivial
      fun _ => rfl

theorem idle_good (good : Good s) (hnone : s.calls.get t=none) (hget : s.channels.get h=some c)
    {fFlush : Bool} (answered : c.input=true∨fFlush=true → c.Answered (s.Taken h))
    (nowait : Bool) : Good (bridgeChnlIdle s t h c nowait fFlush).1 := by
  unfold bridgeChnlIdle
  split
  · exact flush_good good hnone hget (fun hin => answered (Or.inl hin)) nowait
  next hnot =>
    refine cancel_call good hget (answered ?_) (.of_none hnone) rfl trivial fun _ => rfl
    rw [not_and_or,Bool.not_eq_false,Bool.not_eq_false] at hnot
    exact hnot

theorem close_good (good : Good s) (hnone : s.calls.get t=none) (hget : s.channels.get h=some c)
    (answered : c.Answered (s.Taken h)) : Good (bridgeChnlClose s t h c).1 :=
  cancel_call good hget answered (.of_none hnone) rfl trivial fun _ => rfl

theorem clearRead_good (good : Good s) {idle : Bool}
    (hcall : s.calls.get t=some (.clearing h idle)) (hget : s.channels.get h=some c) :
    Good (clearCancelRead s t h c idle).1 := by
  have plain : s.Plain t := .of_some hcall nofun fun _ => rfl
  have good' := good.setState hget c.cancel c.eos c.opened (if idle=true then 0 else c.bytesMoved)
  have hnew : (s.setChannel h {c with
      bytesMoved := if idle=true then 0 else c.bytesMoved}).channels.get h=some {c with
      bytesMoved := if idle=true then 0 else c.bytesMoved} := Table.get_put _ _ _
  exact good'.setPlain (t := t) plain (.intro hnew rfl trivial) fun _ => rfl

theorem clearWrite_good (good : Good s) {eos : Bool}
    (hcall : s.calls.get t=some (.writing h eos)) (hget : s.channels.get h=some c) :
    Good (clearCancelWrite s t h c eos).1 := by
  have plain : s.Plain t := .of_some hcall nofun fun _ => rfl
  exact (good.setState hget false eos c.opened c.bytesMoved).endPlain (t := t) plain

/-! ## Completions -/

theorem getIoc_good (good : Good s) (plain : s.Plain t) (hget : s.channels.get h=some c)
    (nowait flush : Bool) : Good (bridgeChnlGetIoc s t h c nowait flush).1 := by
  unfold bridgeChnlGetIoc
  split
  · split
    · exact good
    · exact good.setPlain plain (.intro hget rfl trivial) fun _ => rfl
  · exact good.setPlain plain (.intro hget rfl trivial) fun _ => rfl

theorem loop_good (good : Good s) (hcall : s.calls.get t=some (.flushing h))
    (hget : s.channels.get h=some c) : Good (bridgeChnlFlushIoLoop s t h c).1 := by
  have plain : s.Plain t := .of_some hcall nofun fun _ => rfl
  unfold bridgeChnlFlushIoLoop
  split
  · exact good.endPlain plain
  · exact getIoc_good good plain hget false true

theorem wait_good (good : Good s) {flush : Bool} (hcall : s.calls.get t=some (.waiting h flush))
    (hget : s.channels.get h=some c) (signal : Bool) :
    Good (syncWaitOnEvent s t h c flush signal).1 := by
  have plain : s.Plain t := .of_some hcall nofun fun _ => rfl
  unfold syncWaitOnEvent
  split
  next hset =>
    let c' : Channel := {c with syncEvent := c.syncEvent-1}
    let woken : Call := .woken h true true flush
    have sound := good.sound h c hget
    have moved : c.Moved c' := ⟨rfl,rfl,rfl,rfl,rfl,rfl⟩
    have hnew : ((s.setChannel h c').setCall t woken).calls.get t=some woken := Table.get_put _ _ _
    have hother (u : ℕ) (hu : u≠t) :
        ((s.setChannel h c').setCall t woken).calls.get u=s.calls.get u := Table.get_put_of_ne hu
    refine good.changeBoth hget rfl hother rfl rfl (moved.sound sound sound.reqs sound.cs)
      ⟨?_,fun _ => Or.inr ⟨t,true,flush,hnew⟩⟩ ?_ ?_ ?_ rfl rfl
    · intro hnil
      have hzero := (good.rings h c hget).unset hnil
      exact absurd hset (by omega)
    · intro g _ htaken
      exact htaken.keep (fun p hp => (plain p hp).1) hother
    · intro p hp
      cases hnew.symm.trans hp
      exact ⟨rfl,trivial⟩
    · intro n
      rw [Table.worth_some hnew,plain.worth]
      rfl
  · exact good.setPlain plain (.intro hget rfl trivial) fun _ => rfl

/-- Whoever had the event leaves it as it should be. -/
theorem dequeue_good (good : Good s) {dequeue took flush : Bool}
    (hcall : s.calls.get t=some (.woken h dequeue took flush))
    (hget : s.channels.get h=some c) : Good (bridgeChnlGetIocDequeue s t h c dequeue flush).1 := by
  cases hdeq : c.dequeueIoc dequeue with
  | mk c' rest =>
    obtain ⟨ioc,b⟩ := rest
    let ending : Call := .ending h dequeue ioc b flush
    have hnew : ((s.setChannel h c').setCall t ending).calls.get t=some ending :=
      Table.get_put _ _ _
    have ⟨sound,rings,hid,hboxed,hnot,hbounces⟩ :=
      Channel.dequeueIoc_spec (((s.setChannel h c').setCall t ending).Taken h)
        (good.sound h c hget) dequeue hdeq
    unfold bridgeChnlGetIocDequeue
    rw [hdeq]
    refine good.changeBoth (t := t) hget rfl (fun u hu => Table.get_put_of_ne hu) rfl hid sound
      rings ?_ ?_ ?_ rfl rfl
    · rintro g hg ⟨u,dequeue',flush',hu⟩
      have hut : u≠t := by
        intro hut
        rw [hut] at hu
        cases hcall.symm.trans hu
        exact hg rfl
      exact ⟨u,dequeue',flush',(Table.get_put_of_ne hut).trans hu⟩
    · intro p hp
      cases hnew.symm.trans hp
      exact ⟨rfl,hboxed,hnot⟩
    · intro n
      have hworth : ((s.setChannel h c').setCall t ending).calls.worth
          (fun _ p => (p.bounces (.bounce n):ℤ)) t=if b=.bounce n then 1 else 0 := by
        rw [Table.worth_some hnew]
        exact cast_same _ _
      have hold : s.calls.worth (fun _ p => (p.bounces (.bounce n):ℤ)) t=0 :=
        Table.worth_some hcall
      rw [hworth,hold,hbounces n,Int.natCast_add,cast_same,Int.add_zero]

theorem SysBuf.ne_bounce {b : SysBuf} (h : b.isBounce=false) (n : ℕ) : b≠.bounce n := by
  intro heq
  rw [heq] at h
  cases h

/-- What is freed is the buffer, if there is one. -/
theorem iocBuffer_spec {dequeue : Bool} {ioc : Ioc} {b : SysBuf}
    (hboxed : Boxed c.chnlId ioc.pbuf b) (hnot : dequeue=false → b.isBounce=false)
    (copied : Bool) :
    (iocBuffer c dequeue ioc b copied).2=if b.isBounce=true then [b] else [] := by
  unfold iocBuffer
  unfold Boxed at hboxed
  split
  next hdeq =>
    rw [decide_eq_true hdeq.2,Bool.true_and] at hboxed
    cases hpbuf : ioc.pbuf with
    | null =>
      rw [hboxed,hpbuf]
      rfl
    | system addr =>
      rw [hboxed,hpbuf]
      rfl
    | user addr =>
      rw [hpbuf] at hboxed
      have hb : b≠.host .null := by
        intro heq
        rw [heq] at hboxed
        cases hboxed
      have hbounce : b.isBounce=true := hboxed
      rw [if_neg hb,if_pos hbounce]
  next hdeq =>
    have hfalse : b.isBounce=false := by
      cases hd : dequeue with
      | false => exact hnot hd
      | true =>
        have hlow : ¬1<c.chnlId := fun hlt => hdeq ⟨hd,hlt⟩
        rw [hboxed,decide_eq_false hlow,Bool.false_and]
    rw [hfalse]
    rfl

theorem getEnd_good (good : Good s) {dequeue flush : Bool} {ioc : Ioc} {b : SysBuf}
    (hcall : s.calls.get t=some (.ending h dequeue ioc b flush))
    (hget : s.channels.get h=some c) (copied : Bool) :
    Good (bridgeChnlGetIocEnd s t h c dequeue ioc b flush copied).1 := by
  have ⟨d,hd,hboxed,hnot⟩ := good.fits t _ hcall h rfl
  cases hget.symm.trans hd
  obtain ⟨⟨err,frees⟩,hfrees⟩ : ∃ r,iocBuffer c dequeue ioc b copied=r := ⟨_,rfl⟩
  have hspec := iocBuffer_spec hboxed hnot copied
  rw [hfrees] at hspec
  dsimp only at hspec
  have hidle (p : Call) (hp : s.calls.get t=some p) : p.Idle := by
    cases hcall.symm.trans hp
    exact nofun
  have hworth (n : ℕ) : s.calls.worth (fun _ p => (p.bounces (.bounce n):ℤ)) t=
      if b=.bounce n then 1 else 0 := by
    rw [Table.worth_some hcall]
    exact cast_same _ _
  have hcount (n : ℕ) : ((s.freed++frees).count (.bounce n):ℤ)=
      s.freed.count (.bounce n)+if b=.bounce n then 1 else 0 := by
    cases hb : b.isBounce with
    | true =>
      rw [hb] at hspec
      rw [hspec]
      exact count_freed _ _ _
    | false =>
      rw [hb] at hspec
      rw [hspec,if_neg (SysBuf.ne_bounce hb n),Int.add_zero]
      exact congrArg (fun l : List SysBuf => (l.count (.bounce n):ℤ)) (List.append_nil _)
  have hown (x : SysBuf) (hx : x∈s.freed++frees) : x∈s.freed∨x.isBounce=true := by
    obtain hold|hnew := List.mem_append.mp hx
    · exact Or.inl hold
    · rw [hspec] at hnew
      split at hnew
      next hb =>
        rw [List.mem_singleton.mp hnew]
        exact Or.inr hb
      · exact absurd hnew List.not_mem_nil
  have hdone : Good ({s with freed := s.freed++frees}.endCall t) := by
    have hnone : (s.calls.erase t).get t=none := Table.get_erase _ _
    refine good.changeCall (t := t) rfl (fun u hu => Table.get_erase_of_ne hu) rfl hidle ?_ ?_ hown
    · intro p hp
      cases hnone.symm.trans hp
    · intro n
      have hzero : ({s with freed := s.freed++frees}.endCall t).calls.worth
          (fun _ p => (p.bounces (.bounce n):ℤ)) t=0 := Table.worth_none hnone
      rw [hzero,hworth,Int.add_zero]
      exact congrArg (·-s.allocated n) (hcount n)
  have hgoes : Good ({s with freed := s.freed++frees}.setCall t (.flushing h)) := by
    have hnew : (s.calls.put t (.flushing h)).get t=some (.flushing h) := Table.get_put _ _ _
    refine good.changeCall (t := t) rfl (fun u hu => Table.get_put_of_ne hu) rfl hidle ?_ ?_ hown
    · intro p hp
      cases hnew.symm.trans hp
      exact .intro hget rfl trivial
    · intro n
      have hzero : ({s with freed := s.freed++frees}.setCall t (.flushing h)).calls.worth
          (fun _ p => (p.bounces (.bounce n):ℤ)) t=0 := Table.worth_some hnew
      rw [hzero,hworth,Int.add_zero]
      exact congrArg (·-s.allocated n) (hcount n)
  unfold bridgeChnlGetIocEnd
  rw [hfrees]
  dsimp only
  split
  · exact hdone
  split
  · exact hdone
  split
  · exact hdone
  · exact hgoes

/-! ## Closing -/

/-- No buffer waits for a report, and nobody else is in a call on the channel. -/
def State.Quiet (s : State) (t h : ℕ) (c : Channel) : Prop :=
  (∀ q∈c.queue,q.2.2.1.isBounce=false)∧∀ u p,s.calls.get u=some p → p.channel=some h → u=t

theorem closeFree_good (good : Good s) (hcall : s.calls.get t=some (.closing h))
    (hget : s.channels.get h=some c) (quiet : s.Quiet t h c) :
    Good (bridgeChnlCloseFree s t h c).1 := by
  have plain : s.Plain t := .of_some hcall nofun fun _ => rfl
  have good' := good.endPlain plain
  have hgone : (s.channels.erase h).get h=none := Table.get_erase _ _
  have hstays {g : ℕ} {d : Channel} (hd : (s.channels.erase h).get g=some d) :
      s.channels.get g=some d := by
    have hg : g≠h := by
      intro hg
      rw [hg] at hd
      cases hgone.symm.trans hd
    exact (Table.get_erase_of_ne hg).symm.trans hd
  have hzero (n : ℕ) : c.bounces (.bounce n)=0 := by
    refine List.countP_eq_zero.mpr fun q hq => ?_
    rw [decide_eq_true_eq]
    exact SysBuf.ne_bounce (quiet.1 q hq) n
  refine ⟨fun g d hd => good'.sound g d (hstays hd),fun g d hd => good'.rings g d (hstays hd),?_,?_,
    ?_,good'.own⟩
  · intro u p hp g hg
    have ⟨d,hd,howns⟩ := good'.fits u p hp g hg
    have hgh : g≠h := by
      intro hgh
      have hut : u≠t := by
        intro hut
        have hnone : (s.calls.erase t).get t=none := Table.get_erase _ _
        rw [hut] at hp
        cases hnone.symm.trans hp
      have hp' : s.calls.get u=some p := (Table.get_erase_of_ne hut).symm.trans hp
      rw [hgh] at hg
      exact hut (quiet.2 u p hp' hg)
    exact ⟨d,(Table.get_erase_of_ne hgh).trans hd,howns⟩
  · intro id g hslot
    have hslot' : update s.apChannel c.chnlId none id=some g := hslot
    by_cases hid : id=c.chnlId
    · rw [hid,update_self] at hslot'
      cases hslot'
    · rw [update_of_ne hid] at hslot'
      have ⟨d,hd,hdid⟩ := good.slots id g hslot'
      have hgh : g≠h := by
        intro hgh
        rw [hgh] at hd
        cases hget.symm.trans hd
        exact hid hdid.symm
      exact ⟨d,(Table.get_erase_of_ne hgh).trans hd,hdid⟩
  · intro n
    have hbuf := good'.buffers n
    have herase := Table.total_erase s.channels (fun _ (c : Channel) => (c.bounces (.bounce n):ℤ)) h
    rw [Table.worth_some hget,hzero] at herase
    unfold State.uses at hbuf ⊢
    unfold bridgeChnlCloseFree
    refine Eq.trans ?_ hbuf
    have hchannels : (s.endCall t).channels=s.channels := rfl
    rw [hchannels]
    dsimp only
    omega

/-! ## Transfers -/

theorem State.slot_get {id : ℕ} (hslot : s.slot id=some (h,c)) : s.channels.get h=some c := by
  have ⟨g,_,hg⟩ := Option.bind_eq_some_iff.mp hslot
  have ⟨d,hd,heq⟩ := Option.map_eq_some_iff.mp hg
  cases heq
  exact hd

theorem input_good (good : Good s) {full size id arg : ℕ}
    (hread : ∀ h c,s.slot id=some (h,c) → full=0∨CHNL_MAXCHANNELS≤ id∨¬c.Drops k size) :
    Good (inputChnl k s full size id arg) := by
  unfold inputChnl
  split
  · exact good
  next hfull =>
    have ⟨hfull',hid⟩ := not_or.mp hfull
    cases hslot : s.slot id with
    | none => exact good
    | some r =>
      obtain ⟨h,c⟩ := r
      have hdrops := ((hread h c hslot).resolve_left hfull').resolve_left hid
      have hget := State.slot_get hslot
      exact good.keep hget
        (Channel.inputChnl_keeps (good.sound h c hget) (good.rings h c hget) hdrops)

theorem output_good (good : Good s) (full : ℕ) (dspFreeMask : BitVec 32) :
    Good (outputChnl k s full dspFreeMask) := by
  unfold outputChnl
  split
  · exact good
  cases hready : findReadyOutput s.lastOutput (s.outputMask&&&dspFreeMask) with
  | none => exact good
  | some id =>
    have good' := good.other s.openChannels s.outputMask id
    have hslot' : State.slot {s with lastOutput := id} id=s.slot id := rfl
    dsimp only
    rw [hslot']
    cases hslot : s.slot id with
    | none => exact good'
    | some r =>
      obtain ⟨h,c⟩ := r
      dsimp only
      split
      · exact good'
      next p ps hreq =>
        have hget := State.slot_get hslot
        have good'' := good.keep hget
          (Channel.outputChnl_keeps (k := k) (good.sound h c hget) (good.rings h c hget) hreq)
        exact good''.other _ _ _

end ArdroneKernel.DspChannels
