import ArdroneKernel.DspMessages
import Mathlib.Algebra.Order.Group.Int

/-!
# Steps on message queues

What holds between the steps of threads and the DPC, and that every step keeps it.
-/

namespace ArdroneKernel.DspMessages

open FiniteTable

variable {s s' : State} {g h t n : ℕ} {q q' : MsgQueue} {m : MsgDspmsg} {ms : List MsgDspmsg}
  {op : Op}

/-- The call waits in `bridge_msg_get` or `bridge_msg_put` of a queue. -/
def Call.waitsIn (h : ℕ) : Call → Bool
  | .waiting h' _ _ | .woken h' _ _ => h'==h
  | _ => false

def Call.waits (h : ℕ) (p : Call) : ℤ := if p.waitsIn h then 1 else 0

theorem Call.waits_other {p : Call} (hne : p.queue≠h) : p.waits h=0 := by
  cases p with
  | waiting h' op asleep =>
    have hfalse : (h'==h)=false := beq_eq_false_iff_ne.mpr hne
    exact if_neg (Bool.not_eq_true _ ▸ hfalse)
  | woken h' op err =>
    have hfalse : (h'==h)=false := beq_eq_false_iff_ne.mpr hne
    exact if_neg (Bool.not_eq_true _ ▸ hfalse)
  | leaving h' op => rfl
  | deleting h' => rfl
  | unblocking h' => rfl

/-- What was received is what was given out, and what waits; no frame is lost. -/
structure MsgQueue.Sound (q : MsgQueue) : Prop where
  order : q.got++q.msgUsed=q.received
  frames : q.msgFree+q.msgUsed.length=q.maxMsgs

/-- What was accepted is what was copied, and what waits. -/
structure State.Flows (s : State) : Prop where
  order : s.copied++s.msgUsed=s.accepted
  pending : s.msgsPending=s.msgUsed.length

/-- How many frames the manager has. -/
def State.frames (s : State) : ℕ := s.msgFree+s.msgUsed.length

/-- The invariant. -/
structure Good (s : State) : Prop where
  flows : s.Flows
  frames : (s.frames:ℤ)=s.queues.total fun _ q => (q.maxMsgs:ℤ)
  sound : ∀ h q,s.queues.get h=some q → q.Sound
  waiting : ∀ h q,s.queues.get h=some q → (q.ioMsgPend:ℤ)=s.calls.total fun _ p => p.waits h
  alive : ∀ t p,s.calls.get t=some p → ∃ q,s.queues.get p.queue=some q

/-! ## One queue and one call -/

/-- All that happens to the queues and the calls is about one queue and one call. -/
structure Change (s s' : State) (h t : ℕ) (q q' : MsgQueue) : Prop where
  old : s.queues.get h=some q
  queues : s'.queues=s.queues.put h q'
  calls : ∀ u,u≠t → s'.calls.get u=s.calls.get u
  sound : q'.Sound
  maxMsgs : q'.maxMsgs=q.maxMsgs
  pend : (q'.ioMsgPend:ℤ)+s.calls.worth (fun _ p => p.waits h) t=
    q.ioMsgPend+s'.calls.worth (fun _ p => p.waits h) t
  others : ∀ g,g≠h →
    s'.calls.worth (fun _ p => p.waits g) t=s.calls.worth (fun _ p => p.waits g) t
  alive : ∀ p,s'.calls.get t=some p → ∃ d,s'.queues.get p.queue=some d
  flows : s'.Flows
  frames : s'.frames=s.frames

namespace Change

theorem new (ch : Change s s' h t q q') : s'.queues.get h=some q' := by
  rw [ch.queues]
  exact Table.get_put _ _ _

theorem other (ch : Change s s' h t q q') (hg : g≠h) : s'.queues.get g=s.queues.get g := by
  rw [ch.queues]
  exact Table.get_put_of_ne hg

theorem waits (ch : Change s s' h t q q') (g : ℕ) :
    s'.calls.total (fun _ p => p.waits g)=s.calls.total (fun _ p => p.waits g)-
      s.calls.worth (fun _ p => p.waits g) t+s'.calls.worth (fun _ p => p.waits g) t :=
  Table.total_other (f := fun _ p => p.waits g) (g := fun _ p => p.waits g) ch.calls
    fun _ _ _ _ => rfl

theorem good (ch : Change s s' h t q q') (good : Good s) : Good s' where
  flows := ch.flows
  frames := by
    have hput := Table.total_put s.queues (fun _ (q : MsgQueue) => (q.maxMsgs:ℤ)) h q'
    rw [Table.worth_some ch.old,ch.maxMsgs,sub_add_cancel] at hput
    rw [ch.frames,ch.queues,hput]
    exact good.frames
  sound g d hd := by
    by_cases hg : g=h
    · rw [hg] at hd
      cases ch.new.symm.trans hd
      exact ch.sound
    · exact good.sound g d ((ch.other hg).symm.trans hd)
  waiting g d hd := by
    have hwaits := ch.waits g
    by_cases hg : g=h
    · rw [hg] at hd hwaits ⊢
      cases ch.new.symm.trans hd
      have hold := good.waiting h q ch.old
      have hpend := ch.pend
      omega
    · have hold := good.waiting g d ((ch.other hg).symm.trans hd)
      rw [ch.others g hg] at hwaits
      omega
  alive u p hp := by
    by_cases hu : u=t
    · exact ch.alive p (by rwa [← hu])
    · have ⟨d,hd⟩ := good.alive u p ((ch.calls u hu).symm.trans hp)
      by_cases hg : p.queue=h
      · exact ⟨q',by rw [hg]; exact ch.new⟩
      · exact ⟨d,(ch.other hg).trans hd⟩

end Change

namespace Good

/-- A queue changes and a call of it goes on or returns. -/
theorem change (good : Good s) (hget : s.queues.get h=some q)
    (hqueues : s'.queues=s.queues.put h q')
    (hcalls : ∀ u,u≠t → s'.calls.get u=s.calls.get u)
    (hold : ∀ p,s.calls.get t=some p → p.queue=h)
    (hnew : ∀ p,s'.calls.get t=some p → p.queue=h)
    (sound : q'.Sound) (hmax : q'.maxMsgs=q.maxMsgs)
    (hpend : (q'.ioMsgPend:ℤ)+s.calls.worth (fun _ p => p.waits h) t=
      q.ioMsgPend+s'.calls.worth (fun _ p => p.waits h) t)
    (flows : s'.Flows) (hframes : s'.frames=s.frames) : Good s' := by
  have hzero {c : Table ℕ Call} (hc : ∀ p,c.get t=some p → p.queue=h) (g : ℕ) (hg : g≠h) :
      c.worth (fun _ p => p.waits g) t=0 := by
    cases hp : c.get t with
    | none => exact Table.worth_none hp
    | some p =>
      rw [Table.worth_some hp]
      refine Call.waits_other ?_
      rw [hc p hp]
      exact hg.symm
  have ch : Change s s' h t q q' := by
    refine ⟨hget,hqueues,hcalls,sound,hmax,hpend,?_,?_,flows,hframes⟩
    · intro g hg
      rw [hzero hnew g hg,hzero hold g hg]
    · intro p hp
      rw [hnew p hp,hqueues]
      exact ⟨q',Table.get_put _ _ _⟩
  exact ch.good good

/-- A queue changes, and no call. -/
theorem setQueue (good : Good s) (hget : s.queues.get h=some q) (sound : q'.Sound)
    (hmax : q'.maxMsgs=q.maxMsgs) (hpend : q'.ioMsgPend=q.ioMsgPend) :
    Good (s.setQueue h q') := by
  have ch : Change s (s.setQueue h q') h 0 q q' := by
    refine ⟨hget,rfl,fun _ _ => rfl,sound,hmax,by rw [hpend]; rfl,fun _ _ => rfl,?_,
      ⟨good.flows.order,good.flows.pending⟩,rfl⟩
    intro p hp
    have ⟨d,hd⟩ := good.alive 0 p hp
    by_cases hg : p.queue=h
    · rw [hg]
      exact ⟨q',Table.get_put _ _ _⟩
    · exact ⟨d,(Table.get_put_of_ne hg).trans hd⟩
  exact ch.good good

/-- A call goes on, without beginning or ending its wait. -/
theorem setCall (good : Good s) {p p' : Call} (hcall : s.calls.get t=some p)
    (hqueue : p'.queue=p.queue) (hwaits : ∀ g,p'.waits g=p.waits g) : Good (s.setCall t p') where
  flows := ⟨good.flows.order,good.flows.pending⟩
  frames := good.frames
  sound := good.sound
  waiting g d hd := by
    have hput := Table.total_put s.calls (fun _ p => p.waits g) t p'
    rw [Table.worth_some hcall,hwaits,sub_add_cancel] at hput
    exact (good.waiting g d hd).trans hput.symm
  alive u p'' hp := by
    by_cases hu : u=t
    · have hnew : (s.calls.put t p').get t=some p' := Table.get_put _ _ _
      rw [hu] at hp
      cases hnew.symm.trans hp
      rw [hqueue]
      exact good.alive t p hcall
    · exact good.alive u p'' ((Table.get_put_of_ne hu).symm.trans hp)

/-- Only the manager's frames change. -/
theorem manager (good : Good s) (hqueues : s'.queues=s.queues) (hcalls : s'.calls=s.calls)
    (flows : s'.Flows) (hframes : s'.frames=s.frames) : Good s' where
  flows := flows
  frames := by
    rw [hframes,hqueues]
    exact good.frames
  sound := by
    rw [hqueues]
    exact good.sound
  waiting := by
    rw [hqueues,hcalls]
    exact good.waiting
  alive := by
    rw [hqueues,hcalls]
    exact good.alive

theorem setEvent (good : Good s) (syncEvent : ℕ) : Good {s with syncEvent := syncEvent} :=
  good.manager rfl rfl ⟨good.flows.order,good.flows.pending⟩ rfl

theorem send (good : Good s) (hfree : s.msgFree≠0) (m : MsgDspmsg) : Good (s.send m) := by
  refine good.manager rfl rfl ⟨?_,?_⟩ ?_
  · unfold State.send
    rw [← List.append_assoc,good.flows.order]
  · unfold State.send
    rw [List.length_append,good.flows.pending]
    rfl
  · unfold State.frames State.send
    dsimp only
    rw [List.length_append,List.length_singleton]
    omega

/-- A thread that waits is counted. -/
theorem pend_pos (good : Good s) {p : Call} (hcall : s.calls.get t=some p) (hwaits : p.waits h=1)
    (hget : s.queues.get h=some q) : 0<q.ioMsgPend := by
  have hrest := Table.total_erase s.calls (fun _ p => p.waits h) t
  rw [Table.worth_some hcall,hwaits] at hrest
  have hnonneg : 0≤(s.calls.erase t).total fun _ p => p.waits h := by
    refine Table.total_nonneg _ fun _ p => ?_
    unfold Call.waits
    split
    · exact Int.one_nonneg
    · exact le_refl _
  have hcount := good.waiting h q hget
  omega

end Good

theorem Call.waits_waiting (h : ℕ) (op : Op) (asleep : Bool) :
    (Call.waiting h op asleep).waits h=1 := if_pos (beq_self_eq_true h)

theorem Call.waits_woken (h : ℕ) (op : Op) (err : ℤ) : (Call.woken h op err).waits h=1 :=
  if_pos (beq_self_eq_true h)

/-! ## Messages from the DSP -/

theorem MsgQueue.Sound.take (sound : q.Sound) (hused : q.msgUsed=m::ms) : (q.take m ms).Sound where
  order := by
    have horder := sound.order
    rw [hused] at horder
    unfold MsgQueue.take
    rw [List.append_assoc,List.singleton_append]
    exact horder
  frames := by
    have hframes := sound.frames
    rw [hused,List.length_cons] at hframes
    unfold MsgQueue.take
    dsimp only
    omega

/-- A thread is counted, and waits. -/
theorem Good.await (good : Good s) (hnone : s.calls.get t=none) (hget : s.queues.get h=some q)
    (op : Op) :
    Good ((s.setQueue h {q with ioMsgPend := q.ioMsgPend+1}).setCall t (.waiting h op false)) := by
  let waiting : Call := .waiting h op false
  have hnew : (s.calls.put t waiting).get t=some waiting := Table.get_put _ _ _
  have sound := good.sound h q hget
  refine good.change (t := t) hget rfl (fun u hu => Table.get_put_of_ne hu) ?_ ?_
    ⟨sound.order,sound.frames⟩ rfl ?_ ⟨good.flows.order,good.flows.pending⟩ rfl
  · intro p hp
    cases hnone.symm.trans hp
  · intro p hp
    cases hnew.symm.trans hp
    rfl
  · have hworth : ((s.setQueue h {q with ioMsgPend := q.ioMsgPend+1}).setCall t
        waiting).calls.worth (fun _ p => p.waits h) t=1 :=
      (Table.worth_some hnew).trans (Call.waits_waiting _ _ _)
    rw [hworth,Table.worth_none hnone]
    dsimp only
    omega

theorem get_good (good : Good s) (hnone : s.calls.get t=none) (hget : s.queues.get h=some q) :
    Good (bridgeMsgGet s t h q).1 := by
  have sound := good.sound h q hget
  unfold bridgeMsgGet
  split
  next m ms hused =>
    have sound' := sound.take hused
    exact good.setQueue hget ⟨sound'.order,sound'.frames⟩ rfl rfl
  next =>
    split
    · exact good
    · exact good.await hnone hget .get

/-- A thread is not counted any more. -/
theorem Good.leave (good : Good s) (p' : Call) (q' : MsgQueue) {p : Call}
    (hcall : s.calls.get t=some p)
    (hwaits : p.waits h=1) (hqueue : p.queue=h) (hget : s.queues.get h=some q)
    (sound : q'.Sound) (hmax : q'.maxMsgs=q.maxMsgs) (hpend : q'.ioMsgPend=q.ioMsgPend-1)
    (hqueue' : p'.queue=h) (hwaits' : p'.waits h=0) :
    Good ((s.setQueue h q').setCall t p')∧Good ((s.setQueue h q').endCall t) := by
  have hpos := good.pend_pos hcall hwaits hget
  have hold (p'' : Call) (hp : s.calls.get t=some p'') : p''.queue=h := by
    cases hcall.symm.trans hp
    exact hqueue
  have hworth := Table.worth_some (f := fun _ p => p.waits h) hcall
  constructor
  · have hnew : (s.calls.put t p').get t=some p' := Table.get_put _ _ _
    refine good.change (t := t) hget rfl (fun u hu => Table.get_put_of_ne hu) hold ?_ sound hmax ?_
      ⟨good.flows.order,good.flows.pending⟩ rfl
    · intro p'' hp
      cases hnew.symm.trans hp
      exact hqueue'
    · have hworth' : ((s.setQueue h q').setCall t p').calls.worth (fun _ p => p.waits h) t=0 :=
        (Table.worth_some hnew).trans hwaits'
      omega
  · have hnone : (s.calls.erase t).get t=none := Table.get_erase _ _
    refine good.change (t := t) hget rfl (fun u hu => Table.get_erase_of_ne hu) hold ?_ sound hmax
      ?_ ⟨good.flows.order,good.flows.pending⟩ rfl
    · intro p'' hp
      cases hnone.symm.trans hp
    · have hworth' : ((s.setQueue h q').endCall t).calls.worth (fun _ p => p.waits h) t=0 :=
        Table.worth_none hnone
      omega

/-- A call that is not counted returns. -/
theorem Good.endCall (good : Good s) {p : Call} (hcall : s.calls.get t=some p)
    (hwaits : ∀ g,p.waits g=0) : Good (s.endCall t) where
  flows := ⟨good.flows.order,good.flows.pending⟩
  frames := good.frames
  sound := good.sound
  waiting g d hd := by
    have herase := Table.total_erase s.calls (fun _ p => p.waits g) t
    rw [Table.worth_some hcall,hwaits,sub_zero] at herase
    exact (good.waiting g d hd).trans herase.symm
  alive u p' hp := by
    have hu : u≠t := by
      intro hu
      have hnone : (s.calls.erase t).get t=none := Table.get_erase _ _
      rw [hu] at hp
      cases hnone.symm.trans hp
    exact good.alive u p' ((Table.get_erase_of_ne hu).symm.trans hp)

theorem getWoken_good (good : Good s) {err : ℤ} (hcall : s.calls.get t=some (.woken h .get err))
    (hget : s.queues.get h=some q) : Good (bridgeMsgGetWoken s t h q err).1 := by
  have sound := good.sound h q hget
  have hleave {d : MsgQueue} (hd : d.Sound) (hmax : d.maxMsgs=q.maxMsgs)
      (hpend : d.ioMsgPend=q.ioMsgPend-1) : Good ((s.setQueue h d).endCall t) :=
    (good.leave (.deleting h) d hcall (Call.waits_woken _ _ _) rfl hget hd hmax hpend rfl rfl).2
  unfold bridgeMsgGetWoken
  cases hused : q.msgUsed with
  | nil => exact hleave ⟨sound.order,sound.frames⟩ rfl rfl
  | cons m ms =>
    dsimp only
    split
    · have sound' := sound.take hused
      exact hleave ⟨sound'.order,sound'.frames⟩ rfl rfl
    · exact hleave ⟨sound.order,sound.frames⟩ rfl rfl

/-! ## Messages to the DSP -/

theorem put_good (good : Good s) (hnone : s.calls.get t=none) (hget : s.queues.get h=some q)
    (msg : DspMsg) : Good (bridgeMsgPut s t h q msg).1 := by
  unfold bridgeMsgPut
  split
  · split
    · exact good
    · exact good.await hnone hget (.put msg)
  next hfree => exact (good.send hfree _).setEvent _

theorem putWoken_good (good : Good s) {msg : DspMsg} {err : ℤ}
    (hcall : s.calls.get t=some (.woken h (.put msg) err)) (hget : s.queues.get h=some q)
    (hfree : s.msgFree≠0) : Good (bridgeMsgPutWoken s t h q msg).1 := by
  have sound := good.sound h q hget
  unfold bridgeMsgPutWoken
  rw [if_neg hfree]
  have good' := (good.leave (.deleting h) {q with ioMsgPend := q.ioMsgPend-1} hcall
    (Call.waits_woken _ _ _) rfl hget ⟨sound.order,sound.frames⟩ rfl rfl rfl rfl).2
  exact (good'.send hfree _).setEvent _

/-! ## Waits -/

theorem resetEvent_good (good : Good s) (hget : s.queues.get h=some q) (op : Op) :
    Good (s.resetEvent h q op) := by
  have sound := good.sound h q hget
  cases op with
  | get => exact good.setQueue hget ⟨sound.order,sound.frames⟩ rfl rfl
  | put msg => exact good.setEvent 0

theorem calls_resetEvent (s : State) (h : ℕ) (q : MsgQueue) (op : Op) :
    (s.resetEvent h q op).calls=s.calls := by
  cases op <;> rfl

theorem wake_good (good : Good s) (asleep : Bool)
    (hcall : s.calls.get t=some (.waiting h op asleep)) (err : ℤ) :
    Good (s.setCall t (.woken h op err)) := good.setCall hcall rfl fun _ => rfl

theorem wait_good (good : Good s) (hcall : s.calls.get t=some (.waiting h op false))
    (hget : s.queues.get h=some q) : Good (syncWaitOnMultipleEvents s t h q op).1 := by
  have sound := good.sound h q hget
  unfold syncWaitOnMultipleEvents
  split
  · refine wake_good (resetEvent_good good hget op) false ?_ 0
    rw [calls_resetEvent]
    exact hcall
  split
  · have good' : Good (s.setQueue h {q with syncDone := 0}) :=
      good.setQueue hget ⟨sound.order,sound.frames⟩ rfl rfl
    exact wake_good good' false hcall 0
  · exact good.setCall hcall rfl fun _ => rfl

theorem waitEnd_good (good : Good s) (hcall : s.calls.get t=some (.waiting h op true))
    (hget : s.queues.get h=some q) (timedOut : Bool) :
    Good (syncWaitOnMultipleEventsEnd s t h q op timedOut).1 := by
  have sound := good.sound h q hget
  have good' : Good (s.setQueue h {q with syncDone := 0}) :=
    good.setQueue hget ⟨sound.order,sound.frames⟩ rfl rfl
  have hget' : (s.setQueue h {q with syncDone := 0}).queues.get h=
      some {q with syncDone := 0} := Table.get_put _ _ _
  refine wake_good (resetEvent_good good' hget' op) true ?_ _
  rw [calls_resetEvent]
  exact hcall

/-- What a thread finds after its wait: a frame to put its message into, or, in `bridge_msg_get`,
a message, if the wait did not fail. A wait in `bridge_msg_put` does not fail. -/
def Served (s : State) (q : MsgQueue) (err : ℤ) : Op → Prop
  | .get => q.done=true∨err≠0∨q.msgUsed≠[]
  | .put _ => err=0∧(q.done=true∨s.msgFree≠0)

theorem afterWait_good (good : Good s) {err : ℤ} (hcall : s.calls.get t=some (.woken h op err))
    (hget : s.queues.get h=some q) (served : Served s q err op) :
    Good (afterWait s t h q op err).1 := by
  have sound := good.sound h q hget
  have hleaving : Good ((s.setQueue h {q with ioMsgPend := q.ioMsgPend-1}).setCall t
      (.leaving h op)) :=
    (good.leave (.leaving h op) {q with ioMsgPend := q.ioMsgPend-1} hcall
      (Call.waits_woken _ _ _) rfl hget ⟨sound.order,sound.frames⟩ rfl rfl rfl rfl).1
  unfold afterWait
  cases op with
  | get =>
    dsimp only
    split
    · exact hleaving
    · exact getWoken_good good hcall hget
  | put msg =>
    have ⟨herr,hfree⟩ := served
    dsimp only
    rw [if_neg (not_not_intro herr)]
    split
    · exact hleaving
    next hdone => exact putWoken_good good hcall hget (hfree.resolve_left hdone)

theorem acknowledge_good (good : Good s) (hcall : s.calls.get t=some (.leaving h op))
    (hget : s.queues.get h=some q) : Good (acknowledge s t h q op).1 := by
  have sound := good.sound h q hget
  have good' : Good (s.setQueue h {q with syncDoneAck := q.syncDoneAck+1}) :=
    good.setQueue hget ⟨sound.order,sound.frames⟩ rfl rfl
  exact good'.endCall (t := t) hcall fun _ => rfl

/-! ## Creating and deleting -/

theorem create_good (good : Good s) (hfree : s.queues.get h=none) (msgqId maxMsgs : ℕ)
    (allocated : Bool) : Good (bridgeMsgCreateQueue s h msgqId maxMsgs allocated).1 := by
  have hnew : (s.queues.put h (.new msgqId maxMsgs)).get h=some (.new msgqId maxMsgs) :=
    Table.get_put _ _ _
  have hthere (u : ℕ) (p : Call) (hp : s.calls.get u=some p) : p.queue≠h := by
    intro hqueue
    have ⟨d,hd⟩ := good.alive u p hp
    rw [hqueue] at hd
    cases hfree.symm.trans hd
  unfold bridgeMsgCreateQueue
  split
  · exact good
  refine ⟨⟨good.flows.order,good.flows.pending⟩,?_,?_,?_,?_⟩
  · have hput := Table.total_put s.queues (fun _ (q : MsgQueue) => (q.maxMsgs:ℤ)) h
      (.new msgqId maxMsgs)
    rw [Table.worth_none hfree,sub_zero] at hput
    have hframes := good.frames
    have hmax : ((MsgQueue.new msgqId maxMsgs).maxMsgs:ℤ)=maxMsgs := rfl
    rw [← hframes,hmax] at hput
    refine Eq.trans ?_ hput.symm
    unfold State.frames State.setQueue
    dsimp only
    omega
  · intro g d hd
    by_cases hg : g=h
    · rw [hg] at hd
      cases hnew.symm.trans hd
      exact ⟨rfl,rfl⟩
    · exact good.sound g d ((Table.get_put_of_ne hg).symm.trans hd)
  · intro g d hd
    by_cases hg : g=h
    · rw [hg] at hd ⊢
      cases hnew.symm.trans hd
      exact (Table.total_eq_zero fun u p hp => Call.waits_other (hthere u p hp)).symm
    · exact good.waiting g d ((Table.get_put_of_ne hg).symm.trans hd)
  · intro u p hp
    have ⟨d,hd⟩ := good.alive u p hp
    exact ⟨d,(Table.get_put_of_ne (hthere u p hp)).trans hd⟩

theorem delete_good (good : Good s) (hnone : s.calls.get t=none) (hget : s.queues.get h=some q) :
    Good (bridgeMsgDeleteQueue s t h q).1 := by
  have sound := good.sound h q hget
  let deleting : Call := .deleting h
  have hnew : (s.calls.put t deleting).get t=some deleting := Table.get_put _ _ _
  refine good.change (t := t) hget rfl (fun u hu => Table.get_put_of_ne hu) ?_ ?_
    ⟨sound.order,sound.frames⟩ rfl ?_ ⟨good.flows.order,good.flows.pending⟩ rfl
  · intro p hp
    cases hnone.symm.trans hp
  · intro p hp
    cases hnew.symm.trans hp
    rfl
  · have hworth : (bridgeMsgDeleteQueue s t h q).1.calls.worth (fun _ p => p.waits h) t=0 :=
      Table.worth_some hnew
    rw [hworth,Table.worth_none hnone]

/-- When a queue is freed the manager has its frames to free, and nobody who is not counted any
more is in a call on the queue. -/
def State.Quiet (s : State) (t h : ℕ) (q : MsgQueue) : Prop :=
  q.maxMsgs≤ s.msgFree∧
    ∀ u p,u≠t → s.calls.get u=some p → p.queue=h → p.waitsIn h=true

theorem free_good (good : Good s) (hcall : s.calls.get t=some (.deleting h))
    (hget : s.queues.get h=some q) (hpend : q.ioMsgPend=0) (quiet : s.Quiet t h q) :
    Good (deleteMsgQueue s t h q).1 := by
  have good' := good.endCall hcall fun _ => rfl
  have hgone : (s.queues.erase h).get h=none := Table.get_erase _ _
  have hstays {g : ℕ} {d : MsgQueue} (hd : (s.queues.erase h).get g=some d) :
      s.queues.get g=some d := by
    have hg : g≠h := by
      intro hg
      rw [hg] at hd
      cases hgone.symm.trans hd
    exact (Table.get_erase_of_ne hg).symm.trans hd
  have halone (u : ℕ) (p : Call) (hp : (s.calls.erase t).get u=some p) : p.queue≠h := by
    intro hqueue
    have hut : u≠t := by
      intro hut
      have hnone : (s.calls.erase t).get t=none := Table.get_erase _ _
      rw [hut] at hp
      cases hnone.symm.trans hp
    have hp' : s.calls.get u=some p := (Table.get_erase_of_ne hut).symm.trans hp
    have hpos := good.pend_pos hp' (if_pos (quiet.2 u p hut hp' hqueue)) hget
    omega
  refine ⟨⟨good.flows.order,good.flows.pending⟩,?_,fun g d hd => good'.sound g d (hstays hd),
    fun g d hd => good'.waiting g d (hstays hd),?_⟩
  · have herase := Table.total_erase s.queues (fun _ (q : MsgQueue) => (q.maxMsgs:ℤ)) h
    rw [Table.worth_some hget] at herase
    have hframes := good.frames
    have hroom := quiet.1
    unfold State.frames at hframes ⊢
    refine Eq.trans ?_ herase.symm
    unfold deleteMsgQueue
    dsimp only
    have hused : (s.endCall t).msgUsed=s.msgUsed := rfl
    rw [hused]
    omega
  · intro u p hp
    have ⟨d,hd⟩ := good'.alive u p hp
    exact ⟨d,(Table.get_erase_of_ne (halone u p hp)).trans hd⟩

theorem loop_good (good : Good s) (hcall : s.calls.get t=some (.deleting h))
    (hget : s.queues.get h=some q) (quiet : q.ioMsgPend=0 → s.Quiet t h q) :
    Good (bridgeMsgDeleteQueueLoop s t h q).1 := by
  have sound := good.sound h q hget
  unfold bridgeMsgDeleteQueueLoop
  split
  next hpend => exact free_good good hcall hget hpend (quiet hpend)
  · have good' : Good (s.setQueue h {q with syncDone := q.syncDone+1}) :=
      good.setQueue hget ⟨sound.order,sound.frames⟩ rfl rfl
    exact good'.setCall (t := t) hcall rfl fun _ => rfl

theorem deleteAck_good (good : Good s) (hcall : s.calls.get t=some (.unblocking h))
    (hget : s.queues.get h=some q) : Good (bridgeMsgDeleteQueueAck s t h q).1 := by
  have sound := good.sound h q hget
  have good' : Good (s.setQueue h {q with syncDoneAck := q.syncDoneAck-1}) :=
    good.setQueue hget ⟨sound.order,sound.frames⟩ rfl rfl
  exact good'.setCall (t := t) hcall rfl fun _ => rfl

/-! ## Transfers -/

theorem State.queueOf_get {msgqId : ℕ} (hqueue : s.queueOf msgqId=some (h,q)) :
    s.queues.get h=some q := by
  have ⟨g,_,hg⟩ := List.exists_of_findSome?_eq_some hqueue
  have ⟨d,hd,heq⟩ := Option.bind_eq_some_iff.mp hg
  split at heq
  · cases heq
    exact hd
  · cases heq

theorem inputOne_good (good : Good s) (m : MsgDspmsg) : Good (inputOne s m) := by
  unfold inputOne
  cases hqueue : s.queueOf m.msgqId with
  | none => exact good
  | some r =>
    obtain ⟨h,q⟩ := r
    have hget := State.queueOf_get hqueue
    have sound := good.sound h q hget
    dsimp only
    split
    · exact good
    split
    · exact good
    next hfree =>
      refine good.setQueue hget ⟨?_,?_⟩ rfl rfl
      · rw [← List.append_assoc,sound.order]
      · have hframes := sound.frames
        dsimp only
        rw [List.length_append,List.length_singleton]
        omega

theorem input_good (good : Good s) (inputEmpty : Bool) (msgs : List MsgDspmsg) :
    Good (inputMsg s inputEmpty msgs) := by
  unfold inputMsg
  split
  · exact good
  · induction msgs generalizing s with
    | nil => exact good
    | cons m msgs ih => exact ih (inputOne_good good m)

/-- The first messages are copied, in their order. -/
theorem repeat_outputOne (s : State) (hle : n≤ s.msgUsed.length) :
    Nat.repeat outputOne n s={s with
      msgUsed := s.msgUsed.drop n
      msgFree := s.msgFree+n
      syncEvent := s.syncEvent+n
      copied := s.copied++s.msgUsed.take n} := by
  induction n with
  | zero =>
    rw [List.drop_zero,List.take_zero,List.append_nil]
    rfl
  | succ n ih =>
    have hlt : n<s.msgUsed.length := hle
    have hdrop := List.drop_eq_getElem_cons hlt
    have hstep : Nat.repeat outputOne (n+1) s=outputOne (Nat.repeat outputOne n s) := rfl
    rw [hstep,ih (Nat.le_of_lt hlt)]
    unfold outputOne
    rw [hdrop]
    dsimp only
    rw [List.take_succ_eq_append_getElem hlt,List.append_assoc]
    rfl

theorem output_good (good : Good s) (maxMsgs : ℕ) (outputEmpty : Bool) :
    Good (outputMsg maxMsgs s outputEmpty) := by
  unfold outputMsg
  split
  · have hpending := good.flows.pending
    obtain ⟨n,hn⟩ : ∃ n,(if maxMsgs<s.msgsPending then maxMsgs else s.msgsPending)=n := ⟨_,rfl⟩
    have hle : n≤ s.msgUsed.length := by
      split at hn <;> omega
    dsimp only
    rw [hn,repeat_outputOne s hle]
    refine good.manager rfl rfl ⟨?_,?_⟩ ?_
    · rw [List.append_assoc,List.take_append_drop]
      exact good.flows.order
    · rw [List.length_drop,hpending]
    · unfold State.frames
      dsimp only
      rw [List.length_drop]
      omega
  · exact good

end ArdroneKernel.DspMessages
