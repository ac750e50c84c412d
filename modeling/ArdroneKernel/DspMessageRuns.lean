import ArdroneKernel.DspMessageSteps
import ArdroneKernel.Execution
import Mathlib.Algebra.Ring.Int.Defs
import Mathlib.Data.Nat.Cast.Basic

/-!
# Runs of the message queues

Calls of any threads on any queues, and the DPC, in any order.
-/

namespace ArdroneKernel.DspMessages

open Execution FiniteTable

variable {s s' : State} {h t n : ℕ} {q : MsgQueue} {r : State×Answer}

/-- What a step must not meet: a wait of `bridge_msg_put` that fails or finds no frame, a wait of
`bridge_msg_get` that does not fail and finds no message, and a queue that is freed while the
manager cannot give back its frames or a thread has yet to acknowledge. -/
def Usable (s : State) : Event → Prop
  | .afterWait t => ∀ h op err,s.calls.get t=some (.woken h op err) →
    ∀ q∈s.queues.get h,Served s q err op
  | .deleteLoop t => ∀ h,s.calls.get t=some (.deleting h) →
    ∀ q∈s.queues.get h,q.ioMsgPend=0 → s.Quiet t h q
  | _ => True

theorem State.begin_cases {f : MsgQueue → State×Answer} (hbegin : s.begin t h f=some r) :
    s.calls.get t=none∧∃ q,s.queues.get h=some q∧r=f q := by
  unfold State.begin at hbegin
  split at hbegin
  next q hnone hget =>
    cases hbegin
    exact ⟨hnone,q,hget,rfl⟩
  · cases hbegin

theorem State.resume_cases {f : Call → MsgQueue → Option (State×Answer)}
    (hresume : s.resume t f=some r) :
    ∃ p q,s.calls.get t=some p∧s.queues.get p.queue=some q∧f p q=some r := by
  have ⟨p,hp,hbind⟩ := Option.bind_eq_some_iff.mp hresume
  have ⟨q,hq,hf⟩ := Option.bind_eq_some_iff.mp hbind
  exact ⟨p,q,hp,hq,hf⟩

/-! ## What callers are told -/

/-- The message that `bridge_msg_put` says was accepted. -/
def Answer.sent : Answer → List MsgDspmsg
  | .put err m => if err=0 then [m] else []
  | _ => []

/-- Messages are accepted when `bridge_msg_put` returns 0, and `bridge_msg_get` returns 0 when it
has stored a message. -/
structure Told (s : State) (r : State×Answer) : Prop where
  sent : r.1.accepted=s.accepted++r.2.sent
  stored : ∀ h err stored,r.2=.get h err stored → (err=0↔stored.isSome=true)∧
    ∀ q,s.queues.get h=some q → ∃ q',r.1.queues.get h=some q'∧q'.got=q.got++stored.toList

theorem Told.quiet (haccepted : r.1.accepted=s.accepted) (hsent : r.2.sent=[])
    (hnot : ∀ h err stored,r.2≠.get h err stored) : Told s r where
  sent := by rw [haccepted,hsent,List.append_nil]
  stored h err stored heq := absurd heq (hnot h err stored)

/-- A call that fails. -/
theorem Told.fails (h : ℕ) (op : Op) {err : ℤ} (herr : err≠0) (haccepted : s'.accepted=s.accepted)
    (hgot : ∀ q,s.queues.get h=some q → ∃ q',s'.queues.get h=some q'∧q'.got=q.got) (q : MsgQueue) :
    Told s (s',op.answer h q err) := by
  cases op with
  | put msg => exact .quiet haccepted (if_neg herr) nofun
  | get =>
    refine ⟨haccepted.trans (List.append_nil _).symm,?_⟩
    intro g e st heq
    cases heq
    refine ⟨iff_of_false herr Bool.false_ne_true,fun d hd => ?_⟩
    have ⟨d',hd',hsame⟩ := hgot d hd
    exact ⟨d',hd',hsame.trans (List.append_nil _).symm⟩

theorem Told.gets {q' : MsgQueue} {m : MsgDspmsg} (hget : s.queues.get h=some q)
    (haccepted : s'.accepted=s.accepted) (hnew : s'.queues.get h=some q')
    (hgot : q'.got=q.got++[m]) : Told s (s',.get h 0 (some m)) := by
  refine ⟨haccepted.trans (List.append_nil _).symm,?_⟩
  intro g e st heq
  cases heq
  refine ⟨iff_of_true rfl rfl,fun d hd => ?_⟩
  cases hget.symm.trans hd
  exact ⟨q',hnew,hgot⟩

theorem get_told (hget : s.queues.get h=some q) : Told s (bridgeMsgGet s t h q) := by
  unfold bridgeMsgGet
  split
  · exact .gets hget rfl (Table.get_put _ _ _) rfl
  · split
    · exact .fails h .get (show -EPERM≠0 by decide) rfl (fun d hd => ⟨d,hd,rfl⟩) q
    · exact .quiet rfl rfl nofun

theorem put_told (q : MsgQueue) (msg : DspMsg) :
    Told s (bridgeMsgPut s t h q msg) := by
  unfold bridgeMsgPut
  dsimp only
  split
  · split
    · exact .fails h (.put msg) (show -EPERM≠0 by decide) rfl (fun d hd => ⟨d,hd,rfl⟩) q
    · exact .quiet rfl rfl nofun
  · exact ⟨rfl,nofun⟩

theorem getWoken_told (hget : s.queues.get h=some q) {err : ℤ} (hserved : err≠0∨q.msgUsed≠[]) :
    Told s (bridgeMsgGetWoken s t h q err) := by
  have hkept {q' : MsgQueue} (hgot : q'.got=q.got) (d : MsgQueue) (hd : s.queues.get h=some d) :
      ∃ d',((s.setQueue h q').endCall t).queues.get h=some d'∧d'.got=d.got := by
    cases hget.symm.trans hd
    exact ⟨q',Table.get_put _ _ _,hgot⟩
  unfold bridgeMsgGetWoken
  cases hused : q.msgUsed with
  | nil =>
    have herr := hserved.resolve_right (not_not_intro hused)
    refine .fails h .get herr ?_ ?_ q
    · rfl
    · exact hkept rfl
  | cons m ms =>
    dsimp only
    split
    next herr =>
      rw [herr]
      refine .gets hget rfl (Table.get_put _ _ _) ?_
      rfl
    next herr =>
      refine .fails h .get herr ?_ ?_ q
      · rfl
      · exact hkept rfl

theorem putWoken_told (hfree : s.msgFree≠0) (msg : DspMsg) :
    Told s (bridgeMsgPutWoken s t h q msg) := by
  unfold bridgeMsgPutWoken
  dsimp only
  rw [if_neg hfree]
  exact ⟨rfl,nofun⟩

theorem afterWait_told (hget : s.queues.get h=some q) {op : Op} {err : ℤ}
    (served : Served s q err op) : Told s (afterWait s t h q op err) := by
  unfold afterWait
  cases op with
  | get =>
    dsimp only
    split
    · exact .quiet rfl rfl nofun
    next hdone => exact getWoken_told hget (served.resolve_left hdone)
  | put msg =>
    have ⟨herr,hfree⟩ := served
    dsimp only
    rw [if_neg (not_not_intro herr)]
    split
    · exact .quiet rfl rfl nofun
    next hdone => exact putWoken_told (hfree.resolve_left hdone) msg

theorem accepted_resetEvent (s : State) (h : ℕ) (q : MsgQueue) (op : Op) :
    (s.resetEvent h q op).accepted=s.accepted := by
  cases op <;> rfl

theorem accepted_input (s : State) (inputEmpty : Bool) (msgs : List MsgDspmsg) :
    (inputMsg s inputEmpty msgs).accepted=s.accepted := by
  have hone (s : State) (m : MsgDspmsg) : (inputOne s m).accepted=s.accepted := by
    unfold inputOne
    split
    · rfl
    split
    · rfl
    split <;> rfl
  unfold inputMsg
  split
  · rfl
  · induction msgs generalizing s with
    | nil => rfl
    | cons m msgs ih => exact (ih (inputOne s m)).trans (hone s m)

theorem accepted_output (s : State) (maxMsgs : ℕ) (outputEmpty : Bool) :
    (outputMsg maxMsgs s outputEmpty).accepted=s.accepted := by
  have hone (s : State) : (outputOne s).accepted=s.accepted := by
    unfold outputOne
    split <;> rfl
  have hrepeat (n : ℕ) : (Nat.repeat outputOne n s).accepted=s.accepted := by
    induction n with
    | zero => rfl
    | succ n ih => exact (hone _).trans ih
  unfold outputMsg
  split
  · exact hrepeat _
  · rfl

/-! ## Steps and runs -/

theorem call_good (good : Good s) {e : Event} (usable : Usable s e) (hcall : call n s e=some r) :
    Good r.1∧Told s r := by
  cases e with
  | createQueue t h msgqId maxMsgs allocated =>
    unfold call at hcall
    dsimp only at hcall
    split at hcall
    next hnone hfree =>
      cases hcall
      refine ⟨create_good good hfree msgqId maxMsgs allocated,?_⟩
      unfold bridgeMsgCreateQueue
      split <;> exact .quiet rfl rfl nofun
    · cases hcall
  | get t h =>
    have ⟨hnone,q,hq,hr⟩ := State.begin_cases hcall
    rw [hr]
    exact ⟨get_good good hnone hq,get_told hq⟩
  | put t h msg =>
    have ⟨hnone,q,hq,hr⟩ := State.begin_cases hcall
    rw [hr]
    exact ⟨put_good good hnone hq msg,put_told q msg⟩
  | wait t =>
    have ⟨p,q,hp,hq,hf⟩ := State.resume_cases hcall
    cases p with
    | waiting h op asleep =>
      cases asleep <;> cases hf
      refine ⟨wait_good good hp hq,?_⟩
      unfold syncWaitOnMultipleEvents
      split
      · exact .quiet (accepted_resetEvent s h q op) rfl nofun
      · split <;> exact .quiet rfl rfl nofun
    | _ => cases hf
  | waitEnd t timedOut =>
    have ⟨p,q,hp,hq,hf⟩ := State.resume_cases hcall
    cases p with
    | waiting h op asleep =>
      cases asleep <;> cases hf
      exact ⟨waitEnd_good good hp hq timedOut,
        .quiet (accepted_resetEvent (s.setQueue h _) h _ op) rfl nofun⟩
    | _ => cases hf
  | afterWait t =>
    have ⟨p,q,hp,hq,hf⟩ := State.resume_cases hcall
    cases p <;> cases hf
    have served := usable _ _ _ hp q hq
    exact ⟨afterWait_good good hp hq served,afterWait_told hq served⟩
  | acknowledge t =>
    have ⟨p,q,hp,hq,hf⟩ := State.resume_cases hcall
    cases p with
    | leaving h op =>
      cases hf
      refine ⟨acknowledge_good good hp hq,.fails h op (show -EPERM≠0 by decide) ?_ ?_ q⟩
      · rfl
      · intro d hd
        cases hd.symm.trans hq
        exact ⟨_,Table.get_put _ _ _,rfl⟩
    | _ => cases hf
  | deleteQueue t h =>
    have ⟨hnone,q,hq,hr⟩ := State.begin_cases hcall
    rw [hr]
    exact ⟨delete_good good hnone hq,.quiet rfl rfl nofun⟩
  | deleteLoop t =>
    have ⟨p,q,hp,hq,hf⟩ := State.resume_cases hcall
    cases p <;> cases hf
    refine ⟨loop_good good hp hq (usable _ hp q hq),?_⟩
    unfold bridgeMsgDeleteQueueLoop
    split <;> exact .quiet rfl rfl nofun
  | deleteAck t =>
    have ⟨p,q,hp,hq,hf⟩ := State.resume_cases hcall
    cases p <;> cases hf
    exact ⟨deleteAck_good good hp hq,.quiet rfl rfl nofun⟩
  | inputMsg inputEmpty msgs =>
    cases hcall
    exact ⟨input_good good inputEmpty msgs,.quiet (accepted_input s inputEmpty msgs) rfl nofun⟩
  | outputMsg outputEmpty =>
    cases hcall
    exact ⟨output_good good n outputEmpty,.quiet (accepted_output s n outputEmpty) rfl nofun⟩

theorem start_good : Good .start where
  flows := ⟨rfl,rfl⟩
  frames := rfl
  sound := nofun
  waiting := nofun
  alive := nofun

theorem run_good {es : List Event} (hrun : Run (step n) Usable .start es s) : Good s := by
  refine hrun.invariant Good start_good fun good usable hstep => ?_
  have ⟨r,hr,heq⟩ := Option.map_eq_some_iff.mp hstep
  rw [← heq]
  exact (call_good good usable hr).1

/-- Nothing is lost, duplicated or reordered on the way to the DSP and from it, the counts are
those of the frames and of the threads that wait, and the queues of all calls are there. -/
structure Delivered (s : State) : Prop where
  sent : s.copied++s.msgUsed=s.accepted
  received : ∀ h q,s.queues.get h=some q → q.got++q.msgUsed=q.received
  pending : s.msgsPending=s.msgUsed.length
  frames : ((s.msgFree+s.msgUsed.length:ℕ):ℤ)=s.queues.total fun _ q => (q.maxMsgs:ℤ)
  queueFrames : ∀ h q,s.queues.get h=some q → q.msgFree+q.msgUsed.length=q.maxMsgs
  waiting : ∀ h q,s.queues.get h=some q → q.ioMsgPend=s.calls.count (Call.waitsIn h)
  alive : ∀ t p,s.calls.get t=some p → ∃ q,s.queues.get p.queue=some q

theorem Good.delivered (good : Good s) : Delivered s where
  sent := good.flows.order
  received h q hget := (good.sound h q hget).order
  pending := good.flows.pending
  frames := good.frames
  queueFrames h q hget := (good.sound h q hget).frames
  waiting h q hget := by
    have hcount := good.waiting h q hget
    have htotal := Table.total_ite s.calls (Call.waitsIn h) (1:ℤ)
    have hone := nsmul_eq_mul (s.calls.count (Call.waitsIn h)) (1:ℤ)
    rw [mul_one] at hone
    exact Int.ofNat.inj (hcount.trans (htotal.trans hone))
  alive := good.alive

/-- Messages arrive, and callers are told the truth, in every run that is usable. -/
theorem messages_delivered {es : List Event} (hrun : Run (step n) Usable .start es s) :
    Delivered s∧∀ e r,Usable s e → call n s e=some r → Told s r :=
  ⟨(run_good hrun).delivered,fun _ _ usable hcall => (call_good (run_good hrun) usable hcall).2⟩

/-- A thread waits for a message, which arrives, after one was sent. -/
theorem messages_delivered_example :
    ∃ es s,Run (step 4) Usable .start es s∧Delivered s∧s.copied=[⟨⟨1,2,3⟩,7⟩]∧
      (s.queues.get 100).map MsgQueue.got=some [⟨⟨4,5,6⟩,7⟩] := by
  have hrun : Run (step 4) Usable .start
      [.createQueue 0 100 7 2 true,.put 1 100 ⟨1,2,3⟩,.outputMsg true,.get 1 100,.wait 1,
        .inputMsg false [⟨⟨4,5,6⟩,7⟩],.waitEnd 1 false,.afterWait 1] _ :=
    Run.cons trivial rfl <| Run.cons trivial rfl <| Run.cons trivial rfl <|
    Run.cons trivial rfl <| Run.cons trivial rfl <| Run.cons trivial rfl <|
    Run.cons trivial rfl <| Run.cons (by
      intro h op err hcall q hq
      cases hcall
      cases hq
      exact Or.inr (Or.inr (List.cons_ne_nil _ _))) rfl <| Run.nil _
  exact ⟨_,_,hrun,(messages_delivered hrun).1,rfl,rfl⟩

/-- A `bridge_msg_put` whose wait times out is counted for ever. A `bridge_msg_get` whose message
another thread takes returns 0. A queue that is deleted while its message waits for the DSP leaves
a frame, and one that is deleted on a signal is freed before the thread it woke has
acknowledged. -/
theorem messages_lost :
    (∃ es s q,Run (step 4) (fun _ _ => True) .start es s∧s.calls.keys=∅∧
      s.queues.get 100=some q∧q.ioMsgPend=1∧¬Delivered s)∧
    (∃ es s r,Run (step 4) (fun _ _ => True) .start es s∧call 4 s (.afterWait 1)=some r∧
      r.2=.get 100 0 none∧¬Told s r)∧
    (∃ es s,Run (step 4) (fun _ _ => True) .start es s∧s.queues.keys=∅∧
      s.msgUsed.length=1∧¬Delivered s)∧
    ∃ es s,Run (step 4) (fun _ _ => True) .start es s∧s.queues.get 100=none∧
      s.calls.get 1=some (.leaving 100 .get)∧¬Delivered s := by
  refine ⟨?_,?_,?_,?_⟩
  · have ⟨s,hrun,hstate⟩ := exists_run (step 4) (fun _ _ => true) .start
      [.createQueue 0 100 7 1 true,.put 1 100 ⟨1,2,3⟩,.put 1 100 ⟨4,5,6⟩,.wait 1,
        .waitEnd 1 true,.afterWait 1]
      (fun s : State => decide (s.calls.keys=∅)&&(s.queues.get 100).any fun q : MsgQueue =>
        decide (q.ioMsgPend=1∧s.calls.count (Call.waitsIn 100)=0))
      (by decide +kernel)
    have ⟨hcalls,hany⟩ := (Bool.and_eq_true _ _).mp hstate
    have ⟨q,hget,hq⟩ := (Option.any_eq_true _ _).mp hany
    have ⟨hpend,hcount⟩ := of_decide_eq_true hq
    refine ⟨_,s,q,hrun.mono fun _ _ _ => trivial,of_decide_eq_true hcalls,hget,hpend,?_⟩
    intro delivered
    have hwaiting := delivered.waiting 100 q hget
    omega
  · have ⟨s,hrun,hstate⟩ := exists_run (step 4) (fun _ _ => true) .start
      [.createQueue 0 100 7 1 true,.get 1 100,.wait 1,.inputMsg false [⟨⟨4,5,6⟩,7⟩],
        .waitEnd 1 false,.get 2 100]
      (fun s : State => (call 4 s (.afterWait 1)).any fun r : State×Answer =>
        match r.2 with
        | .get h err stored => decide (h=100∧err=0∧stored=none)
        | _ => false)
      (by decide +kernel)
    have ⟨r,hcall,hr⟩ := (Option.any_eq_true _ _).mp hstate
    split at hr
    next h err stored heq =>
      have ⟨hh,herr,hstored⟩ := of_decide_eq_true hr
      rw [hh,herr,hstored] at heq
      refine ⟨_,s,r,hrun.mono fun _ _ _ => trivial,hcall,heq,?_⟩
      intro told
      exact Bool.false_ne_true ((told.stored 100 0 none heq).1.mp rfl)
    · cases hr
  · have ⟨s,hrun,hstate⟩ := exists_run (step 4) (fun _ _ => true) .start
      [.createQueue 0 100 7 1 true,.put 1 100 ⟨1,2,3⟩,.deleteQueue 1 100,.deleteLoop 1]
      (fun s : State => decide (s.queues.keys=∅∧s.msgUsed.length=1))
      (by decide +kernel)
    have ⟨hkeys,hused⟩ := of_decide_eq_true hstate
    refine ⟨_,s,hrun.mono fun _ _ _ => trivial,hkeys,hused,?_⟩
    intro delivered
    have hframes := delivered.frames
    unfold Table.total at hframes
    rw [hkeys,Finset.sum_empty] at hframes
    omega
  · have ⟨s,hrun,hstate⟩ := exists_run (step 4) (fun _ _ => true) .start
      [.createQueue 0 100 7 1 true,.get 1 100,.wait 1,.deleteQueue 2 100,.deleteLoop 2,
        .waitEnd 1 false,.afterWait 1,.deleteAck 2,.deleteLoop 2]
      (fun s : State => decide (s.queues.get 100=none∧
        s.calls.get 1=some (.leaving 100 .get)))
      (by decide +kernel)
    have ⟨hnone,hcall⟩ := of_decide_eq_true hstate
    refine ⟨_,s,hrun.mono fun _ _ _ => trivial,hnone,hcall,?_⟩
    intro delivered
    have ⟨q,hq⟩ := delivered.alive 1 _ hcall
    cases hnone.symm.trans hq

end ArdroneKernel.DspMessages
