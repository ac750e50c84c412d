import ArdroneKernel.FiniteTable

/-!
# Messages between the ARM and the DSP

`drivers/dsp/bridge/wmd/msg_sm.c`, the transfers of `io_sm.c` and the waits of `services/sync.c`.
What is done under `msg_mgr_lock` is one step, and so is what is done under `sync_lock`. A wait
may end at any time, by a time-out or a signal, so it does not matter here which of several waiters
an event wakes.
-/

namespace ArdroneKernel.DspMessages

open FiniteTable

def RMS_EXITACK : ℕ := 0x40000000

def EPERM : ℤ := 1
def ENOMEM : ℤ := 12
def EFAULT : ℤ := 14
def ETIME : ℤ := 62

/-- `struct dsp_msg`. -/
structure DspMsg where
  dwCmd : ℕ
  dwArg1 : ℕ
  dwArg2 : ℕ
  deriving DecidableEq

/-- `struct msg_dspmsg`. -/
structure MsgDspmsg where
  msg : DspMsg
  msgqId : ℕ
  deriving DecidableEq

/-- `struct msg_queue`. Of the free frames only the number matters. -/
structure MsgQueue where
  maxMsgs : ℕ
  msgqId : ℕ
  msgFree : ℕ
  /-- The messages in the used frames. -/
  msgUsed : List MsgDspmsg
  /-- `done` of the completions of the three events: how often they were set. -/
  syncEvent : ℕ
  syncDone : ℕ
  syncDoneAck : ℕ
  done : Bool
  ioMsgPend : ℕ
  /-- What was put into the used frames. The source does not keep this. -/
  received : List MsgDspmsg
  /-- What `bridge_msg_get` stored for its callers. The source does not keep this. -/
  got : List MsgDspmsg
  deriving DecidableEq

/-- What a thread waits for: a message, or a frame for a message. -/
inductive Op where
  | get
  | put (msg : DspMsg)
  deriving DecidableEq

/-- A call that has not returned, by where it is. -/
inductive Call where
  /-- In `sync_wait_on_multiple_events`, asleep or before its first look at the events. -/
  | waiting (h : ℕ) (op : Op) (asleep : Bool)
  /-- After `sync_wait_on_multiple_events`, before the lock. -/
  | woken (h : ℕ) (op : Op) (err : ℤ)
  /-- The queue is done, and this is to be acknowledged. -/
  | leaving (h : ℕ) (op : Op)
  /-- `bridge_msg_delete_queue`, at the head of its loop. -/
  | deleting (h : ℕ)
  /-- `bridge_msg_delete_queue`, in its wait for an acknowledgement. -/
  | unblocking (h : ℕ)
  deriving DecidableEq

/-- The queue a call is about. -/
def Call.queue : Call → ℕ
  | .waiting h _ _ | .woken h _ _ | .leaving h _ | .deleting h | .unblocking h => h

/-- `struct msg_mgr`, with its queues and the calls in progress. -/
structure State where
  /-- `queue_list`, in its order. -/
  queueList : List ℕ
  /-- The queues that are allocated, by address. -/
  queues : Table ℕ MsgQueue
  msgFree : ℕ
  msgUsed : List MsgDspmsg
  syncEvent : ℕ
  msgsPending : ℕ
  /-- The calls in progress, by thread. -/
  calls : Table ℕ Call
  /-- What `bridge_msg_put` accepted. The source does not keep this. -/
  accepted : List MsgDspmsg
  /-- What was copied to the shared memory. The source does not keep this. -/
  copied : List MsgDspmsg

/-- What a call returns. -/
inductive Answer where
  /-- It has not returned. -/
  | running
  | status (err : ℤ)
  /-- `bridge_msg_put` of a message to a queue. -/
  | put (err : ℤ) (m : MsgDspmsg)
  /-- `bridge_msg_get` of a queue, with what it stored. -/
  | get (h : ℕ) (err : ℤ) (stored : Option MsgDspmsg)

namespace State

def start : State where
  queueList := []
  queues := Table.empty
  msgFree := 0
  msgUsed := []
  syncEvent := 0
  msgsPending := 0
  calls := Table.empty
  accepted := []
  copied := []

def setQueue (s : State) (h : ℕ) (q : MsgQueue) : State := {s with queues := s.queues.put h q}

def setCall (s : State) (t : ℕ) (p : Call) : State := {s with calls := s.calls.put t p}

def endCall (s : State) (t : ℕ) : State := {s with calls := s.calls.erase t}

end State

/-! ## Queues -/

def MsgQueue.new (msgqId maxMsgs : ℕ) : MsgQueue where
  maxMsgs := maxMsgs
  msgqId := msgqId
  msgFree := maxMsgs
  msgUsed := []
  syncEvent := 0
  syncDone := 0
  syncDoneAck := 0
  done := false
  ioMsgPend := 0
  received := []
  got := []

/-- `bridge_msg_create_queue`. When an allocation fails, all that was allocated is freed. -/
def bridgeMsgCreateQueue (s : State) (h msgqId maxMsgs : ℕ) (allocated : Bool) : State×Answer :=
  if allocated=false then (s,.status (-ENOMEM))
  else
    let free := s.msgFree+maxMsgs
    ({s.setQueue h (.new msgqId maxMsgs) with
      queueList := s.queueList++[h]
      msgFree := free
      syncEvent := if free=0 then s.syncEvent else s.syncEvent+1},.status 0)

/-- `bridge_msg_delete_queue`, up to its loop. -/
def bridgeMsgDeleteQueue (s : State) (t h : ℕ) (q : MsgQueue) : State×Answer :=
  ((s.setQueue h {q with done := true}).setCall t (.deleting h),.running)

/-- `delete_msg_queue`, of a queue that is in the list: of the manager's frames only free ones can
be freed. Then the event. -/
def deleteMsgQueue (s : State) (t h : ℕ) (q : MsgQueue) : State×Answer :=
  let free := s.msgFree-q.maxMsgs
  ({s.endCall t with
    queueList := s.queueList.erase h
    queues := s.queues.erase h
    msgFree := free
    syncEvent := if free=0 then 0 else s.syncEvent},.status 0)

/-- The head of the loop: a thread that is blocked is woken, or the queue is deleted. -/
def bridgeMsgDeleteQueueLoop (s : State) (t h : ℕ) (q : MsgQueue) : State×Answer :=
  if q.ioMsgPend=0 then deleteMsgQueue s t h q
  else ((s.setQueue h {q with syncDone := q.syncDone+1}).setCall t (.unblocking h),.running)

/-- The end of its wait, which may be a signal. -/
def bridgeMsgDeleteQueueAck (s : State) (t h : ℕ) (q : MsgQueue) : State×Answer :=
  ((s.setQueue h {q with syncDoneAck := q.syncDoneAck-1}).setCall t (.deleting h),.running)

/-! ## Messages from the DSP -/

/-- The first used frame becomes free, for a caller. -/
def MsgQueue.take (q : MsgQueue) (m : MsgDspmsg) (ms : List MsgDspmsg) : MsgQueue :=
  {q with msgUsed := ms,msgFree := q.msgFree+1,got := q.got++[m]}

/-- `bridge_msg_get`, up to its wait. -/
def bridgeMsgGet (s : State) (t h : ℕ) (q : MsgQueue) : State×Answer :=
  match q.msgUsed with
  | m::ms =>
    (s.setQueue h {q.take m ms with syncEvent := if ms=[] then 0 else q.syncEvent+1},
      .get h 0 (some m))
  | [] =>
    if q.done=true then (s,.get h (-EPERM) none)
    else
      ((s.setQueue h {q with ioMsgPend := q.ioMsgPend+1}).setCall t (.waiting h .get false),
        .running)

/-- `bridge_msg_get`, after its wait, when the queue is not done. -/
def bridgeMsgGetWoken (s : State) (t h : ℕ) (q : MsgQueue) (err : ℤ) : State×Answer :=
  let (q,stored) := match q.msgUsed with
    | m::ms => if err=0 then (q.take m ms,some m) else (q,none)
    | [] => (q,none)
  ((s.setQueue h {q with
    ioMsgPend := q.ioMsgPend-1
    syncEvent := if q.msgUsed=[] then q.syncEvent else q.syncEvent+1}).endCall t,.get h err stored)

/-! ## Messages to the DSP -/

/-- A free frame of the manager becomes used. -/
def State.send (s : State) (m : MsgDspmsg) : State :=
  {s with
    msgFree := s.msgFree-1
    msgUsed := s.msgUsed++[m]
    msgsPending := s.msgsPending+1
    accepted := s.accepted++[m]}

/-- `bridge_msg_put`, up to its wait. -/
def bridgeMsgPut (s : State) (t h : ℕ) (q : MsgQueue) (msg : DspMsg) : State×Answer :=
  let m : MsgDspmsg := ⟨msg,q.msgqId⟩
  if s.msgFree=0 then
    if q.done=true then (s,.put (-EPERM) m)
    else
      ((s.setQueue h {q with ioMsgPend := q.ioMsgPend+1}).setCall t (.waiting h (.put msg) false),
        .running)
  else
    let s := s.send m
    ({s with syncEvent := if s.msgFree=0 then 0 else s.syncEvent},.put 0 m)

/-- `bridge_msg_put`, after its wait, when the queue is not done. -/
def bridgeMsgPutWoken (s : State) (t h : ℕ) (q : MsgQueue) (msg : DspMsg) : State×Answer :=
  let m : MsgDspmsg := ⟨msg,q.msgqId⟩
  if s.msgFree=0 then (s.endCall t,.put (-EFAULT) m)
  else
    let s := (s.setQueue h {q with ioMsgPend := q.ioMsgPend-1}).send m
    ({s with syncEvent := if s.msgFree=0 then s.syncEvent else s.syncEvent+1}.endCall t,.put 0 m)

/-! ## Waits -/

/-- The event a thread waits for, besides `sync_done`. -/
def State.event (s : State) (q : MsgQueue) : Op → ℕ
  | .get => q.syncEvent
  | .put _ => s.syncEvent

/-- It is reset. -/
def State.resetEvent (s : State) (h : ℕ) (q : MsgQueue) : Op → State
  | .get => s.setQueue h {q with syncEvent := 0}
  | .put _ => {s with syncEvent := 0}

/-- `sync_wait_on_multiple_events`, up to its sleep: the first event that is set is reset. -/
def syncWaitOnMultipleEvents (s : State) (t h : ℕ) (q : MsgQueue) (op : Op) : State×Answer :=
  if 0<s.event q op then ((s.resetEvent h q op).setCall t (.woken h op 0),.running)
  else if 0<q.syncDone then
    ((s.setQueue h {q with syncDone := 0}).setCall t (.woken h op 0),.running)
  else (s.setCall t (.waiting h op true),.running)

/-- And after it: all events that are set are reset. -/
def syncWaitOnMultipleEventsEnd (s : State) (t h : ℕ) (q : MsgQueue) (op : Op) (timedOut : Bool) :
    State×Answer :=
  let err := if 0<s.event q op∨0<q.syncDone then 0 else if timedOut=true then -ETIME else -EPERM
  (((s.setQueue h {q with syncDone := 0}).resetEvent h {q with syncDone := 0} op).setCall t
    (.woken h op err),.running)

/-- What a call of `bridge_msg_get` or `bridge_msg_put` returns with an error. -/
def Op.answer (op : Op) (h : ℕ) (q : MsgQueue) (err : ℤ) : Answer :=
  match op with
  | .get => .get h err none
  | .put msg => .put err ⟨msg,q.msgqId⟩

/-- After the wait. A `bridge_msg_put` whose wait failed returns at once. -/
def afterWait (s : State) (t h : ℕ) (q : MsgQueue) (op : Op) (err : ℤ) : State×Answer :=
  match op with
  | .put msg =>
    if err≠0 then (s.endCall t,.put err ⟨msg,q.msgqId⟩)
    else if q.done=true then
      ((s.setQueue h {q with ioMsgPend := q.ioMsgPend-1}).setCall t (.leaving h op),.running)
    else bridgeMsgPutWoken s t h q msg
  | .get =>
    if q.done=true then
      ((s.setQueue h {q with ioMsgPend := q.ioMsgPend-1}).setCall t (.leaving h op),.running)
    else bridgeMsgGetWoken s t h q err

/-- The acknowledgement, after the lock. -/
def acknowledge (s : State) (t h : ℕ) (q : MsgQueue) (op : Op) : State×Answer :=
  ((s.setQueue h {q with syncDoneAck := q.syncDoneAck+1}).endCall t,op.answer h q (-EPERM))

/-! ## Transfers -/

/-- The queue that messages with an identifier are for: the first in the list. -/
def State.queueOf (s : State) (msgqId : ℕ) : Option (ℕ×MsgQueue) :=
  s.queueList.findSome? fun h =>
    (s.queues.get h).bind fun q => if q.msgqId=msgqId then some (h,q) else none

/-- A message that was read goes to its queue, unless it is the end of the node or there is no
frame. -/
def inputOne (s : State) (m : MsgDspmsg) : State :=
  match s.queueOf m.msgqId with
  | none => s
  | some (h,q) =>
    if m.msg.dwCmd=RMS_EXITACK then s
    else if q.msgFree=0 then s
    else
      s.setQueue h {q with
        msgFree := q.msgFree-1
        msgUsed := q.msgUsed++[m]
        received := q.received++[m]
        syncEvent := q.syncEvent+1}

/-- `input_msg`, with the messages in the shared memory. -/
def inputMsg (s : State) (inputEmpty : Bool) (msgs : List MsgDspmsg) : State :=
  if inputEmpty=true then s else msgs.foldl inputOne s

/-- The first used frame is copied and becomes free. -/
def outputOne (s : State) : State :=
  match s.msgUsed with
  | [] => s
  | m::ms =>
    {s with
      msgUsed := ms
      msgFree := s.msgFree+1
      syncEvent := s.syncEvent+1
      copied := s.copied++[m]}

/-- `output_msg`, into a shared memory with room for so many messages. -/
def outputMsg (maxMsgs : ℕ) (s : State) (outputEmpty : Bool) : State :=
  if outputEmpty=true then
    let numMsgs := if maxMsgs<s.msgsPending then maxMsgs else s.msgsPending
    let s := Nat.repeat outputOne numMsgs s
    {s with msgsPending := s.msgsPending-numMsgs}
  else s

/-! ## Steps -/

/-- A step of a thread or of the DPC, with what is decided outside of the driver. -/
inductive Event where
  /-- The queue is allocated at an address that no other queue has. -/
  | createQueue (t h msgqId maxMsgs : ℕ) (allocated : Bool)
  | get (t h : ℕ)
  | put (t h : ℕ) (msg : DspMsg)
  | wait (t : ℕ)
  | waitEnd (t : ℕ) (timedOut : Bool)
  | afterWait (t : ℕ)
  | acknowledge (t : ℕ)
  | deleteQueue (t h : ℕ)
  | deleteLoop (t : ℕ)
  | deleteAck (t : ℕ)
  | inputMsg (inputEmpty : Bool) (msgs : List MsgDspmsg)
  | outputMsg (outputEmpty : Bool)

/-- A thread that is not in a call begins one on a queue. -/
def State.begin (s : State) (t h : ℕ) (f : MsgQueue → State×Answer) : Option (State×Answer) :=
  match s.calls.get t,s.queues.get h with
  | none,some q => some (f q)
  | _,_ => none

/-- A call goes on. -/
def State.resume (s : State) (t : ℕ) (f : Call → MsgQueue → Option (State×Answer)) :
    Option (State×Answer) :=
  (s.calls.get t).bind fun p => (s.queues.get p.queue).bind (f p)

def call (maxMsgs : ℕ) (s : State) : Event → Option (State×Answer)
  | .createQueue t h msgqId n allocated =>
    match s.calls.get t,s.queues.get h with
    | none,none => some (bridgeMsgCreateQueue s h msgqId n allocated)
    | _,_ => none
  | .get t h => s.begin t h (bridgeMsgGet s t h)
  | .put t h msg => s.begin t h fun q => bridgeMsgPut s t h q msg
  | .wait t => s.resume t fun
    | .waiting h op false, q => some (syncWaitOnMultipleEvents s t h q op)
    | _, _ => none
  | .waitEnd t timedOut => s.resume t fun
    | .waiting h op true, q => some (syncWaitOnMultipleEventsEnd s t h q op timedOut)
    | _, _ => none
  | .afterWait t => s.resume t fun
    | .woken h op err, q => some (DspMessages.afterWait s t h q op err)
    | _, _ => none
  | .acknowledge t => s.resume t fun
    | .leaving h op, q => some (DspMessages.acknowledge s t h q op)
    | _, _ => none
  | .deleteQueue t h => s.begin t h (bridgeMsgDeleteQueue s t h)
  | .deleteLoop t => s.resume t fun
    | .deleting h, q => some (bridgeMsgDeleteQueueLoop s t h q)
    | _, _ => none
  | .deleteAck t => s.resume t fun
    | .unblocking h, q => some (bridgeMsgDeleteQueueAck s t h q)
    | _, _ => none
  | .inputMsg inputEmpty msgs => some (DspMessages.inputMsg s inputEmpty msgs,.status 0)
  | .outputMsg outputEmpty => some (DspMessages.outputMsg maxMsgs s outputEmpty,.status 0)

def step (maxMsgs : ℕ) (s : State) (e : Event) : Option State := (call maxMsgs s e).map Prod.fst

end ArdroneKernel.DspMessages
