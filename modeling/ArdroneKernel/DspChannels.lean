import ArdroneKernel.FiniteTable

/-!
# Channels to the DSP

`drivers/dsp/bridge/wmd/chnl_sm.c`, and the transfers of `io_sm.c`. A channel has a fixed number of
packets, each of which is free, requested or completed. A call is cut where another thread or the
DPC may come in between: what is done under `chnl_mgr_lock` is one step.
-/

namespace ArdroneKernel.DspChannels

open FiniteTable

def CHNL_MAXCHANNELS : ℕ := 32

def CHNL_IOCSTATCOMPLETE : ℕ := 0x0000
def CHNL_IOCSTATCANCEL : ℕ := 0x0002
def CHNL_IOCSTATTIMEOUT : ℕ := 0x0008
def CHNL_IOCSTATEOS : ℕ := 0x8000

def EPERM : ℤ := 1
def EIO : ℤ := 5
def ENOMEM : ℤ := 12
def EFAULT : ℤ := 14
def EINVAL : ℤ := 22
def EPIPE : ℤ := 32
def ECHRNG : ℤ := 44
def ENOSR : ℤ := 63
def ETIMEDOUT : ℤ := 110
def EALREADY : ℤ := 114
def EREMOTEIO : ℤ := 121
def ECANCELED : ℤ := 125

/-- A pointer that a caller passes, below or above `USERMODE_ADDR`. -/
inductive HostBuf where
  | null
  | user (addr : ℕ)
  | system (addr : ℕ)
  deriving DecidableEq

/-- What the driver reads and writes: a pointer it was passed, or memory that it allocated. The
allocations are numbered. -/
inductive SysBuf where
  | host (p : HostBuf)
  | bounce (n : ℕ)
  deriving DecidableEq

/-- `struct chnl_irp`. -/
structure Irp where
  /-- Which packet of its channel it is. -/
  chirp : ℕ
  hostUserBuf : HostBuf
  hostSysBuf : SysBuf
  dspTxAddr : ℕ
  byteSize : ℕ
  bufSize : ℕ
  dwArg : ℕ
  status : ℕ
  /-- How many requests its channel accepted before. The source does not keep this. -/
  request : ℕ
  deriving DecidableEq

/-- `struct chnl_object`. The type of a channel is always `CHNL_PCPY`. -/
structure Channel where
  chnlId : ℕ
  /-- `CHNL_IS_INPUT` of the mode. -/
  input : Bool
  /-- `CHNL_STATECANCEL` in the state. -/
  cancel : Bool
  /-- `CHNL_STATEEOS` in the state. -/
  eos : Bool
  chnlPackets : ℕ
  freePackets : List ℕ
  ioRequests : List Irp
  ioCompletions : List Irp
  cioReqs : ℤ
  cioCs : ℤ
  /-- How often the event was set since the last wait or reset: `done` of the completion. -/
  syncEvent : ℕ
  bytesMoved : ℕ
  /-- `bridge_chnl_open` returned it. -/
  opened : Bool
  /-- How many requests were accepted. The source does not keep this. -/
  added : ℕ
  /-- The requests that `bridge_chnl_get_ioc` has dequeued. The source does not keep them. -/
  reported : List ℕ
  deriving DecidableEq

/-- `struct chnl_ioc`. -/
structure Ioc where
  pbuf : HostBuf
  byteSize : ℕ
  bufSize : ℕ
  dwArg : ℕ
  status : ℕ
  deriving DecidableEq

/-- What `bridge_chnl_add_io_req` is passed, and the buffer it took instead of the user's. -/
structure Request where
  hostBuf : HostBuf
  hostSysBuf : SysBuf
  byteSize : ℕ
  bufSize : ℕ
  dspAddr : ℕ
  dwArg : ℕ
  deriving DecidableEq

/-- A call that has not returned, by where it is. -/
inductive Call where
  /-- `bridge_chnl_open` found the slot free. -/
  | opening (chnlId : ℕ) (input : Bool) (uioReqs : ℕ)
  /-- `bridge_chnl_open` put the channel in its slot. -/
  | inserted (h : ℕ)
  /-- `bridge_chnl_add_io_req`, before the lock. -/
  | adding (h : ℕ) (req : Request)
  /-- `bridge_chnl_get_ioc`, in `sync_wait_on_event`. -/
  | waiting (h : ℕ) (flush : Bool)
  /-- `bridge_chnl_get_ioc`, before the lock. It may have taken the event in its wait. -/
  | woken (h : ℕ) (dequeue took flush : Bool)
  /-- `bridge_chnl_get_ioc`, after the lock. -/
  | ending (h : ℕ) (dequeue : Bool) (ioc : Ioc) (hostSysBuf : SysBuf) (flush : Bool)
  /-- `bridge_chnl_flush_io`, at the head of its loop. -/
  | flushing (h : ℕ)
  /-- After `bridge_chnl_cancel_io`, called by `bridge_chnl_flush_io` or `bridge_chnl_idle`. -/
  | clearing (h : ℕ) (idle : Bool)
  /-- There, when the state is read and not yet written. -/
  | writing (h : ℕ) (eos : Bool)
  /-- `bridge_chnl_close`, after `bridge_chnl_cancel_io`. -/
  | closing (h : ℕ)
  deriving DecidableEq

/-- The channel a call is about. -/
def Call.channel : Call → Option ℕ
  | .opening _ _ _ => none
  | .inserted h | .adding h _ | .waiting h _ | .woken h _ _ _ | .ending h _ _ _ _ | .flushing h
  | .clearing h _ | .writing h _ | .closing h => some h

/-- What the driver was configured with. -/
structure Config where
  wordSize : ℕ
  usmBufSize : ℕ

/-- `struct chnl_mgr`, the calls in progress and the buffers. -/
structure State where
  /-- The channels that are allocated, by address. -/
  channels : Table ℕ Channel
  apChannel : ℕ → Option ℕ
  openChannels : BitVec 8
  outputMask : BitVec 32
  lastOutput : ℕ
  /-- The calls in progress, by thread. -/
  calls : Table ℕ Call
  /-- How many buffers were allocated. -/
  nextBuf : ℕ
  /-- What was passed to `kfree` as a buffer. -/
  freed : List SysBuf

/-- What a call returns. -/
inductive Answer where
  /-- It has not returned. -/
  | running
  | status (err : ℤ)
  | channel (h : ℕ)
  | ioc (err : ℤ) (ioc : Ioc)

namespace State

def start : State where
  channels := Table.empty
  apChannel _ := none
  openChannels := 0
  outputMask := 0
  lastOutput := 0
  calls := Table.empty
  nextBuf := 0
  freed := []

def setChannel (s : State) (h : ℕ) (c : Channel) : State :=
  {s with channels := s.channels.put h c}

def setCall (s : State) (t : ℕ) (p : Call) : State := {s with calls := s.calls.put t p}

def endCall (s : State) (t : ℕ) : State := {s with calls := s.calls.erase t}

def kfree (s : State) (b : SysBuf) : State := {s with freed := s.freed++[b]}

/-- The channel in a slot. -/
def slot (s : State) (id : ℕ) : Option (ℕ×Channel) :=
  (s.apChannel id).bind fun h => (s.channels.get h).map (h,·)

end State

/-! ## Opening -/

/-- `search_free_channel`. -/
def searchFreeChannel (s : State) : Option ℕ :=
  (List.range CHNL_MAXCHANNELS).find? fun i => s.apChannel i=none

/-- `bridge_chnl_open`, up to the choice of the slot. -/
def bridgeChnlOpen (s : State) (t : ℕ) (chnlId : Option ℕ) (input : Bool) (uioReqs : ℕ) :
    State×Answer :=
  if uioReqs=0 then (s,.status (-EINVAL))
  else
    match chnlId with
    | some id =>
      if CHNL_MAXCHANNELS≤ id then (s,.status (-ECHRNG))
      else if s.apChannel id≠none then (s,.status (-EALREADY))
      else (s.setCall t (.opening id input uioReqs),.running)
    | none =>
      match searchFreeChannel s with
      | none => (s,.status (-ENOSR))
      | some id => (s.setCall t (.opening id input uioReqs),.running)

/-- A new channel. Until it is ready its state is `CHNL_STATECANCEL`. -/
def Channel.new (chnlId : ℕ) (input : Bool) (uioReqs : ℕ) : Channel where
  chnlId := chnlId
  input := input
  cancel := true
  eos := false
  chnlPackets := uioReqs
  freePackets := List.range uioReqs
  ioRequests := []
  ioCompletions := []
  cioReqs := 0
  cioCs := 0
  syncEvent := 0
  bytesMoved := 0
  opened := false
  added := 0
  reported := []

/-- Then the allocations, and the slot. -/
def bridgeChnlOpenInsert (s : State) (t chnlId : ℕ) (input : Bool) (uioReqs h : ℕ)
    (allocated : Bool) : State×Answer :=
  if allocated=false then (s.endCall t,.status (-ENOMEM))
  else
    ({(s.setChannel h (.new chnlId input uioReqs)).setCall t (.inserted h) with
      apChannel := Function.update s.apChannel chnlId (some h)},.running)

/-- Then the state, `CHNL_STATEREADY`. -/
def bridgeChnlOpenReady (s : State) (t h : ℕ) (c : Channel) : State×Answer :=
  ({(s.setChannel h {c with cancel := false,eos := false,opened := true}).endCall t with
    openChannels := s.openChannels+1},.channel h)

/-! ## Requests -/

/-- `bridge_chnl_add_io_req`, up to the lock. A buffer of the user is replaced on all channels but
the first two. -/
def bridgeChnlAddIoReq (s : State) (t h : ℕ) (c : Channel) (req : Request)
    (allocated copied : Bool) : State×Answer :=
  if req.hostBuf=.null then (s,.status (-EFAULT))
  else if req.byteSize=0∧c.input=true then (s,.status (-EPERM))
  else if c.cancel=true then (s,.status (-ECANCELED))
  else if c.eos=true∧c.input=false then (s,.status (-EPIPE))
  else if c.chnlId≤1 then
    (s.setCall t (.adding h {req with hostSysBuf := .host .null}),.running)
  else
    match req.hostBuf with
    | .user _ =>
      if allocated=false then (s,.status (-ENOMEM))
      else
        let b := SysBuf.bounce s.nextBuf
        let s := {s with nextBuf := s.nextBuf+1}
        if c.input=false∧copied=false then (s.kfree b,.status (-EFAULT))
        else (s.setCall t (.adding h {req with hostSysBuf := b}),.running)
    | buf => (s.setCall t (.adding h {req with hostSysBuf := .host buf}),.running)

/-- The packet of a request. -/
def Request.irp (req : Request) (k : Config) (c : Channel) (chirp : ℕ) : Irp where
  chirp := chirp
  hostUserBuf := req.hostBuf
  hostSysBuf := if 1<c.chnlId then req.hostSysBuf else .host req.hostBuf
  dspTxAddr := req.dspAddr/k.wordSize
  byteSize := req.byteSize
  bufSize := req.bufSize
  dwArg := req.dwArg
  status := if req.byteSize=0 then CHNL_IOCSTATEOS else CHNL_IOCSTATCOMPLETE
  request := c.added

/-- A free packet that becomes a request. -/
def Channel.enqueue (c : Channel) (p : Irp) (free : List ℕ) : Channel :=
  {c with
    freePackets := free
    ioRequests := c.ioRequests++[p]
    cioReqs := c.cioReqs+1
    eos := c.eos||p.byteSize==0
    added := c.added+1}

/-- Under the lock. `io_request_chnl` marks an output channel as ready. -/
def bridgeChnlAddIoReqQueue (k : Config) (s : State) (t h : ℕ) (c : Channel) (req : Request) :
    State×Answer :=
  if c.input=false∧k.usmBufSize<req.byteSize then (s.endCall t,.status (-EINVAL))
  else
    match c.freePackets with
    | [] => (s.endCall t,.status (- EIO))
    | chirp::free =>
      ({(s.setChannel h (c.enqueue (req.irp k c chirp) free)).endCall t with
        outputMask := if c.input=true then s.outputMask else s.outputMask|||1#32<<<c.chnlId},
        .status 0)

/-! ## Cancelling -/

def Irp.cancelled (p : Irp) : Irp :=
  {p with byteSize := 0,status := p.status|||CHNL_IOCSTATCANCEL}

/-- The loop of `bridge_chnl_cancel_io`, over the requests. -/
def Channel.moveAll : List Irp → Channel → Channel
  | [], c => c
  | p::ps, c => moveAll ps {c with
      ioRequests := ps
      ioCompletions := c.ioCompletions++[p.cancelled]
      cioCs := c.cioCs+1
      cioReqs := c.cioReqs-1}

/-- What `bridge_chnl_cancel_io` does to the channel. -/
def Channel.cancelIo (c : Channel) : Channel := moveAll c.ioRequests {c with cancel := true}

/-- The event stays as it is. -/
def bridgeChnlCancelIo (s : State) (h : ℕ) (c : Channel) : State :=
  {s.setChannel h c.cancelIo with
    outputMask := if c.ioRequests=[]∨c.input=true then s.outputMask
      else s.outputMask&&&~~~(1#32<<<c.chnlId)}

/-! ## Completions -/

/-- `bridge_chnl_get_ioc`, up to its wait. -/
def bridgeChnlGetIoc (s : State) (t h : ℕ) (c : Channel) (nowait flush : Bool) : State×Answer :=
  if c.ioCompletions=[] then
    if nowait=true then (s,.status (- EREMOTEIO)) else (s.setCall t (.waiting h flush),.running)
  else (s.setCall t (.woken h true false flush),.running)

/-- The end of `sync_wait_on_event`. A wait that a signal ends returns 0 as well: only a time-out
makes `wait_for_completion_interruptible_timeout` return zero. -/
def syncWaitOnEvent (s : State) (t h : ℕ) (c : Channel) (flush signal : Bool) : State×Answer :=
  if 0<c.syncEvent then
    ((s.setChannel h {c with syncEvent := c.syncEvent-1}).setCall t (.woken h true true flush),
      .running)
  else (s.setCall t (.woken h signal false flush),.running)

/-- The event after a packet was dequeued or not. -/
def Channel.restoreEvent (c : Channel) : Channel :=
  {c with syncEvent := if c.ioCompletions=[] then 0 else c.syncEvent+1}

/-- A completed packet that becomes free. -/
def Channel.release (c : Channel) (p : Irp) (completions : List Irp) : Channel :=
  {c with
    ioCompletions := completions
    cioCs := c.cioCs-1
    freePackets := c.freePackets++[p.chirp]
    reported := c.reported++[p.request]}

/-- `bridge_chnl_get_ioc`, under the lock. -/
def Channel.dequeueIoc (c : Channel) (dequeue : Bool) : Channel×Ioc×SysBuf :=
  if dequeue=true then
    match c.ioCompletions with
    | [] => (c.restoreEvent,⟨.null,0,0,0,CHNL_IOCSTATCOMPLETE⟩,.host .null)
    | p::ps =>
      ((c.release p ps).restoreEvent,
        ⟨p.hostUserBuf,p.byteSize,p.bufSize,p.dwArg,CHNL_IOCSTATCOMPLETE|||p.status⟩,p.hostSysBuf)
  else
    (c.restoreEvent,⟨.null,0,0,0,CHNL_IOCSTATCOMPLETE|||CHNL_IOCSTATTIMEOUT⟩,.host .null)

def bridgeChnlGetIocDequeue (s : State) (t h : ℕ) (c : Channel) (dequeue flush : Bool) :
    State×Answer :=
  let (c,ioc,b) := c.dequeueIoc dequeue
  ((s.setChannel h c).setCall t (.ending h dequeue ioc b flush),.running)

/-- The copy to the user, and what is freed then. -/
def iocBuffer (c : Channel) (dequeue : Bool) (ioc : Ioc) (b : SysBuf) (copied : Bool) :
    ℤ×List SysBuf :=
  if dequeue=true∧1<c.chnlId then
    match ioc.pbuf with
    | .system _ => (0,[])
    | .null => (-EFAULT,[])
    | .user _ =>
      if b=.host .null then (-EFAULT,[])
      else (if c.input=true∧copied=false then -EFAULT else 0,[b])
  else (0,[])

/-- The end of `bridge_chnl_get_ioc`. `bridge_chnl_flush_io` goes on unless it failed or timed
out. -/
def bridgeChnlGetIocEnd (s : State) (t h : ℕ) (c : Channel) (dequeue : Bool) (ioc : Ioc)
    (b : SysBuf) (flush copied : Bool) : State×Answer :=
  let (err,frees) := iocBuffer c dequeue ioc b copied
  let s := {s with freed := s.freed++frees}
  if flush=false then (s.endCall t,.ioc err ioc)
  else if err≠0 then (s.endCall t,.status err)
  else if ioc.status&&&CHNL_IOCSTATTIMEOUT≠0 then (s.endCall t,.status (-ETIMEDOUT))
  else (s.setCall t (.flushing h),.running)

/-! ## Flushing, idling and closing -/

/-- `bridge_chnl_flush_io`. -/
def bridgeChnlFlushIo (s : State) (t h : ℕ) (c : Channel) (nowait : Bool) : State×Answer :=
  if c.input=false then
    if nowait=true then (s,.status (-EINVAL)) else (s.setCall t (.flushing h),.running)
  else ((bridgeChnlCancelIo s h c).setCall t (.clearing h false),.running)

/-- The head of its loop. -/
def bridgeChnlFlushIoLoop (s : State) (t h : ℕ) (c : Channel) : State×Answer :=
  if c.ioRequests=[] then (s.endCall t,.status 0) else bridgeChnlGetIoc s t h c false true

/-- `bridge_chnl_idle`. -/
def bridgeChnlIdle (s : State) (t h : ℕ) (c : Channel) (nowait fFlush : Bool) : State×Answer :=
  if c.input=false∧fFlush=false then bridgeChnlFlushIo s t h c nowait
  else ((bridgeChnlCancelIo s h c).setCall t (.clearing h true),.running)

/-- `CHNL_STATECANCEL` is taken out of the state without the lock: the state is read. -/
def clearCancelRead (s : State) (t h : ℕ) (c : Channel) (idle : Bool) : State×Answer :=
  ((s.setChannel h {c with bytesMoved := if idle=true then 0 else c.bytesMoved}).setCall t
    (.writing h c.eos),.running)

/-- And written. -/
def clearCancelWrite (s : State) (t h : ℕ) (c : Channel) (eos : Bool) : State×Answer :=
  ((s.setChannel h {c with cancel := false,eos := eos}).endCall t,.status 0)

def bridgeChnlClose (s : State) (t h : ℕ) (c : Channel) : State×Answer :=
  ((bridgeChnlCancelIo s h c).setCall t (.closing h),.running)

/-- The slot, and all that belongs to the channel. -/
def bridgeChnlCloseFree (s : State) (t h : ℕ) (c : Channel) : State×Answer :=
  ({s.endCall t with
    channels := s.channels.erase h
    apChannel := Function.update s.apChannel c.chnlId none
    openChannels := s.openChannels-1},.status 0)

/-! ## Transfers -/

/-- `notify_chnl_complete`. The event is set only if there were no completions. -/
def notifyChnlComplete (c : Channel) (p : Irp) : Channel :=
  let c' : Channel := {c with ioCompletions := c.ioCompletions++[p],cioCs := c.cioCs+1}
  if (c'.chnlPackets:ℤ)<c'.cioCs then c'
  else if c.ioCompletions=[] then {c' with syncEvent := c.syncEvent+1}
  else c'

/-- `input_chnl`, once the channel is known. A packet that nothing was read into is dropped when
the channel is at the end of its stream. -/
def Channel.inputChnl (c : Channel) (k : Config) (size arg : ℕ) : Channel :=
  if c.input=true∧c.cancel=false then
    match c.ioRequests with
    | [] => c
    | p::ps =>
      let c : Channel := {c with ioRequests := ps,cioReqs := c.cioReqs-1}
      if c.cioReqs<0 then c
      else
        let bytes := min (size*k.wordSize%2^32) p.byteSize
        let c : Channel := {c with bytesMoved := (c.bytesMoved+bytes)%2^32}
        let p : Irp := {p with byteSize := bytes,dwArg := arg,status := CHNL_IOCSTATCOMPLETE}
        if bytes=0 then
          if c.eos=true then c
          else
            notifyChnlComplete {c with eos := true} {p with status := p.status|||CHNL_IOCSTATEOS}
        else notifyChnlComplete c p
  else c

/-- `input_chnl`, with what it reads of the shared memory. -/
def inputChnl (k : Config) (s : State) (full size id arg : ℕ) : State :=
  if full=0∨CHNL_MAXCHANNELS≤ id then s
  else
    match s.slot id with
    | none => s
    | some (h,c) => s.setChannel h (c.inputChnl k size arg)

/-- `find_ready_output` for the DPC: the first channel in the mask, from the one after the last. -/
def findReadyOutput (lastOutput : ℕ) (mask : BitVec 32) : Option ℕ :=
  let id := if lastOutput+1=CHNL_MAXCHANNELS then 0 else lastOutput+1
  if CHNL_MAXCHANNELS≤ id then none
  else
    ((List.range CHNL_MAXCHANNELS).map fun i => (id+i)%CHNL_MAXCHANNELS).find? fun id =>
      mask&&&1#32<<<id≠0

/-- `output_chnl`, once the channel is known. -/
def Channel.outputChnl (c : Channel) (k : Config) (p : Irp) (ps : List Irp) : Channel :=
  let c : Channel := {c with ioRequests := ps,cioReqs := c.cioReqs-1}
  if c.cioReqs<0 then c
  else
    let bytes := min k.usmBufSize p.byteSize
    let c : Channel := {c with bytesMoved := (c.bytesMoved+bytes)%2^32}
    notifyChnlComplete c {p with byteSize := bytes,status := p.status&&&CHNL_IOCSTATEOS}

/-- `output_chnl`, with what it reads of the shared memory. -/
def outputChnl (k : Config) (s : State) (full : ℕ) (dspFreeMask : BitVec 32) : State :=
  if full≠0 then s
  else
    match findReadyOutput s.lastOutput (s.outputMask&&&dspFreeMask) with
    | none => s
    | some id =>
      let s := {s with lastOutput := id}
      match s.slot id with
      | none => s
      | some (h,c) =>
        match c.ioRequests with
        | [] => s
        | p::ps =>
          {s.setChannel h (c.outputChnl k p ps) with
            outputMask := if ps=[]∧0≤c.cioReqs-1 then s.outputMask&&&~~~(1#32<<<id)
              else s.outputMask}

/-! ## Steps -/

/-- A step of a thread or of the DPC, with what is decided outside of the driver. -/
inductive Event where
  /-- `none` is `CHNL_PICKFREE`. -/
  | openCheck (t : ℕ) (chnlId : Option ℕ) (input : Bool) (uioReqs : ℕ)
  /-- The channel is allocated at an address that no other channel has. -/
  | openInsert (t h : ℕ) (allocated : Bool)
  | openReady (t : ℕ)
  | addCheck (t h : ℕ) (req : Request) (allocated copied : Bool)
  | addQueue (t : ℕ)
  | cancelIo (t h : ℕ)
  | getIoc (t h : ℕ) (nowait : Bool)
  /-- The wait ends: the event is set, or the time is over, or there is a signal. -/
  | waitEnd (t : ℕ) (signal : Bool)
  | dequeue (t : ℕ)
  /-- The copy to the user succeeds, or the task is exiting. -/
  | getEnd (t : ℕ) (copied : Bool)
  | flushIo (t h : ℕ) (nowait : Bool)
  | flushLoop (t : ℕ)
  | idle (t h : ℕ) (nowait fFlush : Bool)
  | clearRead (t : ℕ)
  | clearWrite (t : ℕ)
  | closeStart (t h : ℕ)
  | closeFree (t : ℕ)
  | inputChnl (full size id arg : ℕ)
  | outputChnl (full : ℕ) (dspFreeMask : BitVec 32)

/-- A thread that is not in a call begins one on a channel it was given. -/
def State.begin (s : State) (t h : ℕ) (f : Channel → State×Answer) : Option (State×Answer) :=
  match s.calls.get t,s.channels.get h with
  | none,some c => if c.opened=true then some (f c) else none
  | _,_ => none

/-- A call goes on. -/
def State.resume (s : State) (t : ℕ) (f : Call → Channel → Option (State×Answer)) :
    Option (State×Answer) :=
  (s.calls.get t).bind fun p => p.channel.bind fun h => (s.channels.get h).bind (f p)

/-- The memory of a 32-bit machine has room for so many packets only. -/
def packetsFit (uioReqs : ℕ) : Bool := uioReqs<2^31

def call (k : Config) (s : State) : Event → Option (State×Answer)
  | .openCheck t chnlId input uioReqs =>
    if s.calls.get t=none then some (bridgeChnlOpen s t chnlId input uioReqs) else none
  | .openInsert t h allocated =>
    match s.calls.get t,s.channels.get h with
    | some (.opening id input uioReqs),none =>
      some (bridgeChnlOpenInsert s t id input uioReqs h (allocated&&packetsFit uioReqs))
    | _,_ => none
  | .openReady t => s.resume t fun
    | .inserted h, c => some (bridgeChnlOpenReady s t h c)
    | _, _ => none
  | .addCheck t h req allocated copied =>
    s.begin t h fun c => bridgeChnlAddIoReq s t h c req allocated copied
  | .addQueue t => s.resume t fun
    | .adding h req, c => some (bridgeChnlAddIoReqQueue k s t h c req)
    | _, _ => none
  | .cancelIo t h => s.begin t h fun c => (bridgeChnlCancelIo s h c,.status 0)
  | .getIoc t h nowait => s.begin t h fun c => bridgeChnlGetIoc s t h c nowait false
  | .waitEnd t signal => s.resume t fun
    | .waiting h flush, c => some (syncWaitOnEvent s t h c flush signal)
    | _, _ => none
  | .dequeue t => s.resume t fun
    | .woken h dequeue _ flush, c => some (bridgeChnlGetIocDequeue s t h c dequeue flush)
    | _, _ => none
  | .getEnd t copied => s.resume t fun
    | .ending h dequeue ioc b flush, c =>
      some (bridgeChnlGetIocEnd s t h c dequeue ioc b flush copied)
    | _, _ => none
  | .flushIo t h nowait => s.begin t h fun c => bridgeChnlFlushIo s t h c nowait
  | .flushLoop t => s.resume t fun
    | .flushing h, c => some (bridgeChnlFlushIoLoop s t h c)
    | _, _ => none
  | .idle t h nowait fFlush => s.begin t h fun c => bridgeChnlIdle s t h c nowait fFlush
  | .clearRead t => s.resume t fun
    | .clearing h idle, c => some (clearCancelRead s t h c idle)
    | _, _ => none
  | .clearWrite t => s.resume t fun
    | .writing h eos, c => some (clearCancelWrite s t h c eos)
    | _, _ => none
  | .closeStart t h => s.begin t h fun c => bridgeChnlClose s t h c
  | .closeFree t => s.resume t fun
    | .closing h, c => some (bridgeChnlCloseFree s t h c)
    | _, _ => none
  | .inputChnl full size id arg => some (inputChnl k s full size id arg,.status 0)
  | .outputChnl full dspFreeMask => some (outputChnl k s full dspFreeMask,.status 0)

def step (k : Config) (s : State) (e : Event) : Option State := (call k s e).map Prod.fst

end ArdroneKernel.DspChannels
