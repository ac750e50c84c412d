import ArdroneKernel.Execution
import ArdroneKernel.RingSegments
import Mathlib.Algebra.Order.Ring.Int

/-!
# The UBIFS log

Executable model of `fs/ubifs/log.c` and of the steps of `do_commit` of
`commit.c` that concern the log. The steps of writers, which take `log_mutex`,
and those of the commit follow each other in any order that the locks allow,
and each of them changes the flash at most once. No write to the flash fails.
The nodes in buds and the index of a master node are told by which nodes the
index covers.
-/

namespace ArdroneKernel.UbifsLog

def UBIFS_LOG_LNUM : ℕ := 3

def UBIFS_CS_NODE_SZ : ℕ := 32

def UBIFS_REF_NODE_SZ : ℕ := 64

def UBIFS_MIN_LEB_SZ : ℕ := 15*1024

def UBIFS_MIN_LOG_LEBS : ℕ := 2

def UBIFS_MIN_BUD_LEBS : ℕ := 3

def NONDATA_JHEADS_CNT : ℕ := 2

def UBIFS_MAX_JHEADS : ℕ := 1

/-! ## Geometry -/

/-- What the log depends on. -/
structure Info where
  /-- `leb_size`. -/
  lebSize : ℕ
  /-- `min_io_size`. -/
  minIoSize : ℕ
  /-- `log_lebs`. -/
  logLebs : ℕ
  /-- `jhead_cnt`. -/
  jheadCnt : ℕ
  /-- `max_bud_bytes`. -/
  maxBudBytes : ℕ

/-- `ALIGN` -/
def align (x a : ℕ) : ℕ := (x+a-1)/a*a

namespace Info

variable (c : Info)

/-- `log_bytes`. -/
def logBytes : ℕ := c.logLebs*c.lebSize

/-- `log_last`. -/
def logLast : ℕ := UBIFS_LOG_LNUM+c.logLebs-1

/-- `ref_node_alsz`. -/
def refNodeAlsz : ℕ := align UBIFS_REF_NODE_SZ c.minIoSize

/-- `max_bud_cnt`. -/
def maxBudCnt : ℕ := (c.maxBudBytes+c.lebSize-1)/c.lebSize

end Info

/-- What `init_constants_sb` does with the log. -/
def initConstantsSb (c : Info) : Option Info :=
  let tmp := align (UBIFS_CS_NODE_SZ+UBIFS_REF_NODE_SZ*c.jheadCnt) c.minIoSize
  if c.lebSize<tmp then none
  else
    let tmp := (c.refNodeAlsz*c.maxBudCnt+c.lebSize-1)/c.lebSize+1
    if c.logLebs<tmp then none
    else
      let tmp64 := (c.jheadCnt+1)*c.lebSize+1
      some { c with maxBudBytes := if c.maxBudBytes<tmp64+c.lebSize then tmp64+c.lebSize
        else c.maxBudBytes }

/-- What has been checked before `init_constants_sb`. -/
structure ValidSb (c : Info) : Prop where
  lebSize : UBIFS_MIN_LEB_SZ≤c.lebSize
  minIoSize : ∃ k,c.minIoSize=2^k∧8≤c.minIoSize
  logLebs : UBIFS_MIN_LOG_LEBS≤c.logLebs
  jheadCnt : NONDATA_JHEADS_CNT+1≤c.jheadCnt∧c.jheadCnt≤NONDATA_JHEADS_CNT+UBIFS_MAX_JHEADS
  maxBudBytes : c.lebSize*UBIFS_MIN_BUD_LEBS≤c.maxBudBytes

/-- The sizes of a file-system that `init_constants_sb` accepts. -/
def Accepted (c : Info) : Prop := ∃ sb,ValidSb sb∧initConstantsSb sb=some c

/-! ## State -/

/-- A node of the log. -/
inductive NodeBody where
  /-- A commit start node, with its `cmt_no`. -/
  | cs (cmtNo : ℕ)
  /-- A reference node. -/
  | ref (lnum offs jhead : ℕ)
  deriving DecidableEq

/-- A node of the log with its sequence number. -/
structure Node where
  sqnum : ℕ
  body : NodeBody
  deriving DecidableEq

/-- A LEB of the log. An unmapped one may still show what it held, until it is
erased. -/
structure Leb where
  mapped : Bool := false
  nodes : List Node := []
  deriving DecidableEq

/-- `struct ubifs_bud`. -/
structure Bud where
  lnum : ℕ
  start : ℕ
  jhead : ℕ
  deriving DecidableEq

/-- The fields of the master node on flash that concern the log. -/
structure Mst where
  cmtNo : ℕ
  logLnum : ℕ
  deriving DecidableEq

/-- How far the commit is. -/
inductive Phase where
  /-- No commit runs. -/
  | resting
  /-- `ubifs_log_start_commit` has unmapped the LEB it is going to write to. -/
  | starting
  /-- `ubifs_log_start_commit` has returned the new tail. -/
  | started (newLtail : ℕ)
  /-- `ubifs_log_end_commit` has moved the tail from an old one. -/
  | ended (newLtail oldLtail : ℕ)
  /-- The master node is on flash. -/
  | written (oldLtail : ℕ)
  deriving DecidableEq

/-- What the owner of `log_mutex` is doing. -/
inductive Lock where
  /-- Nobody has it. -/
  | free
  /-- A writer is about to write the reference node of a bud. -/
  | adding (jhead lnum offs : ℕ)
  /-- `ubifs_log_post_commit` has come to a LEB. -/
  | unmapping (lnum : ℕ)
  deriving DecidableEq

/-- The state of the log, the journal heads and the flash. -/
structure State where
  /-- `lhead_lnum`. -/
  lheadLnum : ℕ
  /-- `lhead_offs`. -/
  lheadOffs : ℕ
  /-- `ltail_lnum`. -/
  ltailLnum : ℕ
  /-- `min_log_bytes`. -/
  minLogBytes : ℕ
  /-- `bud_bytes`. -/
  budBytes : ℤ
  /-- `cmt_bud_bytes`. -/
  cmtBudBytes : ℤ
  /-- `buds`. -/
  buds : List Bud
  /-- `old_buds`. -/
  oldBuds : List Bud
  /-- `lnum` of the write-buffer of each journal head, unless it is -1, and
  where the next node of it goes. -/
  wbuf : ℕ → Option (ℕ×ℕ)
  /-- `max_sqnum`. -/
  maxSqnum : ℕ
  /-- `cmt_no`. -/
  cmtNo : ℕ
  /-- The log LEBs on flash. -/
  flash : ℕ → Leb
  /-- The master node on flash. -/
  mst : Mst
  phase : Phase
  lock : Lock
  /-- Where the nodes are that the index of the master node on flash does not
  cover. -/
  uncovered : List (ℕ×ℕ)
  /-- Where the nodes are that were written after the last commit started. -/
  sinceStart : List (ℕ×ℕ)

section

variable (c : Info) (s : State)

/-- `next_log_lnum` -/
def nextLogLnum (lnum : ℕ) : ℕ := if c.logLast<lnum+1 then UBIFS_LOG_LNUM else lnum+1

/-- `empty_log_bytes` -/
def emptyLogBytes : ℤ :=
  let h : ℤ := s.lheadLnum*c.lebSize+s.lheadOffs
  let t : ℤ := s.ltailLnum*c.lebSize
  if t≤h then c.logBytes-h+t else t-h

/-! ## The flash -/

/-- `ubifs_leb_unmap` -/
def ubifsLebUnmap (lnum : ℕ) : State :=
  { s with flash := Function.update s.flash lnum { s.flash lnum with mapped := false } }

/-- A node is written to a LEB, with the next sequence number. -/
def writeLog (lnum : ℕ) (body : NodeBody) : State :=
  let old := if (s.flash lnum).mapped then (s.flash lnum).nodes else []
  { s with
    maxSqnum := s.maxSqnum+1
    flash := Function.update s.flash lnum ⟨true,old++[⟨s.maxSqnum+1,body⟩]⟩ }

/-! ## Writers -/

/-- Whether `ubifs_add_bud_to_log` answers `-EAGAIN`. -/
def refused (offs : ℕ) : Bool :=
  emptyLogBytes c s-c.refNodeAlsz<s.minLogBytes || s.budBytes+c.lebSize-offs>c.maxBudBytes

/-- Whether the head is to move on before the next reference node. -/
def switches : Bool := c.lebSize-c.refNodeAlsz<s.lheadOffs

/-- `ubifs_add_bud_to_log`, up to the write of the reference node. -/
def addStart (jhead lnum offs : ℕ) : State :=
  if refused c s offs then s
  else
    let s := if switches c s then { s with lheadLnum := nextLogLnum c s.lheadLnum, lheadOffs := 0 }
      else s
    let s := if s.lheadOffs=0 then ubifsLebUnmap s s.lheadLnum else s
    { s with lock := .adding jhead lnum offs }

/-- The rest of `ubifs_add_bud_to_log`, with `ubifs_add_bud`, and the
`ubifs_wbuf_seek_nolock` of its caller: the commit lock keeps the start of a
commit from coming between the two. -/
def addWrite (jhead lnum offs : ℕ) : State :=
  let s := writeLog s s.lheadLnum (.ref lnum offs jhead)
  { s with
    lheadOffs := s.lheadOffs+c.refNodeAlsz
    buds := ⟨lnum,offs,jhead⟩::s.buds
    budBytes := s.budBytes+(c.lebSize-offs)
    wbuf := Function.update s.wbuf jhead (some (lnum,offs))
    lock := .free }

/-- A node of a length is written to a journal head. -/
def writeNode (jhead len : ℕ) : Option State :=
  (s.wbuf jhead).bind fun (lnum,offs) =>
    if 0<len∧offs+len≤c.lebSize then
      some { s with
        wbuf := Function.update s.wbuf jhead (some (lnum,offs+len))
        uncovered := (lnum,offs)::s.uncovered
        sinceStart := (lnum,offs)::s.sinceStart }
    else none

/-! ## The commit -/

/-- The write-buffers as `ubifs_wbuf_sync` leaves them. -/
def syncWbufs : ℕ → Option (ℕ×ℕ) := fun jhead =>
  (s.wbuf jhead).map fun (lnum,offs) => (lnum,align offs c.minIoSize)

/-- The LEB that `ubifs_log_start_commit` writes to. -/
def startLnum : ℕ := if s.lheadOffs≠0 then nextLogLnum c s.lheadLnum else s.lheadLnum

/-- The buffers are synchronised, and `ubifs_log_start_commit` unmaps the LEB
that it is going to write to. -/
def startUnmap : State :=
  let s := { s with wbuf := syncWbufs c s, cmtNo := s.cmtNo+1 }
  let lnum := startLnum c s
  ubifsLebUnmap { s with lheadLnum := lnum, lheadOffs := 0, phase := .starting } lnum

/-- The reference nodes of `ubifs_log_start_commit`. -/
def headRefs : List NodeBody :=
  (List.range c.jheadCnt).filterMap fun i => (s.wbuf i).bind fun (lnum,offs) =>
    if offs=c.lebSize then none else some (.ref lnum offs i)

/-- The length of what `ubifs_log_start_commit` writes. -/
def startLen : ℕ :=
  align (UBIFS_CS_NODE_SZ+UBIFS_REF_NODE_SZ*(headRefs c s).length) c.minIoSize

/-- One bud in `remove_buds`. -/
def removeBud (s : State) (bud : Bud) : State :=
  match s.wbuf bud.jhead with
  | some (lnum,offs) =>
    if lnum=bud.lnum then
      { s with
        cmtBudBytes := s.cmtBudBytes+(offs-bud.start)
        buds := s.buds++[{ bud with start := offs }] }
    else
      { s with
        cmtBudBytes := s.cmtBudBytes+(c.lebSize-bud.start)
        oldBuds := s.oldBuds++[bud] }
  | none =>
    { s with
      cmtBudBytes := s.cmtBudBytes+(c.lebSize-bud.start)
      oldBuds := s.oldBuds++[bud] }

/-- `remove_buds` -/
def removeBuds : State :=
  s.buds.foldl (removeBud c) { s with cmtBudBytes := 0, buds := [] }

/-- The rest of `ubifs_log_start_commit`: its nodes are written in one go. -/
def startWrite : State :=
  let len := startLen c s
  let newLtail := s.lheadLnum
  let s := (headRefs c s).foldl (fun s body => writeLog s newLtail body)
    (writeLog s newLtail (.cs s.cmtNo))
  let s := { s with lheadOffs := s.lheadOffs+len }
  let s := if s.lheadOffs=c.lebSize then
      { s with lheadLnum := nextLogLnum c s.lheadLnum, lheadOffs := 0 }
    else s
  { removeBuds c s with minLogBytes := 0, phase := .started newLtail, sinceStart := [] }

/-- `ubifs_log_end_commit` -/
def ubifsLogEndCommit (newLtail : ℕ) : State :=
  { s with
    ltailLnum := newLtail
    minLogBytes := c.lebSize
    budBytes := s.budBytes-s.cmtBudBytes
    phase := .ended newLtail s.ltailLnum }

/-- The master node of the commit is written. -/
def ubifsWriteMaster (newLtail oldLtail : ℕ) : State :=
  { s with
    mst := ⟨s.cmtNo,newLtail⟩
    phase := .written oldLtail
    uncovered := s.sinceStart }

/-- The loop of `ubifs_log_post_commit`, which has come to a LEB. -/
def postUnmap (lnum : ℕ) : State :=
  if lnum=s.ltailLnum then { s with lock := .free, phase := .resting }
  else { ubifsLebUnmap s lnum with lock := .unmapping (nextLogLnum c lnum) }

/-! ## Steps -/

/-- What writers and the commit do. -/
inductive Op where
  /-- A writer begins to add a bud. -/
  | addStart (jhead lnum offs : ℕ)
  /-- It writes the reference node and goes on to use the bud. -/
  | addWrite
  /-- A node is written to a journal head. -/
  | writeNode (jhead len : ℕ)
  /-- A commit starts. -/
  | startUnmap
  | startWrite
  | endCommit
  | writeMaster
  | postCommit
  | postUnmap
  deriving DecidableEq

/-- What happens, if the locks allow it. -/
def step (s : State) : Op → Option State
  | .addStart jhead lnum offs =>
    if s.lock=.free∧s.phase≠.starting∧jhead<c.jheadCnt∧offs≤c.lebSize then
      some (addStart c s jhead lnum offs)
    else none
  | .addWrite =>
    match s.lock with
    | .adding jhead lnum offs => some (addWrite c s jhead lnum offs)
    | _ => none
  | .writeNode jhead len => if s.phase≠.starting then writeNode c s jhead len else none
  | .startUnmap =>
    if s.phase=.resting∧s.lock=.free then some (startUnmap c s) else none
  | .startWrite => if s.phase=.starting then some (startWrite c s) else none
  | .endCommit =>
    match s.phase,s.lock with
    | .started newLtail,.free => some (ubifsLogEndCommit c s newLtail)
    | _,_ => none
  | .writeMaster =>
    match s.phase with
    | .ended newLtail oldLtail => some (ubifsWriteMaster s newLtail oldLtail)
    | _ => none
  | .postCommit =>
    match s.phase,s.lock with
    | .written oldLtail,.free => some { s with oldBuds := [], lock := .unmapping oldLtail }
    | _,_ => none
  | .postUnmap =>
    match s.lock with
    | .unmapping lnum => some (postUnmap c s lnum)
    | _ => none

/-! ## Mounting -/

/-- What a LEB of the log shows after a power cut. -/
def shown (erased : ℕ → Bool) (lnum : ℕ) : List Node :=
  if !(s.flash lnum).mapped && erased lnum then [] else (s.flash lnum).nodes

/-- The loop of `ubifs_replay_journal` over the log: LEBs and their nodes, or
no result if the mount fails. The first LEB is read without the sequence
number of a commit start node. -/
def replayLog (erased : ℕ → Bool) : ℕ → ℕ → Option ℕ → Option (List (ℕ×List Node))
  | 0, _, _ => some []
  | fuel+1, lnum, csSqnum =>
    match shown s erased lnum with
    | [] => some []
    | snod::snods =>
      let csSqnum := match csSqnum with
        | none => if snod.body=NodeBody.cs s.mst.cmtNo then some snod.sqnum else none
        | some sqnum => some sqnum
      csSqnum.bind fun sqnum =>
        if snod.sqnum<sqnum then some []
        else if snods.any fun n => n.sqnum<sqnum then none
        else (replayLog erased fuel (nextLogLnum c lnum) (some sqnum)).map
          ((lnum,snod::snods)::·)

/-- The log LEBs that are read from the one the master node names. -/
def replay (erased : ℕ → Bool) : Option (List (ℕ×List Node)) :=
  replayLog c s erased c.logLebs s.mst.logLnum none

end

end ArdroneKernel.UbifsLog
