import Mathlib.Data.Nat.Notation
import Mathlib.Logic.Function.Basic

/-!
# One-way calls to a binder process

Executable model of how `drivers/staging/android/binder.c` takes one-way
transactions to the nodes of a process that stays open: they wait on its own
list, on the lists of its threads and on the lists of its nodes. A call that
would reach a `BUG` has no result.
-/

namespace ArdroneKernel.BinderAsync

/-- `struct binder_transaction`. -/
structure Transaction where
  /-- `debug_id`. -/
  debugId : ℕ
  /-- `flags` has `TF_ONE_WAY`. -/
  oneWay : Bool
  /-- The address of `buffer`. -/
  buffer : ℕ
  /-- `target_node` of the buffer. -/
  targetNode : Option ℕ
  deriving DecidableEq

/-- `struct binder_work`. -/
inductive Work where
  /-- `BINDER_WORK_TRANSACTION`. -/
  | transaction (t : Transaction)
  /-- `BINDER_WORK_TRANSACTION_COMPLETE`. -/
  | transactionComplete
  /-- Work on nodes and deaths. -/
  | other
  deriving DecidableEq

/-- `struct binder_buffer`. -/
structure Buffer where
  /-- `async_transaction`. -/
  asyncTransaction : Bool
  /-- `target_node`. -/
  targetNode : Option ℕ
  /-- `allow_user_free`. -/
  allowUserFree : Bool
  deriving DecidableEq

/-- `struct binder_node`. -/
structure Node where
  /-- `has_async_transaction`. -/
  hasAsyncTransaction : Bool
  /-- `async_todo`. -/
  asyncTodo : List Transaction

/-- `struct binder_proc`, and the order of the calls to its nodes. -/
structure Proc where
  /-- `todo`. -/
  todo : List Work
  /-- `todo` of the threads there are. -/
  threads : ℕ → Option (List Work)
  /-- `nodes`. -/
  nodes : ℕ → Node
  /-- The buffers that are allocated. -/
  buffers : ℕ → Option Buffer
  /-- `binder_last_id`. -/
  lastId : ℕ
  /-- The one-way calls to a node that were accepted. -/
  accepted : ℕ → List ℕ
  /-- Those of them that a thread has read. -/
  delivered : ℕ → List ℕ

/-- A list of works: that of the process, or that of a thread. -/
inductive Todo where
  /-- `proc->todo`. -/
  | proc
  /-- `thread->todo`. -/
  | thread (pid : ℕ)
  deriving DecidableEq

/-- The works on a list. -/
def Proc.works (p : Proc) : Todo → List Work
  | .proc => p.todo
  | .thread pid => (p.threads pid).getD []

/-- The process, or a thread that has not exited. -/
def Proc.live (p : Proc) : Todo → Bool
  | .proc => true
  | .thread pid => (p.threads pid).isSome

/-- Other works on a list. -/
def Proc.setWorks (p : Proc) (l : Todo) (works : List Work) : Proc :=
  match l with
  | .proc => { p with todo := works }
  | .thread pid => { p with threads := Function.update p.threads pid (some works) }

/-- `list_add_tail`. -/
def Proc.add (p : Proc) (l : Todo) (w : Work) : Proc := p.setWorks l (p.works l++[w])

/-- Another state of a node. -/
def Proc.setNode (p : Proc) (n : ℕ) (node : Node) : Proc :=
  { p with nodes := Function.update p.nodes n node }

/-- Another state of a buffer. -/
def Proc.setBuffer (p : Proc) (a : ℕ) (b : Option Buffer) : Proc :=
  { p with buffers := Function.update p.buffers a b }

/-! ## Calls -/

/-- What a thread asks of `binder_transaction`. -/
inductive Call where
  /-- `BC_TRANSACTION` with `TF_ONE_WAY`. -/
  | oneWay (node : ℕ)
  /-- `BC_TRANSACTION` without it, to the process or to a thread of it. -/
  | twoWay (node : ℕ) (target : Todo)
  /-- `BC_REPLY`, with any flags. -/
  | reply (thread : ℕ) (flag : Bool)

/-- `target_node`. -/
def Call.targetNode : Call → Option ℕ
  | .oneWay n => some n
  | .twoWay n _ => some n
  | .reply .. => none

/-- `flags` has `TF_ONE_WAY`. -/
def Call.flagged : Call → Bool
  | .oneWay _ => true
  | .twoWay .. => false
  | .reply _ flag => flag

/-- The call is for a buffer with `async_transaction`. -/
def Call.isAsync : Call → Bool
  | .oneWay _ => true
  | _ => false

/-- Where the transaction of a call is queued. -/
def enqueue (p : Proc) (t : Transaction) : Call → Proc
  | .oneWay n =>
    let p := { p with accepted := Function.update p.accepted n (p.accepted n++[t.debugId]) }
    let node := p.nodes n
    if node.hasAsyncTransaction then
      p.setNode n { node with asyncTodo := node.asyncTodo++[t] }
    else (p.setNode n { node with hasAsyncTransaction := true }).add .proc (.transaction t)
  | .twoWay _ target => p.add target (.transaction t)
  | .reply thread _ => p.add (.thread thread) (.transaction t)

/-- `binder_transaction` when it succeeds, with a buffer at an address. The
sender may be a thread of the process. -/
def binderTransaction (p : Proc) (sender : Option ℕ) (call : Call) (a : ℕ) : Proc :=
  let id := p.lastId+1
  let p := { p with lastId := id }.setBuffer a (some ⟨call.isAsync,call.targetNode,false⟩)
  let p := enqueue p ⟨id,call.flagged,a,call.targetNode⟩ call
  match sender with
  | none => p
  | some pid => p.add (.thread pid) .transactionComplete

/-- `BC_FREE_BUFFER` of a thread. -/
def freeBuffer (p : Proc) (pid a : ℕ) : Option Proc :=
  match p.buffers a with
  | none => some p
  | some b =>
    if ¬b.allowUserFree then some p
    else
      let p := p.setBuffer a none
      match b.asyncTransaction,b.targetNode with
      | true,some n =>
        let node := p.nodes n
        if ¬node.hasAsyncTransaction then none
        else
          match node.asyncTodo with
          | [] => some (p.setNode n { node with hasAsyncTransaction := false })
          | t::ts =>
            some ((p.setNode n { node with asyncTodo := ts }).add (.thread pid) (.transaction t))
      | _,_ => some p

/-- The work a thread reads next, and the list it is on. -/
def nextWork (p : Proc) (pid : ℕ) (waitForProcWork : Bool) : Option (Todo×Work) :=
  match p.works (.thread pid),p.todo with
  | w::_,_ => some (.thread pid,w)
  | [],w::_ => if waitForProcWork then some (.proc,w) else none
  | [],[] => none

/-- A thread has read a transaction. -/
def deliver (p : Proc) (t : Transaction) (b : Buffer) : Proc :=
  let p := p.setBuffer t.buffer (some { b with allowUserFree := true })
  match b.asyncTransaction,b.targetNode with
  | true,some n =>
    { p with delivered := Function.update p.delivered n (p.delivered n++[t.debugId]) }
  | _,_ => p

/-- A turn of the loop in `binder_thread_read`. It can stop before the work is
off the list, as when the room of the reader is used up or not there. -/
def binderThreadRead (p : Proc) (pid : ℕ) (waitForProcWork stop : Bool) : Option Proc :=
  match nextWork p pid waitForProcWork with
  | none => some p
  | some (l,w) =>
    let taken := p.setWorks l (p.works l).tail
    match w with
    | .transaction t =>
      match p.buffers t.buffer with
      | none => none
      | some b => some (if stop then p else deliver taken t b)
    | _ => some (if stop then p else taken)

/-- `binder_free_thread`. What is on the list of the thread goes with it. -/
def binderFreeThread (p : Proc) (pid : ℕ) : Proc :=
  { p with threads := Function.update p.threads pid none }

/-! ## Runs -/

/-- What can happen to the process. -/
inductive Op where
  /-- `binder_get_thread` for a thread that is new. -/
  | getThread (pid : ℕ)
  /-- A transaction that is accepted. -/
  | transaction (sender : Option ℕ) (call : Call) (a : ℕ)
  /-- One that fails. -/
  | failed
  /-- `BC_FREE_BUFFER`. -/
  | freeBuffer (pid a : ℕ)
  /-- A read. -/
  | read (pid : ℕ) (waitForProcWork stop : Bool)
  /-- Work without a transaction for this process. -/
  | work (l : Todo) (w : Work)
  /-- `BINDER_THREAD_EXIT`. -/
  | threadExit (pid : ℕ)

/-- Threads that act are there, and new buffers are not those in use. -/
def Op.Allowed (p : Proc) : Op → Prop
  | .getThread pid => p.live (.thread pid)=false
  | .transaction sender call a => (∀ pid∈sender,p.live (.thread pid)=true)∧p.buffers a=none∧
      match call with
      | .oneWay _ => True
      | .twoWay _ target => p.live target=true
      | .reply thread _ => p.live (.thread thread)=true
  | .failed => True
  | .freeBuffer pid _ => p.live (.thread pid)=true
  | .read pid _ _ => p.live (.thread pid)=true
  | .work l w => p.live l=true∧(w=.transactionComplete∨w=.other)
  | .threadExit pid => p.live (.thread pid)=true

/-- The process after an operation. -/
def step (p : Proc) : Op → Option Proc
  | .getThread pid => some (p.setWorks (.thread pid) [])
  | .transaction sender call a => some (binderTransaction p sender call a)
  | .failed => some { p with lastId := p.lastId+1 }
  | .freeBuffer pid a => freeBuffer p pid a
  | .read pid waitForProcWork stop => binderThreadRead p pid waitForProcWork stop
  | .work l w => some (p.add l w)
  | .threadExit pid => some (binderFreeThread p pid)

/-- A process that has just opened the device. -/
def start : Proc where
  todo := []
  threads _ := none
  nodes _ := ⟨false,[]⟩
  buffers _ := none
  lastId := 0
  accepted _ := []
  delivered _ := []

end ArdroneKernel.BinderAsync
