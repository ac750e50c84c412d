import ArdroneKernel.UbiScan

/-!
# Wear-leveling

Executable model of `drivers/mtd/ubi/wl.c`. Calls and works run concurrently,
and a step is what one of them does between taking `wl_lock` and releasing it.
A wear-leveling entry is named by its eraseblock, since each eraseblock has
one entry, which is in the lookup table from the start. What memory, the flash
and the EBA unit answer is given for every step. The reserve of eraseblocks for
bad ones, and read-only mode, which no function here looks at, are left out.
-/

namespace ArdroneKernel.UbiWearLeveling

open SearchTree UbiScan

def EINTR : ℤ := 4
def EAGAIN : ℤ := 11
def EBUSY : ℤ := 16

/-- `UBI_PROT_QUEUE_LEN`. -/
def UBI_PROT_QUEUE_LEN : ℕ := 10

/-- What the build and the attach choose. -/
structure Config where
  /-- Rebalancing of the trees. -/
  rb : Rebalance
  /-- `UBI_WL_THRESHOLD`. -/
  threshold : ℤ
  /-- `max_erroneous`. -/
  maxErroneous : ℤ

/-- `WL_FREE_MAX_DIFF`. -/
def Config.freeMaxDiff (cfg : Config) : ℤ := 2*cfg.threshold

/-- Types of data, for `ubi_wl_get_peb`. -/
inductive Dtype where
  | longterm
  | shortterm
  | unknown

/-- What `ubi_eba_copy_leb` returns. -/
inductive CopyRes where
  /-- Zero: the LEB was moved. -/
  | moved
  /-- `MOVE_CANCEL_RACE`. -/
  | cancelRace
  /-- `MOVE_SOURCE_RD_ERR`. -/
  | sourceRdErr
  /-- `MOVE_TARGET_RD_ERR`. -/
  | targetRdErr
  /-- `MOVE_TARGET_WR_ERR`. -/
  | targetWrErr
  /-- `MOVE_CANCEL_BITFLIPS`. -/
  | cancelBitflips
  /-- A negative error code. -/
  | err
  deriving DecidableEq

/-- A work: `struct ubi_work`. -/
inductive Work where
  /-- `erase_worker`, with its eraseblock. -/
  | erase (e : ℕ) (torture : Bool)
  /-- `wear_leveling_worker`. -/
  | wearLeveling
  deriving DecidableEq

/-- Where a call or a work is when it does not hold `wl_lock`. -/
inductive Thread where
  /-- It has returned. -/
  | done
  /-- `erase_worker`, before or in `sync_erase`. -/
  | erase (e : ℕ) (torture : Bool)
  /-- `erase_worker`, after a successful erasure. -/
  | erased (e : ℕ)
  /-- `erase_worker`, about to schedule the erasure again. -/
  | retry (e : ℕ)
  /-- `serve_prot_queue`, at the label `repeat`. -/
  | serve
  /-- `ensure_wear_leveling`, at its beginning. -/
  | ensure
  /-- `ensure_wear_leveling`, about to allocate a work. -/
  | ensureWork
  /-- `wear_leveling_worker`, at its beginning. -/
  | move
  /-- `ubi_wl_put_peb`, at the label `retry`. -/
  | put (e : ℕ) (torture : Bool)
  /-- `ubi_wl_put_peb`, about to schedule an erasure. -/
  | putErase (e : ℕ) (torture : Bool)
  /-- `ubi_wl_put_peb`, after `schedule_erase` failed. -/
  | putBack (e : ℕ)
  deriving DecidableEq

/-- Where the wear-leveling worker that holds `move_mutex` is. -/
inductive Mover where
  /-- The mutex is free. -/
  | idle
  /-- Reading the VID header, or in `ubi_eba_copy_leb`. -/
  | copy (e1 e2 : ℕ) (scrubbing : Bool)
  /-- The eraseblock was moved. -/
  | copied (e1 e2 : ℕ)
  /-- At the label `out_not_moved`. -/
  | notMoved (e1 e2 : ℕ) (protect scrubbing erroneous torture : Bool)
  /-- At the label `out_error`. -/
  | failed (e1 e2 : ℕ)
  /-- About to schedule the erasure of the source, and of a target put meanwhile. -/
  | eraseSource (e1 : ℕ) (e2 : Option ℕ)
  /-- About to schedule the erasure of the target. -/
  | eraseTarget (e2 : ℕ) (torture : Bool)
  deriving DecidableEq

/-- The wear-leveling data of a device, with all that runs. -/
structure State where
  /-- The erase counters of the entries. -/
  ec : ℕ → ℤ
  /-- Free eraseblocks. -/
  free : SearchTree.Tree ℕ
  /-- Used eraseblocks. -/
  used : SearchTree.Tree ℕ
  /-- Eraseblocks to be scrubbed. -/
  scrub : SearchTree.Tree ℕ
  /-- Eraseblocks with read errors. -/
  erroneous : SearchTree.Tree ℕ
  /-- `erroneous_peb_count`. -/
  erroneousPebCount : ℤ
  /-- The protection queue. -/
  pq : List (List ℕ)
  /-- `pq_head`. -/
  pqHead : ℕ
  /-- Pending works. -/
  works : List Work
  /-- `works_count`. -/
  worksCount : ℤ
  /-- `wl_scheduled`. -/
  wlScheduled : Bool
  /-- `move_from`. -/
  moveFrom : Option ℕ
  /-- `move_to`. -/
  moveTo : Option ℕ
  /-- `move_to_put`. -/
  moveToPut : Bool
  /-- Who holds `move_mutex`. -/
  mover : Mover
  /-- The other calls and works. -/
  threads : List Thread
  /-- The eraseblocks that callers got and did not put, as the EBA tables have them. -/
  held : List ℕ
  /-- Entries given back to the slab. -/
  freed : List ℕ

/-- What memory, the flash and the EBA unit answer in a step. -/
structure Outcome where
  /-- An allocation succeeds. -/
  mem : Bool
  /-- `ubi_io_sync_erase`: the number of erasures, or an error. -/
  io : ℤ
  /-- `ubi_io_write_ec_hdr`. -/
  hdr : ℤ
  /-- `ubi_io_read_vid_hdr`. -/
  vid : IoRes
  /-- `ubi_eba_copy_leb`. -/
  copy : CopyRes
  /-- The caller goes on using an eraseblock that could not be put. -/
  keep : Bool

/-! ## Trees and lists -/

/-- The order of a tree: erase counters, then eraseblock numbers. -/
def Before (ec : ℕ → ℤ) (a b : ℕ) : Prop := ec a<ec b∨(ec a=ec b∧a<b)

/-- The walk of `wl_tree_add`. -/
def addTurn (ec : ℕ → ℤ) (e e1 : ℕ) : Turn :=
  if ec e<ec e1 then .left
  else if ec e>ec e1 then .right
  else if e<e1 then .left else .right

/-- The walk of `in_wl_tree`. -/
def findTurn (ec : ℕ → ℤ) (e e1 : ℕ) : Turn :=
  if e=e1 then .here
  else if ec e<ec e1 then .left
  else if ec e>ec e1 then .right
  else if e<e1 then .left else .right

/-- `wl_tree_add`. -/
def wlTreeAdd (rb : Rebalance) (ec : ℕ → ℤ) (e : ℕ) (root : SearchTree.Tree ℕ) : SearchTree.Tree ℕ :=
  rb.run (root.add (addTurn ec e) e)

/-- `in_wl_tree`. -/
def inWlTree (ec : ℕ → ℤ) (e : ℕ) (root : SearchTree.Tree ℕ) : Bool := (root.find (findTurn ec e)).isSome

/-- `rb_erase`. -/
def rbErase (rb : Rebalance) (ec : ℕ → ℤ) (e : ℕ) (root : SearchTree.Tree ℕ) : SearchTree.Tree ℕ :=
  rb.run (root.remove (findTurn ec e))

/-- The loop of `find_wl_entry`. -/
def closest (ec : ℕ → ℤ) (max : ℤ) (e : ℕ) : SearchTree.Tree ℕ → ℕ
  | .nil => e
  | .node l e1 r => if ec e1≥max then closest ec max e l else closest ec max e1 r

/-- `find_wl_entry`. -/
def findWlEntry (ec : ℕ → ℤ) (root : SearchTree.Tree ℕ) (max : ℤ) : Option ℕ :=
  root.first.map fun e => closest ec (max+ec e) e root

/-- The element at the root. -/
def rbNode : SearchTree.Tree ℕ → Option ℕ
  | .nil => none
  | .node _ e _ => some e

/-- `prot_queue_add`. -/
def protQueueAdd (st : State) (e : ℕ) : State :=
  let tail := if st.pqHead=0 then UBI_PROT_QUEUE_LEN-1 else st.pqHead-1
  { st with pq := st.pq.modify tail (·++[e]) }

/-- `prot_queue_del`, which finds its entry on a list of the queue. -/
def protQueueDel (st : State) (e : ℕ) : State :=
  { st with pq := st.pq.map fun slot => slot.erase e }

/-- `schedule_ubi_work`. -/
def scheduleUbiWork (st : State) (w : Work) : State :=
  { st with works := st.works++[w], worksCount := st.worksCount+1 }

/-- A call or work comes to another place. -/
def State.goTo (st : State) (i : ℕ) (t : Thread) : State :=
  { st with threads := st.threads.set i t }

/-- A call or work begins. -/
def State.start (st : State) (t : Thread) : State := { st with threads := st.threads++[t] }

/-! ## Calls -/

/-- The choice of a free eraseblock in `ubi_wl_get_peb`. -/
def pickFree (cfg : Config) (st : State) : Dtype → Option ℕ
  | .longterm => findWlEntry st.ec st.free cfg.freeMaxDiff
  | .shortterm => st.free.first
  | .unknown =>
    match st.free.first,st.free.last with
    | some first,some last =>
      if st.ec last-st.ec first<cfg.freeMaxDiff then rbNode st.free
      else findWlEntry st.ec st.free (Int.tdiv (st.ec first+cfg.freeMaxDiff) 2)
    | _,_ => none

/-- `ubi_wl_get_peb`, once there is a free eraseblock. -/
def ubiWlGetPeb (cfg : Config) (st : State) (dtype : Dtype) : Option (State×ℕ) :=
  (pickFree cfg st dtype).map fun e =>
    ({ protQueueAdd { st with free := rbErase cfg.rb st.ec e st.free } e with
      held := e::st.held },e)

/-- `do_work` takes a work from the list. -/
def doWork (st : State) : Option State :=
  match st.works with
  | [] => none
  | .erase e torture::works =>
    some ({ st with works := works, worksCount := st.worksCount-1 }.start (.erase e torture))
  | .wearLeveling::works =>
    some ({ st with works := works, worksCount := st.worksCount-1 }.start .move)

/-- `ubi_wl_put_peb` with `wl_lock`. While the eraseblock is being moved, it
waits for the worker and tries again. -/
def putLocked (cfg : Config) (st : State) (i : ℕ) (e : ℕ) (torture : Bool) : Option State :=
  if st.moveFrom=some e then none
  else if st.moveTo=some e then some ({ st with moveToPut := true }.goTo i .done)
  else if inWlTree st.ec e st.used then
    some ({ st with used := rbErase cfg.rb st.ec e st.used }.goTo i (.putErase e torture))
  else if inWlTree st.ec e st.scrub then
    some ({ st with scrub := rbErase cfg.rb st.ec e st.scrub }.goTo i (.putErase e torture))
  else if inWlTree st.ec e st.erroneous then
    some ({ st with
      erroneous := rbErase cfg.rb st.ec e st.erroneous
      erroneousPebCount := st.erroneousPebCount-1 }.goTo i (.putErase e true))
  else some ((protQueueDel st e).goTo i (.putErase e torture))

/-- `ubi_wl_scrub_peb` with `wl_lock`. While the eraseblock is the target of a
move, it tries again later. -/
def ubiWlScrubPeb (cfg : Config) (st : State) (e : ℕ) : Option State :=
  if st.moveFrom=some e∨inWlTree st.ec e st.scrub∨inWlTree st.ec e st.erroneous then some st
  else if st.moveTo=some e then none
  else
    let st' := if inWlTree st.ec e st.used then
        { st with used := rbErase cfg.rb st.ec e st.used } else protQueueDel st e
    some ({ st' with scrub := wlTreeAdd cfg.rb st.ec e st.scrub }.start .ensure)

/-! ## Works -/

/-- `sync_erase`, with the new erase counter. -/
def syncErase (o : Outcome) (ec : ℤ) : Except ℤ ℤ :=
  if ¬o.mem then .error (-ENOMEM)
  else if o.io<0 then .error o.io
  else if ec+o.io>UBI_MAX_ERASECOUNTER then .error (-EINVAL)
  else if o.hdr≠0 then .error o.hdr
  else .ok (ec+o.io)

/-- The errors after which `erase_worker` schedules the erasure again. -/
def Temporary (err : ℤ) : Prop := err=-EINTR∨err=-ENOMEM∨err=-EAGAIN∨err=-EBUSY

instance (err : ℤ) : Decidable (Temporary err) := inferInstanceAs (Decidable (_∨_∨_∨_))

/-- `erase_worker` up to its use of `wl_lock`. After an error the entry is
given back, and the erasure may be scheduled again. -/
def eraseWorker (st : State) (i : ℕ) (e : ℕ) (o : Outcome) : State :=
  match syncErase o (st.ec e) with
  | .ok ec => { st with ec := Function.update st.ec e ec }.goTo i (.erased e)
  | .error err =>
    let st := { st with freed := e::st.freed }
    if Temporary err then st.goTo i (.retry e) else st.goTo i .done

/-- `schedule_erase`. -/
def scheduleErase (st : State) (e : ℕ) (torture : Bool) (o : Outcome) : Option State :=
  if o.mem then some (scheduleUbiWork st (.erase e torture)) else none

/-- How many entries `serve_prot_queue` moves before it releases the lock. -/
def SERVE_MAX : ℕ := 34

/-- `serve_prot_queue` from the label `repeat` on. -/
def serveProtQueue (cfg : Config) (st : State) (i : ℕ) : State :=
  let slot := st.pq.getD st.pqHead []
  let st' := { st with
    used := (slot.take SERVE_MAX).foldl (fun t e => wlTreeAdd cfg.rb st.ec e t) st.used
    pq := st.pq.modify st.pqHead (·.drop SERVE_MAX) }
  if slot.length≥SERVE_MAX then st'.goTo i .serve
  else
    let head := if st.pqHead+1=UBI_PROT_QUEUE_LEN then 0 else st.pqHead+1
    { st' with pqHead := head }.goTo i .ensure

/-- `ensure_wear_leveling`: a work is needed. -/
def wlNeeded (cfg : Config) (st : State) : Bool :=
  if st.wlScheduled then false
  else
    match st.scrub.first with
    | some _ => true
    | none =>
      match st.used.first,findWlEntry st.ec st.free cfg.freeMaxDiff with
      | some e1,some e2 => decide (st.ec e2-st.ec e1≥cfg.threshold)
      | _,_ => false

/-- The choice of source and target in `wear_leveling_worker`. -/
def pickMove (cfg : Config) (st : State) : Option (ℕ×ℕ×Bool) :=
  match findWlEntry st.ec st.free cfg.freeMaxDiff,st.scrub.first,st.used.first with
  | none,_,_ => none
  | _,none,none => none
  | some e2,none,some e1 =>
    if st.ec e2-st.ec e1≥cfg.threshold then some (e1,e2,false) else none
  | some e2,some e1,_ => some (e1,e2,true)

/-- `wear_leveling_worker` takes `move_mutex` and chooses. -/
def wearLevelingStart (cfg : Config) (st : State) (i : ℕ) (o : Outcome) : Option State :=
  if ¬o.mem then some (st.goTo i .done)
  else if st.mover≠.idle then none
  else
    match pickMove cfg st with
    | none => some ({ st with wlScheduled := false }.goTo i .done)
    | some (e1,e2,scrubbing) =>
      let used := if scrubbing then st.used else rbErase cfg.rb st.ec e1 st.used
      let scrub := if scrubbing then rbErase cfg.rb st.ec e1 st.scrub else st.scrub
      some ({ st with
        used := used
        scrub := scrub
        free := rbErase cfg.rb st.ec e2 st.free
        moveFrom := some e1
        moveTo := some e2
        mover := .copy e1 e2 scrubbing }.goTo i .done)

/-- What `wear_leveling_worker` makes of the VID header and of the copy. -/
def moveResult (cfg : Config) (st : State) (e1 e2 : ℕ) (scrubbing : Bool) (o : Outcome) : Mover :=
  match o.vid with
  | .ff => .notMoved e1 e2 true scrubbing false false
  | .ffBitflips => .notMoved e1 e2 false true false false
  | .badHdr => .failed e1 e2
  | .badHdrEbadmsg => .failed e1 e2
  | .err _ => .failed e1 e2
  | _ =>
    match o.copy with
    | .moved => .copied e1 e2
    | .cancelRace => .notMoved e1 e2 true scrubbing false false
    | .cancelBitflips => .notMoved e1 e2 false scrubbing false true
    | .targetWrErr => .notMoved e1 e2 false scrubbing false true
    | .targetRdErr => .notMoved e1 e2 false scrubbing false true
    | .sourceRdErr =>
      if st.erroneousPebCount>cfg.maxErroneous then .failed e1 e2
      else .notMoved e1 e2 false scrubbing true false
    | .err => .failed e1 e2

/-- The source goes back after the label `out_not_moved`. -/
def putSourceBack (cfg : Config) (st : State) (e1 : ℕ) (protect scrubbing erroneous : Bool) :
    State :=
  if protect then protQueueAdd st e1
  else if erroneous then
    { st with
      erroneous := wlTreeAdd cfg.rb st.ec e1 st.erroneous
      erroneousPebCount := st.erroneousPebCount+1 }
  else if scrubbing then { st with scrub := wlTreeAdd cfg.rb st.ec e1 st.scrub }
  else { st with used := wlTreeAdd cfg.rb st.ec e1 st.used }

/-- One step of the worker that holds `move_mutex`. -/
def moverStep (cfg : Config) (st : State) (o : Outcome) : Option State :=
  match st.mover with
  | .idle => none
  | .copy e1 e2 scrubbing =>
    match moveResult cfg st e1 e2 scrubbing o with
    | .copied e1 e2 =>
      -- `ubi_eba_copy_leb` returns zero only for an eraseblock that is mapped
      -- and not being put, and it maps the target instead
      if e1∈st.held then
        some { st with mover := .copied e1 e2, held := e2::st.held.erase e1 }
      else none
    | m => some { st with mover := m }
  | .copied e1 e2 =>
    let used := if st.moveToPut then st.used else wlTreeAdd cfg.rb st.ec e2 st.used
    let e2' := if st.moveToPut then some e2 else none
    some { st with
      used := used
      moveFrom := none
      moveTo := none
      moveToPut := false
      wlScheduled := false
      mover := .eraseSource e1 e2' }
  | .notMoved e1 e2 protect scrubbing erroneous torture =>
    some { putSourceBack cfg st e1 protect scrubbing erroneous with
      moveFrom := none
      moveTo := none
      wlScheduled := false
      mover := .eraseTarget e2 torture }
  | .failed e1 e2 =>
    some { st with
      moveFrom := none
      moveTo := none
      moveToPut := false
      wlScheduled := false
      mover := .idle
      freed := e1::e2::st.freed }
  | .eraseSource e1 e2 =>
    match scheduleErase st e1 false o,e2 with
    | some st,none => some { st with mover := .idle }
    | some st,some e2 => some { st with mover := .eraseTarget e2 false }
    | none,e2 => some { st with mover := .idle, freed := e1::(e2.toList++st.freed) }
  | .eraseTarget e2 torture =>
    match scheduleErase st e2 torture o with
    | some st => some { st with mover := .idle }
    | none => some { st with mover := .idle, freed := e2::st.freed }

/-- One step of another call or work. -/
def threadStep (cfg : Config) (st : State) (i : ℕ) (o : Outcome) : Option State :=
  match st.threads.getD i .done with
  | .done => none
  | .erase e _ => some (eraseWorker st i e o)
  | .erased e => some ({ st with free := wlTreeAdd cfg.rb st.ec e st.free }.goTo i .serve)
  | .retry e =>
    match scheduleErase st e false o with
    | some st => some (st.goTo i .done)
    | none => some (st.goTo i .done)
  | .serve => some (serveProtQueue cfg st i)
  | .ensure =>
    if wlNeeded cfg st then some ({ st with wlScheduled := true }.goTo i .ensureWork)
    else some (st.goTo i .done)
  | .ensureWork =>
    if o.mem then some ((scheduleUbiWork st .wearLeveling).goTo i .done)
    else some ({ st with wlScheduled := false }.goTo i .done)
  | .move => wearLevelingStart cfg st i o
  | .put e torture => putLocked cfg st i e torture
  | .putErase e torture =>
    match scheduleErase st e torture o with
    | some st => some (st.goTo i .done)
    | none => some (st.goTo i (.putBack e))
  | .putBack e =>
    let held := if o.keep then e::st.held else st.held
    some ({ st with used := wlTreeAdd cfg.rb st.ec e st.used, held := held }.goTo i .done)

/-! ## Runs -/

/-- What happens next. -/
inductive Event where
  /-- `ubi_wl_get_peb` takes a free eraseblock. -/
  | get (dtype : Dtype)
  /-- `do_work` takes a work. -/
  | work
  /-- A caller puts an eraseblock that it got. -/
  | put (e : ℕ) (torture : Bool)
  /-- A caller has an eraseblock scrubbed that it got. -/
  | scrub (e : ℕ)
  /-- The worker that holds `move_mutex` goes on. -/
  | mover (o : Outcome)
  /-- Another call or work goes on. -/
  | thread (i : ℕ) (o : Outcome)

/-- One step of the whole unit. -/
def step (cfg : Config) (st : State) : Event → Option State
  | .get dtype => (ubiWlGetPeb cfg st dtype).map Prod.fst
  | .work => doWork st
  | .put e torture =>
    if e∈st.held then some ({ st with held := st.held.erase e }.start (.put e torture)) else none
  | .scrub e => if e∈st.held then ubiWlScrubPeb cfg st e else none
  | .mover o => moverStep cfg st o
  | .thread i o => threadStep cfg st i o

/-! ## Initialization -/

/-- The eraseblocks of the volumes. -/
def volumeLebs (si : ScanInfo) : List ScanLeb := si.volumes.toList.flatMap fun sv => sv.root.toList

/-- The erase counters that a scan found. -/
def scannedEc (si : ScanInfo) (e : ℕ) : ℤ :=
  (((si.erase++si.free++volumeLebs si).find? fun seb => seb.pnum=e).map ScanLeb.ec).getD 0

/-- A tree filled with eraseblocks of a scan. -/
def fillTree (cfg : Config) (si : ScanInfo) (lebs : List ScanLeb) : SearchTree.Tree ℕ :=
  lebs.foldl (fun t seb => wlTreeAdd cfg.rb (scannedEc si) seb.pnum t) .nil

/-- `ubi_wl_init_scan`, up to its call of `ensure_wear_leveling`. -/
def ubiWlInitScan (cfg : Config) (si : ScanInfo) : State where
  ec := scannedEc si
  free := fillTree cfg si si.free
  used := fillTree cfg si ((volumeLebs si).filter fun seb => !seb.scrub)
  scrub := fillTree cfg si ((volumeLebs si).filter fun seb => seb.scrub)
  erroneous := .nil
  erroneousPebCount := 0
  pq := List.replicate UBI_PROT_QUEUE_LEN []
  pqHead := 0
  works := si.erase.map fun seb => .erase seb.pnum false
  worksCount := si.erase.length
  wlScheduled := false
  moveFrom := none
  moveTo := none
  moveToPut := false
  mover := .idle
  threads := [.ensure]
  held := (volumeLebs si).map ScanLeb.pnum
  freed := []

end ArdroneKernel.UbiWearLeveling
