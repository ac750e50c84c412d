import ArdroneKernel.SearchTree

/-!
# The buffers of a binder process

Executable model of the buffer allocator of `drivers/staging/android/binder.c`.
The headers of the buffers lie in the space they describe, so that a header can
be read only where a page is. Addresses count from `proc->buffer`, which is at
the start of a page. A call that would reach a `BUG` or a page that is not there
has no result.
-/

namespace ArdroneKernel.BinderBuffers

open SearchTree

/-- `PAGE_SIZE`. -/
def PAGE_SIZE : ℕ := 4096

/-- `SZ_4M`, the most that `binder_mmap` maps. -/
def SZ_4M : ℕ := 4*1024*1024

/-- `sizeof(struct binder_buffer)`. -/
def HEADER : ℕ := 40

/-- `PAGE_ALIGN`. -/
def pageAlign (x : ℕ) : ℕ := (x+(PAGE_SIZE-1))/PAGE_SIZE*PAGE_SIZE

/-- The start of the page of an address. -/
def pageMask (x : ℕ) : ℕ := x/PAGE_SIZE*PAGE_SIZE

/-- `ALIGN(x, sizeof(void *))` of a `size_t`. -/
def alignPtr (x : ℕ) : ℕ := (x+3)%2^32/4*4

/-- `struct binder_buffer`, without what its users keep in it. -/
structure Buffer where
  /-- Where the header is. -/
  addr : ℕ
  /-- `free`. -/
  free : Bool
  /-- `async_transaction`. -/
  isAsync : Bool
  /-- `data_size`. -/
  dataSize : ℕ
  /-- `offsets_size`. -/
  offsetsSize : ℕ

/-- The part of `struct binder_proc` the allocator uses. -/
structure Proc where
  /-- `buffer_size`. -/
  bufferSize : ℕ
  /-- `buffers`. -/
  buffers : List Buffer
  /-- `free_buffers`. -/
  freeBuffers : SearchTree.Tree ℕ
  /-- `allocated_buffers`. -/
  allocatedBuffers : SearchTree.Tree ℕ
  /-- The pages there are. -/
  pages : ℕ → Bool
  /-- `free_async_space`. -/
  freeAsyncSpace : ℕ

/-! ## The list of buffers -/

/-- The start of the first of some buffers, or the end of the space. -/
def startOf (size : ℕ) : List Buffer → ℕ
  | [] => size
  | b::_ => b.addr

/-- The size of the data of a buffer in the list. -/
def sizeIn (size : ℕ) : List Buffer → ℕ → ℕ
  | [], _ => 0
  | b::bs, a => if b.addr=a then startOf size bs-(a+HEADER) else sizeIn size bs a

/-- The header at an address. -/
def headerAt (l : List Buffer) (a : ℕ) : Option Buffer := l.find? fun b => b.addr=a

/-- The buffer after one. -/
def nextOf : List Buffer → ℕ → Option Buffer
  | [], _ => none
  | b::bs, a => if b.addr=a then bs.head? else nextOf bs a

/-- The buffer before one. -/
def prevOf : List Buffer → ℕ → Option Buffer
  | b::b'::bs, a => if b'.addr=a then some b else prevOf (b'::bs) a
  | _, _ => none

/-- Change a header. -/
def change (f : Buffer → Buffer) : List Buffer → ℕ → List Buffer
  | [], _ => []
  | b::bs, a => if b.addr=a then f b::bs else b::change f bs a

/-- `list_add`, after a buffer. -/
def listAdd (new : Buffer) : List Buffer → ℕ → List Buffer
  | [], _ => []
  | b::bs, a => if b.addr=a then b::new::bs else b::listAdd new bs a

/-- `list_del`. -/
def listDel : List Buffer → ℕ → List Buffer
  | [], _ => []
  | b::bs, a => if b.addr=a then bs else b::listDel bs a

/-- The pages of a header are there. -/
def Proc.readable (p : Proc) (a : ℕ) : Bool :=
  p.pages (a/PAGE_SIZE)&&p.pages ((a+HEADER-1)/PAGE_SIZE)

/-- `binder_buffer_size`. -/
def binderBufferSize (p : Proc) (a : ℕ) : Option ℕ :=
  if p.readable a then some (sizeIn p.bufferSize p.buffers a) else none

/-! ## Trees -/

/-- The headers that a walk reads are right. -/
def visits (ok : ℕ → Bool) (dir : ℕ → Turn) : SearchTree.Tree ℕ → Bool
  | .nil => true
  | .node l x r => ok x&&match dir x with
    | .left => visits ok dir l
    | .here => true
    | .right => visits ok dir r

/-- `rb_erase` finds its node without a walk. -/
def without (a : ℕ) : SearchTree.Tree ℕ → SearchTree.Tree ℕ
  | .nil => .nil
  | .node l x r =>
    if x=a then (without a l).join (without a r) else .node (without a l) x (without a r)

/-- A header is there, and tells that the buffer is free or not. -/
def Proc.reads (p : Proc) (free : Bool) (a : ℕ) : Bool :=
  p.readable a&&(headerAt p.buffers a).any fun b => b.free==free

/-- `binder_insert_free_buffer`. -/
def binderInsertFreeBuffer (rb : Rebalance) (p : Proc) (a : ℕ) : Option Proc :=
  if ¬p.reads true a then none
  else
    let newBufferSize := sizeIn p.bufferSize p.buffers a
    let dir := fun y =>
      if newBufferSize<sizeIn p.bufferSize p.buffers y then Turn.left else .right
    if visits (p.reads true) dir p.freeBuffers then
      some { p with freeBuffers := rb.run (p.freeBuffers.add dir a) }
    else none

/-- The walk to an allocated buffer. -/
def addrTurn (a y : ℕ) : Turn := if a<y then .left else if a>y then .right else .here

/-- `binder_insert_allocated_buffer`. -/
def binderInsertAllocatedBuffer (rb : Rebalance) (p : Proc) (a : ℕ) : Option Proc :=
  if ¬p.reads false a then none
  else if visits (p.reads false) (addrTurn a) p.allocatedBuffers∧
      (p.allocatedBuffers.find (addrTurn a)).isNone then
    some { p with allocatedBuffers := rb.run (p.allocatedBuffers.add (addrTurn a) a) }
  else none

/-- The search of `binder_alloc_buf`: the best fit, and whether it is exact. -/
def bestFit (p : Proc) (size : ℕ) : SearchTree.Tree ℕ → Option ℕ → Option (Option ℕ×Bool)
  | .nil, best => some (best,false)
  | .node l a r, best =>
    if ¬p.reads true a then none
    else
      let bufferSize := sizeIn p.bufferSize p.buffers a
      if size<bufferSize then bestFit p size l (some a)
      else if size>bufferSize then bestFit p size r best
      else some (some a,true)

/-! ## Pages -/

/-- A step for a page that can fail. -/
inductive PageStep where
  /-- `alloc_page`. -/
  | allocPage
  /-- `map_vm_area`. -/
  | mapVmArea
  /-- `vm_insert_page`. -/
  | vmInsertPage

/-- What the steps inside a call return. -/
structure Steps where
  /-- `proc->vma` is set. -/
  procVma : Bool
  /-- The process has a memory map with a `vma`. -/
  vma : Bool
  /-- The step that fails for a page. -/
  fails : ℕ → Option PageStep

/-- The loop that frees pages, from the last of them on. -/
def freePages (start : ℕ) : ℕ → (ℕ → Bool) → Option (ℕ → Bool)
  | 0, pages => some pages
  | n+1, pages =>
    if pages (start+n) then freePages start n (Function.update pages (start+n) false) else none

/-- The loop that allocates pages. When a step fails it goes on in the loop
that frees them, with this page or the one before. -/
def allocPages (o : Steps) (start : ℕ) : ℕ → ℕ → (ℕ → Bool) → Option (Bool×(ℕ → Bool))
  | _, 0, pages => some (true,pages)
  | k, n+1, pages =>
    let page := start+k
    if pages page then none
    else
      match o.fails page with
      | some .allocPage => (freePages start k pages).map fun pages => (false,pages)
      | some _ =>
        let pages := Function.update pages page true
        (freePages start k (Function.update pages page false)).map fun pages => (false,pages)
      | none => allocPages o start (k+1) n (Function.update pages page true)

/-- `binder_update_page_range`, and whether it returns zero. -/
def binderUpdatePageRange (p : Proc) (allocate : Bool) (start stop : ℕ) (o : Steps) :
    Option (Bool×Proc) :=
  if stop≤ start then some (true,p)
  else if allocate then
    if ¬o.vma then some (false,p)
    else
      (allocPages o (start/PAGE_SIZE) 0 ((stop-start)/PAGE_SIZE) p.pages).map fun res =>
        (res.1,{ p with pages := res.2 })
  else
    (freePages (start/PAGE_SIZE) ((stop-start)/PAGE_SIZE) p.pages).map fun pages =>
      (false,{ p with pages := pages })

/-! ## Allocation -/

/-- The size of the data of a request, as a `size_t`. -/
def requestSize (dataSize offsetsSize : ℕ) : ℕ := (alignPtr dataSize+alignPtr offsetsSize)%2^32

/-- The size that a free buffer is to have when it is taken, with the header
of another buffer if there is room for one. -/
def takenSize (size bufferSize : ℕ) (exactFit : Bool) : ℕ :=
  if exactFit then bufferSize
  else if (size+HEADER+4)%2^32≥bufferSize then size
  else size+HEADER

/-- What `binder_alloc_buf` does to a buffer whose pages are there. -/
def takeBuffer (rb : Rebalance) (p : Proc) (a size bufferSize : ℕ) (new : Buffer → Buffer)
    (isAsync : Bool) : Option Proc := do
  let p := { p with
    freeBuffers := rb.run (without a p.freeBuffers)
    buffers := change (fun b => { b with free := false }) p.buffers a }
  let p ← binderInsertAllocatedBuffer rb p a
  let p ←
    if bufferSize≠size then
      let rest := a+HEADER+size
      if p.readable rest then
        binderInsertFreeBuffer rb
          { p with buffers := listAdd ⟨rest,true,false,0,0⟩ p.buffers a } rest
      else none
    else some p
  some { p with
    buffers := change new p.buffers a
    freeAsyncSpace :=
      if isAsync then p.freeAsyncSpace-(size+HEADER)%2^32 else p.freeAsyncSpace }

/-- `binder_alloc_buf`, of sizes below 2³²: the buffer, if there is one. -/
def binderAllocBuf (rb : Rebalance) (p : Proc) (dataSize offsetsSize : ℕ) (isAsync : Bool)
    (o : Steps) : Option (Option ℕ×Proc) :=
  if ¬o.procVma then some (none,p)
  else
    let size := requestSize dataSize offsetsSize
    if size<dataSize∨size<offsetsSize then some (none,p)
    else if isAsync∧p.freeAsyncSpace<(size+HEADER)%2^32 then some (none,p)
    else
      match bestFit p size p.freeBuffers none with
      | none => none
      | some (none,_) => some (none,p)
      | some (some a,exactFit) =>
        match binderBufferSize p a with
        | none => none
        | some bufferSize =>
          let hasPage := pageMask (a+HEADER+bufferSize)
          let taken := takenSize size bufferSize exactFit
          let stop := min (pageAlign (a+HEADER+taken)) hasPage
          match binderUpdatePageRange p true (pageAlign (a+HEADER)) stop o with
          | none => none
          | some (false,p) => some (none,p)
          | some (true,p) =>
            (takeBuffer rb p a size taken (fun b => { b with
              dataSize := dataSize, offsetsSize := offsetsSize, isAsync := isAsync })
              isAsync).map fun p => (some a,p)

/-! ## Freeing -/

/-- `buffer_start_page`. -/
def bufferStartPage (a : ℕ) : ℕ := pageMask a

/-- `buffer_end_page`. -/
def bufferEndPage (a : ℕ) : ℕ := pageMask (a+HEADER-1)

/-- The ends of a header whose pages can be freed, where there is one before
it and perhaps one after it. -/
def freeEnds (prev a : ℕ) (next : Option ℕ) : Bool×Bool :=
  let freePageStart := !(bufferEndPage prev=bufferStartPage a : Bool)
  let freePageEnd :=
    !(bufferEndPage prev=bufferStartPage a∧bufferEndPage prev=bufferEndPage a : Bool)
  match next with
  | none => (freePageStart,freePageEnd)
  | some next =>
    if bufferStartPage next=bufferEndPage a then
      (if bufferStartPage next=bufferStartPage a then false else freePageStart,false)
    else (freePageStart,freePageEnd)

/-- `binder_delete_free_buffer`. -/
def binderDeleteFreeBuffer (p : Proc) (a : ℕ) (o : Steps) : Option Proc :=
  match prevOf p.buffers a with
  | none => none
  | some prev =>
    if ¬p.reads true prev.addr∨¬p.readable a then none
    else
      let next := nextOf p.buffers a
      if next.any fun next => !p.readable next.addr then none
      else
        let ends := freeEnds prev.addr a (next.map Buffer.addr)
        let p := { p with buffers := listDel p.buffers a }
        if ends.1∨ends.2 then
          (binderUpdatePageRange p false
            (if ends.1 then bufferStartPage a else bufferEndPage a)
            ((if ends.2 then bufferEndPage a else bufferStartPage a)+PAGE_SIZE) o).map Prod.snd
        else some p

/-- `binder_free_buf` from the merge with the buffer after it on. -/
def mergeNext (rb : Rebalance) (p : Proc) (a : ℕ) (o : Steps) : Option Proc :=
  match nextOf p.buffers a with
  | none => some p
  | some next =>
    if ¬p.readable next.addr then none
    else if next.free then
      binderDeleteFreeBuffer { p with freeBuffers := rb.run (without next.addr p.freeBuffers) }
        next.addr o
    else some p

/-- The merge with the buffer before it, and the return to the free buffers. -/
def mergePrev (rb : Rebalance) (p : Proc) (a : ℕ) (o : Steps) : Option Proc :=
  match prevOf p.buffers a with
  | none => binderInsertFreeBuffer rb p a
  | some prev =>
    if ¬p.readable prev.addr then none
    else if prev.free then do
      let p ← binderDeleteFreeBuffer p a o
      binderInsertFreeBuffer rb
        { p with freeBuffers := rb.run (without prev.addr p.freeBuffers) } prev.addr
    else binderInsertFreeBuffer rb p a

/-- `binder_free_buf`, of a buffer without a transaction. -/
def binderFreeBuf (rb : Rebalance) (p : Proc) (a : ℕ) (o : Steps) : Option Proc := do
  let bufferSize ← binderBufferSize p a
  let b ← headerAt p.buffers a
  let size := requestSize b.dataSize b.offsetsSize
  if b.free∨size>bufferSize then none
  else
    let p := { p with
      freeAsyncSpace :=
        if b.isAsync then (p.freeAsyncSpace+(size+HEADER))%2^32 else p.freeAsyncSpace }
    let (_,p) ←
      binderUpdatePageRange p false (pageAlign (a+HEADER)) (pageMask (a+HEADER+bufferSize)) o
    let p := { p with
      allocatedBuffers := rb.run (without a p.allocatedBuffers)
      buffers := change (fun b => { b with free := true }) p.buffers a }
    let p ← mergeNext rb p a o
    mergePrev rb p a o

/-- The space `binder_mmap` starts with, of a map of some size. -/
def binderMmap (size : ℕ) : Proc :=
  let size := min size SZ_4M
  { bufferSize := size
    buffers := [⟨0,true,false,0,0⟩]
    freeBuffers := .node .nil 0 .nil
    allocatedBuffers := .nil
    pages := fun i => i=0
    freeAsyncSpace := size/2 }

/-! ## Runs -/

/-- A call to the allocator. -/
inductive Op where
  /-- `binder_alloc_buf`. -/
  | alloc (dataSize offsetsSize : ℕ) (isAsync : Bool) (o : Steps)
  /-- `binder_free_buf`. -/
  | free (a : ℕ) (o : Steps)

/-- Sizes are those of a `size_t`, and a buffer that is freed is live. -/
def Op.Allowed (p : Proc) : Op → Prop
  | .alloc dataSize offsetsSize _ _ => dataSize<2^32∧offsetsSize<2^32
  | .free a _ => ∃ b∈p.buffers,b.addr=a∧b.free=false

instance (p : Proc) : (op : Op) → Decidable (op.Allowed p)
  | .alloc dataSize offsetsSize _ _ =>
    inferInstanceAs (Decidable (dataSize<2^32∧offsetsSize<2^32))
  | .free a _ => inferInstanceAs (Decidable (∃ b∈p.buffers,b.addr=a∧b.free=false))

/-- The space after a call. -/
def step (rb : Rebalance) (p : Proc) : Op → Option Proc
  | .alloc dataSize offsetsSize isAsync o =>
    (binderAllocBuf rb p dataSize offsetsSize isAsync o).map Prod.snd
  | .free a o => binderFreeBuf rb p a o

end ArdroneKernel.BinderBuffers
