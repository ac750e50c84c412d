import ArdroneKernel.BinderBufferTiles
import Mathlib.Algebra.BigOperators.Group.List.Basic
import Mathlib.Data.List.Chain

/-!
# Runs of the buffer allocator

What the lists, the pages and the trees of a binder process have in common after
any calls, and that every call keeps it.
-/

namespace ArdroneKernel.BinderBuffers

open SearchTree Execution

variable {S : ℕ} {p : Proc} {b : Buffer} {xs ys pre post : List Buffer} (rb : Rebalance)
  {isAsync : Bool} {pages : ℕ → Bool} {dataSize offsetsSize : ℕ} {q : Buffer}

/-! ## Sizes -/

/-- Every allocated buffer has room for what was asked for. -/
def Fits (size : ℕ) : List Buffer → Prop
  | [] => True
  | b::bs => (b.free=false →
      b.addr+HEADER+requestSize b.dataSize b.offsetsSize≤ startOf size bs)∧Fits size bs

theorem fits_append : Fits S (xs++ys) ↔ Fits (startOf S ys) xs∧Fits S ys := by
  induction xs with
  | nil => exact Iff.of_eq (true_and _).symm
  | cons b bs ih =>
    change (b.free=false → _≤ startOf S (bs++ys))∧Fits S (bs++ys) ↔ (_∧_)∧_
    rw [ih,startOf_append,and_assoc]

/-- What a buffer takes of the space for one-way transactions. -/
def asyncSize (b : Buffer) : ℕ :=
  if b.free=false∧b.isAsync=true then requestSize b.dataSize b.offsetsSize+HEADER else 0

/-- What all buffers take of it. -/
def asyncUsed (l : List Buffer) : ℕ := (l.map asyncSize).sum

theorem asyncUsed_append (xs ys : List Buffer) :
    asyncUsed (xs++ys)=asyncUsed xs+asyncUsed ys := by
  unfold asyncUsed
  rw [List.map_append,List.sum_append]

theorem asyncUsed_cons (b : Buffer) (bs : List Buffer) :
    asyncUsed (b::bs)=asyncSize b+asyncUsed bs := List.sum_cons

theorem asyncSize_free (h : b.free=true) : asyncSize b=0 := by
  unfold asyncSize
  rw [h]
  rfl

/-- The size of a buffer depends on nothing before it. -/
theorem sizeIn_congr {a : ℕ} (pre : List Buffer) (hstart : startOf S xs=startOf S ys)
    (hsize : sizeIn S xs a=sizeIn S ys a) : sizeIn S (pre++xs) a=sizeIn S (pre++ys) a := by
  induction pre with
  | nil => exact hsize
  | cons x pre ih =>
    change (if x.addr=a then startOf S (pre++xs)-_ else sizeIn S (pre++xs) a)=
      if x.addr=a then startOf S (pre++ys)-_ else sizeIn S (pre++ys) a
    rw [ih,startOf_append,startOf_append,hstart]

theorem sizeIn_cons {a : ℕ} (h : b.addr≠a) : sizeIn S (b::xs) a=sizeIn S xs a := if_neg h

/-! ## What every call keeps -/

/-- All but the tree of the free buffers. -/
structure Space (S : ℕ) (p : Proc) : Prop where
  /-- The space keeps its size. -/
  size : p.bufferSize=S
  /-- It ends with a page. -/
  dvd : PAGE_SIZE∣S
  /-- It has a page at least. -/
  pos : 0<S
  /-- Its size is no more than what `binder_mmap` maps. -/
  small : S≤SZ_4M
  /-- The first buffer is at its start. -/
  first : startOf S p.buffers=0
  /-- The buffers tile it. -/
  tiled : Tiled S p.buffers
  /-- A page is there exactly if there is something on it. -/
  pages : ∀ i,p.pages i=true ↔ OnPage (Used S p.buffers) i
  /-- The other tree holds the allocated buffers in order. -/
  alloc : p.allocatedBuffers.toList=allocAddrs p.buffers
  /-- Every request fits. -/
  fits : Fits S p.buffers
  /-- The space for one-way transactions is accounted for. -/
  async : p.freeAsyncSpace+asyncUsed p.buffers=S/2

/-- No two neighbours are free. -/
def Apart (l : List Buffer) : Prop := l.IsChain fun x y => ¬(x.free=true∧y.free=true)

/-- What every call keeps. -/
structure Inv (S : ℕ) (p : Proc) : Prop extends Space S p where
  /-- No two neighbours are free. -/
  apart : Apart p.buffers
  /-- The free buffers are in their tree. -/
  tree : FreeTree p (freeAddrs p.buffers)

/-- The headers are there. -/
def Headers (p : Proc) : Prop := ∀ b∈p.buffers,p.readable b.addr=true

theorem used_header (h : Tiled S xs) (hb : b∈xs) {x : ℕ} (lo : b.addr≤x) (hi : x<b.addr+HEADER) :
    Used S xs x := by
  have ⟨pre,post,heq⟩ := List.append_of_mem hb
  rw [heq] at h ⊢
  have hroom := (around_iff.mp h).room
  refine used_split.mpr (.inr ⟨lo,?_⟩)
  split <;> omega

theorem Space.headers (h : Space S p) : Headers p := by
  intro b hb
  have hh : HEADER=40 := rfl
  unfold Proc.readable
  rw [Bool.and_eq_true]
  constructor
  · exact (h.pages _).mpr ⟨b.addr,used_header h.tiled hb le_rfl (by omega),rfl⟩
  · exact (h.pages _).mpr ⟨_,used_header h.tiled hb (by omega) (by omega),rfl⟩

theorem headerAt_mem (h : Tiled S xs) (hb : b∈xs) : headerAt xs b.addr=some b := by
  have ⟨pre,post,heq⟩ := List.append_of_mem hb
  rw [heq] at h ⊢
  exact headerAt_here fun x hx => (around_iff.mp h).ne_before hx

theorem reads_of (tiled : Tiled S p.buffers) (headers : Headers p) (hb : b∈p.buffers) :
    p.reads b.free b.addr=true := by
  unfold Proc.reads
  rw [headers b hb,headerAt_mem tiled hb]
  simp

theorem reads_free (tiled : Tiled S p.buffers) (headers : Headers p) :
    ∀ x∈freeAddrs p.buffers,p.reads true x=true := by
  intro x hx
  have ⟨b,hb,hf,heq⟩ := mem_freeAddrs.mp hx
  have h := reads_of tiled headers hb
  rw [hf,heq] at h
  exact h

theorem reads_alloc (tiled : Tiled S p.buffers) (headers : Headers p) :
    ∀ x∈allocAddrs p.buffers,p.reads false x=true := by
  intro x hx
  have ⟨b,hb,hf,heq⟩ := mem_allocAddrs.mp hx
  have h := reads_of tiled headers hb
  rw [hf,heq] at h
  exact h

/-! ## The tree of the free buffers -/

/-- A tree stays good when the buffers in it keep their sizes. -/
theorem FreeTree.congr {p q : Proc} {addrs : List ℕ} (h : FreeTree p addrs)
    (htree : q.freeBuffers=p.freeBuffers)
    (hsize : ∀ x∈addrs,sizeIn q.bufferSize q.buffers x=sizeIn p.bufferSize p.buffers x) :
    FreeTree q addrs := by
  refine ⟨htree▸h.perm,?_⟩
  rw [htree]
  refine h.sorted.imp_of_mem fun hx hy hxy => ?_
  rw [hsize _ (h.perm.mem_iff.mp hx),hsize _ (h.perm.mem_iff.mp hy)]
  exact hxy

theorem FreeTree.erase {a : ℕ} {as as' : List ℕ} (h : FreeTree p (as++a::as'))
    (hne : ∀ x∈as++as',x≠a) :
    FreeTree { p with freeBuffers := rb.run (without a p.freeBuffers) } (as++as') := by
  constructor
  · rw [rb.keeps,toList_without]
    have hp := (h.perm.trans List.perm_middle).filter fun x => x≠a
    refine hp.trans (List.Perm.of_eq ?_)
    rw [List.filter_cons_of_neg (by simp)]
    exact List.filter_eq_self.mpr fun x hx => decide_eq_true (hne x hx)
  · rw [rb.keeps,toList_without]
    exact h.sorted.filter _

theorem Around.ne_addrs (h : Around S pre b post) :
    ∀ x∈freeAddrs pre++freeAddrs post,x≠b.addr := by
  intro x hx
  rcases List.mem_append.mp hx with hx|hx
  · have ⟨y,hy,_,heq⟩ := mem_freeAddrs.mp hx
    exact heq▸h.ne_before hy
  · have ⟨y,hy,_,heq⟩ := mem_freeAddrs.mp hx
    exact heq▸h.ne_after hy

theorem Around.ne_allocAddrs (h : Around S pre b post) :
    ∀ x∈allocAddrs pre++allocAddrs post,x≠b.addr := by
  intro x hx
  rcases List.mem_append.mp hx with hx|hx
  · have ⟨y,hy,_,heq⟩ := mem_allocAddrs.mp hx
    exact heq▸h.ne_before hy
  · have ⟨y,hy,_,heq⟩ := mem_allocAddrs.mp hx
    exact heq▸h.ne_after hy

theorem FreeTree.perm_trans {addrs addrs' : List ℕ} (h : FreeTree p addrs)
    (hp : addrs.Perm addrs') : FreeTree p addrs' := ⟨h.perm.trans hp,h.sorted⟩

/-! ## Merging -/

/-- What a buffer that goes into the free one before it leaves in use. -/
theorem used_merge (hq : q.free=true) {x : ℕ} :
    UsedAround S (pre++[q]) b post x ↔ Used S (pre++q::post) x := by
  unfold UsedAround
  rw [used_append,used_append]
  change (Used q.addr pre x∨(q.addr≤x∧x< if q.free then _ else _)∨False)∨Used S post x ↔
    Used q.addr pre x∨(q.addr≤x∧x< if q.free then _ else _)∨Used S post x
  rw [if_pos hq,if_pos hq,or_false,or_assoc]

theorem onPage_congr {A A' : ℕ → Prop} {i : ℕ} (h : ∀ x,A x ↔ A' x) :
    OnPage A i ↔ OnPage A' i := exists_congr fun x => and_congr_left fun _ => h x

theorem onPage_split {i : ℕ} : OnPage (Used S (pre++b::post)) i ↔ OnPage (fun x =>
    UsedAround S pre b post x∨
      (b.addr≤x∧x< if b.free then b.addr+HEADER else startOf S post)) i :=
  onPage_congr fun _ => used_split

theorem Space.merge (h : Space S p) (hp : p.buffers=pre++q::b::post) (hq : q.free=true)
    (hb : b.free=true) (hpages : ∀ i,pages i=true ↔ OnPage (Used S (pre++q::post)) i) :
    Space S { p with buffers := pre++q::post, pages := pages } := by
  have ⟨hsize,hdvd,hpos,hsmall,hfirst,htiled,_,halloc,hfits,hasync⟩ := h
  rw [hp] at hfirst htiled halloc hfits hasync
  have ⟨hpre,hroomq,htq⟩ := around_iff.mp htiled
  have hroomb : b.addr+HEADER≤ startOf S post := htq.1
  refine ⟨hsize,hdvd,hpos,hsmall,?_,?_,hpages,?_,?_,?_⟩
  · rw [startOf_append] at hfirst ⊢
    exact hfirst
  · refine around_iff.mpr ⟨hpre,?_,htq.2⟩
    change q.addr+HEADER≤b.addr at hroomq
    omega
  · rw [halloc,allocAddrs_append,allocAddrs_append]
    simp only [allocAddrs_cons,hq,hb,if_true]
  · have ⟨hf,_,_,hf'⟩ := fits_append.mp hfits
    exact fits_append.mpr ⟨hf,fun hq' => absurd (hq.symm.trans hq') (by decide),hf'⟩
  · dsimp only
    rw [asyncUsed_append,asyncUsed_cons,asyncUsed_cons,asyncSize_free hb] at hasync
    rw [asyncUsed_append,asyncUsed_cons]
    omega

theorem head_next (h : Tiled S post) :
    post.head?.map Buffer.addr=if startOf S post<S then some (startOf S post) else none := by
  have hh : HEADER=40 := rfl
  cases post with
  | nil => exact (if_neg (lt_irrefl _)).symm
  | cons c post =>
    have hc := (h.bounds List.mem_cons_self).2
    refine (if_pos ?_).symm
    change c.addr<S
    omega

theorem Around.outside (h : Around S pre b post) (hd : PAGE_SIZE∣S) :
    Outside (UsedAround S pre b post) S b.addr (startOf S post) where
  out _ hx := h.used hx
  start hlt := .inr (used_start h.post hlt)
  room := h.room
  le := h.post.start_le
  dvd := hd

/-- A free buffer goes into the free buffer before it. -/
theorem delete_ok (o : Steps) (h : Space S p) (hp : p.buffers=pre++q::b::post) (hq : q.free=true)
    (hb : b.free=true) :
    ∃ pages,binderDeleteFreeBuffer p b.addr o=
        some { p with buffers := pre++q::post, pages := pages }∧
      Space S { p with buffers := pre++q::post, pages := pages } := by
  have hh : HEADER=40 := rfl
  have hp' : p.buffers=(pre++[q])++b::post := hp.trans (List.append_cons ..)
  have hmem : ∀ x,x∈p.buffers ↔ x∈pre∨x=q∨x=b∨x∈post := fun x => by simp [hp]
  have ar : Around S (pre++[q]) b post := around_iff.mp (hp'▸h.tiled)
  have hne : ∀ x∈pre++[q],x.addr≠b.addr := fun x hx => ar.ne_before hx
  have hqb := ar.before (x := q) (by simp)
  have hprev : prevOf p.buffers b.addr=some q := by
    rw [hp]
    exact prevOf_here pre (fun x hx => hne x (List.mem_append_left _ hx)) (hne q (by simp))
  have hnext : nextOf p.buffers b.addr=post.head? := by
    rw [hp']
    exact nextOf_here hne
  have hdel : listDel p.buffers b.addr=pre++q::post := by
    rw [hp',listDel_here hne,List.append_assoc]
    rfl
  have hreadq : p.reads true q.addr=true := hq▸reads_of (h.size▸h.tiled) h.headers ((hmem q).mpr (by simp))
  have hreadb : p.readable b.addr=true := h.headers b ((hmem b).mpr (by simp))
  have hreadn : ¬(post.head?.any fun next => !p.readable next.addr)=true := by
    cases hpost : post with
    | nil => exact Bool.false_ne_true
    | cons c post' =>
      have := h.headers c ((hmem c).mpr (by simp [hpost]))
      simp [this]
  have hlast : UsedAround S (pre++[q]) b post (q.addr+HEADER-1) := by
    refine used_merge hq|>.mpr (used_split.mpr (.inr ⟨by omega,?_⟩))
    rw [if_pos hq]
    omega
  have hbefore : ∀ x,UsedAround S (pre++[q]) b post x → x<q.addr+HEADER∨startOf S post≤x := by
    intro x hx
    rcases hx with hx|hx
    · rcases used_split.mp hx with hx|⟨_,hx⟩
      · rcases hx with hx|hx
        · have := ((around_iff.mp ar.pre).pre.used hx).2
          omega
        · exact hx.elim
      · rw [if_pos hq] at hx
        exact .inl hx
    · exact .inr (ar.post.used hx).1
  -- the pages freed are those that nothing else lies on
  have hfreed := freed_iff (ar.outside h.dvd) hlast hbefore hqb (head_next ar.post)
  have hpages : ∀ i,p.pages i=true ↔
      OnPage (UsedAround S (pre++[q]) b post) i∨OnPage (fun x => b.addr≤x∧x<b.addr+HEADER) i := by
    intro i
    rw [h.pages,hp']
    unfold OnPage
    simp only [used_split,if_pos hb,or_and_right,exists_or]
  have hleft : ∀ pages : ℕ → Bool,(∀ i,pages i=true ↔ p.pages i=true∧
      ¬Freed (freeEnds q.addr b.addr (post.head?.map Buffer.addr)) b.addr i) →
      ∀ i,pages i=true ↔ OnPage (Used S (pre++q::post)) i := by
    intro pages hpg i
    rw [hpg,hpages,hfreed,←onPage_congr fun x => used_merge hq]
    tauto
  unfold binderDeleteFreeBuffer
  rw [hprev]
  dsimp only
  rw [if_neg (by simp [hreadq,hreadb]),hnext,if_neg hreadn,hdel]
  generalize hends : freeEnds q.addr b.addr (post.head?.map Buffer.addr)=ends at hleft ⊢
  have hs : (if ends.1 then bufferStartPage b.addr else bufferEndPage b.addr)=
      (if ends.1 then b.addr/PAGE_SIZE else (b.addr+HEADER-1)/PAGE_SIZE)*PAGE_SIZE := by
    split <;> rfl
  have ht : (if ends.2 then bufferEndPage b.addr else bufferStartPage b.addr)+PAGE_SIZE=
      ((if ends.2 then (b.addr+HEADER-1)/PAGE_SIZE else b.addr/PAGE_SIZE)+1)*PAGE_SIZE := by
    rw [Nat.succ_mul]
    split <;> rfl
  by_cases he : ends.1=true∨ends.2=true
  · rw [if_pos he,hs,ht]
    have hall : ∀ i,(if ends.1 then b.addr/PAGE_SIZE else (b.addr+HEADER-1)/PAGE_SIZE)≤ i →
        i<(if ends.2 then (b.addr+HEADER-1)/PAGE_SIZE else b.addr/PAGE_SIZE)+1 →
        p.pages i=true := by
      intro i h1 h2
      have hf := hfreed i
      rw [hends] at hf
      exact (hpages i).mpr (.inr (hf.mp ⟨he,h1,h2⟩).1)
    have ⟨ok,heq⟩ := updatePageRange_free { p with buffers := pre++q::post } o hall
    rw [heq]
    refine ⟨_,rfl,h.merge hp hq hb (hleft _ fun i => ?_)⟩
    by_cases hr : Freed ends b.addr i
    · rw [if_pos hr.2]
      exact iff_of_false Bool.false_ne_true fun hf => hf.2 hr
    · rw [if_neg fun h => hr ⟨he,h⟩]
      exact (and_iff_left hr).symm
  · rw [if_neg he]
    exact ⟨_,rfl,h.merge hp hq hb (hleft _ fun i => ⟨fun hf => ⟨hf,fun hr => he hr.1⟩,And.left⟩)⟩

theorem sizeIn_merge {a : ℕ} (hq : q.addr≠a) (hb : b.addr≠a) :
    sizeIn S (pre++q::post) a=sizeIn S (pre++q::b::post) a :=
  sizeIn_congr pre rfl (by rw [sizeIn_cons hq,sizeIn_cons hq,sizeIn_cons hb])

/-- A space with one free buffer that is not in the tree of them. -/
structure Loose (S : ℕ) (pre : List Buffer) (b : Buffer) (post : List Buffer) (p : Proc) : Prop
    extends Space S p where
  /-- The list of the buffers. -/
  list : p.buffers=pre++b::post
  /-- The buffer is free. -/
  free : b.free=true
  /-- The others are in the tree. -/
  tree : FreeTree p (freeAddrs pre++freeAddrs post)

theorem Loose.around (h : Loose S pre b post p) : Around S pre b post :=
  around_iff.mp (h.list▸h.tiled)

/-- The space and its tree, with other contents of the list and the pages. -/
theorem Space.withTree (h : Space S p) (t : SearchTree.Tree ℕ) : Space S { p with freeBuffers := t } :=
  ⟨h.size,h.dvd,h.pos,h.small,h.first,h.tiled,h.pages,h.alloc,h.fits,h.async⟩

/-- The buffers after one that becomes free, without the first if it is free. -/
def absorbed : List Buffer → List Buffer
  | [] => []
  | n::post => if n.free then post else n::post

theorem mergeNext_ok (o : Steps) (h : Loose S pre b post p) (apart : Apart post) :
    ∃ p',mergeNext rb p b.addr o=some p'∧
      Loose S pre b (absorbed post) p'∧Apart (b::absorbed post) := by
  have hnext : nextOf p.buffers b.addr=post.head? := by
    rw [h.list]
    exact nextOf_here fun x hx => h.around.ne_before hx
  unfold mergeNext
  rw [hnext]
  cases post with
  | nil => exact ⟨p,rfl,h,List.isChain_singleton _⟩
  | cons n post =>
    unfold absorbed
    have hn : p.readable n.addr=true := h.headers n (by simp [h.list])
    dsimp only [List.head?_cons]
    rw [if_neg (not_not.mpr hn)]
    by_cases hf : n.free=true
    · rw [if_pos hf,if_pos hf]
      have htree := h.tree
      rw [freeAddrs_cons,if_pos hf] at htree
      have ar : Around S (pre++[b]) n post :=
        around_iff.mp (List.append_cons pre b (n::post)▸h.list▸h.tiled)
      have hne : ∀ x∈freeAddrs pre++freeAddrs post,x≠n.addr := by
        intro x hx
        refine ar.ne_addrs x ?_
        rw [freeAddrs_append]
        simp only [List.mem_append] at hx ⊢
        tauto
      have hneb : ∀ x∈freeAddrs pre++freeAddrs post,x≠b.addr := by
        intro x hx
        refine h.around.ne_addrs x ?_
        rw [freeAddrs_cons,if_pos hf]
        simp only [List.mem_append,List.mem_cons] at hx ⊢
        tauto
      have ht := htree.erase rb hne
      have ⟨pages,heq,hsp⟩ := 
        delete_ok o (h.toSpace.withTree (rb.run (without n.addr p.freeBuffers))) h.list h.free hf
      refine ⟨_,heq,⟨hsp,rfl,h.free,ht.congr rfl fun x hx => ?_⟩,?_⟩
      · rw [h.list,sizeIn_merge (hneb x hx).symm (hne x hx).symm]
      · have ⟨h1,h2⟩ := List.isChain_cons.mp apart
        refine List.isChain_cons.mpr ⟨fun y hy hf' => h1 y hy ⟨hf,hf'.2⟩,h2⟩
    · rw [if_neg hf,if_neg hf]
      refine ⟨p,rfl,h,List.isChain_cons.mpr ⟨fun y hy hf' => hf ?_,apart⟩⟩
      cases hy
      exact hf'.2

theorem Loose.insert (h : Loose S pre b post p) (apart : Apart (pre++b::post)) :
    ∃ p',binderInsertFreeBuffer rb p b.addr=some p'∧Inv S p'∧p'.buffers=pre++b::post := by
  have hmem : ∀ x∈freeAddrs pre++freeAddrs post,x∈freeAddrs p.buffers := by
    intro x hx
    rw [h.list,freeAddrs_append,freeAddrs_cons,if_pos h.free]
    simp only [List.mem_append,List.mem_cons] at hx ⊢
    tauto
  have hb : p.reads true b.addr=true :=
    h.free▸reads_of (h.size▸h.tiled) h.headers (b := b) (by simp [h.list])
  have ⟨t,heq,ht⟩ := insertFree_ok rb h.tree hb fun x hx =>
    reads_free (h.size▸h.tiled) h.headers x (hmem x hx)
  refine ⟨_,heq,⟨h.toSpace.withTree t,h.list▸apart,?_⟩,h.list⟩
  refine ht.perm_trans ?_
  rw [h.list,freeAddrs_append,freeAddrs_cons,if_pos h.free]
  exact List.perm_middle.symm

theorem mergePrev_ok (o : Steps) (h : Loose S pre b post p) (apart : Apart pre)
    (apart' : Apart (b::post)) : ∃ p',mergePrev rb p b.addr o=some p'∧Inv S p'∧
      ((∀ q∈pre.getLast?,q.free=false) → p'.buffers=pre++b::post) := by
  unfold mergePrev
  rcases List.eq_nil_or_concat' pre with rfl|⟨pre',q,rfl⟩
  · have hprev : prevOf p.buffers b.addr=none := by
      rw [h.list]
      exact prevOf_none post b b.addr fun y hy => h.around.ne_after hy
    rw [hprev]
    have ⟨p',hins,hinv,hlist⟩ := h.insert rb apart'
    exact ⟨p',hins,hinv,fun _ => hlist⟩
  · have hlist : p.buffers=pre'++q::b::post := h.list.trans (List.append_cons ..).symm
    have hq := h.around.ne_before (x := q) (by simp)
    have hprev : prevOf p.buffers b.addr=some q := by
      rw [hlist]
      exact prevOf_here pre' (fun x hx => h.around.ne_before (List.mem_append_left _ hx)) hq
    rw [hprev]
    dsimp only
    rw [if_neg (not_not.mpr (h.headers q (by simp [hlist])))]
    by_cases hf : q.free=true
    · rw [if_pos hf]
      have ⟨pages,heq,hsp⟩ := delete_ok o h.toSpace hlist hf h.free
      have htree := h.tree
      rw [freeAddrs_append,freeAddrs_cons,if_pos hf,List.append_assoc] at htree
      have ar : Around S pre' q (b::post) := around_iff.mp (hlist▸h.tiled)
      have hne : ∀ x∈freeAddrs pre'++freeAddrs post,x≠q.addr := by
        intro x hx
        refine ar.ne_addrs x ?_
        rw [freeAddrs_cons,if_pos h.free]
        simp only [List.mem_append,List.mem_cons] at hx ⊢
        tauto
      have hneb : ∀ x∈freeAddrs pre'++freeAddrs post,x≠b.addr := by
        intro x hx
        refine h.around.ne_addrs x ?_
        rw [freeAddrs_append]
        simp only [List.mem_append] at hx ⊢
        tauto
      have ht := htree.erase rb hne
      have hloose : Loose S pre' q post { p with
          buffers := pre'++q::post, pages := pages
          freeBuffers := rb.run (without q.addr p.freeBuffers) } := by
        refine ⟨hsp.withTree _,rfl,hf,ht.congr rfl fun x hx => ?_⟩
        rw [hlist,sizeIn_merge (hne x hx).symm (hneb x hx).symm]
      rw [heq]
      have hapart : Apart (pre'++q::post) := by
        have ⟨hb',hpost⟩ := List.isChain_cons.mp apart'
        have ⟨hpre,_,hq'⟩ := List.isChain_append.mp apart
        refine List.isChain_append.mpr ⟨hpre,List.isChain_cons.mpr ⟨fun y hy hxy => ?_,hpost⟩,?_⟩
        · exact hb' y hy ⟨h.free,hxy.2⟩
        · exact fun x hx y hy => hq' x hx y hy
      have ⟨p',hins,hinv,_⟩ := hloose.insert rb hapart
      refine ⟨p',hins,hinv,fun hlast => ?_⟩
      have hq' := hlast q (by rw [List.getLast?_concat]; rfl)
      rw [hf] at hq'
      cases hq'
    · rw [if_neg hf]
      have hapart : Apart (pre'++[q]++b::post) := by
        refine List.isChain_append.mpr ⟨apart,apart',fun x hx y hy hxy => hf ?_⟩
        rw [List.getLast?_concat] at hx
        cases hx
        exact hxy.1
      have ⟨p',hins,hinv,hl⟩ := h.insert rb hapart
      exact ⟨p',hins,hinv,fun _ => hl⟩

/-! ## Freeing -/

theorem Space.binderBufferSize (h : Space S p) (hp : p.buffers=pre++b::post) :
    binderBufferSize p b.addr=some (startOf S post-(b.addr+HEADER)) := by
  have ar : Around S pre b post := around_iff.mp (hp▸h.tiled)
  unfold BinderBuffers.binderBufferSize
  rw [if_pos (h.headers b (by simp [hp])),hp,sizeIn_here fun x hx => ar.ne_before hx,h.size]

/-- The space for one-way transactions once a buffer is free. -/
def asyncBack (p : Proc) (b : Buffer) : ℕ :=
  if b.isAsync then (p.freeAsyncSpace+(requestSize b.dataSize b.offsetsSize+HEADER))%2^32
  else p.freeAsyncSpace

/-- A live buffer becomes free, and its pages go. -/
theorem Space.release (pages : ℕ → Bool) (h : Space S p) (hp : p.buffers=pre++b::post)
    (hb : b.free=false)
    (hpages : ∀ i,pages i=true ↔ OnPage (Used S (pre++{ b with free := true }::post)) i) :
    Space S { p with
      freeAsyncSpace := asyncBack p b
      pages := pages
      allocatedBuffers := rb.run (without b.addr p.allocatedBuffers)
      buffers := pre++{ b with free := true }::post } := by
  have ⟨hsize,hdvd,hpos,hsmall,hfirst,htiled,_,halloc,hfits,hasync⟩ := h
  rw [hp] at hfirst htiled halloc hfits hasync
  have ar := around_iff.mp htiled
  refine ⟨hsize,hdvd,hpos,hsmall,?_,?_,hpages,?_,?_,?_⟩
  · rw [startOf_append] at hfirst ⊢
    exact hfirst
  · exact around_iff.mpr ⟨ar.pre,ar.room,ar.post⟩
  · rw [rb.keeps,toList_without,halloc]
    have hne := ar.ne_allocAddrs
    simp only [allocAddrs_append,allocAddrs_cons,hb,if_true,List.filter_append]
    rw [if_neg Bool.false_ne_true,List.filter_cons_of_neg (by simp),←List.filter_append]
    exact List.filter_eq_self.mpr fun x hx => decide_eq_true (hne x hx)
  · have ⟨hf,_,hf'⟩ := fits_append.mp hfits
    exact fits_append.mpr ⟨hf,nofun,hf'⟩
  · dsimp only
    rw [asyncUsed_append,asyncUsed_cons] at hasync ⊢
    rw [asyncSize_free rfl]
    unfold asyncSize at hasync
    unfold asyncBack
    unfold SZ_4M at hsmall
    cases ha : b.isAsync with
    | false =>
      rw [if_neg (by simp [ha])] at hasync
      exact hasync
    | true =>
      rw [if_pos rfl]
      rw [if_pos ⟨hb,ha⟩] at hasync
      omega

theorem binderFreeBuf_steps {p p1 p2 : Proc} {o : Steps} {bufferSize : ℕ} {ok : Bool}
    (hsize : binderBufferSize p b.addr=some bufferSize) (hhead : headerAt p.buffers b.addr=some b)
    (hfit : ¬(b.free=true∨requestSize b.dataSize b.offsetsSize>bufferSize))
    (hpages : binderUpdatePageRange { p with freeAsyncSpace := asyncBack p b } false
      (pageAlign (b.addr+HEADER)) (pageMask (b.addr+HEADER+bufferSize)) o=some (ok,p1))
    (hnext : mergeNext rb { p1 with
      allocatedBuffers := rb.run (without b.addr p1.allocatedBuffers)
      buffers := change (fun b => { b with free := true }) p1.buffers b.addr } b.addr o=some p2) :
    binderFreeBuf rb p b.addr o=mergePrev rb p2 b.addr o := by
  unfold asyncBack at hpages
  unfold binderFreeBuf
  simp only [hsize,hhead,Option.bind_eq_bind,Option.bind_some,if_neg hfit,hpages,hnext]

/-- A live buffer becomes free, and goes together with the free buffers beside it. -/
theorem binderFreeBuf_at (o : Steps) (h : Inv S p) (hp : p.buffers=pre++b::post) (hf : b.free=false) :
    ∃ p',binderFreeBuf rb p b.addr o=some p'∧Inv S p'∧((∀ q∈pre.getLast?,q.free=false) →
      p'.buffers=pre++{ b with free := true }::absorbed post) := by
  have hb : b∈p.buffers := by
    rw [hp]
    exact List.mem_append_right _ List.mem_cons_self
  have ar : Around S pre b post := around_iff.mp (hp▸h.tiled)
  have hne : ∀ x∈pre,x.addr≠b.addr := fun x hx => ar.ne_before hx
  have hroom := ar.room
  have hend : b.addr+HEADER+(startOf S post-(b.addr+HEADER))=startOf S post := by omega
  have hhead : headerAt p.buffers b.addr=some b := headerAt_mem h.tiled hb
  have hfit : ¬(b.free=true∨requestSize b.dataSize b.offsetsSize>startOf S post-(b.addr+HEADER)) := by
    have ⟨_,hfits⟩ := fits_append.mp (hp▸h.fits)
    have := hfits.1 hf
    rw [hf]
    simp only [Bool.false_eq_true,false_or]
    omega
  -- the pages of the data are those between the header and the next buffer
  have ⟨hnone,hbetween⟩ := pages_between (ar.outside h.dvd) hroom le_rfl le_rfl (by omega) (.inl rfl)
  have hmin : min ((startOf S post+(PAGE_SIZE-1))/PAGE_SIZE) (startOf S post/PAGE_SIZE)=
      startOf S post/PAGE_SIZE := min_eq_right (Nat.div_le_div_right (Nat.le_add_right _ _))
  rw [hmin] at hnone hbetween
  have hbefore : ∀ i,p.pages i=true ↔
      OnPage (fun x => UsedAround S pre b post x∨(b.addr≤x∧x<startOf S post)) i := by
    intro i
    rw [h.pages,hp,onPage_split,hf]
    rfl
  have ⟨ok,heq⟩ := updatePageRange_free { p with freeAsyncSpace := asyncBack p b } o
    (s := (b.addr+HEADER+(PAGE_SIZE-1))/PAGE_SIZE) (t := startOf S post/PAGE_SIZE)
    fun i h1 h2 => (hbefore i).mpr ((hbetween i).mpr (.inl ⟨h1,h2⟩))
  have hsp := Space.release rb (fun i =>
    if (b.addr+HEADER+(PAGE_SIZE-1))/PAGE_SIZE≤ i∧i<startOf S post/PAGE_SIZE then false
    else p.pages i) h.toSpace hp hf fun i => ?_
  · have hloose := Loose.mk (b := { b with free := true }) hsp rfl rfl <| by
      have htree := h.tree
      rw [hp,freeAddrs_append,freeAddrs_cons,if_neg (by simp [hf])] at htree
      refine htree.congr rfl fun x _ => ?_
      rw [hp]
      exact sizeIn_congr pre rfl rfl
    have ⟨hpre,hpost,_⟩ := List.isChain_append.mp (hp▸h.apart)
    have ⟨p1,hnext,hloose',hapart⟩ := mergeNext_ok rb o hloose (List.isChain_cons.mp hpost).2
    have ⟨p2,hprev,hinv⟩ := mergePrev_ok rb o hloose' hpre hapart
    refine ⟨p2,?_,hinv⟩
    rw [binderFreeBuf_steps rb (h.toSpace.binderBufferSize hp) hhead hfit (by rw [hend]; exact heq)]
    · exact hprev
    · rw [hp,change_here hne]
      exact hnext
  · rw [onPage_split]
    split
    · next hr => exact iff_of_false Bool.false_ne_true (hnone i hr.1 hr.2)
    · next hr => exact (hbefore i).trans ((hbetween i).trans (or_iff_right hr))

theorem binderFreeBuf_ok (o : Steps) (h : Inv S p) (hb : b∈p.buffers) (hf : b.free=false) :
    ∃ p',binderFreeBuf rb p b.addr o=some p'∧Inv S p' := by
  have ⟨pre,post,hp⟩ := List.append_of_mem hb
  have ⟨p',hfree,hinv,_⟩ := binderFreeBuf_at rb o h hp hf
  exact ⟨p',hfree,hinv⟩

/-! ## Allocating -/

/-- A free buffer once it is allocated. -/
def Buffer.taken (dataSize offsetsSize : ℕ) (isAsync : Bool) (b : Buffer) : Buffer :=
  { b with free := false, dataSize := dataSize, offsetsSize := offsetsSize, isAsync := isAsync }

/-- The space for one-way transactions once a buffer is allocated. -/
def asyncLeft (p : Proc) (size : ℕ) (isAsync : Bool) : ℕ :=
  if isAsync then p.freeAsyncSpace-(size+HEADER)%2^32 else p.freeAsyncSpace

/-- A buffer without its node in the tree of the free ones. -/
def unlinked (rb : Rebalance) (p : Proc) (a : ℕ) : Proc :=
  { p with
    freeBuffers := rb.run (without a p.freeBuffers)
    buffers := change (fun b => { b with free := false }) p.buffers a }

theorem takeBuffer_whole {p p1 : Proc} {a size : ℕ} {new : Buffer → Buffer}
    (h : binderInsertAllocatedBuffer rb (unlinked rb p a) a=some p1) :
    takeBuffer rb p a size size new isAsync=some { p1 with
      buffers := change new p1.buffers a, freeAsyncSpace := asyncLeft p1 size isAsync } := by
  unfold unlinked at h
  unfold takeBuffer
  simp only [h,Option.bind_eq_bind,Option.bind_some,ne_eq,not_true_eq_false,if_false]
  rfl

theorem takeBuffer_split {p p1 p2 : Proc} {a size taken : ℕ} {new : Buffer → Buffer}
    (hne : taken≠size) (h : binderInsertAllocatedBuffer rb (unlinked rb p a) a=some p1)
    (hread : p1.readable (a+HEADER+size)=true)
    (hrest : binderInsertFreeBuffer rb { p1 with
      buffers := listAdd ⟨a+HEADER+size,true,false,0,0⟩ p1.buffers a } (a+HEADER+size)=some p2) :
    takeBuffer rb p a size taken new isAsync=some { p2 with
      buffers := change new p2.buffers a, freeAsyncSpace := asyncLeft p2 size isAsync } := by
  unfold unlinked at h
  unfold takeBuffer
  simp only [h,Option.bind_eq_bind,Option.bind_some,if_pos hne,if_pos hread,hrest]
  rfl

/-- A free buffer becomes live. The buffers after it may start with what is left of it. -/
theorem Space.take (mid : List Buffer) {t t' : SearchTree.Tree ℕ} {n dataSize offsetsSize : ℕ}
    (h : Space S p) (hp : p.buffers=pre++b::post) (hb : b.free=true) (hmid : ∀ x∈mid,x.free=true)
    (htiled : Tiled S (mid++post))
    (hfit : b.addr+HEADER+requestSize dataSize offsetsSize≤ startOf S (mid++post))
    (hpages : ∀ i,pages i=true ↔
      OnPage (Used S (pre++b.taken dataSize offsetsSize isAsync::(mid++post))) i)
    (halloc : t'.toList=allocAddrs pre++b.addr::allocAddrs post)
    (hn : n+asyncSize (b.taken dataSize offsetsSize isAsync)=p.freeAsyncSpace) :
    Space S { p with
      buffers := pre++b.taken dataSize offsetsSize isAsync::(mid++post)
      freeBuffers := t, allocatedBuffers := t', pages := pages, freeAsyncSpace := n } := by
  have ⟨hsize,hdvd,hpos,hsmall,hfirst,htiled',_,_,hfits,hasync⟩ := h
  rw [hp] at hfirst htiled' hfits hasync
  have ar := around_iff.mp htiled'
  have hm : allocAddrs mid=[]∧asyncUsed mid=0∧∀ n,Fits n mid := by
    clear hpages htiled hfit
    induction mid with
    | nil => exact ⟨rfl,rfl,fun _ => trivial⟩
    | cons x mid ih =>
      have ⟨hx,hmid'⟩ := List.forall_mem_cons.mp hmid
      have ⟨h1,h2,h3⟩ := ih hmid'
      refine ⟨?_,?_,fun n => ⟨fun hf => absurd (hx.symm.trans hf) (by decide),h3 n⟩⟩
      · rw [allocAddrs_cons,if_pos hx,h1]
      · rw [asyncUsed_cons,asyncSize_free hx,h2]
  refine ⟨hsize,hdvd,hpos,hsmall,?_,?_,hpages,?_,?_,?_⟩
  · rw [startOf_append] at hfirst ⊢
    exact hfirst
  · exact around_iff.mpr ⟨ar.pre,by change b.addr+HEADER≤_; omega,htiled⟩
  · rw [halloc,allocAddrs_append,allocAddrs_cons,allocAddrs_append,hm.1]
    rfl
  · have ⟨hf,_,hf'⟩ := fits_append.mp hfits
    exact fits_append.mpr ⟨hf,fun _ => hfit,fits_append.mpr ⟨hm.2.2 _,hf'⟩⟩
  · dsimp only
    rw [asyncUsed_append,asyncUsed_cons,asyncSize_free hb] at hasync
    rw [asyncUsed_append,asyncUsed_cons,asyncUsed_append,hm.2.1]
    omega

theorem Space.asyncLeft_add {q : Proc} (h : Space S p) (hq : q.freeAsyncSpace=p.freeAsyncSpace)
    (hspace : isAsync=true → requestSize dataSize offsetsSize+HEADER≤p.freeAsyncSpace) :
    asyncLeft q (requestSize dataSize offsetsSize) isAsync+
      asyncSize (b.taken dataSize offsetsSize isAsync)=p.freeAsyncSpace := by
  have hasync := h.async
  have hsmall := h.small
  unfold SZ_4M at hsmall
  unfold asyncLeft asyncSize Buffer.taken
  dsimp only
  rw [hq]
  cases isAsync with
  | false => exact Nat.add_zero _
  | true =>
    have := hspace rfl
    rw [if_pos rfl,if_pos ⟨rfl,rfl⟩]
    omega

/-- The headers stay there when there are more pages. -/
theorem Space.headers_more {q : Proc} (h : Space S p) (hmore : ∀ i,p.pages i=true → pages i=true)
    (hpages : q.pages=pages) {b : Buffer} (hb : b∈p.buffers) : q.readable b.addr=true := by
  have hr := h.headers b hb
  unfold Proc.readable at hr ⊢
  rw [Bool.and_eq_true] at hr ⊢
  rw [hpages]
  exact hr.imp (hmore _) (hmore _)

/-- The buffer goes over to the tree of the allocated ones. -/
theorem unlinked_insert (h : Space S p) (hp : p.buffers=pre++b::post) (hb : b.free=true)
    (hmore : ∀ i,p.pages i=true → pages i=true) :
    ∃ t,binderInsertAllocatedBuffer rb (unlinked rb { p with pages := pages } b.addr) b.addr=
        some { p with
          freeBuffers := rb.run (without b.addr p.freeBuffers), pages := pages
          buffers := pre++{ b with free := false }::post, allocatedBuffers := t }∧
      t.toList=allocAddrs pre++b.addr::allocAddrs post := by
  have ar : Around S pre b post := around_iff.mp (hp▸h.tiled)
  have ar' : Around S pre { b with free := false } post := ⟨ar.pre,ar.room,ar.post⟩
  have halloc : p.allocatedBuffers.toList=allocAddrs pre++allocAddrs post := by
    rw [h.alloc,hp,allocAddrs_append,allocAddrs_cons,if_pos hb]
  unfold unlinked
  rw [hp,change_here fun x hx => ar.ne_before hx]
  generalize hq : ({ p with
    freeBuffers := rb.run (without b.addr p.freeBuffers), pages := pages
    buffers := pre++{ b with free := false }::post } : Proc)=q
  have hqb : q.buffers=pre++{ b with free := false }::post := by rw [←hq]
  have tiled : Tiled S q.buffers := hqb▸around_iff.mpr ar'
  have headers : Headers q := by
    intro x hx
    have hmem : x.addr=b.addr∨x∈p.buffers := by
      rw [hqb] at hx
      rw [hp]
      simp only [List.mem_append,List.mem_cons] at hx ⊢
      rcases hx with hx|rfl|hx
      · exact .inr (.inl hx)
      · exact .inl rfl
      · exact .inr (.inr (.inr hx))
    rcases hmem with heq|hmem
    · rw [heq]
      exact h.headers_more hmore (by rw [←hq]) (by simp [hp])
    · exact h.headers_more hmore (by rw [←hq]) hmem
  have hread := reads_of tiled headers (b := { b with free := false }) (by simp [hqb])
  have hall : ∀ x∈allocAddrs pre++allocAddrs post,q.reads false x=true := by
    intro x hx
    refine reads_alloc tiled headers x ?_
    rw [hqb,allocAddrs_append,allocAddrs_cons]
    simp only [List.mem_append,Bool.false_eq_true,if_false,List.mem_cons] at hx ⊢
    tauto
  have ⟨t,heq,ht⟩ := insertAllocated_ok rb ar' (by rw [←hq]; exact halloc) hread hall
  refine ⟨t,heq.trans ?_,ht⟩
  rw [←hq]

/-- All of a free buffer is taken. -/
theorem takeBuffer_whole_ok (dataSize offsetsSize : ℕ) (h : Inv S p) (hp : p.buffers=pre++b::post)
    (hb : b.free=true) (hfit : b.addr+HEADER+requestSize dataSize offsetsSize≤ startOf S post)
    (hmore : ∀ i,p.pages i=true → pages i=true)
    (hpages : ∀ i,pages i=true ↔
      OnPage (fun x => UsedAround S pre b post x∨(b.addr≤x∧x<startOf S post)) i)
    (hspace : isAsync=true → requestSize dataSize offsetsSize+HEADER≤p.freeAsyncSpace) :
    ∃ p',takeBuffer rb { p with pages := pages } b.addr (requestSize dataSize offsetsSize)
        (requestSize dataSize offsetsSize) (fun b => { b with
          dataSize := dataSize, offsetsSize := offsetsSize, isAsync := isAsync }) isAsync=some p'∧
      Inv S p'∧p'.buffers=pre++b.taken dataSize offsetsSize isAsync::post := by
  have ar : Around S pre b post := around_iff.mp (hp▸h.tiled)
  have hne : ∀ x∈pre,x.addr≠b.addr := fun x hx => ar.ne_before hx
  have ⟨t,hins,ht⟩ := unlinked_insert rb h.toSpace hp hb hmore
  rw [takeBuffer_whole rb hins]
  rw [change_here (b := { b with free := false }) hne]
  have hsp := Space.take [] (t := rb.run (without b.addr p.freeBuffers)) h.toSpace hp hb
    (by simp) ar.post hfit (fun i => (hpages i).trans (onPage_split (b := b.taken ..)).symm) ht
    (h.toSpace.asyncLeft_add rfl hspace)
  refine ⟨_,rfl,⟨hsp,?_,?_⟩,rfl⟩
  · have ⟨h1,h2,_⟩ := List.isChain_append.mp (hp▸h.apart)
    refine List.isChain_append.mpr ⟨h1,List.isChain_cons.mpr
      ⟨fun _ _ hxy => absurd hxy.1 Bool.false_ne_true,(List.isChain_cons.mp h2).2⟩,?_⟩
    intro x _ y hy hxy
    cases hy
    exact absurd hxy.2 Bool.false_ne_true
  · have htree := h.tree
    rw [hp,freeAddrs_append,freeAddrs_cons,if_pos hb] at htree
    rw [freeAddrs_append,freeAddrs_cons]
    refine (htree.erase rb ar.ne_addrs).congr rfl fun x hx => ?_
    rw [hp]
    exact sizeIn_congr pre rfl rfl

/-- What is left of a buffer when its start is taken. -/
def rest (a : ℕ) : Buffer := ⟨a,true,false,0,0⟩

theorem used_rest {dataSize offsetsSize size x : ℕ} :
    Used S (pre++b.taken dataSize offsetsSize isAsync::rest (b.addr+HEADER+size)::post) x ↔
      UsedAround S pre b post x∨(b.addr≤x∧x<b.addr+HEADER+size+HEADER) := by
  rw [used_split]
  change ((Used b.addr pre x∨(b.addr+HEADER+size≤x∧x<b.addr+HEADER+size+HEADER)∨Used S post x)∨
    (b.addr≤x∧x<b.addr+HEADER+size)) ↔ (Used b.addr pre x∨Used S post x)∨_
  have hx : (b.addr≤x∧x<b.addr+HEADER+size+HEADER) ↔
      (b.addr+HEADER+size≤x∧x<b.addr+HEADER+size+HEADER)∨(b.addr≤x∧x<b.addr+HEADER+size) := by
    omega
  tauto

/-- The start of a free buffer is taken. -/
theorem takeBuffer_split_ok (dataSize offsetsSize : ℕ) {taken : ℕ} (h : Inv S p)
    (hp : p.buffers=pre++b::post) (hb : b.free=true)
    (hroom : b.addr+HEADER+requestSize dataSize offsetsSize+HEADER≤ startOf S post)
    (hmore : ∀ i,p.pages i=true → pages i=true)
    (hpages : ∀ i,pages i=true ↔ OnPage (fun x => UsedAround S pre b post x∨
      (b.addr≤x∧x<b.addr+HEADER+requestSize dataSize offsetsSize+HEADER)) i)
    (hspace : isAsync=true → requestSize dataSize offsetsSize+HEADER≤p.freeAsyncSpace)
    (hne : taken≠requestSize dataSize offsetsSize) :
    ∃ p',takeBuffer rb { p with pages := pages } b.addr (requestSize dataSize offsetsSize)
        taken (fun b => { b with
          dataSize := dataSize, offsetsSize := offsetsSize, isAsync := isAsync }) isAsync=some p'∧
      Inv S p'∧p'.buffers=pre++b.taken dataSize offsetsSize isAsync::
        rest (b.addr+HEADER+requestSize dataSize offsetsSize)::post := by
  have hh : HEADER=40 := rfl
  have ar : Around S pre b post := around_iff.mp (hp▸h.tiled)
  have hnb : ∀ x∈pre,x.addr≠b.addr := fun x hx => ar.ne_before hx
  have ⟨t,hins,ht⟩ := unlinked_insert rb h.toSpace hp hb hmore
  generalize hr : b.addr+HEADER+requestSize dataSize offsetsSize=r at hroom hpages ⊢
  have hread : ∀ q : Proc,q.pages=pages → q.readable r=true := by
    intro q hq
    unfold Proc.readable
    rw [Bool.and_eq_true,hq]
    exact ⟨(hpages _).mpr ⟨r,.inr (by omega),rfl⟩,(hpages _).mpr ⟨_,.inr (by omega),rfl⟩⟩
  -- the state in which what is left goes into the tree
  generalize hq : ({ p with
    freeBuffers := rb.run (without b.addr p.freeBuffers), pages := pages
    buffers := pre++{ b with free := false }::rest r::post, allocatedBuffers := t } : Proc)=q
  have hqb : q.buffers=pre++{ b with free := false }::rest r::post := by rw [←hq]
  have hqs : q.bufferSize=S := by rw [←hq,←h.size]
  have hqp : q.pages=pages := by rw [←hq]
  have ar' : Around S (pre++[{ b with free := false }]) (rest r) post := by
    refine ⟨tiled_append.mpr ⟨ar.pre,?_,trivial⟩,hroom,ar.post⟩
    change b.addr+HEADER≤r
    omega
  have tiled : Tiled q.bufferSize q.buffers := by
    rw [hqs,hqb,List.append_cons]
    exact around_iff.mpr ar'
  have headers : Headers q := by
    intro x hx
    rw [hqb] at hx
    simp only [List.mem_append,List.mem_cons] at hx
    rcases hx with hx|rfl|rfl|hx
    · exact h.headers_more hmore hqp (by simp [hp,hx])
    · exact h.headers_more hmore hqp (b := b) (by simp [hp])
    · exact hread q hqp
    · exact h.headers_more hmore hqp (by simp [hp,hx])
  have hfree : ∀ x∈freeAddrs pre++freeAddrs post,x∈freeAddrs q.buffers := by
    intro x hx
    rw [hqb,freeAddrs_append,freeAddrs_cons,freeAddrs_cons]
    simp only [List.mem_append,rest,if_true,Bool.false_eq_true,if_false,List.mem_cons] at hx ⊢
    tauto
  have hnr : ∀ x∈freeAddrs pre++freeAddrs post,x≠r := by
    intro x hx
    refine ar'.ne_addrs x ?_
    rw [freeAddrs_append,freeAddrs_cons]
    exact (List.append_nil _).symm▸hx
  have htree : FreeTree q (freeAddrs pre++freeAddrs post) := by
    have htree := h.tree
    rw [hp,freeAddrs_append,freeAddrs_cons,if_pos hb] at htree
    refine (htree.erase rb ar.ne_addrs).congr (by rw [←hq]) fun x hx => ?_
    rw [hqb,hqs,h.size,hp]
    refine sizeIn_congr pre rfl ?_
    have hxb := (ar.ne_addrs x hx).symm
    rw [sizeIn_cons hxb,sizeIn_cons (b := { b with free := false }) hxb,
      sizeIn_cons (b := rest r) (hnr x hx).symm]
  have hrest := reads_of tiled headers (b := rest r) (by simp [hqb])
  have ⟨t',hrest',ht'⟩ := insertFree_ok rb htree hrest fun x hx =>
    reads_free tiled headers x (hfree x hx)
  have hadd : binderInsertFreeBuffer rb { p with
      freeBuffers := rb.run (without b.addr p.freeBuffers), pages := pages
      buffers := listAdd (rest r) (pre++{ b with free := false }::post) b.addr
      allocatedBuffers := t } r=some { q with freeBuffers := t' } := by
    rw [listAdd_here (b := { b with free := false }) hnb,hq]
    exact hrest'
  rw [takeBuffer_split rb hne hins (by rw [hr]; exact hread _ rfl) (by rw [hr]; exact hadd)]
  rw [hqb,change_here (b := { b with free := false }) hnb]
  have hsp := Space.take [rest r] (t := t') h.toSpace hp hb
    (List.forall_mem_singleton.mpr rfl) ⟨hroom,ar.post⟩ hr.le
    (fun i => (hpages i).trans (onPage_congr fun x => by rw [←hr]; exact used_rest.symm)) ht
    (h.toSpace.asyncLeft_add (q := q) (by rw [←hq]) hspace)
  refine ⟨_,rfl,⟨?_,?_,?_⟩,rfl⟩
  · subst hq
    exact hsp
  · have ⟨h1,h2,_⟩ := List.isChain_append.mp (hp▸h.apart)
    have ⟨h3,h4⟩ := List.isChain_cons.mp h2
    refine List.isChain_append.mpr ⟨h1,List.isChain_cons.mpr
      ⟨fun _ _ hxy => absurd hxy.1 Bool.false_ne_true,List.isChain_cons.mpr ⟨?_,h4⟩⟩,?_⟩
    · exact fun y hy hxy => h3 y hy ⟨hb,hxy.2⟩
    · intro x _ y hy hxy
      cases hy
      exact absurd hxy.2 Bool.false_ne_true
  · have ht'' := ht'.perm_trans List.perm_middle.symm
    rw [freeAddrs_append,freeAddrs_cons,freeAddrs_cons]
    refine ht''.congr rfl fun x _ => ?_
    rw [hqb]
    exact sizeIn_congr pre rfl rfl

/-- How much of a free buffer is taken: all of it, or so much that a header fits after it. -/
theorem takenSize_cases {size bufferSize : ℕ} {exactFit : Bool} (small : bufferSize≤SZ_4M)
    (he : exactFit=true → bufferSize=size) (hne : exactFit=false → size<bufferSize) :
    (takenSize size bufferSize exactFit=size∧size≤bufferSize∧bufferSize≤ size+(HEADER+4))∨
      (takenSize size bufferSize exactFit=size+HEADER∧size+HEADER≤bufferSize) := by
  unfold SZ_4M at small
  unfold takenSize HEADER
  cases exactFit with
  | true =>
    have := he rfl
    rw [if_pos rfl]
    omega
  | false =>
    have := hne rfl
    rw [if_neg Bool.false_ne_true]
    split <;> omega

/-- The pages of what is taken of a free buffer are there, or nothing has changed. -/
theorem allocRange_ok (o : Steps) {T X : ℕ} (h : Space S p) (hp : p.buffers=pre++b::post)
    (hb : b.free=true) (lo : b.addr+HEADER≤T) (le : T≤X) (hi : X≤ startOf S post)
    (slack : X≤T+(HEADER+4)) (ends : X=startOf S post∨T=X) :
    binderUpdatePageRange p true (pageAlign (b.addr+HEADER))
        (min (pageAlign T) (pageMask (startOf S post))) o=some (false,p)∨
      ∃ pages,binderUpdatePageRange p true (pageAlign (b.addr+HEADER))
          (min (pageAlign T) (pageMask (startOf S post))) o=some (true,{ p with pages := pages })∧
        (∀ i,p.pages i=true → pages i=true)∧
        ∀ i,pages i=true ↔
          OnPage (fun x => UsedAround S pre b post x∨(b.addr≤x∧x<X)) i := by
  have ar : Around S pre b post := around_iff.mp (hp▸h.tiled)
  have ⟨hnone,hbetween⟩ := pages_between (ar.outside h.dvd) lo le hi slack ends
  have hheader : ∀ i,p.pages i=true ↔
      OnPage (fun x => UsedAround S pre b post x∨(b.addr≤x∧x<b.addr+HEADER)) i := by
    intro i
    rw [h.pages,hp,onPage_split,hb]
    rfl
  have hstop : min (pageAlign T) (pageMask (startOf S post))=
      min ((T+(PAGE_SIZE-1))/PAGE_SIZE) (startOf S post/PAGE_SIZE)*PAGE_SIZE :=
    Nat.mul_min_mul_right ..
  rw [hstop]
  refine (updatePageRange_alloc p o (s := (b.addr+HEADER+(PAGE_SIZE-1))/PAGE_SIZE)
    fun i h1 h2 => ?_).imp_right fun heq => ⟨_,heq,fun i hi => ?_,fun i => ?_⟩
  · exact Bool.eq_false_iff.mpr fun ht => hnone i h1 h2 ((hheader i).mp ht)
  · split
    · rfl
    · exact hi
  · rw [hbetween,←hheader]
    split
    · next hr => exact iff_of_true rfl (.inl hr)
    · next hr => exact (or_iff_right hr).symm

/-- What a successful call returns. -/
structure Taken (S : ℕ) (p p' : Proc) (dataSize offsetsSize : ℕ) (isAsync : Bool) (a : ℕ) :
    Prop where
  /-- The buffer was free. -/
  free : a∈freeAddrs p.buffers
  /-- There is room in it for both parts of the data, each of them aligned. -/
  fits : (dataSize+3)/4*4+(offsetsSize+3)/4*4≤ sizeIn S p.buffers a
  /-- No smaller free buffer has. -/
  smallest : ∀ x∈freeAddrs p.buffers,
    (dataSize+3)/4*4+(offsetsSize+3)/4*4≤ sizeIn S p.buffers x →
      sizeIn S p.buffers a≤ sizeIn S p.buffers x
  /-- It is live now. -/
  live : ∃ b∈p'.buffers,b.addr=a∧b.free=false∧
    b.dataSize=dataSize∧b.offsetsSize=offsetsSize∧b.isAsync=isAsync
  /-- There is room in what was taken. -/
  room : (dataSize+3)/4*4+(offsetsSize+3)/4*4≤ sizeIn S p'.buffers a

/-- The size of a request that passes the checks did not overflow. -/
theorem requestSize_eq (hd : dataSize<2^32) (ho : offsetsSize<2^32)
    (h : ¬(requestSize dataSize offsetsSize<dataSize∨requestSize dataSize offsetsSize<offsetsSize)) :
    requestSize dataSize offsetsSize=(dataSize+3)/4*4+(offsetsSize+3)/4*4 := by
  unfold requestSize alignPtr at *
  omega

/-- The free buffer that was found is taken, or a page could not be had. -/
theorem takeFound_ok (o : Steps) {exactFit : Bool} (h : Inv S p) (hp : p.buffers=pre++b::post)
    (hb : b.free=true)
    (he : exactFit=true → startOf S post-(b.addr+HEADER)=requestSize dataSize offsetsSize)
    (hne : exactFit=false → requestSize dataSize offsetsSize<startOf S post-(b.addr+HEADER))
    (hspace : isAsync=true → requestSize dataSize offsetsSize+HEADER≤p.freeAsyncSpace) {taken : ℕ}
    (htaken : takenSize (requestSize dataSize offsetsSize) (startOf S post-(b.addr+HEADER))
      exactFit=taken) :
    binderUpdatePageRange p true (pageAlign (b.addr+HEADER))
        (min (pageAlign (b.addr+HEADER+taken)) (pageMask (startOf S post))) o=some (false,p)∨
      ∃ pages p',binderUpdatePageRange p true (pageAlign (b.addr+HEADER))
          (min (pageAlign (b.addr+HEADER+taken)) (pageMask (startOf S post))) o=
            some (true,{ p with pages := pages })∧
        takeBuffer rb { p with pages := pages } b.addr (requestSize dataSize offsetsSize)
          taken (fun b => { b with
            dataSize := dataSize, offsetsSize := offsetsSize, isAsync := isAsync })
          isAsync=some p'∧Inv S p'∧
        ∃ mid,p'.buffers=pre++b.taken dataSize offsetsSize isAsync::(mid++post)∧
          b.addr+HEADER+requestSize dataSize offsetsSize≤ startOf S (mid++post)∧
          (mid=[]∨∃ a,mid=[rest a]) := by
  have hh : HEADER=40 := rfl
  have ar : Around S pre b post := around_iff.mp (hp▸h.tiled)
  have hroom := ar.room
  have hsmall : startOf S post-(b.addr+HEADER)≤SZ_4M :=
    (Nat.sub_le _ _).trans (ar.post.start_le.trans h.small)
  rcases takenSize_cases hsmall he hne with ⟨hsize,hlo,hhi⟩|⟨hsize,hlo⟩
  · rw [htaken] at hsize
    refine (allocRange_ok o (X := startOf S post) h.toSpace hp hb (by omega) (by omega) le_rfl
      (by omega) (.inl rfl)).imp_right fun ⟨pages,heq,hmore,hpages⟩ => ?_
    have ⟨p',htake,hinv,hlist⟩ := takeBuffer_whole_ok rb dataSize
      offsetsSize h hp hb (by omega) hmore hpages hspace
    exact ⟨pages,p',heq,hsize▸htake,hinv,[],hlist,by change _≤ startOf S post; omega,.inl rfl⟩
  · refine (allocRange_ok o (X := b.addr+HEADER+taken) h.toSpace hp hb (by omega) le_rfl
      (by omega) (by omega) (.inr rfl)).imp_right fun ⟨pages,heq,hmore,hpages⟩ => ?_
    have hne' : taken≠requestSize dataSize offsetsSize := by omega
    have hx : b.addr+HEADER+taken=b.addr+HEADER+requestSize dataSize offsetsSize+HEADER := by omega
    have ⟨p',htake,hinv,hlist⟩ := takeBuffer_split_ok rb dataSize offsetsSize h hp hb (by omega) hmore
      (fun i => (hpages i).trans (onPage_congr fun x => by rw [hx]))
      hspace hne'
    exact ⟨pages,p',heq,htake,hinv,[rest _],hlist,le_rfl,.inr ⟨_,rfl⟩⟩

theorem Space.sizeIn_eq (h : Space S p) (hp : p.buffers=pre++b::post) :
    sizeIn S p.buffers b.addr=startOf S post-(b.addr+HEADER) := by
  have ar : Around S pre b post := around_iff.mp (hp▸h.tiled)
  rw [hp]
  exact sizeIn_here fun x hx => ar.ne_before hx

/-- The search finds nothing, or a smallest of the free buffers that fit. -/
theorem bestFit_found (h : Inv S p) (size : ℕ) :
    (∃ exactFit,bestFit p size p.freeBuffers none=some (none,exactFit))∨
      ∃ pre b post exactFit,p.buffers=pre++b::post∧b.free=true∧
        bestFit p size p.freeBuffers none=some (some b.addr,exactFit)∧
        (exactFit=true → startOf S post-(b.addr+HEADER)=size)∧
        (exactFit=false → size<startOf S post-(b.addr+HEADER))∧
        ∀ x∈freeAddrs p.buffers,size≤ sizeIn S p.buffers x →
          sizeIn S p.buffers b.addr≤ sizeIn S p.buffers x := by
  have hmem : ∀ x,x∈p.freeBuffers.toList ↔ x∈freeAddrs p.buffers :=
    fun x => h.tree.perm.mem_iff
  have hat : ∀ a∈p.freeBuffers.toList,∃ pre b post,p.buffers=pre++b::post∧b.free=true∧b.addr=a∧
      sizeIn S p.buffers a=startOf S post-(b.addr+HEADER) := by
    intro a ha
    have ⟨b,hb,hf,heq⟩ := mem_freeAddrs.mp ((hmem a).mp ha)
    have ⟨pre,post,hp⟩ := List.append_of_mem hb
    exact ⟨pre,b,post,hp,hf,heq,heq▸h.toSpace.sizeIn_eq hp⟩
  have ⟨⟨best,exactFit⟩,hbest,hfit⟩ := bestFit_spec size p.freeBuffers h.tree.sorted
    (fun x hx => reads_free (h.size▸h.tiled) h.headers x ((hmem x).mp hx)) none
  have ⟨hexact,hlarger⟩ := hfit
  rw [h.size] at hexact hlarger
  cases exactFit with
  | true =>
    have ⟨a,ha,heq,hsize⟩ := hexact rfl
    have ⟨pre,b,post,hp,hb,hba,hlen⟩ := hat a ha
    dsimp only at heq
    rw [heq] at hbest
    refine .inr ⟨pre,b,post,true,hp,hb,hba▸hbest,fun _ => hlen▸hsize,nofun,fun x _ hx => ?_⟩
    rw [hba,hsize]
    exact hx
  | false =>
    rcases hlarger rfl with ⟨a,ha,heq,hlt,hmin⟩|⟨heq,_⟩
    · have ⟨pre,b,post,hp,hb,hba,hlen⟩ := hat a ha
      dsimp only at heq
      rw [heq] at hbest
      refine .inr ⟨pre,b,post,false,hp,hb,hba▸hbest,nofun,fun _ => hlen▸hlt,fun x hx => ?_⟩
      rw [hba]
      exact hmin x ((hmem x).mpr hx)
    · exact .inl ⟨false,heq▸hbest⟩

/-- A free buffer has become live, and may have left a free one after it. -/
def Live (p p' : Proc) (dataSize offsetsSize : ℕ) (isAsync : Bool) (a : ℕ) : Prop :=
  ∃ pre b mid post,b.addr=a∧b.free=true∧p.buffers=pre++b::post∧
    p'.buffers=pre++b.taken dataSize offsetsSize isAsync::(mid++post)∧(mid=[]∨∃ a,mid=[rest a])

theorem binderAllocBuf_ok (o : Steps) (isAsync : Bool) (h : Inv S p) (hd : dataSize<2^32)
    (ho : offsetsSize<2^32) :
    ∃ res p',binderAllocBuf rb p dataSize offsetsSize isAsync o=some (res,p')∧Inv S p'∧
      (res=none → p'=p)∧∀ a,res=some a → Taken S p p' dataSize offsetsSize isAsync a∧
        Live p p' dataSize offsetsSize isAsync a := by
  have hfail : ∃ res p',some (none,p)=some (res,p')∧Inv S p'∧(res=none → p'=p)∧
      ∀ a,res=some a → Taken S p p' dataSize offsetsSize isAsync a∧
        Live p p' dataSize offsetsSize isAsync a :=
    ⟨none,p,rfl,h,fun _ => rfl,nofun⟩
  unfold binderAllocBuf
  split
  · exact hfail
  dsimp only
  split
  · exact hfail
  next hover =>
  split
  · exact hfail
  next hspace =>
  have hreq := requestSize_eq hd ho hover
  rcases bestFit_found h (requestSize dataSize offsetsSize) with
    ⟨exactFit,heq⟩|⟨pre,b,post,exactFit,hp,hb,heq,he,hne,hmin⟩
  · rw [heq]
    exact hfail
  have ar : Around S pre b post := around_iff.mp (hp▸h.tiled)
  have hend : b.addr+HEADER+(startOf S post-(b.addr+HEADER))=startOf S post := by
    have := ar.room
    omega
  have hsize : sizeIn S p.buffers b.addr=startOf S post-(b.addr+HEADER) := h.toSpace.sizeIn_eq hp
  have hle : requestSize dataSize offsetsSize≤ startOf S post-(b.addr+HEADER) := by
    cases exactFit with
    | true => exact (he rfl).ge
    | false => exact (hne rfl).le
  have hspace' : isAsync=true → requestSize dataSize offsetsSize+HEADER≤p.freeAsyncSpace := by
    intro ha
    have := ar.post.start_le.trans h.small
    rw [ha] at hspace
    simp only [true_and,not_lt] at hspace
    unfold SZ_4M at this
    omega
  rw [heq]
  dsimp only
  rw [h.toSpace.binderBufferSize hp]
  dsimp only
  rw [hend]
  rcases takeFound_ok rb o h hp hb he hne hspace' rfl with hpage|⟨pages,p',hpage,htake,hinv,hlist⟩
  · rw [hpage]
    exact hfail
  · rw [hpage]
    dsimp only
    rw [htake]
    refine ⟨some b.addr,p',rfl,hinv,nofun,fun a ha => ?_⟩
    cases ha
    have ⟨mid,hlist,hroom,hmid⟩ := hlist
    refine ⟨⟨?_,?_,?_,?_,?_⟩,pre,b,mid,post,rfl,hb,hp,hlist,hmid⟩
    · rw [hp,freeAddrs_append,freeAddrs_cons,if_pos hb]
      exact List.mem_append_right _ List.mem_cons_self
    · rw [hsize,←hreq]
      exact hle
    · rw [←hreq]
      exact hmin
    · refine ⟨b.taken dataSize offsetsSize isAsync,?_,rfl,rfl,rfl,rfl,rfl⟩
      rw [hlist]
      exact List.mem_append_right _ List.mem_cons_self
    · have := hinv.toSpace.sizeIn_eq hlist
      change sizeIn S p'.buffers b.addr=_-(b.addr+HEADER) at this
      omega

/-! ## Runs -/

theorem Space.alloc_sorted (h : Space S p) : p.allocatedBuffers.toList.Pairwise (·<·) := by
  rw [h.alloc]
  exact (tiled_addrs h.tiled).sublist (List.filter_sublist.map _)

theorem inv_start {size : ℕ} (hd : PAGE_SIZE∣size) (hpos : 0<size) :
    Inv (min size SZ_4M) (binderMmap size) := by
  have hdvd : PAGE_SIZE∣min size SZ_4M := by
    rcases min_choice size SZ_4M with h|h <;> rw [h]
    · exact hd
    · decide
  have hmin : 0< min size SZ_4M := lt_min hpos (by decide)
  have hle := Nat.le_of_dvd hmin hdvd
  refine ⟨⟨rfl,hdvd,hmin,min_le_right _ _,rfl,⟨?_,trivial⟩,fun i => ?_,rfl,⟨nofun,trivial⟩,rfl⟩,
    List.isChain_singleton _,⟨List.Perm.refl _,List.pairwise_singleton _ _⟩⟩
  · change 0+HEADER≤ min size SZ_4M
    unfold HEADER
    unfold PAGE_SIZE at hle
    omega
  · change decide (i=0)=true ↔ ∃ x,((0≤x∧x<0+HEADER)∨False)∧x/PAGE_SIZE=i
    unfold HEADER PAGE_SIZE
    rw [decide_eq_true_iff]
    constructor
    · intro hi
      exact ⟨0,by omega,by omega⟩
    · rintro ⟨x,hx|hx,hi⟩
      · omega
      · exact hx.elim

theorem step_ok {op : Op} (h : Inv S p) (hop : op.Allowed p) :
    ∃ p',step rb p op=some p'∧Inv S p' := by
  cases op with
  | alloc dataSize offsetsSize isAsync o =>
    have ⟨res,p',heq,hinv,_⟩ := binderAllocBuf_ok rb o isAsync h hop.1 hop.2
    exact ⟨p',congrArg (Option.map Prod.snd) heq,hinv⟩
  | free a o =>
    have ⟨b,hb,ha,hf⟩ := hop
    rw [←ha]
    exact binderFreeBuf_ok rb o h hb hf

/-- Whatever is allocated and freed, the buffers tile the space, no two free ones are
neighbours, the trees hold the free and the live ones in order, a page is there exactly if
something is on it, and the space for one-way transactions adds up. Every further call has a
result: a smallest free buffer that fits, or a failure that changes nothing. -/
theorem buffers_sound (rb : Rebalance) {size : ℕ} (hd : PAGE_SIZE∣size) (hpos : 0<size)
    {ops : List Op} (run : Run (step rb) (fun p op => op.Allowed p) (binderMmap size) ops p) :
    Inv (min size SZ_4M) p∧p.allocatedBuffers.toList.Pairwise (·<·)∧
      (∀ dataSize offsetsSize isAsync o,dataSize<2^32 → offsetsSize<2^32 →
        ∃ res p',binderAllocBuf rb p dataSize offsetsSize isAsync o=some (res,p')∧
          (res=none → p'=p)∧
          ∀ a,res=some a → Taken (min size SZ_4M) p p' dataSize offsetsSize isAsync a)∧
      ∀ b∈p.buffers,b.free=false → ∀ o,∃ p',binderFreeBuf rb p b.addr o=some p' := by
  have h : Inv (min size SZ_4M) p := by
    refine run.invariant (Inv (min size SZ_4M)) (inv_start hd hpos) fun hinv hop hstep => ?_
    have ⟨p',heq,hinv'⟩ := step_ok rb hinv hop
    cases heq.symm.trans hstep
    exact hinv'
  refine ⟨h,h.toSpace.alloc_sorted,?_,?_⟩
  · intro dataSize offsetsSize isAsync o h₁ h₂
    have ⟨res,p',heq,_,hnone,hsome⟩ := binderAllocBuf_ok rb o isAsync h h₁ h₂
    exact ⟨res,p',heq,hnone,fun a ha => (hsome a ha).1⟩
  · intro b hb hf o
    have ⟨p',heq,_⟩ := binderFreeBuf_ok rb o h hb hf
    exact ⟨p',heq⟩

theorem buffers_sound_example : ∃ p,Run (step Rebalance.none) (fun p op => op.Allowed p)
    (binderMmap 8192) [.alloc 100 8 true ⟨true,true,fun _ => none⟩,
      .alloc 5000 0 false ⟨true,true,fun _ => none⟩,.free 0 ⟨true,true,fun _ => none⟩] p∧
    p.buffers.length=3∧Inv 8192 p := by
  have ⟨p,hp,hlen⟩ := exists_run (step Rebalance.none) (fun p op => op.Allowed p) (binderMmap 8192)
    [.alloc 100 8 true ⟨true,true,fun _ => none⟩,
      .alloc 5000 0 false ⟨true,true,fun _ => none⟩,.free 0 ⟨true,true,fun _ => none⟩]
    (fun p => p.buffers.length=3) (by decide +kernel)
  have hrun := hp.mono fun _ _ => of_decide_eq_true
  exact ⟨p,hrun,of_decide_eq_true hlen,(buffers_sound Rebalance.none (by decide) (by decide) hrun).1⟩

end ArdroneKernel.BinderBuffers
