import ArdroneKernel.DspChannels

/-!
# The queues of a channel

A request keeps its packet, its buffers and its place among the requests until it is reported:
completions followed by requests are one queue.
-/

namespace ArdroneKernel.DspChannels

variable {k : Config} {c c' : Channel} {p : Irp} {ps free : List Irp} {taken : Prop}

def HostBuf.isUser : HostBuf → Bool
  | .user _ => true
  | _ => false

def SysBuf.isBounce : SysBuf → Bool
  | .bounce _ => true
  | .host _ => false

/-- A buffer is allocated for a buffer of the user, on all channels but the first two. -/
def Boxed (chnlId : ℕ) (p : HostBuf) (b : SysBuf) : Prop :=
  b.isBounce=(decide (1<chnlId)&&p.isUser)

theorem Boxed.bounce {n chnlId : ℕ} {p : HostBuf} (h : Boxed chnlId p (.bounce n)) :
    1<chnlId∧p.isUser=true := by
  have hand := (Bool.and_eq_true _ _).mp h.symm
  exact ⟨of_decide_eq_true hand.1,hand.2⟩

/-- What a transfer leaves as it is. -/
def Irp.identity (p : Irp) : ℕ×HostBuf×SysBuf×ℕ :=
  (p.chirp,p.hostUserBuf,p.hostSysBuf,p.request)

namespace Channel

/-- The requests that are not reported, from the oldest. -/
def queue (c : Channel) : List (ℕ×HostBuf×SysBuf×ℕ) :=
  (c.ioCompletions++c.ioRequests).map Irp.identity

/-- How many of the requests have a buffer. -/
def bounces (c : Channel) (b : SysBuf) : ℕ := c.queue.countP fun q => q.2.2.1=b

/-- Every packet is free, requested or completed, and the requests that were accepted are those
reported, those completed and those to do, in this order. -/
structure Sound (c : Channel) : Prop where
  packets : (c.freePackets++c.queue.map fun q => q.1).Perm (List.range c.chnlPackets)
  order : (c.reported++c.queue.map fun q => q.2.2.2)=List.range c.added
  boxed : ∀ q∈c.queue,Boxed c.chnlId q.2.1 q.2.2.1
  reqs : c.cioReqs=c.ioRequests.length
  cs : c.cioCs=c.ioCompletions.length

/-- The event is set when there are completions, unless somebody has just taken it. -/
structure Rings (c : Channel) (taken : Prop) : Prop where
  unset : c.ioCompletions=[] → c.syncEvent=0
  set : c.ioCompletions≠[] → 0<c.syncEvent∨taken

/-- The queue, and what it is made of, stays as it is. -/
structure Moved (c c' : Channel) : Prop where
  chnlId : c'.chnlId=c.chnlId
  packets : c'.chnlPackets=c.chnlPackets
  free : c'.freePackets=c.freePackets
  added : c'.added=c.added
  reported : c'.reported=c.reported
  queue : c'.queue=c.queue

theorem Moved.sound (h : Moved c c') (sound : c.Sound) (hreqs : c'.cioReqs=c'.ioRequests.length)
    (hcs : c'.cioCs=c'.ioCompletions.length) : c'.Sound where
  packets := by
    rw [h.free,h.queue,h.packets]
    exact sound.packets
  order := by
    rw [h.reported,h.queue,h.added]
    exact sound.order
  boxed := by
    rw [h.queue,h.chnlId]
    exact sound.boxed
  reqs := hreqs
  cs := hcs

theorem Moved.bounces (h : Moved c c') (b : SysBuf) : c'.bounces b=c.bounces b := by
  unfold Channel.bounces
  rw [h.queue]

theorem Sound.length (sound : c.Sound) :
    c.freePackets.length+c.ioRequests.length+c.ioCompletions.length=c.chnlPackets := by
  have hlen := sound.packets.length_eq
  unfold Channel.queue at hlen
  rw [List.length_append,List.length_map,List.length_map,List.length_append,
    List.length_range] at hlen
  omega

theorem new_sound (chnlId : ℕ) (input : Bool) (uioReqs : ℕ) : (new chnlId input uioReqs).Sound where
  packets := by
    unfold new queue
    rw [List.append_nil,List.map_nil,List.map_nil,List.append_nil]
  order := rfl
  boxed := nofun
  reqs := rfl
  cs := rfl

theorem new_bounces (chnlId : ℕ) (input : Bool) (uioReqs : ℕ) (b : SysBuf) :
    (new chnlId input uioReqs).bounces b=0 := rfl

/-! ## Cancelling -/

theorem moveAll_spec (hreqs : c.ioRequests=ps) :
    moveAll ps c={c with
      ioRequests := []
      ioCompletions := c.ioCompletions++ps.map Irp.cancelled
      cioCs := c.cioCs+ps.length
      cioReqs := c.cioReqs-ps.length} := by
  induction ps generalizing c with
  | nil =>
    unfold moveAll
    rw [List.map_nil,List.append_nil,List.length_nil,Int.natCast_zero,Int.add_zero,Int.sub_zero,
      ← hreqs]
  | cons p ps ih =>
    unfold moveAll
    rw [ih rfl]
    congr 1
    · rw [List.map_cons,List.append_assoc,List.singleton_append]
    · rw [List.length_cons]
      dsimp only
      omega
    · rw [List.length_cons]
      dsimp only
      omega

theorem cancelIo_eq (c : Channel) :
    c.cancelIo={c with
      cancel := true
      ioRequests := []
      ioCompletions := c.ioCompletions++c.ioRequests.map Irp.cancelled
      cioCs := c.cioCs+c.ioRequests.length
      cioReqs := c.cioReqs-c.ioRequests.length} := moveAll_spec rfl

theorem cancelIo_moved (c : Channel) : Moved c c.cancelIo := by
  rw [cancelIo_eq]
  refine ⟨rfl,rfl,rfl,rfl,rfl,?_⟩
  unfold queue
  rw [List.append_nil,List.map_append,List.map_append,List.map_map]
  rfl

theorem cancelIo_sound (sound : c.Sound) : c.cancelIo.Sound := by
  refine c.cancelIo_moved.sound sound ?_ ?_
  · rw [cancelIo_eq]
    rw [sound.reqs,Int.sub_self]
    rfl
  · rw [cancelIo_eq]
    rw [sound.cs,List.length_append,List.length_map,Int.natCast_add]

/-- Cancelling does not set the event. -/
theorem cancelIo_rings (rings : c.Rings taken)
    (h : c.ioRequests=[]∨0<c.syncEvent∨taken) : c.cancelIo.Rings taken := by
  rw [cancelIo_eq]
  refine ⟨fun hnil => ?_,fun hne => ?_⟩
  · exact rings.unset (List.append_eq_nil_iff.mp hnil).1
  · obtain hnil|hset := h
    · rw [hnil,List.map_nil,List.append_nil] at hne
      exact rings.set hne
    · exact hset

/-! ## Transfers -/

/-- A step that only moves requests along the queue. -/
structure Keeps (c c' : Channel) (taken : Prop) : Prop where
  moved : Moved c c'
  sound : c'.Sound
  rings : c'.Rings taken

theorem Keeps.refl (sound : c.Sound) (rings : c.Rings taken) : Keeps c c taken :=
  ⟨⟨rfl,rfl,rfl,rfl,rfl,rfl⟩,sound,rings⟩

/-- The oldest request is completed. There is room for it, and the event is set when it is the
only completion. -/
theorem notify_keeps {p' : Irp} (sound : c.Sound) (rings : c.Rings taken)
    (h : c.ioRequests=p::ps) (hp : p'.identity=p.identity) (eos : Bool) (bytesMoved : ℕ) :
    Keeps c (notifyChnlComplete {c with
      ioRequests := ps
      cioReqs := c.cioReqs-1
      bytesMoved := bytesMoved
      eos := eos} p') taken := by
  have hlen := sound.length
  have hcs := sound.cs
  have hreqs := sound.reqs
  rw [h,List.length_cons] at hlen hreqs
  have hqueue : ((c.ioCompletions++[p'])++ps).map Irp.identity=c.queue := by
    unfold queue
    rw [h,List.append_assoc,List.singleton_append,List.map_append,List.map_append,List.map_cons,
      List.map_cons,hp]
  have hroom : ¬(c.chnlPackets:ℤ)<c.cioCs+1 := by omega
  have hlast : ((c.ioCompletions++[p']).length:ℤ)=c.cioCs+1 := by
    rw [List.length_append,List.length_singleton,Int.natCast_add,hcs]
    rfl
  unfold notifyChnlComplete
  rw [if_neg hroom]
  split
  next hnil =>
    have moved : Moved c {c with
        ioRequests := ps
        ioCompletions := c.ioCompletions++[p']
        cioReqs := c.cioReqs-1
        cioCs := c.cioCs+1
        bytesMoved := bytesMoved
        eos := eos
        syncEvent := c.syncEvent+1} := ⟨rfl,rfl,rfl,rfl,rfl,hqueue⟩
    refine ⟨moved,moved.sound sound ?_ hlast.symm,fun hempty => ?_,fun _ => ?_⟩
    · dsimp only
      omega
    · exact absurd hempty (List.append_ne_nil_of_right_ne_nil _ (List.cons_ne_nil _ _))
    · exact Or.inl (Nat.succ_pos _)
  next hne =>
    have moved : Moved c {c with
        ioRequests := ps
        ioCompletions := c.ioCompletions++[p']
        cioReqs := c.cioReqs-1
        cioCs := c.cioCs+1
        bytesMoved := bytesMoved
        eos := eos} := ⟨rfl,rfl,rfl,rfl,rfl,hqueue⟩
    refine ⟨moved,moved.sound sound ?_ hlast.symm,fun hempty => ?_,fun _ => ?_⟩
    · dsimp only
      omega
    · exact absurd hempty (List.append_ne_nil_of_right_ne_nil _ (List.cons_ne_nil _ _))
    · exact rings.set hne

/-- A packet is taken for input although the stream is over and nothing is read into it. -/
def Drops (c : Channel) (k : Config) (size : ℕ) : Prop :=
  c.input=true∧c.cancel=false∧c.eos=true∧
    ∃ p∈c.ioRequests.head?,min (size*k.wordSize%2^32) p.byteSize=0

theorem inputChnl_keeps (sound : c.Sound) (rings : c.Rings taken) {size arg : ℕ}
    (h : ¬c.Drops k size) : Keeps c (c.inputChnl k size arg) taken := by
  unfold inputChnl
  split
  next hready =>
    cases hreq : c.ioRequests with
    | nil => exact Keeps.refl sound rings
    | cons p ps =>
      have hreqs := sound.reqs
      rw [hreq,List.length_cons] at hreqs
      have hcount : ¬c.cioReqs-1<0 := by omega
      dsimp only
      rw [if_neg hcount]
      split
      next hzero =>
        split
        next heos =>
          have drops : c.Drops k size := by
            refine ⟨hready.1,hready.2,heos,p,?_,hzero⟩
            rw [hreq]
            rfl
          exact absurd drops h
        next =>
          refine notify_keeps sound rings hreq ?_ _ _
          rfl
      next =>
        refine notify_keeps sound rings hreq ?_ _ _
        rfl
  next => exact Keeps.refl sound rings

theorem outputChnl_keeps (sound : c.Sound) (rings : c.Rings taken) (hreq : c.ioRequests=p::ps) :
    Keeps c (c.outputChnl k p ps) taken := by
  have hreqs := sound.reqs
  rw [hreq,List.length_cons] at hreqs
  have hcount : ¬c.cioReqs-1<0 := by omega
  unfold outputChnl
  rw [if_neg hcount]
  refine notify_keeps sound rings hreq ?_ _ _
  rfl

theorem cancelIo_keeps (sound : c.Sound) (rings : c.Rings taken)
    (h : c.ioRequests=[]∨0<c.syncEvent∨taken) : Keeps c c.cancelIo taken :=
  ⟨c.cancelIo_moved,cancelIo_sound sound,cancelIo_rings rings h⟩

/-! ## Adding and reporting -/

variable {chirp : ℕ} {chirps : List ℕ}

theorem enqueue_queue (c : Channel) (p : Irp) (chirps : List ℕ) :
    (c.enqueue p chirps).queue=c.queue++[p.identity] := by
  unfold enqueue queue
  rw [← List.append_assoc,List.map_append]
  rfl

theorem enqueue_sound (sound : c.Sound) (hfree : c.freePackets=chirp::chirps)
    (hchirp : p.chirp=chirp) (hnum : p.request=c.added)
    (hboxed : Boxed c.chnlId p.hostUserBuf p.hostSysBuf) : (c.enqueue p chirps).Sound where
  packets := by
    rw [enqueue_queue,List.map_append,← List.append_assoc]
    have hperm := sound.packets
    rw [hfree,List.cons_append] at hperm
    refine (List.perm_append_singleton _ _).trans ?_
    rwa [← hchirp] at hperm
  order := by
    rw [enqueue_queue,List.map_append,← List.append_assoc]
    unfold enqueue
    rw [sound.order,List.range_succ,← hnum]
    rfl
  boxed := by
    rw [enqueue_queue]
    intro q hq
    obtain hold|hnew := List.mem_append.mp hq
    · exact sound.boxed q hold
    · rw [List.mem_singleton.mp hnew]
      exact hboxed
  reqs := by
    unfold enqueue
    rw [sound.reqs,List.length_append,Int.natCast_add]
    rfl
  cs := sound.cs

theorem enqueue_bounces (c : Channel) (p : Irp) (chirps : List ℕ) (b : SysBuf) :
    (c.enqueue p chirps).bounces b=c.bounces b+if p.hostSysBuf=b then 1 else 0 := by
  unfold bounces
  rw [enqueue_queue,List.countP_append,List.countP_singleton]
  congr 1
  exact ite_congr (decide_eq_true_eq) (fun _ => rfl) fun _ => rfl

theorem restoreEvent_moved (c : Channel) : Moved c c.restoreEvent := ⟨rfl,rfl,rfl,rfl,rfl,rfl⟩

theorem restoreEvent_sound (sound : c.Sound) : c.restoreEvent.Sound :=
  c.restoreEvent_moved.sound sound sound.reqs sound.cs

/-- Whatever the event was, it is right again. -/
theorem restoreEvent_rings (c : Channel) (taken : Prop) : c.restoreEvent.Rings taken where
  unset hnil := if_pos hnil
  set hne := by
    refine Or.inl ?_
    have hne' : c.ioCompletions≠[] := hne
    unfold restoreEvent
    rw [if_neg hne']
    exact Nat.succ_pos _

variable {completions : List Irp}

theorem queue_of_completions (h : c.ioCompletions=p::completions) :
    c.queue=p.identity::(c.release p completions).queue := by
  unfold queue release
  rw [h]
  rfl

theorem release_sound (sound : c.Sound) (h : c.ioCompletions=p::completions) :
    (c.release p completions).Sound where
  packets := by
    have hperm := sound.packets
    rw [queue_of_completions h,List.map_cons] at hperm
    unfold release
    rw [List.append_assoc,List.singleton_append]
    exact hperm
  order := by
    have horder := sound.order
    rw [queue_of_completions h,List.map_cons] at horder
    unfold release
    rw [List.append_assoc,List.singleton_append]
    exact horder
  boxed q hq := by
    refine sound.boxed q ?_
    rw [queue_of_completions h]
    exact List.mem_cons_of_mem _ hq
  reqs := sound.reqs
  cs := by
    have hcs := sound.cs
    rw [h,List.length_cons] at hcs
    unfold release
    dsimp only
    omega

theorem release_bounces (h : c.ioCompletions=p::completions) (b : SysBuf) :
    c.bounces b=(c.release p completions).bounces b+if p.hostSysBuf=b then 1 else 0 := by
  unfold bounces
  rw [queue_of_completions h,List.countP_cons]
  congr 1
  exact ite_congr (decide_eq_true_eq) (fun _ => rfl) fun _ => rfl

/-- What is reported owns the buffer that the packet had. -/
theorem dequeueIoc_spec (taken : Prop) (sound : c.Sound) (dequeue : Bool) {c' : Channel} {ioc : Ioc} {b : SysBuf}
    (h : c.dequeueIoc dequeue=(c',ioc,b)) :
    c'.Sound∧c'.Rings taken∧c'.chnlId=c.chnlId∧Boxed c.chnlId ioc.pbuf b∧
      (dequeue=false → b.isBounce=false)∧
      ∀ n,c.bounces (.bounce n)=c'.bounces (.bounce n)+if b=.bounce n then 1 else 0 := by
  unfold dequeueIoc at h
  have hnull : Boxed c.chnlId .null (.host .null) := (Bool.and_false _).symm
  split at h
  next hdeq =>
    cases hcomp : c.ioCompletions with
    | nil =>
      rw [hcomp] at h
      cases h
      exact ⟨restoreEvent_sound sound,restoreEvent_rings _ _,rfl,hnull,fun _ => rfl,fun _ => rfl⟩
    | cons p ps =>
      rw [hcomp] at h
      cases h
      refine ⟨restoreEvent_sound (release_sound sound hcomp),restoreEvent_rings _ _,rfl,?_,?_,?_⟩
      · refine sound.boxed p.identity ?_
        rw [queue_of_completions hcomp]
        exact List.mem_cons_self
      · rw [hdeq]
        exact nofun
      · intro n
        rw [release_bounces hcomp,(restoreEvent_moved _).bounces]
  next hdeq =>
    cases h
    exact ⟨restoreEvent_sound sound,restoreEvent_rings _ _,rfl,hnull,fun _ => rfl,fun _ => rfl⟩

end Channel

end ArdroneKernel.DspChannels
