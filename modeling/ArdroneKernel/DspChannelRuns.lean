import ArdroneKernel.DspChannelSteps
import ArdroneKernel.Execution

/-!
# Runs of the channels

Calls of any threads on any channels, and the DPC, in any order.
-/

namespace ArdroneKernel.DspChannels

open Execution

variable {k : Config} {s s' : State} {h t : ℕ} {c : Channel} {r : State×Answer}

/-- What a step must not meet: a cancellation that nobody is told of, input of no bytes at the end
of a stream, a request with a buffer that is refused under the lock, and a channel that is closed
with a buffer in its queue or under another call. -/
def Usable (k : Config) (s : State) : Event → Prop
  | .cancelIo _ h | .closeStart _ h => ∀ c∈s.channels.get h,c.Answered (s.Taken h)
  | .flushIo _ h _ => ∀ c∈s.channels.get h,c.input=true → c.Answered (s.Taken h)
  | .idle _ h _ fFlush =>
    ∀ c∈s.channels.get h,c.input=true∨fFlush=true → c.Answered (s.Taken h)
  | .addQueue t => ∀ h req,s.calls.get t=some (.adding h req) →
    ∀ c∈s.channels.get h,Room k c req
  | .closeFree t => ∀ h,s.calls.get t=some (.closing h) →
    ∀ c∈s.channels.get h,s.Quiet t h c
  | .inputChnl full size id _ =>
    ∀ h c,s.slot id=some (h,c) → full=0∨CHNL_MAXCHANNELS≤ id∨¬c.Drops k size
  | _ => True

theorem State.begin_cases {f : Channel → State×Answer} (hbegin : s.begin t h f=some r) :
    s.calls.get t=none∧∃ c,s.channels.get h=some c∧r=f c := by
  unfold State.begin at hbegin
  split at hbegin
  next c hnone hget =>
    split at hbegin
    · cases hbegin
      exact ⟨hnone,c,hget,rfl⟩
    · cases hbegin
  · cases hbegin

theorem State.resume_cases {f : Call → Channel → Option (State×Answer)}
    (hresume : s.resume t f=some r) :
    ∃ p h c,s.calls.get t=some p∧p.channel=some h∧s.channels.get h=some c∧f p c=some r := by
  have ⟨p,hp,hbind⟩ := Option.bind_eq_some_iff.mp hresume
  have ⟨h,hh,hbind'⟩ := Option.bind_eq_some_iff.mp hbind
  have ⟨c,hc,hf⟩ := Option.bind_eq_some_iff.mp hbind'
  exact ⟨p,h,c,hp,hh,hc,hf⟩

theorem call_good (good : Good s) {e : Event} (usable : Usable k s e) (hcall : call k s e=some r) :
    Good r.1 := by
  cases e with
  | openCheck t chnlId input uioReqs =>
    unfold call at hcall
    dsimp only at hcall
    split at hcall
    next hnone =>
      cases hcall
      exact open_good good hnone chnlId
    · cases hcall
  | openInsert t h allocated =>
    unfold call at hcall
    dsimp only at hcall
    split at hcall
    next id input uioReqs hget hfree =>
      cases hcall
      exact openInsert_good good hget hfree _
    · cases hcall
  | openReady t =>
    have ⟨p,h,c,hp,hh,hc,hf⟩ := State.resume_cases hcall
    cases p <;> cases hf
    cases hh
    exact openReady_good good hp hc
  | addCheck t h req allocated copied =>
    have ⟨hnone,c,hc,hr⟩ := State.begin_cases hcall
    rw [hr]
    exact add_good good hnone hc req allocated copied
  | addQueue t =>
    have ⟨p,h,c,hp,hh,hc,hf⟩ := State.resume_cases hcall
    cases p <;> cases hf
    cases hh
    exact queue_good good hp hc (usable _ _ hp c hc)
  | cancelIo t h =>
    have ⟨hnone,c,hc,hr⟩ := State.begin_cases hcall
    rw [hr]
    exact cancel_good good hc (usable c hc)
  | getIoc t h nowait =>
    have ⟨hnone,c,hc,hr⟩ := State.begin_cases hcall
    rw [hr]
    exact getIoc_good good (.of_none hnone) hc nowait false
  | waitEnd t signal =>
    have ⟨p,h,c,hp,hh,hc,hf⟩ := State.resume_cases hcall
    cases p <;> cases hf
    cases hh
    exact wait_good good hp hc signal
  | dequeue t =>
    have ⟨p,h,c,hp,hh,hc,hf⟩ := State.resume_cases hcall
    cases p <;> cases hf
    cases hh
    exact dequeue_good good hp hc
  | getEnd t copied =>
    have ⟨p,h,c,hp,hh,hc,hf⟩ := State.resume_cases hcall
    cases p <;> cases hf
    cases hh
    exact getEnd_good good hp hc copied
  | flushIo t h nowait =>
    have ⟨hnone,c,hc,hr⟩ := State.begin_cases hcall
    rw [hr]
    exact flush_good good hnone hc (usable c hc) nowait
  | flushLoop t =>
    have ⟨p,h,c,hp,hh,hc,hf⟩ := State.resume_cases hcall
    cases p <;> cases hf
    cases hh
    exact loop_good good hp hc
  | idle t h nowait fFlush =>
    have ⟨hnone,c,hc,hr⟩ := State.begin_cases hcall
    rw [hr]
    exact idle_good good hnone hc (usable c hc) nowait
  | clearRead t =>
    have ⟨p,h,c,hp,hh,hc,hf⟩ := State.resume_cases hcall
    cases p <;> cases hf
    cases hh
    exact clearRead_good good hp hc
  | clearWrite t =>
    have ⟨p,h,c,hp,hh,hc,hf⟩ := State.resume_cases hcall
    cases p <;> cases hf
    cases hh
    exact clearWrite_good good hp hc
  | closeStart t h =>
    have ⟨hnone,c,hc,hr⟩ := State.begin_cases hcall
    rw [hr]
    exact close_good good hnone hc (usable c hc)
  | closeFree t =>
    have ⟨p,h,c,hp,hh,hc,hf⟩ := State.resume_cases hcall
    cases p <;> cases hf
    cases hh
    exact closeFree_good good hp hc (usable _ hp c hc)
  | inputChnl full size id arg =>
    cases hcall
    exact input_good good usable
  | outputChnl full dspFreeMask =>
    cases hcall
    exact output_good good full dspFreeMask

theorem start_good : Good .start where
  sound := nofun
  rings := nofun
  fits := nofun
  slots := nofun
  buffers _ := rfl
  own := nofun

theorem run_good {es : List Event} (hrun : Run (step k) (Usable k) .start es s) : Good s := by
  refine hrun.invariant Good start_good fun good usable hstep => ?_
  have ⟨r,hr,heq⟩ := Option.map_eq_some_iff.mp hstep
  rw [← heq]
  exact call_good good usable hr

/-! ## Conservation -/

/-- Each packet is in one list, the counts are right, the event is set if there are completions,
requests are completed and reported in the order they were added, and each buffer that was
allocated was freed once or is in use once. -/
structure Conserved (s : State) : Prop where
  packets : ∀ h c,s.channels.get h=some c →
    (c.freePackets++(c.ioCompletions++c.ioRequests).map Irp.chirp).Perm (List.range c.chnlPackets)
  counts : ∀ h c,s.channels.get h=some c →
    c.cioReqs=c.ioRequests.length∧c.cioCs=c.ioCompletions.length∧
      c.freePackets.length+c.ioRequests.length+c.ioCompletions.length=c.chnlPackets
  event : ∀ h c,s.channels.get h=some c → ¬s.Taken h → (0<c.syncEvent↔c.ioCompletions≠[])
  order : ∀ h c,s.channels.get h=some c →
    c.reported++(c.ioCompletions++c.ioRequests).map Irp.request=List.range c.added
  buffers : ∀ n,s.uses n=if n<s.nextBuf then 1 else 0
  own : ∀ b∈s.freed,b.isBounce=true

theorem Good.conserved (good : Good s) : Conserved s where
  packets h c hget := by
    have hperm := (good.sound h c hget).packets
    unfold Channel.queue at hperm
    rwa [List.map_map] at hperm
  counts h c hget := by
    have sound := good.sound h c hget
    exact ⟨sound.reqs,sound.cs,sound.length⟩
  event h c hget hfree := by
    have rings := good.rings h c hget
    refine ⟨fun hset hnil => ?_,fun hne => (rings.set hne).resolve_right hfree⟩
    rw [rings.unset hnil] at hset
    exact Nat.lt_irrefl 0 hset
  order h c hget := by
    have horder := (good.sound h c hget).order
    unfold Channel.queue at horder
    rwa [List.map_map] at horder
  buffers := good.buffers
  own := good.own

/-- Packets, requests and buffers are conserved in every run that is usable. -/
theorem packets_conserved {es : List Event} (hrun : Run (step k) (Usable k) .start es s) :
    Conserved s := (run_good hrun).conserved

/-- Four bytes of the user, for the DSP. -/
def someRequest : Request := ⟨.user 4096,.host .null,4,4,0,7⟩

/-- They are sent and reported. -/
theorem packets_conserved_example :
    ∃ es s,Run (step ⟨4,16⟩) (Usable ⟨4,16⟩) .start es s∧Conserved s∧s.freed=[.bounce 0] := by
  have hrun : Run (step ⟨4,16⟩) (Usable ⟨4,16⟩) .start
      [.openCheck 0 (some 5) false 2,.openInsert 0 100 true,.openReady 0,
        .addCheck 0 100 someRequest true true,.addQueue 0,.getIoc 1 100 false,
        .outputChnl 0 (BitVec.allOnes 32),.waitEnd 1 false,.dequeue 1,.getEnd 1 true] _ :=
    Run.cons trivial rfl <| Run.cons trivial rfl <| Run.cons trivial rfl <|
    Run.cons trivial rfl <| Run.cons (by
      intro h req hcall c hc
      cases hcall
      cases hc
      exact fun _ => ⟨Or.inr (by decide),by decide⟩) rfl <| Run.cons trivial rfl <|
    Run.cons trivial rfl <| Run.cons trivial rfl <| Run.cons trivial rfl <|
    Run.cons trivial rfl <| Run.nil _
  exact ⟨_,_,hrun,packets_conserved hrun,rfl⟩

theorem not_conserved_of_event (hcalls : s.calls.keys=∅) (hget : s.channels.get h=some c)
    (hset : c.syncEvent=0) (hne : c.ioCompletions≠[]) : ¬Conserved s := by
  intro conserved
  have hfree : ¬s.Taken h := by
    rintro ⟨t,_,_,hcall⟩
    have hmem := (s.calls.mem_keys t).mpr (Option.isSome_iff_exists.mpr ⟨_,hcall⟩)
    rw [hcalls] at hmem
    exact absurd hmem (Finset.notMem_empty t)
  have hpos := (conserved.event h c hget hfree).mpr hne
  rw [hset] at hpos
  exact Nat.lt_irrefl 0 hpos

theorem not_conserved_of_uses {n : ℕ} (hbuf : n<s.nextBuf) (huses : s.uses n=0) :
    ¬Conserved s := by
  intro conserved
  have hone := conserved.buffers n
  rw [huses,if_pos hbuf] at hone
  cases hone

/-- A request is cancelled and the event stays reset. The DSP ends a stream twice, and the second
packet is lost. A request is too long for the shared memory, and a channel is closed before its
request is reported: the buffers are not freed. -/
theorem packets_lost :
    (∃ es s,Run (step ⟨4,16⟩) (fun _ _ => True) .start es s∧s.calls.keys=∅∧
      (∃ c,s.channels.get 100=some c∧c.syncEvent=0∧c.ioCompletions≠[])∧¬Conserved s)∧
    (∃ es s,Run (step ⟨4,16⟩) (fun _ _ => True) .start es s∧
      (∃ c,s.channels.get 100=some c∧
        c.freePackets.length+c.ioRequests.length+c.ioCompletions.length≠c.chnlPackets)∧
      ¬Conserved s)∧
    (∃ es s,Run (step ⟨4,16⟩) (fun _ _ => True) .start es s∧
      s.calls.keys=∅∧0<s.nextBuf∧s.uses 0=0∧¬Conserved s)∧
    ∃ es s,Run (step ⟨4,16⟩) (fun _ _ => True) .start es s∧
      s.channels.keys=∅∧0<s.nextBuf∧s.uses 0=0∧¬Conserved s := by
  let opened (input : Bool) : List Event :=
    [.openCheck 0 (some 5) input 2,.openInsert 0 100 true,.openReady 0]
  let added (req : Request) : List Event := [.addCheck 0 100 req true true,.addQueue 0]
  refine ⟨?_,?_,?_,?_⟩
  · have ⟨s,hrun,hstate⟩ := exists_run (step ⟨4,16⟩) (fun _ _ => true) .start
      (opened false++added someRequest++[.cancelIo 0 100])
      (fun s : State => decide (s.calls.keys=∅)&&(s.channels.get 100).any fun c : Channel =>
        decide (c.syncEvent=0∧c.ioCompletions≠[]))
      (by decide +kernel)
    have ⟨hcalls,hany⟩ := (Bool.and_eq_true _ _).mp hstate
    have ⟨c,hget,hc⟩ := (Option.any_eq_true _ _).mp hany
    have hcalls' := of_decide_eq_true hcalls
    have ⟨hset,hne⟩ := of_decide_eq_true hc
    exact ⟨_,s,hrun.mono fun _ _ _ => trivial,hcalls',⟨c,hget,hset,hne⟩,
      not_conserved_of_event hcalls' hget hset hne⟩
  · have ⟨s,hrun,hstate⟩ := exists_run (step ⟨4,16⟩) (fun _ _ => true) .start
      (opened true++added someRequest++added someRequest++
        [.inputChnl 1 0 5 0,.inputChnl 1 0 5 0])
      (fun s : State => (s.channels.get 100).any fun c : Channel =>
        decide (c.freePackets.length+c.ioRequests.length+c.ioCompletions.length≠c.chnlPackets))
      (by decide +kernel)
    have ⟨c,hget,hc⟩ := (Option.any_eq_true _ _).mp hstate
    have hne := of_decide_eq_true hc
    exact ⟨_,s,hrun.mono fun _ _ _ => trivial,⟨c,hget,hne⟩,
      fun conserved => hne (conserved.counts 100 c hget).2.2⟩
  · have ⟨s,hrun,hstate⟩ := exists_run (step ⟨4,16⟩) (fun _ _ => true) .start
      (opened false++added {someRequest with byteSize := 17})
      (fun s : State => decide (s.calls.keys=∅∧0<s.nextBuf∧s.uses 0=0))
      (by decide +kernel)
    have ⟨hcalls,hbuf,huses⟩ := of_decide_eq_true hstate
    exact ⟨_,s,hrun.mono fun _ _ _ => trivial,hcalls,hbuf,huses,not_conserved_of_uses hbuf huses⟩
  · have ⟨s,hrun,hstate⟩ := exists_run (step ⟨4,16⟩) (fun _ _ => true) .start
      (opened false++added someRequest++
        [.outputChnl 0 (BitVec.allOnes 32),.closeStart 0 100,.closeFree 0])
      (fun s : State => decide (s.channels.keys=∅∧0<s.nextBuf∧s.uses 0=0))
      (by decide +kernel)
    have ⟨hkeys,hbuf,huses⟩ := of_decide_eq_true hstate
    exact ⟨_,s,hrun.mono fun _ _ _ => trivial,hkeys,hbuf,huses,not_conserved_of_uses hbuf huses⟩

end ArdroneKernel.DspChannels
