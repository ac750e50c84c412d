import ArdroneKernel.UbifsFsync

/-!
# Runs of journal operations

The invariant of the write-buffers and their arrays of inode numbers, and what it
promises in each state.
-/

namespace ArdroneKernel.UbifsJournal

open UbifsWbuf Execution Function

variable {β : Type} {c : Info} {pad : β} {s s' : State β} {d : Disk β} {head : Jhead}

/-! ## Invariant -/

/-- The inode numbers in the array of a write-buffer. -/
def listed (w : Wbuf β) : List ℕ := w.inodes.take w.nextIno

/-- What holds in each state. -/
structure Inv (c : Info) (s : State β) : Prop where
  sized : ∀ head,Sized c (s.wbufs head)
  held : ∀ x∈s.groups,∀ k b,x.bytes[k]?=some b →
    Held (s.disk x.op.request.head) x.lnum (x.offs+k) b
  known : ∀ x∈s.groups,x.OnFlash s.flash∨
    ∀ i∈x.op.owners,i∉x.op.removed → i∈listed (s.wbufs x.op.request.head)
  synchronous : ∀ x∈s.groups,x.op.synchronous=true → x.OnFlash s.flash
  bounds : ∀ head,(s.wbufs head).nextIno≤(s.wbufs head).inodes.length
  /-- Enough was written for the numbers in the array since it was emptied. -/
  room : ∀ head,entryLen head*(s.wbufs head).nextIno+1≤
    (s.wbufs head).used+entryLen head*most head

theorem disk_setDisk : (s.setDisk head d).disk head=d := by
  unfold State.disk State.setDisk
  dsimp only
  rw [update_self]

theorem wbufs_setDisk {h : Jhead} (hne : h≠head) : (s.setDisk head d).wbufs h=s.wbufs h :=
  update_of_ne hne _ _

theorem setDisk_setDisk {d' : Disk β} : (s.setDisk head d).setDisk head d'=s.setDisk head d' := by
  unfold State.setDisk
  rw [update_idem]

/-- What holds of each write-buffer, when one was changed. -/
theorem forall_setDisk (p : Jhead → Wbuf β → Prop) (hhead : p head d.w)
    (hall : ∀ h,p h (s.wbufs h)) (h : Jhead) : p h ((s.setDisk head d).wbufs h) := by
  by_cases hh : h=head
  · rw [hh]
    have hself : (s.setDisk head d).wbufs head=d.w := update_self _ _ _
    rw [hself]
    exact hhead
  · rw [wbufs_setDisk hh]
    exact hall h

/-- What is in another write-buffer stays held. -/
theorem held_other {h : Jhead} (hne : h≠head)
    (hstored : ∀ lnum pos b,Stored s.flash lnum pos b → Stored d.flash lnum pos b)
    {lnum pos : ℕ} {b : β} (hb : Held (s.disk h) lnum pos b) :
    Held ((s.setDisk head d).disk h) lnum pos b := by
  rcases hb with hb|hb
  · exact .inl (hstored _ _ _ hb)
  · right
    unfold State.disk
    rw [wbufs_setDisk hne]
    exact hb

theorem Group.OnFlash.mono {flash flash' : List (Written β)} {x : Group β} (h : x.OnFlash flash)
    (hstored : ∀ lnum pos b,Stored flash lnum pos b → Stored flash' lnum pos b) :
    x.OnFlash flash' :=
  fun k b hb => hstored _ _ _ (h k b hb)

theorem start_inv (hpos : 0<c.maxWriteSize) : Inv c (start c : State β) where
  sized head := ⟨Nat.sub_le _ _,Nat.zero_le _,hpos,fun _ => rfl,fun _ => rfl,List.length_replicate⟩
  held _ h := absurd h List.not_mem_nil
  known _ h := absurd h List.not_mem_nil
  synchronous _ h := absurd h List.not_mem_nil
  bounds _ := Nat.zero_le _
  room head := by
    have hsome : 1≤0+entryLen head*most head := by cases head <;> decide
    exact hsome

/-- Progress of one write-buffer keeps the invariant. -/
theorem Inv.setDisk (hi : Inv c s) (hp : Progress c (s.disk head) d) :
    Inv c (s.setDisk head d) := by
  have hw : ∀ h,(s.setDisk head d).wbufs h=if h=head then d.w else s.wbufs h := by
    intro h
    exact update_apply _ _ _ _
  refine ⟨forall_setDisk (fun _ w => Sized c w) hp.sized hi.sized,fun x hx k b hb => ?_,fun x hx => ?_,
    fun x hx hsync => (hi.synchronous x hx hsync).mono hp.stored,
    forall_setDisk (fun _ w => w.nextIno≤w.inodes.length) ?_ hi.bounds,
    forall_setDisk (fun h w => entryLen h*w.nextIno+1≤w.used+entryLen h*most h) ?_ hi.room⟩
  · have hheld := hi.held x hx k b hb
    by_cases hh : x.op.request.head=head
    · rw [hh] at hheld ⊢
      rw [disk_setDisk]
      exact hp.kept _ _ _ hheld
    · exact held_other hh hp.stored hheld
  · rcases hi.known x hx with hon|hown
    · exact .inl (hon.mono hp.stored)
    · by_cases hh : x.op.request.head=head
      · rcases hp.index with ⟨hn,_⟩|⟨_,hall⟩
        · right
          rw [hw,if_pos hh]
          unfold listed at hown ⊢
          rw [hn,hp.inodes]
          rw [hh] at hown
          exact hown
        · left
          intro k b hb
          have hheld := hi.held x hx k b hb
          rw [hh] at hheld
          exact hall _ _ _ hheld
      · right
        rw [hw,if_neg hh]
        exact hown
  · rw [hp.inodes]
    rcases hp.index with ⟨hn,_⟩|⟨hn,_⟩
    · rw [hn]
      exact hi.bounds head
    · rw [hn]
      exact Nat.zero_le _
  · have hroom := hi.room head
    have hstart := (start_inv (c := c) (β := β) (Nat.lt_of_le_of_lt (Nat.zero_le _)
      hp.sized.short)).room head
    rcases hp.index with ⟨hn,hu⟩|⟨hn,_⟩
    · rw [hn]
      exact hroom.trans (Nat.add_le_add_right hu _)
    · rw [hn]
      have hzero : ((start c : State β).wbufs head).nextIno=0 := rfl
      have hempty : ((start c : State β).wbufs head).used=0 := rfl
      omega

/-- What is in the array fits, when write units are not too small. -/
theorem bounds_of_room {n used : ℕ} (hbig : 64≤c.maxWriteSize) (hshort : used<c.maxWriteSize)
    (hroom : entryLen head*n+1≤used+entryLen head*most head) : n≤c.maxWriteSize/CH_SZ+1 := by
  have hch : CH_SZ=24 := rfl
  rw [hch]
  cases head with
  | base =>
    have hentry : entryLen .base=144 := rfl
    have hmost : most .base=3 := rfl
    rw [hentry,hmost] at hroom
    omega
  | gc =>
    have hentry : entryLen .gc=48 := rfl
    have hmost : most .gc=1 := rfl
    rw [hentry,hmost] at hroom
    omega
  | data =>
    have hentry : entryLen .data=48 := rfl
    have hmost : most .data=1 := rfl
    rw [hentry,hmost] at hroom
    omega

/-- The nodes of an operation are written, and its inode numbers are added. -/
theorem Inv.addGroup (hi : Inv c s) {x : Group β} (hhead : x.op.request.head=head)
    (hheld : ∀ k b,x.bytes[k]?=some b → Held (s.disk head) x.lnum (x.offs+k) b)
    (hstays : (s.wbufs head).used≠0 →
      (s.wbufs head).nextIno+x.op.request.inos.length≤(s.wbufs head).inodes.length∧
      (∀ i∈x.op.owners,i∉x.op.removed → i∈x.op.request.inos)∧x.op.synchronous=false∧
      entryLen head*((s.wbufs head).nextIno+x.op.request.inos.length)+1≤
        (s.wbufs head).used+entryLen head*most head) :
    Inv c {s.setDisk head ⟨s.flash,x.op.request.inos.foldl ubifsWbufAddIno (s.wbufs head)⟩ with
      groups := x::s.groups } := by
  by_cases hused : (s.wbufs head).used=0
  · have hon : x.OnFlash s.flash := fun k b hb => (hheld k b hb).stored_of_empty hused
    have hsame : s.setDisk head ⟨s.flash,x.op.request.inos.foldl ubifsWbufAddIno (s.wbufs head)⟩=
        s := by
      rw [addInos_empty _ _ hused]
      unfold State.setDisk
      rw [update_eq_self]
    rw [hsame]
    refine ⟨hi.sized,List.forall_mem_cons.mpr ⟨?_,hi.held⟩,
      List.forall_mem_cons.mpr ⟨.inl hon,hi.known⟩,
      List.forall_mem_cons.mpr ⟨fun _ => hon,hi.synchronous⟩,hi.bounds,hi.room⟩
    rw [hhead]
    exact hheld
  · have ⟨hfits,hown,hnot,hroom⟩ := hstays hused
    have ⟨inodes,heq,hlen,htake⟩ := addInos_eq (s.wbufs head) x.op.request.inos hused
    rw [heq]
    set w : Wbuf β := {s.wbufs head with
      inodes := inodes
      nextIno := (s.wbufs head).nextIno+x.op.request.inos.length }
    have hw : ∀ h,(s.setDisk head ⟨s.flash,w⟩).wbufs h=if h=head then w else s.wbufs h := by
      intro h
      exact update_apply _ _ _ _
    have hheld' : ∀ h lnum pos b,Held (s.disk h) lnum pos b →
        Held ((s.setDisk head ⟨s.flash,w⟩).disk h) lnum pos b := by
      intro h lnum pos b hb
      by_cases hh : h=head
      · rw [hh] at hb ⊢
        rw [disk_setDisk]
        exact hb
      · exact held_other hh (fun _ _ _ hb => hb) hb
    have hlisted : listed w=listed (s.wbufs head)++x.op.request.inos := htake hfits
    have hmore : ∀ h i,i∈listed (s.wbufs h) → i∈listed ((s.setDisk head ⟨s.flash,w⟩).wbufs h) := by
      intro h i hmem
      rw [hw h]
      by_cases hh : h=head
      · rw [if_pos hh,hlisted]
        rw [hh] at hmem
        exact List.mem_append_left _ hmem
      · rw [if_neg hh]
        exact hmem
    have hs := hi.sized head
    refine ⟨forall_setDisk (fun _ w => Sized c w) ⟨hs.size,hs.fits,hs.short,hs.seeked,fun h => absurd h hused,?_⟩ hi.sized,
      List.forall_mem_cons.mpr ⟨fun k b hb => ?_,fun y hy k b hb => hheld' _ _ _ _
        (hi.held y hy k b hb)⟩,List.forall_mem_cons.mpr ⟨.inr fun i hmem hrem => ?_,fun y hy =>
        (hi.known y hy).imp id fun hown i hmem hrem => hmore _ i (hown i hmem hrem)⟩,
      List.forall_mem_cons.mpr ⟨fun h => ?_,hi.synchronous⟩,
      forall_setDisk (fun _ w => w.nextIno≤w.inodes.length) ?_ hi.bounds,
      forall_setDisk (fun h w => entryLen h*w.nextIno+1≤w.used+entryLen h*most h) hroom hi.room⟩
    · exact hlen.trans hs.entries
    · rw [hhead]
      exact hheld' _ _ _ _ (hheld k b hb)
    · rw [hhead]
      have hin : i∈listed w := by
        rw [hlisted]
        exact List.mem_append_right _ (hown i hmem hrem)
      have hself : (s.setDisk head ⟨s.flash,w⟩).wbufs head=w := by rw [hw,if_pos rfl]
      exact hself.symm▸hin
    · rw [hnot] at h
      cases h
    · exact hfits.trans hlen.ge

/-! ## Steps -/

/-- What a journal head and its write-buffer are after `write_head`. -/
theorem writeHead_spec (hpos : 0<c.maxWriteSize) (hs : Sized c d.w) (roError : Bool) (ok : ℕ → Bool)
    (buf : List β) (sync : Bool) :
    (∃ d',writeHead c pad roError ok d buf sync=(false,d')∧Progress c d d')∨
      ∃ d1 d' l,writeHead c pad roError ok d buf sync=(true,d')∧Wrote c d d1 l buf∧
        Progress c d d1∧Progress c d1 d'∧if sync then d'.w.used=0 else d'=d1 := by
  unfold writeHead
  rcases write_progress hpos hs ok buf with ⟨d',heq,hp⟩|⟨d1,l,heq,hw,hp⟩
  · rw [heq]
    exact .inl ⟨d',rfl,hp⟩
  · rw [heq]
    cases sync with
    | false => exact .inr ⟨d1,d1,l,rfl,hw,hp,.refl hp.sized,rfl⟩
    | true =>
      dsimp only
      rcases sync_progress hpos hp.sized pad roError (ok 2) with hf|⟨d',heq',hp',hzero⟩
      · rw [if_pos rfl,hf]
        exact .inl ⟨d1,rfl,hp⟩
      · rw [if_pos rfl,heq']
        exact .inr ⟨d1,d',l,rfl,hw,hp,hp',hzero⟩

/-- An operation of the journal. -/
theorem Inv.jnl (hi : Inv c s) (hpos : 0<c.maxWriteSize) {op : Op} {content : ℕ → β}
    {space : Option (ℕ×ℕ)} {seekOk : Bool} {ok : ℕ → Bool}
    (hcareful : Careful c pad s (.jnl op content space seekOk ok)) :
    Inv c (jnl c pad s op content space seekOk ok) := by
  unfold UbifsJournal.jnl
  have ⟨r,d,hres,hp⟩ := reserve_progress hpos (show Sized c (s.disk op.request.head).w from
    hi.sized op.request.head) pad op.request.len space seekOk
  unfold Careful at hcareful
  dsimp only at hcareful ⊢
  rw [hres] at hcareful ⊢
  have hi1 := hi.setDisk hp
  cases r with
  | false => exact hi1
  | true =>
    dsimp only at hcareful ⊢
    rcases writeHead_spec hpos hp.sized s.roError ok (op.bytes content) op.request.sync with
      ⟨d',heq,hp'⟩|⟨d1,d',l,heq,hw,hp1,hp2,hsync⟩
    · rw [heq]
      have hi2 := hi.setDisk (hp.trans hp')
      exact ⟨hi2.sized,hi2.held,hi2.known,hi2.synchronous,hi2.bounds,hi2.room⟩
    · rw [heq]
      dsimp only
      have hi2 := hi.setDisk ((hp.trans hp1).trans hp2)
      have hself : (s.setDisk op.request.head d').wbufs op.request.head=d'.w :=
        update_self _ _ _
      have hsame : s.setDisk op.request.head ⟨d'.flash,op.request.inos.foldl ubifsWbufAddIno d'.w⟩=
          (s.setDisk op.request.head d').setDisk op.request.head ⟨(s.setDisk op.request.head d').flash,
            op.request.inos.foldl ubifsWbufAddIno
              ((s.setDisk op.request.head d').wbufs op.request.head)⟩ := by
        rw [setDisk_setDisk,hself]
        rfl
      have hplace : d.w.lnum.getD 0=l := by rw [hw.before]; rfl
      rw [hsame,hplace]
      refine hi2.addGroup (x := ⟨op,l,d.w.offs+d.w.used,op.bytes content⟩) rfl (fun k b hb => ?_)
        fun hused => ?_
      · rw [disk_setDisk]
        exact hp2.kept _ _ _ (hw.held k b hb)
      · rw [hself] at hused ⊢
        cases hs : op.request.sync with
        | true =>
          rw [hs] at hsync
          exact absurd hsync hused
        | false =>
          rw [hs,if_neg Bool.false_ne_true] at hsync
          rw [hsync] at hused ⊢
          rw [hw.used] at hused
          have ⟨hasks,hfits⟩ := hcareful.resolve_left hused
          have hnot : op.synchronous=false := by
            cases hsyn : op.synchronous with
            | false => rfl
            | true =>
              rw [op.sync_of_synchronous hasks hsyn] at hs
              cases hs
          have ⟨_,hmost,hlen⟩ := op.inos_length
          have hbytes : (op.bytes content).length=align op.request.len 8 := by
            unfold Op.bytes
            rw [List.length_map,List.length_range]
          have hself1 : (s.setDisk op.request.head d).wbufs op.request.head=d.w :=
            update_self _ _ _
          have hroom : entryLen op.request.head*(d1.w.nextIno+op.request.inos.length)+1≤
              d1.w.used+entryLen op.request.head*most op.request.head := by
            rw [Nat.mul_add]
            rcases hw.index with ⟨hlt,hn⟩|⟨hn,_⟩
            · have hbefore := hi1.room op.request.head
              rw [hself1] at hbefore
              rw [hn,hw.used]
              unfold leftover
              rw [if_pos hlt]
              omega
            · have := Nat.mul_le_mul_left (entryLen op.request.head) hmost
              rw [hn,hw.used]
              omega
          refine ⟨?_,op.inos_of_not_sync hasks hs,hnot,hroom⟩
          rcases hfits with hbig|hfits
          · have hentries := hw.sized.entries
            rw [hentries]
            exact bounds_of_room hbig hw.sized.short hroom
          · unfold Fits at hfits
            rw [hw.inodes]
            rcases hw.index with ⟨hlt,hn⟩|⟨hn,hge,_⟩
            · rw [if_pos hlt] at hfits
              rw [hn]
              exact hfits
            · rw [if_neg hge] at hfits
              rw [hn]
              exact hfits

/-- The head that is synchronised. -/
theorem Inv.syncHead (hi : Inv c s) (hpos : 0<c.maxWriteSize) (pad : β) (head : Jhead) (ok : Bool) :
    ∃ r t,syncHead c pad s head ok=(r,t)∧Inv c t∧t.groups=s.groups∧
      (∀ lnum pos b,Stored s.flash lnum pos b → Stored t.flash lnum pos b)∧
      (r=true → ∀ lnum pos b,Held (s.disk head) lnum pos b → Stored t.flash lnum pos b) := by
  unfold UbifsJournal.syncHead
  rcases sync_progress hpos (show Sized c (s.disk head).w from hi.sized head) pad s.roError ok with
    hf|⟨d,heq,hp,hzero⟩
  · have hi' := hi.setDisk (.refl (hi.sized head))
    have hf' : ubifsWbufSync c pad s.roError ok (s.disk head)=(false,s.disk head) := hf
    rw [hf']
    exact ⟨_,_,rfl,⟨hi'.sized,hi'.held,hi'.known,hi'.synchronous,hi'.bounds,hi'.room⟩,rfl,
      fun _ _ _ h => h,nofun⟩
  · have heq' : ubifsWbufSync c pad s.roError ok (s.disk head)=(true,d) := heq
    rw [heq']
    exact ⟨_,_,rfl,hi.setDisk hp,rfl,hp.stored,
      fun _ lnum pos b hb => (hp.kept lnum pos b hb).stored_of_empty hzero⟩

/-- The loop of `ubifs_sync_wbufs_by_inode`. -/
theorem Inv.syncWbufs (hi : Inv c s) (hpos : 0<c.maxWriteSize) (pad : β) (inum : ℕ)
    (ok : Jhead → Bool) (heads : List Jhead) : ∃ r t,syncWbufs c pad inum ok heads s=(r,t)∧Inv c t∧t.groups=s.groups∧
      (∀ lnum pos b,Stored s.flash lnum pos b → Stored t.flash lnum pos b)∧
      (r=true → ∀ x∈s.groups,x.op.request.head∈heads → inum∈x.op.owners → inum∉x.op.removed →
        x.OnFlash t.flash) := by
  induction heads generalizing s with
  | nil => exact ⟨true,s,rfl,hi,rfl,fun _ _ _ h => h,fun _ _ _ h => absurd h List.not_mem_nil⟩
  | cons head heads ih =>
    unfold UbifsJournal.syncWbufs
    by_cases hgc : head=.gc
    · rw [if_pos hgc]
      have ⟨r,t,heq,hit,hgroups,hstored,hon⟩ := ih hi
      refine ⟨r,t,heq,hit,hgroups,hstored,fun hr x hx hmem => hon hr x hx ?_⟩
      refine (List.mem_cons.mp hmem).resolve_left fun hh => ?_
      exact x.op.inos_length.1 (hh.trans hgc)
    rw [if_neg hgc]
    by_cases hhas : wbufHasIno (s.wbufs head) inum=true
    · rw [if_pos hhas]
      have ⟨r,t,heq,hit,hgroups,hstored,hall⟩ := hi.syncHead hpos pad head (ok head)
      rw [heq]
      cases r with
      | false => exact ⟨false,t,rfl,hit,hgroups,hstored,nofun⟩
      | true =>
        have ⟨r',t',heq',hit',hgroups',hstored',hon⟩ := ih hit
        refine ⟨r',t',heq',hit',hgroups'.trans hgroups,
          fun lnum pos b h => hstored' _ _ _ (hstored _ _ _ h),fun hr x hx hmem hown hrem => ?_⟩
        rcases List.mem_cons.mp hmem with hh|hmem
        · intro k b hb
          have hheld := hi.held x hx k b hb
          rw [hh] at hheld
          exact hstored' _ _ _ (hall rfl _ _ _ hheld)
        · exact hon hr x (by rw [hgroups]; exact hx) hmem hown hrem
    · rw [if_neg hhas]
      have ⟨r,t,heq,hit,hgroups,hstored,hon⟩ := ih hi
      refine ⟨r,t,heq,hit,hgroups,hstored,fun hr x hx hmem hown hrem => ?_⟩
      rcases List.mem_cons.mp hmem with hh|hmem
      · rcases hi.known x hx with hflash|hlisted
        · exact hflash.mono hstored
        · have hin := hlisted inum hown hrem
          rw [hh] at hin
          exact absurd (List.contains_iff_mem.mpr hin) hhas
      · exact hon hr x hx hmem hown hrem

theorem step_inv (hpos : 0<c.maxWriteSize) (hi : Inv c s) {e : Event β}
    (hcareful : Careful c pad s e) (hstep : step c pad s e=some s') : Inv c s' := by
  cases e with
  | jnl op content space seekOk ok =>
    cases hstep
    exact hi.jnl hpos hcareful
  | sync head ok =>
    cases hstep
    have ⟨r,t,heq,hit,_⟩ := hi.syncHead hpos pad head ok
    rw [heq]
    exact hit
  | fsync inum ok =>
    cases hstep
    have ⟨r,t,heq,hit,_⟩ := hi.syncWbufs hpos pad inum ok [.gc,.base,.data]
    unfold ubifsSyncWbufsByInode
    rw [heq]
    exact hit

theorem Inv.durable (hi : Inv c s) (hpos : 0<c.maxWriteSize) : Durable c pad s where
  fsync inum ok s' hrem hsync x hx hown := by
    have ⟨r,t,heq,_,_,_,hon⟩ := hi.syncWbufs hpos pad inum ok [.gc,.base,.data]
    unfold ubifsSyncWbufsByInode at hsync
    rw [heq] at hsync
    cases hsync
    refine hon rfl x hx ?_ hown fun hin => hrem (List.mem_flatMap.mpr ⟨x,hx,hin⟩)
    cases hhead : x.op.request.head with
    | gc => exact absurd hhead x.op.inos_length.1
    | base => decide
    | data => decide
  synchronous := hi.synchronous
  bounds := hi.bounds

/-! ## Results -/

/-- In a run of operations that ask for what they owe, and whose inode numbers fit, what
was synchronised is durable. -/
theorem run_durable (hc : c.Accepted) {events : List (Event β)}
    (hrun : Run (step c pad) (Careful c pad) (start c) events s) : Durable c pad s := by
  have hpos := hc.maxWriteSize_pos
  have hi : Inv c s := hrun.invariant (Inv c) (start_inv hpos) fun hi hok hstep =>
    step_inv hpos hi hok hstep
  exact hi.durable hpos

/-- Flash with pages of 2048 bytes. -/
def nand : Info := ⟨126976,2048,2048,0⟩

theorem nand_accepted : nand.Accepted where
  eight := by decide
  unit := ⟨11,rfl⟩
  write := ⟨11,rfl⟩
  le := le_refl _
  dvd := dvd_refl _

/-- A new file in a directory, and what was written of it. -/
def createRun : List (Event ℕ) :=
  [.jnl (.update ⟨1,2,0,false,false⟩ ⟨11,1,0,false,false⟩ 3 false) id (some (7,0)) true
      fun _ => true,
    .jnl (.writeData 11 100) id (some (8,0)) true fun _ => true,
    .fsync 11 fun _ => true]

theorem run_durable_example : ∃ s,s.groups.length=2∧Durable nand 0 s := by
  have hupdate : Careful nand 0 (start nand) createRun[0] := .inr ⟨trivial,.inl (by decide)⟩
  have hdata : ∀ s,Careful nand 0 s createRun[1] := fun s => .inr ⟨trivial,.inl (by decide)⟩
  have ⟨s,hrun,hlen⟩ : ∃ s,Run (step nand 0) (Careful nand 0) (start nand) createRun s∧
      s.groups.length=2 :=
    ⟨_,Run.cons hupdate rfl (Run.cons (hdata _) rfl (Run.cons trivial rfl (Run.nil _))),
      by decide +kernel⟩
  exact ⟨s,hlen,run_durable nand_accepted hrun⟩

/-- An attribute in a synchronous directory. -/
def attributeRun : List (Event ℕ) :=
  [.jnl (.changeXattr ⟨12,1,0,false,false⟩ ⟨1,2,0,false,true⟩) id (some (7,0)) true fun _ => true]

/-- The nodes of the directory and its attribute stay in the write-buffer, and `fsync`
does not find them. -/
theorem changeXattr_lost : ¬∀ (c : Info) (pad : ℕ) (events : List (Event ℕ)) (s : State ℕ),
    c.Accepted → Run (step c pad) (fun _ _ => True) (start c) events s → Durable c pad s := by
  intro h
  have ⟨s,hrun,hlost⟩ := exists_run (step nand 0) (fun _ _ => true) (start nand) attributeRun
    (fun s => s.flash.isEmpty&&s.groups.any fun x => x.op.synchronous&&x.bytes[0]?==some 0)
    (by decide +kernel)
  have hs := h nand 0 _ s nand_accepted (hrun.mono fun _ _ _ => trivial)
  have ⟨hempty,hany⟩ := Bool.and_eq_true_iff.mp hlost
  have ⟨x,hx,hsync⟩ := List.any_eq_true.mp hany
  have ⟨hsynchronous,hbyte⟩ := Bool.and_eq_true_iff.mp hsync
  have ⟨y,hy,_⟩ := hs.synchronous x hx hsynchronous 0 0 (eq_of_beq hbyte)
  rw [List.isEmpty_iff.mp hempty] at hy
  cases hy

end ArdroneKernel.UbifsJournal
