import ArdroneKernel.Execution
import ArdroneKernel.UbifsWbufReads

/-!
# Sequences of operations on a write-buffer

The write-buffer is seeked, written to and synchronized in any order. What the caller was told of
is the list of nodes whose writes returned zero.
-/

namespace ArdroneKernel.UbifsWbuf

open Execution

/-- A write-buffer, and the nodes whose writes returned zero, by their places. -/
abbrev State := Disk UInt8×List (Written UInt8)

/-- What is called, and what `sync_callback` returns if it is called. That is what
`ubifs_update_one_lp` returns, which has no `-ENOSPC`. -/
inductive Call where
  | seek (lnum offs : ℕ) (called : ℤ)
  /-- A node, with what follows it up to the next multiple of eight bytes. -/
  | write (node rubbish : List UInt8) (called : ℤ)
  | sync (called : ℤ)

variable (c : Info) (pad : UInt8)

/-- `ubifs_wbuf_sync_nolock`, when writes to flash succeed. -/
def syncNolock (d : Disk UInt8) (called : ℤ) : ℤ×Disk UInt8 :=
  if d.w.used=0∨d.w.lnum=none then (0,d) else (called,(ubifsWbufSync c pad false true d).2)

/-- `ubifs_wbuf_seek_nolock` -/
def seekNolock (d : Disk UInt8) (lnum offs : ℕ) (called : ℤ) : ℤ×Disk UInt8 :=
  let r := if 0<d.w.used then syncNolock c pad d called else (0,d)
  if r.1≠0 then r else (0,(ubifsWbufSeek c pad false true d lnum offs).2)

/-- `ubifs_wbuf_write_nolock` -/
def writeNolock (d : Disk UInt8) (node rubbish : List UInt8) (called : ℤ) : ℤ×Disk UInt8 :=
  if (c.lebSize : ℤ)-d.w.offs-d.w.used<align node.length 8 then (-ENOSPC,d)
  else (called,(ubifsWbufWrite c (fun _ => true) d (node++rubbish)).2)

/-- Where and how many bytes a write of a node copies to `buf` of the write-buffer. -/
def copies (w : Wbuf UInt8) (len : ℕ) : List (ℕ×ℕ) :=
  let alignedLen := align len 8
  if (c.lebSize : ℤ)-w.offs-w.used<alignedLen then []
  else if alignedLen≤w.avail then [(w.used,len)]
  else
    let fill := if 0<w.used then [(w.used,w.avail)] else []
    let written :=
      if 0<w.used then w.avail else if w.offs%c.maxWriteSize≠0 then w.size else 0
    let n := (alignedLen-written)/c.maxWriteSize*c.maxWriteSize
    fill++if alignedLen-written-n≠0 then [(0,len-written-n)] else []

instance (flash : List (Written UInt8)) (lnum offs : ℕ) : Decidable (Erased flash lnum offs) :=
  inferInstanceAs (Decidable (∀ x∈flash,x.lnum=lnum → x.offs+x.bytes.length≤offs))

/-- A call that callers may make: to erased space, of a node that is not empty. -/
def step (s : State) : Call → Option State
  | .seek lnum offs called =>
    let r := seekNolock c pad s.1 lnum offs called
    if offs≤c.lebSize∧offs%c.minIoSize=0∧Erased r.2.flash lnum offs then some (r.2,s.2) else none
  | .write node rubbish called =>
    match s.1.w.lnum with
    | none => none
    | some lnum =>
      if node≠[]∧node.length+rubbish.length=align node.length 8 then
        let r := writeNolock c s.1 node rubbish called
        some (r.2,if r.1=0 then s.2++[⟨lnum,s.1.w.offs+s.1.w.used,node⟩] else s.2)
      else none
  | .sync called => some ((syncNolock c pad s.1 called).2,s.2)

/-- A write-buffer that was initialised, and what had been written before. -/
def start (flash : List (Written UInt8)) : State := (⟨flash,ubifsWbufInit c⟩,[])

/-! ## The invariant -/

/-- The buffer is in its LEB, writes do not overlap, and all bytes of the nodes are held. -/
structure Inv (s : State) : Prop where
  sized : Sized c s.1.w
  placed : ∀ l,s.1.w.lnum=some l → Placed c s.1 l
  ordered : Ordered s.1.flash
  held : ∀ x∈s.2,∀ k b,x.bytes[k]?=some b → Held s.1 x.lnum (x.offs+k) b
  fits : ∀ x∈s.2,x.offs+x.bytes.length≤c.lebSize

/-- Writes that go on from where the buffer is, up to some place. -/
def Continues (d : Disk UInt8) (l : List (Written UInt8)) (b : ℕ) : Prop :=
  match d.w.lnum with
  | none => l=[]
  | some lnum => Chained c lnum d.w.offs l b∧b≤c.lebSize

/-- What a call that does not seek keeps, and what it writes. -/
structure Keeps (d : Disk UInt8) (nodes : List (Written UInt8)) (d' : Disk UInt8) : Prop where
  inv : Inv c (d',nodes)
  lnum : d'.w.lnum=d.w.lnum
  writes : ∃ l,d'.flash=d.flash++l∧Continues c d l d'.w.offs

variable {c pad} {d d' : Disk UInt8} {nodes : List (Written UInt8)} {lnum : ℕ}

theorem align_eight (n : ℕ) : n≤align n 8∧8∣align n 8 := by
  unfold align
  omega

theorem start_inv (hc : c.Units) {flash : List (Written UInt8)} (h : Ordered flash) :
    Inv c (start c flash) where
  sized := ⟨Nat.sub_le _ _,Nat.zero_le _,hc.write_pos,fun _ => rfl,fun _ => rfl,
    List.length_replicate⟩
  placed := nofun
  ordered := h
  held := nofun
  fits := nofun

theorem Keeps.refl (inv : Inv c (d,nodes)) : Keeps c d nodes d := by
  refine ⟨inv,rfl,[],(List.append_nil _).symm,?_⟩
  unfold Continues
  cases hl : d.w.lnum with
  | none => rfl
  | some lnum =>
    have hroom := (inv.placed lnum hl).room
    dsimp only at hroom
    exact ⟨.nil _,by omega⟩

/-- A call that goes on where the buffer is, and keeps what is held. -/
theorem Advanced.keeps (h : Advanced c d d' lnum) (hl : d.w.lnum=some lnum)
    (inv : Inv c (d,nodes)) (hs : Sized c d'.w) {nodes' : List (Written UInt8)}
    (hheld : ∀ x∈nodes',∀ k b,x.bytes[k]?=some b → Held d' x.lnum (x.offs+k) b)
    (hfits : ∀ x∈nodes',x.offs+x.bytes.length≤c.lebSize) : Keeps c d nodes' d' := by
  have ⟨l,hflash,hchain⟩ := h.chained
  have hroom := h.placed.room
  refine ⟨⟨hs,?_,?_,hheld,hfits⟩,h.placed.seeked.trans hl.symm,l,hflash,?_⟩
  · intro l' hl'
    cases h.placed.seeked.symm.trans hl'
    exact h.placed
  · rw [hflash]
    exact hchain.ordered (inv.placed lnum hl).erased inv.ordered
  · unfold Continues
    rw [hl]
    exact ⟨hchain,by omega⟩

/-! ## The calls -/

theorem sync_keeps (pad : UInt8) (hc : c.Units) (inv : Inv c (d,nodes)) (called : ℤ) :
    Keeps c d nodes (syncNolock c pad d called).2 := by
  unfold syncNolock
  split
  · exact .refl inv
  next hsome =>
    have ⟨lnum,hl⟩ := Option.ne_none_iff_exists'.mp (not_or.mp hsome).2
    have ⟨d',heq,hadv,_⟩ := (inv.placed lnum hl).sync hc inv.sized pad
    have hspec : ubifsWbufSync c pad false true d=(false,d)∨_ :=
      ubifsWbufSync_spec hc.write_pos inv.sized
    rcases hspec with hfail|⟨e,hdone,hflushed,_⟩
    · cases heq.symm.trans hfail
    · cases heq.symm.trans hdone
      rw [heq]
      exact hadv.keeps hl inv hflushed.sized
        (fun x hx k b hb => .inl (hflushed.all _ _ _ (inv.held x hx k b hb))) inv.fits

theorem write_keeps (hc : c.Units) (inv : Inv c (d,nodes)) (hl : d.w.lnum=some lnum)
    {node rubbish : List UInt8} (hne : node≠[])
    (hlen : node.length+rubbish.length=align node.length 8) (called : ℤ) :
    let r := writeNolock c d node rubbish called
    Keeps c d (if r.1=0 then nodes++[⟨lnum,d.w.offs+d.w.used,node⟩] else nodes) r.2 := by
  have ⟨hle,height⟩ := align_eight node.length
  have hpos : 0<node.length := List.length_pos_iff.mpr hne
  have hbuf : (node++rubbish).length=align node.length 8 := List.length_append.trans hlen
  unfold writeNolock
  dsimp only
  split
  next hfull =>
    exact .refl inv
  next hroom =>
    have hpl := inv.placed lnum hl
    have h8 : 8∣(node++rubbish).length := by rwa [hbuf]
    rcases hpl.write hc inv.sized h8 (by omega) with ⟨_,hspace⟩|⟨d',heq,hend,hadv⟩
    · dsimp only at hspace
      omega
    · rcases ubifsWbufWrite_spec hc.write_pos inv.sized (fun _ => true) (node++rubbish) with
        ⟨e,hfail,_⟩|⟨e,l,hdone,hwrote⟩
      · cases heq.symm.trans hfail
      · cases heq.symm.trans hdone
        cases hl.symm.trans hwrote.before
        rw [heq]
        refine hadv.keeps hl inv hwrote.sized ?_ ?_
        · intro x hx k b hb
          have hcases : x∈nodes∨x=⟨lnum,d.w.offs+d.w.used,node⟩ := by
            split at hx
            · rcases List.mem_append.mp hx with hx|hx
              · exact .inl hx
              · exact .inr (List.mem_singleton.mp hx)
            · exact .inl hx
          rcases hcases with hx|rfl
          · exact hwrote.kept _ _ _ (inv.held x hx k b hb)
          · refine hwrote.held k b ?_
            rw [List.getElem?_append_left (List.getElem?_eq_some_iff.mp hb).1]
            exact hb
        · intro x hx
          split at hx
          · rcases List.mem_append.mp hx with hx|hx
            · exact inv.fits x hx
            · rw [List.mem_singleton.mp hx]
              dsimp only
              omega
          · exact inv.fits x hx

/-- What a seek does first: the buffer is empty, and all that was held is on flash. -/
theorem sync_before_seek (pad : UInt8) (hc : c.Units) (inv : Inv c (d,nodes)) :
    ∃ e,(if 0<d.w.used then ubifsWbufSync c pad false true d else (true,d))=(true,e)∧
      Keeps c d nodes e∧Flushed c d e := by
  split
  next hused =>
    have hspec : ubifsWbufSync c pad false true d=(false,d)∨_ :=
      ubifsWbufSync_spec hc.write_pos inv.sized
    cases hl : d.w.lnum with
    | none =>
      have hzero := inv.sized.seeked hl
      dsimp only at hzero
      omega
    | some lnum =>
      have ⟨d',heq,hadv,_⟩ := (inv.placed lnum hl).sync hc inv.sized pad
      rcases hspec with hfail|⟨e,hdone,hflushed,_⟩
      · cases heq.symm.trans hfail
      · cases heq.symm.trans hdone
        exact ⟨d',heq,hadv.keeps hl inv hflushed.sized
          (fun x hx k b hb => .inl (hflushed.all _ _ _ (inv.held x hx k b hb))) inv.fits,hflushed⟩
  next hused =>
    have hzero : d.w.used=0 := Nat.eq_zero_of_not_pos hused
    exact ⟨d,rfl,.refl inv,fun _ _ _ h => h.stored_of_empty hzero,inv.sized.empty hzero,inv.sized,
      rfl,rfl⟩

/-- A seek goes on where the buffer is, and then moves to erased space. -/
theorem seek_inv (hc : c.Units) (inv : Inv c (d,nodes)) {offs : ℕ} {called : ℤ}
    (hle : offs≤c.lebSize) (hunit : offs%c.minIoSize=0)
    (herased : Erased (seekNolock c pad d lnum offs called).2.flash lnum offs) :
    Inv c ((seekNolock c pad d lnum offs called).2,nodes)∧
      ∃ l b,(seekNolock c pad d lnum offs called).2.flash=d.flash++l∧Continues c d l b := by
  have hoffs := Nat.dvd_of_mod_eq_zero hunit
  have hfits := fits_sizeAt hc hoffs hle
  have ⟨e,heq,hkeeps,hflushed⟩ := sync_before_seek pad hc inv
  have ⟨l,hflash,hcont⟩ := hkeeps.writes
  have hmoved : Erased e.flash lnum offs →
      Inv c ((ubifsWbufSeek c pad false true d lnum offs).2,nodes)∧
      ∃ l b,(ubifsWbufSeek c pad false true d lnum offs).2.flash=d.flash++l∧Continues c d l b := by
    intro he
    unfold ubifsWbufSeek
    rw [heq]
    refine ⟨⟨?_,?_,hkeeps.inv.ordered,?_,inv.fits⟩,l,_,hflash,hcont⟩
    · exact ⟨sizeAt_le hc.write_pos _,Nat.zero_le _,hc.write_pos,nofun,fun _ => hflushed.none,
        hflushed.sized.entries⟩
    · rintro l' ⟨⟩
      exact ⟨rfl,hoffs,hfits.unit,hfits.room,hfits.last,⟨0,rfl⟩,he⟩
    · intro x hx k b hb
      exact .inl (hflushed.all _ _ _ (inv.held x hx k b hb))
  have hseek : (ubifsWbufSeek c pad false true d lnum offs).2.flash=e.flash := by
    unfold ubifsWbufSeek
    rw [heq]
  have hcases : (seekNolock c pad d lnum offs called).2=(syncNolock c pad d called).2∨
      (seekNolock c pad d lnum offs called).2=(ubifsWbufSeek c pad false true d lnum offs).2 := by
    unfold seekNolock
    dsimp only
    by_cases hused : 0<d.w.used
    · rw [if_pos hused]
      split
      · exact .inl rfl
      · exact .inr rfl
    · rw [if_neg hused]
      exact .inr rfl
  rcases hcases with hr|hr
  · rw [hr]
    have hsync := sync_keeps pad hc inv called
    have ⟨l',hflash',hcont'⟩ := hsync.writes
    exact ⟨hsync.inv,l',_,hflash',hcont'⟩
  · rw [hr] at herased ⊢
    rw [hseek] at herased
    exact hmoved herased

/-- Whether a call moves the buffer. -/
def Call.seeks : Call → Bool
  | .seek _ _ _ => true
  | _ => false

/-- A step keeps the invariant, and its writes go on where the buffer is. -/
theorem step_inv (hc : c.Units) {s s' : State} {e : Call} (inv : Inv c s)
    (hstep : step c pad s e=some s') :
    Inv c s'∧∃ l b,s'.1.flash=s.1.flash++l∧Continues c s.1 l b∧
      (e.seeks=false → s'.1.w.offs=b∧s'.1.w.lnum=s.1.w.lnum) := by
  cases e with
  | seek lnum offs called =>
    unfold step at hstep
    dsimp only at hstep
    split at hstep
    next hallowed =>
      cases hstep
      have ⟨hinv,l,b,hflash,hcont⟩ := seek_inv hc inv hallowed.1 hallowed.2.1 hallowed.2.2
      exact ⟨hinv,l,b,hflash,hcont,nofun⟩
    · cases hstep
  | write node rubbish called =>
    unfold step at hstep
    dsimp only at hstep
    split at hstep
    · cases hstep
    next lnum hl =>
      split at hstep
      next hallowed =>
        cases hstep
        have hkeeps := write_keeps hc inv hl hallowed.1 hallowed.2 called
        have ⟨l,hflash,hcont⟩ := hkeeps.writes
        exact ⟨hkeeps.inv,l,_,hflash,hcont,fun _ => ⟨rfl,hkeeps.lnum⟩⟩
      · cases hstep
  | sync called =>
    cases hstep
    have hkeeps := sync_keeps pad hc inv called
    have ⟨l,hflash,hcont⟩ := hkeeps.writes
    exact ⟨hkeeps.inv,l,_,hflash,hcont,fun _ => ⟨rfl,hkeeps.lnum⟩⟩

/-- What a write copies stays in the buffer. -/
theorem copies_within (hc : c.Units) {w : Wbuf UInt8} (hs : Sized c w) {len : ℕ} {x : ℕ×ℕ}
    (hx : x∈copies c w len) : x.1+x.2≤c.maxWriteSize := by
  have ⟨hle,_⟩ := align_eight len
  have hsize := hs.size
  have havail : w.used+w.avail=w.size := Nat.add_sub_cancel' hs.fits
  unfold copies at hx
  dsimp only at hx
  split at hx
  · cases hx
  · split at hx
    · rw [List.mem_singleton.mp hx]
      omega
    · generalize (if 0<w.used then w.avail
        else if w.offs%c.maxWriteSize≠0 then w.size else 0)=written at hx
      rcases List.mem_append.mp hx with hx|hx
      · split at hx
        · rw [List.mem_singleton.mp hx]
          omega
        · cases hx
      · split at hx
        · rw [List.mem_singleton.mp hx]
          have hdm := Nat.div_add_mod' (align len 8-written) c.maxWriteSize
          have hlt := Nat.mod_lt (align len 8-written) hc.write_pos
          omega
        · cases hx

/-! ## What holds at any time -/

/-- Nothing is lost or misplaced. -/
structure Sound (c : Info) (pad : UInt8) (s : State) : Prop where
  /-- Every node is read as it was written. -/
  read : ∀ x∈s.2,∀ erased k type,
    readWbuf erased s.1 x.bytes.length x.lnum x.offs=x.bytes∧
      (IsNode k type x.bytes →
        ubifsReadNodeWbuf c k erased s.1 type x.bytes.length x.lnum x.offs=(0,x.bytes))
  /-- Whatever is called next, its writes go on where the buffer is. -/
  writes : ∀ e s',step c pad s e=some s' → ∃ l b,s'.1.flash=s.1.flash++l∧Continues c s.1 l b∧
    (e.seeks=false → s'.1.w.offs=b∧s'.1.w.lnum=s.1.w.lnum)
  ordered : Ordered s.1.flash
  avail : s.1.w.used+s.1.w.avail=s.1.w.size
  room : ∀ lnum,s.1.w.lnum=some lnum →
    c.minIoSize∣s.1.w.offs∧s.1.w.offs+s.1.w.size≤c.lebSize
  /-- What is copied to the buffer, and padded, stays in it. -/
  copies : ∀ len x,x∈copies c s.1.w len → x.1+x.2≤c.maxWriteSize
  padded : ∀ lnum,s.1.w.lnum=some lnum → align s.1.w.used c.minIoSize≤c.maxWriteSize
  /-- A write fails for lack of space exactly if there is none, and changes nothing. -/
  full : ∀ lnum,s.1.w.lnum=some lnum → ∀ node rubbish called,called≠-ENOSPC →
    ((writeNolock c s.1 node rubbish called).1=-ENOSPC↔
      (c.lebSize : ℤ)-s.1.w.offs-s.1.w.used<align node.length 8)∧
    ((writeNolock c s.1 node rubbish called).1=-ENOSPC →
      (writeNolock c s.1 node rubbish called).2=s.1)

theorem Inv.sound {s : State} (hc : c.Units) (inv : Inv c s) : Sound c pad s where
  read x hx erased k type := by
    have hread : readWbuf erased s.1 x.bytes.length x.lnum x.offs=x.bytes :=
      readWbuf_held inv.placed inv.ordered (inv.held x hx)
    exact ⟨hread,fun hnode => hnode.read hread (inv.fits x hx)⟩
  writes e s' hstep := (step_inv hc inv hstep).2
  ordered := inv.ordered
  avail := Nat.add_sub_cancel' inv.sized.fits
  room lnum hl := ⟨(inv.placed lnum hl).offs,(inv.placed lnum hl).room⟩
  copies len x hx := copies_within hc inv.sized hx
  padded lnum hl := by
    have hpos : 0<c.minIoSize := Nat.lt_of_lt_of_le (by decide) hc.eight
    exact (align_le_size hpos (inv.placed lnum hl).size inv.sized.fits).2.trans inv.sized.size
  full lnum hl node rubbish called hcalled := by
    unfold writeNolock
    split
    next hfull => exact ⟨iff_of_true rfl hfull,fun _ => rfl⟩
    next hroom => exact ⟨iff_of_false hcalled hroom,fun heq => absurd heq hcalled⟩

/-- In any sequence of seeks to erased space, writes and synchronizations, whatever was on flash
before, the write-buffer loses and misplaces nothing. -/
theorem wbuf_sound (hc : c.Units) {flash : List (Written UInt8)} (hflash : Ordered flash)
    {es : List Call} {s : State} (h : Run (step c pad) (fun _ _ => True) (start c flash) es s) :
    Sound c pad s :=
  (h.invariant (Inv c) (start_inv hc hflash) fun inv _ hstep => (step_inv hc inv hstep).1).sound hc

/-- Units of 8 and 32 bytes, in LEBs of 80. -/
def tinyUnits : Info := ⟨80,8,32,0⟩

theorem tinyUnits_units : tinyUnits.Units where
  eight := le_rfl
  unit := ⟨3,rfl⟩
  write := ⟨5,rfl⟩
  dvd := ⟨4,rfl⟩
  leb := ⟨10,rfl⟩

/-- After a short node and a synchronization, a long node is partly on flash and partly in the
buffer. -/
theorem wbuf_sound_example :
    ∃ s,Run (step tinyUnits 0) (fun _ _ => True) (start tinyUnits [])
      [.seek 5 0 0,.write [1,2,3] [0,0,0,0,0] 0,.sync 0,
        .write (List.replicate 45 7) [0,0,0] 0] s∧
      s.1.flash=[⟨5,0,[1,2,3,0,0,0,0,0]⟩,⟨5,8,List.replicate 24 7⟩]∧s.1.w.used=24∧
      readWbuf 255 s.1 45 5 8=List.replicate 45 7 := by
  have hrun : Run (step tinyUnits 0) (fun _ _ => True) (start tinyUnits [])
      [.seek 5 0 0,.write [1,2,3] [0,0,0,0,0] 0,.sync 0,
        .write (List.replicate 45 7) [0,0,0] 0] _ :=
    Run.cons trivial rfl <| Run.cons trivial rfl <| Run.cons trivial rfl <|
      Run.cons trivial rfl (Run.nil _)
  have hsound := wbuf_sound tinyUnits_units List.Pairwise.nil hrun
  have hread := (hsound.read ⟨5,8,List.replicate 45 7⟩ (List.mem_cons_of_mem _ List.mem_cons_self)
    255 ⟨fun _ => ⟨0,0⟩,false,false,false,fun _ _ => 0⟩ 0).1
  exact ⟨_,hrun,rfl,rfl,hread⟩

end ArdroneKernel.UbifsWbuf
