import ArdroneKernel.UbifsWbuf
import Mathlib.Data.List.Basic

/-!
# Where the bytes of a write-buffer are

Each byte that was given to a write-buffer is on flash or in the buffer, and when the
buffer is flushed all that were given before are on flash.
-/

namespace ArdroneKernel.UbifsWbuf

variable {β : Type} {c : Info} {d d' : Disk β} {flash : List (Written β)} {lnum pos : ℕ} {b : β}

/-- A byte that was written to a place on flash. -/
def Stored (flash : List (Written β)) (lnum pos : ℕ) (b : β) : Prop :=
  ∃ x∈flash,x.lnum=lnum∧x.offs≤pos∧x.bytes[pos-x.offs]?=some b

/-- A byte for a place on flash that is there or in the write-buffer. -/
def Held (d : Disk β) (lnum pos : ℕ) (b : β) : Prop :=
  Stored d.flash lnum pos b∨d.w.lnum=some lnum∧d.w.offs≤pos∧d.w.buf[pos-d.w.offs]?=some b

theorem Stored.append (h : Stored flash lnum pos b) (l : List (Written β)) :
    Stored (flash++l) lnum pos b := by
  have ⟨x,hx,hrest⟩ := h
  exact ⟨x,List.mem_append_left l hx,hrest⟩

theorem stored_last {offs : ℕ} {bytes : List β} (hle : offs≤pos)
    (hb : bytes[pos-offs]?=some b) : Stored (flash++[⟨lnum,offs,bytes⟩]) lnum pos b :=
  ⟨⟨lnum,offs,bytes⟩,List.mem_append_right _ List.mem_cons_self,rfl,hle,hb⟩

/-- What is written from the buffer on. -/
theorem stored_buf (h : Held d lnum pos b) {l : ℕ} (hl : d.w.lnum=some l) (bytes : List β) :
    Stored (d.flash++[⟨l,d.w.offs,d.w.buf++bytes⟩]) lnum pos b := by
  rcases h with h|⟨hlnum,hle,hb⟩
  · exact h.append _
  · rw [hl] at hlnum
    cases hlnum
    refine stored_last hle ?_
    rw [List.getElem?_append_left (List.getElem?_eq_some_iff.mp hb).1]
    exact hb

/-- What is held is on flash when the buffer is empty. -/
theorem Held.stored_of_empty (h : Held d lnum pos b) (hzero : d.w.used=0) :
    Stored d.flash lnum pos b := by
  rcases h with h|⟨_,_,hb⟩
  · exact h
  · rw [List.length_eq_zero_iff.mp hzero,List.getElem?_nil] at hb
    cases hb

theorem getElem?_after (l bytes : List β) (k : ℕ) : (l++bytes)[l.length+k]?=bytes[k]? := by
  rw [List.getElem?_append_right (Nat.le_add_right _ _),Nat.add_sub_cancel_left]

/-! ## Sizes -/

theorem Info.Accepted.maxWriteSize_pos (hc : c.Accepted) : 0<c.maxWriteSize := by
  have ⟨k,hk⟩ := hc.write
  rw [hk]
  exact Nat.two_pow_pos k

/-- What holds of a write-buffer at any time. -/
structure Sized (c : Info) (w : Wbuf β) : Prop where
  size : w.size≤c.maxWriteSize
  fits : w.used≤w.size
  short : w.used<c.maxWriteSize
  seeked : w.lnum=none → w.used=0
  /-- Nothing in the buffer, no inode numbers in the array. -/
  empty : w.used=0 → w.nextIno=0
  entries : w.inodes.length=c.maxWriteSize/CH_SZ+1

theorem nextSize_le (offs : ℕ) : nextSize c offs≤c.maxWriteSize := by
  unfold nextSize
  split
  · exact le_rfl
  · omega

theorem sizeAt_le (hpos : 0<c.maxWriteSize) (offs : ℕ) : sizeAt c offs≤c.maxWriteSize := by
  unfold sizeAt
  split
  · omega
  · split
    · have := Nat.div_mul_le_self (offs+(c.maxWriteSize-1)) c.maxWriteSize
      unfold align
      omega
    · exact le_rfl

/-- What a write-buffer of some bytes has left in it after some more. -/
def leftover (c : Info) (w : Wbuf β) (len : ℕ) : ℕ :=
  if len<w.avail then w.used+len
  else if len=w.avail then 0
  else (len-if 0<w.used then w.avail else if w.offs%c.maxWriteSize≠0 then w.size else 0)%
    c.maxWriteSize

/-! ## Sync -/

/-- Everything that was given to the write-buffer is on flash. -/
structure Flushed (c : Info) (d d' : Disk β) : Prop where
  all : ∀ lnum pos b,Held d lnum pos b → Stored d'.flash lnum pos b
  none : d'.w.nextIno=0
  sized : Sized c d'.w
  lnum : d'.w.lnum=d.w.lnum
  inodes : d'.w.inodes=d.w.inodes

theorem ubifsWbufSync_spec (hpos : 0<c.maxWriteSize) (hs : Sized c d.w) {pad : β}
    {roError ok : Bool} :
    ubifsWbufSync c pad roError ok d=(false,d)∨
      ∃ d',ubifsWbufSync c pad roError ok d=(true,d')∧Flushed c d d'∧d'.w.used=0 := by
  have hsame : d.w.used=0 → Flushed c d d := fun hzero =>
    ⟨fun lnum pos b h => h.stored_of_empty hzero,hs.empty hzero,hs,rfl,rfl⟩
  unfold ubifsWbufSync
  cases hl : d.w.lnum with
  | none => exact .inr ⟨d,rfl,hsame (hs.seeked hl),hs.seeked hl⟩
  | some lnum =>
    dsimp only
    by_cases hzero : d.w.used=0
    · rw [if_pos hzero]
      exact .inr ⟨d,rfl,hsame hzero,hzero⟩
    · rw [if_neg hzero]
      cases roError with
      | true => exact .inl rfl
      | false =>
        cases ok with
        | false => exact .inl rfl
        | true =>
          refine .inr ⟨_,rfl,⟨fun l pos b h => stored_buf h hl _,rfl,?_,rfl,rfl⟩,rfl⟩
          exact ⟨sizeAt_le hpos _,Nat.zero_le _,hpos,fun _ => rfl,fun _ => rfl,hs.entries⟩

theorem ubifsWbufSeek_spec (hpos : 0<c.maxWriteSize) (hs : Sized c d.w) (pad : β)
    (roError ok : Bool) (l offs : ℕ) :
    ubifsWbufSeek c pad roError ok d l offs=(false,d)∨
      ∃ d',ubifsWbufSeek c pad roError ok d l offs=(true,d')∧
        (∀ lnum pos b,Held d lnum pos b → Stored d'.flash lnum pos b)∧Sized c d'.w∧
        d'.w.used=0∧d'.w.lnum=some l∧d'.w.inodes=d.w.inodes := by
  have hstart : (if 0<d.w.used then ubifsWbufSync c pad roError ok d else (true,d))=(false,d)∨
      ∃ d',(if 0<d.w.used then ubifsWbufSync c pad roError ok d else (true,d))=(true,d')∧
        Flushed c d d'∧d'.w.used=0 := by
    by_cases hused : 0<d.w.used
    · rw [if_pos hused]
      exact ubifsWbufSync_spec hpos hs
    · rw [if_neg hused]
      have hzero : d.w.used=0 := Nat.eq_zero_of_not_pos hused
      exact .inr ⟨d,rfl,⟨fun lnum pos b h => h.stored_of_empty hzero,hs.empty hzero,hs,rfl,rfl⟩,
        hzero⟩
  unfold ubifsWbufSeek
  rcases hstart with heq|⟨d',heq,hf,hzero⟩
  · rw [heq]
    exact .inl rfl
  · rw [heq]
    refine .inr ⟨_,rfl,hf.all,?_,rfl,rfl,hf.inodes⟩
    exact ⟨sizeAt_le hpos _,Nat.zero_le _,hpos,nofun,fun _ => hf.none,hf.sized.entries⟩

/-! ## Write -/

/-- What the end of a write leaves. -/
structure Ended (c : Info) (d d' : Disk β) (l offs : ℕ) (rest : List β) : Prop where
  stored : ∀ lnum pos b,Stored d.flash lnum pos b → Stored d'.flash lnum pos b
  held : ∀ k b,rest[k]?=some b → Held d' l (offs+k) b
  lnum : d'.w.lnum=d.w.lnum
  inodes : d'.w.inodes=d.w.inodes
  none : d'.w.nextIno=0
  used : d'.w.used=rest.length%c.maxWriteSize
  size : d'.w.size=nextSize c d'.w.offs
  offs : d'.w.offs+d'.w.used=offs+rest.length

theorem writeRest_spec (c : Info) (d : Disk β) {l : ℕ} (offs : ℕ) (hl : d.w.lnum=some l)
    (ok : Bool) (rest : List β) :
    writeRest c ok d l offs rest=(false,d)∨
      ∃ d',writeRest c ok d l offs rest=(true,d')∧Ended c d d' l offs rest := by
  unfold writeRest
  have hdm := Nat.div_add_mod' rest.length c.maxWriteSize
  set n := rest.length/c.maxWriteSize*c.maxWriteSize with hn
  by_cases hfail : n≠0∧ok=false
  · rw [if_pos hfail]
    exact .inl rfl
  · rw [if_neg hfail]
    have hlen : (rest.drop n).length=rest.length%c.maxWriteSize := by
      rw [List.length_drop]
      omega
    refine .inr ⟨_,rfl,fun lnum pos b h => ?_,fun k b hb => ?_,rfl,rfl,rfl,hlen,rfl,?_⟩
    · split
      · exact h.append _
      · exact h
    · by_cases hk : k<n
      · left
        rw [if_pos (by omega : n≠0)]
        refine stored_last (Nat.le_add_right _ _) ?_
        rw [Nat.add_sub_cancel_left,List.getElem?_take_of_lt hk]
        exact hb
      · right
        refine ⟨hl,by dsimp only; omega,?_⟩
        rw [List.getElem?_drop,show n+(offs+k-(offs+n))=k by omega]
        exact hb
    · unfold Wbuf.used
      dsimp only
      omega

/-- What a write leaves. -/
structure Wrote (c : Info) (d d' : Disk β) (l : ℕ) (buf : List β) : Prop where
  before : d.w.lnum=some l
  lnum : d'.w.lnum=some l
  stored : ∀ lnum pos b,Stored d.flash lnum pos b → Stored d'.flash lnum pos b
  kept : ∀ lnum pos b,Held d lnum pos b → Held d' lnum pos b
  held : ∀ k b,buf[k]?=some b → Held d' l (d.w.offs+d.w.used+k) b
  sized : Sized c d'.w
  inodes : d'.w.inodes=d.w.inodes
  used : d'.w.used=leftover c d.w buf.length
  /-- Either nothing was flushed, or everything that was in the buffer. -/
  index : (buf.length<d.w.avail∧d'.w.nextIno=d.w.nextIno)∨
    (d'.w.nextIno=0∧¬buf.length<d.w.avail∧
      ∀ lnum pos b,Held d lnum pos b → Stored d'.flash lnum pos b)

theorem Ended.sized {l offs : ℕ} {rest : List β} (he : Ended c d d' l offs rest)
    (hpos : 0<c.maxWriteSize) (hs : Sized c d.w) (hl : d.w.lnum=some l)
    (hroom : offs+rest.length≤c.lebSize) : Sized c d'.w where
  size := by
    rw [he.size]
    exact nextSize_le _
  fits := by
    have hlt : d'.w.used<c.maxWriteSize := by
      rw [he.used]
      exact Nat.mod_lt _ hpos
    have := he.offs
    rw [he.size]
    unfold nextSize
    split
    · exact hlt.le
    · omega
  short := by
    rw [he.used]
    exact Nat.mod_lt _ hpos
  seeked h := by
    rw [he.lnum,hl] at h
    cases h
  empty _ := he.none
  entries := by
    rw [he.inodes]
    exact hs.entries

/-- The write of a part of a node that fills the buffer, and then of the rest. -/
theorem Ended.wrote {l first : ℕ} {buf : List β} {e : Disk β}
    (he : Ended c e d' l (d.w.offs+d.w.used+first) (buf.drop first)) (hew : e.w=d.w)
    (hpos : 0<c.maxWriteSize) (hs : Sized c d.w) (hl : d.w.lnum=some l)
    (hroom : d.w.offs+d.w.used+buf.length≤c.lebSize) (hfirst : first≤buf.length)
    (hbig : ¬buf.length<d.w.avail) (hused : leftover c d.w buf.length=(buf.length-first)%c.maxWriteSize)
    (hstored : ∀ lnum pos b,Held d lnum pos b → Stored e.flash lnum pos b)
    (hnew : ∀ k b,k<first → buf[k]?=some b → Stored e.flash l (d.w.offs+d.w.used+k) b) :
    Wrote c d d' l buf where
  before := hl
  lnum := by rw [he.lnum,hew,hl]
  stored lnum pos b h := he.stored lnum pos b (hstored lnum pos b (.inl h))
  kept lnum pos b h := .inl (he.stored lnum pos b (hstored lnum pos b h))
  held k b hb := by
    by_cases hk : k<first
    · exact .inl (he.stored _ _ _ (hnew k b hk hb))
    · have hrest := he.held (k-first) b (by
        rw [List.getElem?_drop,show first+(k-first)=k by omega]
        exact hb)
      rw [show d.w.offs+d.w.used+first+(k-first)=d.w.offs+d.w.used+k by omega] at hrest
      exact hrest
  sized := he.sized hpos (hew▸hs) (by rw [hew,hl]) (by rw [List.length_drop]; omega)
  inodes := by rw [he.inodes,hew]
  used := by rw [he.used,List.length_drop,hused]
  index := .inr ⟨he.none,hbig,fun lnum pos b h => he.stored lnum pos b (hstored lnum pos b h)⟩

/-- A write that fails changes nothing in the buffer. -/
structure Failed (d d' : Disk β) : Prop where
  w : d'.w=d.w
  stored : ∀ lnum pos b,Stored d.flash lnum pos b → Stored d'.flash lnum pos b

theorem Failed.held (h : Failed d d') (hh : Held d lnum pos b) : Held d' lnum pos b := by
  rcases hh with hh|hh
  · exact .inl (h.stored _ _ _ hh)
  · right
    rw [h.w]
    exact hh

theorem ubifsWbufWrite_spec (hpos : 0<c.maxWriteSize) (hs : Sized c d.w) (ok : ℕ → Bool)
    (buf : List β) : (∃ d',ubifsWbufWrite c ok d buf=(false,d')∧Failed d d')∨
      ∃ d' l,ubifsWbufWrite c ok d buf=(true,d')∧Wrote c d d' l buf := by
  have hfailed : Failed d d := ⟨rfl,fun _ _ _ h => h⟩
  unfold ubifsWbufWrite
  dsimp only
  cases hl : d.w.lnum with
  | none => exact .inl ⟨d,rfl,hfailed⟩
  | some l =>
    dsimp only
    by_cases hspace : c.lebSize<d.w.offs+d.w.used+buf.length
    · rw [if_pos hspace]
      exact .inl ⟨d,rfl,hfailed⟩
    rw [if_neg hspace]
    have hroom := not_lt.mp hspace
    have havail : d.w.used+d.w.avail=d.w.size := Nat.add_sub_cancel' hs.fits
    by_cases hle : buf.length≤d.w.avail
    · rw [if_pos hle]
      by_cases heq : buf.length=d.w.avail
      · rw [if_pos heq]
        cases ok 0 with
        | false => exact .inl ⟨d,rfl,hfailed⟩
        | true =>
          have hstored := fun lnum pos b (h : Held d lnum pos b) => stored_buf h hl buf
          refine .inr ⟨_,l,rfl,hl,rfl,fun _ _ _ h => h.append _,fun lnum pos b h =>
            .inl (hstored lnum pos b h),fun k b hb => .inl (stored_last (by omega) ?_),?_,rfl,?_,
            .inr ⟨rfl,by omega,hstored⟩⟩
          · rw [show d.w.offs+d.w.used+k-d.w.offs=d.w.buf.length+k by unfold Wbuf.used; omega,
              getElem?_after]
            exact hb
          · exact ⟨nextSize_le _,Nat.zero_le _,hpos,nofun,fun _ => rfl,hs.entries⟩
          · unfold leftover
            rw [if_neg (by omega),if_pos heq]
            rfl
      · rw [if_neg heq]
        have hlt : buf.length<d.w.avail := lt_of_le_of_ne hle heq
        have hused : (d.w.buf++buf).length=d.w.used+buf.length := List.length_append
        refine .inr ⟨_,l,rfl,hl,rfl,fun _ _ _ h => h,fun lnum pos b h => ?_,fun k b hb => ?_,?_,rfl,
          ?_,.inl ⟨hlt,rfl⟩⟩
        · rcases h with h|⟨hlnum,hpos,hb⟩
          · exact .inl h
          · right
            refine ⟨by rw [←hlnum,hl],hpos,?_⟩
            rw [List.getElem?_append_left (List.getElem?_eq_some_iff.mp hb).1]
            exact hb
        · right
          refine ⟨rfl,by dsimp only; omega,?_⟩
          rw [show d.w.offs+d.w.used+k-d.w.offs=d.w.buf.length+k by unfold Wbuf.used; omega,
            getElem?_after]
          exact hb
        · have hsize := hs.size
          refine ⟨hs.size,?_,?_,nofun,fun h => hs.empty ?_,hs.entries⟩
          · unfold Wbuf.used
            dsimp only
            omega
          · unfold Wbuf.used
            dsimp only
            omega
          · unfold Wbuf.used at h
            dsimp only at h
            omega
        · unfold leftover
          rw [if_pos hlt]
          exact hused
    · rw [if_neg hle]
      have hnot : ¬buf.length<d.w.avail := by omega
      have hne : ¬buf.length=d.w.avail := by omega
      by_cases hused : 0<d.w.used
      · rw [if_pos hused]
        cases ok 0 with
        | false => exact .inl ⟨d,rfl,hfailed⟩
        | true =>
          set e : Disk β := {d with flash := d.flash++[⟨l,d.w.offs,d.w.buf++buf.take d.w.avail⟩]}
          rcases writeRest_spec c e (d.w.offs+d.w.size) (show e.w.lnum=some l from hl) (ok 1)
            (buf.drop d.w.avail) with hf|⟨d',heq,he⟩
          · rw [hf]
            exact .inl ⟨e,rfl,rfl,fun _ _ _ h => h.append _⟩
          · rw [heq]
            rw [show d.w.offs+d.w.size=d.w.offs+d.w.used+d.w.avail by omega] at he
            refine .inr ⟨d',l,rfl,he.wrote rfl hpos hs hl hroom (by omega) hnot ?_
              (fun _ _ _ h => stored_buf h hl _) fun k b hk hb => stored_last (by omega) ?_⟩
            · unfold leftover
              rw [if_neg hnot,if_neg hne,if_pos hused]
            · rw [show d.w.offs+d.w.used+k-d.w.offs=d.w.buf.length+k by unfold Wbuf.used; omega,
                getElem?_after,List.getElem?_take_of_lt hk]
              exact hb
      · rw [if_neg hused]
        have hzero : d.w.used=0 := Nat.eq_zero_of_not_pos hused
        have hstored : ∀ lnum pos b,Held d lnum pos b → Stored d.flash lnum pos b :=
          fun _ _ _ h => h.stored_of_empty hzero
        by_cases hoffs : d.w.offs%c.maxWriteSize≠0
        · rw [if_pos hoffs]
          cases ok 0 with
          | false => exact .inl ⟨d,rfl,hfailed⟩
          | true =>
            set e : Disk β := {d with flash := d.flash++[⟨l,d.w.offs,buf.take d.w.size⟩]}
            rcases writeRest_spec c e (d.w.offs+d.w.size) (show e.w.lnum=some l from hl) (ok 1)
              (buf.drop d.w.size) with hf|⟨d',heq,he⟩
            · rw [hf]
              exact .inl ⟨e,rfl,rfl,fun _ _ _ h => h.append _⟩
            · rw [heq]
              rw [show d.w.offs+d.w.size=d.w.offs+d.w.used+d.w.size by omega] at he
              refine .inr ⟨d',l,rfl,he.wrote rfl hpos hs hl hroom (by omega) hnot ?_
                (fun _ _ _ h => (hstored _ _ _ h).append _) fun k b hk hb =>
                  stored_last (by omega) ?_⟩
              · unfold leftover
                rw [if_neg hnot,if_neg hne,if_neg hused,if_pos hoffs]
              · rw [show d.w.offs+d.w.used+k-d.w.offs=k by omega,List.getElem?_take_of_lt hk]
                exact hb
        · rw [if_neg hoffs]
          rcases writeRest_spec c d d.w.offs hl (ok 1) buf with hf|⟨d',heq,he⟩
          · rw [hf]
            exact .inl ⟨d,rfl,hfailed⟩
          · rw [heq]
            have he' : Ended c d d' l (d.w.offs+d.w.used+0) (buf.drop 0) := by
              rw [hzero,List.drop_zero]
              exact he
            refine .inr ⟨d',l,rfl,he'.wrote rfl hpos hs hl hroom (Nat.zero_le _) hnot ?_ hstored
              fun k b hk => absurd hk (Nat.not_lt_zero k)⟩
            unfold leftover
            rw [if_neg hnot,if_neg hne,if_neg hused,if_neg hoffs]

end ArdroneKernel.UbifsWbuf
