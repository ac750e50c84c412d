import ArdroneKernel.Execution
import ArdroneKernel.UbifsJournal
import ArdroneKernel.UbifsWbufBytes

/-!
# What `fsync` of UBIFS makes durable

A node that has not reached the flash is in a write-buffer whose array has the numbers of
the inodes it was written for. `ubifs_jnl_change_xattr` and `ubifs_jnl_rename` can leave
nodes of a synchronous directory or host in a write-buffer, and the array can be too
short for write units of 16 and 32 bytes.
-/

namespace ArdroneKernel.UbifsJournal

open UbifsWbuf

variable {β : Type} {c : Info} {pad : β} {s s' : State β} {d d' e : Disk β}

/-- All bytes of the nodes are on flash. -/
def Group.OnFlash (flash : List (Written β)) (x : Group β) : Prop :=
  ∀ k b,x.bytes[k]?=some b → Stored flash x.lnum (x.offs+k) b

/-- The inodes of attributes that were deleted. -/
def State.removed (s : State β) : List ℕ := s.groups.flatMap fun x => x.op.removed

/-- What is promised of a journal. -/
structure Durable (c : Info) (pad : β) (s : State β) : Prop where
  /-- `ubifs_sync_wbufs_by_inode` that succeeds. -/
  fsync : ∀ inum ok s',inum∉s.removed → ubifsSyncWbufsByInode c pad s inum ok=(true,s') →
    ∀ x∈s.groups,inum∈x.op.owners → x.OnFlash s'.flash
  synchronous : ∀ x∈s.groups,x.op.synchronous=true → x.OnFlash s.flash
  /-- The next index is only one more than the last one that was used. -/
  bounds : ∀ head,(s.wbufs head).nextIno≤(s.wbufs head).inodes.length

/-- The operation asks for what it owes to a synchronous directory or host. -/
def Op.Asks : Op → Prop
  | .changeXattr _ host => host.dirsync=false
  | .rename oldInode oldDir newDir _ _ _ =>
    (oldDir.dirsync||newDir.dirsync)=true → oldInode.sync=true
  | _ => True

/-- The inode numbers of an operation fit into the array of a write-buffer. -/
def Fits (w : Wbuf β) (op : Op) (len : ℕ) : Prop :=
  (if len<w.avail then w.nextIno else 0)+op.request.inos.length≤w.inodes.length

/-- The operations that leave something in a write-buffer ask for what they owe, and have
room in its array. -/
def Careful (c : Info) (pad : β) (s : State β) : Event β → Prop
  | .jnl op content space seekOk _ =>
    let d := (reserveSpace c pad s op.request.head op.request.len space seekOk).2
    leftover c d.w (op.bytes content).length=0∨
      op.Asks∧(64≤c.maxWriteSize∨Fits d.w op (op.bytes content).length)
  | _ => True

/-! ## What the operations ask for -/

theorem le_align (n : ℕ) : n≤align n 8∧align n 8%8=0 := by
  unfold align
  omega

/-- The numbers are added for all inodes, or everything is synchronised. -/
theorem Op.inos_of_not_sync (op : Op) (hasks : op.Asks) (hsync : op.request.sync=false) :
    ∀ i∈op.owners,i∉op.removed → i∈op.request.inos := by
  intro i hi hnot
  cases op with
  | update dir inode nameLen deletion =>
    unfold Op.request jnlUpdate at hsync ⊢
    dsimp only at hsync ⊢
    rw [hsync]
    exact hi
  | writeData inum outLen => exact hi
  | writeInode inode =>
    unfold Op.request jnlWriteInode at hsync ⊢
    dsimp only at hsync ⊢
    rw [hsync]
    exact hi
  | rename oldInode oldDir newDir newInode oldNameLen newNameLen =>
    unfold Op.request jnlRename at hsync ⊢
    dsimp only at hsync ⊢
    rw [hsync]
    cases newInode with
    | none => exact hi
    | some inode => exact hi
  | truncate inode dlen =>
    unfold Op.request jnlTruncate at hsync ⊢
    dsimp only at hsync ⊢
    rw [hsync]
    exact hi
  | deleteXattr host inode nameLen =>
    unfold Op.request jnlDeleteXattr at hsync ⊢
    dsimp only at hsync ⊢
    rw [hsync]
    rcases List.mem_cons.mp hi with hhost|hino
    · exact List.mem_cons.mpr (.inl hhost)
    · exact absurd hino hnot
  | changeXattr inode host =>
    have hhost : host.dirsync=false := hasks
    unfold Op.request jnlChangeXattr
    dsimp only
    rw [hhost]
    exact hi

theorem Op.sync_of_synchronous (op : Op) (hasks : op.Asks) (h : op.synchronous=true) :
    op.request.sync=true := by
  cases op with
  | update dir inode nameLen deletion =>
    have hdir : dir.dirsync=true := h
    unfold Op.request jnlUpdate
    dsimp only
    rw [hdir,Bool.true_or]
  | writeData inum outLen => cases h
  | writeInode inode => cases h
  | rename oldInode oldDir newDir newInode oldNameLen newNameLen =>
    have hdirs : (oldDir.dirsync||newDir.dirsync)=true := h
    have hold : oldInode.sync=true := hasks hdirs
    unfold Op.request jnlRename renameSync
    dsimp only
    rw [hold,if_pos rfl,hdirs,Bool.true_or]
  | truncate inode dlen => cases h
  | deleteXattr host inode nameLen => exact h
  | changeXattr inode host =>
    have hhost : host.dirsync=false := hasks
    have hhost' : host.dirsync=true := h
    rw [hhost] at hhost'
    cases hhost'

/-- Bytes that are written for each inode number at least. -/
def entryLen : Jhead → ℕ
  | .base => 144
  | _ => 48

/-- Inode numbers that one operation adds at most. -/
def most : Jhead → ℕ
  | .base => 3
  | _ => 1

theorem length_unless (b : Bool) (l : List ℕ) : (if b=true then [] else l).length≤l.length := by
  cases b with
  | false => exact le_rfl
  | true => exact Nat.zero_le _

/-- An operation writes enough for the inode numbers it adds. -/
theorem Op.inos_length (op : Op) : op.request.head≠.gc∧op.request.inos.length≤ most op.request.head∧
    entryLen op.request.head*op.request.inos.length≤align op.request.len 8 := by
  have hino : INO_NODE_SZ=160 := rfl
  have hdent : DENT_NODE_SZ=56 := rfl
  have hinode : ∀ (p : Prop) [Decidable p] (n : ℕ),
      INO_NODE_SZ≤ if p then INO_NODE_SZ else INO_NODE_SZ+n := by
    intro p _ n
    split
    · exact le_rfl
    · exact Nat.le_add_right _ _
  have hbase : ∀ {l : List ℕ} {len : ℕ} (b : Bool),l.length≤3 → 144*l.length≤len →
      (if b=true then [] else l).length≤ most .base∧
      entryLen .base*(if b=true then [] else l).length≤align len 8 := by
    intro l len b hmost hlen
    have hb := length_unless b l
    have halign := (le_align len).1
    exact ⟨hb.trans hmost,((Nat.mul_le_mul_left 144 hb).trans hlen).trans halign⟩
  cases op with
  | update dir inode nameLen deletion =>
    refine ⟨Jhead.noConfusion,hbase _ (show 2≤3 by decide) ?_⟩
    have hilen := (le_align (if (deletion&&inode.nlink==0)=true then INO_NODE_SZ
      else INO_NODE_SZ+inode.dataLen)).1
    have := hinode ((deletion&&inode.nlink==0)=true) inode.dataLen
    change 144*2≤align (DENT_NODE_SZ+nameLen+1) 8+align (if (deletion&&inode.nlink==0)=true
      then INO_NODE_SZ else INO_NODE_SZ+inode.dataLen) 8+INO_NODE_SZ
    omega
  | writeData inum outLen =>
    refine ⟨Jhead.noConfusion,le_rfl,?_⟩
    have halign := (le_align (DATA_NODE_SZ+outLen)).1
    exact (Nat.le_add_right 48 outLen).trans halign
  | writeInode inode =>
    refine ⟨Jhead.noConfusion,hbase _ (show 1≤3 by decide) ?_⟩
    exact (show 144*1≤INO_NODE_SZ by decide).trans (hinode ((inode.nlink==0)=true) inode.dataLen)
  | rename oldInode oldDir newDir newInode oldNameLen newNameLen =>
    have hnew := le_align (DENT_NODE_SZ+newNameLen+1)
    have hold := le_align (DENT_NODE_SZ+oldNameLen+1)
    have hdir := (le_align INO_NODE_SZ).1
    have hmove : ∀ len : ℕ,len≤ if oldDir.ino≠newDir.ino then len+INO_NODE_SZ else len := by
      intro len
      split
      · exact Nat.le_add_right _ _
      · exact le_rfl
    cases newInode with
    | none =>
      refine ⟨Jhead.noConfusion,hbase _ (show 2≤3 by decide) (le_trans ?_ (hmove _))⟩
      dsimp only [List.length_cons,List.length_nil]
      omega
    | some inode =>
      have hilen := (le_align (if inode.nlink=0 then INO_NODE_SZ
        else INO_NODE_SZ+inode.dataLen)).1
      have := hinode (inode.nlink=0) inode.dataLen
      refine ⟨Jhead.noConfusion,hbase _ (show 3≤3 by decide) (le_trans ?_ (hmove _))⟩
      dsimp only [List.length_cons,List.length_nil]
      omega
  | truncate inode dlen =>
    refine ⟨Jhead.noConfusion,hbase _ (show 1≤3 by decide) ?_⟩
    change 144*1≤TRUN_NODE_SZ+INO_NODE_SZ+dlen
    omega
  | deleteXattr host inode nameLen =>
    refine ⟨Jhead.noConfusion,hbase _ (show 1≤3 by decide) ?_⟩
    change 144*1≤align (DENT_NODE_SZ+nameLen+1) 8+INO_NODE_SZ+align (host.dataLen+INO_NODE_SZ) 8
    omega
  | changeXattr inode host =>
    refine ⟨Jhead.noConfusion,hbase _ (show 2≤3 by decide) ?_⟩
    have hhost := (le_align (INO_NODE_SZ+host.dataLen)).1
    have hinode := (le_align (INO_NODE_SZ+inode.dataLen)).1
    change 144*2≤align (INO_NODE_SZ+host.dataLen) 8+align (INO_NODE_SZ+inode.dataLen) 8
    omega

/-! ## Progress of a write-buffer -/

/-- A write-buffer after something was written or flushed. -/
structure Progress (c : Info) (d d' : Disk β) : Prop where
  stored : ∀ lnum pos b,Stored d.flash lnum pos b → Stored d'.flash lnum pos b
  kept : ∀ lnum pos b,Held d lnum pos b → Held d' lnum pos b
  sized : Sized c d'.w
  inodes : d'.w.inodes=d.w.inodes
  index : (d'.w.nextIno=d.w.nextIno∧d.w.used≤d'.w.used)∨
    (d'.w.nextIno=0∧∀ lnum pos b,Held d lnum pos b → Stored d'.flash lnum pos b)

theorem Progress.refl (hs : Sized c d.w) : Progress c d d :=
  ⟨fun _ _ _ h => h,fun _ _ _ h => h,hs,rfl,.inl ⟨rfl,le_rfl⟩⟩

theorem Progress.trans (h : Progress c d d') (h' : Progress c d' e) : Progress c d e where
  stored lnum pos b hb := h'.stored lnum pos b (h.stored lnum pos b hb)
  kept lnum pos b hb := h'.kept lnum pos b (h.kept lnum pos b hb)
  sized := h'.sized
  inodes := h'.inodes.trans h.inodes
  index := by
    rcases h'.index with ⟨hn',hu'⟩|⟨hn',hall'⟩
    · rcases h.index with ⟨hn,hu⟩|⟨hn,hall⟩
      · exact .inl ⟨hn'.trans hn,hu.trans hu'⟩
      · exact .inr ⟨hn'.trans hn,fun lnum pos b hb => h'.stored lnum pos b (hall lnum pos b hb)⟩
    · exact .inr ⟨hn',fun lnum pos b hb => hall' lnum pos b (h.kept lnum pos b hb)⟩

theorem progress_of_flush (hs : Sized c d'.w) (hinodes : d'.w.inodes=d.w.inodes)
    (hnone : d'.w.nextIno=0)
    (hall : ∀ lnum pos b,Held d lnum pos b → Stored d'.flash lnum pos b) : Progress c d d' :=
  ⟨fun lnum pos b h => hall lnum pos b (.inl h),fun lnum pos b h => .inl (hall lnum pos b h),hs,
    hinodes,.inr ⟨hnone,hall⟩⟩

theorem sync_progress (hpos : 0<c.maxWriteSize) (hs : Sized c d.w) (pad : β)
    (roError ok : Bool) :
    ubifsWbufSync c pad roError ok d=(false,d)∨
      ∃ d',ubifsWbufSync c pad roError ok d=(true,d')∧Progress c d d'∧d'.w.used=0 := by
  rcases ubifsWbufSync_spec hpos hs with hf|⟨d',heq,hf,hzero⟩
  · exact .inl hf
  · exact .inr ⟨d',heq,progress_of_flush hf.sized hf.inodes hf.none hf.all,hzero⟩

theorem reserve_progress (hpos : 0<c.maxWriteSize) {head : Jhead}
    (hs : Sized c (s.disk head).w) (pad : β) (len : ℕ) (space : Option (ℕ×ℕ)) (ok : Bool) :
    ∃ r d,reserveSpace c pad s head len space ok=(r,d)∧Progress c (s.disk head) d := by
  unfold reserveSpace
  by_cases hro : s.roError=true
  · rw [if_pos hro]
    exact ⟨_,_,rfl,.refl hs⟩
  rw [if_neg hro]
  by_cases hroom : (s.disk head).w.lnum≠none∧
      len≤c.lebSize-(s.disk head).w.offs-(s.disk head).w.used
  · rw [if_pos hroom]
    exact ⟨_,_,rfl,.refl hs⟩
  rw [if_neg hroom]
  cases space with
  | none => exact ⟨_,_,rfl,.refl hs⟩
  | some place =>
    rcases ubifsWbufSeek_spec hpos hs pad s.roError ok place.1 place.2 with hf|⟨d,heq,hall,hsized,hzero,_,hinodes⟩
    · exact ⟨_,_,hf,.refl hs⟩
    · exact ⟨_,d,heq,progress_of_flush hsized hinodes (hsized.empty hzero) hall⟩

theorem write_progress (hpos : 0<c.maxWriteSize) (hs : Sized c d.w) (ok : ℕ → Bool)
    (buf : List β) :
    (∃ d',ubifsWbufWrite c ok d buf=(false,d')∧Progress c d d')∨
      ∃ d' l,ubifsWbufWrite c ok d buf=(true,d')∧Wrote c d d' l buf∧Progress c d d' := by
  rcases ubifsWbufWrite_spec hpos hs ok buf with ⟨d',heq,hf⟩|⟨d',l,heq,hw⟩
  · refine .inl ⟨d',heq,hf.stored,fun _ _ _ h => hf.held h,?_,?_,.inl ?_⟩
    · rw [hf.w]
      exact hs
    · rw [hf.w]
    · rw [hf.w]
      exact ⟨rfl,le_rfl⟩
  · refine .inr ⟨d',l,heq,hw,hw.stored,hw.kept,hw.sized,hw.inodes,?_⟩
    rcases hw.index with ⟨hlt,hn⟩|⟨hn,_,hall⟩
    · refine .inl ⟨hn,?_⟩
      rw [hw.used]
      unfold leftover
      rw [if_pos hlt]
      exact Nat.le_add_right _ _
    · exact .inr ⟨hn,hall⟩

/-! ## Inode numbers -/

/-- The write-buffer after some inode numbers were added. -/
theorem addInos_eq (w : Wbuf β) (l : List ℕ) (hused : w.used≠0) : ∃ inodes,
    l.foldl ubifsWbufAddIno w={w with inodes := inodes, nextIno := w.nextIno+l.length}∧
    inodes.length=w.inodes.length∧
    (w.nextIno+l.length≤w.inodes.length →
      inodes.take (w.nextIno+l.length)=w.inodes.take w.nextIno++l) := by
  induction l generalizing w with
  | nil => exact ⟨w.inodes,rfl,rfl,fun _ => (List.append_nil _).symm⟩
  | cons i l ih =>
    have hadd : ubifsWbufAddIno w i=
        {w with inodes := w.inodes.set w.nextIno i, nextIno := w.nextIno+1} := if_neg hused
    have ⟨inodes,heq,hlen,htake⟩ := ih (ubifsWbufAddIno w i) (by rw [hadd]; exact hused)
    rw [hadd] at heq hlen htake
    rw [List.length_set] at hlen htake
    refine ⟨inodes,?_,hlen,fun hroom => ?_⟩
    · rw [List.foldl_cons,hadd,heq,List.length_cons,Nat.add_assoc,Nat.add_comm 1]
    · rw [List.length_cons] at hroom ⊢
      rw [show w.nextIno+(l.length+1)=w.nextIno+1+l.length by omega] at hroom ⊢
      have hset : (w.inodes.set w.nextIno i).take (w.nextIno+1)=w.inodes.take w.nextIno++[i] := by
        rw [List.take_add_one,List.getElem?_set_self (by omega),List.take_set_of_le le_rfl]
        rfl
      rw [htake hroom,hset,List.append_assoc]
      rfl

theorem addInos_empty (w : Wbuf β) (l : List ℕ) (hused : w.used=0) :
    l.foldl ubifsWbufAddIno w=w := by
  induction l with
  | nil => rfl
  | cons i l ih =>
    have hadd : ubifsWbufAddIno w i=w := if_pos hused
    rw [List.foldl_cons,hadd,ih]

end ArdroneKernel.UbifsJournal
