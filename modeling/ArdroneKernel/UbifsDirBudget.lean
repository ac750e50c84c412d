import ArdroneKernel.UbifsBudget
import ArdroneKernel.UbifsXattr

/-!
# Budgets of directory operations

What the operations of `fs/ubifs/dir.c` and `fs/ubifs/xattr.c` ask `ubifs_budget_space` for, and
how many bytes the functions of `fs/ubifs/journal.c` that they call reserve.
-/

namespace ArdroneKernel.UbifsDir

open UbifsBudget UbifsXattr

/-- A value stored in a bit-field. -/
def bits (width n : ℕ) : ℕ := n%2^width

/-- `i_nlink` after `drop_nlink` -/
def dropNlink (nlink : ℕ) : ℕ := (nlink+(2^32-1))%2^32

/-- The inode that a rename replaces. -/
structure Target where
  dataLen : ℕ
  nlink : ℕ

/-- The operations, with all that their budgets and their journal functions depend on. -/
inductive Call where
  | create (nlen : ℕ)
  | link (nlen dataLen nlink : ℕ)
  | unlink (nlen dataLen nlink : ℕ)
  | rmdir (nlen dataLen : ℕ)
  | mkdir (nlen : ℕ)
  /-- And whether the node is a block or character device. -/
  | mknod (nlen : ℕ) (device : Bool)
  | symlink (nlen len : ℕ)
  | rename (oldLen newLen oldDataLen : ℕ) (target : Option Target) (isDir move : Bool)
  | createXattr (nlen size hostDataLen : ℕ)
  | changeXattr (size hostDataLen : ℕ)
  | removeXattr (nlen hostDataLen : ℕ)

/-! ## Requests -/

/-- `devlen` -/
def devlen (device : Bool) : ℕ := if device then 4 else 0

/-- The request for what the journal function writes. In `ubifs_mknod` it is initialised while
`devlen` is still zero. -/
def request : Call → Req
  | .create _ => {newIno := true, newDent := true, dirtiedIno := 1}
  | .link _ dataLen _ =>
    {newDent := true, dirtiedIno := 2, dirtiedInoD := bits 15 (align8 dataLen)}
  | .unlink _ _ _ => {modDent := true, dirtiedIno := 2}
  | .rmdir _ _ => {modDent := true, dirtiedIno := 2}
  | .mkdir _ => {newIno := true, newDent := true}
  | .mknod _ _ =>
    {newIno := true, newDent := true, newInoD := bits 13 (align8 0), dirtiedIno := 1}
  | .symlink _ len =>
    {newIno := true, newDent := true, newInoD := bits 13 (align8 len), dirtiedIno := 1}
  | .rename _ _ _ _ _ _ => {newDent := true, modDent := true, dirtiedIno := 3}
  | .createXattr _ size hostDataLen =>
    {newIno := true, newDent := true, newInoD := bits 13 (align8 size), dirtiedIno := 1,
     dirtiedInoD := bits 15 (align8 hostDataLen)}
  | .changeXattr size hostDataLen =>
    {dirtiedIno := 2, dirtiedInoD := bits 15 (align8 size+align8 hostDataLen)}
  | .removeXattr _ hostDataLen =>
    {dirtiedIno := 2, modDent := true, dirtiedInoD := bits 15 (align8 hostDataLen)}

/-- `ino_req` of `ubifs_rename`, for the inode that it leaves dirty. -/
def inoRequest : Call → Option Req
  | .rename _ _ oldDataLen _ _ _ =>
    some {dirtiedIno := 1, dirtiedInoD := bits 15 (align8 oldDataLen)}
  | _ => none

/-! ## Reservations -/

/-- The length that `ubifs_jnl_update` reserves, by the link count it finds. -/
def jnlUpdate (nlen dataLen nlink : ℕ) (deletion : Bool) : ℕ :=
  let dlen := UBIFS_DENT_NODE_SZ+nlen+1
  let lastReference := deletion∧nlink=0
  let ilen := UBIFS_INO_NODE_SZ+if lastReference then 0 else dataLen
  align8 dlen+align8 ilen+UBIFS_INO_NODE_SZ

/-- The length that `ubifs_jnl_rename` reserves, by the link count it finds. -/
def jnlRename (oldLen newLen : ℕ) (target : Option Target) (move : Bool) : ℕ :=
  let dlen1 := UBIFS_DENT_NODE_SZ+newLen+1
  let dlen2 := UBIFS_DENT_NODE_SZ+oldLen+1
  let ilen := match target with
    | some t => UBIFS_INO_NODE_SZ+if t.nlink=0 then 0 else t.dataLen
    | none => 0
  let plen := UBIFS_INO_NODE_SZ
  align8 dlen1+align8 dlen2+align8 ilen+align8 plen+if move then plen else 0

/-- The length that `ubifs_jnl_change_xattr` reserves. -/
def jnlChangeXattr (dataLen hostDataLen : ℕ) : ℕ :=
  align8 (UBIFS_INO_NODE_SZ+hostDataLen)+align8 (UBIFS_INO_NODE_SZ+dataLen)

/-- The length that `ubifs_jnl_delete_xattr` reserves. -/
def jnlDeleteXattr (nlen hostDataLen : ℕ) : ℕ :=
  let xlen := UBIFS_DENT_NODE_SZ+nlen+1
  let hlen := hostDataLen+UBIFS_INO_NODE_SZ
  align8 xlen+UBIFS_INO_NODE_SZ+align8 hlen

/-- The link count of a rename's target when the journal is written. -/
def replaced (isDir : Bool) (t : Target) : Target :=
  {t with nlink := dropNlink (if isDir then dropNlink t.nlink else t.nlink)}

theorem replaced_dataLen (isDir : Bool) (t : Target) :
    (replaced isDir t).dataLen=t.dataLen := by
  unfold replaced
  rfl

/-- The bytes that the journal function of a call reserves. -/
def reserved : Call → ℕ
  | .create nlen => jnlUpdate nlen 0 1 false
  | .link nlen dataLen nlink => jnlUpdate nlen dataLen (nlink+1) false
  | .unlink nlen dataLen nlink => jnlUpdate nlen dataLen (dropNlink nlink) true
  | .rmdir nlen dataLen => jnlUpdate nlen dataLen 0 true
  | .mkdir nlen => jnlUpdate nlen 0 2 false
  | .mknod nlen device => jnlUpdate nlen (devlen device) 1 false
  | .symlink nlen len => jnlUpdate nlen len 1 false
  | .rename oldLen newLen _ target isDir move =>
    jnlRename oldLen newLen (target.map (replaced isDir)) move
  | .createXattr nlen size _ => jnlUpdate nlen size 1 false
  | .changeXattr size hostDataLen => jnlChangeXattr size hostDataLen
  | .removeXattr nlen hostDataLen => jnlDeleteXattr nlen hostDataLen

/-- The entries that a call adds to the index: a new inode, and a new name. -/
def indexEntries : Call → ℕ
  | .create _ | .mkdir _ | .mknod _ _ | .symlink _ _ | .createXattr _ _ _ => 2
  | .link _ _ _ => 1
  | .rename _ _ _ target _ _ => if target.isSome then 0 else 1
  | .unlink _ _ _ | .rmdir _ _ | .changeXattr _ _ | .removeXattr _ _ => 0

/-! ## Whether the budget is enough -/

/-- Names and data have at most their greatest lengths. -/
def Allowed : Call → Prop
  | .create nlen | .mkdir nlen | .mknod nlen _ => nlen≤UBIFS_MAX_NLEN
  | .link nlen dataLen _ | .unlink nlen dataLen _ | .rmdir nlen dataLen
  | .symlink nlen dataLen | .removeXattr nlen dataLen =>
    nlen≤UBIFS_MAX_NLEN∧dataLen≤UBIFS_MAX_INO_DATA
  | .rename oldLen newLen oldDataLen target _ _ =>
    oldLen≤UBIFS_MAX_NLEN∧newLen≤UBIFS_MAX_NLEN∧oldDataLen≤UBIFS_MAX_INO_DATA∧
      ∀ t∈target,t.dataLen≤UBIFS_MAX_INO_DATA
  | .createXattr nlen size hostDataLen =>
    nlen≤UBIFS_MAX_NLEN∧size≤UBIFS_MAX_INO_DATA∧hostDataLen≤UBIFS_MAX_INO_DATA
  | .changeXattr size hostDataLen => size≤UBIFS_MAX_INO_DATA∧hostDataLen≤UBIFS_MAX_INO_DATA

variable (c : Info)

/-- The data and dirty data that a request budgets for. -/
def budgeted (req : Req) : ℕ := calcDataGrowth c req+calcDdGrowth c req

/-- All data and dirty data that a call budgets for. -/
def allBudgeted (call : Call) : ℕ :=
  budgeted c (request call)+((inoRequest call).map (budgeted c)).getD 0

/-- The index budget has a znode for each new entry. -/
def IndexCovered (call : Call) : Prop :=
  indexEntries call*c.maxIdxNodeSz≤calcIdxGrowth c (request call)

/-- What a name takes. -/
def nameSize (nlen : ℕ) : ℕ := align8 (UBIFS_DENT_NODE_SZ+nlen+1)

/-- An inode that keeps a name has little data, a new directory or device has no long name.
`spare` is what the budget for an inode that stays dirty adds to a rename. -/
def Enough (spare : ℕ → ℕ) : Call → Prop
  | .unlink nlen dataLen nlink => dropNlink nlink=0∨nameSize nlen+align8 dataLen≤312
  | .mkdir nlen => nameSize nlen≤152
  | .mknod nlen device => device=false∨nameSize nlen≤304
  | .rename oldLen newLen oldDataLen target isDir move =>
    ∀ t∈target,(replaced isDir t).nlink=0∨
      nameSize oldLen+nameSize newLen+align8 t.dataLen+(if move then 160 else 0)≤
        944+spare oldDataLen
  | _ => True

variable {c} {call : Call}

/-- The index budget is always enough. -/
theorem index_covered (c : Info) (call : Call) : IndexCovered c call := by
  unfold IndexCovered
  cases call with
  | rename oldLen newLen oldDataLen target isDir move =>
    cases target with
    | none => simp [indexEntries,calcIdxGrowth,request]
    | some t => simp [indexEntries]
  | _ => simp [indexEntries,calcIdxGrowth,request]

theorem nameSize_le {nlen : ℕ} (h : nlen≤UBIFS_MAX_NLEN) : nameSize nlen≤312 := by
  unfold UBIFS_MAX_NLEN at h
  unfold nameSize align8 UBIFS_DENT_NODE_SZ
  omega

/-- An inode with its data. -/
theorem align8_inode (n : ℕ) : align8 (UBIFS_INO_NODE_SZ+n)=160+align8 n := by
  unfold align8 UBIFS_INO_NODE_SZ
  omega

theorem align8_le {n : ℕ} (h : n≤UBIFS_MAX_INO_DATA) : align8 n≤4096 := by
  unfold UBIFS_MAX_INO_DATA at h
  unfold align8
  omega

theorem bits_align8 {w n : ℕ} (h : n≤UBIFS_MAX_INO_DATA) (hw : 4096<2^w) :
    bits w (align8 n)=align8 n := Nat.mod_eq_of_lt (Nat.lt_of_le_of_lt (align8_le h) hw)

/-- What `ubifs_jnl_update` reserves, by what it writes of the inode. -/
theorem jnlUpdate_eq (nlen dataLen nlink : ℕ) (deletion : Bool) :
    jnlUpdate nlen dataLen nlink deletion=
      nameSize nlen+320+(if deletion=true∧nlink=0 then 0 else align8 dataLen) := by
  unfold jnlUpdate
  dsimp only
  rw [align8_inode]
  unfold nameSize UBIFS_INO_NODE_SZ
  split
  · have hzero : align8 0=0 := rfl
    omega
  · omega

/-- What `ubifs_jnl_rename` reserves, by what it writes of the inode that is replaced. -/
theorem jnlRename_eq (oldLen newLen : ℕ) (t : Target) (move : Bool) :
    jnlRename oldLen newLen (some t) move=
      nameSize oldLen+nameSize newLen+320+(if t.nlink=0 then 0 else align8 t.dataLen)+
        if move then 160 else 0 := by
  have hplen : align8 UBIFS_INO_NODE_SZ=160 := by decide
  have hzero : align8 0=0 := rfl
  unfold jnlRename
  dsimp only
  rw [align8_inode,hplen]
  unfold nameSize UBIFS_INO_NODE_SZ
  split <;> split <;> omega

theorem jnlRename_none (oldLen newLen : ℕ) (move : Bool) :
    jnlRename oldLen newLen none move=
      nameSize oldLen+nameSize newLen+160+if move then 160 else 0 := by
  have hplen : align8 UBIFS_INO_NODE_SZ=160 := by decide
  have hzero : align8 0=0 := rfl
  unfold jnlRename
  dsimp only
  rw [hplen,hzero]
  unfold nameSize UBIFS_INO_NODE_SZ
  split <;> omega

/-- Space beyond the request of the journal function, for a rename only. -/
def extra (spare : ℕ → ℕ) : Call → ℕ
  | .rename _ _ oldDataLen _ _ _ => spare oldDataLen
  | _ => 0

/-- What is reserved is budgeted for exactly if it is enough. -/
theorem reserved_le_iff (c : Info) (spare : ℕ → ℕ) (hallowed : Allowed call) :
    reserved call≤budgeted c (request call)+extra spare call↔Enough spare call := by
  cases call with
  | create nlen =>
    have hname := nameSize_le hallowed
    have hzero : align8 0=0 := rfl
    refine iff_of_true ?_ trivial
    change jnlUpdate nlen 0 1 false≤160+0+312+0+(0+160+0+0)+0
    rw [jnlUpdate_eq,if_neg (by nofun)]
    omega
  | link nlen dataLen nlink =>
    have ⟨hlen,hdata⟩ := hallowed
    have hname := nameSize_le hlen
    refine iff_of_true ?_ trivial
    change jnlUpdate nlen dataLen (nlink+1) false≤
      0+0+312+0+(0+320+0+bits 15 (align8 dataLen))+0
    rw [jnlUpdate_eq,if_neg (by nofun),bits_align8 hdata (by decide)]
    omega
  | unlink nlen dataLen nlink =>
    have hname := nameSize_le hallowed.1
    change jnlUpdate nlen dataLen (dropNlink nlink) true≤0+0+0+0+(0+320+312+0)+0↔
      dropNlink nlink=0∨nameSize nlen+align8 dataLen≤312
    rw [jnlUpdate_eq]
    by_cases hlast : dropNlink nlink=0
    · rw [if_pos ⟨rfl,hlast⟩]
      exact iff_of_true (by omega) (.inl hlast)
    · rw [if_neg fun h => hlast h.2,or_iff_right hlast]
      omega
  | rmdir nlen dataLen =>
    have hname := nameSize_le hallowed.1
    refine iff_of_true ?_ trivial
    change jnlUpdate nlen dataLen 0 true≤0+0+0+0+(0+320+312+0)+0
    rw [jnlUpdate_eq,if_pos ⟨rfl,rfl⟩]
    omega
  | mkdir nlen =>
    have hzero : align8 0=0 := rfl
    change jnlUpdate nlen 0 2 false≤160+0+312+0+(0+0+0+0)+0↔nameSize nlen≤152
    rw [jnlUpdate_eq,if_neg (by nofun)]
    omega
  | mknod nlen device =>
    have hname := nameSize_le hallowed
    change jnlUpdate nlen (devlen device) 1 false≤
      160+0+312+bits 13 (align8 0)+(0+160+0+0)+0↔device=false∨nameSize nlen≤304
    cases device with
    | false =>
      refine iff_of_true ?_ (.inl rfl)
      change nameSize nlen+320+0≤160+0+312+0+(0+160+0+0)+0
      omega
    | true =>
      rw [or_iff_right (by nofun)]
      change nameSize nlen+320+8≤160+0+312+0+(0+160+0+0)+0↔_
      omega
  | symlink nlen len =>
    have ⟨hlen,hdata⟩ := hallowed
    have hname := nameSize_le hlen
    refine iff_of_true ?_ trivial
    change jnlUpdate nlen len 1 false≤160+0+312+bits 13 (align8 len)+(0+160+0+0)+0
    rw [jnlUpdate_eq,if_neg (by nofun),bits_align8 hdata (by decide)]
    omega
  | rename oldLen newLen oldDataLen target isDir move =>
    have ⟨hold,hnew,_,_⟩ := hallowed
    have hname := nameSize_le hold
    have hname' := nameSize_le hnew
    have hbudget : budgeted c (request
        (.rename oldLen newLen oldDataLen target isDir move))=1264 := by
      simp [budgeted,calcDataGrowth,calcDdGrowth,request,Info.inodeBudget,Info.dentBudget,
        INO_NODE_SZ,MAX_DENT_NODE_SZ]
    rw [hbudget]
    cases target with
    | none =>
      refine iff_of_true ?_ nofun
      change jnlRename oldLen newLen none move≤1264+spare oldDataLen
      rw [jnlRename_none]
      split <;> omega
    | some t =>
      change jnlRename oldLen newLen (some (replaced isDir t)) move≤1264+spare oldDataLen↔_
      rw [jnlRename_eq]
      rw [replaced_dataLen]
      constructor
      · rintro hle u ⟨⟩
        by_cases hlast : (replaced isDir t).nlink=0
        · exact .inl hlast
        · rw [if_neg hlast] at hle
          right
          omega
      · intro henough
        rcases henough t rfl with hlast|hfits
        · rw [if_pos hlast]
          split <;> omega
        · split <;> omega
  | createXattr nlen size hostDataLen =>
    have ⟨hlen,hsize,hhost⟩ := hallowed
    have hname := nameSize_le hlen
    refine iff_of_true ?_ trivial
    change jnlUpdate nlen size 1 false≤160+0+312+bits 13 (align8 size)+
      (0+160+0+bits 15 (align8 hostDataLen))+0
    rw [jnlUpdate_eq,if_neg (by nofun),bits_align8 hsize (by decide)]
    omega
  | changeXattr size hostDataLen =>
    have ⟨hsize,hhost⟩ := hallowed
    have hle := align8_le hsize
    have hle' := align8_le hhost
    refine iff_of_true ?_ trivial
    change jnlChangeXattr size hostDataLen≤
      0+0+0+0+(0+320+0+bits 15 (align8 size+align8 hostDataLen))+0
    have hbits : bits 15 (align8 size+align8 hostDataLen)=align8 size+align8 hostDataLen :=
      Nat.mod_eq_of_lt (by omega)
    unfold jnlChangeXattr
    rw [align8_inode,align8_inode,hbits]
    omega
  | removeXattr nlen hostDataLen =>
    have ⟨hlen,hhost⟩ := hallowed
    have hname := nameSize_le hlen
    refine iff_of_true ?_ trivial
    change align8 (UBIFS_DENT_NODE_SZ+nlen+1)+UBIFS_INO_NODE_SZ+
      align8 (hostDataLen+UBIFS_INO_NODE_SZ)≤0+0+0+0+(0+320+312+bits 15 (align8 hostDataLen))+0
    rw [Nat.add_comm hostDataLen,align8_inode,bits_align8 hhost (by decide)]
    unfold nameSize at hname
    unfold UBIFS_INO_NODE_SZ
    omega

/-- The index budget covers all new entries. The data budget covers what the journal function
reserves exactly if the budget of its own request is enough, or of both requests for a rename. -/
theorem budget_covers_iff (c : Info) (hallowed : Allowed call) :
    IndexCovered c call∧
      (reserved call≤budgeted c (request call)↔Enough (fun _ => 0) call)∧
      (reserved call≤allBudgeted c call↔Enough (fun d => 160+align8 d) call) := by
  refine ⟨index_covered c call,?_,?_⟩
  · have halone := reserved_le_iff c (fun _ => 0) hallowed
    have hextra : extra (fun _ => 0) call=0 := by
      cases call <;> rfl
    rwa [hextra] at halone
  · have hboth := reserved_le_iff c (fun d => 160+align8 d) hallowed
    have hextra : ((inoRequest call).map (budgeted c)).getD 0=
        extra (fun d => 160+align8 d) call := by
      cases call with
      | rename oldLen newLen oldDataLen target isDir move =>
        change 0+0+0+0+(0+160+0+bits 15 (align8 oldDataLen))=160+align8 oldDataLen
        rw [bits_align8 hallowed.2.2.1 (by decide)]
        omega
      | _ => rfl
    unfold allBudgeted
    rwa [hextra]

/-- A file with a long name is created. -/
theorem budget_covers_iff_example :
    reserved (.create 255)≤allBudgeted ⟨0,200⟩ (.create 255) := by
  have hallowed : Allowed (.create 255) := by
    unfold Allowed
    decide
  exact (budget_covers_iff ⟨0,200⟩ hallowed).2.2.mpr trivial

/-- A symlink that keeps a name is unlinked, or replaced by a rename, or a directory or a device
gets a long name: more is reserved than was budgeted for. -/
theorem budget_too_small :
    allBudgeted ⟨0,200⟩ (.unlink 10 1000 2)<reserved (.unlink 10 1000 2)∧
      allBudgeted ⟨0,200⟩ (.mkdir 96)<reserved (.mkdir 96)∧
      allBudgeted ⟨0,200⟩ (.mknod 255 true)<reserved (.mknod 255 true)∧
      allBudgeted ⟨0,200⟩ (.rename 10 10 0 (some ⟨4000,2⟩) false false)<
        reserved (.rename 10 10 0 (some ⟨4000,2⟩) false false) := by
  decide

end ArdroneKernel.UbifsDir
