import ArdroneKernel.UbifsDirCounts
import Mathlib.Algebra.Group.Pi.Lemmas

/-!
# Directory operations keep counts

Each operation either fails, and has changed back what it changed, or succeeds, and has changed
the counts of up to three inodes as the entries changed.
-/

namespace ArdroneKernel.UbifsDir

open FiniteTable UbifsBudget UbifsXattr Function

variable {c : Info} {s : Fs} {sh : Shape} {b : Budget} {n z : ℕ → ℤ} {nm : Name} {nm : Name}
  {dir : ℕ} {nm : Name} {dir : ℕ} {target : Option ℕ} {nm : Name} {dir : ℕ} {target : Option ℕ}

/-- The counts are right, and the budgets but for dirty inodes are `b`. -/
structure Good (c : Info) (b : Budget) (s : Fs) : Prop where
  off : Off c s s.shape b 0 0
  shape : s.shape.WellFormed

theorem Off.good (h : Off c s sh b 0 0) (hsh : sh.WellFormed) : Good c b s := by
  cases h.shape
  exact ⟨h,hsh⟩

theorem Off.cast (h : Off c s sh b n z) {b' : Budget} {n' z' : ℕ → ℤ} (hb : b=b') (hn : n=n')
    (hz : z=z') : Off c s sh b' n' z' := by
  rwa [← hb,← hn,← hz]

/-! ## Shapes after an operation -/

namespace Shape

theorem know_forget (sh : Shape) (k : Place) (v : Option ℕ) :
    (sh.forget k).know k v=sh.know k v := by
  unfold know forget
  rw [update_idem]

theorem forget_self (sh : Shape) (k : Place) : (sh.forget k).dcache k=none := by
  unfold forget
  dsimp only
  rw [update_self]

variable {k : Place} {i j : ℕ}

/-- An entry is added, and the VFS knows it. -/
theorem WellFormed.putKnown (h : sh.WellFormed) (hlive : sh.Live k.1) (hname : sh.Nameable j)
    (honce : sh.isDir j=true → ∀ k',sh.entries.get k'≠some j) :
    ((sh.put k j).know k (some j)).WellFormed := by
  have hput := (h.forget (k := k)).put (sh.forget_self k) hlive hname honce
  have hknow := hput.know (k := k)
  have hget : ((sh.forget k).put k j).entries.get k=some j := Table.get_put _ _ _
  rw [hget] at hknow
  change ((sh.put k j).forget k |>.know k (some j)).WellFormed at hknow
  rwa [know_forget] at hknow

/-- An entry is removed, and the VFS forgets it. -/
theorem WellFormed.eraseForgotten (h : sh.WellFormed) : ((sh.erase k).forget k).WellFormed :=
  (h.forget (k := k)).erase (sh.forget_self k)

end Shape

/-- A number that has not been used. -/
theorem Shape.WellFormed.fresh (h : sh.WellFormed) :
    sh.kinds (sh.highestInum+1)=none∧
      ∀ k j,sh.entries.get k=some j → k.1≠sh.highestInum+1∧j≠sh.highestInum+1 := by
  have hnone : ∀ {i x},sh.kinds i=some x → i≠sh.highestInum+1 := by
    intro i x hx heq
    have hle := h.inum i x hx
    omega
  refine ⟨?_,?_⟩
  · cases hx : sh.kinds (sh.highestInum+1) with
    | none => rfl
    | some x => exact absurd rfl (hnone hx)
  · intro k j hget
    have ⟨_,hx,_⟩ := h.dir k j hget
    have ⟨_,hy,_⟩ := h.named k j hget
    exact ⟨hnone hx,hnone hy⟩

theorem get_of_kinds (hshape : s.shape=sh) {i : ℕ} (hnone : sh.kinds i=none) :
    s.inodes.get i=none := by
  rw [← hshape] at hnone
  exact Option.map_eq_none_iff.mp hnone

theorem exists_of_kinds (hshape : s.shape=sh) {i : ℕ} {x : Kind} (hx : sh.kinds i=some x) :
    ∃ y,s.inodes.get i=some y∧y.kind=x := by
  rw [← hshape] at hx
  exact Option.map_eq_some_iff.mp hx

/-! ## Inodes that stay clean -/

/-- An inode in memory that is clean. -/
def CleanAt (s : Fs) (i : ℕ) : Prop := ∃ x,s.inodes.get i=some x∧x.dirty=false

theorem CleanAt.modify {i : ℕ} (h : CleanAt s i) (j : ℕ) {f : Inode → Inode}
    (hdirty : ∀ x,(f x).dirty=x.dirty) : CleanAt (s.modify j f) i := by
  have ⟨x,hx,hclean⟩ := h
  unfold Fs.modify
  by_cases hj : i=j
  · rw [← hj,hx]
    exact ⟨f x,Table.get_put _ _ _,(hdirty x).trans hclean⟩
  · cases hget : s.inodes.get j with
    | none => exact ⟨x,hx,hclean⟩
    | some y => exact ⟨x,(Table.get_put_of_ne hj).trans hx,hclean⟩

theorem CleanAt.addLinks {i : ℕ} (h : CleanAt s i) (j : ℕ) (links : ℤ) :
    CleanAt (s.addLinks j links) i := h.modify j fun _ => rfl

theorem CleanAt.addSize {i : ℕ} (h : CleanAt s i) (j : ℕ) (size : ℤ) :
    CleanAt (s.addSize j size) i := h.modify j fun _ => rfl

/-! ## New inodes -/

/-- What the inode is like that `makeNode` writes. -/
structure NewNode (x : Inode) (links : ℤ) : Prop where
  dead : x.dead=false
  clean : x.dirty=false
  dataLen : x.dataLen≤UBIFS_MAX_INO_DATA
  size : x.isDir=true → x.iSize=UBIFS_INO_NODE_SZ∧x.uiSize=x.iSize
  own : x.nlink-x.kind.ownLinks=if x.isDir then 0 else 1
  parent : links=if x.isDir then 1 else 0

/-- The links of a new inode are those that its entry is worth. -/
theorem NewNode.credit {x : Inode} {links : ℤ} (hx : NewNode x links) (i : ℕ) (k : Place) :
    Pi.single i (x.nlink-x.kind.ownLinks)+Pi.single k.1 links=
      (sh.set i (some x.kind)).credit k i := by
  have hdir : (sh.set i (some x.kind)).isDir i=x.isDir := by
    unfold Shape.isDir Shape.set
    dsimp only
    rw [update_self]
    rfl
  unfold Shape.credit
  rw [hdir,hx.own,hx.parent]
  cases x.isDir with
  | true => exact (congrArg (·+_) (Pi.single_zero i)).trans (zero_add _)
  | false => exact (congrArg (_+·) (Pi.single_zero k.1)).trans (add_zero _)

theorem Off.bump (h : Off c s sh b n z) (i : ℕ) :
    Off c {s with highestInum := i} {sh with highestInum := i} b n z where
  shape := by
    rw [← h.shape]
    rfl
  net := h.net
  links := h.links
  sizes := h.sizes

theorem Off.jnlUpdate_put (h : Off c s sh b n z) (hget : sh.entries.get (dir,nm)=none) (i : ℕ) :
    Off c (s.jnlUpdate c dir nm i false) (sh.put (dir,nm) i) b (n-sh.credit (dir,nm) i)
      (z-Shape.room (dir,nm)) :=
  ((h.put hget i).markInodeClean i).markInodeClean dir

theorem Off.jnlUpdate_erase (h : Off c s sh b n z) {i : ℕ} (hget : sh.entries.get (dir,nm)=some i) :
    Off c (s.jnlUpdate c dir nm i true) (sh.erase (dir,nm)) b (n+sh.credit (dir,nm) i)
      (z+Shape.room (dir,nm)) :=
  ((h.erase hget).markInodeClean i).markInodeClean dir

/-- A new inode is well-formed, and has an entry. -/
theorem Shape.WellFormed.addNode (h : sh.WellFormed) {k : Place} (hlive : sh.Live k.1) {x : Inode}
    {links : ℤ} (hx : NewNode x links) {i : ℕ} (hi : i=sh.highestInum+1) :
    (((({sh with highestInum := i} : Shape).set i (some x.kind)).put k i).know k
      (some i)).WellFormed := by
  have ⟨hfresh,hunused⟩ := h.fresh
  rw [← hi] at hfresh hunused
  have hbumped : ({sh with highestInum := i} : Shape).WellFormed := hi ▸ h.bump
  refine (hbumped.add hfresh (Nat.le_refl i) hx.dead hx.dataLen).putKnown ?_ ?_ ?_
  · have ⟨y,hy,hdir⟩ := hlive
    have hne : k.1≠i := by
      intro heq
      rw [heq,hfresh] at hy
      cases hy
    exact ⟨y,(update_of_ne hne _ _).trans hy,hdir⟩
  · exact ⟨x.kind,update_self _ _ _,hx.dead⟩
  · intro _ k' hget
    exact (hunused k' i hget).2 rfl

theorem makeNode_good (h : Off c s sh b 0 0) (hwf : sh.WellFormed) (hlive : sh.Live dir)
    (hnone : sh.entries.get (dir,nm)=none) {x : Inode} {links : ℤ} (hx : NewNode x links)
    (req : Req) (o : Steps) :
    Good c b (makeNode c s dir nm req x links o).1 := by
  unfold makeNode
  cases hr : budgetSpace c s req o.space with
  | error err => exact h.good hwf
  | ok s1 =>
    have ⟨h1,_⟩ := h.budgetSpace hr
    have hback : b+growth c req-growth c req=b := add_sub_cancel_right _ _
    have hnum : s1.highestInum+1=sh.highestInum+1 :=
      congrArg (fun sh : Shape => sh.highestInum+1) h1.shape
    generalize hi : s1.highestInum+1=i at hnum
    have ⟨hfresh,hunused⟩ := hwf.fresh
    rw [← hnum] at hfresh hunused
    have hbumped : ({sh with highestInum := i} : Shape).WellFormed := hnum ▸ hwf.bump
    dsimp only
    split
    · exact ((h1.release req).cast hback rfl rfl).good hwf
    · rw [hi]
      have h2 := h1.bump i
      split
      · exact ((h2.release req).cast hback rfl rfl).good hbumped
      · have h3 := h2.newInode (x := x) (get_of_kinds h1.shape hfresh) hunused hx.clean hx.size
          rfl rfl
        have h4 := (h3.addLinks dir links).addSize dir (Fs.szChange nm)
        split
        · have h5 := ((h4.jnlUpdate_put hnone i).release req).know (dir,nm) (some i)
          refine (h5.cast hback ?_ ?_).good (hwf.addNode hlive hx hnum)
          · rw [zero_add,← hx.credit i (dir,nm)]
            exact sub_self _
          · rw [zero_add]
            exact sub_self _
        · -- out_cancel
          have h5 := (h4.addSize dir (-Fs.szChange nm)).addLinks dir (-links)
          have hclean : CleanAt {s1 with highestInum := i,inodes := s1.inodes.put i x} i :=
            ⟨x,Table.get_put _ _ _,hx.clean⟩
          have ⟨y,hy,hdirty⟩ := (((hclean.addLinks dir links).addSize dir
            (Fs.szChange nm)).addSize dir (-Fs.szChange nm)).addLinks dir (-links)
          have h6 := (h5.dropInode hy hunused hdirty).absent (Table.get_erase _ _)
            (-(x.nlink-x.kind.ownLinks)) 0
          have hset : (({sh with highestInum := i} : Shape).set i (some x.kind)).set i none=
              {sh with highestInum := i} := by
            unfold Shape.set
            rw [update_idem,← hfresh,update_eq_self]
          rw [hset] at h6
          refine ((h6.release req).cast hback ?_ ?_).good hbumped
          · rw [Pi.single_neg,Pi.single_neg]
            abel
          · rw [Pi.single_neg,Pi.single_zero]
            abel

theorem ubifsCreate_good (h : Off c s sh b 0 0) (hwf : sh.WellFormed) (hlive : sh.Live dir)
    (hnone : sh.entries.get (dir,nm)=none) (o : Steps) :
    Good c b (ubifsCreate c s dir nm o).1 := by
  refine makeNode_good h hwf hlive hnone ?_ _ _
  exact ⟨rfl,rfl,Nat.zero_le _,nofun,rfl,rfl⟩

theorem ubifsMkdir_good (h : Off c s sh b 0 0) (hwf : sh.WellFormed) (hlive : sh.Live dir)
    (hnone : sh.entries.get (dir,nm)=none) (o : Steps) :
    Good c b (ubifsMkdir c s dir nm o).1 :=
  makeNode_good h hwf hlive hnone ⟨rfl,rfl,Nat.zero_le _,fun _ => ⟨rfl,rfl⟩,rfl,rfl⟩ _ _

theorem ubifsMknod_good (h : Off c s sh b 0 0) (hwf : sh.WellFormed) (hlive : sh.Live dir)
    (hnone : sh.entries.get (dir,nm)=none) (device : Bool) (o : Steps) :
    Good c b (ubifsMknod c s dir nm device o).1 := by
  unfold ubifsMknod
  split
  · exact h.good hwf
  · have hlen : devlen device≤UBIFS_MAX_INO_DATA := by
      cases device with
      | true => decide
      | false => decide
    refine makeNode_good h hwf hlive hnone ?_ _ _
    exact ⟨rfl,rfl,hlen,nofun,rfl,rfl⟩

theorem ubifsSymlink_good (h : Off c s sh b 0 0) (hwf : sh.WellFormed) (hlive : sh.Live dir)
    (hnone : sh.entries.get (dir,nm)=none) (len : ℕ) (o : Steps) :
    Good c b (ubifsSymlink c s dir nm len o).1 := by
  unfold ubifsSymlink
  split
  · exact h.good hwf
  next hlen =>
    refine makeNode_good h hwf hlive hnone ?_ _ _
    exact ⟨rfl,rfl,Nat.le_of_not_lt hlen,nofun,rfl,rfl⟩

/-! ## Links -/

theorem ubifsLink_good (h : Off c s sh b 0 0) (hwf : sh.WellFormed) {i dir : ℕ}
    (hlive : sh.Live dir) (hnone : sh.entries.get (dir,nm)=none) (hfile : sh.isDir i=false)
    (o : Steps) : Good c b (ubifsLink c s i dir nm o).1 := by
  unfold ubifsLink
  split
  · exact h.good hwf
  next x hget =>
    dsimp only
    split
    · exact h.good hwf
    · generalize hreq : request (.link nm.length x.dataLen x.nlink.toNat)=req
      cases hr : budgetSpace c s req o.space with
      | error err => exact h.good hwf
      | ok s1 =>
        have ⟨h1,_⟩ := h.budgetSpace hr
        have hback : b+growth c req-growth c req=b := add_sub_cancel_right _ _
        have h2 := (h1.addLinks i 1).addSize dir (Fs.szChange nm)
        dsimp only
        split
        · have h3 := ((h2.jnlUpdate_put hnone i).release req).know (dir,nm) (some i)
          have hcredit : sh.credit (dir,nm) i=Pi.single i 1 := by
            unfold Shape.credit
            rw [hfile]
            rfl
          refine (h3.cast hback ?_ ?_).good (hwf.putKnown hlive ?_ ?_)
          · rw [hcredit,zero_add]
            exact sub_self _
          · rw [zero_add]
            exact sub_self _
          · have hx : sh.kinds i=some x.kind := by
              rw [← h.shape]
              unfold Fs.shape
              dsimp only
              rw [hget]
              rfl
            refine ⟨x.kind,hx,?_⟩
            cases hdead : x.kind.dead with
            | false => rfl
            | true =>
              have hdir := hwf.dead i x.kind hx hdead
              unfold Shape.isDir at hfile
              rw [hx] at hfile
              cases hfile.symm.trans hdir
          · intro hdir
            cases hfile.symm.trans hdir
        · -- out_cancel
          have h3 := ((h2.addSize dir (-Fs.szChange nm)).addLinks i (-1)).release req
          refine (h3.cast hback ?_ ?_).good hwf
          · rw [Pi.single_neg]
            abel
          · rw [Pi.single_neg]
            abel

/-! ## Removal -/

theorem budgetSpace_error {req : Req} {space : Space} {err : ℤ}
    (hr : budgetSpace c s req space=.error err) : err≠0 := by
  unfold budgetSpace at hr
  split at hr
  · cases hr
  · cases hr
    split
    · decide
    · decide

/-- The link counts that `drop` changes by `m` are those that the entry is worth, or more. -/
theorem removeEntry_off (h : Off c s sh b 0 0) {dir i : ℕ} {m : ℕ → ℤ} (drop undo : Fs → Fs)
    (hget : sh.entries.get (dir,nm)=some i)
    (hdrop : ∀ {s' b'},s'.inodes=s.inodes → Off c s' sh b' 0 0 → Off c (drop s') sh b' m 0)
    (hundo : ∀ {s' b'},Off c s' sh b' m 0 → Off c (undo s') sh b' 0 0) (req : Req) (o : Steps) :
    let r := removeEntry c s dir nm i req drop undo o
    (r.2=0 → Off c r.1 (sh.erase (dir,nm)) b (m+sh.credit (dir,nm) i) 0)∧
      (r.2≠0 → Off c r.1 sh b 0 0) := by
  -- Without a budget and with one the steps are the same.
  have hsteps : ∀ {s' b'},s'.inodes=s.inodes → Off c s' sh b' 0 0 →
      Off c (((drop s').addSize dir (-Fs.szChange nm)).jnlUpdate c dir nm i true)
        (sh.erase (dir,nm)) b' (m+sh.credit (dir,nm) i) 0∧
      Off c (undo (((drop s').addSize dir (-Fs.szChange nm)).addSize dir (Fs.szChange nm))) sh
        b' 0 0 := by
    intro s' b' hinodes h'
    have h1 := (hdrop hinodes h').addSize dir (-Fs.szChange nm)
    refine ⟨(h1.jnlUpdate_erase hget).cast rfl rfl ?_,hundo ?_⟩
    · unfold Shape.room
      rw [Pi.single_neg]
      abel
    · refine (h1.addSize dir (Fs.szChange nm)).cast rfl rfl ?_
      rw [Pi.single_neg]
      abel
  unfold removeEntry
  cases hr : budgetSpace c s req o.space with
  | error err =>
    dsimp only
    split
    · exact ⟨fun hzero => absurd hzero (budgetSpace_error hr),fun _ => h⟩
    · have ⟨hdone,hcancel⟩ := hsteps rfl h
      split
      · exact ⟨fun _ => hdone,fun hne => absurd rfl hne⟩
      · exact ⟨fun hzero => absurd hzero (show FAILED≠0 by decide),fun _ => hcancel⟩
  | ok s1 =>
    have ⟨h1,hinodes⟩ := h.budgetSpace hr
    have hback : b+growth c req-growth c req=b := add_sub_cancel_right _ _
    have ⟨hdone,hcancel⟩ := hsteps hinodes h1
    dsimp only
    split
    · exact ⟨fun _ => (hdone.release req).cast hback rfl rfl,fun hne => absurd rfl hne⟩
    · exact ⟨fun hzero => absurd hzero (show FAILED≠0 by decide),
        fun _ => (hcancel.release req).cast hback rfl rfl⟩

theorem ubifsUnlink_off (h : Off c s sh b 0 0) {dir i : ℕ} (hget : sh.entries.get (dir,nm)=some i)
    (hfile : sh.isDir i=false) (o : Steps) :
    let r := ubifsUnlink c s dir nm i o
    (r.2=0 → Off c r.1 (sh.erase (dir,nm)) b 0 0)∧(r.2≠0 → Off c r.1 sh b 0 0) := by
  have ⟨hdone,hcancel⟩ := removeEntry_off (m := Pi.single i (-1)) h (Fs.addLinks · i (-1))
    (Fs.addLinks · i 1) hget
    (fun _ h' => (h'.addLinks i (-1)).cast rfl (zero_add _) rfl)
    (fun h' => (h'.addLinks i 1).cast rfl (by rw [Pi.single_neg]; abel) rfl)
    (request (.unlink nm.length 0 0)) o
  refine ⟨fun hzero => (hdone hzero).cast rfl ?_ rfl,hcancel⟩
  unfold Shape.credit
  rw [hfile,if_neg nofun,Pi.single_neg]
  abel

/-- The two links that an empty directory has. -/
theorem two_links (i : ℕ) : (Pi.single i (-2) : ℕ → ℤ)=-(Pi.single i 1+Pi.single i 1) := by
  rw [← Pi.single_add,← Pi.single_neg]
  rfl

/-- A directory without entries has no links by entries. -/
theorem Shape.links_empty {i : ℕ} (hdir : sh.isDir i=true)
    (hempty : ∀ k j,sh.entries.get k=some j → k.1≠i) : sh.links i=0 := by
  refine Table.total_eq_zero fun k j hget => ?_
  unfold Shape.credit
  split
  · exact Pi.single_eq_of_ne (hempty k j hget).symm 1
  next hfile =>
    refine Pi.single_eq_of_ne ?_ 1
    rintro rfl
    exact hfile hdir

theorem emptyDir_entries {i : ℕ} (hshape : s.shape=sh) (h : emptyDir s i) (k : Place) (j : ℕ)
    (hget : sh.entries.get k=some j) : k.1≠i := by
  rw [← hshape] at hget
  refine h k ((s.entries.mem_keys k).mpr ?_)
  rw [show s.entries.get k=some j from hget]
  rfl

theorem emptyDir_of_check {i : ℕ} {o : Steps} (h : checkDirEmpty s i o=0) : emptyDir s i := by
  unfold checkDirEmpty at h
  split at h
  · cases h
  · split at h
    next hempty => exact hempty
    · cases h

/-- Both links of an empty directory are cleared. -/
theorem clearLinks_eq {i : ℕ} {x : Inode} (hget : s.inodes.get i=some x) (hlinks : x.nlink=2) :
    s.clearLinks i=s.addLinks i (-2) := by
  unfold Fs.clearLinks Fs.addLinks Fs.modify
  rw [hget]
  dsimp only
  rw [hlinks]
  rfl

theorem ubifsRmdir_off (h : Off c s sh b 0 0) (hwf : sh.WellFormed) {dir i : ℕ}
    (hget : sh.entries.get (dir,nm)=some i) (hdir : sh.isDir i=true) (o : Steps) :
    let r := ubifsRmdir c s dir nm i o
    (r.2=0 → Off c r.1 (sh.erase (dir,nm)) b (Pi.single i (-2)) 0∧
      ∀ k j,sh.entries.get k=some j → k.1≠i)∧(r.2≠0 → Off c r.1 sh b 0 0) := by
  unfold ubifsRmdir
  dsimp only
  split
  next hne => exact ⟨fun hzero => absurd hzero hne,fun _ => h⟩
  next hcheck =>
    have hempty := emptyDir_entries h.shape (emptyDir_of_check (not_not.mp hcheck))
    have ⟨x,hx,hdead⟩ := hwf.named _ _ hget
    have ⟨y,hy,hkind⟩ := exists_of_kinds h.shape hx
    have hydir : y.isDir=true := by
      unfold Shape.isDir at hdir
      rw [hx,← hkind] at hdir
      exact hdir
    have hown : y.kind.ownLinks=2 := if_pos ⟨hydir,by rw [hkind]; exact hdead⟩
    have hlinks : y.nlink=2 := by
      rw [h.links i y hy,hown,Shape.links_empty hdir hempty]
      rfl
    have ⟨hdone,hcancel⟩ := removeEntry_off (m := Pi.single i (-2)+Pi.single dir (-1)) h
      (fun s => (s.clearLinks i).addLinks dir (-1))
      (fun s => ((s.addLinks dir 1).addLinks i 1).addLinks i 1) hget
      (fun {s'} {b'} hinodes h' => by
        rw [clearLinks_eq (hinodes ▸ hy) hlinks]
        exact ((h'.addLinks i (-2)).addLinks dir (-1)).cast rfl (by rw [zero_add]) rfl)
      (fun h' => (((h'.addLinks dir 1).addLinks i 1).addLinks i 1).cast rfl (by
        rw [two_links,Pi.single_neg]
        abel) rfl) (request (.rmdir nm.length 0)) o
    refine ⟨fun hzero => ⟨(hdone hzero).cast rfl ?_ rfl,hempty⟩,hcancel⟩
    unfold Shape.credit
    rw [if_pos hdir,Pi.single_neg dir]
    abel

/-! ## Renaming -/

/-- The budget of the inode that a rename leaves dirty. -/
theorem growth_dirty (c : Info) {dataLen : ℕ} (h : dataLen≤UBIFS_MAX_INO_DATA) :
    growth c {dirtiedIno := 1,dirtiedInoD := bits 15 (align8 dataLen)}=
      Fs.dirtyGrowth c dataLen := by
  funext g
  cases g with
  | idx => simp [growth,calcIdxGrowth,Fs.dirtyGrowth]
  | data => simp [growth,calcDataGrowth,Fs.dirtyGrowth]
  | dd =>
    rw [show bits 15 (align8 dataLen)=align8 dataLen from bits_align8 h (by decide)]
    simp [growth,calcDdGrowth,Fs.dirtyGrowth]

/-- The inode that was renamed is dirty, or written, and has the budget for that. -/
theorem renameDirty_off {i : ℕ} {x : Kind} (hx : sh.kinds i=some x)
    {req : Req} (hreq : growth c req=Fs.dirtyGrowth c x.dataLen)
    (h : Off c s sh (b+growth c req) n z) {o : Steps} (hwritten : o.sync=true → o.written=true) :
    Off c (renameDirty c s i req o).1 sh b n z∧(renameDirty c s i req o).2=0 := by
  have ⟨y,hy,hkind⟩ := exists_of_kinds h.shape hx
  have hrelease : Off c (if (s.inodes.get i).any Inode.dirty then
      (s.markInodeDirty i).release c req else s.markInodeDirty i) sh b n z := by
    have h1 := h.markInodeDirty hy
    rw [hy,Option.any_some]
    cases hdirty : y.dirty with
    | true =>
      rw [hdirty,if_pos rfl] at h1
      exact (h1.release req).cast (add_sub_cancel_right _ _) rfl rfl
    | false =>
      rw [hdirty,if_neg nofun] at h1
      refine h1.cast ?_ rfl rfl
      rw [hreq,← hkind]
      exact add_sub_cancel_right _ _
  unfold renameDirty
  split
  next hsync =>
    rw [hwritten hsync]
    exact ⟨hrelease.markInodeClean i,rfl⟩
  · exact ⟨hrelease,rfl⟩

/-- How a rename changes link counts before the journal is written. -/
def renameLinks (old new : Place) (target : Option ℕ) (isDir : Bool) : ℕ → ℤ :=
  let move : Bool := new.1≠old.1
  let one : ℕ → ℕ → ℤ := fun i => Pi.single i 1
  (if isDir then
    if move then -one old.1+if target.isNone then one new.1 else 0
    else if target.isSome then -one old.1 else 0
  else 0)+
  match target with
  | some j => (if isDir then -one j else 0)-one j
  | none => 0

/-- And sizes. -/
def renameSizes (old new : Place) (target : Option ℕ) : ℕ → ℤ :=
  -Shape.room old+match target with
    | some _ => 0
    | none => Shape.room new

theorem renameAdjust_off (h : Off c s sh b 0 0) (old new : Place) (target : Option ℕ)
    (isDir : Bool) :
    Off c (renameAdjust s old new target isDir) sh b (renameLinks old new target isDir)
      (renameSizes old new target) := by
  have hroom : Pi.single old.1 (-Fs.szChange old.2)=-Shape.room old := Pi.single_neg _ _
  have hone : ∀ i,(Pi.single i (-1) : ℕ → ℤ)=-Pi.single i 1 := fun i => Pi.single_neg i 1
  unfold renameAdjust renameLinks renameSizes
  generalize decide (new.1≠old.1)=move
  cases isDir with
  | false =>
    cases target with
    | none =>
      refine ((h.addSize _ _).addSize _ _).cast rfl ?_ ?_
      · simp
      · rw [hroom,zero_add]
        rfl
    | some j =>
      refine ((h.addSize _ _).addLinks _ _).cast rfl ?_ ?_
      · simp [hone]
      · rw [hroom,zero_add,add_zero]
  | true =>
    cases target with
    | none =>
      cases move with
      | true =>
        refine ((((h.addLinks _ _).addLinks _ _).addSize _ _).addSize _ _).cast rfl ?_ ?_
        · simp [hone]
        · rw [hroom,zero_add]
          rfl
      | false =>
        refine ((h.addSize _ _).addSize _ _).cast rfl ?_ ?_
        · simp
        · rw [hroom,zero_add]
          rfl
    | some j =>
      cases move with
      | true =>
        refine ((((h.addLinks _ _).addSize _ _).addLinks _ _).addLinks _ _).cast rfl ?_ ?_
        · simp [hone]
          abel
        · rw [hroom,zero_add,add_zero]
      | false =>
        refine ((((h.addLinks _ _).addSize _ _).addLinks _ _).addLinks _ _).cast rfl ?_ ?_
        · simp [hone]
          abel
        · rw [hroom,zero_add,add_zero]

theorem renameCancel_off {old new : Place} {isDir : Bool}
    (h : Off c s sh b (renameLinks old new target isDir) (renameSizes old new target)) :
    Off c (renameCancel s old new target isDir) sh b 0 0 := by
  have hroom : Pi.single new.1 (-Fs.szChange new.2)=-Shape.room new := Pi.single_neg _ _
  have hone : ∀ i,(Pi.single i (-1) : ℕ → ℤ)=-Pi.single i 1 := fun i => Pi.single_neg i 1
  have hsome : -Shape.room old+0+Pi.single old.1 (Fs.szChange old.2)=0 := by
    rw [add_zero]
    exact neg_add_cancel _
  have hnone : -Shape.room old+Shape.room new+Pi.single new.1 (-Fs.szChange new.2)+
      Pi.single old.1 (Fs.szChange old.2)=0 := by
    rw [hroom]
    change _+Shape.room old=0
    abel
  unfold renameLinks renameSizes at h
  unfold renameCancel
  generalize decide (new.1≠old.1)=move at h ⊢
  cases isDir with
  | false =>
    cases target with
    | none =>
      refine ((h.addSize _ _).addSize _ _).cast rfl ?_ hnone
      simp
    | some j =>
      refine ((h.addLinks _ _).addSize _ _).cast rfl ?_ hsome
      simp
  | true =>
    cases target with
    | none =>
      cases move with
      | true =>
        refine ((((h.addSize _ _).addSize _ _).addLinks _ _).addLinks _ _).cast rfl ?_ hnone
        simp [hone]
      | false =>
        refine ((h.addSize _ _).addSize _ _).cast rfl ?_ hnone
        simp
    | some j =>
      cases move with
      | true =>
        refine ((((h.addLinks _ _).addLinks _ _).addSize _ _).addLinks _ _).cast rfl ?_ hsome
        simp
        abel
      | false =>
        refine ((((h.addLinks _ _).addLinks _ _).addSize _ _).addLinks _ _).cast rfl ?_ hsome
        simp
        abel

/-- The link counts that a rename leaves changed: those of a directory that it replaced. -/
def replacedLinks (target : Option ℕ) (isDir : Bool) : ℕ → ℤ :=
  match target with
  | some j => if isDir then Pi.single j (-2) else 0
  | none => 0

/-- The entries change as the counts did. -/
theorem jnlRename_off {old new : Place} {i : ℕ} {isDir : Bool}
    (h : Off c s sh b (renameLinks old new target isDir) (renameSizes old new target))
    (hold : sh.entries.get old=some i) (hnew : sh.entries.get new=target) (hne : old≠new)
    (hdir : sh.isDir i=isDir) (hsame : ∀ j,target=some j → sh.isDir j=isDir) :
    Off c (s.jnlRename c old new i target) ((sh.put new i).erase old) b
      (replacedLinks target isDir) 0 := by
  have hentries : ∀ {n z},Off c {s with entries := (s.entries.put new i).erase old}
      ((sh.put new i).erase old) b n z →
      Off c (s.jnlRename c old new i target) ((sh.put new i).erase old) b n z := by
    intro n z h'
    unfold Fs.jnlRename
    cases target with
    | none =>
      dsimp only
      split
      · exact (h'.markInodeClean old.1).markInodeClean new.1
      · exact h'.markInodeClean old.1
    | some j =>
      dsimp only
      split
      · exact ((h'.markInodeClean j).markInodeClean old.1).markInodeClean new.1
      · exact (h'.markInodeClean j).markInodeClean old.1
  have hget : (sh.put new i).entries.get old=some i := (Table.get_put_of_ne hne).trans hold
  have hcredit : (sh.put new i).credit old i=sh.credit old i := rfl
  refine hentries ?_
  cases target with
  | none =>
    refine ((h.put hnew i).erase hget).cast rfl ?_ ?_
    · rw [hcredit]
      unfold renameLinks replacedLinks Shape.credit
      rw [hdir]
      by_cases hmove : new.1=old.1
      · cases isDir with
        | true =>
          simp [hmove]
        | false =>
          simp
      · cases isDir with
        | true =>
          simp [hmove]
        | false =>
          simp
    · unfold renameSizes
      abel
  | some j =>
    refine ((h.overwrite hnew i).erase hget).cast rfl ?_ ?_
    · rw [hcredit]
      unfold renameLinks replacedLinks Shape.credit
      rw [hdir,hsame j rfl]
      by_cases hmove : new.1=old.1
      · cases isDir with
        | true =>
          simp [hmove]
          rw [two_links]
          abel
        | false =>
          simp
      · cases isDir with
        | true =>
          simp [hmove]
          rw [two_links]
          abel
        | false =>
          simp
    · unfold renameSizes
      abel

theorem ubifsRename_off (h : Off c s sh b 0 0) (hwf : sh.WellFormed) {old new : Place} {i : ℕ}
    (hold : sh.entries.get old=some i) (hnew : sh.entries.get new=target) (hne : target≠some i)
    (hsame : ∀ j,target=some j → sh.isDir j=sh.isDir i) {o : Steps}
    (hwritten : o.sync=true → o.written=true) :
    let r := ubifsRename c s old new i target o
    (r.2=0 → Off c r.1 ((sh.put new i).erase old) b (replacedLinks target (sh.isDir i)) 0∧
      ∀ j,target=some j → sh.isDir i=true → ∀ k j',sh.entries.get k=some j' → k.1≠j)∧
      (r.2≠0 → Off c r.1 sh b 0 0) := by
  have ⟨x,hx,_⟩ := hwf.named _ _ hold
  have ⟨y,hy,hkind⟩ := exists_of_kinds h.shape hx
  have hplaces : old≠new := by
    rintro rfl
    exact hne (hnew.symm.trans hold)
  have hdir : s.isDir i=sh.isDir i := by
    rw [← shape_isDir,h.shape]
  have hlen : ((s.inodes.get i).map Inode.dataLen).getD 0=x.dataLen := by
    rw [hy,← hkind]
    rfl
  have hgrowth := growth_dirty c (hwf.dataLen i x hx)
  unfold ubifsRename
  dsimp only
  rw [hdir,hlen]
  generalize ({dirtiedIno := 1,dirtiedInoD := bits 15 (align8 x.dataLen)} : Req)=inoReq at hgrowth ⊢
  generalize request _=req
  split
  next herr => exact ⟨fun hzero => absurd hzero herr,fun _ => h⟩
  next hcheck =>
    have hempty : ∀ j,target=some j → sh.isDir i=true →
        ∀ k j',sh.entries.get k=some j' → k.1≠j := by
      intro j hj hd
      unfold checkTarget at hcheck
      rw [hj] at hcheck
      dsimp only at hcheck
      rw [if_pos hd] at hcheck
      exact emptyDir_entries h.shape (emptyDir_of_check (not_not.mp hcheck))
    cases hr : budgetSpace c s req o.space with
    | error err => exact ⟨fun hzero => absurd hzero (budgetSpace_error hr),fun _ => h⟩
    | ok s1 =>
      have ⟨h1,_⟩ := h.budgetSpace hr
      dsimp only
      cases hr2 : budgetSpace c s1 inoReq (if o.inoSpace then .granted else .full) with
      | error err =>
        exact ⟨fun hzero => absurd hzero (budgetSpace_error hr2),
          fun _ => (h1.release req).cast (add_sub_cancel_right _ _) rfl rfl⟩
      | ok s2 =>
        have ⟨h2,_⟩ := h1.budgetSpace hr2
        have h3 : Off c s2 sh (b+growth c inoReq+growth c req) 0 0 :=
          h2.cast (add_right_comm _ _ _) rfl rfl
        have h4 := renameAdjust_off h3 old new target (sh.isDir i)
        dsimp only
        split
        · have h5 := (jnlRename_off h4 hold hnew hplaces rfl hsame).release req
          have hx' : ((sh.put new i).erase old).kinds i=some x := hx
          have ⟨hdone,hzero⟩ := renameDirty_off hx' hgrowth
            (h5.cast (add_sub_cancel_right _ _) rfl rfl) hwritten
          exact ⟨fun _ => ⟨hdone,hempty⟩,fun hne => absurd hzero hne⟩
        · have h5 := ((renameCancel_off h4).release inoReq).release req
          exact ⟨fun hzero => absurd hzero (show FAILED≠0 by decide),
            fun _ => h5.cast (by abel) rfl rfl⟩

end ArdroneKernel.UbifsDir
