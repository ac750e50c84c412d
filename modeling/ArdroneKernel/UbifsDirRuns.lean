import ArdroneKernel.Execution
import ArdroneKernel.UbifsDirSteps
import Mathlib.Algebra.BigOperators.Ring.Finset

/-!
# Sequences of directory operations

The calls that the VFS allows, by the names it knows. It learns of a removed or renamed entry
only from a call that returned zero.
-/

namespace ArdroneKernel.UbifsDir

open FiniteTable UbifsBudget UbifsXattr Execution

inductive Event where
  /-- The VFS looks up a name. -/
  | lookup (k : Place)
  /-- The VFS drops a name. -/
  | drop (k : Place)
  /-- A dirty inode is written. -/
  | writeInode (i : ℕ)
  | create (k : Place) (o : Steps)
  | mkdir (k : Place) (o : Steps)
  | mknod (k : Place) (device : Bool) (o : Steps)
  | symlink (k : Place) (len : ℕ) (o : Steps)
  | link (i : ℕ) (k : Place) (o : Steps)
  | unlink (k : Place) (o : Steps)
  | rmdir (k : Place) (o : Steps)
  | rename (old new : Place) (o : Steps)

/-- A directory that is not marked as removed. -/
def Fs.live (s : Fs) (i : ℕ) : Bool := (s.inodes.get i).any fun x => x.isDir && !x.dead

/-- A name that the VFS knows not to exist, in a directory it creates names in. -/
def Fs.vacant (s : Fs) (k : Place) : Prop := s.live k.1=true∧s.dcache k=some none

/-- A name of an inode that the VFS knows. -/
def Fs.taken (s : Fs) (k : Place) : Option ℕ :=
  if s.live k.1 then (s.dcache k).join else none

instance (s : Fs) (k : Place) : Decidable (s.vacant k) :=
  inferInstanceAs (Decidable (_∧_))

variable (c : Info)

/-- `vfs_unlink` and `ubifs_unlink` -/
def vfsUnlink (s : Fs) (k : Place) (i : ℕ) (o : Steps) : Fs :=
  let r := ubifsUnlink c s k.1 k.2 i o
  if r.2=0 then r.1.forget k else r.1

/-- `vfs_rmdir` and `ubifs_rmdir` -/
def vfsRmdir (s : Fs) (k : Place) (i : ℕ) (o : Steps) : Fs :=
  let r := ubifsRmdir c s k.1 k.2 i o
  if r.2=0 then (r.1.forget k).kill i else r.1

/-- `vfs_rename` and `ubifs_rename` -/
def vfsRename (s : Fs) (old new : Place) (i : ℕ) (target : Option ℕ) (o : Steps) : Fs :=
  let r := ubifsRename c s old new i target o
  if r.2=0 then
    let s' := (r.1.forget old).know new (some i)
    match target with
    | some j => if s.isDir i then s'.kill j else s'
    | none => s'
  else r.1

/-- What happens, if the VFS allows it. -/
def step (s : Fs) : Event → Option Fs
  | .lookup k => some (s.know k (s.entries.get k))
  | .drop k => some (s.forget k)
  | .writeInode i => some (s.markInodeClean c i)
  | .create k o => if s.vacant k then some (ubifsCreate c s k.1 k.2 o).1 else none
  | .mkdir k o => if s.vacant k then some (ubifsMkdir c s k.1 k.2 o).1 else none
  | .mknod k device o => if s.vacant k then some (ubifsMknod c s k.1 k.2 device o).1 else none
  | .symlink k len o => if s.vacant k then some (ubifsSymlink c s k.1 k.2 len o).1 else none
  | .link i k o =>
    if s.vacant k∧s.isDir i=false then some (ubifsLink c s i k.1 k.2 o).1 else none
  | .unlink k o =>
    match s.taken k with
    | some i => if s.isDir i then none else some (vfsUnlink c s k i o)
    | none => none
  | .rmdir k o =>
    match s.taken k with
    | some i => if s.isDir i then some (vfsRmdir c s k i o) else none
    | none => none
  | .rename old new o =>
    match s.taken old,s.dcache new with
    | some i,some target =>
      if s.live new.1=true∧target≠some i∧∀ j∈target,s.isDir j=s.isDir i then
        some (vfsRename c s old new i target o)
      else none
    | _,_ => none

/-- The final write of a rename of a synchronous inode does not fail. -/
def Written : Event → Prop
  | .rename _ _ o => o.sync=true → o.written=true
  | _ => True

variable {c} {s s' : Fs} {b : Budget}

theorem live_of (h : s.live i=true) : s.shape.Live i := by
  have ⟨x,hx,hlive⟩ := (Option.any_eq_true _ _).mp h
  rw [Bool.and_eq_true,Bool.not_eq_true'] at hlive
  exact ⟨x.kind,congrArg (Option.map Inode.kind) hx,hlive⟩

namespace Good

theorem vacant (good : Good c b s) {k : Place} (h : s.vacant k) :
    s.shape.Live k.1∧s.shape.entries.get k=none :=
  ⟨live_of h.1,good.shape.known k none h.2⟩

theorem taken (good : Good c b s) {k : Place} {i : ℕ} (h : s.taken k=some i) :
    s.shape.entries.get k=some i := by
  unfold Fs.taken at h
  split at h
  · exact good.shape.known k (some i) (Option.join_eq_some_iff.mp h)
  · cases h

theorem isDir (i : ℕ) (s : Fs) : s.shape.isDir i=s.isDir i := congrFun (shape_isDir s) i

end Good

/-- The inode of a directory, before it is marked. -/
theorem exists_dir {sh : Shape} (hshape : s.shape=sh) {i : ℕ} (hname : sh.Nameable i)
    (hdir : sh.isDir i=true) :
    ∃ x,s.inodes.get i=some x∧sh.kinds i=some x.kind∧x.isDir=true∧x.dead=false := by
  have ⟨y,hy,hdead⟩ := hname
  have ⟨x,hx,hkind⟩ := exists_of_kinds hshape hy
  unfold Shape.isDir at hdir
  rw [hy,← hkind] at hdir
  rw [← hkind] at hdead hy
  exact ⟨x,hx,hy,hdir,hdead⟩

/-- A directory that was emptied is marked. -/
theorem Off.killed {sh : Shape} {i : ℕ} (h : Off c s sh b (Pi.single i (-2)) 0)
    (hwf : sh.WellFormed) (hname : sh.Nameable i) (hdir : sh.isDir i=true)
    (hunused : ∀ k j,sh.entries.get k=some j → k.1≠i∧j≠i) : Good c b (s.kill i) := by
  have ⟨x,hx,hkind,hxdir,hdead⟩ := exists_dir h.shape hname hdir
  refine ((h.kill hx hxdir hdead).cast rfl ?_ rfl).good (hwf.kill hkind hxdir hunused)
  rw [← Pi.single_add]
  exact Pi.single_zero i

namespace Good

theorem unlink (good : Good c b s) {k : Place} {i : ℕ} (hget : s.taken k=some i)
    (hfile : s.isDir i=false) (o : Steps) : Good c b (vfsUnlink c s k i o) := by
  have ⟨hdone,hcancel⟩ := ubifsUnlink_off good.off (good.taken hget)
    ((Good.isDir i s).trans hfile) o
  unfold vfsUnlink
  dsimp only
  split
  next hzero => exact ((hdone hzero).forget k).good good.shape.eraseForgotten
  next hne => exact (hcancel hne).good good.shape

theorem rmdir (good : Good c b s) {k : Place} {i : ℕ} (hget : s.taken k=some i)
    (hdir : s.isDir i=true) (o : Steps) : Good c b (vfsRmdir c s k i o) := by
  have hk := good.taken hget
  have hd := (Good.isDir i s).trans hdir
  have ⟨hdone,hcancel⟩ := ubifsRmdir_off good.off good.shape hk hd o
  unfold vfsRmdir
  dsimp only
  split
  next hzero =>
    have ⟨hoff,hempty⟩ := hdone hzero
    refine (hoff.forget k).killed good.shape.eraseForgotten (good.shape.named k i hk) hd ?_
    intro k' j' hget'
    have ⟨hne,hold⟩ := Shape.WellFormed.get_of_erase hget'
    refine ⟨hempty k' j' hold,?_⟩
    rintro rfl
    exact hne (good.shape.once k' k j' hold hk hd)
  next hne => exact (hcancel hne).good good.shape

/-- The entry is at its new place only, and the VFS knows it there. -/
theorem renamed {sh : Shape} (hwf : sh.WellFormed) {old new : Place} {i : ℕ}
    (hold : sh.entries.get old=some i) (hne : old≠new) (hlive : sh.Live new.1) :
    ((((sh.put new i).erase old).forget old).know new (some i)).WellFormed := by
  have hmoved := (hwf.eraseForgotten (k := old)).putKnown (k := new) (j := i) hlive
    (hwf.named old i hold) fun hdir k' hget => by
      have ⟨hk,hget'⟩ := Shape.WellFormed.get_of_erase hget
      exact hk (hwf.once k' old i hget' hold hdir)
  have hshape : (((sh.put new i).erase old).forget old).know new (some i)=
      (((sh.erase old).forget old).put new i).know new (some i) := by
    unfold Shape.know Shape.forget Shape.put Shape.erase
    rw [Table.erase_put sh.entries i hne]
  rwa [hshape]

theorem rename (good : Good c b s) {old new : Place} {i : ℕ} {target : Option ℕ}
    (hold : s.taken old=some i) (hnew : s.dcache new=some target) (hlive : s.live new.1=true)
    (hne : target≠some i) (hsame : ∀ j∈target,s.isDir j=s.isDir i) {o : Steps}
    (hwritten : o.sync=true → o.written=true) : Good c b (vfsRename c s old new i target o) := by
  have hk := good.taken hold
  have htarget := good.shape.known new target hnew
  have hplaces : old≠new := by
    rintro rfl
    exact hne (htarget.symm.trans hk)
  have hdirs : ∀ j,target=some j → s.shape.isDir j=s.shape.isDir i := by
    intro j hj
    rw [Good.isDir,Good.isDir]
    exact hsame j hj
  have ⟨hdone,hcancel⟩ := ubifsRename_off good.off good.shape hk htarget hne hdirs hwritten
  unfold vfsRename
  dsimp only
  split
  next hzero =>
    have ⟨hoff,hempty⟩ := hdone hzero
    have hmoved := (hoff.forget old).know new (some i)
    have hwf := renamed good.shape hk hplaces (live_of hlive)
    cases target with
    | none => exact hmoved.good hwf
    | some j =>
      dsimp only
      rw [← Good.isDir i s]
      cases hdir : s.shape.isDir i with
      | false =>
        rw [hdir] at hmoved
        exact hmoved.good hwf
      | true =>
        unfold replacedLinks at hmoved
        dsimp only at hmoved
        rw [hdir,if_pos rfl] at hmoved
        have hjdir : s.shape.isDir j=true := (hdirs j rfl).trans hdir
        refine hmoved.killed hwf (good.shape.named new j htarget) hjdir ?_
        intro k' j' hget'
        have ⟨_,hput⟩ := Shape.WellFormed.get_of_erase hget'
        by_cases hk' : k'=new
        · rw [hk'] at hput ⊢
          cases (Table.get_put _ _ _).symm.trans hput
          refine ⟨hempty j rfl hdir new j htarget,?_⟩
          rintro rfl
          exact hne rfl
        · have hsaved := (Table.get_put_of_ne hk').symm.trans hput
          refine ⟨hempty j rfl hdir k' j' hsaved,?_⟩
          rintro rfl
          exact hk' (good.shape.once k' new j' hsaved htarget hjdir)
  next hfail => exact (hcancel hfail).good good.shape

/-- A call on a name that does not exist. -/
theorem ofVacant (good : Good c b s) {k : Place} {t : Fs}
    (hstep : (if s.vacant k then some t else none)=some s')
    (h : s.shape.Live k.1 → s.shape.entries.get k=none → Good c b t) : Good c b s' := by
  split at hstep
  next hvacant =>
    cases hstep
    have ⟨hlive,hnone⟩ := good.vacant hvacant
    exact h hlive hnone
  · cases hstep

/-- Each call the VFS allows keeps counts and budgets. -/
theorem step (good : Good c b s) {e : Event} (hwritten : Written e)
    (hstep : UbifsDir.step c s e=some s') : Good c b s' := by
  cases e with
  | lookup k =>
    cases hstep
    exact (good.off.know k _).good good.shape.know
  | drop k =>
    cases hstep
    exact (good.off.forget k).good good.shape.forget
  | writeInode i =>
    cases hstep
    exact (good.off.markInodeClean i).good good.shape
  | create k o =>
    exact good.ofVacant hstep fun hlive hnone =>
      ubifsCreate_good good.off good.shape hlive hnone o
  | mkdir k o =>
    exact good.ofVacant hstep fun hlive hnone =>
      ubifsMkdir_good good.off good.shape hlive hnone o
  | mknod k device o =>
    exact good.ofVacant hstep fun hlive hnone =>
      ubifsMknod_good good.off good.shape hlive hnone device o
  | symlink k len o =>
    exact good.ofVacant hstep fun hlive hnone =>
      ubifsSymlink_good good.off good.shape hlive hnone len o
  | link i k o =>
    unfold UbifsDir.step at hstep
    dsimp only at hstep
    split at hstep
    next hallowed =>
      cases hstep
      have ⟨hlive,hnone⟩ := good.vacant hallowed.1
      exact ubifsLink_good good.off good.shape hlive hnone
        ((Good.isDir i s).trans hallowed.2) o
    · cases hstep
  | unlink k o =>
    unfold UbifsDir.step at hstep
    dsimp only at hstep
    split at hstep
    next i hget =>
      split at hstep
      · cases hstep
      next hfile =>
        cases hstep
        exact good.unlink hget (Bool.not_eq_true _ ▸ hfile) o
    · cases hstep
  | rmdir k o =>
    unfold UbifsDir.step at hstep
    dsimp only at hstep
    split at hstep
    next i hget =>
      split at hstep
      next hdir =>
        cases hstep
        exact good.rmdir hget hdir o
      · cases hstep
    · cases hstep
  | rename old new o =>
    unfold UbifsDir.step at hstep
    dsimp only at hstep
    split at hstep
    next i target hold hnew =>
      split at hstep
      next hallowed =>
        cases hstep
        exact good.rename hold hnew hallowed.1 hallowed.2.1 hallowed.2.2 hwritten
      · cases hstep
    · cases hstep

end Good

/-! ## Counts -/

namespace Fs

/-- The entries of a directory. -/
def entriesIn (s : Fs) (i : ℕ) : Finset Place := s.entries.keys.filter (·.1=i)

/-- Those that name directories. -/
def subdirs (s : Fs) (i : ℕ) : Finset Place :=
  (s.entriesIn i).filter fun k => (s.entries.get k).any s.isDir=true

/-- The entries that name an inode. -/
def namesOf (s : Fs) (i : ℕ) : Finset Place :=
  s.entries.keys.filter fun k => s.entries.get k=some i

end Fs

/-- Link counts and sizes match the entries. -/
structure Counted (s : Fs) : Prop where
  links : ∀ i x,s.inodes.get i=some x → x.isDir=true →
    x.nlink=if x.dead then 0 else 2+((s.subdirs i).card : ℤ)
  sizes : ∀ i x,s.inodes.get i=some x → x.isDir=true →
    x.iSize=UBIFS_INO_NODE_SZ+∑ k∈s.entriesIn i,(calcDentSize k.2.length : ℤ)∧x.uiSize=x.iSize
  names : ∀ i x,s.inodes.get i=some x → x.isDir=false → x.nlink=(s.namesOf i).card

variable {i : ℕ}

theorem links_subdirs (hdir : s.isDir i=true) : s.shape.links i=(s.subdirs i).card := by
  unfold Fs.subdirs Fs.entriesIn
  rw [Finset.filter_filter,← Finset.sum_boole]
  refine Table.total_eq_sum fun k j hget => ?_
  have hget' : s.entries.get k=some j := hget
  unfold Shape.credit
  rw [shape_isDir,hget',Option.any_some]
  cases hj : s.isDir j with
  | true =>
    rw [if_pos rfl,Pi.single_apply]
    simp [eq_comm]
  | false =>
    rw [if_neg nofun,if_neg fun h => nomatch h.2]
    refine Pi.single_eq_of_ne ?_ 1
    rintro rfl
    cases hdir.symm.trans hj

theorem links_names (hwf : s.shape.WellFormed) (hfile : s.isDir i=false) :
    s.shape.links i=(s.namesOf i).card := by
  unfold Fs.namesOf
  rw [← Finset.sum_boole]
  refine Table.total_eq_sum fun k j hget => ?_
  have hget' : s.entries.get k=some j := hget
  unfold Shape.credit
  rw [shape_isDir,hget']
  cases hj : s.isDir j with
  | true =>
    have hne : j≠i := by
      rintro rfl
      cases hfile.symm.trans hj
    rw [if_pos rfl,if_neg fun h => hne (Option.some_inj.mp h)]
    refine Pi.single_eq_of_ne ?_ 1
    rintro rfl
    have hdir := Shape.WellFormed.live_isDir (hwf.dir k j hget)
    rw [shape_isDir] at hdir
    cases hfile.symm.trans hdir
  | false =>
    rw [if_neg nofun,Pi.single_apply]
    simp [eq_comm]

theorem sizes_entries (s : Fs) (i : ℕ) :
    s.shape.sizes i=∑ k∈s.entriesIn i,(calcDentSize k.2.length : ℤ) := by
  unfold Fs.entriesIn
  rw [Finset.sum_filter]
  refine Table.total_eq_sum fun k j _ => ?_
  unfold Shape.room Fs.szChange
  rw [Pi.single_apply]
  simp [eq_comm]

theorem isDir_get {x : Inode} (hget : s.inodes.get i=some x) : s.isDir i=x.isDir := by
  unfold Fs.isDir
  rw [hget]
  rfl

/-- A removed directory has no entries. -/
theorem links_dead (hwf : s.shape.WellFormed) {x : Inode} (hget : s.inodes.get i=some x)
    (hdir : x.isDir=true) (hdead : x.dead=true) : s.shape.links i=0 := by
  refine Shape.links_empty ((Good.isDir i s).trans ((isDir_get hget).trans hdir)) ?_
  rintro k j hk rfl
  have ⟨y,hy,_,hlive⟩ := hwf.dir k j hk
  have hx : s.shape.kinds k.1=some x.kind := congrArg (Option.map Inode.kind) hget
  cases hx.symm.trans hy
  cases hdead.symm.trans hlive

theorem Good.counted (good : Good c b s) : Counted s where
  links i x hget hdir := by
    rw [good.off.links i x hget]
    cases hdead : x.dead with
    | true =>
      have hown : x.kind.ownLinks=0 := if_neg fun h => by
        cases hdead.symm.trans h.2
      rw [hown,links_dead good.shape hget hdir hdead]
      rfl
    | false =>
      have hown : x.kind.ownLinks=2 := if_pos ⟨hdir,hdead⟩
      rw [hown,links_subdirs ((isDir_get hget).trans hdir)]
      exact add_zero _
  sizes i x hget hdir := by
    have ⟨hsize,hui⟩ := good.off.sizes i x hget hdir
    rw [sizes_entries] at hsize
    exact ⟨hsize.trans (add_zero _),hui⟩
  names i x hget hfile := by
    have hown : x.kind.ownLinks=0 := if_neg fun h => by
      cases hfile.symm.trans h.1
    rw [good.off.links i x hget,hown,links_names good.shape ((isDir_get hget).trans hfile)]
    exact (add_zero _).trans (zero_add _)

theorem Counted.good (h : Counted s) (c : Info) (hwf : s.shape.WellFormed) :
    Good c (s.net c) s := by
  refine ⟨⟨rfl,rfl,?_,?_⟩,hwf⟩
  · intro i x hget
    cases hdir : x.isDir with
    | true =>
      rw [h.links i x hget hdir]
      cases hdead : x.dead with
      | true =>
        have hown : x.kind.ownLinks=0 := if_neg fun h => by
          cases hdead.symm.trans h.2
        rw [hown,links_dead hwf hget hdir hdead]
        rfl
      | false =>
        have hown : x.kind.ownLinks=2 := if_pos ⟨hdir,hdead⟩
        rw [hown,links_subdirs ((isDir_get hget).trans hdir)]
        exact (add_zero _).symm
    | false =>
      have hown : x.kind.ownLinks=0 := if_neg fun h => by
        cases hdir.symm.trans h.1
      rw [h.names i x hget hdir,hown,links_names hwf ((isDir_get hget).trans hdir)]
      exact ((add_zero _).trans (zero_add _)).symm
  · intro i x hget hdir
    have ⟨hsize,hui⟩ := h.sizes i x hget hdir
    rw [sizes_entries]
    exact ⟨hsize.trans (add_zero _).symm,hui⟩

/-! ## Runs -/

/-- If no final write of a rename fails, link counts and sizes match the entries after every
call, and budgets change by those of dirty inodes only. -/
theorem links_counted {es : List Event} {t : Fs}
    (h : Run (step c) (fun _ e => Written e) s es t) (hwf : s.shape.WellFormed)
    (hcounted : Counted s) : Counted t∧t.net c=s.net c := by
  have good := h.invariant (Good c (s.net c)) (hcounted.good c hwf) fun good hwritten hstep =>
    good.step hwritten hstep
  exact ⟨good.counted,good.off.net⟩

/-- A root directory without entries. -/
def root : Fs :=
  ⟨Table.empty.put 1 ⟨true,false,2,UBIFS_INO_NODE_SZ,UBIFS_INO_NODE_SZ,false,0⟩,Table.empty,0,1,
    fun _ => none⟩

theorem root_only {x : Inode} (hget : root.inodes.get i=some x) :
    i=1∧x=⟨true,false,2,UBIFS_INO_NODE_SZ,UBIFS_INO_NODE_SZ,false,0⟩ := by
  by_cases hi : i=1
  · rw [hi] at hget
    cases hget
    exact ⟨hi,rfl⟩
  · cases (Table.get_put_of_ne hi).symm.trans hget

theorem root_kind {x : Kind} (hx : root.shape.kinds i=some x) : i=1∧x=⟨true,false,0⟩ := by
  have ⟨y,hy,hkind⟩ := exists_of_kinds rfl hx
  have ⟨hi,hroot⟩ := root_only hy
  rw [hroot] at hkind
  exact ⟨hi,hkind.symm⟩

theorem root_wellFormed : root.shape.WellFormed where
  dir := nofun
  named := nofun
  once := nofun
  inum i x hx := Nat.le_of_eq (root_kind hx).1
  dataLen i x hx := by
    rw [(root_kind hx).2]
    exact Nat.zero_le _
  dead i x hx _ := by
    rw [(root_kind hx).2]
  known := nofun

theorem root_counted : Counted root where
  links i x hget _ := by
    have ⟨hi,hx⟩ := root_only hget
    rw [hx,hi]
    rfl
  sizes i x hget _ := by
    have ⟨hi,hx⟩ := root_only hget
    rw [hx,hi]
    exact ⟨rfl,rfl⟩
  names i x hget hfile := by
    have ⟨_,hx⟩ := root_only hget
    rw [hx] at hfile
    cases hfile

/-- All steps succeed, and no inode is synchronous. -/
def Steps.all : Steps := ⟨.granted,true,true,true,true,true,false,true⟩

def info : Info := ⟨0,200⟩

/-- A file is linked, its old name is removed, and a directory replaces another. -/
theorem links_counted_example :
    ∃ t,Run (step info) (fun _ e => Written e) root
      [.lookup (1,['a']),.create (1,['a']) .all,.lookup (1,['b']),.link 2 (1,['b']) .all,
        .unlink (1,['a']) .all,.lookup (1,['c']),.mkdir (1,['c']) .all,.lookup (3,['d']),
        .mkdir (3,['d']) .all,.lookup (1,['e']),.mkdir (1,['e']) .all,
        .rename (3,['d']) (1,['e']) .all] t∧Counted t∧t.net info=root.net info := by
  have hrun : Run (step info) (fun _ e => Written e) root
      [.lookup (1,['a']),.create (1,['a']) .all,.lookup (1,['b']),.link 2 (1,['b']) .all,
        .unlink (1,['a']) .all,.lookup (1,['c']),.mkdir (1,['c']) .all,.lookup (3,['d']),
        .mkdir (3,['d']) .all,.lookup (1,['e']),.mkdir (1,['e']) .all,
        .rename (3,['d']) (1,['e']) .all] _ :=
    Run.cons trivial rfl <| Run.cons trivial rfl <| Run.cons trivial rfl <|
      Run.cons trivial rfl <| Run.cons trivial rfl <| Run.cons trivial rfl <|
      Run.cons trivial rfl <| Run.cons trivial rfl <| Run.cons trivial rfl <|
      Run.cons trivial rfl <| Run.cons trivial rfl <| Run.cons nofun rfl (Run.nil _)
  exact ⟨_,hrun,links_counted hrun root_wellFormed root_counted⟩

/-- The inode of a file that was renamed is not written. The file has its new name, but the VFS
knows the old one and removes it: the file has no links. -/
theorem links_miscounted :
    ∃ t,Run (step info) (fun _ _ => True) root
      [.lookup (1,['a']),.create (1,['a']) .all,.lookup (1,['b']),
        .rename (1,['a']) (1,['b']) {Steps.all with sync := true,written := false},
        .unlink (1,['a']) .all] t∧
      (t.inodes.get 2).map Inode.nlink=some 0∧t.namesOf 2={(1,['b'])}∧¬Counted t := by
  refine ⟨_,Run.cons trivial rfl (Run.cons trivial rfl (Run.cons trivial rfl
    (Run.cons trivial rfl (Run.cons trivial rfl (Run.nil _))))),rfl,?_,?_⟩
  · decide +kernel
  · intro h
    exact absurd (h.names 2 _ rfl rfl) (by decide +kernel)

end ArdroneKernel.UbifsDir
