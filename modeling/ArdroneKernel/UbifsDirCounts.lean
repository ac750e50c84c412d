import ArdroneKernel.UbifsDirOps

/-!
# Counts of UBIFS directories

Link counts and sizes against the entries. While an operation runs they differ, by amounts that
each of its steps changes.
-/

namespace ArdroneKernel.UbifsDir

open FiniteTable UbifsBudget UbifsXattr Function

/-- What stays of an inode while it is counted. -/
structure Kind where
  isDir : Bool
  dead : Bool
  dataLen : ℕ

def Inode.kind (x : Inode) : Kind := ⟨x.isDir,x.dead,x.dataLen⟩

/-- The links that an inode has of itself. -/
def Kind.ownLinks (x : Kind) : ℤ := if x.isDir=true∧x.dead=false then 2 else 0

/-- A file system without its counts. -/
structure Shape where
  kinds : ℕ → Option Kind
  entries : Table Place ℕ
  highestInum : ℕ
  dcache : Place → Option (Option ℕ)

def Fs.shape (s : Fs) : Shape :=
  ⟨fun i => (s.inodes.get i).map Inode.kind,s.entries,s.highestInum,s.dcache⟩

namespace Shape

def isDir (sh : Shape) (i : ℕ) : Bool := (sh.kinds i).any Kind.isDir

/-- The link that an entry is worth: one of its directory if it names a directory, or one of the
inode that it names. -/
def credit (sh : Shape) (k : Place) (j : ℕ) : ℕ → ℤ :=
  if sh.isDir j then Pi.single k.1 1 else Pi.single j 1

/-- The links of an inode by entries. -/
def links (sh : Shape) (i : ℕ) : ℤ := sh.entries.total fun k j => sh.credit k j i

/-- What an entry takes of its directory. -/
def room (k : Place) : ℕ → ℤ := Pi.single k.1 (Fs.szChange k.2)

def sizes (sh : Shape) (i : ℕ) : ℤ := sh.entries.total fun k _ => room k i

def put (sh : Shape) (k : Place) (j : ℕ) : Shape := {sh with entries := sh.entries.put k j}

def erase (sh : Shape) (k : Place) : Shape := {sh with entries := sh.entries.erase k}

def know (sh : Shape) (k : Place) (v : Option ℕ) : Shape :=
  {sh with dcache := update sh.dcache k (some v)}

def forget (sh : Shape) (k : Place) : Shape :=
  {sh with dcache := update sh.dcache k none}

def set (sh : Shape) (i : ℕ) (x : Option Kind) : Shape :=
  {sh with kinds := update sh.kinds i x}

end Shape

/-! ## Budgets of dirty inodes -/

variable (c : Info)

/-- The budget that an inode holds. -/
def Inode.held (x : Inode) : Budget := if x.dirty then Fs.dirtyGrowth c x.dataLen else 0

/-- Budgets apart from those of dirty inodes. -/
def Fs.net (s : Fs) : Budget := s.budg-s.inodes.total fun _ x => x.held c

/-! ## Counts that differ -/

/-- A state of some shape and budget, whose link counts differ by `n` from what they should be,
and the sizes of whose directories by `z`. -/
structure Off (s : Fs) (sh : Shape) (b : Budget) (n z : ℕ → ℤ) : Prop where
  shape : s.shape=sh
  net : s.net c=b
  links : ∀ i x,s.inodes.get i=some x → x.nlink=x.kind.ownLinks+sh.links i+n i
  sizes : ∀ i x,s.inodes.get i=some x → x.isDir=true →
    x.iSize=UBIFS_INO_NODE_SZ+sh.sizes i+z i∧x.uiSize=x.iSize

variable {c} {s : Fs} {sh : Shape} {b : Budget} {n z : ℕ → ℤ}

theorem shape_isDir (s : Fs) : s.shape.isDir=s.isDir := by
  funext i
  unfold Shape.isDir Fs.isDir Fs.shape
  dsimp only
  cases s.inodes.get i with
  | none => rfl
  | some x => rfl

/-- An inode is replaced by one of its kind. -/
theorem shape_put {i : ℕ} {x x' : Inode} (hget : s.inodes.get i=some x)
    (hkind : x'.kind=x.kind) : ({s with inodes := s.inodes.put i x'} : Fs).shape=s.shape := by
  unfold Fs.shape
  congr 1
  funext i'
  by_cases h : i'=i
  · rw [h,Table.get_put,hget,Option.map_some,Option.map_some,hkind]
  · rw [Table.get_put_of_ne h]

namespace Off

/-- An inode is replaced by one of its kind, and what it holds is released. -/
theorem replace (h : Off c s sh b n z) {i : ℕ} {x : Inode} (x' : Inode) (links size : ℤ)
    (budg : Budget) (hget : s.inodes.get i=some x) (hkind : x'.kind=x.kind) (hlinks : x'.nlink=x.nlink+links)
    (hsize : x'.iSize=x.iSize+size) (hui : x.uiSize=x.iSize → x'.uiSize=x'.iSize) :
    Off c {s with budg := budg,inodes := s.inodes.put i x'} sh
      (b-s.budg+budg+x.held c-x'.held c) (n+Pi.single i links) (z+Pi.single i size) where
  shape := (shape_put hget hkind).trans h.shape
  net := by
    rw [← h.net]
    unfold Fs.net
    rw [Table.total_put,Table.worth_some hget]
    abel
  links i' y hy := by
    by_cases hi : i'=i
    · rw [hi] at hy ⊢
      cases (Table.get_put _ _ _).symm.trans hy
      rw [hkind,hlinks,h.links i x hget,Pi.add_apply,Pi.single_eq_same]
      omega
    · rw [Table.get_put_of_ne hi] at hy
      rw [h.links i' y hy,Pi.add_apply,Pi.single_eq_of_ne hi,add_zero]
  sizes i' y hy hdir := by
    by_cases hi : i'=i
    · rw [hi] at hy ⊢
      cases (Table.get_put _ _ _).symm.trans hy
      have hdir' : x.isDir=true := (congrArg Kind.isDir hkind).symm.trans hdir
      have ⟨hx,hxui⟩ := h.sizes i x hget hdir'
      refine ⟨?_,hui hxui⟩
      rw [hsize,hx,Pi.add_apply,Pi.single_eq_same]
      omega
    · rw [Table.get_put_of_ne hi] at hy
      have ⟨hx,hxui⟩ := h.sizes i' y hy hdir
      refine ⟨?_,hxui⟩
      rw [hx,Pi.add_apply,Pi.single_eq_of_ne hi,add_zero]

/-- An inode that is not there does not differ. -/
theorem absent (h : Off c s sh b n z) {i : ℕ} (hget : s.inodes.get i=none) (links size : ℤ) :
    Off c s sh b (n+Pi.single i links) (z+Pi.single i size) := by
  have hne : ∀ {i' x},s.inodes.get i'=some x → i'≠i := by
    rintro i' x hx rfl
    cases hx.symm.trans hget
  refine ⟨h.shape,h.net,fun i' x hx => ?_,fun i' x hx hdir => ?_⟩
  · rw [Pi.add_apply,Pi.single_eq_of_ne (hne hx),add_zero]
    exact h.links i' x hx
  · rw [Pi.add_apply,Pi.single_eq_of_ne (hne hx),add_zero]
    exact h.sizes i' x hx hdir

/-- An inode is changed, but for its kind and whether it is dirty. -/
theorem modify (h : Off c s sh b n z) (i : ℕ) (f : Inode → Inode) (links size : ℤ)
    (hkind : ∀ x,(f x).kind=x.kind) (hdirty : ∀ x,(f x).dirty=x.dirty)
    (hlinks : ∀ x,(f x).nlink=x.nlink+links) (hsize : ∀ x,(f x).iSize=x.iSize+size)
    (hui : ∀ x,x.uiSize=x.iSize → (f x).uiSize=(f x).iSize) :
    Off c (s.modify i f) sh b (n+Pi.single i links) (z+Pi.single i size) := by
  unfold Fs.modify
  cases hget : s.inodes.get i with
  | none => exact h.absent hget links size
  | some x =>
    have hnew := h.replace (f x) links size s.budg hget (hkind x) (hlinks x) (hsize x) (hui x)
    have hheld : (f x).held c=x.held c := by
      unfold Inode.held
      rw [hdirty,show (f x).dataLen=x.dataLen from congrArg Kind.dataLen (hkind x)]
    rwa [hheld,sub_add_cancel,add_sub_cancel_right] at hnew

theorem addLinks (h : Off c s sh b n z) (i : ℕ) (links : ℤ) :
    Off c (s.addLinks i links) sh b (n+Pi.single i links) z := by
  have hnew := h.modify i (fun x => {x with nlink := x.nlink+links}) links 0
    (fun _ => rfl) (fun _ => rfl) (fun _ => rfl) (fun x => (add_zero x.iSize).symm)
    fun _ hui => hui
  rwa [Pi.single_zero,add_zero] at hnew

theorem addSize (h : Off c s sh b n z) (i : ℕ) (size : ℤ) :
    Off c (s.addSize i size) sh b n (z+Pi.single i size) := by
  have hnew := h.modify i (fun x => {x with iSize := x.iSize+size,uiSize := x.iSize+size}) 0 size
    (fun _ => rfl) (fun _ => rfl) (fun x => (add_zero x.nlink).symm) (fun _ => rfl)
    fun _ _ => rfl
  rwa [Pi.single_zero,add_zero] at hnew

/-- The budget of an inode with so much data. -/
theorem release_dirtyGrowth (budg : Budget) (dataLen : ℕ) :
    ubifsReleaseBudget budg (Fs.dirtyGrowth c dataLen)=budg-Fs.dirtyGrowth c dataLen :=
  release_eq fun _ => rfl

theorem markInodeClean (h : Off c s sh b n z) (i : ℕ) : Off c (s.markInodeClean c i) sh b n z := by
  unfold Fs.markInodeClean
  split
  next x hget =>
    split
    next hdirty =>
      have hnew := h.replace {x with dirty := false} 0 0
        (ubifsReleaseBudget s.budg (Fs.dirtyGrowth c x.dataLen)) hget rfl
        (add_zero x.nlink).symm (add_zero x.iSize).symm id
      have hheld : x.held c=Fs.dirtyGrowth c x.dataLen := if_pos hdirty
      have hclean : ({x with dirty := false} : Inode).held c=0 := if_neg nofun
      rw [Pi.single_zero,add_zero,add_zero,hheld,hclean,release_dirtyGrowth] at hnew
      have hb : b-s.budg+(s.budg-Fs.dirtyGrowth c x.dataLen)+Fs.dirtyGrowth c x.dataLen-0=b := by
        abel
      rwa [hb,← release_dirtyGrowth] at hnew
    · exact h
  · exact h

/-- An inode becomes dirty, with a budget of its own. -/
theorem markInodeDirty (h : Off c s sh b n z) {i : ℕ} {x : Inode} (hget : s.inodes.get i=some x) :
    Off c (s.markInodeDirty i) sh (if x.dirty then b else b-Fs.dirtyGrowth c x.dataLen) n z := by
  have hnew := h.replace {x with dirty := true} 0 0 s.budg hget rfl (add_zero x.nlink).symm (add_zero x.iSize).symm id
  have hheld : ({x with dirty := true} : Inode).held c=Fs.dirtyGrowth c x.dataLen := if_pos rfl
  rw [Pi.single_zero,add_zero,add_zero,hheld,sub_add_cancel] at hnew
  unfold Fs.markInodeDirty Fs.modify
  rw [hget]
  cases hdirty : x.dirty with
  | true =>
    have hx : x.held c=Fs.dirtyGrowth c x.dataLen := if_pos hdirty
    rwa [hx,add_sub_cancel_right] at hnew
  | false =>
    have hx : x.held c=0 := if_neg (by rw [hdirty]; nofun)
    rwa [hx,add_zero] at hnew

/-- Only budgets change. -/
theorem budget (h : Off c s sh b n z) {budg : Budget} (change : Budget) (hbudg : budg=s.budg+change) :
    Off c {s with budg := budg} sh (b+change) n z where
  shape := h.shape
  net := by
    rw [← h.net,hbudg]
    unfold Fs.net
    dsimp only
    abel
  links := h.links
  sizes := h.sizes

theorem release (h : Off c s sh b n z) (req : Req) :
    Off c (s.release c req) sh (b-growth c req) n z := by
  have hnew := h.budget (-growth c req)
    ((release_growth s.budg req).trans (sub_eq_add_neg s.budg _))
  rwa [← sub_eq_add_neg] at hnew

theorem budgetSpace (h : Off c s sh b n z) {s' : Fs} {req : Req} {space : Space}
    (hok : budgetSpace c s req space=.ok s') :
    Off c s' sh (b+growth c req) n z∧s'.inodes=s.inodes := by
  unfold UbifsDir.budgetSpace at hok
  split at hok
  next budg hbudg =>
    cases hok
    exact ⟨h.budget _ (budgetSpace_some hbudg),rfl⟩
  · cases hok

/-- Only what the VFS knows changes. -/
theorem know (h : Off c s sh b n z) (k : Place) (v : Option ℕ) :
    Off c (s.know k v) (sh.know k v) b n z where
  shape := by
    rw [← h.shape]
    rfl
  net := h.net
  links := h.links
  sizes := h.sizes

theorem forget (h : Off c s sh b n z) (k : Place) : Off c (s.forget k) (sh.forget k) b n z where
  shape := by
    rw [← h.shape]
    rfl
  net := h.net
  links := h.links
  sizes := h.sizes

/-- Entries change, and with them what inodes should have. -/
theorem entries (h : Off c s sh b n z) {entries : Table Place ℕ} {n' z' : ℕ → ℤ}
    (hlinks : ∀ i,({sh with entries := entries} : Shape).links i+n' i=sh.links i+n i)
    (hsizes : ∀ i,({sh with entries := entries} : Shape).sizes i+z' i=sh.sizes i+z i) :
    Off c {s with entries := entries} {sh with entries := entries} b n' z' where
  shape := by
    rw [← h.shape]
    rfl
  net := h.net
  links i x hx := by
    rw [h.links i x hx,add_assoc,add_assoc,hlinks]
  sizes i x hx hdir := by
    have ⟨hsize,hui⟩ := h.sizes i x hx hdir
    rw [add_assoc,hsizes,← add_assoc]
    exact ⟨hsize,hui⟩

/-- An entry is removed. -/
theorem erase (h : Off c s sh b n z) {k : Place} {j : ℕ} (hget : sh.entries.get k=some j) :
    Off c {s with entries := s.entries.erase k} (sh.erase k) b (n+sh.credit k j)
      (z+Shape.room k) := by
  have hentries : s.entries=sh.entries := congrArg Shape.entries h.shape
  rw [hentries]
  refine h.entries (fun i => ?_) fun i => ?_
  · change (sh.entries.erase k).total (fun k j => sh.credit k j i)+_=_
    rw [Table.total_erase,Table.worth_some hget,Pi.add_apply]
    change sh.links i-_+_=_
    omega
  · change (sh.entries.erase k).total (fun k _ => Shape.room k i)+_=_
    rw [Table.total_erase,Table.worth_some hget,Pi.add_apply]
    change sh.sizes i-_+_=_
    omega

/-- An entry is added. -/
theorem put (h : Off c s sh b n z) {k : Place} (hget : sh.entries.get k=none) (j : ℕ) :
    Off c {s with entries := s.entries.put k j} (sh.put k j) b (n-sh.credit k j)
      (z-Shape.room k) := by
  have hentries : s.entries=sh.entries := congrArg Shape.entries h.shape
  rw [hentries]
  refine h.entries (fun i => ?_) fun i => ?_
  · change (sh.entries.put k j).total (fun k j => sh.credit k j i)+_=_
    rw [Table.total_put,Table.worth_none hget,Pi.sub_apply]
    change sh.links i-_+_+_=_
    omega
  · change (sh.entries.put k j).total (fun k _ => Shape.room k i)+_=_
    rw [Table.total_put,Table.worth_none hget,Pi.sub_apply]
    change sh.sizes i-_+_+_=_
    omega

/-- An entry is replaced. -/
theorem overwrite (h : Off c s sh b n z) {k : Place} {j : ℕ} (hget : sh.entries.get k=some j)
    (i : ℕ) :
    Off c {s with entries := s.entries.put k i} (sh.put k i) b
      (n+sh.credit k j-sh.credit k i) z := by
  have hentries : s.entries=sh.entries := congrArg Shape.entries h.shape
  rw [hentries]
  refine h.entries (fun i' => ?_) fun i' => ?_
  · change (sh.entries.put k i).total (fun k j => sh.credit k j i')+_=_
    rw [Table.total_put,Table.worth_some hget,Pi.sub_apply,Pi.add_apply]
    change sh.links i'-_+_+_=_
    omega
  · change (sh.entries.put k i).total (fun k _ => Shape.room k i')+_=_
    rw [Table.total_put,Table.worth_some hget]
    change sh.sizes i'-_+_+_=_
    omega

end Off

/-! ## Well-formed shapes -/

namespace Shape

/-- A directory that has not been removed. -/
def Live (sh : Shape) (i : ℕ) : Prop := ∃ x,sh.kinds i=some x∧x.isDir=true∧x.dead=false

/-- An inode that entries may name. -/
def Nameable (sh : Shape) (i : ℕ) : Prop := ∃ x,sh.kinds i=some x∧x.dead=false

/-- Entries are in directories that exist and name inodes that exist, a directory is named once,
and the VFS knows no names that are wrong. -/
structure WellFormed (sh : Shape) : Prop where
  dir : ∀ k j,sh.entries.get k=some j → sh.Live k.1
  named : ∀ k j,sh.entries.get k=some j → sh.Nameable j
  once : ∀ k k' j,sh.entries.get k=some j → sh.entries.get k'=some j → sh.isDir j=true → k=k'
  inum : ∀ i x,sh.kinds i=some x → i≤ sh.highestInum
  dataLen : ∀ i x,sh.kinds i=some x → x.dataLen≤UBIFS_MAX_INO_DATA
  dead : ∀ i x,sh.kinds i=some x → x.dead=true → x.isDir=true
  known : ∀ k v,sh.dcache k=some v → sh.entries.get k=v

namespace WellFormed

variable (h : sh.WellFormed) {k k' : Place} {i j : ℕ}

theorem live_isDir (hlive : sh.Live i) : sh.isDir i=true := by
  have ⟨x,hx,hdir,_⟩ := hlive
  unfold Shape.isDir
  rw [hx]
  exact hdir

include h

theorem know : (sh.know k (sh.entries.get k)).WellFormed :=
  {h with
    known := fun k' v hv => by
      by_cases hk : k'=k
      · rw [hk] at hv ⊢
        change update sh.dcache k (some (sh.entries.get k)) k=some v at hv
        rw [update_self] at hv
        exact Option.some_inj.mp hv
      · exact h.known k' v ((update_of_ne hk _ _).symm.trans hv)}

theorem forget : (sh.forget k).WellFormed :=
  {h with
    known := fun k' v hv => by
      by_cases hk : k'=k
      · rw [hk] at hv
        change update sh.dcache k none k=some v at hv
        rw [update_self] at hv
        cases hv
      · exact h.known k' v ((update_of_ne hk _ _).symm.trans hv)}

theorem bump : ({sh with highestInum := sh.highestInum+1} : Shape).WellFormed :=
  {h with inum := fun i x hx => Nat.le_succ_of_le (h.inum i x hx)}

omit h in
theorem get_of_erase (hget : (sh.entries.erase k).get k'=some j) :
    k'≠k∧sh.entries.get k'=some j := by
  have hk : k'≠k := by
    rintro rfl
    cases (Table.get_erase _ _).symm.trans hget
  exact ⟨hk,(Table.get_erase_of_ne hk).symm.trans hget⟩

/-- An entry is removed that the VFS has forgotten. -/
theorem erase (hforgot : sh.dcache k=none) : (sh.erase k).WellFormed where
  dir k' j' hget := h.dir k' j' (get_of_erase hget).2
  named k' j' hget := h.named k' j' (get_of_erase hget).2
  once k' k'' j' hget hget' := h.once k' k'' j' (get_of_erase hget).2 (get_of_erase hget').2
  inum := h.inum
  dataLen := h.dataLen
  dead := h.dead
  known k' v hv := by
    have hk : k'≠k := by
      rintro rfl
      cases hforgot.symm.trans hv
    exact (Table.get_erase_of_ne hk).trans (h.known k' v hv)

/-- An entry is added or replaced that the VFS has forgotten. -/
theorem put (hforgot : sh.dcache k=none) (hlive : sh.Live k.1) (hname : sh.Nameable j)
    (honce : sh.isDir j=true → ∀ k',sh.entries.get k'≠some j) : (sh.put k j).WellFormed := by
  have hcases : ∀ {k' j'},(sh.entries.put k j).get k'=some j' →
      k'=k∧j'=j∨k'≠k∧sh.entries.get k'=some j' := by
    intro k' j' hget
    by_cases hk : k'=k
    · rw [hk,Table.get_put] at hget
      exact .inl ⟨hk,(Option.some_inj.mp hget).symm⟩
    · rw [Table.get_put_of_ne hk] at hget
      exact .inr ⟨hk,hget⟩
  refine ⟨?_,?_,?_,h.inum,h.dataLen,h.dead,?_⟩
  · intro k' j' hget
    rcases hcases hget with ⟨rfl,rfl⟩|⟨_,hold⟩
    · exact hlive
    · exact h.dir k' j' hold
  · intro k' j' hget
    rcases hcases hget with ⟨rfl,rfl⟩|⟨_,hold⟩
    · exact hname
    · exact h.named k' j' hold
  · intro k' k'' j' hget hget' hdir
    rcases hcases hget with ⟨rfl,rfl⟩|⟨_,hold⟩
    · rcases hcases hget' with ⟨rfl,_⟩|⟨_,hold'⟩
      · rfl
      · exact absurd hold' (honce hdir k'')
    · rcases hcases hget' with ⟨rfl,rfl⟩|⟨_,hold'⟩
      · exact absurd hold (honce hdir k')
      · exact h.once k' k'' j' hold hold' hdir
  · intro k' v hv
    have hk : k'≠k := by
      rintro rfl
      cases hforgot.symm.trans hv
    exact (Table.get_put_of_ne hk).trans (h.known k' v hv)

/-- An inode gets a number that no other has. -/
theorem add {x : Kind} (hnone : sh.kinds i=none) (hnum : i≤ sh.highestInum) (hdead : x.dead=false)
    (hdata : x.dataLen≤UBIFS_MAX_INO_DATA) : (sh.set i (some x)).WellFormed := by
  have hother : ∀ {j y},sh.kinds j=some y → (sh.set i (some x)).kinds j=some y := by
    intro j y hy
    have hne : j≠i := by
      rintro rfl
      cases hnone.symm.trans hy
    exact (update_of_ne hne _ _).trans hy
  have hcases : ∀ {j y},(sh.set i (some x)).kinds j=some y → j=i∧y=x∨sh.kinds j=some y := by
    intro j y hy
    change update sh.kinds i (some x) j=some y at hy
    by_cases hne : j=i
    · rw [hne,update_self] at hy
      exact .inl ⟨hne,(Option.some_inj.mp hy).symm⟩
    · exact .inr ((update_of_ne hne _ _).symm.trans hy)
  refine ⟨?_,?_,?_,?_,?_,?_,h.known⟩
  · intro k j hget
    have ⟨y,hy,hlive⟩ := h.dir k j hget
    exact ⟨y,hother hy,hlive⟩
  · intro k j hget
    have ⟨y,hy,hlive⟩ := h.named k j hget
    exact ⟨y,hother hy,hlive⟩
  · intro k k' j hget hget' hdir
    refine h.once k k' j hget hget' ?_
    have ⟨y,hy,_⟩ := h.named k j hget
    unfold Shape.isDir at hdir ⊢
    rwa [hother hy,← hy] at hdir
  · intro j y hy
    rcases hcases hy with ⟨rfl,_⟩|hold
    · exact hnum
    · exact h.inum j y hold
  · intro j y hy
    rcases hcases hy with ⟨_,rfl⟩|hold
    · exact hdata
    · exact h.dataLen j y hold
  · intro j y hy hd
    rcases hcases hy with ⟨_,rfl⟩|hold
    · cases hdead.symm.trans hd
    · exact h.dead j y hold hd

/-- A directory that is neither named nor has entries is removed. -/
theorem kill {x : Kind} (hget : sh.kinds i=some x) (hdir : x.isDir=true)
    (hunused : ∀ k j,sh.entries.get k=some j → k.1≠i∧j≠i) :
    (sh.set i (some {x with dead := true})).WellFormed := by
  have hcases : ∀ {j y},(sh.set i (some {x with dead := true})).kinds j=some y →
      j=i∧y={x with dead := true}∨j≠i∧sh.kinds j=some y := by
    intro j y hy
    change update sh.kinds i _ j=some y at hy
    by_cases hne : j=i
    · rw [hne,update_self] at hy
      exact .inl ⟨hne,(Option.some_inj.mp hy).symm⟩
    · exact .inr ⟨hne,(update_of_ne hne _ _).symm.trans hy⟩
  refine ⟨?_,?_,?_,?_,?_,?_,h.known⟩
  · intro k j hk
    have ⟨y,hy,hlive⟩ := h.dir k j hk
    exact ⟨y,(update_of_ne (hunused k j hk).1 _ _).trans hy,hlive⟩
  · intro k j hk
    have ⟨y,hy,hlive⟩ := h.named k j hk
    exact ⟨y,(update_of_ne (hunused k j hk).2 _ _).trans hy,hlive⟩
  · intro k k' j hk hk' hd
    refine h.once k k' j hk hk' ?_
    have hne : (sh.set i (some {x with dead := true})).kinds j=sh.kinds j :=
      update_of_ne (hunused k j hk).2 _ _
    unfold Shape.isDir at hd ⊢
    rwa [hne] at hd
  · intro j y hy
    rcases hcases hy with ⟨rfl,_⟩|⟨_,hold⟩
    · exact h.inum j x hget
    · exact h.inum j y hold
  · intro j y hy
    rcases hcases hy with ⟨_,rfl⟩|⟨_,hold⟩
    · exact h.dataLen i x hget
    · exact h.dataLen j y hold
  · intro j y hy hd
    rcases hcases hy with ⟨_,rfl⟩|⟨_,hold⟩
    · exact hdir
    · exact h.dead j y hold hd

end WellFormed

/-- Directories stay directories, as far as entries name them. -/
theorem links_set (sh : Shape) (i : ℕ) (x : Option Kind)
    (hsame : ∀ k j,sh.entries.get k=some j → (sh.set i x).isDir j=sh.isDir j) (i' : ℕ) :
    (sh.set i x).links i'=sh.links i' := by
  refine Table.total_congr fun k j hget => ?_
  unfold credit
  rw [hsame k j hget]

/-- An inode that is not named, and has no entries, has no links by entries. -/
theorem links_zero {i : ℕ} (hunused : ∀ k j,sh.entries.get k=some j → k.1≠i∧j≠i) :
    sh.links i=0 := by
  refine Table.total_eq_zero fun k j hget => ?_
  have ⟨hdir,hname⟩ := hunused k j hget
  unfold credit
  split
  · exact Pi.single_eq_of_ne hdir.symm 1
  · exact Pi.single_eq_of_ne hname.symm 1

theorem sizes_zero {i : ℕ} (hunused : ∀ k j,sh.entries.get k=some j → k.1≠i) :
    sh.sizes i=0 :=
  Table.total_eq_zero fun k j hget => Pi.single_eq_of_ne (hunused k j hget).symm _

end Shape

namespace Off

/-- A removed directory is marked. -/
theorem kill (h : Off c s sh b n z) {i : ℕ} {x : Inode} (hget : s.inodes.get i=some x)
    (hdir : x.isDir=true) (hdead : x.dead=false) :
    Off c (s.kill i) (sh.set i (some {x.kind with dead := true})) b (n+Pi.single i 2) z := by
  have hkill : s.kill i={s with inodes := s.inodes.put i {x with dead := true}} := by
    unfold Fs.kill Fs.modify
    rw [hget]
  have hkind : sh.kinds i=some x.kind := by
    rw [← h.shape]
    unfold Fs.shape
    dsimp only
    rw [hget]
    rfl
  have hlinks := sh.links_set i (some {x.kind with dead := true}) fun k j _ => by
      unfold Shape.isDir Shape.set
      dsimp only
      by_cases hj : j=i
      · rw [hj,update_self,hkind]
        rfl
      · rw [update_of_ne hj]
  rw [hkill]
  refine ⟨?_,?_,?_,?_⟩
  · rw [← h.shape]
    unfold Fs.shape Shape.set
    congr 1
    funext j
    by_cases hj : j=i
    · rw [hj,update_self,Table.get_put]
      rfl
    · rw [update_of_ne hj,Table.get_put_of_ne hj]
  · rw [← h.net]
    unfold Fs.net
    rw [Table.total_put,Table.worth_some hget]
    unfold Inode.held
    abel
  · intro j y hy
    rw [hlinks]
    by_cases hj : j=i
    · rw [hj] at hy ⊢
      cases (Table.get_put _ _ _).symm.trans hy
      have hold := h.links i x hget
      have hown : x.kind.ownLinks=2 := if_pos ⟨hdir,hdead⟩
      have hnew : (({x with dead := true} : Inode).kind).ownLinks=0 := if_neg fun h => nomatch h.2
      rw [hnew,Pi.add_apply,Pi.single_eq_same]
      dsimp only
      omega
    · rw [Table.get_put_of_ne hj] at hy
      rw [h.links j y hy,Pi.add_apply,Pi.single_eq_of_ne hj,add_zero]
  · intro j y hy hd
    by_cases hj : j=i
    · rw [hj] at hy ⊢
      cases (Table.get_put _ _ _).symm.trans hy
      exact h.sizes i x hget hd
    · rw [Table.get_put_of_ne hj] at hy
      exact h.sizes j y hy hd

/-- An inode is made. -/
theorem newInode (h : Off c s sh b n z) {i : ℕ} {x : Inode} (hget : s.inodes.get i=none)
    (hunused : ∀ k j,sh.entries.get k=some j → k.1≠i∧j≠i) (hclean : x.dirty=false)
    (hsize : x.isDir=true → x.iSize=UBIFS_INO_NODE_SZ∧x.uiSize=x.iSize) (hn : n i=0)
    (hz : z i=0) :
    Off c {s with inodes := s.inodes.put i x} (sh.set i (some x.kind)) b
      (n+Pi.single i (x.nlink-x.kind.ownLinks)) z := by
  have hlinks := sh.links_set i (some x.kind) fun k j hk => by
    unfold Shape.isDir Shape.set
    dsimp only
    rw [update_of_ne (hunused k j hk).2]
  refine ⟨?_,?_,?_,?_⟩
  · rw [← h.shape]
    unfold Fs.shape Shape.set
    congr 1
    funext j
    by_cases hj : j=i
    · rw [hj,update_self,Table.get_put]
      rfl
    · rw [update_of_ne hj,Table.get_put_of_ne hj]
  · have hheld : x.held c=0 := if_neg (by rw [hclean]; nofun)
    rw [← h.net]
    unfold Fs.net
    rw [Table.total_put,Table.worth_none hget,hheld,sub_zero,add_zero]
  · intro j y hy
    rw [hlinks]
    by_cases hj : j=i
    · rw [hj] at hy ⊢
      cases (Table.get_put _ _ _).symm.trans hy
      rw [Shape.links_zero hunused,Pi.add_apply,Pi.single_eq_same,hn]
      omega
    · rw [Table.get_put_of_ne hj] at hy
      rw [h.links j y hy,Pi.add_apply,Pi.single_eq_of_ne hj,add_zero]
  · intro j y hy hd
    change _=_+sh.sizes j+z j∧_
    by_cases hj : j=i
    · rw [hj] at hy ⊢
      cases (Table.get_put _ _ _).symm.trans hy
      rw [Shape.sizes_zero fun k j hk => (hunused k j hk).1,hz]
      have ⟨hx,hui⟩ := hsize hd
      exact ⟨by omega,hui⟩
    · rw [Table.get_put_of_ne hj] at hy
      exact h.sizes j y hy hd

/-- An inode that is clean is forgotten. -/
theorem dropInode (h : Off c s sh b n z) {i : ℕ} {x : Inode} (hget : s.inodes.get i=some x)
    (hunused : ∀ k j,sh.entries.get k=some j → k.1≠i∧j≠i) (hclean : x.dirty=false) :
    Off c {s with inodes := s.inodes.erase i} (sh.set i none) b n z := by
  have hlinks := sh.links_set i none fun k j hk => by
    unfold Shape.isDir Shape.set
    dsimp only
    rw [update_of_ne (hunused k j hk).2]
  have hother : ∀ {j y},(s.inodes.erase i).get j=some y → s.inodes.get j=some y := by
    intro j y hy
    have hj : j≠i := by
      rintro rfl
      cases (Table.get_erase _ _).symm.trans hy
    exact (Table.get_erase_of_ne hj).symm.trans hy
  refine ⟨?_,?_,?_,?_⟩
  · rw [← h.shape]
    unfold Fs.shape Shape.set
    congr 1
    funext j
    by_cases hj : j=i
    · rw [hj,update_self,Table.get_erase]
      rfl
    · rw [update_of_ne hj,Table.get_erase_of_ne hj]
  · have hheld : x.held c=0 := if_neg (by rw [hclean]; nofun)
    rw [← h.net]
    unfold Fs.net
    rw [Table.total_erase,Table.worth_some hget,hheld,sub_zero]
  · intro j y hy
    rw [hlinks]
    exact h.links j y (hother hy)
  · intro j y hy hd
    exact h.sizes j y (hother hy) hd

end Off

end ArdroneKernel.UbifsDir
