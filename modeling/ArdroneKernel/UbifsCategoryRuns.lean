import ArdroneKernel.UbifsCategoryPlaces
import Mathlib.Algebra.BigOperators.Intervals

/-!
# Space statistics and runs

The statistics are the sums over all LEBs of the main area, of those in memory
and of those on flash only, after every sequence of operations on LEB properties.
-/

namespace ArdroneKernel.UbifsCategories

open SlotHeap UbifsLprops Function

variable {c : Sizes} {s s' : State} {p mainLebs : ℕ} (lst : LpStats) {lnum : ℕ}

/-- What a LEB adds to the statistics. -/
def share (c : Sizes) (lp : Lprops) : LpStats :=
  let spc := lp.free+lp.dirty
  { emptyLebs := if lp.free=c.lebSize then 1 else 0
    takenEmptyLebs := if lp.flags.taken∧lp.free=c.lebSize then 1 else 0
    idxLebs := if lp.flags.index then 1 else 0
    totalFree := lp.free
    totalDirty := lp.dirty
    totalUsed := if lp.flags.index then 0 else (c.lebSize : ℤ)-spc
    totalDead := if lp.flags.index then 0 else if spc<c.deadWm then spc else 0
    totalDark := if lp.flags.index then 0 else if spc<c.deadWm then 0 else ubifsCalcDark c spc }

/-- The properties of a LEB, in memory or on flash. -/
def State.props (c : Sizes) (s : State) (lnum : ℕ) : Lprops :=
  match s.loaded lnum with
  | some p => s.lprops p
  | none => unpackLprops c (s.stored lnum)

/-- The sum of a number over the LEBs of the main area. -/
def total (c : Sizes) (mainLebs : ℕ) (s : State) (f : LpStats → ℤ) : ℤ :=
  ∑ lnum∈Finset.range mainLebs,f (share c (s.props c lnum))

/-- The statistics as `struct ubifs_lp_stats` explains them. -/
def statsOf (c : Sizes) (mainLebs : ℕ) (s : State) : LpStats where
  emptyLebs := total c mainLebs s LpStats.emptyLebs
  takenEmptyLebs := total c mainLebs s LpStats.takenEmptyLebs
  idxLebs := total c mainLebs s LpStats.idxLebs
  totalFree := total c mainLebs s LpStats.totalFree
  totalDirty := total c mainLebs s LpStats.totalDirty
  totalUsed := total c mainLebs s LpStats.totalUsed
  totalDead := total c mainLebs s LpStats.totalDead
  totalDark := total c mainLebs s LpStats.totalDark

/-! ## Changes of one LEB -/

/-- Statistics with one number changed in every field by the difference of two
LEBs. -/
def exchange (lst old new : LpStats) : LpStats where
  emptyLebs := lst.emptyLebs-old.emptyLebs+new.emptyLebs
  takenEmptyLebs := lst.takenEmptyLebs-old.takenEmptyLebs+new.takenEmptyLebs
  idxLebs := lst.idxLebs-old.idxLebs+new.idxLebs
  totalFree := lst.totalFree-old.totalFree+new.totalFree
  totalDirty := lst.totalDirty-old.totalDirty+new.totalDirty
  totalUsed := lst.totalUsed-old.totalUsed+new.totalUsed
  totalDead := lst.totalDead-old.totalDead+new.totalDead
  totalDark := lst.totalDark-old.totalDark+new.totalDark

theorem share_of_strip {lp lp' : Lprops} (h : strip lp'=strip lp) : share c lp'=share c lp := by
  have hs : ∀ lp,share c lp=share c (strip lp) := fun _ => rfl
  rw [hs,h,←hs]

theorem leaveStats_eq (lp : Lprops) : leaveStats c lst lp={lst with
    takenEmptyLebs := lst.takenEmptyLebs-(share c lp).takenEmptyLebs
    totalUsed := lst.totalUsed-(share c lp).totalUsed
    totalDead := lst.totalDead-(share c lp).totalDead
    totalDark := lst.totalDark-(share c lp).totalDark} := by
  unfold leaveStats share
  dsimp only
  split_ifs <;> simp only [Int.sub_zero]

theorem joinStats_eq (lp : Lprops) : joinStats c lst lp={lst with
    takenEmptyLebs := lst.takenEmptyLebs+(share c lp).takenEmptyLebs
    totalUsed := lst.totalUsed+(share c lp).totalUsed
    totalDead := lst.totalDead+(share c lp).totalDead
    totalDark := lst.totalDark+(share c lp).totalDark} := by
  unfold joinStats share
  dsimp only
  split_ifs <;> simp only [Int.add_zero]

theorem changeFree_eq (lp : Lprops) (free : Option ℕ) :
    (changeFree c lst lp free).1={lst with
      emptyLebs := lst.emptyLebs-(share c lp).emptyLebs+
        (share c (changeFree c lst lp free).2).emptyLebs
      totalFree := lst.totalFree-(share c lp).totalFree+
        (share c (changeFree c lst lp free).2).totalFree} := by
  cases free with
  | none =>
    unfold changeFree
    rw [Int.sub_add_cancel,Int.sub_add_cancel]
  | some free =>
    unfold changeFree share
    by_cases hnew : align8 free=c.lebSize <;> by_cases hold : lp.free=c.lebSize <;>
    simp only [hnew,hold,ne_eq,not_true_eq_false,not_false_eq_true,if_true,if_false] <;>
    ext <;> dsimp only <;> omega

theorem changeDirty_eq (lp : Lprops) (dirty : Option ℕ) :
    (changeDirty lst lp dirty).1={lst with
      totalDirty := lst.totalDirty-(share c lp).totalDirty+
        (share c (changeDirty lst lp dirty).2).totalDirty} := by
  cases dirty with
  | none =>
    unfold changeDirty
    rw [Int.sub_add_cancel]
  | some dirty =>
    unfold changeDirty share
    ext <;> dsimp only
    omega

theorem changeFlags_eq (lp : Lprops) (flags : Option Flags) :
    (changeFlags lst lp flags).1={lst with
      idxLebs := lst.idxLebs-(share c lp).idxLebs+
        (share c (changeFlags lst lp flags).2).idxLebs} := by
  cases flags with
  | none =>
    unfold changeFlags
    rw [Int.sub_add_cancel]
  | some flags =>
    unfold changeFlags share
    by_cases hnew : flags.index=true <;> by_cases hold : lp.flags.index=true <;>
    simp only [hnew,hold,Bool.false_eq_true,if_true,if_false] <;>
    ext <;> dsimp only <;> omega

theorem changeFree_rest (lp : Lprops) (free : Option ℕ) :
    (changeFree c lst lp free).2.dirty=lp.dirty∧(changeFree c lst lp free).2.flags=lp.flags := by
  cases free <;> exact ⟨rfl,rfl⟩

theorem changeDirty_rest (lp : Lprops) (dirty : Option ℕ) :
    (changeDirty lst lp dirty).2.free=lp.free∧(changeDirty lst lp dirty).2.flags=lp.flags := by
  cases dirty <;> exact ⟨rfl,rfl⟩

theorem changeFlags_rest (lp : Lprops) (flags : Option Flags) :
    (changeFlags lst lp flags).2.free=lp.free∧(changeFlags lst lp flags).2.dirty=lp.dirty := by
  cases flags <;> exact ⟨rfl,rfl⟩

/-- `ubifs_change_lp` exchanges the share of a LEB in every total. -/
theorem changeStats (lp : Lprops) (free dirty : Option ℕ) (flags : Option Flags)
    {lst1 lst2 lst3 : LpStats} {lp1 lp2 lp3 : Lprops}
    (hfree : changeFree c (leaveStats c lst lp) lp free=(lst1,lp1))
    (hdirty : changeDirty lst1 lp1 dirty=(lst2,lp2))
    (hflags : changeFlags lst2 lp2 flags=(lst3,lp3)) :
    joinStats c lst3 lp3=exchange lst (share c lp) (share c lp3) := by
  have hf := changeFree_eq (c := c) (leaveStats c lst lp) lp free
  have hd := changeDirty_eq (c := c) lst1 lp1 dirty
  have hg := changeFlags_eq (c := c) lst2 lp2 flags
  have ⟨hf1,hf2⟩ := changeFree_rest (c := c) (leaveStats c lst lp) lp free
  have ⟨hd1,hd2⟩ := changeDirty_rest lst1 lp1 dirty
  have ⟨hg1,hg2⟩ := changeFlags_rest lst2 lp2 flags
  rw [hfree] at hf hf1 hf2
  rw [hdirty] at hd hd1 hd2
  rw [hflags] at hg hg1 hg2
  dsimp only at hf hf1 hf2 hd hd1 hd2 hg hg1 hg2
  have hempty : (share c lp3).emptyLebs=(share c lp1).emptyLebs := by
    unfold share
    rw [hg1,hd1]
  have hidx : (share c lp2).idxLebs=(share c lp).idxLebs := by
    unfold share
    rw [hd2,hf2]
  have htotal : (share c lp3).totalFree=(share c lp1).totalFree := by
    unfold share
    rw [hg1,hd1]
  have hdold : (share c lp1).totalDirty=(share c lp).totalDirty := by
    unfold share
    rw [hf1]
  have hdnew : (share c lp3).totalDirty=(share c lp2).totalDirty := by
    unfold share
    rw [hg2]
  rw [joinStats_eq,hg,hd,hf,leaveStats_eq]
  unfold exchange
  rw [hempty,hidx,htotal,hdold,hdnew]

/-! ## Sums -/

/-- The sum after the share of one LEB has changed. -/
theorem total_exchange (hl : lnum< mainLebs) (hother : ∀ k,k≠lnum → s'.props c k=s.props c k)
    (f : LpStats → ℤ) :
    total c mainLebs s' f=total c mainLebs s f-f (share c (s.props c lnum))+
      f (share c (s'.props c lnum)) := by
  unfold total
  have hmem := Finset.mem_range.mpr hl
  rw [←Finset.add_sum_erase _ _ hmem,←Finset.add_sum_erase (Finset.range mainLebs) _ hmem]
  have hrest : ∑ k∈(Finset.range mainLebs).erase lnum,f (share c (s'.props c k))=
      ∑ k∈(Finset.range mainLebs).erase lnum,f (share c (s.props c k)) :=
    Finset.sum_congr rfl fun k hk => by rw [hother k (Finset.ne_of_mem_erase hk)]
  omega

theorem statsOf_exchange (hl : lnum< mainLebs) (hother : ∀ k,k≠lnum → s'.props c k=s.props c k) :
    statsOf c mainLebs s'=
      exchange (statsOf c mainLebs s) (share c (s.props c lnum)) (share c (s'.props c lnum)) := by
  unfold statsOf exchange
  simp only [total_exchange hl hother]

/-- Totals depend on the properties of LEBs only, but not on their category bits. -/
theorem statsOf_congr (h : ∀ k,strip (s'.props c k)=strip (s.props c k)) :
    statsOf c mainLebs s'=statsOf c mainLebs s := by
  have htotal : ∀ f,total c mainLebs s' f=total c mainLebs s f := fun f =>
    Finset.sum_congr rfl fun k _ => by rw [share_of_strip (h k)]
  unfold statsOf
  simp only [htotal]

theorem Moved.props (hm : Moved s s') (k : ℕ) : strip (s'.props c k)=strip (s.props c k) := by
  unfold State.props
  rw [hm.loaded,hm.stored]
  cases s.loaded k with
  | none => rfl
  | some p => exact hm.lprops p

/-! ## The invariant -/

/-- The invariant of LEB properties. -/
structure Inv (c : Sizes) (mainLebs : ℕ) (s : State) : Prop where
  places : Places c s (Loaded s)
  inj : ∀ k k' p,s.loaded k=some p → s.loaded k'=some p → k=k'
  main : ∀ k p,s.loaded k=some p → k< mainLebs
  stats : s.lst=statsOf c mainLebs s

/-- The invariant of the properties in memory, whatever the statistics are. -/
structure Held (c : Sizes) (mainLebs : ℕ) (s : State) : Prop where
  places : Places c s (Loaded s)
  inj : ∀ k k' p,s.loaded k=some p → s.loaded k'=some p → k=k'
  main : ∀ k p,s.loaded k=some p → k< mainLebs

theorem Inv.held (h : Inv c mainLebs s) : Held c mainLebs s := ⟨h.places,h.inj,h.main⟩

theorem Held.inv (h : Held c mainLebs s) (hst : s.lst=statsOf c mainLebs s) :
    Inv c mainLebs s := ⟨h.places,h.inj,h.main,hst⟩

/-- The properties of all LEBs but the category bits, and the statistics, are as they were. -/
structure Same (c : Sizes) (s s' : State) : Prop where
  props : ∀ k,strip (s'.props c k)=strip (s.props c k)
  lst : s'.lst=s.lst
  stored : s'.stored=s.stored

theorem Moved.same (hm : Moved s s') : Same c s s' := ⟨hm.props,hm.lst,hm.stored⟩

theorem Same.stats (h : Same c s s') (hst : s.lst=statsOf c mainLebs s) :
    s'.lst=statsOf c mainLebs s' := by rw [h.lst,statsOf_congr h.props,hst]

/-- Memory with no properties, and the statistics of the master node. -/
structure Fresh (c : Sizes) (mainLebs : ℕ) (s : State) : Prop where
  loaded : ∀ k,s.loaded k=none
  cnt : ∀ cat,s.cnt cat=0
  list : ∀ cat,s.list cat=[]
  freeableCnt : s.freeableCnt=0
  lst : s.lst=statsOf c mainLebs s

theorem Fresh.inv (hf : Fresh c mainLebs s) : Inv c mainLebs s := by
  have hnone : ∀ {k p},s.loaded k≠some p := by
    intro k p hh
    rw [hf.loaded] at hh
    cases hh
  have hdead : ∀ {p},¬Loaded s p := fun ⟨_,hh⟩ => hnone hh
  refine ⟨⟨fun cat _ => ⟨fun k hk => ?_,fun k _ hk => ?_⟩,fun cat _ => ?_,fun cat => ?_,
    fun cat p => ⟨fun hh => ?_,fun hh => absurd hh.1 hdead⟩,fun p hp => absurd hp hdead,?_⟩,
    fun _ _ _ hh => absurd hh hnone,fun _ _ hh => absurd hh hnone,hf.lst⟩
  · rw [hf.cnt] at hk
    exact absurd hk (Nat.not_lt_zero _)
  · rw [hf.cnt] at hk
    exact absurd hk (Nat.not_lt_zero _)
  · rw [hf.cnt]
    exact Nat.zero_le _
  · rw [hf.list]
    exact List.nodup_nil
  · unfold In Has at hh
    rw [hf.cnt,hf.list] at hh
    split at hh
    · have ⟨k,hk,_⟩ := hh
      exact absurd hk (Nat.not_lt_zero _)
    · cases hh
  · rw [hf.freeableCnt,hf.list]
    rfl

theorem props_of_loaded (hl : s.loaded lnum=some p) : s.props c lnum=s.lprops p := by
  unfold State.props
  rw [hl]

theorem Loaded.of_eq (h : s'.loaded=s.loaded) : Loaded s'=Loaded s := by
  unfold Loaded
  rw [h]

/-! ## Steps and runs -/

/-- Properties that `ubifs_change_lp` has changed. -/
def changedLprops (lp : Lprops) (free dirty : Option ℕ) (flags : Option Flags) : Lprops :=
  ⟨(free.map align8).getD lp.free,(dirty.map align8).getD lp.dirty,flags.getD lp.flags⟩

/-- `ubifs_change_lp` is `change_category` on the changed properties. -/
theorem ubifsChangeLp_eq (s : State) (p : ℕ) (free dirty : Option ℕ) (flags : Option Flags) :
    ubifsChangeLp c s p free dirty flags=changeCategory c
      {s.setLprops p (changedLprops (s.lprops p) free dirty flags) with
        lst := exchange s.lst (share c (s.lprops p))
          (share c (changedLprops (s.lprops p) free dirty flags))} p := by
  unfold ubifsChangeLp
  dsimp only
  rcases hf : changeFree c (leaveStats c s.lst (s.lprops p)) (s.lprops p) free with ⟨lst1,lp1⟩
  rcases hd : changeDirty lst1 lp1 dirty with ⟨lst2,lp2⟩
  rcases hg : changeFlags lst2 lp2 flags with ⟨lst3,lp3⟩
  have hlp : lp3=changedLprops (s.lprops p) free dirty flags := by
    rw [show lp3=(changeFlags lst2 lp2 flags).2 by rw [hg],
      show lp2=(changeDirty lst1 lp1 dirty).2 by rw [hd],
      show lp1=(changeFree c (leaveStats c s.lst (s.lprops p)) (s.lprops p) free).2 by rw [hf]]
    cases free <;> cases dirty <;> cases flags <;> rfl
  rw [changeStats s.lst (s.lprops p) free dirty flags hf hd hg,hlp]

/-- What a change of the properties of a LEB does to all properties and to the statistics. -/
structure ChangedAt (c : Sizes) (mainLebs : ℕ) (s s' : State) (lnum : ℕ) (lp : Lprops) :
    Prop where
  own : strip (s'.props c lnum)=strip lp
  other : ∀ k,k≠lnum → strip (s'.props c k)=strip (s.props c k)
  lst : s'.lst=exchange s.lst (share c (s.props c lnum)) (share c lp)
  stats : statsOf c mainLebs s'=
    exchange (statsOf c mainLebs s) (share c (s.props c lnum)) (share c lp)

theorem ChangedAt.exact {lp : Lprops} (h : ChangedAt c mainLebs s s' lnum lp)
    (hst : s.lst=statsOf c mainLebs s) : s'.lst=statsOf c mainLebs s' := by
  rw [h.lst,h.stats,hst]

theorem Held.change (h : Held c mainLebs s) (hlnum : s.loaded lnum=some p) (free dirty : Option ℕ)
    {flags : Option Flags} (hflags : ∀ f,flags=some f → f.cat=(s.lprops p).flags.cat) :
    ∃ s',ubifsChangeLp c s p free dirty flags=some s'∧Held c mainLebs s'∧
      s'.loaded=s.loaded∧
      ChangedAt c mainLebs s s' lnum (changedLprops (s.lprops p) free dirty flags) := by
  have hl : Loaded s p := ⟨lnum,hlnum⟩
  have hkeep : (changedLprops (s.lprops p) free dirty flags).flags.cat=(s.lprops p).flags.cat := by
    cases flags with
    | some f => exact hflags f rfl
    | none => rfl
  rw [ubifsChangeLp_eq]
  generalize changedLprops (s.lprops p) free dirty flags=lp at hkeep ⊢
  generalize hs1 : {s.setLprops p lp with
    lst := exchange s.lst (share c (s.lprops p)) (share c lp)}=s1
  have hlp : s1.lprops=update s.lprops p lp := by rw [←hs1]; rfl
  have hat : s1.lprops p=lp := by rw [hlp,update_self]
  have hlst : s1.lst=exchange s.lst (share c (s.lprops p)) (share c lp) := by rw [←hs1]
  have hloaded : s1.loaded=s.loaded := by rw [←hs1]; rfl
  have ht : Touched s s1 p := by
    rw [←hs1]
    exact ⟨fun a hap => update_of_ne hap _ _,rfl,rfl,rfl,rfl,rfl⟩
  have hstored : s1.stored=s.stored := by rw [←hs1]; rfl
  have ⟨s',hrun,hp,hm⟩ := h.places.changeCategory hl ht (by rw [hat]; exact hkeep)
  have hl' : s'.loaded=s.loaded := hm.loaded.trans hloaded
  have hold : s.props c lnum=s.lprops p := props_of_loaded hlnum
  have hnew : s1.props c lnum=lp := (props_of_loaded (hloaded▸hlnum)).trans hat
  have hother : ∀ k,k≠lnum → s1.props c k=s.props c k := by
    intro k hk
    unfold State.props
    rw [hloaded,hstored]
    cases hq : s.loaded k with
    | none => rfl
    | some q =>
      have hqp : q≠p := fun heq => hk (h.inj k lnum p (heq▸hq) hlnum)
      exact ht.lprops q hqp
  refine ⟨s',hrun,⟨by rw [Loaded.of_eq hl']; exact hp,by rw [hl']; exact h.inj,
    by rw [hl']; exact h.main⟩,hl',(hm.props lnum).trans (by rw [hnew]),
    fun k hk => (hm.props k).trans (by rw [hother k hk]),?_,?_⟩
  · rw [hm.lst,hlst,hold]
  · rw [statsOf_congr hm.props,statsOf_exchange (h.main lnum p hlnum) hother,hnew]

theorem Inv.change (h : Inv c mainLebs s) (hl : Loaded s p) {free dirty : Option ℕ}
    {flags : Option Flags} (hflags : ∀ f,flags=some f → f.cat=(s.lprops p).flags.cat) :
    ∃ s',ubifsChangeLp c s p free dirty flags=some s'∧Inv c mainLebs s' := by
  have ⟨lnum,hlnum⟩ := hl
  have ⟨s',hrun,hheld,_,hat⟩ := h.held.change hlnum free dirty hflags
  exact ⟨s',hrun,hheld.inv (hat.exact h.stats)⟩

theorem Held.ensure (h : Held c mainLebs s) (hl : Loaded s p) :
    ∃ s',ubifsEnsureCat c s p=some s'∧Held c mainLebs s'∧Moved s s' := by
  have ⟨s',hrun,hp,hm⟩ := h.places.ensure hl
  exact ⟨s',hrun,⟨by rw [Loaded.of_eq hm.loaded]; exact hp,by rw [hm.loaded]; exact h.inj,
    by rw [hm.loaded]; exact h.main⟩,hm⟩

theorem Inv.ensure (h : Inv c mainLebs s) (hl : Loaded s p) :
    ∃ s',ubifsEnsureCat c s p=some s'∧Inv c mainLebs s' := by
  have ⟨s',hrun,hheld,hm⟩ := h.held.ensure hl
  exact ⟨s',hrun,hheld.inv (hm.same.stats h.stats)⟩

/-- The LEBs after one more is in memory, or is elsewhere. -/
theorem update_loaded {lnum k q : ℕ} (hq : update s.loaded lnum (some p) k=some q) :
    k=lnum∧q=p∨k≠lnum∧s.loaded k=some q := by
  by_cases hk : k=lnum
  · rw [hk,update_self] at hq
    exact Or.inl ⟨hk,(Option.some.inj hq).symm⟩
  · rw [update_of_ne hk] at hq
    exact Or.inr ⟨hk,hq⟩

theorem update_inj (h : Held c mainLebs s) (hnew : ¬Loaded s p) (k k' q : ℕ)
    (hk : update s.loaded lnum (some p) k=some q) (hk' : update s.loaded lnum (some p) k'=some q) :
    k=k' := by
  rcases update_loaded hk with ⟨hkl,hqp⟩|⟨_,hq⟩ <;>
  rcases update_loaded hk' with ⟨hkl',hqp'⟩|⟨_,hq'⟩
  · exact hkl.trans hkl'.symm
  · exact absurd ⟨k',hqp▸hq'⟩ hnew
  · exact absurd ⟨k,hqp'▸hq⟩ hnew
  · exact h.inj k k' q hq hq'

theorem Held.load (h : Held c mainLebs s) (hl : lnum< mainLebs) (hnone : s.loaded lnum=none)
    (hnew : ¬Loaded s p) : Held c mainLebs (load c s lnum p)∧
      Same c s (load c s lnum p)∧
      (load c s lnum p).loaded=update s.loaded lnum (some p) := by
  have hload : UbifsCategories.load c s lnum p=ubifsAddToCat
      {s.setLprops p (unpackLprops c (s.stored lnum)) with
        loaded := update s.loaded lnum (some p)} p
      (({s.setLprops p (unpackLprops c (s.stored lnum)) with
        loaded := update s.loaded lnum (some p)} : State).lprops p).flags.cat := rfl
  rw [hload]
  generalize hs1 : ({s.setLprops p (unpackLprops c (s.stored lnum)) with
    loaded := update s.loaded lnum (some p)} : State)=s1
  have hlp : s1.lprops=update s.lprops p (unpackLprops c (s.stored lnum)) := by
    rw [←hs1]
    rfl
  have hloaded : s1.loaded=update s.loaded lnum (some p) := by rw [←hs1]
  have hlst : s1.lst=s.lst := by rw [←hs1]; rfl
  have hstored : s1.stored=s.stored := by rw [←hs1]; rfl
  have hat : s1.lprops p=unpackLprops c (s.stored lnum) := by rw [hlp,update_self]
  have ht : Touched s s1 p := by
    rw [←hs1]
    exact ⟨fun a hap => update_of_ne hap _ _,rfl,rfl,rfl,rfl,rfl⟩
  have hp := h.places.touch ht fun hh => absurd hh hnew
  have hfit : hasHeap (s1.lprops p).flags.cat=true →
      ubifsCategorizeLprops c.toLimits (s1.lprops p)=(s1.lprops p).flags.cat := fun _ => by
    rw [hat]
    rfl
  have ⟨hp',hm⟩ := hp.add hnew hfit
  generalize ubifsAddToCat s1 p (s1.lprops p).flags.cat=s' at hp' hm
  have hall : (fun a => a=p∨Loaded s a)=Loaded s' := by
    funext a
    unfold Loaded
    rw [hm.loaded,hloaded]
    refine propext ⟨fun hh => ?_,fun ⟨k,hk⟩ => ?_⟩
    · rcases hh with hap|⟨k,hk⟩
      · exact ⟨lnum,by rw [update_self,hap]⟩
      · refine ⟨k,?_⟩
        rw [update_of_ne fun heq => by rw [heq,hnone] at hk; cases hk]
        exact hk
    · exact (update_loaded hk).imp (fun hh => hh.2) fun hh => ⟨k,hh.2⟩
  have hprops : ∀ k,s1.props c k=s.props c k := by
    intro k
    unfold State.props
    rw [hloaded,hstored]
    by_cases hk : k=lnum
    · rw [hk,update_self,hnone]
      exact hat
    · rw [update_of_ne hk]
      cases hq : s.loaded k with
      | none => rfl
      | some q => exact ht.lprops q fun hqp => hnew ⟨k,hqp▸hq⟩
  refine ⟨⟨hall▸hp',?_,?_⟩,⟨fun k => (hm.props k).trans (by rw [hprops]),hm.lst.trans hlst,
    hm.stored.trans hstored⟩,hm.loaded.trans hloaded⟩
  · rw [hm.loaded,hloaded]
    exact update_inj h hnew
  · rw [hm.loaded,hloaded]
    intro k q hk
    rcases update_loaded hk with ⟨hkl,_⟩|⟨_,hq⟩
    · rw [hkl]
      exact hl
    · exact h.main k q hq

theorem Held.copy (h : Held c mainLebs s) {lnum p' : ℕ} (hl : s.loaded lnum=some p)
    (hnew : ¬Loaded s p') : ∃ s',copy s lnum p p'=some s'∧Held c mainLebs s'∧Same c s s'∧
      s'.loaded=update s.loaded lnum (some p')∧
      s'.lprops=update s.lprops p' (s.lprops p) := by
  unfold UbifsCategories.copy
  generalize hs1 : {s.setLprops p' (s.lprops p) with
    hpos := update s.hpos p' (s.hpos p)
    loaded := update s.loaded lnum (some p')}=s1
  have hloaded : s1.loaded=update s.loaded lnum (some p') := by rw [←hs1]
  have hlst : s1.lst=s.lst := by rw [←hs1]; rfl
  have hstored : s1.stored=s.stored := by rw [←hs1]; rfl
  have ht : Copied s s1 p p' := by
    rw [←hs1]
    refine ⟨fun a => ?_,rfl,rfl,rfl,rfl,rfl⟩
    by_cases hap : a=p'
    · rw [if_pos hap,hap]
      exact update_self _ _ _
    · rw [if_neg hap]
      exact update_of_ne hap _ _
  have ⟨s',hrun,hp,hm⟩ := h.places.replace ⟨lnum,hl⟩ hnew ht
  have hall : (fun a => a=p'∨Loaded s a∧a≠p)=Loaded s' := by
    funext a
    unfold Loaded
    rw [hm.loaded,hloaded]
    refine propext ⟨fun hh => ?_,fun ⟨k,hk⟩ => ?_⟩
    · rcases hh with hap|⟨⟨k,hk⟩,hap⟩
      · exact ⟨lnum,by rw [update_self,hap]⟩
      · refine ⟨k,?_⟩
        rw [update_of_ne fun heq => hap ?_]
        · exact hk
        · rw [heq,hl] at hk
          exact (Option.some.inj hk).symm
    · refine (update_loaded hk).imp (fun hh => hh.2) fun hh => ⟨⟨k,hh.2⟩,fun hap => ?_⟩
      rw [hap] at hh
      exact hh.1 (h.inj k lnum p hh.2 hl)
  have hprops : ∀ k,s'.props c k=s.props c k := by
    intro k
    unfold State.props
    rw [hm.loaded,hm.stored,hm.lprops,hloaded,hstored]
    by_cases hk : k=lnum
    · rw [hk,update_self,hl]
      exact (ht.lprops p').trans (if_pos rfl)
    · rw [update_of_ne hk]
      cases hq : s.loaded k with
      | none => rfl
      | some q => exact (ht.lprops q).trans (if_neg fun hqp : q=p' => hnew ⟨k,hqp▸hq⟩)
  refine ⟨s',hrun,⟨hall▸hp,?_,?_⟩,⟨fun k => by rw [hprops],hm.lst.trans hlst,
    hm.stored.trans hstored⟩,hm.loaded.trans hloaded,?_⟩
  · rw [hm.loaded,hloaded]
    exact update_inj h hnew
  · rw [hm.loaded,hloaded]
    intro k q hk
    rcases update_loaded hk with ⟨hkl,_⟩|⟨_,hq⟩
    · rw [hkl]
      exact h.main lnum p hl
    · exact h.main k q hq
  · rw [hm.lprops,←hs1]
    rfl

theorem Inv.step (h : Inv c mainLebs s) {op : Op} (hop : Called mainLebs s op) :
    ∃ s',step c s op=some s'∧Inv c mainLebs s' := by
  cases op with
  | load lnum p =>
    have ⟨hheld,hsame,_⟩ := h.held.load hop.1 hop.2.1 hop.2.2
    exact ⟨_,rfl,hheld.inv (hsame.stats h.stats)⟩
  | copy lnum p p' =>
    have ⟨s',hrun,hheld,hsame,_⟩ := h.held.copy hop.1 hop.2
    exact ⟨s',hrun,hheld.inv (hsame.stats h.stats)⟩
  | change p free dirty flags => exact h.change hop.1 hop.2
  | ensure p => exact h.ensure hop

theorem Inv.run (h : Inv c mainLebs s) {ops : List Op} (hops : CalledAll mainLebs c s ops) :
    ∃ s',run c s ops=some s'∧Inv c mainLebs s' := by
  induction ops generalizing s with
  | nil => exact ⟨s,rfl,h⟩
  | cons op ops ih =>
    have ⟨s1,hstep,h1⟩ := h.step hops.1
    have ⟨s2,hrun,h2⟩ := ih h1 (hops.2 s1 hstep)
    refine ⟨s2,?_,h2⟩
    unfold UbifsCategories.run
    rw [hstep,Option.bind_some]
    exact hrun

/-! ## Exact categories and statistics -/

/-- What is true of LEB properties, seen from their heaps, lists and statistics. -/
structure Exact (c : Sizes) (mainLebs : ℕ) (s : State) : Prop where
  /-- The category bits name the place of properties. -/
  placed : ∀ p,Loaded s p →
    if hasHeap (s.lprops p).flags.cat then
      ∃ hpos<s.cnt (s.lprops p).flags.cat,s.hpos p=some hpos∧
        s.arr (s.lprops p).flags.cat hpos=p
    else p∈s.list (s.lprops p).flags.cat
  /-- In the slots of a heap there are no other properties. -/
  slots : ∀ cat,hasHeap cat=true → ∀ i<s.cnt cat,Loaded s (s.arr cat i)∧
    (s.lprops (s.arr cat i)).flags.cat=cat∧s.hpos (s.arr cat i)=some i
  /-- In a list there are no other properties, and none twice. -/
  lists : ∀ cat,hasHeap cat=false → (s.list cat).Nodup∧
    ∀ p∈s.list cat,Loaded s p∧(s.lprops p).flags.cat=cat
  /-- No entry of a heap has a greater value than its parent. -/
  order : ∀ cat,hasHeap cat=true → ∀ i,0< i → i<s.cnt cat →
    s.val cat (s.arr cat i)≤ s.val cat (s.arr cat ((i-1)/2))
  room : ∀ cat,hasHeap cat=true → s.cnt cat≤lptHeapSz
  /-- The entries of a heap belong there. -/
  category : ∀ cat,hasHeap cat=true → ∀ i<s.cnt cat,
    ubifsCategorizeLprops c.toLimits (s.lprops (s.arr cat i))=cat
  freeable : s.freeableCnt=(s.list .freeable).length
  stats : s.lst=statsOf c mainLebs s

theorem Inv.exact (h : Inv c mainLebs s) : Exact c mainLebs s := by
  have hslot : ∀ cat,hasHeap cat=true → ∀ i<s.cnt cat,Loaded s (s.arr cat i)∧
      (s.lprops (s.arr cat i)).flags.cat=cat := fun cat hcat i hi =>
    (h.places.mem cat _).mp ((In.onHeap hcat).mpr ⟨i,hi,rfl⟩)
  refine ⟨fun p hp => ?_,fun cat hcat i hi => ?_,fun cat hcat => ⟨h.places.nodup cat,?_⟩,
    fun cat hcat i hpos hi => (h.places.heaps cat hcat).ordered i hpos hi,h.places.room,
    fun cat hcat i hi => ?_,h.places.freeable,h.stats⟩
  · by_cases hcat : hasHeap (s.lprops p).flags.cat=true
    · rw [if_pos hcat]
      exact h.places.slot hp rfl hcat
    · rw [if_neg hcat]
      exact (In.onList (Bool.eq_false_iff.mpr hcat)).mp ((h.places.mem _ p).mpr ⟨hp,rfl⟩)
  · have ⟨hl,hc⟩ := hslot cat hcat i hi
    exact ⟨hl,hc,(h.places.heaps cat hcat).placed i hi⟩
  · exact fun p hp => (h.places.mem cat p).mp ((In.onList hcat).mpr hp)
  · have ⟨hl,hc⟩ := hslot cat hcat i hi
    exact (h.places.fits _ hl (by rw [hc]; exact hcat)).trans hc

/-- Categories and statistics stay exact, from a mount on and after every
sequence of operations. -/
theorem lpropsRun_exact (hf : Fresh c mainLebs s) {ops : List Op}
    (hops : CalledAll mainLebs c s ops) : ∃ s',run c s ops=some s'∧Exact c mainLebs s' := by
  have ⟨s',hrun,hinv⟩ := hf.inv.run hops
  exact ⟨s',hrun,hinv.exact⟩

/-- Sizes of a small file system. -/
def smallSizes : Sizes := ⟨⟨512,128,64⟩,128⟩

/-- A main area of one empty LEB. -/
def smallStart : State :=
  ⟨fun _ => ⟨0,0,{}⟩,fun _ => none,fun _ _ => 0,fun _ => 0,fun _ => [],0,
    ⟨1,0,0,512,0,0,0,128⟩,fun _ => none,fun _ => ⟨512,0,false⟩⟩

/-- The LEB is read, and taken to be written. -/
theorem lpropsRun_exact_example : ∃ s',run smallSizes smallStart
    [.load 0 16,.change 16 (some 8) none (some {cat := .empty,taken := true})]=some s'∧
    Exact smallSizes 1 s' :=
  lpropsRun_exact ⟨fun _ => rfl,fun _ => rfl,fun _ => rfl,rfl,by decide⟩
    ⟨⟨Nat.one_pos,rfl,fun ⟨_,hk⟩ => by cases hk⟩,fun s' hs' => by
      rw [←Option.some.inj hs']
      exact ⟨⟨⟨0,rfl⟩,fun f hflags => by rw [←Option.some.inj hflags]; rfl⟩,
        fun _ _ => trivial⟩⟩

end ArdroneKernel.UbifsCategories
