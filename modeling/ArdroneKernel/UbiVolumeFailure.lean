import ArdroneKernel.UbiVolumeOps

/-!
# Volume operations that fail

Exactly when a creation, a removal or a re-size that returns an error leaves
the volumes, their records and the counters of eraseblocks as they were.
-/

namespace ArdroneKernel.UbiVolumeFailure

open UbiVolumeOps Function

/-- The calls that change volumes. -/
inductive Call (d : Device) where
  /-- `ubi_create_volume`. -/
  | create (req : MkvolReq d)
  /-- `ubi_remove_volume`. -/
  | remove (volId : ℕ) (noVtbl : Bool)
  /-- `ubi_resize_volume`. -/
  | resize (volId : ℕ) (n : Int32)

variable {d : Device} {st : State} {except : ℕ → ℕ → Prop} (c : Counts) {o : Steps}

/-- What a call returns, and the state after it. -/
def perform (st : State) (o : Steps) : Call d → ℤ×State
  | .create req => createVolume d st req o
  | .remove volId noVtbl => removeVolume d st volId noVtbl o
  | .resize volId n => resizeVolume d st volId n o

/-- The LEBs that a call is asked to unmap. -/
def asked : Call d → ℕ → ℕ → Prop
  | .create _,_,_ => False
  | .remove volId _,i,_ => i=volId
  | .resize volId n,i,lnum => i=volId∧n.toNatClampNeg≤lnum

/-- Every volume has a live EBA table of its own. -/
structure WellFormed (st : State) : Prop where
  live : ∀ i vol,st.volumes i=some vol → (st.heap vol.ebaTbl).isSome=true∧vol.ebaTbl<st.brk
  own : ∀ i j vol vol',st.volumes i=some vol → st.volumes j=some vol' →
    vol.ebaTbl=vol'.ebaTbl → i=j

/-- The state is as it was, up to the mapping of some LEBs. -/
structure Restored (except : ℕ → ℕ → Prop) (st st' : State) : Prop where
  volumes : ∀ i,(st'.volumes i).isSome=(st.volumes i).isSome
  same : ∀ i vol vol',st.volumes i=some vol → st'.volumes i=some vol' →
    vol'={ vol with ebaTbl := vol'.ebaTbl }
  live : ∀ i vol,st'.volumes i=some vol → (st'.heap vol.ebaTbl).isSome=true
  mapping : ∀ i vol vol' lnum,st.volumes i=some vol → st'.volumes i=some vol' → ¬except i lnum →
    st'.mapped vol'.ebaTbl lnum=st.mapped vol.ebaTbl lnum
  vtbl : st'.vtbl=st.vtbl
  avail : st'.counts.avail=st.counts.avail
  rsvd : st'.counts.rsvd=st.counts.rsvd
  volCount : st'.volCount=st.volCount

/-- Erase works take no available eraseblocks for the reserve. -/
def Quiet (d : Device) (c : Counts) (events : List EraseEvent) : Prop :=
  (eraseEvents d c events).avail=c.avail

/-- A call fails before it changes a record, or the record stays the same, and
erase works take nothing meanwhile. -/
def Settled (st : State) (o : Steps) : Call d → Prop
  | .create req =>
    match createChecks d st req o with
    | .error _ => True
    | .ok volId => Quiet d (st.counts.reserve req.pebs) o.erases∧
      (createError o≠0∨st.vtbl volId=newRecord req)
  | .remove volId noVtbl =>
    match openVolume d st volId with
    | none => True
    | some vol => st.roMode=true∨vol.refCount>1∨
      (Quiet d st.counts o.erases∧(noVtbl=true∨st.vtbl volId=emptyRecord))
  | .resize volId n =>
    match openVolume d st volId with
    | none => True
    | some vol => st.roMode=true∨(vol.volType=.static∧n<vol.usedEbs)∨o.kmalloc=false∨
      vol.refCount>1∨(n-vol.reservedPebs>0∧n-vol.reservedPebs>st.counts.avail)∨
      (¬n-vol.reservedPebs>0∧Quiet d st.counts o.erases∧
        st.vtbl volId={ st.vtbl volId with reservedPebs := n })

/-! ## Counters -/

theorem topUp_sum (need : Int32) :
    (c.topUp need).avail+(c.topUp need).rsvd=c.avail+c.rsvd := by
  unfold Counts.topUp
  split
  · grind
  · rfl

theorem eraseEvent_sum (d : Device) (c : Counts) (e : EraseEvent) :
    (eraseEvent d c e).avail+(eraseEvent d c e).rsvd=c.avail+c.rsvd := by
  cases e with
  | failed =>
    unfold eraseEvent
    dsimp only
    split
    · rfl
    · split
      · exact topUp_sum c _
      · exact topUp_sum c _
  | markedBad =>
    unfold eraseEvent
    dsimp only
    split <;> rfl
  | markFailed =>
    unfold eraseEvent
    dsimp only
    split <;> rfl

/-- Erase works move eraseblocks between two counters. -/
theorem eraseEvents_sum (d : Device) (c : Counts) (events : List EraseEvent) :
    (eraseEvents d c events).avail+(eraseEvents d c events).rsvd=c.avail+c.rsvd := by
  induction events generalizing c with
  | nil => rfl
  | cons e events ih => exact (ih (eraseEvent d c e)).trans (eraseEvent_sum d c e)

/-- What was reserved is available again exactly if erase works took nothing. -/
theorem release_avail (n : Int32) (events : List EraseEvent) :
    ((eraseEvents d (c.reserve n) events).release n).avail=c.avail ↔
      Quiet d (c.reserve n) events := by
  unfold Quiet Counts.release Counts.reserve
  constructor <;> intro h <;> grind

theorem release_rsvd (n : Int32) (events : List EraseEvent) (h : Quiet d (c.reserve n) events) :
    ((eraseEvents d (c.reserve n) events).release n).rsvd=c.rsvd := by
  have hs := eraseEvents_sum d (c.reserve n) events
  unfold Counts.release
  rw [h] at hs
  unfold Counts.reserve at hs ⊢
  grind

theorem quiet_rsvd (events : List EraseEvent) (h : Quiet d c events) :
    (eraseEvents d c events).rsvd=c.rsvd := by
  have hs := eraseEvents_sum d c events
  rw [h] at hs
  grind

theorem quiet_iff (events : List EraseEvent) :
    (eraseEvents d c events).avail=c.avail∧(eraseEvents d c events).rsvd=c.rsvd ↔
      Quiet d c events :=
  and_iff_left_of_imp (quiet_rsvd c events)

/-! ## Tables -/

/-- What unmapping LEBs of one table leaves as it was. -/
structure SameBut (tbl : ℕ) (lebs : List ℕ) (st st' : State) : Prop where
  volumes : st'.volumes=st.volumes
  vtbl : st'.vtbl=st.vtbl
  volCount : st'.volCount=st.volCount
  counts : st'.counts=st.counts
  live : ∀ a,(st'.heap a).isSome=(st.heap a).isSome
  mapped : ∀ a lnum,(a≠tbl∨lnum∉lebs) → st'.mapped a lnum=st.mapped a lnum

theorem SameBut.refl (tbl : ℕ) (lebs : List ℕ) (st : State) : SameBut tbl lebs st st :=
  ⟨rfl,rfl,rfl,rfl,fun _ => rfl,fun _ _ _ => rfl⟩

theorem unmapLeb_same (st : State) (tbl lnum : ℕ) (o : Steps) :
    SameBut tbl [lnum] st (unmapLeb st tbl lnum o).2 := by
  unfold unmapLeb
  split
  · exact SameBut.refl _ _ st
  split
  · exact SameBut.refl _ _ st
  split
  · exact SameBut.refl _ _ st
  refine ⟨rfl,rfl,rfl,rfl,fun a => ?_,fun a l h => ?_⟩
  · by_cases ha : a=tbl
    · subst ha
      simp [update_self]
    · simp [update_of_ne ha]
  · unfold State.mapped
    by_cases ha : a=tbl
    · subst ha
      have hl : l≠lnum := by
        rcases h with h|h
        · exact absurd rfl h
        · simpa using h
      simp only [update_self]
      cases st.heap a with
      | none => rfl
      | some t =>
        simp only [Option.map_some,Option.getD_some,List.getD_eq_getElem?_getD]
        rw [List.getElem?_set_ne (Ne.symm hl)]
    · simp only [update_of_ne ha]

theorem SameBut.trans {tbl : ℕ} {l1 l2 lebs : List ℕ} {st1 st2 st3 : State}
    (h : SameBut tbl l1 st1 st2) (k : SameBut tbl l2 st2 st3) (h1 : l1⊆lebs) (h2 : l2⊆lebs) :
    SameBut tbl lebs st1 st3 where
  volumes := k.volumes.trans h.volumes
  vtbl := k.vtbl.trans h.vtbl
  volCount := k.volCount.trans h.volCount
  counts := k.counts.trans h.counts
  live a := (k.live a).trans (h.live a)
  mapped a lnum hc :=
    (k.mapped a lnum (hc.imp_right fun hn hm => hn (h2 hm))).trans
      (h.mapped a lnum (hc.imp_right fun hn hm => hn (h1 hm)))

theorem unmapLebs_same (st : State) (tbl : ℕ) (o : Steps) (lebs : List ℕ) :
    SameBut tbl lebs st (unmapLebs st tbl o lebs).2 := by
  induction lebs generalizing st with
  | nil => exact SameBut.refl _ _ st
  | cons lnum lebs ih =>
    have h := unmapLeb_same st tbl lnum o
    unfold unmapLebs
    dsimp only
    split
    · exact h.trans (SameBut.refl _ [] _) (by simp) (by simp)
    · exact h.trans (ih _) (by simp) (by simp)

/-! ## Calls -/

/-- With the same volumes and live tables, the record and the counters decide. -/
theorem restored_iff {st st' : State} (wf : WellFormed st) (hv : st'.volumes=st.volumes)
    (hc : st'.volCount=st.volCount)
    (live : ∀ a,a<st.brk → (st.heap a).isSome=true → (st'.heap a).isSome=true)
    (mapped : ∀ i vol lnum,st.volumes i=some vol → ¬except i lnum →
      st'.mapped vol.ebaTbl lnum=st.mapped vol.ebaTbl lnum) :
    Restored except st st' ↔
      st'.vtbl=st.vtbl∧st'.counts.avail=st.counts.avail∧st'.counts.rsvd=st.counts.rsvd := by
  constructor
  · intro h
    exact ⟨h.vtbl,h.avail,h.rsvd⟩
  · rintro ⟨h1,h2,h3⟩
    refine ⟨fun i => by rw [hv],?_,?_,?_,h1,h2,h3,hc⟩
    · intro i vol vol' hi hi'
      rw [hv,hi] at hi'
      cases hi'
      rfl
    · intro i vol hi
      rw [hv] at hi
      have hw := wf.live i vol hi
      exact live vol.ebaTbl hw.2 hw.1
    · intro i vol vol' lnum hi hi' hn
      rw [hv,hi] at hi'
      cases hi'
      exact mapped i vol lnum hi hn

theorem restored_self (wf : WellFormed st) :
    Restored except st st :=
  (restored_iff wf rfl rfl (fun _ _ h => h) fun _ _ _ _ _ => rfl).mpr ⟨rfl,rfl,rfl⟩

/-- A failed creation. -/
theorem create_restored (wf : WellFormed st) (req : MkvolReq d)
    (err : (createVolume d st req o).1≠0) :
    Restored (asked (.create req)) st (createVolume d st req o).2 ↔
      Settled st o (.create req) := by
  unfold Settled
  dsimp only
  unfold createVolume at err ⊢
  cases hk : createChecks d st req o with
  | error e => exact iff_of_true (restored_self wf) trivial
  | ok volId =>
    rw [hk] at err
    dsimp only at err ⊢
    have hr : ∀ st' : State,st'.counts=(eraseEvents d (st.counts.reserve req.pebs)
          o.erases).release req.pebs →
        (st'.counts.avail=st.counts.avail∧st'.counts.rsvd=st.counts.rsvd ↔
          Quiet d (st.counts.reserve req.pebs) o.erases) := by
      intro st' hst
      rw [hst,release_avail]
      exact and_iff_left_of_imp fun h => release_rsvd _ _ _ h
    by_cases hs : createError o=0
    · rw [if_neg (not_not.mpr hs)] at err ⊢
      have he : (changeVtblRecord ((st.setCounts (eraseEvents d (st.counts.reserve req.pebs)
          o.erases)).kmalloc (List.replicate req.pebs.toNatClampNeg UBI_LEB_UNMAPPED)).1
          volId (some (newRecord req)) o).1≠0 := by
        intro h0
        rw [if_neg (not_not.mpr h0)] at err
        exact err rfl
      rw [if_pos he]
      have hne : ∀ a,a<st.brk → a≠st.brk := fun a h => ne_of_lt h
      refine Iff.trans (restored_iff wf rfl rfl (fun a ha hl => ?_) fun i vol lnum hi _ => ?_) ?_
      · change (update (update st.heap st.brk _) st.brk none a).isSome=true
        rw [update_of_ne (hne a ha),update_of_ne (hne a ha)]
        exact hl
      · have ha := hne _ (wf.live i vol hi).2
        change ((update (update st.heap st.brk _) st.brk none
          vol.ebaTbl).getD []).getD lnum UBI_LEB_UNMAPPED=_
        rw [update_of_ne ha,update_of_ne ha]
        rfl
      · rw [hr _ rfl]
        change update st.vtbl volId (newRecord req)=st.vtbl∧_ ↔ _
        rw [update_eq_self_iff,and_comm]
        simp only [hs,ne_eq,not_true_eq_false,false_or,eq_comm]
    · rw [if_pos hs]
      refine Iff.trans (restored_iff wf rfl rfl (fun _ _ h => h) fun _ _ _ _ _ => rfl) ?_
      rw [hr _ rfl]
      simp only [ne_eq,hs,not_false_eq_true,true_or,and_true]
      exact and_iff_right rfl

theorem openVolume_some {volId : ℕ} {vol : Volume} (h : openVolume d st volId=some vol) :
    st.volumes volId=some vol := by
  unfold openVolume at h
  split at h
  · exact h
  · cases h

theorem openVolume_slot {volId : ℕ} {vol : Volume} (h : openVolume d st volId=some vol) :
    volId<d.vtblSlots := by
  unfold openVolume at h
  split at h
  next hi => exact hi
  · cases h

/-- LEBs of one volume are unmapped: the other volumes keep their mapping. -/
theorem SameBut.others {st1 st2 : State} {volId : ℕ} {vol : Volume} {lebs : List ℕ}
    (h : SameBut vol.ebaTbl lebs st1 st2) (wf : WellFormed st) (hv : st.volumes volId=some vol)
    {i lnum : ℕ} {vol' : Volume} (hi : st.volumes i=some vol')
    (hh : st1.heap vol'.ebaTbl=st.heap vol'.ebaTbl) (hn : ¬(i=volId∧lnum∈lebs)) :
    st2.mapped vol'.ebaTbl lnum=st.mapped vol'.ebaTbl lnum := by
  have hc : vol'.ebaTbl≠vol.ebaTbl∨lnum∉lebs := by
    by_cases hiv : i=volId
    · exact .inr fun hm => hn ⟨hiv,hm⟩
    · exact .inl fun ht => hiv (wf.own i volId vol' vol hi hv ht)
  rw [h.mapped vol'.ebaTbl lnum hc]
  unfold State.mapped
  rw [hh]

theorem removeLebs_same (st : State) (volId : ℕ) (vol : Volume) (noVtbl : Bool) (o : Steps) :
    SameBut vol.ebaTbl (lebsFrom 0 vol.reservedPebs)
      (if noVtbl then st else (changeVtblRecord st volId none o).2)
      (removeLebs st volId vol noVtbl o).2 := by
  unfold removeLebs
  cases noVtbl with
  | true => exact unmapLebs_same st vol.ebaTbl o _
  | false =>
    simp only [Bool.false_eq_true,if_false]
    split
    · exact SameBut.refl _ _ _
    · exact unmapLebs_same _ vol.ebaTbl o _

theorem removeLebs_keeps (st : State) (volId : ℕ) (vol : Volume) (noVtbl : Bool) (o : Steps) :
    (removeLebs st volId vol noVtbl o).2.volumes=st.volumes∧
      (removeLebs st volId vol noVtbl o).2.counts=st.counts∧
      (removeLebs st volId vol noVtbl o).2.volCount=st.volCount := by
  have hs := removeLebs_same st volId vol noVtbl o
  cases noVtbl <;> exact ⟨hs.volumes,hs.counts,hs.volCount⟩

/-- A failed removal. -/
theorem remove_restored (wf : WellFormed st) (volId : ℕ) (noVtbl : Bool)
    (err : (removeVolume d st volId noVtbl o).1≠0) :
    Restored (@asked d (.remove volId noVtbl)) st (removeVolume d st volId noVtbl o).2 ↔
      @Settled d st o (.remove volId noVtbl) := by
  unfold Settled
  dsimp only
  unfold removeVolume at err ⊢
  cases hv : openVolume d st volId with
  | none => exact iff_of_true (restored_self wf) trivial
  | some vol =>
    rw [hv] at err
    dsimp only at err ⊢
    by_cases hro : st.roMode=true
    · rw [if_pos hro]
      exact iff_of_true (restored_self wf) (.inl hro)
    rw [if_neg hro] at err ⊢
    by_cases hrc : vol.refCount>1
    · rw [if_pos hrc]
      exact iff_of_true (restored_self wf) (.inr (.inl hrc))
    rw [if_neg hrc] at err ⊢
    have hst := openVolume_some hv
    have he : (removeLebs ((st.setVolume volId none).setCounts
        (eraseEvents d st.counts o.erases)) volId vol noVtbl o).1≠0 := by
      intro h0
      rw [if_neg (not_not.mpr h0)] at err
      exact err rfl
    rw [if_pos he]
    have hs := removeLebs_same ((st.setVolume volId none).setCounts
      (eraseEvents d st.counts o.erases)) volId vol noVtbl o
    have hk := removeLebs_keeps ((st.setVolume volId none).setCounts
      (eraseEvents d st.counts o.erases)) volId vol noVtbl o
    revert hs hk
    generalize (removeLebs ((st.setVolume volId none).setCounts
      (eraseEvents d st.counts o.erases)) volId vol noVtbl o).2=st'
    rintro hs ⟨hn,hcounts,hcount⟩
    have hvol : (st'.setVolume volId (some vol)).volumes=st.volumes := by
      change update st'.volumes volId (some vol)=_
      rw [hn]
      change update (update st.volumes volId none) volId (some vol)=_
      rw [update_idem,← hst,update_eq_self]
    change st'.counts=eraseEvents d st.counts o.erases at hcounts
    have hheap : (if noVtbl then (st.setVolume volId none).setCounts
        (eraseEvents d st.counts o.erases) else (changeVtblRecord ((st.setVolume volId
          none).setCounts (eraseEvents d st.counts o.erases)) volId none o).2).heap=st.heap := by
      cases noVtbl <;> rfl
    refine Iff.trans (restored_iff wf hvol hcount (fun a _ hl => ?_)
      fun i vol' lnum hi hn => ?_) ?_
    · change (st'.heap a).isSome=true
      rw [hs.live,hheap]
      exact hl
    · exact hs.others wf hst hi (congrFun hheap _) fun h => hn h.1
    · change st'.vtbl=st.vtbl∧st'.counts.avail=st.counts.avail∧
        st'.counts.rsvd=st.counts.rsvd ↔ _
      rw [hcounts,quiet_iff,and_comm,hs.vtbl]
      simp only [hro,hrc,false_or,Bool.false_eq_true]
      refine and_congr_right fun _ => ?_
      cases noVtbl with
      | true => exact iff_of_true rfl (.inl rfl)
      | false =>
        change update st.vtbl volId emptyRecord=st.vtbl ↔ _
        rw [update_eq_self_iff,eq_comm]
        simp

theorem shrink_restored (wf : WellFormed st) (volId : ℕ) (vol : Volume)
    (hst : st.volumes volId=some vol) (n : Int32) (tbl : List ℤ)
    (err : (shrinkVolume d (st.kmalloc tbl).1 volId vol n st.brk o).1≠0) :
    Restored (@asked d (.resize volId n)) st
      (shrinkVolume d (st.kmalloc tbl).1 volId vol n st.brk o).2 ↔
      Quiet d st.counts o.erases∧st.vtbl volId={ st.vtbl volId with reservedPebs := n } := by
  have hs : ∃ lebs st',(∀ lnum∈lebs,n.toNatClampNeg≤lnum)∧
      SameBut vol.ebaTbl lebs (changeVtblRecord ((st.kmalloc tbl).1.setCounts (eraseEvents d
        st.counts o.erases)) volId (some { st.vtbl volId with reservedPebs := n }) o).2 st'∧
      (shrinkVolume d (st.kmalloc tbl).1 volId vol n st.brk o).2=st'.kfree st.brk := by
    unfold shrinkVolume at err ⊢
    dsimp only at err ⊢
    split
    · exact ⟨[],_,by simp,SameBut.refl _ _ _,rfl⟩
    · next he =>
      rw [if_neg he] at err
      split
      · refine ⟨_,_,?_,unmapLebs_same _ _ _ _,rfl⟩
        intro lnum hm
        obtain ⟨k,_,rfl⟩ := List.mem_map.mp hm
        omega
      · next he' =>
        rw [if_neg he'] at err
        exact absurd rfl err
  obtain ⟨lebs,st',hl,hs,he⟩ := hs
  rw [he]
  have hne : ∀ a,a<st.brk → a≠st.brk := fun a h => ne_of_lt h
  refine Iff.trans (restored_iff wf hs.volumes hs.volCount (fun a ha ha' => ?_)
    fun i vol' lnum hi hn => ?_) ?_
  · change (update st'.heap st.brk none a).isSome=true
    rw [update_of_ne (hne a ha),hs.live]
    change (update st.heap st.brk (some tbl) a).isSome=true
    rw [update_of_ne (hne a ha)]
    exact ha'
  · have ha := hne _ (wf.live i vol' hi).2
    have hh : ((st.kmalloc tbl).1.heap) vol'.ebaTbl=st.heap vol'.ebaTbl :=
      update_of_ne ha _ _
    rw [← hs.others wf hst hi hh fun h => hn ⟨h.1,hl lnum h.2⟩]
    unfold State.mapped State.kfree
    dsimp only
    rw [update_of_ne ha]
  · change st'.vtbl=st.vtbl∧st'.counts.avail=st.counts.avail∧st'.counts.rsvd=st.counts.rsvd ↔ _
    rw [hs.counts,hs.vtbl]
    change update st.vtbl volId { st.vtbl volId with reservedPebs := n }=st.vtbl∧
      (eraseEvents d st.counts o.erases).avail=_∧(eraseEvents d st.counts o.erases).rsvd=_ ↔ _
    rw [quiet_iff,update_eq_self_iff,and_comm,eq_comm (b := st.vtbl volId)]

/-- The table of a volume that could not grow was freed. -/
theorem grow_broken (volId : ℕ) (vol : Volume) (n : Int32) (newMapping : ℕ) (except : ℕ → ℕ → Prop)
    (st0 : State) (err : (growVolume d st volId vol n newMapping o).1≠0) :
    ¬Restored except st0 (growVolume d st volId vol n newMapping o).2 := by
  intro h
  unfold growVolume at err h
  dsimp only at err h
  split at h
  · have hl := h.live volId { vol with ebaTbl := newMapping } (update_self ..)
    dsimp only [State.kfree] at hl
    rw [update_self] at hl
    cases hl
  · next he =>
    rw [if_neg he] at err
    exact absurd rfl err

/-- A table is allocated and freed again. -/
theorem kmalloc_kfree_restored (wf : WellFormed st) (tbl : List ℤ) :
    Restored except st ((st.kmalloc tbl).1.kfree st.brk) := by
  have hh : ∀ a,a<st.brk → ((st.kmalloc tbl).1.kfree st.brk).heap a=st.heap a := by
    intro a ha
    change update (update st.heap st.brk (some tbl)) st.brk none a=_
    rw [update_of_ne (ne_of_lt ha),update_of_ne (ne_of_lt ha)]
  refine Iff.mpr (restored_iff wf rfl rfl (fun a ha hl => ?_) fun i vol lnum hi _ => ?_)
    ⟨rfl,rfl,rfl⟩
  · rw [hh a ha]
    exact hl
  · unfold State.mapped
    rw [hh _ (wf.live i vol hi).2]

/-- A failed re-size. -/
theorem resize_restored (wf : WellFormed st) (volId : ℕ) (n : Int32)
    (err : (resizeVolume d st volId n o).1≠0) :
    Restored (@asked d (.resize volId n)) st (resizeVolume d st volId n o).2 ↔
      @Settled d st o (.resize volId n) := by
  unfold Settled
  dsimp only
  unfold resizeVolume at err ⊢
  cases hv : openVolume d st volId with
  | none => exact iff_of_true (restored_self wf) trivial
  | some vol =>
    rw [hv] at err
    dsimp only at err ⊢
    by_cases hro : st.roMode=true
    · rw [if_pos hro]
      exact iff_of_true (restored_self wf) (.inl hro)
    rw [if_neg hro] at err ⊢
    by_cases hst : vol.volType=.static∧n<vol.usedEbs
    · rw [if_pos hst]
      exact iff_of_true (restored_self wf) (.inr (.inl hst))
    rw [if_neg hst] at err ⊢
    by_cases hn : n=vol.reservedPebs
    · rw [if_pos hn] at err
      exact absurd rfl err
    rw [if_neg hn] at err ⊢
    by_cases hk : o.kmalloc=true
    · rw [if_neg (not_not.mpr hk)] at err ⊢
      by_cases hrc : vol.refCount>1
      · rw [if_pos hrc]
        exact iff_of_true (kmalloc_kfree_restored wf _) (.inr (.inr (.inr (.inl hrc))))
      rw [if_neg hrc] at err ⊢
      by_cases hp : n-vol.reservedPebs>0
      · rw [if_pos hp] at err ⊢
        by_cases ha : n-vol.reservedPebs>st.counts.avail
        · have ha' : n-vol.reservedPebs>(st.kmalloc (List.replicate n.toNatClampNeg
            UBI_LEB_UNMAPPED)).1.counts.avail := ha
          rw [if_pos ha']
          exact iff_of_true (kmalloc_kfree_restored wf _)
            (.inr (.inr (.inr (.inr (.inl ⟨hp,ha⟩)))))
        · have ha' : ¬n-vol.reservedPebs>(st.kmalloc (List.replicate n.toNatClampNeg
            UBI_LEB_UNMAPPED)).1.counts.avail := ha
          rw [if_neg ha'] at err ⊢
          refine iff_of_false (grow_broken volId vol n _ _ st err) ?_
          simp [hro,hst,hk,hrc,hp,ha]
      · rw [if_neg hp] at err ⊢
        refine (shrink_restored wf volId vol (openVolume_some hv) n _ err).trans ?_
        simp [hro,hst,hk,hrc,hp]
    · rw [if_pos hk]
      exact iff_of_true (restored_self wf) (.inr (.inr (.inl (by simpa using hk))))

/-- A call that returns an error leaves everything as it was exactly if it failed before it
changed a record. -/
theorem failed_restored {st : State} {o : Steps} (wf : WellFormed st) (call : Call d)
    (err : (perform st o call).1≠0) :
    Restored (asked call) st (perform st o call).2 ↔ Settled st o call := by
  cases call with
  | create req => exact create_restored wf req err
  | remove volId noVtbl => exact remove_restored wf volId noVtbl err
  | resize volId n => exact resize_restored wf volId n err

/-- A device with one volume of two eraseblocks, both mapped. -/
def oneVolume : State where
  roMode := false
  volumes := fun i => if i=0 then some ⟨2,.dynamic,1,0,100,2,[97],1,0⟩ else none
  vtbl := fun i => if i=0 then ⟨2,1,0,some .dynamic,false,[97],0⟩ else emptyRecord
  volCount := 1
  counts := ⟨10,8,2,2,18,0,0⟩
  heap := fun a => if a=0 then some [5,6] else none
  brk := 1

/-- Steps of which only the given ones fail. -/
def stepsFailing (deviceRegister writeLayout : ℤ) : Steps where
  kzalloc := true
  flush := 0
  kmalloc := true
  cdevAdd := 0
  deviceRegister := deviceRegister
  sysfsInit := 0
  unmapLayout _ := 0
  writeLayout _ := writeLayout
  lockLeb _ := 0
  putPeb _ := 0
  erases := []

theorem oneVolume_wellFormed : WellFormed oneVolume := by
  have h0 : ∀ i vol,oneVolume.volumes i=some vol → i=0∧vol.ebaTbl=0 := by
    intro i vol h
    unfold oneVolume at h
    dsimp only at h
    split at h
    · next hi =>
      cases h
      exact ⟨hi,rfl⟩
    · cases h
  constructor
  · intro i vol h
    rw [(h0 i vol h).2]
    decide
  · intro i j vol vol' hi hj _
    rw [(h0 i vol hi).1,(h0 j vol' hj).1]

/-- A creation whose device is not registered changes nothing. -/
theorem failed_restored_example : Restored
    (@asked ⟨20,100,1,4,true,2,0⟩ (.create ⟨none,1,250,.dynamic,[98],nofun,by decide,by decide⟩))
    oneVolume (@perform ⟨20,100,1,4,true,2,0⟩ oneVolume (stepsFailing (-12) 0)
      (.create ⟨none,1,250,.dynamic,[98],nofun,by decide,by decide⟩)).2 :=
  (failed_restored oneVolume_wellFormed _ (by decide)).mpr
    (show Quiet _ _ _∧_ from ⟨rfl,.inl (by decide)⟩)

/-- A volume that could not grow is left with a freed table. -/
theorem failed_grow :
    ¬∀ (d : Device) (st : State) (o : Steps) (call : Call d),WellFormed st →
      (perform st o call).1≠0 → Restored (asked call) st (perform st o call).2 := by
  intro h
  have hr := h ⟨20,100,1,4,true,2,0⟩ oneVolume (stepsFailing 0 (-5)) (.resize 0 3)
    oneVolume_wellFormed (by decide)
  have hl := hr.live 0 ⟨2,.dynamic,1,0,100,2,[97],1,1⟩ rfl
  cases hl

end ArdroneKernel.UbiVolumeFailure
