import ArdroneKernel.UbiAttach
import ArdroneKernel.UbiScanCorrect
import ArdroneKernel.UbiVolumeFailure
import ArdroneKernel.Execution
import Mathlib.Algebra.Order.BigOperators.Group.Finset

/-!
# Accounting of eraseblocks

The eraseblocks that are available, reserved for volumes and in the reserves
add up to the good ones that are not corrupted. A creation whose number of
eraseblocks does not fit an `int` breaks this.
-/

namespace ArdroneKernel.UbiVolumeCounts

open UbiVolumeOps UbiVolumeFailure UbiAttach Execution Function
open UbiScan (ScanInfo ScanLeb)
open UbiScanCopies (bind_ok)
open SearchTree (Rebalance)

/-! ## Counters -/

/-- The counters when some eraseblocks are reserved for volumes. -/
structure Accounted (d : Device) (c : Counts) (total : ℤ) : Prop where
  sum : c.avail.toInt=c.good.toInt-d.corrPebCount.toInt-
    (total+WL_RESERVED_PEBS.toInt+EBA_RESERVED_PEBS.toInt+c.bebRsvd.toInt)
  avail : 0≤c.avail.toInt
  total : 0≤total
  corr : 0≤d.corrPebCount.toInt
  /-- The eraseblocks of erase works are good. -/
  erasing : (c.erasing : ℤ)≤c.good.toInt
  /-- The reserve is not overdrawn by more than the bad eraseblocks. -/
  beb : c.good.toInt-c.bebRsvd.toInt<2^31

variable {d : Device} {c : Counts} {total : ℤ} {st : State} {vtbl : ℕ → Record}

theorem wl_reserved : WL_RESERVED_PEBS.toInt=1 := by decide

theorem eba_reserved : EBA_RESERVED_PEBS.toInt=1 := by decide

theorem toInt_bounds (x : Int32) : -2^31≤x.toInt∧x.toInt<2^31 :=
  ⟨x.le_toInt,x.toInt_lt⟩

/-- A sum that fits an `int`. -/
theorem toInt_add_eq {x y : Int32} (lo : -2^31≤x.toInt+y.toInt) (hi : x.toInt+y.toInt<2^31) :
    (x+y).toInt=x.toInt+y.toInt := by
  rw [Int32.toInt_add]
  exact Int.bmod_eq_of_le (by omega) (by omega)

/-- A difference that fits an `int`. -/
theorem toInt_sub_eq {x y : Int32} (lo : -2^31≤x.toInt-y.toInt) (hi : x.toInt-y.toInt<2^31) :
    (x-y).toInt=x.toInt-y.toInt := by
  rw [Int32.toInt_sub]
  exact Int.bmod_eq_of_le (by omega) (by omega)

theorem Accounted.reserve (h : Accounted d c total) {n : Int32} (pos : 0≤n.toInt)
    (le : n.toInt≤c.avail.toInt) : Accounted d (c.reserve n) (total+n.toInt) := by
  have hb := toInt_bounds c.avail
  have hs := h.sum
  have hc := h.total
  have ha : (c.avail-n).toInt=c.avail.toInt-n.toInt := toInt_sub_eq (by omega) (by omega)
  refine ⟨?_,?_,by omega,h.corr,h.erasing,h.beb⟩
  · change (c.avail-n).toInt=_
    change _=c.good.toInt-_-(_+_+_+c.bebRsvd.toInt)
    omega
  · change 0≤(c.avail-n).toInt
    omega

theorem Accounted.release (h : Accounted d c total) {n : Int32} (pos : 0≤n.toInt)
    (le : n.toInt≤total) : Accounted d (c.release n) (total-n.toInt) := by
  have hb := h.beb
  have hs := h.sum
  have hc := h.corr
  have hp := h.avail
  rw [wl_reserved,eba_reserved] at hs
  have ha : (c.avail+n).toInt=c.avail.toInt+n.toInt := toInt_add_eq (by omega) (by omega)
  refine ⟨?_,?_,by omega,h.corr,h.erasing,h.beb⟩
  · change (c.avail+n).toInt=_
    rw [ha,h.sum]
    change _=c.good.toInt-_-(_+_+_+c.bebRsvd.toInt)
    omega
  · change 0≤(c.avail+n).toInt
    omega

/-- The reserve for bad eraseblocks takes no more than there is. -/
theorem Accounted.topUp (h : Accounted d c total) (need : Int32) :
    Accounted d (c.topUp need) total := by
  unfold Counts.topUp
  split
  · next hn =>
    have hn' : 0<need.toInt := Int32.lt_iff_toInt_lt.mp hn
    have hm : 0≤(if c.avail≥need then need else c.avail).toInt∧
        (if c.avail≥need then need else c.avail).toInt≤c.avail.toInt := by
      split
      · next ha =>
        exact ⟨hn'.le,Int32.le_iff_toInt_le.mp ha⟩
      · exact ⟨h.avail,le_rfl⟩
    revert hm
    generalize (if c.avail≥need then need else c.avail)=m
    intro hm
    have hb := toInt_bounds c.avail
    have hg := toInt_bounds c.good
    have hr := toInt_bounds c.bebRsvd
    have hs := h.sum
    have hc := h.corr
    have ht := h.total
    rw [wl_reserved,eba_reserved] at hs
    have ha : (c.avail-m).toInt=c.avail.toInt-m.toInt := toInt_sub_eq (by omega) (by omega)
    have hbb : (c.bebRsvd+m).toInt=c.bebRsvd.toInt+m.toInt := toInt_add_eq (by omega) (by omega)
    have hb' := h.beb
    refine ⟨?_,?_,h.total,h.corr,h.erasing,?_⟩
    · dsimp only
      rw [ha,hbb,wl_reserved,eba_reserved]
      omega
    · dsimp only
      omega
    · dsimp only
      omega
  · exact h

theorem Accounted.eraseEvent (h : Accounted d c total) (e : EraseEvent) :
    Accounted d (eraseEvent d c e) total := by
  cases e with
  | failed =>
    unfold UbiVolumeOps.eraseEvent
    dsimp only
    split
    · exact h
    · next hg =>
      have hk := h.topUp (c.bebLevel-c.bebRsvd+1)
      split
      · exact hk
      · refine ⟨hk.sum,hk.avail,hk.total,hk.corr,?_,hk.beb⟩
        have hgood : (c.topUp (c.bebLevel-c.bebRsvd+1)).good=c.good∧
            (c.topUp (c.bebLevel-c.bebRsvd+1)).erasing=c.erasing := by
          unfold Counts.topUp
          split <;> exact ⟨rfl,rfl⟩
        dsimp only
        rw [hgood.1,hgood.2]
        have hlt := (not_or.mp hg).2
        push_cast
        omega
  | markedBad =>
    unfold UbiVolumeOps.eraseEvent
    dsimp only
    split
    · exact h
    · next he =>
      have hs := h.sum
      have hg := toInt_bounds c.good
      have hr := toInt_bounds c.bebRsvd
      have hb := h.beb
      have her := h.erasing
      have h1 : (1 : Int32).toInt=1 := by decide
      have hgood : (c.good-1).toInt=c.good.toInt-1 := by
        rw [toInt_sub_eq (by omega) (by omega),h1]
      have hbeb : (c.bebRsvd-1).toInt=c.bebRsvd.toInt-1 := by
        rw [toInt_sub_eq (by omega) (by omega),h1]
      refine ⟨?_,h.avail,h.total,h.corr,?_,?_⟩
      · dsimp only
        rw [hgood,hbeb]
        omega
      · dsimp only
        rw [hgood]
        omega
      · dsimp only
        rw [hgood,hbeb]
        omega
  | markFailed =>
    unfold UbiVolumeOps.eraseEvent
    dsimp only
    split
    · exact h
    · have her := h.erasing
      refine ⟨h.sum,h.avail,h.total,h.corr,?_,h.beb⟩
      dsimp only
      omega

theorem Accounted.eraseEvents (h : Accounted d c total) (events : List EraseEvent) :
    Accounted d (eraseEvents d c events) total := by
  induction events generalizing c with
  | nil => exact h
  | cons e events ih => exact ih (h.eraseEvent e)

/-! ## Volumes -/

/-- The eraseblocks reserved for a volume. -/
def size (vol : Option Volume) : ℤ := (vol.map fun vol => vol.reservedPebs.toInt).getD 0

/-- The eraseblocks reserved for all volumes. -/
def reserved (d : Device) (volumes : ℕ → Option Volume) : ℤ :=
  ∑ i ∈ Finset.range d.vtblSlots,size (volumes i)+UBI_LAYOUT_VOLUME_EBS.toInt

/-- What holds whenever no call is in progress. -/
structure Inv (d : Device) (st : State) : Prop where
  counts : Accounted d st.counts (reserved d st.volumes)
  sizes : ∀ i vol,st.volumes i=some vol → 0≤vol.reservedPebs.toInt

theorem size_nonneg (h : Inv d st) (i : ℕ) : 0≤ size (st.volumes i) := by
  cases hv : st.volumes i with
  | none => exact le_rfl
  | some vol => exact h.sizes i vol hv

/-- Another volume in one slot. -/
theorem reserved_update (volumes : ℕ → Option Volume) {i : ℕ} (hi : i<d.vtblSlots)
    (v : Option Volume) :
    reserved d (update volumes i v)=reserved d volumes-size (volumes i)+size v := by
  have hm : i∈Finset.range d.vtblSlots := Finset.mem_range.mpr hi
  unfold reserved
  rw [← Finset.add_sum_erase _ _ hm,← Finset.add_sum_erase _ (fun j => size (volumes j)) hm,
    update_self]
  have he : ∑ j ∈ (Finset.range d.vtblSlots).erase i,size (update volumes i v j)=
      ∑ j ∈ (Finset.range d.vtblSlots).erase i,size (volumes j) := by
    refine Finset.sum_congr rfl fun j hj => ?_
    rw [update_of_ne (Finset.ne_of_mem_erase hj)]
  omega

theorem size_le_reserved (h : Inv d st) {i : ℕ} (hi : i<d.vtblSlots) :
    size (st.volumes i)≤reserved d st.volumes := by
  have hs := Finset.single_le_sum (f := fun j => size (st.volumes j))
    (fun j _ => size_nonneg h j) (Finset.mem_range.mpr hi)
  have hl : UBI_LAYOUT_VOLUME_EBS.toInt=2 := by decide
  unfold reserved
  omega

/-- The sizes of the volumes are as before, and so are the sums. -/
theorem Inv.sameSizes {st st' : State} (h : Inv d st)
    (hv : ∀ i,size (st'.volumes i)=size (st.volumes i))
    (hc : Accounted d st'.counts (reserved d st.volumes)) : Inv d st' := by
  refine ⟨?_,?_⟩
  · have he : reserved d st'.volumes=reserved d st.volumes := by
      unfold reserved
      simp only [hv]
    rw [he]
    exact hc
  · intro i vol hi
    have hn := size_nonneg h i
    rw [← hv i,hi] at hn
    exact hn

/-- The volume in one slot is another one. -/
theorem Inv.setSlot {st st' : State} (h : Inv d st) {i : ℕ} {v : Option Volume}
    (hi : i<d.vtblSlots) (hv : st'.volumes=update st.volumes i v) (hn : 0≤ size v)
    (hc : Accounted d st'.counts (reserved d st.volumes-size (st.volumes i)+size v)) :
    Inv d st' := by
  refine ⟨?_,?_⟩
  · rw [hv,reserved_update st.volumes hi]
    exact hc
  · intro j vol hj
    rw [hv] at hj
    by_cases hji : j=i
    · subst hji
      rw [update_self] at hj
      rw [hj] at hn
      exact hn
    · rw [update_of_ne hji] at hj
      exact h.sizes j vol hj

/-! ## Calls -/

/-- The numbers of eraseblocks that a call asks for are not negative. -/
def InRange : Call d → Prop
  | .create req => 0≤req.pebs.toInt
  | .remove _ _ => True
  | .resize _ n => 0≤n.toInt

theorem createChecks_ok {req : MkvolReq d} {o : Steps} {volId : ℕ}
    (h : createChecks d st req o=.ok volId) :
    volId<d.vtblSlots∧st.volumes volId=none∧¬req.pebs>st.counts.avail := by
  unfold createChecks at h
  split at h
  · cases h
  split at h
  · cases h
  split at h
  · cases h
  · next i hp =>
    split at h
    · cases h
    · next hn =>
      split at h
      · cases h
      split at h
      · cases h
      · next ha =>
        cases h
        refine ⟨?_,by simpa using hn,ha⟩
        unfold pickVolId at hp
        split at hp
        · next j hj =>
          cases hp
          exact req.slot volId hj
        · exact List.mem_range.mp (List.mem_of_find?_eq_some hp)

theorem create_inv (h : Inv d st) (req : MkvolReq d) (o : Steps) (pos : 0≤req.pebs.toInt) :
    Inv d (createVolume d st req o).2 := by
  unfold createVolume
  split
  · exact h
  · next volId hk =>
    have ⟨hi,hv,ha⟩ := createChecks_ok hk
    have hle : req.pebs.toInt≤ st.counts.avail.toInt :=
      Int32.le_iff_toInt_le.mp (Int32.not_lt.mp ha)
    have hc := (h.counts.reserve pos hle).eraseEvents o.erases
    have hz : size (st.volumes volId)=0 := by
      rw [hv]
      rfl
    have hback := hc.release pos (by have := h.counts.total; omega)
    rw [Int.add_sub_cancel] at hback
    dsimp only
    split
    · exact h.sameSizes (fun _ => rfl) hback
    split
    · exact h.sameSizes (fun _ => rfl) hback
    · refine h.setSlot hi rfl pos ?_
      rw [hz,Int.sub_zero]
      exact hc

theorem remove_inv (h : Inv d st) (volId : ℕ) (noVtbl : Bool) (o : Steps) :
    Inv d (removeVolume d st volId noVtbl o).2 := by
  unfold removeVolume
  split
  · exact h
  · next vol hv =>
    split
    · exact h
    split
    · exact h
    have hst := openVolume_some hv
    have hi := openVolume_slot hv
    have hc := h.counts.eraseEvents o.erases
    have hsize : size (st.volumes volId)=vol.reservedPebs.toInt := by
      rw [hst]
      rfl
    have ⟨hvol,hcounts,_⟩ := removeLebs_keeps ((st.setVolume volId none).setCounts
      (eraseEvents d st.counts o.erases)) volId vol noVtbl o
    dsimp only
    split
    · -- the volume is put back
      refine h.setSlot hi (v := some vol) ?_ (h.sizes volId vol hst) ?_
      · change update (removeLebs ((st.setVolume volId none).setCounts
          (eraseEvents d st.counts o.erases)) volId vol noVtbl o).2.volumes volId (some vol)=_
        rw [hvol]
        exact update_idem _ _ _
      · rw [hsize]
        change Accounted d (removeLebs ((st.setVolume volId none).setCounts
          (eraseEvents d st.counts o.erases)) volId vol noVtbl o).2.counts
          (reserved d st.volumes-vol.reservedPebs.toInt+vol.reservedPebs.toInt)
        rw [hcounts,Int.sub_add_cancel]
        exact hc
    · refine h.setSlot hi (v := none) hvol le_rfl ?_
      have hle := size_le_reserved h hi
      rw [hsize] at hle ⊢
      rw [hcounts]
      exact (Int.add_zero _).symm ▸ (hc.release (h.sizes volId vol hst) hle).topUp _

/-- What a volume of one size needs to have another one. -/
theorem toInt_sub_pos {x y : Int32} (hx : 0≤x.toInt) (hy : 0≤y.toInt) :
    (x-y).toInt=x.toInt-y.toInt := by
  have hx' := toInt_bounds x
  have hy' := toInt_bounds y
  exact toInt_sub_eq (by omega) (by omega)

theorem grow_inv {st st0 : State} (h : Inv d st) (o : Steps) {volId : ℕ} {vol : Volume}
    (hi : volId<d.vtblSlots) (hst : st.volumes volId=some vol) {n : Int32} (pos : 0≤n.toInt)
    (newMapping : ℕ) (more : n-vol.reservedPebs>0) (few : ¬n-vol.reservedPebs>st.counts.avail)
    (hv : st0.volumes=st.volumes) (hc0 : st0.counts=st.counts) :
    Inv d (growVolume d st0 volId vol n newMapping o).2 := by
  have hr := h.sizes volId vol hst
  have hsub := toInt_sub_pos pos hr
  have hmore := Int32.lt_iff_toInt_lt.mp more
  have hle := Int32.le_iff_toInt_le.mp (Int32.not_lt.mp few)
  have hc := (h.counts.reserve hmore.le hle).eraseEvents o.erases
  have hsize : size (st.volumes volId)=vol.reservedPebs.toInt := by
    rw [hst]
    rfl
  have hback := hc.release hmore.le (by have := h.counts.total; omega)
  rw [Int.add_sub_cancel] at hback
  unfold growVolume
  dsimp only
  split
  · refine h.setSlot hi (v := some { vol with ebaTbl := newMapping }) ?_ hr ?_
    · change update st0.volumes _ _=_
      rw [hv]
    · rw [hsize]
      change Accounted d ((eraseEvents d (st0.counts.reserve _) o.erases).release _)
        (_-_+vol.reservedPebs.toInt)
      rw [hc0,Int.sub_add_cancel]
      exact hback
  · refine h.setSlot hi (v := some (Volume.resized { vol with ebaTbl := newMapping } n)) ?_ pos ?_
    · change update (update st0.volumes _ _) _ _=_
      rw [hv,update_idem]
    · rw [hsize]
      change Accounted d (eraseEvents d (st0.counts.reserve _) o.erases) (_-_+n.toInt)
      have he : reserved d st.volumes-vol.reservedPebs.toInt+n.toInt=
          reserved d st.volumes+(n-vol.reservedPebs).toInt := by omega
      rw [hc0,he]
      exact hc

theorem shrink_inv {st st0 : State} (h : Inv d st) (o : Steps) {volId : ℕ} {vol : Volume}
    (hi : volId<d.vtblSlots) (hst : st.volumes volId=some vol) {n : Int32} (pos : 0≤n.toInt)
    (newMapping : ℕ) (less : ¬n-vol.reservedPebs>0)
    (hv : st0.volumes=st.volumes) (hc0 : st0.counts=st.counts) :
    Inv d (shrinkVolume d st0 volId vol n newMapping o).2 := by
  have hr := h.sizes volId vol hst
  have hless := Int32.le_iff_toInt_le.mp (Int32.not_lt.mp less)
  rw [toInt_sub_pos pos hr] at hless
  change _≤(0 : ℤ) at hless
  have hsub := toInt_sub_pos hr pos
  have hsize : size (st.volumes volId)=vol.reservedPebs.toInt := by
    rw [hst]
    rfl
  have hle := size_le_reserved h hi
  have hc := h.counts.eraseEvents o.erases
  unfold shrinkVolume
  dsimp only
  split
  · refine h.sameSizes (fun i => ?_) ?_
    · change size (st0.volumes i)=_
      rw [hv]
    · rw [hc0]
      exact hc
  have hs := unmapLebs_same (changeVtblRecord (st0.setCounts (eraseEvents d st0.counts o.erases))
    volId (some { (st0.setCounts (eraseEvents d st0.counts o.erases)).vtbl volId with
      reservedPebs := n }) o).2 vol.ebaTbl o
    (lebsFrom n.toNatClampNeg (vol.reservedPebs-n))
  revert hs
  generalize unmapLebs (changeVtblRecord (st0.setCounts (eraseEvents d st0.counts o.erases))
    volId (some { (st0.setCounts (eraseEvents d st0.counts o.erases)).vtbl volId with
      reservedPebs := n }) o).2 vol.ebaTbl o
    (lebsFrom n.toNatClampNeg (vol.reservedPebs-n))=res
  intro hs
  have hvol : res.2.volumes=st.volumes := hs.volumes.trans hv
  have hcounts : res.2.counts=eraseEvents d st.counts o.erases := by
    rw [hs.counts,← hc0]
    rfl
  split
  · refine h.sameSizes (fun i => congrArg size (congrFun hvol i)) ?_
    change Accounted d res.2.counts _
    rw [hcounts]
    exact hc
  · refine h.setSlot hi (v := some (Volume.resized { vol with ebaTbl := newMapping } n)) ?_ pos ?_
    · change update res.2.volumes _ _=_
      rw [hvol]
    · rw [hsize]
      change Accounted d ((res.2.counts.release _).topUp _) (_-_+n.toInt)
      have he : reserved d st.volumes-vol.reservedPebs.toInt+n.toInt=
          reserved d st.volumes-(vol.reservedPebs-n).toInt := by omega
      rw [hcounts,he]
      exact (hc.release (by omega) (by omega)).topUp _

theorem resize_inv (h : Inv d st) (volId : ℕ) (n : Int32) (o : Steps) (pos : 0≤n.toInt) :
    Inv d (resizeVolume d st volId n o).2 := by
  unfold resizeVolume
  split
  · exact h
  · next vol hv =>
    split
    · exact h
    split
    · exact h
    split
    · exact h
    split
    · exact h
    dsimp only
    have hi := openVolume_slot hv
    have hst := openVolume_some hv
    split
    · exact h.sameSizes (fun _ => rfl) h.counts
    split
    · next more =>
      split
      · exact h.sameSizes (fun _ => rfl) h.counts
      · next few => exact grow_inv h o hi hst pos _ more few rfl rfl
    · next less => exact shrink_inv h o hi hst pos _ less rfl rfl

theorem perform_inv (h : Inv d st) (call : Call d) (o : Steps) (ok : InRange call) :
    Inv d (perform st o call).2 := by
  cases call with
  | create req => exact create_inv h req o ok
  | remove volId noVtbl => exact remove_inv h volId noVtbl o
  | resize volId n => exact resize_inv h volId n o ok

theorem renameLoop_inv (h : Inv d st) (list : List (RenameEntry×Steps)) :
    Inv d (renameLoop d st list).2 := by
  induction list generalizing st with
  | nil => exact h
  | cons entry list ih =>
    unfold renameLoop
    dsimp only
    split
    · have hr := remove_inv h entry.1.volId true entry.2
      split
      · exact hr
      · exact ih hr
    · refine ih (h.sameSizes (fun i => ?_) h.counts)
      change size (update st.volumes _ _ i)=_
      by_cases hi : i=entry.1.volId
      · subst hi
        rw [update_self]
        cases st.volumes entry.1.volId <;> rfl
      · rw [update_of_ne hi]

theorem rename_inv (h : Inv d st) (list : List (RenameEntry×Steps)) (o : Steps) :
    Inv d (renameVolumes d st list o).2 := by
  have hv : Inv d (vtblRenameVolumes st (list.map Prod.fst) o).2 := h.sameSizes (fun _ => rfl) h.counts
  unfold renameVolumes
  dsimp only
  split
  · exact hv
  · exact renameLoop_inv hv list

/-! ## Attaching -/

/-- The eraseblocks of the volumes of a table. -/
def tableSizes (d : Device) (vtbl : ℕ → Record) : ℤ :=
  ∑ i ∈ Finset.range d.vtblSlots,(vtbl i).reservedPebs.toInt

theorem vtblCheck_sizes {good : Int32} (ok : vtblCheck d good vtbl=0) {i : ℕ} (hi : i<d.vtblSlots) :
    0≤(vtbl i).reservedPebs.toInt := by
  unfold vtblCheck at ok
  split at ok
  · cases ok
  · next hr =>
    have hri := List.all_eq_true.mp (not_not.mp hr) i (List.mem_range.mpr hi)
    unfold recordOk at hri
    split at hri
    · next h0 =>
      rw [h0]
      decide
    split at hri
    · cases hri
    · next hn => exact Int32.le_iff_toInt_le.mp (Int32.not_lt.mp hn)

/-- A sum of sizes that fits an `int`. -/
theorem sum_toInt (r : ℕ → Int32) (n : ℕ) (pos : ∀ i<n,0≤(r i).toInt)
    (fits : ∑ i ∈ Finset.range n,(r i).toInt<2^31) :
    ((List.range n).foldl (fun sum i => sum+r i) 0).toInt=
      ∑ i ∈ Finset.range n,(r i).toInt := by
  induction n with
  | zero => rfl
  | succ n ih =>
    have hn := pos n n.lt_succ_self
    have hp : 0≤∑ i ∈ Finset.range n,(r i).toInt :=
      Finset.sum_nonneg fun i hi => pos i (Nat.lt_succ_of_lt (Finset.mem_range.mp hi))
    rw [Finset.sum_range_succ] at fits ⊢
    have h := ih (fun i hi => pos i (Nat.lt_succ_of_lt hi)) (by omega)
    rw [List.range_succ,List.foldl_append,List.foldl_cons,List.foldl_nil,
      toInt_add_eq (by omega) (by omega),h]

theorem reserved_table {si : ScanInfo} :
    reserved d (tableVolumes d si vtbl)=tableSizes d vtbl+UBI_LAYOUT_VOLUME_EBS.toInt := by
  unfold reserved tableSizes
  congr 1
  refine Finset.sum_congr rfl fun i hi => ?_
  have hi' := Finset.mem_range.mp hi
  unfold tableVolumes
  by_cases h0 : (vtbl i).reservedPebs=0
  · rw [if_neg (fun h => h.2 h0),h0]
    rfl
  · rw [if_pos ⟨hi',h0⟩]
    rfl

theorem level_pos (d : Device) (good : Int32) : 0≤(calculateReserved d good).toInt := by
  have h2 : MIN_RESERVED_PEBS.toInt=2 := by decide
  unfold calculateReserved
  dsimp only
  split
  · decide
  · next hn =>
    have hle := Int32.le_iff_toInt_le.mp (Int32.not_lt.mp hn)
    omega

/-- The reserves after the volumes: one eraseblock, and those for bad ones. -/
theorem ebaReserve_accounted {c' : Counts} (ok : ebaReserve d c=.ok c')
    (sum : c.avail.toInt=c.good.toInt-d.corrPebCount.toInt-(total+WL_RESERVED_PEBS.toInt))
    (pos : 0≤total) (corr : 0≤d.corrPebCount.toInt) (beb : c.bebRsvd=0)
    (erasing : c.erasing=0) (good : 0≤c.good.toInt) : Accounted d c' total := by
  have hb := toInt_bounds c.avail
  have hg := toInt_bounds c.good
  have hz : (0 : Int32).toInt=0 := by decide
  unfold ebaReserve at ok
  split at ok
  · cases ok
  next ha =>
  have hle := Int32.le_iff_toInt_le.mp (Int32.not_lt.mp ha)
  rw [eba_reserved] at hle
  have h1 : (c.reserve EBA_RESERVED_PEBS).avail.toInt=c.avail.toInt-1 := by
    change (c.avail-EBA_RESERVED_PEBS).toInt=_
    rw [toInt_sub_eq (by rw [eba_reserved]; omega) (by rw [eba_reserved]; omega),eba_reserved]
  split at ok
  · cases ok
    have hl := level_pos d (c.reserve EBA_RESERVED_PEBS).good
    generalize hbeb : (if (c.reserve EBA_RESERVED_PEBS).avail<
        calculateReserved d (c.reserve EBA_RESERVED_PEBS).good then
      (c.reserve EBA_RESERVED_PEBS).avail
      else calculateReserved d (c.reserve EBA_RESERVED_PEBS).good)=b
    have hbb : 0≤b.toInt∧b.toInt≤c.avail.toInt-1 := by
      rw [← hbeb]
      split
      · omega
      · next hn =>
        have := Int32.le_iff_toInt_le.mp (Int32.not_lt.mp hn)
        omega
    have h2 : ((c.reserve EBA_RESERVED_PEBS).avail-b).toInt=c.avail.toInt-1-b.toInt := by
      rw [toInt_sub_eq (by omega) (by omega),h1]
    refine ⟨?_,?_,pos,corr,?_,?_⟩
    · change ((c.reserve EBA_RESERVED_PEBS).avail-b).toInt=_
      rw [h2,sum,eba_reserved]
      change _=c.good.toInt-_-(_+_+_+b.toInt)
      omega
    · change 0≤((c.reserve EBA_RESERVED_PEBS).avail-b).toInt
      omega
    · change (c.erasing : ℤ)≤c.good.toInt
      rw [erasing]
      exact good
    · change c.good.toInt-b.toInt<_
      omega
  · cases ok
    refine ⟨?_,by omega,pos,corr,?_,?_⟩
    · change _=c.good.toInt-_-(_+_+_+c.bebRsvd.toInt)
      rw [h1,sum,beb,hz,eba_reserved]
      omega
    · change (c.erasing : ℤ)≤c.good.toInt
      rw [erasing]
      exact good
    · change c.good.toInt-c.bebRsvd.toInt<_
      rw [beb,hz]
      omega

/-- The good eraseblocks found by a scan. -/
theorem goodPebs_toInt {si : ScanInfo} (le : si.badPebCount≤d.pebCount)
    (int : d.pebCount<2^31) : (goodPebs d si).toInt=d.pebCount-si.badPebCount := by
  have hp := Int32.toInt_ofNat_of_lt int
  have hb : (Int32.ofNat si.badPebCount).toInt=si.badPebCount :=
    Int32.toInt_ofNat_of_lt (by omega)
  unfold goodPebs
  rw [toInt_sub_eq (by omega) (by omega),hp,hb]

/-- A device just attached accounts for its eraseblocks. -/
theorem attach_inv {rb : Rebalance} {m : AttachAllocs} {roMode : Bool} {si : ScanInfo}
    {erase : List ScanLeb} (ok : attach d rb m roMode si vtbl=.ok (st,erase))
    (scanned : si.badPebCount+si.corrPebCount≤d.pebCount) (int : d.pebCount<2^31)
    (corr : d.corrPebCount=Int32.ofNat si.corrPebCount) (check : vtblCheck d (goodPebs d si) vtbl=0)
    (fits : tableSizes d vtbl+UBI_LAYOUT_VOLUME_EBS.toInt<2^31) : Inv d st := by
  have hl : UBI_LAYOUT_VOLUME_EBS.toInt=2 := by decide
  have hgood := goodPebs_toInt (d := d) (by omega : si.badPebCount≤d.pebCount) int
  have hcorr : d.corrPebCount.toInt=si.corrPebCount := by
    rw [corr]
    exact Int32.toInt_ofNat_of_lt (by omega)
  have hpos : 0≤tableSizes d vtbl :=
    Finset.sum_nonneg fun i hi => vtblCheck_sizes check (Finset.mem_range.mp hi)
  have hres : (tableReserved d vtbl).toInt=tableSizes d vtbl+2 := by
    have hs : ((List.range d.vtblSlots).foldl (fun sum i => sum+(vtbl i).reservedPebs)
        0).toInt=tableSizes d vtbl := sum_toInt _ _ (fun i hi => vtblCheck_sizes check hi)
      (by unfold tableSizes at fits; omega)
    unfold tableReserved
    rw [toInt_add_eq (by omega) (by omega),hs,hl]
  unfold attach at ok
  have ⟨⟨volumes,c1⟩,hinit,ok⟩ := bind_ok ok
  have ⟨si',_,ok⟩ := bind_ok ok
  have ⟨c2,hwl,ok⟩ := bind_ok ok
  split at ok
  · cases ok
  have ⟨c3,heba,ok⟩ := bind_ok ok
  cases ok
  unfold initVolumes at hinit
  split at hinit
  · cases hinit
  split at hinit
  · cases hinit
  cases hinit
  unfold wlInitScan at hwl
  split at hwl
  · cases hwl
  split at hwl
  · cases hwl
  next hav =>
  cases hwl
  have ha0 : (goodPebs d si-d.corrPebCount).toInt=d.pebCount-si.badPebCount-si.corrPebCount := by
    rw [toInt_sub_eq (by omega) (by omega),hgood,hcorr]
  have ha1 : (goodPebs d si-d.corrPebCount-tableReserved d vtbl).toInt=
      d.pebCount-si.badPebCount-si.corrPebCount-(tableSizes d vtbl+2) := by
    rw [toInt_sub_eq (by omega) (by omega),ha0,hres]
  refine ⟨ebaReserve_accounted heba ?_ ?_ ?_ rfl rfl ?_,?_⟩
  · change (goodPebs d si-d.corrPebCount-tableReserved d vtbl-WL_RESERVED_PEBS).toInt=
      (goodPebs d si).toInt-_-_
    rw [toInt_sub_eq (by rw [wl_reserved]; omega) (by rw [wl_reserved]; omega),reserved_table,
      ha1,hgood,hcorr,hl]
    omega
  · rw [reserved_table,hl]
    omega
  · omega
  · change 0≤(goodPebs d si).toInt
    omega
  · intro i vol hi
    change tableVolumes d si vtbl i=some vol at hi
    unfold tableVolumes at hi
    split at hi
    · next hs =>
      cases hi
      exact vtblCheck_sizes check hs.1
    · cases hi

/-! ## Runs -/

/-- What happens to an attached device. -/
inductive Action (d : Device) where
  /-- A creation, a removal or a re-size. -/
  | call (call : Call d) (o : Steps)
  /-- A re-name. -/
  | rename (list : List (RenameEntry×Steps)) (o : Steps)
  /-- An erase work uses `volumes_lock`. -/
  | erase (e : EraseEvent)

/-- The state after an action. -/
def step (st : State) : Action d → Option State
  | .call call o => some (perform st o call).2
  | .rename list o => some (renameVolumes d st list o).2
  | .erase e => some (st.setCounts (eraseEvent d st.counts e))

/-- The numbers of eraseblocks asked for are not negative. -/
def Ok (_ : State) : Action d → Prop
  | .call call _ => InRange call
  | .rename _ _ => True
  | .erase _ => True

instance (call : Call d) : Decidable (InRange call) := by
  cases call
  · exact inferInstanceAs (Decidable (_≤_))
  · exact inferInstanceAs (Decidable True)
  · exact inferInstanceAs (Decidable (_≤_))

instance (st : State) (a : Action d) : Decidable (Ok st a) := by
  cases a
  · exact inferInstanceAs (Decidable (InRange _))
  · exact inferInstanceAs (Decidable True)
  · exact inferInstanceAs (Decidable True)

theorem step_inv {st st' : State} {a : Action d} (h : Inv d st) (ok : Ok st a)
    (hs : step st a=some st') : Inv d st' := by
  cases a with
  | call call o =>
    cases hs
    exact perform_inv h call o ok
  | rename list o =>
    cases hs
    exact rename_inv h list o
  | erase e =>
    cases hs
    exact h.sameSizes (fun _ => rfl) (h.counts.eraseEvent e)

/-- Every good eraseblock that is not corrupted is available or reserved. -/
def Balanced (d : Device) (st : State) : Prop :=
  0≤ st.counts.avail.toInt∧st.counts.avail.toInt=
    st.counts.good.toInt-d.corrPebCount.toInt-(reserved d st.volumes+WL_RESERVED_PEBS.toInt+
      EBA_RESERVED_PEBS.toInt+st.counts.bebRsvd.toInt)

/-- In every run of an attached device no more eraseblocks are promised than there are. -/
theorem run_balanced {dev : UbiScan.Device} {reads : ℕ → UbiScan.PebReads dev} {rb : Rebalance}
    {allocs : ℕ → UbiScan.Allocs} {memory : Bool} {random : ℤ} {scan₀ scan : UbiScan.Scan}
    {m : AttachAllocs} {vtbl : ℕ → Record} {st st' : State} {erase : List ScanLeb}
    {as : List (Action d)}
    (scanned : UbiScan.ubiScan dev rb reads allocs memory random scan₀=.ok scan)
    (pebs : dev.pebCount=d.pebCount) (int : d.pebCount<2^31)
    (corr : d.corrPebCount=Int32.ofNat scan.si.corrPebCount)
    (check : vtblCheck d (goodPebs d scan.si) vtbl=0)
    (attached : attach d rb m scan.roMode scan.si vtbl=.ok (st,erase))
    (fits : tableSizes d vtbl+UBI_LAYOUT_VOLUME_EBS.toInt<2^31)
    (run : Run step Ok st as st') : Balanced d st' := by
  have hc := UbiScanCorrect.ubiScan_counts scanned
  rw [pebs] at hc
  have h : Inv d st' := run.invariant (Inv d) (attach_inv attached hc int corr check fits)
    fun h ok hs => step_inv h ok hs
  exact ⟨h.counts.avail,h.counts.sum⟩

/-- A scanned device of eight free eraseblocks. -/
def freeDevice : UbiScan.Device := ⟨8,100,fun _ => 0⟩

def freeReads (_ : ℕ) : UbiScan.PebReads freeDevice where
  isBad := 0
  ecRes := .ok
  ech := ⟨1,5,7⟩
  vidRes := .ff
  vidh := ⟨1,false,0,0,0,0,0,0,0,0⟩
  rereadRes := .ff
  dataRes := .ok
  data := []
  ec_valid := by decide
  vid_valid := by decide

/-- The same device, with four slots for volumes. -/
def freeVolumes : Device := ⟨8,100,1,4,false,2,0⟩

def allAllocs : AttachAllocs := ⟨true,true,true⟩

/-- A creation and a re-size. -/
def createResize : List (Action freeVolumes) :=
  [.call (.create ⟨none,1,150,.dynamic,[97],nofun,by decide,by decide⟩) (stepsFailing 0 0),
    .erase .failed,.call (.resize 0 3) (stepsFailing 0 0)]

def freeScan : UbiScan.Scan :=
  match UbiScan.ubiScan freeDevice Rebalance.none freeReads UbiScanCorrect.smallAllocs true 0 {} with
  | .ok scan => scan
  | .error _ => {}

/-- The device is attached with an empty table. -/
def freeAttached : State×List ScanLeb :=
  match attach freeVolumes Rebalance.none allAllocs false freeScan.si fun _ => emptyRecord with
  | .ok res => res
  | .error _ => (oneVolume,[])

theorem run_balanced_example : ∃ st',Run step Ok freeAttached.1 createResize st'∧
    st'.counts.avail=1∧Balanced freeVolumes st' := by
  have ⟨st',hrun,hav⟩ := exists_run step (fun st a => decide (Ok st a)) freeAttached.1 createResize
    (fun st => decide (st.counts.avail=1)) (by decide +kernel)
  have hr : Run step Ok freeAttached.1 createResize st' := hrun.mono fun _ _ => of_decide_eq_true
  exact ⟨st',hr,of_decide_eq_true hav,@run_balanced freeVolumes freeDevice freeReads Rebalance.none
    UbiScanCorrect.smallAllocs true 0 {} freeScan allAllocs (fun _ => emptyRecord) freeAttached.1
    st' freeAttached.2 createResize rfl rfl (by decide) (by decide +kernel) (by decide +kernel) rfl
    (by decide) hr⟩

/-- A creation of 2³¹ eraseblocks. -/
def createHuge : List (Action freeVolumes) :=
  [.call (.create ⟨none,1,2^31*100,.dynamic,[97],nofun,by decide,by decide⟩) (stepsFailing 0 0)]

/-- The number of eraseblocks of a new volume is taken for a negative one. -/
theorem run_unbalanced :
    UbiScan.ubiScan freeDevice Rebalance.none freeReads UbiScanCorrect.smallAllocs true 0
      {}=.ok freeScan∧
    attach freeVolumes Rebalance.none allAllocs freeScan.roMode freeScan.si
      (fun _ => emptyRecord)=.ok freeAttached∧
    ¬∀ (as : List (Action freeVolumes)) (st' : State),
      Run step (fun _ _ => True) freeAttached.1 as st' → Balanced freeVolumes st' := by
  refine ⟨rfl,rfl,fun h => ?_⟩
  have ⟨st',hrun,hav⟩ := exists_run step (fun _ _ => true) freeAttached.1 createHuge
    (fun st => decide (st.counts.avail.toInt<0)) (by decide +kernel)
  have hb := h createHuge st' (hrun.mono fun _ _ _ => trivial)
  exact absurd hb.1 (not_le.mpr (of_decide_eq_true hav))

end ArdroneKernel.UbiVolumeCounts
