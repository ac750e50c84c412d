import ArdroneKernel.UbiAttach
import ArdroneKernel.UbiScanCopies

/-!
# Lookups in the scanning information

What `ubi_scan_find_sv` and `ubi_scan_find_seb` in `drivers/mtd/ubi/scan.c`
find after calls of `ubi_scan_add_used`. The LEBs of a volume are added in
ascending order, and the second lookup walks as if the order were descending.
So it finds a LEB at the root of the tree, and no other.
-/

namespace ArdroneKernel.UbiScanLookups

open SearchTree UbiScan UbiScanCopies UbiAttach

/-! ## The lookups -/

/-- Where the walk of `ubi_scan_find_seb` goes from a LEB. -/
def sebTurn (lnum : ℤ) (seb : ScanLeb) : Turn :=
  if lnum=seb.lnum then .here else if lnum>seb.lnum then .left else .right

/-- `ubi_scan_find_seb`. -/
def scanFindSeb (sv : ScanVolume) (lnum : ℤ) : Option ScanLeb := sv.root.find (sebTurn lnum)

/-- Its turns are not those by which `ubi_scan_add_used` inserts. -/
theorem sebTurn_eq (lnum : ℤ) (seb : ScanLeb) : sebTurn lnum seb=(lebTurn lnum seb).flip := by
  unfold sebTurn lebTurn
  split_ifs <;> first | rfl | omega

variable {sv : ScanVolume}

/-- The lookup finds the LEB at the root only. -/
theorem findSeb_eq (h : sv.root.toList.Pairwise fun a b => a.lnum<b.lnum) (lnum : ℤ) (seb : ScanLeb) :
    scanFindSeb sv lnum=some seb ↔ sv.root.top=some seb∧seb.lnum=lnum := by
  unfold scanFindSeb
  rw [funext (sebTurn_eq lnum),Tree.find_flip (guides_leb lnum) h,lebTurn_here]

/-- So it agrees with the tree when the LEB is not there, or is at the root. -/
theorem findSeb_agrees_iff (h : sv.root.toList.Pairwise fun a b => a.lnum<b.lnum) (lnum : ℤ) :
    (∀ seb,scanFindSeb sv lnum=some seb ↔ seb∈sv.root.toList∧seb.lnum=lnum) ↔
      ∀ seb∈sv.root.toList,seb.lnum=lnum → sv.root.top=some seb := by
  constructor
  · intro agree seb hs hl
    exact ((findSeb_eq h lnum seb).mp ((agree seb).mpr ⟨hs,hl⟩)).1
  · intro root seb
    rw [findSeb_eq h]
    constructor
    · exact fun k => ⟨Tree.mem_of_top k.1,k.2⟩
    · exact fun k => ⟨root seb k.1 k.2,k.2⟩

/-! ## Calls -/

/-- A call of `ubi_scan_add_used`. -/
structure Call where
  /-- Which allocations succeed. -/
  allocs : Allocs
  /-- The physical eraseblock. -/
  pnum : ℕ
  /-- Its erase counter. -/
  ec : ℤ
  /-- Its VID header. -/
  vidHdr : VidHdr
  /-- There were bit-flips. -/
  bitflips : Bool

variable (dev : Device) (rb : Rebalance) (reads : ℕ → PebReads dev)

/-- Calls that succeed one after the other. The scan ends at one that fails,
and its information is destroyed. -/
def addUsedRun : List Call → ScanInfo → Except ℤ ScanInfo
  | [],si => .ok si
  | c::calls,si =>
    match scanAddUsed dev rb reads c.allocs si c.pnum c.ec c.vidHdr c.bitflips with
    | .ok si => addUsedRun calls si
    | .error err => .error err

variable {dev rb reads}

/-- The numbers of the LEBs of a volume. -/
def lnums (sv : ScanVolume) : List ℤ := sv.root.toList.map ScanLeb.lnum

theorem mem_lnums {l : ℤ} : l∈lnums sv ↔ ∃ e∈sv.root.toList,e.lnum=l :=
  List.mem_map

theorem ordered_lnums :
    (lnums sv).Pairwise (·<·) ↔ sv.root.toList.Pairwise fun a b => a.lnum<b.lnum :=
  List.pairwise_map

/-- What the scanning information says about the calls that were made. -/
structure Entered (done : List Call) (si : ScanInfo) : Prop where
  /-- The tree of volumes is ordered, the highest one first. -/
  order : si.volumes.toList.Pairwise fun a b => b.volId<a.volId
  /-- The tree of a volume is ordered. -/
  lebs : ∀ sv∈si.volumes.toList,(lnums sv).Pairwise (·<·)
  /-- A volume has a LEB. -/
  full : ∀ sv∈si.volumes.toList,lnums sv≠[]
  /-- Every LEB is that of a call. -/
  added : ∀ sv∈si.volumes.toList,∀ l∈lnums sv,∃ c∈done,c.vidHdr.volId=sv.volId∧c.vidHdr.lnum=l
  /-- Every call has its LEB. -/
  entry : ∀ c∈done,∃ sv∈si.volumes.toList,sv.volId=c.vidHdr.volId∧c.vidHdr.lnum∈lnums sv

theorem entered_nil : Entered [] {} where
  order := List.Pairwise.nil
  lebs := by simp [Tree.toList]
  full := by simp [Tree.toList]
  added := by simp [Tree.toList]
  entry := by simp

/-- The order of the calls does not matter. -/
theorem Entered.same {done calls : List Call} {si : ScanInfo} (inv : Entered done si)
    (h : ∀ c,c∈done ↔ c∈calls) : Entered calls si where
  order := inv.order
  lebs := inv.lebs
  full := inv.full
  added := by
    intro sv hs l hl
    have ⟨c,hc,k⟩ := inv.added sv hs l hl
    exact ⟨c,(h c).mp hc,k⟩
  entry := fun c hc => inv.entry c ((h c).mpr hc)

/-- A LEB came to a volume that was in the tree, or to a new one. -/
theorem Entered.take {done : List Call} {si si1 si' : ScanInfo} {sv sv' : ScanVolume} {c : Call}
    {l1 l2 : List ScanVolume} (inv : Entered done si)
    (order : si1.volumes.toList.Pairwise fun a b => b.volId<a.volId)
    (hid : sv.volId=c.vidHdr.volId) (hsv : sv∈si.volumes.toList∨sv.root=.nil)
    (hmem : ∀ x,x∈si1.volumes.toList ↔ x=sv∨x∈si.volumes.toList)
    (hold : si1.volumes.toList=l1++sv::l2) (hnew : si'.volumes.toList=l1++sv'::l2)
    (hid' : sv'.volId=sv.volId) (hord : (lnums sv').Pairwise (·<·))
    (hl : ∀ l,l∈lnums sv' ↔ l=c.vidHdr.lnum∨l∈lnums sv) : Entered (c::done) si' := by
  rw [hold] at order
  have others : ∀ x∈si'.volumes.toList,x=sv'∨x∈si.volumes.toList := by
    intro x hx
    rw [hnew,List.mem_append,List.mem_cons] at hx
    have old : x∈l1∨x∈l2 → x∈si.volumes.toList := by
      intro k
      have hx1 : x∈si1.volumes.toList := by
        rw [hold,List.mem_append,List.mem_cons]
        tauto
      rcases (hmem x).mp hx1 with hxs|hxs
      · exact absurd (congrArg ScanVolume.volId hxs) (volId_ne order k)
      · exact hxs
    tauto
  have first : sv'∈si'.volumes.toList := by
    rw [hnew]
    exact List.mem_append_right _ List.mem_cons_self
  constructor
  · rw [hnew]
    simpa only [List.pairwise_append,List.pairwise_cons,List.mem_cons,forall_eq_or_imp,hid']
      using order
  · intro x hx
    rcases others x hx with rfl|hx
    · exact hord
    · exact inv.lebs x hx
  · intro x hx
    rcases others x hx with rfl|hx
    · exact List.ne_nil_of_mem ((hl _).mpr (Or.inl rfl))
    · exact inv.full x hx
  · intro x hx l hxl
    rcases others x hx with rfl|hx
    · rcases (hl l).mp hxl with rfl|hxl
      · exact ⟨c,List.mem_cons_self,by rw [hid',hid],rfl⟩
      rcases hsv with hsv|hsv
      · have ⟨d,hd,hdv,hdl⟩ := inv.added sv hsv l hxl
        exact ⟨d,List.mem_cons_of_mem _ hd,by rw [hid',hdv],hdl⟩
      · unfold lnums at hxl
        rw [hsv] at hxl
        cases hxl
    · have ⟨d,hd,hdl⟩ := inv.added x hx l hxl
      exact ⟨d,List.mem_cons_of_mem _ hd,hdl⟩
  · intro d hd
    rcases List.mem_cons.mp hd with rfl|hd
    · exact ⟨sv',first,by rw [hid',hid],(hl _).mpr (Or.inl rfl)⟩
    have ⟨x,hx,hxv,hxl⟩ := inv.entry d hd
    have hx1 := (hmem x).mpr (Or.inr hx)
    rw [hold,List.mem_append,List.mem_cons] at hx1
    have hx' : x=sv∨x∈si'.volumes.toList := by
      rw [hnew,List.mem_append,List.mem_cons]
      tauto
    rcases hx' with rfl|hx'
    · exact ⟨sv',first,by rw [hid',hxv],(hl _).mpr (Or.inr hxl)⟩
    · exact ⟨x,hx',hxv,hxl⟩

theorem lnums_replaceLeb {sv : ScanVolume} {seb : ScanLeb} {pnum : ℕ} {ec : ℤ} {h : VidHdr}
    {scrub : Bool} (hf : sv.root.find (lebTurn h.lnum)=some seb) :
    lnums (sv.replaceLeb pnum ec h scrub)=lnums sv := by
  have ⟨l1,l2,hold,hnew⟩ := Tree.update_split hf
  unfold lnums ScanVolume.replaceLeb
  rw [hnew,hold,List.map_append,List.map_append]
  rfl

/-- What `ubi_scan_add_used` keeps. -/
theorem scanAddUsed_entered {done : List Call} {si si' : ScanInfo} {c : Call}
    (inv : Entered done si)
    (ok : scanAddUsed dev rb reads c.allocs si c.pnum c.ec c.vidHdr c.bitflips=.ok si') :
    Entered (c::done) si' := by
  unfold scanAddUsed at ok
  have ⟨⟨si1,sv⟩,hadd,ok⟩ := bind_ok ok
  have ⟨order,hid,hsv,hmem⟩ := addVolume_volumes inv.order hadd
  have hfind := (find_vol order c.vidHdr.volId sv).mpr ⟨(hmem sv).mpr (Or.inl rfl),hid⟩
  have ⟨l1,l2,hold,hnew⟩ := Tree.update_split hfind
  have hord : (lnums sv).Pairwise (·<·) := by
    rcases hsv with hs|hs
    · exact inv.lebs sv hs
    · unfold lnums
      rw [hs]
      exact List.Pairwise.nil
  dsimp only at ok
  split at ok
  next seb hseb =>
    have ⟨hsm,hsl⟩ := (find_leb (ordered_lnums.mp hord) _ seb).mp hseb
    have hl : ∀ l,l∈lnums sv ↔ l=c.vidHdr.lnum∨l∈lnums sv := by
      intro l
      have : c.vidHdr.lnum∈lnums sv := mem_lnums.mpr ⟨seb,hsm,hsl⟩
      constructor
      · exact Or.inr
      · rintro (rfl|k)
        · exact this
        · exact k
    split at ok
    · cases ok
    have ⟨cmp,_,ok⟩ := bind_ok ok
    split at ok
    · split at ok
      · cases ok
      have ⟨si2,her,ok⟩ := bind_ok ok
      cases ok
      cases addToErase_ok her
      have hr := @lnums_replaceLeb sv seb c.pnum c.ec c.vidHdr (cmp.bitflips||c.bitflips) hseb
      exact inv.take order hid hsv hmem hold (hnew _) rfl (hr.symm▸hord) (hr.symm▸hl)
    · cases addToErase_ok ok
      exact inv.take order hid hsv hmem hold hold rfl hord hl
  next hseb =>
    split at ok
    · cases ok
    split at ok
    · cases ok
    cases ok
    have hlist : (sv.addLeb rb c.pnum c.ec c.vidHdr c.bitflips).root.toList=
        (sv.root.add (lebTurn c.vidHdr.lnum) ⟨c.ec,c.pnum,c.vidHdr.lnum,c.bitflips,
          c.vidHdr.copyFlag,c.vidHdr.sqnum⟩).toList := rb.keeps _
    refine inv.take order hid hsv hmem hold (hnew _) rfl (ordered_lnums.mpr ?_) fun l => ?_
    · rw [hlist]
      refine Tree.add_pairwise (guides_leb _) (ordered_lnums.mp hord) hseb (fun y _ hy => ?_)
        fun y _ hy => ?_
      · exact (lebTurn_right _ y).mp hy
      · exact (lebTurn_left _ y).mp hy
    · rw [mem_lnums,mem_lnums,hlist]
      simp only [Tree.mem_add hseb,or_and_right,exists_or,exists_eq_left]
      exact or_congr_left eq_comm

theorem addUsedRun_entered {calls done : List Call} {si si' : ScanInfo} (inv : Entered done si)
    (ok : addUsedRun dev rb reads calls si=.ok si') : Entered (calls.reverse++done) si' := by
  induction calls generalizing done si with
  | nil =>
    cases ok
    exact inv
  | cons c calls ih =>
    unfold addUsedRun at ok
    split at ok
    next si1 hc =>
      rw [List.reverse_cons,List.append_assoc]
      exact ih (scanAddUsed_entered inv hc) ok
    next => cases ok

/-! ## Agreement -/

/-- The lookups agree with the insertion by some calls. -/
structure LookupsAgree (calls : List Call) (si : ScanInfo) : Prop where
  /-- A volume is found when an eraseblock of it was added. -/
  volume : ∀ v,(∃ sv,scanFindSv si v=some sv) ↔ ∃ c∈calls,c.vidHdr.volId=v
  /-- The node found is that of the volume. -/
  node : ∀ v sv,scanFindSv si v=some sv → sv∈si.volumes.toList∧sv.volId=v
  /-- A LEB is found when it is in the tree of the volume. -/
  leb : ∀ sv∈si.volumes.toList,∀ lnum seb,
    scanFindSeb sv lnum=some seb ↔ seb∈sv.root.toList∧seb.lnum=lnum

/-- The lookup of volumes agrees. -/
theorem Entered.volumes {calls : List Call} {si : ScanInfo} (inv : Entered calls si) (v : ℤ) :
    (∃ sv,scanFindSv si v=some sv) ↔ ∃ c∈calls,c.vidHdr.volId=v := by
  constructor
  · intro ⟨sv,hf⟩
    have ⟨hm,hid⟩ := (find_vol inv.order v sv).mp hf
    have ⟨l,hl⟩ := List.exists_mem_of_ne_nil _ (inv.full sv hm)
    have ⟨c,hc,hv,_⟩ := inv.added sv hm l hl
    exact ⟨c,hc,hv.trans hid⟩
  · intro ⟨c,hc,hv⟩
    have ⟨sv,hm,hid,_⟩ := inv.entry c hc
    exact ⟨sv,(find_vol inv.order v sv).mpr ⟨hm,hid.trans hv⟩⟩

/-- All lookups agree when every volume has one LEB, and only then. -/
theorem Entered.agree_iff {calls : List Call} {si : ScanInfo} (inv : Entered calls si) :
    LookupsAgree calls si ↔ ∀ c∈calls,∀ d∈calls,
      c.vidHdr.volId=d.vidHdr.volId → c.vidHdr.lnum=d.vidHdr.lnum := by
  constructor
  · intro agree c hc d hd hv
    have ⟨x,hx,hxv,hxl⟩ := inv.entry c hc
    have ⟨y,hy,hyv,hyl⟩ := inv.entry d hd
    have hxy : x=y := by
      have hfx := (find_vol inv.order d.vidHdr.volId x).mpr ⟨hx,hxv.trans hv⟩
      have hfy := (find_vol inv.order d.vidHdr.volId y).mpr ⟨hy,hyv⟩
      exact Option.some.inj (hfx.symm.trans hfy)
    have ⟨a,ha,hal⟩ := mem_lnums.mp hxl
    have ⟨b,hb,hbl⟩ := mem_lnums.mp (hxy▸hyl)
    have root := fun l => (findSeb_agrees_iff (ordered_lnums.mp (inv.lebs x hx)) l).mp
      (agree.leb x hx l)
    have hab : a=b := Option.some.inj ((root _ a ha rfl).symm.trans (root _ b hb rfl))
    rw [←hal,hab,hbl]
  · intro one
    refine ⟨inv.volumes,fun v sv hf => (find_vol inv.order v sv).mp hf,fun sv hm lnum => ?_⟩
    have order := ordered_lnums.mp (inv.lebs sv hm)
    rw [findSeb_agrees_iff order]
    intro seb hs hl
    have same : ∀ e∈sv.root.toList,e=seb := by
      intro e he
      have ⟨c,hc,hcv,hcl⟩ := inv.added sv hm _ (mem_lnums.mpr ⟨e,he,rfl⟩)
      have ⟨d,hd,hdv,hdl⟩ := inv.added sv hm _ (mem_lnums.mpr ⟨seb,hs,rfl⟩)
      have hel : e.lnum=seb.lnum := by
        rw [←hcl,←hdl]
        exact one c hc d hd (hcv.trans hdv.symm)
      have hfe := (find_leb order seb.lnum e).mpr ⟨he,hel⟩
      have hfs := (find_leb order seb.lnum seb).mpr ⟨hs,rfl⟩
      exact Option.some.inj (hfe.symm.trans hfs)
    have ⟨e,htop⟩ := Tree.exists_top hs
    rw [htop,same e (Tree.mem_of_top htop)]

/-- The two lookups agree with insertion, after any calls, when no two of them
are for different LEBs of one volume, and only then. -/
theorem lookups_agree_iff {calls : List Call} {si : ScanInfo}
    (ok : addUsedRun dev rb reads calls {}=.ok si) :
    LookupsAgree calls si ↔ ∀ c∈calls,∀ d∈calls,
      c.vidHdr.volId=d.vidHdr.volId → c.vidHdr.lnum=d.vidHdr.lnum := by
  have inv := addUsedRun_entered entered_nil ok
  exact (inv.same (by simp)).agree_iff

/-! ## Volumes that are not in the table -/

section

variable {d : UbiVolumeOps.Device} {volumes : ℕ → Option UbiVolumeOps.Volume} {si si' : ScanInfo} {i : ℕ}

/-- The table has the volume that was scanned. -/
def Wanted (d : UbiVolumeOps.Device) (volumes : ℕ → Option UbiVolumeOps.Volume) (i : ℕ) (sv : ScanVolume) : Prop :=
  ∃ vol,volumeAt d volumes i=some vol∧vol.reservedPebs≠0∧checkSv vol sv=0

/-- What the loop of `check_scanning_info` leaves after some slots. -/
structure Settled (d : UbiVolumeOps.Device) (volumes : ℕ → Option UbiVolumeOps.Volume) (slots : List ℕ)
    (si si' : ScanInfo) : Prop where
  /-- No eraseblock is lost. -/
  perm : (places si').Perm (places si)
  order : si'.volumes.toList.Pairwise fun a b => b.volId<a.volId
  /-- Of the volumes that the slots name, those in the table stay. -/
  kept : ∀ sv,sv∈si'.volumes.toList ↔ sv∈si.volumes.toList∧∀ i∈slots,sv.volId=i → Wanted d volumes i sv

theorem rmVolume_settled (ho : si.volumes.toList.Pairwise fun a b => b.volId<a.volId) {sv : ScanVolume}
    (hf : scanFindSv si i=some sv) (hw : ¬Wanted d volumes i sv) :
    Settled d volumes [i] si (scanRmVolume rb si sv) := by
  have hid := ((find_vol ho _ _).mp hf).2
  have ⟨l1,l2,hl,hr⟩ := Tree.remove_split (hid.symm▸hf : si.volumes.find (volTurn sv.volId)=some sv)
  have hnew : (scanRmVolume rb si sv).volumes.toList=l1++l2 := (rb.keeps _).trans hr
  rw [hl] at ho
  refine ⟨?_,?_,fun x => ?_⟩
  · rw [List.perm_iff_count]
    intro a
    unfold places
    rw [hnew,hl]
    simp only [scanRmVolume,volPebs,List.flatMap_append,List.flatMap_cons,List.map_append,List.count_append]
    omega
  · rw [hnew]
    exact ho.sublist ((List.sublist_cons_self sv l2).append_left l1)
  · rw [hnew,hl,List.forall_mem_singleton,List.mem_append,List.mem_append,List.mem_cons]
    constructor
    · intro hx
      exact ⟨hx.imp_right Or.inr,fun he => absurd (he.trans hid.symm) (volId_ne ho hx)⟩
    · rintro ⟨hx|rfl|hx,hk⟩
      · exact Or.inl hx
      · exact absurd (hk hid) hw
      · exact Or.inr hx

theorem checkSlot_settled (ho : si.volumes.toList.Pairwise fun a b => b.volId<a.volId)
    (ok : checkSlot d rb volumes si i=.ok si') : Settled d volumes [i] si si' := by
  have hsame : (∀ sv∈si.volumes.toList,sv.volId=i → Wanted d volumes i sv) → Settled d volumes [i] si si := by
    refine fun h => ⟨List.Perm.refl _,ho,fun sv => ?_⟩
    rw [List.forall_mem_singleton]
    exact ⟨fun hsv => ⟨hsv,h sv hsv⟩,And.left⟩
  unfold checkSlot at ok
  split at ok
  · next hnone =>
    cases ok
    refine hsame fun sv hsv hid => ?_
    cases hnone.symm.trans ((find_vol ho i sv).mpr ⟨hsv,hid⟩)
  · next sv hvol hfind =>
    cases ok
    refine rmVolume_settled ho hfind ?_
    rintro ⟨vol,hv,-⟩
    cases hvol.symm.trans hv
  · next vol sv hvol hfind =>
    split_ifs at ok with hzero hbad
    · cases ok
      refine rmVolume_settled ho hfind ?_
      rintro ⟨v,hv,hne,-⟩
      cases hvol.symm.trans hv
      exact hne hzero
    · cases ok
      refine hsame fun x hx hid => ⟨vol,hvol,hzero,?_⟩
      cases hfind.symm.trans ((find_vol ho i x).mpr ⟨hx,hid⟩)
      exact not_not.mp hbad

/-- `check_scanning_info` loses no eraseblock: those of volumes that are not in the table are to be
erased, and the other volumes stay. -/
theorem checkScanningInfo_settled (ho : si.volumes.toList.Pairwise fun a b => b.volId<a.volId)
    (ok : checkScanningInfo d rb volumes si=.ok si') :
    Settled d volumes (List.range (d.vtblSlots+UBI_INT_VOL_COUNT)) si si' := by
  unfold checkScanningInfo at ok
  split_ifs at ok with hfound hid
  clear hfound hid
  generalize List.range (d.vtblSlots+UBI_INT_VOL_COUNT)=slots at ok ⊢
  induction slots generalizing si with
  | nil =>
    cases ok
    exact ⟨List.Perm.refl _,ho,fun sv => by simp⟩
  | cons i slots ih =>
    rw [List.foldlM_cons] at ok
    have ⟨si1,h1,hrest⟩ := bind_ok ok
    have hstep := checkSlot_settled ho h1
    have hend := ih hstep.order hrest
    refine ⟨hend.perm.trans hstep.perm,hend.order,fun sv => ?_⟩
    rw [hend.kept,hstep.kept,List.forall_mem_singleton,List.forall_mem_cons,and_assoc]

theorem checkScanningInfo_settled_example : ∃ si',
    let si := { volumes := .node .nil ⟨0,3,1,true,0,0,0,0,.node .nil ⟨1,3,3,false,false,4⟩ .nil⟩ .nil }
    checkScanningInfo ⟨8,100,1,1,false,2,0⟩ .none (fun _ => none) si=.ok si'∧
      Settled ⟨8,100,1,1,false,2,0⟩ (fun _ => none) [0,1] si si' :=
  ⟨_,rfl,@checkScanningInfo_settled .none _ _ _ _ (List.pairwise_singleton _ _) rfl⟩

end

/-! ## A volume of two LEBs -/

/-- A device whose reads do not matter. -/
def smallDevice : Device := ⟨2,1,fun _ => 0⟩

/-- Reads of empty eraseblocks. -/
def emptyReads : ℕ → PebReads smallDevice := fun _ =>
  { isBad := 0
    ecRes := .ff
    ech := ⟨0,0,0⟩
    vidRes := .ff
    vidh := ⟨0,false,0,0,0,0,0,0,0,0⟩
    rereadRes := .ff
    dataRes := .ok
    data := []
    ec_valid := by decide
    vid_valid := by decide }

/-- A call for a LEB of a dynamic volume. -/
def addLeb (lnum : ℕ) : Call :=
  ⟨⟨true,true,true,true⟩,lnum,1,⟨UBI_VID_DYNAMIC,false,0,0,lnum,0,0,0,0,lnum+1⟩,false⟩

theorem lookups_agree_iff_example : LookupsAgree [addLeb 3]
    { volumes := .node .nil ⟨0,3,1,true,0,0,0,0,.node .nil ⟨1,3,3,false,false,4⟩ .nil⟩ .nil
      volsFound := 1
      maxSqnum := 4 } :=
  (@lookups_agree_iff smallDevice .none emptyReads [addLeb 3] _ rfl).mpr (by decide)

/-- After LEBs 0 and 1 were added, LEB 1 is in the tree and is not found. -/
theorem second_leb_lost : ∃ si sv,
    addUsedRun smallDevice .none emptyReads [addLeb 0,addLeb 1] {}=.ok si∧
      scanFindSv si 0=some sv∧sv.root.toList.map ScanLeb.lnum=[0,1]∧scanFindSeb sv 1=none∧
      ¬LookupsAgree [addLeb 0,addLeb 1] si := by
  refine ⟨_,_,rfl,rfl,rfl,rfl,fun agree => ?_⟩
  have found := (agree.leb _ List.mem_cons_self 1 _).mpr
    ⟨List.mem_cons_of_mem _ List.mem_cons_self,rfl⟩
  cases found

end ArdroneKernel.UbiScanLookups
