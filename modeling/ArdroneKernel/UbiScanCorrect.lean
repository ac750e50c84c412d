import ArdroneKernel.UbiScanCopies
import Mathlib.Data.List.Nodup

/-!
# A successful scan

What the loop of `ubi_scan` keeps holds after all eraseblocks. So each of them
is accounted for once, and the mapping does not depend on their order.
-/

namespace ArdroneKernel.UbiScanCorrect

open SearchTree UbiScan UbiScanCopies Arbitration

section

variable {dev : Device} {reads : ℕ → PebReads dev} {done : List ℕ} {st st' : Scan}

/-- Counting empty eraseblocks, or those that may be bad, changes nothing else. -/
theorem good_counts {si : ScanInfo} (h : Good reads done si) (empty maybe : ℕ) :
    Good reads done { si with emptyPebCount := empty, maybeBadPebCount := maybe } :=
  ⟨⟨h.inv.perm,h.inv.bad,h.inv.corr,h.inv.alien,h.inv.vols,h.inv.order,h.inv.volume,
    h.inv.sqnum_le,h.inv.sqnum_mem,h.inv.complete⟩,h.full,h.sum,h.mean⟩

/-- A bad eraseblock is counted. -/
theorem good_bad {si : ScanInfo} {p : ℕ} (h : Good reads done si) (hb : (reads p).isBad≠0) :
    Good reads (p::done) { si with badPebCount := si.badPebCount+1 } := by
  have hnb : badPebs reads (p::done)=p::badPebs reads done := by simp [badPebs,hb]
  have hu : usedHdr (reads p)=false := by simp [usedHdr,hb]
  refine ⟨h.inv.skip hu rfl ?_ ?_ h.inv.corr h.inv.alien rfl rfl,h.full,h.sum,h.mean⟩
  · rw [hnb]
    exact List.Perm.refl _
  · rw [hnb,List.length_cons,h.inv.bad]

theorem processBadVid_good (m : Allocs) {st st' : Scan} {p : ℕ} {ecErr : Bool} {ec : ℤ}
    (h : Good reads done st.si) (hb : (reads p).isBad=0) (hv : (reads p).vidRes.good=false)
    (hec : ecErr=false → 0≤ec)
    (ok : processBadVid dev m st p (reads p) ecErr ec=.ok st') : Good reads (p::done) st'.si := by
  have hu : usedHdr (reads p)=false := by simp [usedHdr,hv]
  unfold processBadVid at ok
  have key : ∀ corrupted : Bool,
      (if corrupted=true then do
        let si ← addCorrupted st.si m p ec
        Except.ok { st with si := adjustMeanEc si ecErr ec }
      else do
        let si ← addToErase st.si m p ec true
        Except.ok { st with si := adjustMeanEc si ecErr ec })=Except.ok st' →
      Good reads (p::done) st'.si := by
    intro corrupted hk
    split at hk
    · have ⟨si,hsi,heq⟩ := bind_ok hk
      cases heq
      exact (h.toCorr hb hu hsi).adjust hec
    · have ⟨si,hsi,heq⟩ := bind_ok hk
      cases heq
      exact (h.toErase hb hu hsi).adjust hec
  split at ok
  · have ⟨corrupted,_,hk⟩ := bind_ok ok
    exact key corrupted hk
  · have ⟨corrupted,_,hk⟩ := bind_ok ok
    exact key corrupted hk

theorem processVid_good (rb : Rebalance) (m : Allocs) {p : ℕ} {ecRes : IoRes} {ec : ℤ}
    {bitflips : Bool} (h : Good reads done st.si) (hb : (reads p).isBad=0)
    (he : ((reads p).ecRes.good||(reads p).ecRes=.badHdr||(reads p).ecRes=.badHdrEbadmsg)=true)
    (hec : ecRes.good=true → 0≤ec) (ok : processVid dev rb reads m st p ecRes ec bitflips=.ok st') :
    Good reads (p::done) st'.si := by
  have hec' : (!ecRes.good)=false → 0≤ec := fun k => hec (by simpa using k)
  have unused : (reads p).vidRes.good=false → usedHdr (reads p)=false := fun k => by
    simp [usedHdr,k]
  unfold processVid at ok
  cases hv : (reads p).vidRes with
  | err code => simp [hv] at ok
  | ok =>
    rw [hv] at ok
    exact processUsed_good rb m h hb he (by rw [hv]; rfl) hec' ok
  | bitflips =>
    rw [hv] at ok
    exact processUsed_good rb m h hb he (by rw [hv]; rfl) hec' ok
  | badHdrEbadmsg =>
    rw [hv] at ok
    have hs := good_counts h st.si.emptyPebCount
      (if ecRes=.badHdrEbadmsg then st.si.maybeBadPebCount+1 else st.si.maybeBadPebCount)
    exact @processBadVid_good dev reads done m
      { st with si := { st.si with maybeBadPebCount :=
        if ecRes=.badHdrEbadmsg then st.si.maybeBadPebCount+1 else st.si.maybeBadPebCount } }
      st' p _ ec hs hb (by rw [hv]; rfl) hec' ok
  | badHdr =>
    rw [hv] at ok
    exact processBadVid_good m h hb (by rw [hv]; rfl) hec' ok
  | ffBitflips =>
    rw [hv] at ok
    have ⟨si,hsi,heq⟩ := bind_ok ok
    cases heq
    exact (h.toErase hb (unused (by rw [hv]; rfl)) hsi).adjust hec'
  | ff =>
    rw [hv] at ok
    have hu := unused (by rw [hv]; rfl)
    dsimp only at ok
    split at ok
    · have ⟨si,hsi,heq⟩ := bind_ok ok
      cases heq
      exact (h.toErase hb hu hsi).adjust hec'
    · have ⟨si,hsi,heq⟩ := bind_ok ok
      cases heq
      exact (h.toFree hb hu hsi).adjust hec'

theorem processEmpty_good (m : Allocs) {p : ℕ} {toHead : Bool} (h : Good reads done st.si)
    (hb : (reads p).isBad=0) (hu : usedHdr (reads p)=false)
    (ok : processEmpty m st p toHead=.ok st') : Good reads (p::done) st'.si := by
  have ⟨si,hsi,heq⟩ := bind_ok ok
  cases heq
  exact (good_counts h _ st.si.maybeBadPebCount).toErase hb hu hsi

/-- What `process_eb` keeps. -/
theorem processEb_good (rb : Rebalance) (allocs : ℕ → Allocs) {p : ℕ} (h : Good reads done st.si)
    (ok : processEb dev rb reads allocs st p=.ok st') :
    Good reads (p::done) st'.si := by
  unfold processEb at ok
  dsimp only at ok
  split at ok
  · cases ok
  split at ok
  next hb =>
    cases ok
    exact good_bad h hb
  next hb =>
  have hb := not_not.mp hb
  have ecValid := (reads p).ec_valid
  cases he : (reads p).ecRes with
  | err code => simp [he] at ok
  | ff =>
    rw [he] at ok
    exact processEmpty_good (allocs p) h hb (by simp [usedHdr,he,IoRes.good]) ok
  | ffBitflips =>
    rw [he] at ok
    exact processEmpty_good (allocs p) h hb (by simp [usedHdr,he,IoRes.good]) ok
  | badHdr =>
    rw [he] at ok
    exact processVid_good rb (allocs p) h hb (by simp [he]) (fun k => absurd k (by simp [IoRes.good])) ok
  | badHdrEbadmsg =>
    rw [he] at ok
    exact processVid_good rb (allocs p) h hb (by simp [he]) (fun k => absurd k (by simp [IoRes.good])) ok
  | ok =>
    rw [he] at ok ecValid
    have ⟨seq,_,ok⟩ := bind_ok ok
    have hs : Good reads done ({ st with imageSeq := seq } : Scan).si := h
    exact processVid_good rb (allocs p) hs hb (by rw [he]; rfl) ecValid ok
  | bitflips =>
    rw [he] at ok ecValid
    have ⟨seq,_,ok⟩ := bind_ok ok
    have hs : Good reads done ({ st with imageSeq := seq } : Scan).si := h
    exact processVid_good rb (allocs p) hs hb (by rw [he]; rfl) ecValid ok

/-- What the loop of `ubi_scan` keeps. -/
theorem scanLoop_good (rb : Rebalance) (allocs : ℕ → Allocs) {order : List ℕ}
    (h : Good reads done st.si) (ok : scanLoop dev rb reads allocs st order=.ok st') :
    Good reads (order.reverse++done) st'.si := by
  induction order generalizing st done with
  | nil =>
    cases ok
    exact h
  | cons p order ih =>
    have ⟨st1,h1,ok⟩ := bind_ok ok
    have k := ih (processEb_good rb allocs h h1) ok
    rwa [List.reverse_cons,List.append_assoc]

/-- Before the loop. -/
theorem good_start (reads : ℕ → PebReads dev) : Good reads [] ({} : ScanInfo) where
  inv := by
    constructor <;> simp [badPebs,places,Tree.toList]
  full := by
    intro sv hsv
    simp [Tree.toList] at hsv
  sum := le_refl _
  mean := rfl

end

/-! ## The mapping -/

/-- The eraseblock of a LEB. -/
def lookup (si : ScanInfo) (v l : ℤ) : Option ℕ :=
  (si.volumes.find (volTurn v)).bind fun sv => (sv.root.find (lebTurn l)).map ScanLeb.pnum

/-- The highest LEB number of a volume, with the data size of that LEB. -/
def volumeEnd (si : ScanInfo) (v : ℤ) : Option (ℤ×ℤ) :=
  (si.volumes.find (volTurn v)).map fun sv => (sv.highestLnum,sv.lastDataSize)

section

variable {dev : Device} {reads : ℕ → PebReads dev} {done : List ℕ} {si : ScanInfo}

/-- A LEB is mapped to the copy that arbitration keeps. -/
theorem lookup_iff (inv : Inv reads done si) (v l : ℤ) (p : ℕ) :
    lookup si v l=some p ↔ Best (age reads) (Intact reads) (copies reads done v l) p := by
  constructor
  · intro h
    have ⟨sv,hsv,h⟩ := Option.bind_eq_some_iff.mp h
    have ⟨e,he,hp⟩ := Option.map_eq_some_iff.mp h
    have ⟨hmem,hid⟩ := (find_vol inv.order v sv).mp hsv
    have hvol := inv.volume sv hmem
    have ⟨hem,hel⟩ := (find_leb hvol.order l e).mp he
    have k := hvol.best e hem
    rwa [hid,hel,hp] at k
  · intro h
    have ⟨hdone,hu,hv,hl⟩ := h.mem
    have ⟨sv,hmem,hid,e,hem,hel⟩ := inv.complete p hdone hu
    have hvol := inv.volume sv hmem
    have k := hvol.best e hem
    rw [hid,hel,hv,hl] at k
    have hsv := (find_vol inv.order v sv).mpr ⟨hmem,hid.trans hv⟩
    have hfe := (find_leb hvol.order l e).mpr ⟨hem,hel.trans hl⟩
    simp only [lookup,hsv,Option.bind_some,hfe,Option.map_some,k.unique h]

/-- Copies seen in another order. -/
theorem copies_perm {o1 o2 : List ℕ} (perm : o1.Perm o2) (v l : ℤ) :
    copies reads o1 v l=copies reads o2 v l := by
  ext p
  simp only [copies,Set.mem_ofPred_eq,perm.mem_iff]

variable {done' : List ℕ} {si' : ScanInfo}

/-- An entry of one scan has one for the same LEB in another. -/
theorem entry_transfer (inv : Inv reads done si) (inv' : Inv reads done' si')
    (perm : done.Perm done') {sv : ScanVolume} (hs : sv∈si.volumes.toList) {e : ScanLeb}
    (he : e∈sv.root.toList) : ∃ sv'∈si'.volumes.toList,sv'.volId=sv.volId∧
      ∃ e'∈sv'.root.toList,e'.lnum=e.lnum∧e'.pnum=e.pnum := by
  have hb := (inv.volume sv hs).best e he
  have ⟨hdone,hu,hv,hl⟩ := hb.mem
  have ⟨sv',hs',hid,e',he',hel⟩ := inv'.complete e.pnum (perm.mem_iff.mp hdone) hu
  have hb' := (inv'.volume sv' hs').best e' he'
  rw [hid,hel,hv,hl,←copies_perm perm] at hb'
  exact ⟨sv',hs',hid.trans hv,e',he',hel.trans hl,hb'.unique hb⟩

/-- The same volume in two scans has an equal end. -/
theorem end_eq (inv : Inv reads done si) (inv' : Inv reads done' si') (perm : done.Perm done')
    (full : Inhabited si) {sv sv' : ScanVolume} (hs : sv∈si.volumes.toList)
    (hs' : sv'∈si'.volumes.toList) (hid : sv'.volId=sv.volId) :
    sv.highestLnum=sv'.highestLnum∧sv.lastDataSize=sv'.lastDataSize := by
  have hvol := inv.volume sv hs
  have hvol' := inv'.volume sv' hs'
  have same : ∀ x∈si'.volumes.toList,x.volId=sv.volId → x=sv' := by
    intro x hx hxv
    have h1 := (find_vol inv'.order sv.volId x).mpr ⟨hx,hxv⟩
    have h2 := (find_vol inv'.order sv.volId sv').mpr ⟨hs',hid⟩
    exact Option.some.inj (h1.symm.trans h2)
  have same' : ∀ x∈si.volumes.toList,x.volId=sv'.volId → x=sv := by
    intro x hx hxv
    have h1 := (find_vol inv.order sv.volId x).mpr ⟨hx,hxv.trans hid⟩
    have h2 := (find_vol inv.order sv.volId sv).mpr ⟨hs,rfl⟩
    exact Option.some.inj (h1.symm.trans h2)
  have ⟨e,he,hel⟩ := hvol.highest_mem (full sv hs)
  have ⟨x,hx,hxv,e1,he1,hl1,hp1⟩ := entry_transfer inv inv' perm hs he
  have hxs := same x hx hxv
  subst hxs
  have hle : sv.highestLnum≤x.highestLnum := by
    have := hvol'.highest_le e1 he1
    omega
  have ⟨f,hf,hfl⟩ := hvol'.highest_mem (List.ne_nil_of_mem he1)
  have ⟨y,hy,hyv,f1,hf1,hfl1,_⟩ := entry_transfer inv' inv perm.symm hs' hf
  have hys := same' y hy hyv
  subst hys
  have hge : x.highestLnum≤y.highestLnum := by
    have := hvol.highest_le f1 hf1
    omega
  have heq := le_antisymm hle hge
  have hlast := hvol.last e he hel
  have hlast' := hvol'.last e1 he1 (hl1.trans (hel.trans heq))
  rw [hp1] at hlast'
  exact ⟨heq,hlast.trans hlast'.symm⟩

/-- What one scan finds about a volume, the other one finds too. -/
theorem volumeEnd_sub (inv : Inv reads done si) (inv' : Inv reads done' si')
    (perm : done.Perm done') (full : Inhabited si) {v : ℤ} {b : ℤ×ℤ}
    (h : volumeEnd si v=some b) : volumeEnd si' v=some b := by
  have ⟨sv,hf,hb⟩ := Option.map_eq_some_iff.mp h
  have ⟨hs,hv⟩ := (find_vol inv.order v sv).mp hf
  have ⟨e,he⟩ := List.exists_mem_of_ne_nil _ (full sv hs)
  have ⟨sv',hs',hid,_⟩ := entry_transfer inv inv' perm hs he
  have ⟨hh,hl⟩ := end_eq inv inv' perm full hs hs' hid
  have hf' := (find_vol inv'.order v sv').mpr ⟨hs',hid.trans hv⟩
  simp only [volumeEnd,hf',Option.map_some,←hb,hh,hl]

theorem volumeEnd_eq (inv : Inv reads done si) (inv' : Inv reads done' si')
    (perm : done.Perm done') (full : Inhabited si) (full' : Inhabited si') (v : ℤ) :
    volumeEnd si v=volumeEnd si' v := by
  apply Option.ext
  intro b
  exact ⟨volumeEnd_sub inv inv' perm full,volumeEnd_sub inv' inv perm.symm full'⟩

theorem maxSqnum_le (inv : Inv reads done si) (inv' : Inv reads done' si')
    (perm : done.Perm done') : si.maxSqnum≤ si'.maxSqnum := by
  rcases inv.sqnum_mem with hz|⟨p,hp,hu,he⟩
  · omega
  · exact he▸inv'.sqnum_le p (perm.mem_iff.mp hp) hu

end

/-- Two scans of the same eraseblocks in different orders find the same
mapping, which keeps of each LEB the copy that arbitration keeps, the same end
of each volume and the same highest sequence number. -/
theorem scanLoop_perm (dev : Device) (reads : ℕ → PebReads dev) (rb rb' : Rebalance)
    (allocs allocs' : ℕ → Allocs) (start start' st st' : Scan) (order order' : List ℕ)
    (perm : order.Perm order')
    (ok : scanLoop dev rb reads allocs { start with si := {} } order=.ok st)
    (ok' : scanLoop dev rb' reads allocs' { start' with si := {} } order'=.ok st') :
    (∀ v l,lookup st.si v l=lookup st'.si v l)∧(∀ v,volumeEnd st.si v=volumeEnd st'.si v)∧
      st.si.maxSqnum=st'.si.maxSqnum∧
      ∀ v l p,lookup st.si v l=some p ↔
        Best (age reads) (Intact reads) (copies reads order v l) p := by
  have g := scanLoop_good rb allocs (good_start reads) ok
  have g' := scanLoop_good rb' allocs' (good_start reads) ok'
  rw [List.append_nil] at g g'
  have hperm := order.reverse_perm.trans (perm.trans order'.reverse_perm.symm)
  have mapped : ∀ v l p,lookup st.si v l=some p ↔
      Best (age reads) (Intact reads) (copies reads order v l) p := by
    intro v l p
    rw [lookup_iff g.inv,copies_perm order.reverse_perm]
  refine ⟨?_,volumeEnd_eq g.inv g'.inv hperm g.full g'.full,
    le_antisymm (maxSqnum_le g.inv g'.inv hperm) (maxSqnum_le g'.inv g.inv hperm.symm),mapped⟩
  intro v l
  apply Option.ext
  intro p
  rw [mapped,lookup_iff g'.inv,copies_perm order'.reverse_perm,copies_perm perm]

/-- A device of three small eraseblocks. -/
def smallDevice : Device := ⟨3,64,fun _ => 0⟩

/-- The first eraseblock is empty, and the others hold copies of one LEB. -/
def smallReads (p : ℕ) : PebReads smallDevice where
  isBad := 0
  ecRes := .ok
  ech := ⟨UBI_VERSION,7,0⟩
  vidRes := if p=0 then .ff else .ok
  vidh := ⟨UBI_VID_DYNAMIC,false,0,3,5,0,0,0,0,p⟩
  rereadRes := .ok
  dataRes := .ok
  data := []
  ec_valid := fun _ => by decide
  vid_valid := fun _ => rfl

def smallAllocs (_ : ℕ) : Allocs := ⟨true,true,true,true⟩

theorem scanLoop_perm_example :
    ∃ st st',scanLoop smallDevice Rebalance.none smallReads smallAllocs {} [0,1,2]=.ok st∧
      scanLoop smallDevice Rebalance.none smallReads smallAllocs {} [2,1,0]=.ok st'∧
      lookup st.si 3 5=some 2∧lookup st.si 3 5=lookup st'.si 3 5 := by
  refine ⟨_,_,rfl,rfl,rfl,?_⟩
  exact (scanLoop_perm smallDevice smallReads Rebalance.none Rebalance.none smallAllocs smallAllocs
    {} {} _ _ [0,1,2] [2,1,0] (by decide) rfl rfl).1 3 5

/-! ## Accounting -/

/-- What a scan knows about the eraseblocks of a device. -/
structure Accounted (dev : Device) (reads : ℕ → PebReads dev) (si : ScanInfo) : Prop where
  /-- Each eraseblock is bad, or is once in the trees and lists. -/
  once : ∀ p<dev.pebCount,((reads p).isBad≠0∧(places si).count p=0)∨
    ((reads p).isBad=0∧(places si).count p=1)
  /-- There are no other eraseblocks. -/
  inside : ∀ p∈places si,p<dev.pebCount
  bad : si.badPebCount=(badPebs reads (List.range dev.pebCount)).length
  corr : si.corrPebCount=si.corr.length
  alien : si.alienPebCount=si.alien.length
  vols : si.volsFound=si.volumes.toList.length
  /-- No volume occurs twice. -/
  volOrder : si.volumes.toList.Pairwise fun a b => b.volId<a.volId
  lebCount : ∀ sv∈si.volumes.toList,sv.lebCount=sv.root.toList.length
  highest : ∀ sv∈si.volumes.toList,(∀ e∈sv.root.toList,e.lnum≤ sv.highestLnum)∧
    ∃ e∈sv.root.toList,e.lnum=sv.highestLnum
  /-- The trees are ordered, with one entry for each LEB. -/
  order : ∀ sv∈si.volumes.toList,sv.root.toList.Pairwise fun a b => a.lnum<b.lnum
  sqnum : ∀ p<dev.pebCount,usedHdr (reads p)=true → (reads p).vidh.sqnum≤ si.maxSqnum
  /-- All erase counters are known. -/
  treeEc : ∀ sv∈si.volumes.toList,∀ e∈sv.root.toList,e.ec≠UBI_SCAN_UNKNOWN_EC
  freeEc : ∀ e∈si.free,e.ec≠UBI_SCAN_UNKNOWN_EC
  eraseEc : ∀ e∈si.erase,e.ec≠UBI_SCAN_UNKNOWN_EC
  corrEc : ∀ e∈si.corr,e.ec≠UBI_SCAN_UNKNOWN_EC

section

variable {dev : Device} {reads : ℕ → PebReads dev}

@[simp] theorem fixEc_pnum (mean : ℤ) (e : ScanLeb) : (fixEc mean e).pnum=e.pnum := by
  unfold fixEc
  split <;> rfl

@[simp] theorem fixEc_lnum (mean : ℤ) (e : ScanLeb) : (fixEc mean e).lnum=e.lnum := by
  unfold fixEc
  split <;> rfl

theorem fixEc_known {mean : ℤ} (h : 0≤ mean) (e : ScanLeb) :
    (fixEc mean e).ec≠UBI_SCAN_UNKNOWN_EC := by
  unfold fixEc
  split
  · dsimp only [UBI_SCAN_UNKNOWN_EC]
    omega
  · assumption

theorem map_fixEc_pnum (mean : ℤ) (l : List ScanLeb) :
    (l.map (fixEc mean)).map ScanLeb.pnum=l.map ScanLeb.pnum := by
  rw [List.map_map]
  exact List.map_congr_left fun e _ => fixEc_pnum mean e

theorem map_fixEc_known {mean : ℤ} (h : 0≤ mean) (l : List ScanLeb) :
    ∀ e∈l.map (fixEc mean),e.ec≠UBI_SCAN_UNKNOWN_EC := by
  intro e he
  have ⟨x,_,hx⟩ := List.mem_map.mp he
  exact hx▸fixEc_known h x

theorem places_fixEcs (si : ScanInfo) : places (fixEcs si)=places si := by
  have hv : (fixEcs si).volumes.toList.flatMap volPebs=si.volumes.toList.flatMap volPebs := by
    unfold fixEcs
    rw [Tree.toList_map,List.flatMap_map]
    refine List.flatMap_congr fun sv _ => ?_
    unfold volPebs
    rw [Tree.toList_map,map_fixEc_pnum]
  unfold places
  rw [hv]
  unfold fixEcs
  simp only [map_fixEc_pnum]

/-- The last loops of `ubi_scan` make the erase counters known and keep what
holds otherwise. -/
theorem accounted_fixEcs {done : List ℕ} {si : ScanInfo}
    (perm : done.Perm (List.range dev.pebCount)) (inv : Inv reads done si)
    (full : Inhabited si) (hmean : 0≤ si.meanEc) : Accounted dev reads (fixEcs si) := by
  have hvols : (fixEcs si).volumes.toList=
      si.volumes.toList.map fun sv => { sv with root := sv.root.map (fixEc si.meanEc) } :=
    Tree.toList_map _ _
  have vol : ∀ sv∈(fixEcs si).volumes.toList,∃ x∈si.volumes.toList,
      sv.root.toList=x.root.toList.map (fixEc si.meanEc)∧sv.lebCount=x.lebCount∧
        sv.highestLnum=x.highestLnum := by
    intro sv hsv
    rw [hvols] at hsv
    have ⟨x,hx,he⟩ := List.mem_map.mp hsv
    subst he
    exact ⟨x,hx,Tree.toList_map _ _,rfl,rfl⟩
  have hbad : (badPebs reads done).Perm (badPebs reads (List.range dev.pebCount)) :=
    perm.filter _
  have hall := (List.Perm.append_right (places si) hbad.symm).trans (inv.perm.trans perm)
  have hcount : ∀ p,(badPebs reads (List.range dev.pebCount)).count p+(places si).count p=
      (List.range dev.pebCount).count p := by
    intro p
    rw [←List.count_append]
    exact hall.count_eq p
  constructor
  · intro p hp
    have h1 := hcount p
    rw [List.count_eq_one_of_mem List.nodup_range (List.mem_range.mpr hp)] at h1
    rw [places_fixEcs]
    by_cases hb : (reads p).isBad=0
    · have h2 : (badPebs reads (List.range dev.pebCount)).count p=0 := by
        apply List.count_eq_zero_of_not_mem
        intro hm
        have := (List.mem_filter.mp hm).2
        simp [hb] at this
      exact Or.inr ⟨hb,by omega⟩
    · have h2 : 0<(badPebs reads (List.range dev.pebCount)).count p :=
        List.count_pos_iff.mpr (List.mem_filter.mpr ⟨List.mem_range.mpr hp,by simpa using hb⟩)
      exact Or.inl ⟨hb,by omega⟩
  · intro p hp
    rw [places_fixEcs] at hp
    exact List.mem_range.mp (hall.mem_iff.mp (List.mem_append_right _ hp))
  · exact inv.bad.trans hbad.length_eq
  · exact inv.corr.trans (List.length_map _).symm
  · exact inv.alien
  · rw [hvols,List.length_map]
    exact inv.vols
  · rw [hvols,List.pairwise_map]
    exact inv.order
  · intro sv hsv
    have ⟨x,hx,hr,hc,_⟩ := vol sv hsv
    rw [hr,List.length_map,hc]
    exact (inv.volume x hx).count
  · intro sv hsv
    have ⟨x,hx,hr,_,hh⟩ := vol sv hsv
    have ⟨e,he,hel⟩ := (inv.volume x hx).highest_mem (full x hx)
    rw [hr,hh]
    constructor
    · intro f hf
      have ⟨y,hy,hyf⟩ := List.mem_map.mp hf
      rw [←hyf,fixEc_lnum]
      exact (inv.volume x hx).highest_le y hy
    · exact ⟨_,List.mem_map_of_mem he,(fixEc_lnum _ e).trans hel⟩
  · intro sv hsv
    have ⟨x,hx,hr,_,_⟩ := vol sv hsv
    rw [hr,List.pairwise_map]
    simpa only [fixEc_lnum] using (inv.volume x hx).order
  · exact fun p hp hu => inv.sqnum_le p (perm.mem_iff.mpr (List.mem_range.mpr hp)) hu
  · intro sv hsv
    have ⟨x,_,hr,_,_⟩ := vol sv hsv
    rw [hr]
    exact map_fixEc_known hmean _
  · exact map_fixEc_known hmean _
  · exact map_fixEc_known hmean _
  · exact map_fixEc_known hmean _

theorem checkWhatWeHave_fields {random : ℤ} {st st' : Scan}
    (ok : checkWhatWeHave dev random st=.ok st') :
    ∃ empty,st'.si={ st.si with isEmpty := empty } := by
  unfold checkWhatWeHave at ok
  dsimp only at ok
  generalize (if _≠(0 : ℤ) then _ else (8 : ℤ))=maxCorr at ok
  split at ok
  · cases ok
  split at ok
  · split at ok
    · cases ok
      exact ⟨true,rfl⟩
    · cases ok
  · cases ok
    exact ⟨_,rfl⟩

/-- What a scan found was found by its loop. -/
theorem ubiScan_loop {rb : Rebalance} {allocs : ℕ → Allocs} {memory : Bool} {random : ℤ}
    {st st' : Scan} (ok : ubiScan dev rb reads allocs memory random st=.ok st') :
    ∃ st1 mean empty,scanLoop dev rb reads allocs { st with si := {} }
        (List.range dev.pebCount)=.ok st1∧
      st'.si=fixEcs { st1.si with meanEc := mean, isEmpty := empty } := by
  unfold ubiScan at ok
  split at ok
  · cases ok
  have ⟨st1,hloop,ok⟩ := bind_ok ok
  have ⟨st2,hcheck,ok⟩ := bind_ok ok
  cases ok
  have ⟨empty,hsi⟩ := checkWhatWeHave_fields hcheck
  exact ⟨st1,_,empty,hloop,by rw [hsi]⟩

/-- Corrupted eraseblocks are not bad ones. -/
theorem ubiScan_counts {rb : Rebalance} {allocs : ℕ → Allocs} {memory : Bool} {random : ℤ}
    {st st' : Scan} (ok : ubiScan dev rb reads allocs memory random st=.ok st') :
    st'.si.badPebCount+st'.si.corrPebCount≤dev.pebCount := by
  have ⟨st1,mean,empty,hloop,hsi⟩ := ubiScan_loop ok
  have good := scanLoop_good rb allocs (good_start reads) hloop
  rw [List.append_nil] at good
  have hp := good.inv.perm.length_eq
  have hl : (places st1.si).length≥st1.si.corr.length := by
    unfold places
    simp only [List.length_append,List.length_map]
    omega
  rw [List.length_append,← good.inv.bad,List.length_reverse,List.length_range] at hp
  rw [hsi]
  change st1.si.badPebCount+st1.si.corrPebCount≤_
  rw [good.inv.corr]
  omega

end

/-- A scan that succeeds accounts for every eraseblock. -/
theorem ubiScan_accounted (dev : Device) (rb : Rebalance) (reads : ℕ → PebReads dev)
    (allocs : ℕ → Allocs) (memory : Bool) (random : ℤ) (st st' : Scan)
    (ok : ubiScan dev rb reads allocs memory random st=.ok st') :
    Accounted dev reads st'.si := by
  unfold ubiScan at ok
  split at ok
  · cases ok
  have ⟨st₁,hloop,ok⟩ := bind_ok ok
  have ⟨st₂,hcheck,ok⟩ := bind_ok ok
  cases ok
  have good := scanLoop_good rb allocs (good_start reads) hloop
  rw [List.append_nil] at good
  have ⟨empty,hsi⟩ := checkWhatWeHave_fields hcheck
  have hmean : 0≤ if st₁.si.ecCount≠0 then st₁.si.ecSum/st₁.si.ecCount else st₁.si.meanEc := by
    split
    · exact Int.ediv_nonneg good.sum (Int.natCast_nonneg _)
    · exact good.mean.ge
  have h := good.inv
  have inv : Inv reads (List.range dev.pebCount).reverse st₂.si := by
    rw [hsi]
    exact ⟨h.perm,h.bad,h.corr,h.alien,h.vols,h.order,h.volume,h.sqnum_le,h.sqnum_mem,h.complete⟩
  have full : Inhabited st₂.si := by
    rw [hsi]
    exact good.full
  refine accounted_fixEcs (List.reverse_perm _) inv full ?_
  rw [hsi]
  exact hmean

theorem ubiScan_accounted_example :
    ∃ st,ubiScan smallDevice Rebalance.none smallReads smallAllocs true 77 {}=.ok st∧
      places st.si=[2,0,1]∧Accounted smallDevice smallReads st.si :=
  ⟨_,rfl,rfl,ubiScan_accounted smallDevice Rebalance.none smallReads smallAllocs true 77 {} _ rfl⟩

end ArdroneKernel.UbiScanCorrect
