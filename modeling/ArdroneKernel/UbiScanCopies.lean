import ArdroneKernel.UbiScan
import ArdroneKernel.Arbitration
import Mathlib.Data.List.Perm.Basic

/-!
# What a scan finds

After any number of eraseblocks, in any order, each of them is in one place,
and each LEB of a volume is mapped to the copy that arbitration keeps among
all copies seen. The order of the eraseblocks makes no difference.
-/

namespace ArdroneKernel.UbiScanCopies

open SearchTree UbiScan Arbitration

/-- The reads of an eraseblock lead to `ubi_scan_add_used`. -/
def usedHdr {dev : Device} (r : PebReads dev) : Bool :=
  r.isBad=0&&(r.ecRes.good||r.ecRes=.badHdr||r.ecRes=.badHdrEbadmsg)&&r.vidRes.good&&
    !(decide (r.vidh.volId>UBI_MAX_VOLUMES∧r.vidh.volId≠UBI_LAYOUT_VOLUME_ID)&&
      (r.vidh.compat=UBI_COMPAT_DELETE||r.vidh.compat=UBI_COMPAT_PRESERVE||
        r.vidh.compat=UBI_COMPAT_REJECT))

section

variable {dev : Device} (reads : ℕ → PebReads dev)

/-- The sequence number of an eraseblock. -/
def age (p : ℕ) : ℕ := (reads p).vidh.sqnum

/-- The copy flag is clear, or the data match their checksum. -/
def Intact (p : ℕ) : Prop :=
  (reads p).vidh.copyFlag=false∨crcMatches dev (reads p) (reads p).vidh=true

instance : DecidablePred (Intact reads) := fun _ => inferInstanceAs (Decidable (_∨_))

/-- The copies of a LEB among some eraseblocks. -/
def copies (done : List ℕ) (v l : ℤ) : Set ℕ :=
  { p | p∈done∧usedHdr (reads p)=true∧(reads p).vidh.volId=v∧(reads p).vidh.lnum=l }

/-- The eraseblocks marked bad. -/
def badPebs (done : List ℕ) : List ℕ := done.filter fun p => (reads p).isBad≠0

/-- The eraseblocks in the tree of a volume. -/
def volPebs (sv : ScanVolume) : List ℕ := sv.root.toList.map ScanLeb.pnum

/-- The eraseblocks in all trees and lists. -/
def places (si : ScanInfo) : List ℕ :=
  si.volumes.toList.flatMap volPebs++si.free.map ScanLeb.pnum++si.erase.map ScanLeb.pnum++
    si.corr.map ScanLeb.pnum++si.alien.map ScanLeb.pnum

/-- What holds of the tree of a volume when some eraseblocks have been seen. -/
structure VolInv (done : List ℕ) (sv : ScanVolume) : Prop where
  /-- The tree is ordered by LEB number, with one entry for each. -/
  order : sv.root.toList.Pairwise fun a b => a.lnum<b.lnum
  /-- The entries are counted. -/
  count : sv.lebCount=sv.root.toList.length
  /-- No LEB number is above the highest one. -/
  highest_le : ∀ e∈sv.root.toList,e.lnum≤ sv.highestLnum
  /-- The highest one occurs. -/
  highest_mem : sv.root.toList≠[] → ∃ e∈sv.root.toList,e.lnum=sv.highestLnum
  /-- An empty tree has the initial value. -/
  highest_nil : sv.root.toList=[] → sv.highestLnum=0
  /-- The data size is that of the highest LEB. -/
  last : ∀ e∈sv.root.toList,e.lnum=sv.highestLnum →
    sv.lastDataSize=(reads e.pnum).vidh.dataSize
  /-- An entry holds what its header says. -/
  header : ∀ e∈sv.root.toList,e.sqnum=age reads e.pnum∧e.copyFlag=(reads e.pnum).vidh.copyFlag
  /-- An entry is the copy to be kept of its LEB. -/
  best : ∀ e∈sv.root.toList,
    Best (age reads) (Intact reads) (copies reads done sv.volId e.lnum) e.pnum

/-- What holds of the scanning information when some eraseblocks have been seen. -/
structure Inv (done : List ℕ) (si : ScanInfo) : Prop where
  /-- Every eraseblock seen is bad or in one place. -/
  perm : (badPebs reads done++places si).Perm done
  /-- The counters of eraseblocks. -/
  bad : si.badPebCount=(badPebs reads done).length
  corr : si.corrPebCount=si.corr.length
  alien : si.alienPebCount=si.alien.length
  /-- The volumes are counted. -/
  vols : si.volsFound=si.volumes.toList.length
  /-- The tree of volumes is ordered, the highest one first. -/
  order : si.volumes.toList.Pairwise fun a b => b.volId<a.volId
  /-- The trees of the volumes. -/
  volume : ∀ sv∈si.volumes.toList,VolInv reads done sv
  /-- No used eraseblock is newer than the highest sequence number. -/
  sqnum_le : ∀ p∈done,usedHdr (reads p)=true → age reads p≤ si.maxSqnum
  /-- The highest sequence number occurs, or is the initial value. -/
  sqnum_mem : si.maxSqnum=0∨∃ p∈done,usedHdr (reads p)=true∧age reads p=si.maxSqnum
  /-- Every used eraseblock has a LEB in a tree. -/
  complete : ∀ p∈done,usedHdr (reads p)=true → ∃ sv∈si.volumes.toList,
    sv.volId=(reads p).vidh.volId∧∃ e∈sv.root.toList,e.lnum=(reads p).vidh.lnum

/-- Every volume has a LEB. -/
def Inhabited (si : ScanInfo) : Prop := ∀ sv∈si.volumes.toList,sv.root.toList≠[]

end

/-! ## Walks -/

theorem volTurn_here (v : ℤ) (sv : ScanVolume) : volTurn v sv=.here ↔ sv.volId=v := by
  unfold volTurn
  split_ifs <;> simp <;> omega

theorem lebTurn_here (l : ℤ) (e : ScanLeb) : lebTurn l e=.here ↔ e.lnum=l := by
  unfold lebTurn
  split_ifs <;> simp <;> omega

theorem volTurn_right (v : ℤ) (sv : ScanVolume) : volTurn v sv=.right ↔ v<sv.volId := by
  unfold volTurn
  split_ifs <;> simp <;> omega

theorem volTurn_left (v : ℤ) (sv : ScanVolume) : volTurn v sv=.left ↔ sv.volId<v := by
  unfold volTurn
  split_ifs <;> simp <;> omega

theorem lebTurn_right (l : ℤ) (e : ScanLeb) : lebTurn l e=.right ↔ e.lnum<l := by
  unfold lebTurn
  split_ifs <;> simp <;> omega

theorem lebTurn_left (l : ℤ) (e : ScanLeb) : lebTurn l e=.left ↔ l<e.lnum := by
  unfold lebTurn
  split_ifs <;> simp <;> omega

theorem guides_vol (v : ℤ) : Guides (fun a b : ScanVolume => b.volId<a.volId) (volTurn v) :=
  guides_of_key (fun sv => OrderDual.toDual sv.volId) (.toDual v) (volTurn_left v)
    (fun sv => (volTurn_here v sv).trans eq_comm) (volTurn_right v)

theorem guides_leb (l : ℤ) : Guides (fun a b : ScanLeb => a.lnum<b.lnum) (lebTurn l) :=
  guides_of_key ScanLeb.lnum l (lebTurn_left l) (fun e => (lebTurn_here l e).trans eq_comm)
    (lebTurn_right l)

theorem find_vol {si : ScanInfo}
    (h : si.volumes.toList.Pairwise fun a b => b.volId<a.volId) (v : ℤ) (sv : ScanVolume) :
    si.volumes.find (volTurn v)=some sv ↔ sv∈si.volumes.toList∧sv.volId=v := by
  rw [Tree.find_iff (guides_vol v) h,volTurn_here]

theorem find_leb {sv : ScanVolume}
    (h : sv.root.toList.Pairwise fun a b => a.lnum<b.lnum) (l : ℤ) (e : ScanLeb) :
    sv.root.find (lebTurn l)=some e ↔ e∈sv.root.toList∧e.lnum=l := by
  rw [Tree.find_iff (guides_leb l) h,lebTurn_here]

/-! ## One more eraseblock -/

section

variable {dev : Device} {reads : ℕ → PebReads dev} {done : List ℕ} {si si' : ScanInfo} {p : ℕ}
  {sv : ScanVolume} {ec : ℤ} {l1 l2 : List ScanVolume} {m : Allocs} {toHead : Bool} (rb : Rebalance)
  {seb : ScanLeb}

theorem copies_cons_self (h : usedHdr (reads p)=true) :
    copies reads (p::done) (reads p).vidh.volId (reads p).vidh.lnum=
      insert p (copies reads done (reads p).vidh.volId (reads p).vidh.lnum) := by
  ext q
  simp only [copies,Set.mem_ofPred_eq,List.mem_cons,Set.mem_insert_iff]
  constructor
  · rintro ⟨rfl|hq,hu,hv,hl⟩
    · exact Or.inl rfl
    · exact Or.inr ⟨hq,hu,hv,hl⟩
  · rintro (rfl|⟨hq,hu,hv,hl⟩)
    · exact ⟨Or.inl rfl,h,rfl,rfl⟩
    · exact ⟨Or.inr hq,hu,hv,hl⟩

theorem copies_cons_other {v l : ℤ}
    (h : usedHdr (reads p)=true → (reads p).vidh.volId=v → (reads p).vidh.lnum≠l) :
    copies reads (p::done) v l=copies reads done v l := by
  ext q
  simp only [copies,Set.mem_ofPred_eq,List.mem_cons]
  constructor
  · rintro ⟨rfl|hq,hu,hv,hl⟩
    · exact absurd hl (h hu hv)
    · exact ⟨hq,hu,hv,hl⟩
  · exact fun ⟨hq,hu,hv,hl⟩ => ⟨Or.inr hq,hu,hv,hl⟩

/-- A volume to which an eraseblock does not belong is not affected by it. -/
theorem VolInv.other (h : VolInv reads done sv)
    (hp : usedHdr (reads p)=true → (reads p).vidh.volId≠sv.volId) :
    VolInv reads (p::done) sv where
  order := h.order
  count := h.count
  highest_le := h.highest_le
  highest_mem := h.highest_mem
  highest_nil := h.highest_nil
  last := h.last
  header := h.header
  best := by
    intro e he
    rw [copies_cons_other fun hu hv => absurd hv (hp hu)]
    exact h.best e he

/-- The two sides of an element of an ordered list. -/
theorem lnum_ne {l1 l2 : List ScanLeb} {e : ScanLeb}
    (h : (l1++e::l2).Pairwise fun a b => a.lnum<b.lnum) {x : ScanLeb} (hx : x∈l1∨x∈l2) :
    x.lnum≠e.lnum := by
  simp only [List.pairwise_append,List.pairwise_cons,List.mem_cons] at h
  cases hx with
  | inl hx =>
    have := h.2.2 x hx e (Or.inl rfl)
    omega
  | inr hx =>
    have := h.2.1.1 x hx
    omega

theorem volId_ne {e : ScanVolume} (h : (l1++e::l2).Pairwise fun a b => b.volId<a.volId)
    {x : ScanVolume} (hx : x∈l1∨x∈l2) :
    x.volId≠e.volId := by
  simp only [List.pairwise_append,List.pairwise_cons,List.mem_cons] at h
  cases hx with
  | inl hx =>
    have := h.2.2 x hx e (Or.inl rfl)
    omega
  | inr hx =>
    have := h.2.1.1 x hx
    omega

/-- The entry of a LEB that got another copy: the kept one of the two. -/
theorem best_cons (h : VolInv reads done sv) (hs : seb∈sv.root.toList) (hu : usedHdr (reads p)=true)
    (hv : (reads p).vidh.volId=sv.volId) (hl : (reads p).vidh.lnum=seb.lnum)
    (hne : age reads seb.pnum≠age reads p) :
    Best (age reads) (Intact reads) (copies reads (p::done) sv.volId seb.lnum)
      (better (age reads) (Intact reads) seb.pnum p) := by
  rw [←hv,←hl,copies_cons_self hu]
  have k := h.best seb hs
  rw [←hv,←hl] at k
  exact k.insert hne

/-- An older copy changes nothing in the tree. -/
theorem VolInv.keep (h : VolInv reads done sv) (hs : seb∈sv.root.toList)
    (hu : usedHdr (reads p)=true) (hv : (reads p).vidh.volId=sv.volId)
    (hl : (reads p).vidh.lnum=seb.lnum) (hne : age reads seb.pnum≠age reads p)
    (hb : better (age reads) (Intact reads) seb.pnum p=seb.pnum) :
    VolInv reads (p::done) sv where
  order := h.order
  count := h.count
  highest_le := h.highest_le
  highest_mem := h.highest_mem
  highest_nil := h.highest_nil
  last := h.last
  header := h.header
  best := by
    intro e he
    by_cases hel : e.lnum=seb.lnum
    · have heq : e=seb := by
        have hf := (find_leb h.order seb.lnum e).mpr ⟨he,hel⟩
        have hg := (find_leb h.order seb.lnum seb).mpr ⟨hs,rfl⟩
        exact Option.some.inj (hf.symm.trans hg)
      rw [heq,←hb]
      exact best_cons h hs hu hv hl hne
    · rw [copies_cons_other fun _ _ hl' => hel (hl'.symm.trans hl)]
      exact h.best e he

/-- A newer copy takes the place of an older one. -/
theorem VolInv.replace (h : VolInv reads done sv)
    (hf : sv.root.find (lebTurn (reads p).vidh.lnum)=some seb) (hu : usedHdr (reads p)=true)
    (hv : (reads p).vidh.volId=sv.volId) (hne : age reads seb.pnum≠age reads p)
    (hb : better (age reads) (Intact reads) seb.pnum p=p) (ec : ℤ) (scrub : Bool) :
    VolInv reads (p::done) (sv.replaceLeb p ec (reads p).vidh scrub)∧
      (seb.pnum::volPebs (sv.replaceLeb p ec (reads p).vidh scrub)).Perm (p::volPebs sv) := by
  have ⟨hs,hl⟩ := (find_leb h.order _ seb).mp hf
  have ⟨l1,l2,hold,hnew⟩ := Tree.update_split hf
  have hroot := hnew fun e => e.replace p ec (reads p).vidh scrub
  have hord := h.order
  rw [hold] at hord
  have other : ∀ e,e∈l1∨e∈l2 → e∈sv.root.toList∧e.lnum≠seb.lnum := by
    intro e he
    refine ⟨?_,lnum_ne hord he⟩
    rw [hold]
    simp only [List.mem_append,List.mem_cons]
    tauto
  have mem : ∀ e,e∈(sv.replaceLeb p ec (reads p).vidh scrub).root.toList →
      e=seb.replace p ec (reads p).vidh scrub∨(e∈sv.root.toList∧e.lnum≠seb.lnum) := by
    intro e he
    have he' : e∈l1++seb.replace p ec (reads p).vidh scrub::l2 := hroot▸he
    simp only [List.mem_append,List.mem_cons] at he'
    rcases he' with he'|he'|he'
    · exact Or.inr (other e (Or.inl he'))
    · exact Or.inl he'
    · exact Or.inr (other e (Or.inr he'))
  constructor
  · constructor
    · have hpw : (l1++seb.replace p ec (reads p).vidh scrub::l2).Pairwise
          fun a b => a.lnum<b.lnum := by
        simpa only [List.pairwise_append,List.pairwise_cons,List.mem_cons,forall_eq_or_imp,
          ScanLeb.replace] using hord
      exact hroot.symm▸hpw
    · have hc := h.count
      rw [hold] at hc
      have hlen : (sv.replaceLeb p ec (reads p).vidh scrub).root.toList.length=
          (l1++seb::l2).length := by
        have := congrArg List.length hroot
        simpa [ScanVolume.replaceLeb] using this
      exact hc.trans hlen.symm
    · intro e he
      rcases mem e he with rfl|⟨hm,_⟩
      · exact h.highest_le seb hs
      · exact h.highest_le e hm
    · intro _
      have ⟨e,he,hhe⟩ := h.highest_mem (List.ne_nil_of_mem hs)
      by_cases hes : e∈l1∨e∈l2
      · refine ⟨e,?_,hhe⟩
        have : e∈l1++seb.replace p ec (reads p).vidh scrub::l2 := by
          simp only [List.mem_append,List.mem_cons]
          tauto
        exact hroot.symm▸this
      · have hes' : e=seb := by
          rw [hold] at he
          simp only [List.mem_append,List.mem_cons] at he
          tauto
        refine ⟨seb.replace p ec (reads p).vidh scrub,?_,hes'▸hhe⟩
        have : seb.replace p ec (reads p).vidh scrub∈l1++seb.replace p ec (reads p).vidh scrub::l2 := by
          simp
        exact hroot.symm▸this
    · intro hnil
      have hn := hroot.symm.trans hnil
      simp at hn
    · intro e he hhe
      unfold ScanVolume.replaceLeb
      rcases mem e he with rfl|⟨hm,hne'⟩
      · have hhl : sv.highestLnum=(reads p).vidh.lnum := hhe.symm.trans hl
        rw [if_pos hhl]
        rfl
      · have hhe' : e.lnum=sv.highestLnum := hhe
        rw [if_neg (by omega)]
        exact h.last e hm hhe'
    · intro e he
      rcases mem e he with rfl|⟨hm,_⟩
      · exact ⟨rfl,rfl⟩
      · exact h.header e hm
    · intro e he
      have hid : (sv.replaceLeb p ec (reads p).vidh scrub).volId=sv.volId := rfl
      rcases mem e he with rfl|⟨hm,hne'⟩
      · have k := best_cons h hs hu hv hl.symm hne
        rw [hb] at k
        exact k
      · rw [copies_cons_other fun _ _ hl' => hne' (hl'.symm.trans hl.symm)]
        exact h.best e hm
  · have hnewp : volPebs (sv.replaceLeb p ec (reads p).vidh scrub)=
        l1.map ScanLeb.pnum++p::l2.map ScanLeb.pnum := by
      have : volPebs (sv.replaceLeb p ec (reads p).vidh scrub)=
          (l1++seb.replace p ec (reads p).vidh scrub::l2).map ScanLeb.pnum := congrArg _ hroot
      simpa [ScanLeb.replace] using this
    have holdp : volPebs sv=l1.map ScanLeb.pnum++seb.pnum::l2.map ScanLeb.pnum := by
      simp [volPebs,hold]
    rw [hnewp,holdp,List.perm_iff_count]
    intro a
    simp only [List.count_cons,List.count_append]
    omega

/-- The first copy of a LEB is added to the tree. -/
theorem VolInv.add (h : VolInv reads done sv) (rb : Rebalance)
    (hf : sv.root.find (lebTurn (reads p).vidh.lnum)=none) (hu : usedHdr (reads p)=true)
    (hv : (reads p).vidh.volId=sv.volId) (h0 : 0≤(reads p).vidh.lnum)
    (hnone : copies reads done sv.volId (reads p).vidh.lnum=∅) (ec : ℤ) (scrub : Bool) :
    VolInv reads (p::done) (sv.addLeb rb p ec (reads p).vidh scrub)∧
      (volPebs (sv.addLeb rb p ec (reads p).vidh scrub)).Perm (p::volPebs sv) := by
  have ⟨l1,l2,hold,hnew⟩ := Tree.add_split hf
  have hno := (Tree.find_none_iff (guides_leb _) h.order).mp hf
  simp only [ne_eq,lebTurn_here] at hno
  have hroot : (sv.addLeb rb p ec (reads p).vidh scrub).root.toList=
      l1++⟨ec,p,(reads p).vidh.lnum,scrub,(reads p).vidh.copyFlag,(reads p).vidh.sqnum⟩::l2 :=
    (rb.keeps _).trans (hnew _)
  have mem : ∀ e,e∈(sv.addLeb rb p ec (reads p).vidh scrub).root.toList ↔
      e=⟨ec,p,(reads p).vidh.lnum,scrub,(reads p).vidh.copyFlag,(reads p).vidh.sqnum⟩∨
        e∈sv.root.toList := by
    intro e
    rw [hroot,hold]
    simp only [List.mem_append,List.mem_cons]
    tauto
  have hmax : (sv.addLeb rb p ec (reads p).vidh scrub).highestLnum=
      if sv.highestLnum≤(reads p).vidh.lnum then (reads p).vidh.lnum else sv.highestLnum := rfl
  constructor
  · constructor
    · have hpw := Tree.add_pairwise (guides_leb _) h.order hf
        (a := ⟨ec,p,(reads p).vidh.lnum,scrub,(reads p).vidh.copyFlag,(reads p).vidh.sqnum⟩)
        (fun y _ hy => (lebTurn_right _ y).mp hy) fun y _ hy => (lebTurn_left _ y).mp hy
      have hk := rb.keeps (sv.root.add (lebTurn (reads p).vidh.lnum)
        ⟨ec,p,(reads p).vidh.lnum,scrub,(reads p).vidh.copyFlag,(reads p).vidh.sqnum⟩)
      exact hk.symm▸hpw
    · have hc : (sv.addLeb rb p ec (reads p).vidh scrub).lebCount=sv.lebCount+1 := rfl
      rw [hroot,hc,h.count,hold]
      simp only [List.length_append,List.length_cons]
      omega
    · intro e he
      rw [hmax]
      rcases (mem e).mp he with rfl|hm
      · dsimp only
        split <;> omega
      · have := h.highest_le e hm
        split <;> omega
    · intro _
      rw [hmax]
      by_cases hle : sv.highestLnum≤(reads p).vidh.lnum
      · rw [if_pos hle]
        exact ⟨_,(mem _).mpr (Or.inl rfl),rfl⟩
      · rw [if_neg hle]
        have hne : sv.root.toList≠[] := fun hnil => by
          have := h.highest_nil hnil
          omega
        have ⟨e,he,hhe⟩ := h.highest_mem hne
        exact ⟨e,(mem e).mpr (Or.inr he),hhe⟩
    · intro hnil
      rw [hroot] at hnil
      simp at hnil
    · intro e he
      have hlast : (sv.addLeb rb p ec (reads p).vidh scrub).lastDataSize=
          if sv.highestLnum≤(reads p).vidh.lnum then (reads p).vidh.dataSize
          else sv.lastDataSize := rfl
      rw [hmax,hlast]
      by_cases hle : sv.highestLnum≤(reads p).vidh.lnum
      · rw [if_pos hle,if_pos hle]
        intro hhe
        rcases (mem e).mp he with rfl|hm
        · rfl
        · exact absurd hhe (hno e hm)
      · rw [if_neg hle,if_neg hle]
        intro hhe
        rcases (mem e).mp he with rfl|hm
        · have hhe' : (reads p).vidh.lnum=sv.highestLnum := hhe
          omega
        · exact h.last e hm hhe
    · intro e he
      rcases (mem e).mp he with rfl|hm
      · exact ⟨rfl,rfl⟩
      · exact h.header e hm
    · intro e he
      have hid : (sv.addLeb rb p ec (reads p).vidh scrub).volId=sv.volId := rfl
      rw [hid]
      rcases (mem e).mp he with rfl|hm
      · rw [←hv,copies_cons_self hu,hv,hnone]
        simpa using Best.singleton p
      · rw [copies_cons_other fun _ _ hl' => hno e hm hl'.symm]
        exact h.best e hm
  · have hnewp : volPebs (sv.addLeb rb p ec (reads p).vidh scrub)=
        l1.map ScanLeb.pnum++p::l2.map ScanLeb.pnum := by
      simp [volPebs,hroot]
    have holdp : volPebs sv=l1.map ScanLeb.pnum++l2.map ScanLeb.pnum := by
      simp [volPebs,hold]
    rw [hnewp,holdp]
    exact List.perm_middle

/-- `compare_lebs` tells the copy to be kept. -/
theorem compareLebs_spec (m : Allocs) {c : CmpRes} (hsq : seb.sqnum=age reads seb.pnum)
    (hcf : seb.copyFlag=(reads seb.pnum).vidh.copyFlag)
    (h : compareLebs dev reads m seb p (reads p).vidh=.ok c) :
    age reads seb.pnum≠age reads p∧
      better (age reads) (Intact reads) seb.pnum p=if c.second then p else seb.pnum := by
  have check : ∀ (q : ℕ) second,(reads q).vidh.copyFlag=true →
      checkCopy dev m (reads q) (reads q).vidh second=.ok c →
      c.second=if Intact reads q then second else !second := by
    intro q second hq hc
    unfold checkCopy at hc
    have hi : Intact reads q ↔ crcMatches dev (reads q) (reads q).vidh=true := by
      simp [Intact,hq]
    split at hc
    · cases hc
    split at hc
    · cases hc
    · split at hc
      next hm =>
        cases hc
        rw [if_pos (hi.mpr hm)]
      next hm =>
        cases hc
        rw [if_neg fun k => hm (hi.mp k)]
  unfold compareLebs at h
  have hage : (reads p).vidh.sqnum=age reads p := rfl
  rw [hsq,hage] at h
  split at h
  · cases h
  next hne =>
  refine ⟨fun k => hne k.symm,?_⟩
  unfold better
  split at h
  next hgt =>
    rw [if_pos hgt]
    split at h
    next hcopy =>
      cases h
      have hint : Intact reads p := Or.inl (by simpa using hcopy)
      simp [hint]
    next hcopy =>
      have hs := check p true (by simpa using hcopy) h
      rw [hs]
      by_cases hint : Intact reads p <;> simp [hint]
  next hgt =>
    rw [if_neg hgt]
    split at h
    next hcopy =>
      cases h
      rw [hcf] at hcopy
      have hint : Intact reads seb.pnum := Or.inl (by simpa using hcopy)
      simp [hint]
    next hcopy =>
    rw [hcf] at hcopy
    have hcopy' : (reads seb.pnum).vidh.copyFlag=true := by simpa using hcopy
    split at h
    · cases h
    have hfin : checkCopy dev m (reads seb.pnum) (reads seb.pnum).vidh false=.ok c := by
      split at h
      · exact h
      · exact h
      · cases h
      · cases h
    have hs := check seb.pnum false hcopy' hfin
    rw [hs]
    by_cases hint : Intact reads seb.pnum <;> simp [hint]

/-! ## The scanning information -/

/-- The counters of erase counters are the same. -/
def SameEc (si si' : ScanInfo) : Prop :=
  si'.ecSum=si.ecSum∧si'.ecCount=si.ecCount∧si'.meanEc=si.meanEc

/-- `add_volume` returns a volume of the tree, which keeps the others. -/
theorem addVolume_volumes {rb : Rebalance} {h : VidHdr}
    (order : si.volumes.toList.Pairwise fun a b => b.volId<a.volId)
    (ok : addVolume rb si m h=.ok (si',sv)) :
    (si'.volumes.toList.Pairwise fun a b => b.volId<a.volId)∧sv.volId=h.volId∧
      (sv∈si.volumes.toList∨sv.root=.nil)∧
      ∀ x,x∈si'.volumes.toList ↔ x=sv∨x∈si.volumes.toList := by
  unfold addVolume at ok
  split at ok
  next sv0 hf =>
    cases ok
    have ⟨hm,hid⟩ := (find_vol order _ _).mp hf
    refine ⟨order,hid,Or.inl hm,fun x => ⟨Or.inr,?_⟩⟩
    rintro (rfl|hx)
    · exact hm
    · exact hx
  next hf =>
  split at ok
  swap
  · cases ok
  cases ok
  refine ⟨?_,rfl,Or.inr rfl,fun x => ?_⟩
  · dsimp only
    rw [rb.keeps]
    refine Tree.add_pairwise (guides_vol _) order hf (fun y _ hy => ?_) fun y _ hy => ?_
    · exact (volTurn_right _ y).mp hy
    · exact (volTurn_left _ y).mp hy
  · dsimp only
    rw [rb.keeps]
    exact Tree.mem_add hf

/-- The volume of a header is in the tree, perhaps as a new one without LEBs. -/
theorem addVolume_spec {si : ScanInfo} (m : Allocs) {h : VidHdr} {si' : ScanInfo}
    (inv : Inv reads done si) (ok : addVolume rb si m h=.ok (si',sv)) :
    Inv reads done si'∧si'.volumes.find (volTurn h.volId)=some sv∧SameEc si si'∧
      ∀ x∈si'.volumes.toList,x∈si.volumes.toList∨x=sv := by
  obtain ⟨order,hid,_,hmem⟩ := addVolume_volumes inv.order ok
  have both : Inv reads done si'∧SameEc si si' := by
    unfold addVolume at ok
    split at ok
    · cases ok
      exact ⟨inv,rfl,rfl,rfl⟩
    next hf =>
    split at ok
    swap
    · cases ok
    cases ok
    obtain ⟨l1,l2,hold,hnew⟩ := Tree.add_split hf
    have hlist := fun sv => (rb.keeps (si.volumes.add (volTurn h.volId) sv)).trans (hnew sv)
    refine ⟨⟨?_,inv.bad,inv.corr,inv.alien,?_,order,fun x hx => ?_,inv.sqnum_le,inv.sqnum_mem,
      fun p hp hu => ?_⟩,rfl,rfl,rfl⟩
    · have perm := inv.perm
      unfold places at perm ⊢
      rw [hold] at perm
      rw [hlist]
      simpa [volPebs,Tree.toList] using perm
    · dsimp only
      rw [hlist,inv.vols,hold]
      simp only [List.length_append,List.length_cons]
      omega
    · rcases (hmem x).mp hx with rfl|hx
      · refine ⟨List.Pairwise.nil,rfl,?_,fun hne => absurd rfl hne,fun _ => rfl,?_,?_,?_⟩
        all_goals rintro _ ⟨⟩
      · exact inv.volume x hx
    · obtain ⟨x,hx,k⟩ := inv.complete p hp hu
      exact ⟨x,(hmem x).mpr (Or.inr hx),k⟩
  exact ⟨both.1,(find_vol order h.volId sv).mpr ⟨(hmem sv).mpr (Or.inl rfl),hid⟩,both.2,
    fun x hx => ((hmem x).mp hx).symm⟩

/-- One volume takes in an eraseblock, and the others stay as they are. -/
theorem Inv.take {sv sv' : ScanVolume} (inv : Inv reads done si) (hu : usedHdr (reads p)=true)
    (hv : sv.volId=(reads p).vidh.volId) (hold : si.volumes.toList=l1++sv::l2)
    (hnew : si'.volumes.toList=l1++sv'::l2) (hid : sv'.volId=sv.volId)
    (hvol : VolInv reads (p::done) sv') (hperm : (places si').Perm (p::places si))
    (hbad : si'.badPebCount=si.badPebCount) (hcorr : si'.corrPebCount=si.corrPebCount)
    (hcl : si'.corr=si.corr) (halien : si'.alienPebCount=si.alienPebCount)
    (hal : si'.alien=si.alien) (hvols : si'.volsFound=si.volsFound)
    (hmax : si'.maxSqnum=if si.maxSqnum<age reads p then age reads p else si.maxSqnum)
    (hhere : ∃ e∈sv'.root.toList,e.lnum=(reads p).vidh.lnum)
    (hkeep : ∀ e∈sv.root.toList,∃ e'∈sv'.root.toList,e'.lnum=e.lnum) :
    Inv reads (p::done) si' := by
  have hnb : badPebs reads (p::done)=badPebs reads done := by
    have hz : (reads p).isBad=0 := by
      unfold usedHdr at hu
      simp only [Bool.and_eq_true] at hu
      simpa using hu.1.1.1
    simp [badPebs,hz]
  have hord := inv.order
  rw [hold] at hord
  have other : ∀ x,x∈l1∨x∈l2 → x∈si.volumes.toList∧x.volId≠sv.volId := by
    intro x hx
    refine ⟨?_,volId_ne hord hx⟩
    rw [hold]
    simp only [List.mem_append,List.mem_cons]
    tauto
  have mem : ∀ x,x∈si'.volumes.toList ↔ x=sv'∨(x∈l1∨x∈l2) := by
    intro x
    rw [hnew]
    simp only [List.mem_append,List.mem_cons]
    tauto
  constructor
  · rw [hnb]
    have h1 := inv.perm.cons p
    refine (List.Perm.append_left _ hperm).trans ?_
    exact List.perm_middle.trans h1
  · rw [hnb,hbad]
    exact inv.bad
  · rw [hcorr,hcl]
    exact inv.corr
  · rw [halien,hal]
    exact inv.alien
  · rw [hvols,inv.vols,hold,hnew]
    simp
  · rw [hnew]
    simpa only [List.pairwise_append,List.pairwise_cons,List.mem_cons,forall_eq_or_imp,hid]
      using hord
  · intro x hx
    rcases (mem x).mp hx with rfl|hx'
    · exact hvol
    · have ⟨hm,hne⟩ := other x hx'
      exact (inv.volume x hm).other fun _ k => hne (k.symm.trans hv.symm)
  · intro q hq huq
    rw [hmax]
    rcases List.mem_cons.mp hq with rfl|hq'
    · split <;> omega
    · have := inv.sqnum_le q hq' huq
      split <;> omega
  · rw [hmax]
    by_cases hlt : si.maxSqnum<age reads p
    · rw [if_pos hlt]
      exact Or.inr ⟨p,List.mem_cons_self,hu,rfl⟩
    · rw [if_neg hlt]
      rcases inv.sqnum_mem with hz|⟨q,hq,huq,hqe⟩
      · exact Or.inl hz
      · exact Or.inr ⟨q,List.mem_cons_of_mem p hq,huq,hqe⟩
  · intro q hq huq
    rcases List.mem_cons.mp hq with rfl|hq'
    · have ⟨e,he,hl⟩ := hhere
      exact ⟨sv',(mem sv').mpr (Or.inl rfl),hid.trans hv,e,he,hl⟩
    · have ⟨x,hx,hxv,e,he,hl⟩ := inv.complete q hq' huq
      rw [hold] at hx
      simp only [List.mem_append,List.mem_cons] at hx
      by_cases hxs : x=sv
      · have ⟨e',he',hl'⟩ := hkeep e (hxs▸he)
        exact ⟨sv',(mem sv').mpr (Or.inl rfl),hid.trans (hxs▸hxv),e',he',hl'.trans hl⟩
      · exact ⟨x,(mem x).mpr (Or.inr (by tauto)),hxv,e,he,hl⟩

theorem addToErase_ok {pnum : ℕ} (h : addToErase si m pnum ec toHead=.ok si') :
    si'={ si with erase := addTo toHead (listPeb pnum ec) si.erase } := by
  unfold addToErase at h
  split at h
  · exact (Except.ok.inj h).symm
  · cases h

theorem map_addTo (toHead : Bool) (p : ℕ) (ec : ℤ) (l : List ScanLeb) :
    ((addTo toHead (listPeb p ec) l).map ScanLeb.pnum).Perm (p::l.map ScanLeb.pnum) := by
  unfold addTo
  split
  · exact List.Perm.refl _
  · simp [listPeb]

/-- The erase list and one volume change. -/
theorem places_erase {si : ScanInfo} {vs : SearchTree.Tree ScanVolume} {sv sv' : ScanVolume}
    {p q : ℕ} (hold : si.volumes.toList=l1++sv::l2) (hnew : vs.toList=l1++sv'::l2)
    (h : (q::volPebs sv').Perm (p::volPebs sv)) :
    (places { si with volumes := vs, erase := addTo toHead (listPeb q ec) si.erase }).Perm
      (p::places si) := by
  rw [List.perm_iff_count]
  intro a
  have h1 := (map_addTo toHead q ec si.erase).count_eq a
  have h2 := h.count_eq a
  simp only [places,hold,hnew,List.flatMap_append,List.flatMap_cons,List.count_append,
    List.count_cons] at h1 h2 ⊢
  omega

theorem places_tree {si : ScanInfo} {vs : SearchTree.Tree ScanVolume} {sv sv' : ScanVolume}
    (hold : si.volumes.toList=l1++sv::l2) (hnew : vs.toList=l1++sv'::l2)
    (h : (volPebs sv').Perm (p::volPebs sv)) :
    (places { si with volumes := vs }).Perm (p::places si) := by
  rw [List.perm_iff_count]
  intro a
  have h2 := h.count_eq a
  simp only [places,hold,hnew,List.flatMap_append,List.flatMap_cons,List.count_append,
    List.count_cons] at h2 ⊢
  omega

/-- What `ubi_scan_add_used` keeps. -/
theorem scanAddUsed_inv (m : Allocs) {bitflips : Bool} (inv : Inv reads done si)
    (full : Inhabited si) (hu : usedHdr (reads p)=true) (h0 : 0≤(reads p).vidh.lnum)
    (ok : scanAddUsed dev rb reads m si p ec (reads p).vidh bitflips=.ok si') :
    Inv reads (p::done) si'∧Inhabited si'∧SameEc si si' := by
  unfold scanAddUsed at ok
  cases hadd : addVolume rb si m (reads p).vidh with
  | error e => simp [hadd,bind,Except.bind] at ok
  | ok r =>
  have ⟨si1,sv⟩ := r
  rw [hadd] at ok
  simp only [bind,Except.bind] at ok
  have ⟨inv1,hfind,hec,hsub⟩ := addVolume_spec rb m inv hadd
  have ⟨hmem,hid⟩ := (find_vol inv1.order _ sv).mp hfind
  have hvol := inv1.volume sv hmem
  have ⟨l1,l2,hold,hnew⟩ := Tree.update_split hfind
  have hord := inv1.order
  rw [hold] at hord
  have others : ∀ x,x∈l1∨x∈l2 → x.root.toList≠[] := by
    intro x hx
    have hx1 : x∈si1.volumes.toList := by
      rw [hold]
      simp only [List.mem_append,List.mem_cons]
      tauto
    rcases hsub x hx1 with hxs|hxs
    · exact full x hxs
    · exact absurd (congrArg ScanVolume.volId hxs) (volId_ne hord hx)
  have filled : ∀ (vs : SearchTree.Tree ScanVolume) sv',vs.toList=l1++sv'::l2 → sv'.root.toList≠[] →
      ∀ x∈vs.toList,x.root.toList≠[] := by
    intro vs sv' hvs hne x hx
    rw [hvs] at hx
    simp only [List.mem_append,List.mem_cons] at hx
    rcases hx with hx|rfl|hx
    · exact others x (Or.inl hx)
    · exact hne
    · exact others x (Or.inr hx)
  split at ok
  next seb hseb =>
    have ⟨hsm,hsl⟩ := (find_leb hvol.order _ seb).mp hseb
    have hsne : sv.root.toList≠[] := List.ne_nil_of_mem hsm
    split at ok
    · cases ok
    have ⟨hsq,hcf⟩ := hvol.header seb hsm
    cases hcmp : compareLebs dev reads m seb p (reads p).vidh with
    | error e => simp [hcmp] at ok
    | ok c =>
    rw [hcmp] at ok
    dsimp only at ok
    have ⟨hne,hbet⟩ := compareLebs_spec m hsq hcf hcmp
    split at ok
    next hsec =>
      rw [if_pos hsec] at hbet
      split at ok
      · cases ok
      split at ok
      · cases ok
      next si2 her =>
      cases ok
      have hsi2 := addToErase_ok her
      subst hsi2
      have ⟨hvol',hperm⟩ := hvol.replace hseb hu hid.symm hne hbet ec (c.bitflips||bitflips)
      have hnew' := hnew fun _ => sv.replaceLeb p ec (reads p).vidh (c.bitflips||bitflips)
      have hex := (Tree.update_split hseb)
      have ⟨r1,r2,hr,hr'⟩ := hex
      have hroot := hr' fun e => e.replace p ec (reads p).vidh (c.bitflips||bitflips)
      have hsv : (seb.replace p ec (reads p).vidh (c.bitflips||bitflips))∈
          (sv.replaceLeb p ec (reads p).vidh (c.bitflips||bitflips)).root.toList := by
        have : seb.replace p ec (reads p).vidh (c.bitflips||bitflips)∈
          r1++seb.replace p ec (reads p).vidh (c.bitflips||bitflips)::r2 := by simp
        exact hroot.symm▸this
      refine ⟨inv1.take hu hid hold hnew' rfl hvol' (places_erase hold hnew' hperm) rfl rfl rfl rfl
        rfl rfl rfl ⟨_,hsv,hsl⟩ ?_,filled _ _ hnew' (List.ne_nil_of_mem hsv),hec⟩
      intro e he
      by_cases hel : e.lnum=seb.lnum
      · exact ⟨_,hsv,hel.symm⟩
      · refine ⟨e,?_,rfl⟩
        rw [hr] at he
        have : e∈r1++seb.replace p ec (reads p).vidh (c.bitflips||bitflips)::r2 := by
          simp only [List.mem_append,List.mem_cons] at he ⊢
          rcases he with he|rfl|he
          · exact Or.inl he
          · exact absurd rfl hel
          · exact Or.inr (Or.inr he)
        exact hroot.symm▸this
    next hsec =>
      rw [if_neg hsec] at hbet
      have hsi2 := addToErase_ok ok
      subst hsi2
      have hvol' := hvol.keep hsm hu hid.symm hsl.symm hne hbet
      refine ⟨inv1.take hu hid hold hold rfl hvol'
        (places_erase hold hold (List.Perm.refl _)) rfl rfl rfl rfl rfl rfl rfl
        ⟨seb,hsm,hsl⟩ fun e he => ⟨e,he,rfl⟩,filled _ _ hold hsne,hec⟩
  next hseb =>
    split at ok
    · cases ok
    split at ok
    · cases ok
    cases ok
    have hnone : copies reads done sv.volId (reads p).vidh.lnum=∅ := by
      rw [Set.eq_empty_iff_forall_notMem]
      intro q ⟨hq,huq,hqv,hql⟩
      have ⟨x,hx,hxv,e,he,hel⟩ := inv1.complete q hq huq
      have hxs : x=sv := by
        have h1 := (find_vol inv1.order (reads p).vidh.volId x).mpr ⟨hx,hxv.trans (hqv.trans hid)⟩
        exact Option.some.inj (h1.symm.trans hfind)
      have hno := (Tree.find_none_iff (guides_leb _) hvol.order).mp hseb e (hxs▸he)
      exact hno ((lebTurn_here _ e).mpr (hel.trans hql))
    have ⟨hvol',hperm⟩ := hvol.add rb hseb hu hid.symm h0 hnone ec bitflips
    have hnew' := hnew fun _ => sv.addLeb rb p ec (reads p).vidh bitflips
    have ⟨r1,r2,hr,hr'⟩ := Tree.add_split hseb
    have hroot : (sv.addLeb rb p ec (reads p).vidh bitflips).root.toList=
        r1++⟨ec,p,(reads p).vidh.lnum,bitflips,(reads p).vidh.copyFlag,(reads p).vidh.sqnum⟩::r2 :=
      (rb.keeps _).trans (hr' _)
    have hmemnew : ∀ e,e=⟨ec,p,(reads p).vidh.lnum,bitflips,(reads p).vidh.copyFlag,
        (reads p).vidh.sqnum⟩∨e∈sv.root.toList →
        e∈(sv.addLeb rb p ec (reads p).vidh bitflips).root.toList := by
      intro e he
      rw [hroot]
      rw [hr] at he
      simp only [List.mem_append,List.mem_cons] at he ⊢
      tauto
    exact ⟨inv1.take hu hid hold hnew' rfl hvol' (places_tree hold hnew' hperm) rfl rfl rfl rfl rfl
      rfl rfl ⟨_,hmemnew _ (Or.inl rfl),rfl⟩ fun e he => ⟨e,hmemnew e (Or.inr he),rfl⟩,
      filled _ _ hnew' (List.ne_nil_of_mem (hmemnew _ (Or.inl rfl))),hec⟩

/-- An eraseblock that is not used goes to a list, or is counted as bad. -/
theorem Inv.skip (inv : Inv reads done si) (hu : usedHdr (reads p)=false)
    (hv : si'.volumes=si.volumes)
    (hperm : (badPebs reads (p::done)++places si').Perm (p::(badPebs reads done++places si)))
    (hbad : si'.badPebCount=(badPebs reads (p::done)).length)
    (hcorr : si'.corrPebCount=si'.corr.length) (halien : si'.alienPebCount=si'.alien.length)
    (hvols : si'.volsFound=si.volsFound) (hmax : si'.maxSqnum=si.maxSqnum) :
    Inv reads (p::done) si' where
  perm := hperm.trans (inv.perm.cons p)
  bad := hbad
  corr := hcorr
  alien := halien
  vols := by rw [hvols,hv,inv.vols]
  order := by rw [hv]; exact inv.order
  volume := by
    rw [hv]
    exact fun x hx => (inv.volume x hx).other fun k => absurd k (by simp [hu])
  sqnum_le := by
    intro q hq huq
    rw [hmax]
    rcases List.mem_cons.mp hq with rfl|hq'
    · exact absurd huq (by simp [hu])
    · exact inv.sqnum_le q hq' huq
  sqnum_mem := by
    rw [hmax]
    rcases inv.sqnum_mem with hz|⟨q,hq,huq,hqe⟩
    · exact Or.inl hz
    · exact Or.inr ⟨q,List.mem_cons_of_mem p hq,huq,hqe⟩
  complete := by
    intro q hq huq
    rw [hv]
    rcases List.mem_cons.mp hq with rfl|hq'
    · exact absurd huq (by simp [hu])
    · exact inv.complete q hq' huq

/-- What the loop of `ubi_scan` keeps. -/
structure Good (reads : ℕ → PebReads dev) (done : List ℕ) (si : ScanInfo) : Prop where
  inv : Inv reads done si
  full : Inhabited si
  sum : 0≤ si.ecSum
  mean : si.meanEc=0

theorem Good.adjust {si : ScanInfo} (h : Good reads done si) {ecErr : Bool}
    (hec : ecErr=false → 0≤ec) : Good reads done (adjustMeanEc si ecErr ec) := by
  unfold adjustMeanEc
  split
  · exact h
  next he =>
    have h0 := hec (by simpa using he)
    have hs := h.sum
    exact ⟨⟨h.inv.perm,h.inv.bad,h.inv.corr,h.inv.alien,h.inv.vols,h.inv.order,h.inv.volume,
      h.inv.sqnum_le,h.inv.sqnum_mem,h.inv.complete⟩,h.full,by dsimp only; omega,h.mean⟩

/-- An eraseblock that is not used goes to one of the lists. -/
theorem Good.listed (h : Good reads done si) (hb : (reads p).isBad=0) (hu : usedHdr (reads p)=false)
    (hv : si'.volumes=si.volumes) (hperm : ∀ a,(places si').count a=(p::places si).count a)
    (hbad : si'.badPebCount=si.badPebCount) (hcorr : si'.corrPebCount=si'.corr.length)
    (halien : si'.alienPebCount=si'.alien.length) (hvols : si'.volsFound=si.volsFound)
    (hmax : si'.maxSqnum=si.maxSqnum) (hec : SameEc si si') : Good reads (p::done) si' := by
  have hnb : badPebs reads (p::done)=badPebs reads done := by simp [badPebs,hb]
  refine ⟨h.inv.skip hu hv ?_ ?_ hcorr halien hvols hmax,fun sv hs => h.full sv (hv▸hs),
    hec.1.symm▸h.sum,hec.2.2.trans h.mean⟩
  · rw [hnb]
    exact ((List.perm_iff_count.mpr hperm).append_left _).trans List.perm_middle
  · rw [hnb,hbad,h.inv.bad]

theorem Good.toErase (h : Good reads done si) (hb : (reads p).isBad=0)
    (hu : usedHdr (reads p)=false) (ok : addToErase si m p ec toHead=.ok si') :
    Good reads (p::done) si' := by
  cases addToErase_ok ok
  refine h.listed hb hu rfl (fun a => ?_) rfl h.inv.corr h.inv.alien rfl rfl ⟨rfl,rfl,rfl⟩
  have h1 := (map_addTo toHead p ec si.erase).count_eq a
  simp only [places,List.count_append,List.count_cons] at h1 ⊢
  omega

theorem Good.toFree (h : Good reads done si) (hb : (reads p).isBad=0) (hu : usedHdr (reads p)=false)
    (ok : addToFree si m p ec toHead=.ok si') : Good reads (p::done) si' := by
  unfold addToFree at ok
  split at ok
  swap
  · cases ok
  cases ok
  refine h.listed hb hu rfl (fun a => ?_) rfl h.inv.corr h.inv.alien rfl rfl ⟨rfl,rfl,rfl⟩
  have h1 := (map_addTo toHead p ec si.free).count_eq a
  simp only [places,List.count_append,List.count_cons] at h1 ⊢
  omega

theorem Good.toAlien (h : Good reads done si) (hb : (reads p).isBad=0)
    (hu : usedHdr (reads p)=false) (ok : addToAlien si m p ec toHead=.ok si') :
    Good reads (p::done) si' := by
  unfold addToAlien at ok
  split at ok
  swap
  · cases ok
  cases ok
  have added := map_addTo toHead p ec si.alien
  refine h.listed hb hu rfl (fun a => ?_) rfl h.inv.corr ?_ rfl rfl ⟨rfl,rfl,rfl⟩
  · have h1 := added.count_eq a
    simp only [places,List.count_append,List.count_cons] at h1 ⊢
    omega
  · have hl := added.length_eq
    simp only [List.length_map,List.length_cons] at hl
    rw [hl,h.inv.alien]

theorem Good.toCorr (h : Good reads done si) (hb : (reads p).isBad=0) (hu : usedHdr (reads p)=false)
    (ok : addCorrupted si m p ec=.ok si') : Good reads (p::done) si' := by
  unfold addCorrupted at ok
  split at ok
  swap
  · cases ok
  cases ok
  refine h.listed hb hu rfl (fun a => ?_) rfl ?_ h.inv.alien rfl rfl ⟨rfl,rfl,rfl⟩
  · simp only [places,List.map_cons,listPeb,List.count_append,List.count_cons]
    omega
  · rw [h.inv.corr]
    rfl

/-- A used eraseblock. -/
theorem Good.used (m : Allocs) {bitflips : Bool} (h : Good reads done si)
    (hu : usedHdr (reads p)=true) (h0 : 0≤(reads p).vidh.lnum)
    (ok : scanAddUsed dev rb reads m si p ec (reads p).vidh bitflips=.ok si') :
    Good reads (p::done) si' := by
  have ⟨inv,full,hs,_,hm⟩ := scanAddUsed_inv rb m h.inv h.full hu h0 ok
  exact ⟨inv,full,hs.symm▸h.sum,hm.trans h.mean⟩

/-- A valid VID header has no negative LEB number. -/
theorem lnum_nonneg (r : PebReads dev) (h : r.vidRes.good=true) : 0≤r.vidh.lnum := by
  have k := r.vid_valid h
  unfold ioValidateVidHdr at k
  split at k
  · cases k
  next hn => omega

theorem bind_ok {α β : Type} {x : Except ℤ α} {f : α → Except ℤ β} {b : β}
    (h : (x >>= f)=.ok b) : ∃ a,x=.ok a∧f a=.ok b := by
  cases x with
  | error e => exact absurd h (by simp [bind,Except.bind])
  | ok a => exact ⟨a,rfl,h⟩

theorem processUsed_good (m : Allocs) {st st' : Scan} {ecErr : Bool} {bitflips : Bool}
    (h : Good reads done st.si) (hb : (reads p).isBad=0)
    (he : ((reads p).ecRes.good||(reads p).ecRes=.badHdr||(reads p).ecRes=.badHdrEbadmsg)=true)
    (hv : (reads p).vidRes.good=true) (hec : ecErr=false → 0≤ec)
    (ok : processUsed dev rb reads m st p ecErr ec bitflips=.ok st') :
    Good reads (p::done) st'.si := by
  have h0 := lnum_nonneg (reads p) hv
  have key : ∀ ro,usedHdr (reads p)=true →
      (do
        let si ← scanAddUsed dev rb reads m st.si p ec (reads p).vidh bitflips
        Except.ok { st with si := adjustMeanEc si ecErr ec, roMode := ro })=Except.ok st' →
      Good reads (p::done) st'.si := by
    intro ro hu hk
    have ⟨si,hsi,heq⟩ := bind_ok hk
    cases heq
    exact (h.used rb m hu h0 hsi).adjust hec
  unfold processUsed at ok
  dsimp only at ok
  have huse : usedHdr (reads p)=
      !(decide ((reads p).vidh.volId>UBI_MAX_VOLUMES∧(reads p).vidh.volId≠UBI_LAYOUT_VOLUME_ID)&&
      ((reads p).vidh.compat=UBI_COMPAT_DELETE||(reads p).vidh.compat=UBI_COMPAT_PRESERVE||
        (reads p).vidh.compat=UBI_COMPAT_REJECT)) := by
    unfold usedHdr
    rw [he,hv,hb]
    rfl
  split at ok
  next hint =>
    split at ok
    next hc =>
      have ⟨si,hsi,heq⟩ := bind_ok ok
      cases heq
      exact h.toErase hb (by rw [huse]; simp [hint,hc]) hsi
    next hc1 =>
    split at ok
    next hc =>
      refine key true ?_ ok
      rw [huse]
      simp [hc,UBI_COMPAT_DELETE,UBI_COMPAT_RO,UBI_COMPAT_PRESERVE,UBI_COMPAT_REJECT]
    next hc2 =>
    split at ok
    next hc =>
      have ⟨si,hsi,heq⟩ := bind_ok ok
      cases heq
      exact h.toAlien hb (by rw [huse]; simp [hint,hc]) hsi
    next hc3 =>
    split at ok
    · cases ok
    next hc4 =>
      refine key st.roMode ?_ ok
      rw [huse]
      simp [hc1,hc3,hc4]
  next hint =>
    refine key st.roMode ?_ ok
    rw [huse]
    simp only [hint,decide_false,Bool.false_and,Bool.not_false]

end

end ArdroneKernel.UbiScanCopies
