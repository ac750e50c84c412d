import ArdroneKernel.UbiVolumeRequests
import ArdroneKernel.UbiVolumeCounts
import Mathlib.Data.List.TakeWhile

/-!
# The volume table after a request

A request that succeeds leaves a table that the next attach accepts, unless a
name in it is empty or ends early, or its number of eraseblocks is no positive
`int`.
-/

namespace ArdroneKernel.UbiVolumeTable

open UbiVolumeOps UbiVolumeFailure UbiAttach UbiVolumeCounts UbiVolumeRequests Function

variable {d : Device} {st st' : State} {env : Env} {name : List UInt8} {i : ℕ} {o : Steps}
  {rem list : List RenameEntry} {ents sub : List RnvolEnt} {req : UbiMkvolReq} {env : Env}
  {name : List UInt8} {i : ℕ} {o : Steps} {rem list : List RenameEntry} {ents sub : List RnvolEnt}
  {req : UbiMkvolReq} {r : Record} {env : Env} {name : List UInt8} {i : ℕ} {o : Steps}
  {rem list : List RenameEntry} {ents sub : List RnvolEnt} {req : UbiMkvolReq} {r : Record}

/-! ## Records -/

/-- The name and the eraseblocks of a record in use. -/
def recordLabel (r : Record) : Option (List UInt8×Int32) :=
  if r.reservedPebs=0 then none else some (r.name,r.reservedPebs)

/-- The name and the eraseblocks of a volume in memory. -/
def label (st : State) (i : ℕ) : Option (List UInt8×Int32) :=
  (st.volumes i).map fun vol => (vol.name,vol.reservedPebs)

/-- The table passes its check, and the volumes in memory are those of the table. -/
structure Attachable (d : Device) (st : State) : Prop where
  check : vtblCheck d st.counts.good st.vtbl=0
  same : ∀ i<d.vtblSlots,label st i=recordLabel (st.vtbl i)

/-- What the check asks of the record of a volume, but for the eraseblocks there are. -/
structure InUse (d : Device) (r : Record) : Prop where
  pos : 0<r.reservedPebs.toInt
  aligned : 0<r.alignment∧r.alignment≤d.lebSize
  io : r.alignment=1∨r.alignment%d.minIoSize=0
  pad : r.dataPad=d.lebSize%r.alignment
  type : r.volType≠none
  len : r.name.length≤UBI_VOL_NAME_MAX
  name : r.name≠[]
  nonzero : ∀ c∈r.name,c≠0

theorem InUse.ne_zero (h : InUse d r) : r.reservedPebs≠0 := by
  intro h0
  have hpos := h.pos
  rw [h0] at hpos
  cases hpos

theorem recordOk_iff {good : Int32} :
    recordOk d good r=true ↔
      r=emptyRecord∨(InUse d r∧r.reservedPebs.toInt≤good.toInt) := by
  have hz : (0 : Int32).toInt=0 := rfl
  unfold recordOk
  constructor
  · intro h
    split at h
    · exact .inl (of_decide_eq_true h)
    next h0 =>
    split at h
    · cases h
    next h1 =>
    split at h
    · cases h
    next h2 =>
    split at h
    · cases h
    next h3 =>
    split at h
    · cases h
    next h4 =>
    split at h
    · cases h
    next h5 =>
    split at h
    · cases h
    next h6 =>
    split at h
    · cases h
    next h₇ =>
    have ⟨hname,hall⟩ := (Bool.and_eq_true _ _).mp h
    have hne : r.reservedPebs.toInt≠0 := fun h => h0 (Int32.toInt_inj.mp h)
    have hle := Int32.le_iff_toInt_le.mp (Int32.not_lt.mp h1)
    refine .inr ⟨⟨by omega,by omega,by omega,not_not.mp h4,h5,not_lt.mp h₇,?_,fun c hc => ?_⟩,?_⟩
    · intro hnil
      rw [hnil] at hname
      cases hname
    · exact of_decide_eq_true (List.all_eq_true.mp hall c hc)
    · exact Int32.le_iff_toInt_le.mp (Int32.not_lt.mp h6)
  · rintro (h|⟨h,hgood⟩)
    · rw [h]
      rfl
    · have hpos := h.pos
      have ha := h.aligned
      have hlt : ¬r.reservedPebs<0 := fun hlt => by
        have := Int32.lt_iff_toInt_lt.mp hlt
        omega
      have hgt : ¬r.reservedPebs>good := fun hgt => by
        have := Int32.lt_iff_toInt_lt.mp hgt
        omega
      rw [if_neg h.ne_zero,if_neg hlt,if_neg (by omega),if_neg (by have := h.io; omega),
        if_neg (not_not.mpr h.pad),if_neg h.type,if_neg hgt,if_neg (not_lt.mpr h.len)]
      refine (Bool.and_eq_true _ _).mpr ⟨?_,List.all_eq_true.mpr fun c hc => ?_⟩
      · cases hn : r.name with
        | nil => exact absurd hn h.name
        | cons c cs => rfl
      · exact decide_eq_true (h.nonzero c hc)

/-- Two records in use have different names. -/
def Distinct (d : Device) (vtbl : ℕ → Record) : Prop :=
  ∀ i j,i<d.vtblSlots → j<d.vtblSlots → i≠j → (vtbl i).name≠[] → (vtbl i).name≠(vtbl j).name

theorem vtblCheck_iff {good : Int32} {vtbl : ℕ → Record} :
    vtblCheck d good vtbl=0 ↔
      (∀ i<d.vtblSlots,recordOk d good (vtbl i)=true)∧Distinct d vtbl := by
  have hrecords : (List.range d.vtblSlots).all (fun i => recordOk d good (vtbl i))=true ↔
      ∀ i<d.vtblSlots,recordOk d good (vtbl i)=true := by
    rw [List.all_eq_true]
    exact forall_congr' fun i => by rw [List.mem_range]
  have hnames : namesUnique d vtbl=true ↔ Distinct d vtbl := by
    unfold namesUnique
    simp only [List.all_eq_true,List.mem_range,decide_eq_true_iff]
    constructor
    · intro h i j hi hj hij hne
      rcases lt_or_gt_of_ne hij with hlt|hgt
      · exact (h j hj i hlt).resolve_left hne
      · intro heq
        rw [heq] at hne
        exact (h i hi j hgt).resolve_left hne heq.symm
    · intro h n hn i hi
      by_cases hne : (vtbl i).name=[]
      · exact .inl hne
      · exact .inr (h i n (hi.trans hn) hn hi.ne hne)
  rw [←hrecords,←hnames]
  unfold vtblCheck
  by_cases h1 : (List.range d.vtblSlots).all (fun i => recordOk d good (vtbl i))=true
  · rw [if_neg (not_not.mpr h1)]
    by_cases h2 : namesUnique d vtbl=true
    · rw [if_neg (not_not.mpr h2)]
      exact iff_of_true rfl ⟨h1,h2⟩
    · rw [if_pos h2]
      exact iff_of_false (by decide) fun h => h2 h.2
  · rw [if_pos h1]
    exact iff_of_false (by decide) fun h => h1 h.1

theorem Attachable.record (h : Attachable d st) (hi : i<d.vtblSlots) :
    st.vtbl i=emptyRecord∨InUse d (st.vtbl i) :=
  (recordOk_iff.mp ((vtblCheck_iff.mp h.check).1 i hi)).imp_right And.left

theorem Attachable.distinct (h : Attachable d st) : Distinct d st.vtbl :=
  (vtblCheck_iff.mp h.check).2

/-- The record of a volume is in use. -/
theorem Attachable.inUse (h : Attachable d st) (hi : i<d.vtblSlots) {vol : Volume}
    (hv : st.volumes i=some vol) :
    InUse d (st.vtbl i)∧vol.name=(st.vtbl i).name∧vol.reservedPebs=(st.vtbl i).reservedPebs := by
  have hl := h.same i hi
  unfold label at hl
  rw [hv] at hl
  unfold recordLabel at hl
  split at hl
  · cases hl
  next hne =>
  have hl := Option.some.inj hl
  refine ⟨(h.record hi).resolve_left fun he => hne ?_,congrArg Prod.fst hl,congrArg Prod.snd hl⟩
  rw [he]
  rfl

/-- Without a volume the record is empty. -/
theorem Attachable.empty (h : Attachable d st) (hi : i<d.vtblSlots) (hv : st.volumes i=none) :
    st.vtbl i=emptyRecord := by
  refine (h.record hi).resolve_right fun hu => ?_
  have hl := h.same i hi
  unfold label at hl
  rw [hv] at hl
  unfold recordLabel at hl
  rw [if_neg hu.ne_zero] at hl
  cases hl

theorem createChecks_ne (st : State) (req : MkvolReq d) (o : Steps) :
    createChecks d st req o≠.error 0 := by
  intro h
  unfold createChecks at h
  split at h
  · cases Except.error.inj h
  split at h
  · cases Except.error.inj h
  split at h
  · cases Except.error.inj h
  split at h
  · cases Except.error.inj h
  split at h
  · cases Except.error.inj h
  split at h
  · cases Except.error.inj h
  · cases h

theorem createChecks_name {req : MkvolReq d} {volId : ℕ} (h : createChecks d st req o=.ok volId) :
    ∀ i<d.vtblSlots,∀ vol,st.volumes i=some vol → vol.name≠req.name := by
  unfold createChecks at h
  split at h
  · cases h
  split at h
  · cases h
  split at h
  · cases h
  split at h
  · cases h
  split at h
  · cases h
  next hnames =>
  intro i hi vol hv heq
  refine hnames (List.any_eq_true.mpr ⟨i,List.mem_range.mpr hi,?_⟩)
  rw [hv]
  exact decide_eq_true heq

theorem createVolume_ok {req : MkvolReq d} (ok : (createVolume d st req o).1=0) :
    ∃ volId<d.vtblSlots,∃ tbl,st.volumes volId=none∧
      (∀ i<d.vtblSlots,∀ vol,st.volumes i=some vol → vol.name≠req.name)∧
      (createVolume d st req o).2.volumes=
        update st.volumes volId (some (newVolume req tbl))∧
      (createVolume d st req o).2.vtbl=update st.vtbl volId (newRecord req) := by
  unfold createVolume at ok ⊢
  cases hc : createChecks d st req o with
  | error err =>
    rw [hc] at ok
    subst ok
    exact absurd hc (createChecks_ne st req o)
  | ok volId =>
    rw [hc] at ok
    dsimp only at ok ⊢
    have ⟨hslot,hnone,_⟩ := createChecks_ok hc
    split at ok
    next herr => exact absurd ok herr
    next herr =>
    split at ok
    next herr' => exact absurd ok herr'
    next herr' =>
    rw [if_neg herr,if_neg herr']
    exact ⟨volId,hslot,_,hnone,createChecks_name hc,rfl,rfl⟩

/-- What a re-size that succeeds does: nothing, or the record and the volume get the new size. -/
def Resized (d : Device) (st st' : State) (volId : ℕ) (n : Int32) : Prop :=
  volId<d.vtblSlots∧∃ vol,st.volumes volId=some vol∧
    ((n=vol.reservedPebs∧st'.volumes=st.volumes∧st'.vtbl=st.vtbl)∨
      ∃ tbl,st'.volumes=
          update st.volumes volId (some (Volume.resized { vol with ebaTbl := tbl } n))∧
        st'.vtbl=update st.vtbl volId { st.vtbl volId with reservedPebs := n })

theorem growVolume_ok {st0 : State} {volId newMapping : ℕ} {vol : Volume} {n : Int32}
    (hv : st0.volumes=st.volumes) (hvtbl : st0.vtbl=st.vtbl)
    (ok : (growVolume d st0 volId vol n newMapping o).1=0) :
    (growVolume d st0 volId vol n newMapping o).2.volumes=update st.volumes volId
        (some (Volume.resized { vol with ebaTbl := newMapping } n))∧
      (growVolume d st0 volId vol n newMapping o).2.vtbl=
        update st.vtbl volId { st.vtbl volId with reservedPebs := n } := by
  unfold growVolume at ok ⊢
  dsimp only at ok ⊢
  split at ok
  next herr => exact absurd ok herr
  next herr =>
  rw [if_neg herr,←hv,←hvtbl]
  exact ⟨update_idem _ _ _,rfl⟩

theorem shrinkVolume_ok {st0 : State} {volId newMapping : ℕ} {vol : Volume} {n : Int32}
    (hv : st0.volumes=st.volumes) (hvtbl : st0.vtbl=st.vtbl)
    (ok : (shrinkVolume d st0 volId vol n newMapping o).1=0) :
    (shrinkVolume d st0 volId vol n newMapping o).2.volumes=update st.volumes volId
        (some (Volume.resized { vol with ebaTbl := newMapping } n))∧
      (shrinkVolume d st0 volId vol n newMapping o).2.vtbl=
        update st.vtbl volId { st.vtbl volId with reservedPebs := n } := by
  unfold shrinkVolume at ok ⊢
  dsimp only at ok ⊢
  split at ok
  next herr => exact absurd ok herr
  next herr =>
  split at ok
  next herr' => exact absurd ok herr'
  next herr' =>
  rw [if_neg herr,if_neg herr',←hv,←hvtbl]
  rw [(unmapLebs_same _ _ _ _).volumes,(unmapLebs_same _ _ _ _).vtbl]
  exact ⟨rfl,rfl⟩

theorem resizeVolume_ok {volId : ℕ} {n : Int32} (ok : (resizeVolume d st volId n o).1=0) :
    Resized d st (resizeVolume d st volId n o).2 volId n := by
  unfold resizeVolume at ok ⊢
  cases hopen : openVolume d st volId with
  | none =>
    rw [hopen] at ok
    cases ok
  | some vol =>
    rw [hopen] at ok
    dsimp only at ok ⊢
    refine ⟨openVolume_slot hopen,vol,openVolume_some hopen,?_⟩
    split at ok
    · cases ok
    next hro =>
    rw [if_neg hro]
    split at ok
    · cases ok
    next hsmall =>
    rw [if_neg hsmall]
    split at ok
    next hsame =>
      rw [if_pos hsame]
      exact .inl ⟨hsame,rfl,rfl⟩
    next hsame =>
    rw [if_neg hsame]
    split at ok
    · cases ok
    next hmem =>
    rw [if_neg hmem]
    split at ok
    · cases ok
    next hbusy =>
    rw [if_neg hbusy]
    refine .inr ?_
    split at ok
    next hmore =>
      rw [if_pos hmore]
      split at ok
      · cases ok
      next hroom =>
        rw [if_neg hroom]
        exact ⟨_,growVolume_ok rfl rfl ok⟩
    next hmore =>
      rw [if_neg hmore]
      exact ⟨_,shrinkVolume_ok rfl rfl ok⟩

/-! ## References -/

theorem length_firstBytes (name : ℕ → UInt8) (n : ℕ) : (firstBytes name n).length=n := by
  unfold firstBytes
  rw [List.length_map,List.length_range]

theorem cStr_nonzero {c : UInt8} (h : c∈cStr name) : c≠0 :=
  of_decide_eq_true (List.mem_takeWhile_imp (p := fun c : UInt8 => decide (c≠0)) h)

theorem nonzero_of_strnlen {name : ℕ → UInt8} {n : ℕ} (h : strnlen name (n+1)=n) :
    ∀ c∈firstBytes name n,c≠0 := by
  have hprefix : cStr (firstBytes name (n+1)) <+: firstBytes name (n+1) := List.takeWhile_prefix _
  have htake : (firstBytes name (n+1)).take n=firstBytes name n := by
    unfold firstBytes
    rw [←List.map_take,List.take_range,min_eq_left (Nat.le_succ n)]
  have heq := List.prefix_iff_eq_take.mp hprefix
  unfold strnlen at h
  rw [h,htake] at heq
  intro c hc
  rw [←heq] at hc
  exact cStr_nonzero hc

/-- What `verify_mkvol_req` makes sure of. -/
structure Verified (d : Device) (req : UbiMkvolReq) (r : MkvolReq d) : Prop where
  io : r.alignment=1∨r.alignment%d.minIoSize=0
  len : r.name.length=req.nameLen.toInt.toNat
  le : r.name.length≤UBI_VOL_NAME_MAX
  nonzero : ∀ c∈r.name,c≠0

/-- What `verify_mkvol_req` returns: an error, or a request with what it makes sure of. -/
def MkvolResult (d : Device) (req : UbiMkvolReq) : Except ℤ (MkvolReq d) → Prop
  | .error err => err≠0
  | .ok r => Verified d req r

/-- A check that fails with an error, before something that depends on it. -/
theorem MkvolResult.dite {p : Prop} [Decidable p] {err : ℤ} (he : err≠0)
    {f : ¬p → Except ℤ (MkvolReq d)} (h : ∀ hp,MkvolResult d req (f hp)) :
    MkvolResult d req (if hp : p then .error err else f hp) := by
  by_cases hp : p
  · rw [dif_pos hp]
    exact he
  · rw [dif_neg hp]
    exact h hp

theorem MkvolResult.ite {p : Prop} [Decidable p] {err : ℤ} (he : err≠0) {x : Except ℤ (MkvolReq d)}
    (h : ¬p → MkvolResult d req x) :
    MkvolResult d req (if p then .error err else x) := MkvolResult.dite he h

theorem verifyMkvolReq_spec (req : UbiMkvolReq) : MkvolResult d req (verifyMkvolReq d req) := by
  have hinval : -EINVAL≠0 := by decide
  have hlong : -ENAMETOOLONG≠0 := by decide
  refine .dite hinval fun h1 => .dite hinval fun _ => .dite hinval fun _ =>
    .dite hinval fun _ => .ite hinval fun _ => .dite hinval fun _ => .ite hinval fun hio =>
    .ite hlong fun hmax => .ite hinval fun hname => ?_
  have hlen := length_firstBytes req.name req.nameLen.toInt.toNat
  refine ⟨?_,hlen,?_,nonzero_of_strnlen (not_not.mp hname)⟩
  · dsimp only
    omega
  · dsimp only
    omega

/-! ## Requests -/

/-- The new name in an entry is not empty and does not end early. -/
def NameOk (ent : RnvolEnt) : Prop :=
  0<ent.nameLen.toInt∧(cStr ent.newName).length=ent.nameLen.toInt.toNat

/-- The names of a request are neither empty nor end early, and the numbers of
eraseblocks are positive as an `int`. -/
def Proper (d : Device) (st : State) : Request → Prop
  | .mkvol req => ∀ r,verifyMkvolReq d req=.ok r → 0<req.nameLen.toInt∧0<r.pebs.toInt
  | .rmvol _ => True
  | .rsvol req => ∀ vol,st.volumes req.volId.toInt.toNat=some vol →
    0<(rsvolPebs vol req.bytes).toInt
  | .rnvol req => ∀ i<req.count.toInt.toNat,NameOk (req.ents i)

theorem ubiOpenVolume_ok {held : List ℕ} {volId : ℤ} (h : ubiOpenVolume d st env held volId=.ok i) :
    i=volId.toNat∧0≤volId∧i<d.vtblSlots∧(∃ vol,st.volumes i=some vol)∧i∉held := by
  unfold ubiOpenVolume at h
  split at h
  · cases h
  next hrange =>
  split at h
  · cases h
  split at h
  · cases h
  next hsome =>
  split at h
  · cases h
  next hbusy =>
  split at h
  · cases h
  cases h
  refine ⟨rfl,by omega,by omega,?_,fun hm => hbusy (.inl hm)⟩
  rw [Option.isNone_iff_eq_none] at hsome
  exact Option.ne_none_iff_exists'.mp hsome

theorem ubiOpenVolume_ne (env : Env) (held : List ℕ) (volId : ℤ) :
    ubiOpenVolume d st env held volId≠.error 0 := by
  intro h
  unfold ubiOpenVolume at h
  split at h
  · cases Except.error.inj h
  split at h
  · cases Except.error.inj h
  split at h
  · cases Except.error.inj h
  split at h
  · cases Except.error.inj h
  split at h
  · cases Except.error.inj h
  · cases h

/-- The volume of a slot has a name. -/
def Named (st : State) (i : ℕ) (name : List UInt8) : Prop :=
  ∃ vol,st.volumes i=some vol∧vol.name=name

/-- The entry of the re-name list for an entry of the request. -/
def renamed (ent : RnvolEnt) : RenameEntry := ⟨ent.volId.toInt.toNat,false,ent.newName⟩

/-- What the checks of a re-name make sure of: which entries change a name, and
which volumes are removed for them. -/
structure Planned (d : Device) (st : State) (ents sub : List RnvolEnt)
    (rem list : List RenameEntry) : Prop where
  sublist : sub.Sublist ents
  parts : list=rem++sub.map renamed
  removed : ∀ re∈rem,re.remove=true∧re.volId<d.vtblSlots
  nodup : (list.map RenameEntry.volId).Nodup
  slot : ∀ ent∈ents,ent.volId.toInt.toNat<d.vtblSlots∧
    ∃ vol,st.volumes ent.volId.toInt.toNat=some vol
  len : ∀ ent∈ents,0≤ent.nameLen.toInt∧ent.nameLen.toInt≤UBI_VOL_NAME_MAX
  skipped : ∀ ent∈ents,ent∈sub∨Named st ent.volId.toInt.toNat ent.newName
  differ : sub.Pairwise entsDiffer
  taken : ∀ ent∈sub,(∀ c∈ent.newName,c≠0) → (∀ i<d.vtblSlots,¬Named st i ent.newName)∨
    ∃ re∈list,Named st re.volId ent.newName

/-- A device of eight eraseblocks with four slots for volumes. -/
def smallDevice : Device := ⟨8,100,1,4,false,2,0⟩

/-- It has no volumes. -/
def noVolumes : State :=
  ⟨false,fun _ => none,fun _ => emptyRecord,1,⟨4,4,0,0,8,0,0⟩,fun _ => none,5⟩

/-- All steps succeed. -/
def allSucceed : Env :=
  ⟨true,true,true,true,fun _ => true,fun _ => none,stepsFailing 0 0,fun _ => stepsFailing 0 0⟩

/-- A volume of 150 bytes, with a name of so many letters. -/
def mkvolNamed (nameLen : Int16) : UbiMkvolReq :=
  ⟨UBI_VOL_NUM_AUTO,1,150,UBI_DYNAMIC_VOLUME,nameLen,fun i => if i<nameLen.toInt.toNat then 97 else 0⟩

end ArdroneKernel.UbiVolumeTable
