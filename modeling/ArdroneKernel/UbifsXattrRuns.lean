import ArdroneKernel.Execution
import ArdroneKernel.UbifsXattr
import Mathlib.Algebra.BigOperators.Ring.Finset
import Mathlib.Algebra.Order.Ring.Nat

/-!
# What the host inode counts

Calls that set and remove extended attributes, beside what was set last.
-/

namespace ArdroneKernel.UbifsXattr

open Execution FiniteTable Function

/-- The values that were set last. -/
abbrev Values := Name → Option Data

inductive Event where
  | set (nm : Name) (value : Data) (flags : Flags) (o : Outcome)
  | remove (nm : Name) (o : Outcome)
  /-- The inode of an entry is read into the memory. -/
  | load (nm : Name)
  /-- The inode of an entry leaves the memory. -/
  | drop (nm : Name)

def step (s : Host×Values) : Event → Option (Host×Values)
  | .set nm value flags o =>
    let r := setxattr s.1 nm value flags o
    some (r.1,if r.2=0 then update s.2 nm (some value) else s.2)
  | .remove nm o =>
    let r := removexattr s.1 nm o
    some (r.1,if r.2=0 then update s.2 nm none else s.2)
  | .load nm =>
    (s.1.xents.get nm).map fun x =>
      ({s.1 with xents := s.1.xents.put nm {x with inode := igetXattr x true}},s.2)
  | .drop nm =>
    (s.1.xents.get nm).map fun x =>
      ({s.1 with xents := s.1.xents.put nm {x with inode := none}},s.2)

def start : Host×Values := (Host.new,fun _ => none)

/-! ## When it goes well -/

/-- The name is one that can be set, and the TNC is read. -/
def Prepared (nm : Name) (o : Outcome) : Prop :=
  (∃ type,checkNamespace nm=.ok type)∧o.lookup=true

/-- `create_xattr` gets as far as its journal function. -/
def Creates (h : Host) (nm : Name) (value : Data) (o : Outcome) : Prop :=
  h.xattrCnt.toNat<MAX_XATTRS_PER_INODE∧
    (h.xattrNames+h.xattrCnt+BitVec.ofNat 32 nm.length+1).toNat≤XATTR_LIST_MAX∧
    o.budget=true∧o.newInode=true∧(o.kmalloc=true∨value=[])

/-- `change_xattr` keeps the value if it cannot allocate the new one, or replaces it by one of
as many bytes. -/
def Changes (ui : XInode) (value : Data) (o : Outcome) : Prop :=
  if o.kmalloc=false∧value≠[] then ui.dataLen=0
  else o.journal=.done → calcXattrBytes ui.dataLen=calcXattrBytes value.length

/-- New attributes and removals do not fail in the journal, and changed values take as many
bytes as before. -/
def Fits (s : Host×Values) : Event → Prop
  | .set nm value flags o =>
    Prepared nm o → value.length≤UBIFS_MAX_INO_DATA →
      match s.1.xents.get nm with
      | none => flags.replace=false → Creates s.1 nm value o → o.journal=.done
      | some x =>
        flags.create=false → o.budget=true → ∀ ui∈igetXattr x o.iget,Changes ui value o
  | .remove nm o =>
    Prepared nm o → ∀ x∈s.1.xents.get nm,igetXattr x o.iget≠none → o.budget=true →
      o.journal=.done
  | _ => True

/-! ## What is counted -/

/-- A counter of 32 bits. -/
def word (z : ℤ) : BitVec 32 := BitVec.ofInt 32 z

theorem word_add (a b : ℤ) : word (a+b)=word a+word b := BitVec.ofInt_add a b

theorem word_sub (a b : ℤ) : word (a-b)=word a-word b := by
  rw [Int.sub_eq_add_neg,word_add,BitVec.sub_eq_add_neg]
  exact congrArg (word a+·) BitVec.ofInt_neg

theorem word_nat (n : ℕ) : BitVec.ofNat 32 n=word n := (BitVec.ofInt_natCast 32 n).symm

theorem word_one : (1 : BitVec 32)=word 1 := rfl

theorem word_toNat {z : ℤ} (hpos : 0≤z) (hlt : z<2^32) : ((word z).toNat : ℤ)=z := by
  unfold word
  rw [BitVec.toNat_ofInt,Int.toNat_of_nonneg (Int.emod_nonneg _ (by decide))]
  exact Int.emod_eq_of_lt hpos hlt

/-- An entry. -/
def one (_ : Name) (_ : Xattr) : ℤ := 1

/-- The length of its name. -/
def nameLen (nm : Name) (_ : Xattr) : ℤ := nm.length

/-- The bytes of the entry and of its value. -/
def bytes (nm : Name) (x : Xattr) : ℤ :=
  calcDentSize nm.length+calcXattrBytes (x.node.getD []).length

/-- The counters agree with the entries and their values. -/
structure Accurate (s : Host×Values) : Prop where
  cnt : s.1.xattrCnt.toNat=s.1.xents.keys.card
  names : s.1.xattrNames.toNat=∑ nm∈s.1.xents.keys,nm.length
  size : s.1.xattrSize.toNat=
    ∑ nm∈s.1.xents.keys,(calcDentSize nm.length+calcXattrBytes ((s.2 nm).getD []).length)

/-- An entry whose value is the one that was set last. -/
structure Known (nm : Name) (x : Xattr) (v : Data) : Prop where
  name : ∃ type,checkNamespace nm=.ok type
  node : x.node=some v
  small : v.length≤UBIFS_MAX_INO_DATA
  inode : ∀ ui∈x.inode,ui.dataLen=v.length∧ui.data.getD []=v

/-- Holds after every step of a run that goes well. -/
structure Good (s : Host×Values) : Prop where
  known : ∀ nm x,s.1.xents.get nm=some x → ∃ v,s.2 nm=some v∧Known nm x v
  absent : ∀ nm,s.1.xents.get nm=none → s.2 nm=none
  cnt : s.1.xattrCnt=word (s.1.xents.total one)
  names : s.1.xattrNames=word (s.1.xents.total nameLen)
  size : s.1.xattrSize=word (s.1.xents.total bytes)
  few : s.1.xents.total one≤MAX_XATTRS_PER_INODE
  short : s.1.xents.total nameLen+s.1.xents.total one≤XATTR_LIST_MAX

namespace Good

variable {s : Host×Values} {nm : Name} {x : Xattr} {v : Data}

theorem one_nonneg (t : Table Name Xattr) : 0≤t.total one :=
  t.total_nonneg fun _ _ => Int.one_nonneg

theorem nameLen_nonneg (t : Table Name Xattr) : 0≤t.total nameLen :=
  t.total_nonneg fun _ _ => Int.natCast_nonneg _

theorem cnt_toNat (good : Good s) : (s.1.xattrCnt.toNat : ℤ)=s.1.xents.total one := by
  have hfew := good.few
  rw [good.cnt]
  apply word_toNat (one_nonneg _)
  unfold MAX_XATTRS_PER_INODE at hfew
  omega

theorem names_toNat (good : Good s) : (s.1.xattrNames.toNat : ℤ)=s.1.xents.total nameLen := by
  have hshort := good.short
  have hone := one_nonneg s.1.xents
  rw [good.names]
  apply word_toNat (nameLen_nonneg _)
  unfold XATTR_LIST_MAX at hshort
  omega

/-- An attribute takes less than five thousand bytes. -/
theorem bytes_le (good : Good s) : s.1.xents.total bytes≤ s.1.xents.total one*5000 := by
  rw [Table.total,Table.total,Finset.sum_mul]
  refine Finset.sum_le_sum fun nm hk => ?_
  have ⟨x,hx⟩ := Option.isSome_iff_exists.mp ((s.1.xents.mem_keys nm).mp hk)
  have ⟨v,_,known⟩ := good.known nm x hx
  have ⟨type,hname⟩ := known.name
  have hlen : nm.length≤UBIFS_MAX_NLEN := by
    by_contra hlong
    unfold checkNamespace at hname
    rw [if_pos (Nat.lt_of_not_le hlong)] at hname
    cases hname
  have hsmall := known.small
  rw [Table.worth_some hx,Table.worth_some hx]
  unfold bytes one calcDentSize calcXattrBytes align8
  rw [known.node,Option.getD_some]
  unfold UBIFS_MAX_NLEN at hlen
  unfold UBIFS_MAX_INO_DATA at hsmall
  unfold UBIFS_DENT_NODE_SZ UBIFS_INO_NODE_SZ
  omega

theorem size_toNat (good : Good s) : (s.1.xattrSize.toNat : ℤ)=s.1.xents.total bytes := by
  have hfew := good.few
  have hle := good.bytes_le
  rw [good.size]
  apply word_toNat
  · refine Table.total_nonneg _ fun nm x => ?_
    unfold bytes
    omega
  · unfold MAX_XATTRS_PER_INODE at hfew
    omega

/-- What the invariant says about the counters. -/
theorem accurate (good : Good s) : Accurate s := by
  refine ⟨?_,?_,?_⟩
  · have hsum : s.1.xents.total one=∑ _∈s.1.xents.keys,(1 : ℤ) :=
      Table.total_eq_sum fun _ _ _ => rfl
    have hcnt := good.cnt_toNat
    rw [hsum,Finset.sum_const,nsmul_eq_mul,mul_one] at hcnt
    exact_mod_cast hcnt
  · have hsum : s.1.xents.total nameLen=∑ nm∈s.1.xents.keys,(nm.length : ℤ) :=
      Table.total_eq_sum fun _ _ _ => rfl
    have hnames := good.names_toNat
    rw [hsum] at hnames
    exact_mod_cast hnames
  · have hsum : s.1.xents.total bytes=∑ nm∈s.1.xents.keys,
        ((calcDentSize nm.length+calcXattrBytes ((s.2 nm).getD []).length : ℕ) : ℤ) := by
      refine Table.total_eq_sum fun nm x hx => ?_
      have ⟨v,hv,known⟩ := good.known nm x hx
      unfold bytes
      rw [known.node,hv]
      rfl
    have hsize := good.size_toNat
    rw [hsum] at hsize
    exact_mod_cast hsize

end Good

/-! ## One step -/

variable {s : Host×Values} {nm : Name} {x x' : Xattr} {v : Data} {ui : XInode} {o : Outcome}
  {value : Data} {flags : Flags}

/-- The inode that is found has the value. -/
theorem Known.iget (known : Known nm x v) {ok : Bool} (h : ui∈igetXattr x ok) :
    ui.dataLen=v.length∧ui.data.getD []=v := by
  unfold igetXattr at h
  split at h
  · next ui' hui =>
    cases h
    exact known.inode ui hui
  · split at h
    · rw [known.node] at h
      cases h
      exact ⟨rfl,rfl⟩
    · cases h

theorem Known.withInode (known : Known nm x v) {i : Option XInode}
    (h : ∀ ui∈i,ui.dataLen=v.length∧ui.data.getD []=v) : Known nm {x with inode := i} v :=
  ⟨known.name,known.node,known.small,h⟩

namespace Good

/-- An entry is replaced by one of as many bytes. -/
theorem replace (good : Good s) (hx : s.1.xents.get nm=some x) (known : Known nm x' v)
    (hbytes : bytes nm x'=bytes nm x) {vs : Values} (hv : vs nm=some v)
    (hvs : ∀ k,k≠nm → vs k=s.2 k) : Good ({s.1 with xents := s.1.xents.put nm x'},vs) where
  known k y hy := by
    by_cases hk : k=nm
    · cases hk
      cases (Table.get_put _ _ _).symm.trans hy
      exact ⟨v,hv,known⟩
    · rw [Table.get_put_of_ne hk] at hy
      have ⟨w,hw,known'⟩ := good.known k y hy
      exact ⟨w,(hvs k hk).trans hw,known'⟩
  absent k hk := by
    by_cases hkn : k=nm
    · cases hkn
      cases (Table.get_put _ _ _).symm.trans hk
    · rw [Table.get_put_of_ne hkn] at hk
      exact (hvs k hkn).trans (good.absent k hk)
  cnt := by
    rw [Table.total_put,Table.worth_some hx]
    exact good.cnt.trans (congrArg word (Int.sub_add_cancel _ 1).symm)
  names := by
    rw [Table.total_put,Table.worth_some hx]
    exact good.names.trans (congrArg word (Int.sub_add_cancel _ (nm.length : ℤ)).symm)
  size := by
    rw [Table.total_put,Table.worth_some hx,hbytes]
    exact good.size.trans (congrArg word (Int.sub_add_cancel _ _).symm)
  few := by
    have hfew := good.few
    rw [Table.total_put,Table.worth_some hx]
    unfold one at *
    omega
  short := by
    have hshort := good.short
    rw [Table.total_put,Table.worth_some hx,Table.total_put,Table.worth_some hx]
    unfold one nameLen at *
    omega

/-- The inode of an entry comes into the memory, or leaves it. -/
theorem inode (good : Good s) (hx : s.1.xents.get nm=some x) (hv : s.2 nm=some v)
    (known : Known nm x v) {i : Option XInode}
    (h : ∀ ui∈i,ui.dataLen=v.length∧ui.data.getD []=v) :
    Good ({s.1 with xents := s.1.xents.put nm {x with inode := i}},s.2) :=
  good.replace hx (known.withInode h) rfl hv fun _ _ => rfl

/-- A new entry is counted. -/
theorem create (good : Good s) (hx : s.1.xents.get nm=none)
    (hname : ∃ type,checkNamespace nm=.ok type) (hsmall : value.length≤UBIFS_MAX_INO_DATA)
    (hcreates : Creates s.1 nm value o) (hdone : o.journal=.done) :
    (createXattr s.1 nm value o).2=0∧
      Good ((createXattr s.1 nm value o).1,update s.2 nm (some value)) := by
  have ⟨hcnt,hnames,hbudget,hnew,hkmalloc⟩ := hcreates
  have halloc : ¬(o.kmalloc=false∧value≠[]) := by
    rintro ⟨hfalse,hne⟩
    obtain htrue|hnil := hkmalloc
    · rw [hfalse] at htrue
      cases htrue
    · exact hne hnil
  unfold createXattr
  rw [if_neg (Nat.not_le.mpr hcnt),if_neg (Nat.not_lt.mpr hnames),
    if_neg (by rw [hbudget]; nofun),if_neg (by rw [hnew]; nofun),if_neg halloc,hdone]
  refine ⟨rfl,?_⟩
  have hlen : nm.length<2^32-2^18 := by
    have ⟨type,hok⟩ := hname
    unfold checkNamespace at hok
    by_contra hlong
    rw [if_pos (by unfold UBIFS_MAX_NLEN; omega)] at hok
    cases hok
  have hT := good.cnt_toNat
  have hshort := good.short
  have hpos' := nameLen_nonneg s.1.xents
  have hsum : s.1.xents.total nameLen+s.1.xents.total one+nm.length+1≤XATTR_LIST_MAX := by
    rw [good.names,good.cnt,word_nat,word_one,← word_add,← word_add,← word_add] at hnames
    have hval := word_toNat (z := s.1.xents.total nameLen+s.1.xents.total one+nm.length+1)
      (by omega) (by unfold XATTR_LIST_MAX at hshort; omega)
    omega
  refine ⟨?_,?_,?_,?_,?_,?_,?_⟩
  · intro k y hy
    by_cases hk : k=nm
    · cases hk
      cases (Table.get_put _ _ _).symm.trans hy
      refine ⟨value,update_self _ _ _,hname,rfl,hsmall,?_⟩
      rintro ui hui
      cases hui
      exact ⟨rfl,rfl⟩
    · have hother := (Table.get_put_of_ne hk).symm.trans hy
      have ⟨w,hw,known⟩ := good.known k y hother
      exact ⟨w,(update_of_ne hk _ _).trans hw,known⟩
  · intro k hk
    by_cases hkn : k=nm
    · cases hkn
      cases (Table.get_put _ _ _).symm.trans hk
    · have hother := (Table.get_put_of_ne hkn).symm.trans hk
      exact (update_of_ne hkn _ _).trans (good.absent k hother)
  · rw [Table.total_put,Table.worth_none hx,sub_zero,word_add,← good.cnt]
    rfl
  · rw [Table.total_put,Table.worth_none hx,sub_zero,word_add,← good.names]
    exact congrArg (s.1.xattrNames+·) (word_nat _)
  · rw [Table.total_put,Table.worth_none hx,sub_zero,word_add,← good.size]
    unfold bytes
    rw [word_add,← word_nat,← word_nat,← BitVec.add_assoc,Option.getD_some]
  · rw [Table.total_put,Table.worth_none hx]
    change s.1.xents.total one-0+1≤(MAX_XATTRS_PER_INODE : ℤ)
    omega
  · rw [Table.total_put,Table.worth_none hx,Table.total_put,Table.worth_none hx]
    change s.1.xents.total nameLen-0+nm.length+(s.1.xents.total one-0+1)≤(XATTR_LIST_MAX : ℤ)
    omega

end Good

/-! What `change_xattr` does. In both cases of the journal the size is what it was. -/

variable {h : Host}

theorem changeXattr_noBudget (hbudget : o.budget=false) :
    changeXattr h nm x ui value o=
      ({h with xents := h.xents.put nm {x with inode := some ui}},-ENOSPC) :=
  if_pos hbudget

theorem changeXattr_noMemory (hbudget : o.budget=true) (halloc : o.kmalloc=false∧value≠[]) :
    changeXattr h nm x ui value o=
      ({h with xents := h.xents.put nm {x with inode := some {ui with data := none}}},
        -ENOMEM) := by
  unfold changeXattr
  rw [if_neg (by rw [hbudget]; nofun),if_pos halloc]

theorem changeXattr_done (hbudget : o.budget=true) (halloc : ¬(o.kmalloc=false∧value≠[]))
    (hdone : o.journal=.done) :
    changeXattr h nm x ui value o=
      ({h with xents := h.xents.put nm ⟨some value,some ⟨some value,value.length⟩⟩},0) := by
  unfold changeXattr
  rw [if_neg (by rw [hbudget]; nofun),if_neg halloc,hdone]
  dsimp only
  rw [BitVec.sub_add_cancel]

theorem changeXattr_failed (hbudget : o.budget=true) (halloc : ¬(o.kmalloc=false∧value≠[]))
    {updates : ℕ} (hfailed : o.journal=.failed updates) :
    changeXattr h nm x ui value o=
      ({h with xents := h.xents.put nm {x with inode := none}},-ENOSPC) := by
  unfold changeXattr
  rw [if_neg (by rw [hbudget]; nofun),if_neg halloc,hfailed]
  dsimp only
  rw [BitVec.sub_add_cancel,BitVec.sub_add_cancel]

namespace Good

/-- An entry that is changed is counted as before. -/
theorem change (good : Good s) (hx : s.1.xents.get nm=some x) (hv : s.2 nm=some v)
    (known : Known nm x v) (hui : ui.dataLen=v.length∧ui.data.getD []=v)
    (hsmall : value.length≤UBIFS_MAX_INO_DATA) (hchanges : o.budget=true → Changes ui value o) :
    let r := changeXattr s.1 nm x ui value o
    Good (r.1,if r.2=0 then update s.2 nm (some value) else s.2) := by
  dsimp only
  cases hbudget : o.budget with
  | false =>
    rw [changeXattr_noBudget hbudget,if_neg (show -ENOSPC≠0 by decide)]
    refine good.inode hx hv known ?_
    rintro _ ⟨⟩
    exact hui
  | true =>
    have hfits := hchanges hbudget
    unfold Changes at hfits
    by_cases halloc : o.kmalloc=false∧value≠[]
    · rw [if_pos halloc] at hfits
      rw [changeXattr_noMemory hbudget halloc,if_neg (show -ENOMEM≠0 by decide)]
      refine good.inode hx hv known ?_
      rintro _ ⟨⟩
      exact ⟨hui.1,(List.eq_nil_of_length_eq_zero (hui.1.symm.trans hfits)).symm⟩
    · rw [if_neg halloc] at hfits
      cases hjournal : o.journal with
      | done =>
        have hsame := hfits hjournal
        rw [changeXattr_done hbudget halloc hjournal,if_pos rfl]
        refine good.replace hx (v := value) ⟨known.name,rfl,hsmall,?_⟩ ?_
          (update_self _ _ _) fun k hk => update_of_ne hk _ _
        · rintro _ ⟨⟩
          exact ⟨rfl,rfl⟩
        · unfold bytes
          rw [known.node,Option.getD_some,Option.getD_some,← hsame,hui.1]
      | failed updates =>
        rw [changeXattr_failed hbudget halloc hjournal,if_neg (show -ENOSPC≠0 by decide)]
        exact good.inode hx hv known nofun

/-- An entry that is removed is not counted any more. -/
theorem remove (good : Good s) (hx : s.1.xents.get nm=some x) (hv : s.2 nm=some v)
    (known : Known nm x v) (hui : ui.dataLen=v.length∧ui.data.getD []=v)
    (hdone : o.budget=true → o.journal=.done) :
    let r := removeXattr s.1 nm x ui o
    Good (r.1,if r.2=0 then update s.2 nm none else s.2) := by
  dsimp only
  unfold removeXattr
  cases hbudget : o.budget with
  | false =>
    refine good.inode hx hv known ?_
    rintro _ ⟨⟩
    exact hui
  | true =>
    rw [if_neg (by nofun),hdone hbudget]
    have hfew := good.few
    have hshort := good.short
    refine ⟨?_,?_,?_,?_,?_,?_,?_⟩
    · intro k y hy
      by_cases hk : k=nm
      · cases hk
        cases (Table.get_erase _ _).symm.trans hy
      · have hother := (Table.get_erase_of_ne hk).symm.trans hy
        have ⟨w,hw,known⟩ := good.known k y hother
        exact ⟨w,(update_of_ne hk _ _).trans hw,known⟩
    · intro k hk
      by_cases hkn : k=nm
      · rw [hkn]
        exact update_self _ _ _
      · have hother := (Table.get_erase_of_ne hkn).symm.trans hk
        exact (update_of_ne hkn _ _).trans (good.absent k hother)
    · rw [Table.total_erase,Table.worth_some hx,word_sub,← good.cnt]
      rfl
    · rw [Table.total_erase,Table.worth_some hx,word_sub,← good.names]
      exact congrArg (s.1.xattrNames-·) (word_nat _)
    · rw [Table.total_erase,Table.worth_some hx,word_sub,← good.size]
      unfold bytes
      rw [word_add,← word_nat,← word_nat,known.node,Option.getD_some,hui.1]
      dsimp only
      rw [BitVec.sub_sub]
    · rw [Table.total_erase,Table.worth_some hx]
      change s.1.xents.total one-1≤(MAX_XATTRS_PER_INODE : ℤ)
      omega
    · rw [Table.total_erase,Table.worth_some hx,Table.total_erase,Table.worth_some hx]
      change s.1.xents.total nameLen-nm.length+(s.1.xents.total one-1)≤(XATTR_LIST_MAX : ℤ)
      omega

end Good

/-- A call that fails early changes nothing. -/
theorem createXattr_early (hnot : ¬Creates h nm value o) :
    ∃ err,err≠0∧createXattr h nm value o=(h,err) := by
  unfold createXattr
  split
  · exact ⟨-ENOSPC,by decide,rfl⟩
  · split
    · exact ⟨-ENOSPC,by decide,rfl⟩
    · split
      · exact ⟨-ENOSPC,by decide,rfl⟩
      · split
        · exact ⟨-ENOMEM,by decide,rfl⟩
        · split
          · exact ⟨-ENOMEM,by decide,rfl⟩
          · next hcnt hnames hbudget hnew halloc =>
            refine absurd ⟨?_,?_,?_,?_,?_⟩ hnot
            · exact Nat.lt_of_not_le hcnt
            · exact Nat.le_of_not_lt hnames
            · exact Bool.not_eq_false _ ▸ hbudget
            · exact Bool.not_eq_false _ ▸ hnew
            · by_cases hvalue : value=[]
              · exact .inr hvalue
              · refine .inl (Bool.not_eq_false _ ▸ fun hfalse => halloc ⟨hfalse,hvalue⟩)

/-- Names that are refused are refused with an error. -/
theorem checkNamespace_error {err : ℤ} (h : checkNamespace nm=.error err) : err≠0 := by
  unfold checkNamespace inNamespace at h
  split at h
  · cases h
    decide
  · repeat
      split at h
      · split at h
        · cases h
          decide
        · cases h
    cases h
    decide

namespace Good

theorem set (good : Good s) (hfits : Fits s (.set nm value flags o)) :
    let r := setxattr s.1 nm value flags o
    Good (r.1,if r.2=0 then update s.2 nm (some value) else s.2) := by
  have hrefused (err : ℤ) (herr : err≠0) :
      Good (s.1,if err=0 then update s.2 nm (some value) else s.2) := by
    rw [if_neg herr]
    exact good
  unfold setxattr
  split
  · exact hrefused (-ERANGE) (by decide)
  · next hlong =>
    have hsmall := Nat.le_of_not_lt hlong
    split
    · next err herr => exact hrefused err (checkNamespace_error herr)
    · next type hname =>
      split
      · exact hrefused (-ENOMEM) (by decide)
      · next hlookup =>
        have hprepared : Prepared nm o := ⟨⟨type,hname⟩,Bool.not_eq_false _ ▸ hlookup⟩
        have hcase := hfits hprepared hsmall
        cases hx : s.1.xents.get nm with
        | none =>
          rw [hx] at hcase
          dsimp only at hcase ⊢
          split
          · exact hrefused (-ENODATA) (by decide)
          · next hreplace =>
            by_cases hcreates : Creates s.1 nm value o
            · have hdone := hcase (Bool.not_eq_true _ ▸ hreplace) hcreates
              have ⟨hret,hgood⟩ := good.create hx hprepared.1 hsmall hcreates hdone
              rw [if_pos hret]
              exact hgood
            · have ⟨err,herr,hearly⟩ := createXattr_early hcreates
              rw [hearly]
              exact hrefused err herr
        | some x =>
          rw [hx] at hcase
          dsimp only at hcase ⊢
          split
          · exact hrefused (-EEXIST) (by decide)
          · next hcreate =>
            split
            · exact hrefused (-ENOMEM) (by decide)
            · next ui hui =>
              have ⟨v,hv,known⟩ := good.known nm x hx
              exact good.change hx hv known (known.iget hui) hsmall fun hbudget =>
                hcase (Bool.not_eq_true _ ▸ hcreate) hbudget ui hui

theorem unset (good : Good s) (hfits : Fits s (.remove nm o)) {r : Host×ℤ}
    (hr : removexattr s.1 nm o=r) :
    Good (r.1,if r.2=0 then update s.2 nm none else s.2) := by
  have hrefused (err : ℤ) (herr : err≠0) (h : (s.1,err)=r) :
      Good (r.1,if r.2=0 then update s.2 nm none else s.2) := by
    rw [← h,if_neg herr]
    exact good
  unfold removexattr at hr
  split at hr
  · next err herr => exact hrefused err (checkNamespace_error herr) hr
  · next type hname =>
    split at hr
    · exact hrefused (-ENOMEM) (by decide) hr
    · next hlookup =>
      have hprepared : Prepared nm o := ⟨⟨type,hname⟩,Bool.not_eq_false _ ▸ hlookup⟩
      split at hr
      · exact hrefused (-ENODATA) (by decide) hr
      · next x hx =>
        split at hr
        · exact hrefused (-ENOMEM) (by decide) hr
        · next ui hui =>
          have ⟨v,hv,known⟩ := good.known nm x hx
          rw [← hr]
          exact good.remove hx hv known (known.iget hui)
            (hfits hprepared x hx (by rw [hui]; nofun))

theorem step (good : Good s) {e : Event} {s' : Host×Values} (hfits : Fits s e)
    (h : step s e=some s') : Good s' := by
  cases e with
  | set nm value flags o =>
    cases h
    exact good.set hfits
  | remove nm o =>
    cases h
    exact good.unset hfits rfl
  | load nm =>
    have ⟨x,hx,hs⟩ := Option.map_eq_some_iff.mp h
    have ⟨v,hv,known⟩ := good.known nm x hx
    rw [← hs]
    exact good.inode hx hv known fun ui hui => known.iget hui
  | drop nm =>
    have ⟨x,hx,hs⟩ := Option.map_eq_some_iff.mp h
    have ⟨v,hv,known⟩ := good.known nm x hx
    rw [← hs]
    exact good.inode hx hv known nofun

end Good

theorem start_good : Good start where
  known _ _ := nofun
  absent _ _ := rfl
  cnt := rfl
  names := rfl
  size := rfl
  few := by decide
  short := by decide

/-! ## Reading -/

/-- What `ubifs_getxattr` returns of a value. -/
def answer (v : Option Data) (size : Option ℕ) : Got :=
  match v,size with
  | none,_ => .error (-ENODATA)
  | some v,none => .ok v.length none
  | some v,some size => if size<v.length then .error (-ERANGE) else .ok v.length (some v)

/-- A read that does not fail on its way returns the value that was set last. -/
theorem Good.getxattr (good : Good s) (nm : Name) (size : Option ℕ) (o : Outcome) :
    getxattr s.1 nm size o=answer (s.2 nm) size∨
      ∃ err,getxattr s.1 nm size o=.error err∧¬(Prepared nm o∧o.iget=true) := by
  unfold UbifsXattr.getxattr
  split
  · next err herr =>
    refine .inr ⟨err,rfl,?_⟩
    rintro ⟨⟨⟨type,hok⟩,_⟩,_⟩
    rw [herr] at hok
    cases hok
  · split
    · next hlookup =>
      refine .inr ⟨-ENOMEM,rfl,?_⟩
      rintro ⟨⟨_,htrue⟩,_⟩
      rw [hlookup] at htrue
      cases htrue
    · split
      · next hx =>
        rw [good.absent nm hx]
        exact .inl rfl
      · next x hx =>
        have ⟨v,hv,known⟩ := good.known nm x hx
        split
        · next hnone =>
          refine .inr ⟨-ENOMEM,rfl,?_⟩
          rintro ⟨_,higet⟩
          unfold igetXattr at hnone
          split at hnone
          · cases hnone
          · rw [if_pos higet,known.node] at hnone
            cases hnone
        · next ui hui =>
          have ⟨hlen,hdata⟩ := known.iget hui
          rw [hv]
          left
          split
          · unfold answer
            rw [hlen]
          · next size =>
            unfold answer
            dsimp only
            rw [hlen]
            split
            · rfl
            · cases hd : ui.data with
              | none =>
                rw [hd] at hdata
                cases hdata
                rfl
              | some data =>
                rw [hd] at hdata
                cases hdata
                dsimp only
                rw [Option.getD_some,List.take_length]

/-- The names, each with its end. -/
def listing (names : List Name) : Name := names.flatMap (·++['\x00'])

/-- `ubifs_tnc_next_ent` walks over all entries, in an order of its own. -/
structure Walk (t : Table Name Xattr) (names : List Name) : Prop where
  nodup : names.Nodup
  mem : ∀ nm,nm∈names↔nm∈t.keys

theorem length_listing (names : List Name) :
    (listing names).length=(names.map fun nm => nm.length+1).sum := by
  unfold listing
  rw [List.length_flatMap]
  congr 1
  refine List.map_congr_left fun nm _ => ?_
  rw [List.length_append]
  rfl

/-- The loop writes at most all names. -/
theorem listLoop_length (capable : Bool) (names : List Name) (stop : Option ℕ) (written : Name) :
    (listLoop capable names stop written).1.length≤written.length+(listing names).length := by
  induction names generalizing stop written with
  | nil =>
    unfold listLoop
    split
    · exact Nat.le_add_right _ _
    · exact Nat.le_add_right _ _
    · next h _ => cases h
  | cons nm names ih =>
    have hlen : (listing (nm::names)).length=nm.length+1+(listing names).length := by
      rw [length_listing,length_listing,List.map_cons,List.sum_cons]
    unfold listLoop
    split
    · exact Nat.le_add_right _ _
    · next h _ => cases h
    · next h _ =>
      cases h
      split
      · exact Nat.le_add_right _ _
      · refine (ih _ _).trans ?_
        split
        · rw [List.length_append,List.length_append,List.length_singleton]
          omega
        · omega

/-- A walk to the end writes all names. -/
theorem listLoop_all (names : List Name) (written : Name)
    (hnames : ∀ nm∈names,∃ type,checkNamespace nm=.ok type) :
    listLoop true names none written=
      (written++listing names,((written.length+(listing names).length : ℕ) : ℤ)) := by
  induction names generalizing written with
  | nil =>
    unfold listLoop listing
    rw [List.flatMap_nil,List.append_nil]
    rfl
  | cons nm names ih =>
    have ⟨type,htype⟩ := hnames nm List.mem_cons_self
    have hrest := ih (written++nm++['\x00']) fun k hk => hnames k (List.mem_cons_of_mem nm hk)
    unfold listLoop
    rw [htype]
    dsimp only
    rw [if_pos (.inr rfl)]
    refine hrest.trans ?_
    have hcons : listing (nm::names)=nm++['\x00']++listing names := List.flatMap_cons
    rw [hcons]
    simp only [List.append_assoc,List.length_append,Nat.add_assoc]

namespace Good

variable {names : List Name}

/-- The length of the list is what the host inode counts. -/
theorem listing_length (good : Good s) (walk : Walk s.1.xents names) :
    (listing names).length=(s.1.xattrNames+s.1.xattrCnt).toNat := by
  have hacc := good.accurate
  have hkeys : s.1.xents.keys=names.toFinset := by
    ext nm
    rw [List.mem_toFinset,walk.mem]
  have hsum : (listing names).length=s.1.xattrNames.toNat+s.1.xattrCnt.toNat := by
    rw [length_listing,hacc.names,hacc.cnt,hkeys,List.sum_toFinset _ walk.nodup,
      List.toFinset_card_of_nodup walk.nodup]
    clear walk hkeys
    induction names with
    | nil => rfl
    | cons nm names ih =>
      rw [List.map_cons,List.map_cons,List.sum_cons,List.sum_cons,List.length_cons]
      omega
  have hshort := good.short
  have hcnt := good.cnt_toNat
  have hnames := good.names_toNat
  rw [BitVec.toNat_add,Nat.mod_eq_of_lt]
  · exact hsum
  · unfold XATTR_LIST_MAX at hshort
    omega

/-- The buffer is never overrun. -/
theorem listxattr_le (good : Good s) (walk : Walk s.1.xents names) (size : ℕ) (capable : Bool)
    (stop : Option ℕ) : (listxattr s.1 names (some size) capable stop).1.length≤ size := by
  unfold listxattr
  dsimp only
  split
  · exact Nat.zero_le _
  · next hsize =>
    have hloop := listLoop_length capable names stop []
    rw [good.listing_length walk] at hloop
    rw [List.length_nil] at hloop
    omega

/-- Who may see all names gets each of them once. -/
theorem listxattr_all (good : Good s) (walk : Walk s.1.xents names) {size : ℕ}
    (hsize : (listing names).length≤ size) :
    listxattr s.1 names (some size) true none=
      (listing names,((listing names).length : ℤ)) := by
  unfold listxattr
  dsimp only
  rw [← good.listing_length walk,if_neg (Nat.not_lt.mpr hsize),listLoop_all]
  · rw [List.nil_append,List.length_nil,Nat.zero_add]
  · intro nm hnm
    have hkey := (walk.mem nm).mp hnm
    have ⟨x,hx⟩ := Option.isSome_iff_exists.mp ((s.1.xents.mem_keys nm).mp hkey)
    have ⟨_,_,known⟩ := good.known nm x hx
    exact known.name

end Good

/-! ## Runs -/

theorem run_good {es : List Event} (h : Run step Fits start es s) : Good s :=
  h.invariant Good start_good fun good hfits hstep => good.step hfits hstep

/-- As long as calls fit, the host inode counts its attributes, a read returns what was set last
or fails on its way, and a list of the names does not overrun its buffer and is complete. -/
theorem xattrs_counted {es : List Event} (h : Run step Fits start es s) :
    Accurate s∧
      (∀ nm size o,getxattr s.1 nm size o=answer (s.2 nm) size∨
        ∃ err,getxattr s.1 nm size o=.error err∧¬(Prepared nm o∧o.iget=true))∧
      ∀ names,Walk s.1.xents names →
        (∀ size capable stop,(listxattr s.1 names (some size) capable stop).1.length≤ size)∧
        ∀ size,(listing names).length≤ size →
          listxattr s.1 names (some size) true none=
            (listing names,((listing names).length : ℤ)) := by
  have good := run_good h
  refine ⟨good.accurate,good.getxattr,?_⟩
  intro names walk
  exact ⟨good.listxattr_le walk,fun size hsize => good.listxattr_all walk hsize⟩

/-- Every step succeeds. -/
def Outcome.all : Outcome := ⟨true,true,true,true,true,.done⟩

def anyway : Flags := ⟨false,false⟩

/-- Two attributes, of which one is changed and one removed. -/
theorem xattrs_counted_example :
    ∃ es s,Run step Fits start es s∧Accurate s∧
      listxattr s.1 ["user.b".toList] (some 7) true none=("user.b\x00".toList,7) := by
  have hrun : Run step Fits start
      [.set "user.a".toList [1] anyway .all,.set "user.b".toList [2] anyway .all,
        .set "user.b".toList [3,4] anyway .all,.remove "user.a".toList .all] _ :=
    Run.cons (fun _ _ _ _ => rfl) rfl <| Run.cons (fun _ _ _ _ => rfl) rfl <|
      Run.cons (fun _ _ _ _ _ hui _ => by cases hui; decide) rfl <|
      Run.cons (fun _ _ _ _ _ => rfl) rfl (Run.nil _)
  have ⟨haccurate,_,hlist⟩ := xattrs_counted hrun
  refine ⟨_,_,hrun,haccurate,(hlist ["user.b".toList] ⟨?_,?_⟩).2 7 (by decide)⟩
  · decide
  · intro nm
    change nm∈["user.b".toList]↔nm∈(insert "user.b".toList (insert "user.b".toList
      (insert "user.a".toList (∅ : Finset Name)))).erase "user.a".toList
    have hne : "user.b".toList≠"user.a".toList := by decide
    rw [List.mem_singleton,Finset.mem_erase,Finset.mem_insert,Finset.mem_insert,
      Finset.mem_insert]
    constructor
    · rintro rfl
      exact ⟨hne,.inl rfl⟩
    · rintro ⟨hna,rfl|rfl|rfl|hempty⟩
      · rfl
      · rfl
      · exact absurd rfl hna
      · exact absurd hempty (Finset.notMem_empty _)

/-- A longer value is counted like the old one. A removal that fails in the journal leaves a
list of names that overruns its buffer. A value that cannot be allocated loses the old one. -/
theorem xattrs_miscounted :
    (∃ s,Run step (fun _ _ => True) start
      [.set "user.a".toList [] anyway .all,
        .set "user.a".toList [1,2,3,4,5,6,7,8] anyway .all] s∧¬Accurate s)∧
    (∃ s,Run step (fun _ _ => True) start
      [.set "user.a".toList [] anyway {Outcome.all with journal := .failed 0}] s∧¬Accurate s)∧
    (∃ s,Run step (fun _ _ => True) start
      [.set "user.a".toList [] anyway .all,
        .remove "user.a".toList {Outcome.all with journal := .failed 0}] s∧
      Walk s.1.xents ["user.a".toList]∧
      5<(listxattr s.1 ["user.a".toList] (some 5) true none).1.length)∧
    ∃ s,Run step (fun _ _ => True) start
      [.set "user.a".toList [1] anyway .all,
        .set "user.a".toList [2] anyway {Outcome.all with kmalloc := false}] s∧
      s.2 "user.a".toList=some [1]∧getxattr s.1 "user.a".toList (some 1) .all=.oops := by
  refine ⟨?_,?_,?_,?_⟩
  · refine ⟨_,Run.cons trivial rfl (Run.cons trivial rfl (Run.nil _)),?_⟩
    intro h
    exact absurd h.size (by decide +kernel)
  · refine ⟨_,Run.cons trivial rfl (Run.nil _),?_⟩
    intro h
    exact absurd h.names (by decide +kernel)
  · refine ⟨_,Run.cons trivial rfl (Run.cons trivial rfl (Run.nil _)),⟨by decide,?_⟩,
      by decide +kernel⟩
    intro nm
    change nm∈["user.a".toList]↔nm∈insert "user.a".toList (insert "user.a".toList
      (∅ : Finset Name))
    rw [List.mem_singleton,Finset.mem_insert,Finset.mem_insert]
    constructor
    · exact .inl
    · rintro (rfl|rfl|hempty)
      · rfl
      · rfl
      · exact absurd hempty (Finset.notMem_empty _)
  · exact ⟨_,Run.cons trivial rfl (Run.cons trivial rfl (Run.nil _)),by decide +kernel,
      by decide +kernel⟩

end ArdroneKernel.UbifsXattr
