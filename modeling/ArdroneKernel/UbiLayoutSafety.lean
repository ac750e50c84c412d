import ArdroneKernel.UbiLayoutVolume
import ArdroneKernel.UbiScanCorrect

/-!
# Safety of reading the layout volume

The arrays of `process_lvol` have an entry for each copy of the table, and are
indexed by the LEB numbers of the scanning information. When no number is too
large, what is read is an error or a table that passes `vtbl_check`.
-/

namespace ArdroneKernel.UbiLayoutVolume

open UbiVolumeOps UbiAttach SearchTree Crc32
open UbiScan (ScanInfo ScanVolume ScanLeb PebReads ReadRes Scan ubiScan UBI_LAYOUT_VOLUME_ID)

variable {dev : UbiScan.Device} {env : Env dev} {d : Device} {rb : Rebalance} {size : ℕ}
  {good : Int32} {sv : ScanVolume} {sebs : List ScanLeb} {lebs : Lebs} {si si' : ScanInfo}
  {memory : Bool} {vtbl : List UInt8}

/-! ## The arrays -/

/-- Allocating the table of a LEB, or reading it, fails. -/
def readFails (env : Env dev) (seb : ScanLeb) : Bool :=
  !env.vmalloc seb.pnum||match env.readRes seb.pnum with
    | .err _ => true
    | _ => false

/-- The LEBs for which the loop of `process_lvol` uses its arrays: up to the
first one that cannot be read. -/
def reachedLebs (env : Env dev) : List ScanLeb → List ScanLeb
  | [] => []
  | seb::sebs => seb::if readFails env seb then [] else reachedLebs env sebs

/-- The arrays have an entry for a LEB. -/
def Inside (n : ℕ) (seb : ScanLeb) : Prop := 0≤ seb.lnum∧seb.lnum<n

/-- The loop goes on with other arrays of the same length, or ends. -/
theorem readLebs_cons (env : Env dev) (size : ℕ) (sv : ScanVolume) (seb : ScanLeb) (sebs : List ScanLeb) (lebs : Lebs)
    (si : ScanInfo) (h : Inside lebs.length seb) :
    (readFails env seb=true∧(readLebs env size sv (seb::sebs) lebs si).isSome=true)∨
    readFails env seb=false∧∃ lebs' si',lebs'.length=lebs.length∧
      readLebs env size sv (seb::sebs) lebs si=readLebs env size sv sebs lebs' si' := by
  have h' : 0≤ seb.lnum∧seb.lnum<lebs.length := h
  unfold readFails
  rw [readLebs,if_neg (not_not.mpr h')]
  by_cases hv : env.vmalloc seb.pnum=true
  · let lebs' := lebs.set seb.lnum.toNat (some (buffer size (env.data seb.pnum)))
    rw [if_neg (not_not.mpr hv),hv]
    cases env.readRes seb.pnum with
    | ok => exact Or.inr ⟨rfl,lebs',si,List.length_set,rfl⟩
    | bitflips => exact Or.inr ⟨rfl,lebs',scrubLeb si sv seb,List.length_set,rfl⟩
    | ebadmsg => exact Or.inr ⟨rfl,lebs',scrubLeb si sv seb,List.length_set,rfl⟩
    | err code => exact Or.inl ⟨rfl,rfl⟩
  · rw [if_pos hv,Bool.eq_false_iff.mpr hv]
    exact Or.inl ⟨rfl,rfl⟩

theorem readLebs_isSome_iff {n : ℕ} (hn : lebs.length=n) :
    (readLebs env size sv sebs lebs si).isSome=true ↔
      ∀ seb∈reachedLebs env sebs,Inside n seb := by
  induction sebs generalizing lebs si with
  | nil => exact iff_of_true rfl nofun
  | cons seb sebs ih =>
    unfold reachedLebs
    rw [List.forall_mem_cons]
    by_cases h : Inside lebs.length seb
    · rcases readLebs_cons env size sv seb sebs lebs si h with
        ⟨hf,hsome⟩|⟨hf,lebs',si',hlen,heq⟩
      · rw [hf,if_pos rfl]
        exact iff_of_true hsome ⟨hn▸h,nofun⟩
      · rw [hf,heq,ih (hlen.trans hn),if_neg Bool.false_ne_true]
        exact ⟨fun hall => ⟨hn▸h,hall⟩,fun hall => hall.2⟩
    · have h' : ¬(0≤ seb.lnum∧seb.lnum<lebs.length) := h
      have hnone : readLebs env size sv (seb::sebs) lebs si=none := by
        unfold readLebs
        rw [if_pos h']
      rw [hnone]
      exact iff_of_false (by decide) fun hall => h (hn.symm▸hall.1)

/-! ## The table -/

theorem firstError_zero {l : List ℤ} (h : ∀ err∈l,err=0) : firstError l=0 := by
  induction l with
  | nil => rfl
  | cons err l ih =>
    unfold firstError
    rw [if_neg (not_not.mpr (h err List.mem_cons_self))]
    exact ih fun e he => h e (List.mem_cons_of_mem _ he)

theorem drop_records {r : List UInt8} {k : ℕ} (hr : r.length=k) (tail : List UInt8) (i n : ℕ)
    (hi : i≤ n) : ((List.replicate n r).flatten++tail).drop (k*i)=
      (List.replicate (n-i) r).flatten++tail := by
  induction i generalizing n with
  | zero => rfl
  | succ i ih =>
    cases n with
    | zero => omega
    | succ n =>
      have hsplit : (List.replicate (n+1) r).flatten++tail=
          r++((List.replicate n r).flatten++tail) := by
        rw [List.replicate_succ,List.flatten_cons,List.append_assoc]
      rw [hsplit,Nat.mul_succ,Nat.add_comm,←List.drop_drop,←hr,List.drop_left,hr,
        ih n (by omega),Nat.succ_sub_succ]

theorem emptyRecord_length : emptyVtblRecord.length=UBI_VTBL_RECORD_SIZE := by
  unfold emptyVtblRecord
  rfl

theorem vtblRecord_empty {slots i : ℕ} (hi : i<slots) :
    vtblRecord (emptyTable slots size) i=emptyVtblRecord := by
  unfold vtblRecord emptyTable
  rw [drop_records emptyRecord_length _ i slots hi.le]
  have hsucc : slots-i=(slots-i-1)+1 := by omega
  rw [hsucc,List.replicate_succ,List.flatten_cons,List.append_assoc,←emptyRecord_length,
    List.take_left]

/-- The checksum in `empty_vtbl_record` is right. -/
theorem recordCheck_empty (hcrc : dev.crc32=crc32Le 0xffffffff) :
    recordCheck d dev.crc32 good emptyVtblRecord=0 := by
  unfold recordCheck
  have hsum : beField emptyVtblRecord 168 4=
      crc32Le 0xffffffff (emptyVtblRecord.take UBI_VTBL_RECORD_SIZE_CRC) := by decide +kernel
  have hzero : beInt emptyVtblRecord 0=0 := by decide
  rw [hcrc,if_neg (not_not.mpr hsum),if_pos hzero,if_neg (not_not.mpr rfl)]

/-- A table of empty records passes `vtbl_check`. -/
theorem vtblCheck_empty (hcrc : dev.crc32=crc32Le 0xffffffff) :
    vtblCheck d dev.crc32 good (emptyTable d.vtblSlots size)=0 := by
  have hfirst : firstError ((List.range d.vtblSlots).map fun i =>
      recordCheck d dev.crc32 good (vtblRecord (emptyTable d.vtblSlots size) i))=0 := by
    refine firstError_zero fun err herr => ?_
    have ⟨i,hi,he⟩ := List.mem_map.mp herr
    rw [←he,vtblRecord_empty (List.mem_range.mp hi)]
    exact recordCheck_empty hcrc
  unfold vtblCheck
  rw [hfirst,if_neg (not_not.mpr rfl),if_neg]
  intro hany
  have ⟨i,hi,hany⟩ := List.any_eq_true.mp hany
  have ⟨n,_,hname⟩ := List.any_eq_true.mp hany
  rw [vtblRecord_empty (by have := List.mem_range.mp hi; omega)] at hname
  unfold sameName at hname
  cases hname

/-- `process_lvol` returns an error or a table that passes `vtbl_check`. -/
theorem chooseLeb_ok {leb0 leb1 : Option (List UInt8)}
    (h : chooseLeb d rb env good leb0 leb1 si=.ok (vtbl,si')) :
    vtblCheck d dev.crc32 good vtbl=0 := by
  have hmap : ∀ {x : Except ℤ ScanInfo} {t : List UInt8},
      (x.map fun si => (t,si))=.ok (vtbl,si') → t=vtbl := by
    intro x t hx
    cases x with
    | error err => cases hx
    | ok si => exact congrArg Prod.fst (Except.ok.inj hx)
  unfold chooseLeb at h
  by_cases h0 : lebCorrupted d dev.crc32 good leb0<0
  · rw [if_pos h0] at h
    cases h
  rw [if_neg h0] at h
  by_cases h1 : lebCorrupted d dev.crc32 good leb0=0
  · rw [if_pos h1] at h
    cases leb0 with
    | none => cases h
    | some t =>
      dsimp only at h
      have ht : t=vtbl := by
        split_ifs at h
        · exact hmap h
        · exact congrArg Prod.fst (Except.ok.inj h)
      exact ht▸h1
  rw [if_neg h1] at h
  by_cases h2 : lebCorrupted d dev.crc32 good leb1≠0
  · rw [if_pos h2] at h
    cases h
  rw [if_neg h2] at h
  cases leb1 with
  | none => cases h
  | some t => exact hmap h▸not_not.mp h2

/-! ## Safety -/

/-- Reading the volume table stays inside of the arrays, and its result is an
error or a table that passes `vtbl_check`. -/
def Safe (d : Device) (rb : Rebalance) (env : Env dev) (memory : Bool) (si : ScanInfo) : Prop :=
  ∃ r,ubiReadVolumeTable d rb env memory si=some r∧
    ∀ t,r=.ok t → vtblCheck (withSlots d) dev.crc32 (goodPebs (withSlots d) si) t.vtbl=0

/-- No LEB of the layout volume has a number other than 0 and 1, of those that
are reached when there are not too many. -/
def TwoLebs (env : Env dev) (si : ScanInfo) : Prop :=
  ∀ sv,scanFindSv si UBI_LAYOUT_VOLUME_ID=some sv → sv.lebCount≤2 →
    ∀ seb∈reachedLebs env sv.root.toList,Inside 2 seb

theorem layoutTable_isSome_iff (d : Device) (rb : Rebalance) (memory : Bool) :
    (layoutTable d rb env memory si).isSome=true ↔ TwoLebs env si := by
  unfold layoutTable TwoLebs
  cases scanFindSv si UBI_LAYOUT_VOLUME_ID with
  | none =>
    split_ifs <;> exact iff_of_true rfl nofun
  | some sv =>
    dsimp only
    have htwo : UBI_LAYOUT_VOLUME_EBS.toInt.toNat=2 := by decide
    rw [htwo]
    by_cases hmany : sv.lebCount>2
    · rw [if_pos hmany]
      refine iff_of_true rfl fun sv' hsv hle => ?_
      rw [←Option.some.inj hsv] at hle
      omega
    · rw [if_neg hmany]
      unfold processLvol
      rw [Option.isSome_map,readLebs_isSome_iff rfl]
      constructor
      · intro h sv' hsv _
        rw [←Option.some.inj hsv]
        exact h
      · exact fun h => h sv rfl (not_lt.mp hmany)

theorem createEmptyLvol_ok (h : createEmptyLvol d rb env size memory si=.ok (vtbl,si')) :
    vtbl=emptyTable d.vtblSlots size := by
  unfold createEmptyLvol at h
  split_ifs at h
  cases h0 : createVtbl rb (env.create 0) 0 si with
  | error err =>
    rw [h0] at h
    cases h
  | ok si0 =>
    rw [h0] at h
    cases h1 : createVtbl rb (env.create 1) 1 si0 with
    | error err =>
      change (createVtbl rb (env.create 1) 1 si0).bind _=_ at h
      rw [h1] at h
      cases h
    | ok si1 =>
      change (createVtbl rb (env.create 1) 1 si0).bind _=_ at h
      rw [h1] at h
      exact (congrArg Prod.fst (Except.ok.inj h)).symm

theorem layoutTable_ok (hcrc : dev.crc32=crc32Le 0xffffffff)
    (h : layoutTable d rb env memory si=some (.ok (vtbl,si'))) :
    vtblCheck d dev.crc32 (goodPebs d si) vtbl=0 := by
  unfold layoutTable at h
  cases hsv : scanFindSv si UBI_LAYOUT_VOLUME_ID with
  | none =>
    rw [hsv] at h
    by_cases hempty : si.isEmpty=true
    · rw [if_pos hempty] at h
      rw [createEmptyLvol_ok (Option.some.inj h)]
      exact vtblCheck_empty hcrc
    · rw [if_neg hempty] at h
      cases h
  | some sv =>
    rw [hsv] at h
    dsimp only at h
    by_cases hmany : sv.lebCount>UBI_LAYOUT_VOLUME_EBS.toInt.toNat
    · rw [if_pos hmany] at h
      cases h
    · rw [if_neg hmany] at h
      have ⟨r,_,hr⟩ := Option.map_eq_some_iff.mp h
      cases r with
      | error err => cases hr
      | ok p => exact chooseLeb_ok hr

/-- Reading the volume table is safe exactly when the LEBs of the layout volume
that are reached have the numbers 0 and 1. -/
theorem safe_iff_twoLebs (d : Device) (rb : Rebalance) (env : Env dev) (memory : Bool)
    (si : ScanInfo) (hcrc : dev.crc32=crc32Le 0xffffffff) :
    Safe d rb env memory si ↔ TwoLebs env si := by
  rw [←layoutTable_isSome_iff (withSlots d) rb memory]
  unfold Safe ubiReadVolumeTable
  dsimp only
  constructor
  · intro ⟨r,hr,_⟩
    have ⟨x,hx,_⟩ := Option.map_eq_some_iff.mp hr
    rw [hx]
    rfl
  · intro hsome
    have ⟨x,hx⟩ := Option.isSome_iff_exists.mp hsome
    rw [hx,Option.map_some]
    refine ⟨_,rfl,fun t ht => ?_⟩
    cases x with
    | error err => cases ht
    | ok p =>
      have hp : vtblCheck (withSlots d) dev.crc32 (goodPebs (withSlots d) si) p.1=0 :=
        layoutTable_ok hcrc hx
      have hvtbl : t.vtbl=p.1 := by
        change (Except.bind (initVolumes _ _ _ _ _) _)=_ at ht
        generalize initVolumes _ _ _ _ _=v at ht
        cases v with
        | error err => cases ht
        | ok v =>
          change (Except.bind (checkScanningInfo _ _ _ _) _)=_ at ht
          generalize checkScanningInfo _ _ _ _=w at ht
          cases w with
          | error err => cases ht
          | ok w => exact congrArg TableRead.vtbl (Except.ok.inj ht).symm
      rw [hvtbl]
      exact hp

/-! ## Images of one eraseblock -/

/-- A device with one eraseblock. -/
def imageDevice : UbiScan.Device := ⟨1,512,crc32Le 0xffffffff⟩

theorem imageEc_valid : UbiScan.IoRes.ok.good=true → (0 : ℤ)≤7 := fun _ => by decide

/-- The eraseblock holds a LEB of the layout volume. -/
def imageReads (lnum _ : ℕ) : PebReads imageDevice where
  isBad := 0
  ecRes := .ok
  ech := ⟨UbiScan.UBI_VERSION,7,0⟩
  vidRes := .ok
  vidh := ⟨UbiScan.UBI_VID_DYNAMIC,false,UbiScan.UBI_COMPAT_REJECT,UBI_LAYOUT_VOLUME_ID,lnum,
    0,0,0,0,1⟩
  rereadRes := .ok
  dataRes := .ok
  data := []
  ec_valid := imageEc_valid
  vid_valid := fun _ => by
    have hlnum : ¬((lnum : ℤ)<0) := Int.natCast_nonneg lnum |>.not_gt
    simp [UbiScan.ioValidateVidHdr,hlnum,UBI_LAYOUT_VOLUME_ID,UbiScan.UBI_INTERNAL_VOL_START,
      UbiScan.UBI_MAX_VOLUMES,UbiScan.UBI_COMPAT_REJECT,UbiScan.UBI_VID_DYNAMIC,
      UbiScan.UBI_VID_STATIC,imageDevice]

/-- All allocations, reads and writes succeed, and a table of empty records is read. -/
def imageEnv : Env imageDevice where
  vmalloc := fun _ => true
  readRes := fun _ => .ok
  data := fun _ => emptyTable 2 344
  create := fun _ =>
    ⟨true,fun _ _ => 0,fun _ => 0,fun _ => 0,⟨true,true,true,true⟩,imageReads 0⟩
  volumes := true

/-- The scanning information of an image. -/
def imageScan (lnum : ℕ) : Except ℤ Scan :=
  ubiScan imageDevice Rebalance.none (imageReads lnum) (fun _ => ⟨true,true,true,true⟩) true 77 {}

theorem safe_iff_twoLebs_example :
    ∃ st,imageScan 1=.ok st∧(Safe ⟨1,512,1,2,true,1,0⟩ Rebalance.none imageEnv true st.si ↔
      TwoLebs imageEnv st.si) :=
  ⟨_,rfl,safe_iff_twoLebs _ _ _ _ _ rfl⟩

/-- A LEB number that a scan accepts leads outside of the arrays. -/
theorem leb_outside : ∃ st,imageScan 5=.ok st∧
    ubiReadVolumeTable ⟨1,512,1,2,true,1,0⟩ Rebalance.none imageEnv true st.si=none∧
    ¬Safe ⟨1,512,1,2,true,1,0⟩ Rebalance.none imageEnv true st.si := by
  have hread : ((imageScan 5).map fun st =>
      (ubiReadVolumeTable ⟨1,512,1,2,true,1,0⟩ Rebalance.none imageEnv true st.si).isNone).toOption=
        some true := by decide +kernel
  cases hst : imageScan 5 with
  | error err =>
    rw [hst] at hread
    cases hread
  | ok st =>
    rw [hst] at hread
    have hnone := Option.isNone_iff_eq_none.mp (Option.some.inj hread)
    refine ⟨st,rfl,hnone,?_⟩
    intro ⟨r,hr,_⟩
    rw [hnone] at hr
    cases hr

end ArdroneKernel.UbiLayoutVolume
