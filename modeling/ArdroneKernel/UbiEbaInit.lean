import ArdroneKernel.UbiAttach
import Mathlib.Tactic.IntervalCases

/-!
# EBA tables after a scan

Executable model of `ubi_eba_init_scan` in `drivers/mtd/ubi/eba.c`, which fills
the EBA tables from the trees of the scanning information, and of
`ubi_scan_move_to_list` in `scan.h`. A write outside of a table has no outcome.
-/

namespace ArdroneKernel.UbiEbaInit

open UbiVolumeOps UbiAttach SearchTree
open UbiScan (ScanInfo ScanVolume ScanLeb volTurn lebTurn)

/-- What the EBA sub-system is initialized with. -/
structure EbaInit where
  /-- `eba_tbl` of the volumes. -/
  tables : ℕ → Option (List ℤ)
  /-- The scanning information. -/
  si : ScanInfo
  /-- `global_sqnum`. -/
  globalSqnum : ℕ

/-- `ubi_scan_move_to_list`, to the list of eraseblocks to be erased. -/
def scanMoveToErase (rb : Rebalance) (si : ScanInfo) (sv : ScanVolume) (seb : ScanLeb) : ScanInfo :=
  { si.setVolume sv.volId { sv with root := rb.run (sv.root.remove (lebTurn seb.lnum)) } with
    erase := si.erase++[seb] }

/-- An entry of an EBA table is written. -/
def writeEntry (tbl : List ℤ) (lnum pnum : ℤ) : Option (List ℤ) :=
  if 0≤lnum∧lnum<tbl.length then some (tbl.set lnum.toNat pnum) else none

/-- The loop over the tree of a volume. A LEB that was moved to the list of
those to be erased is written all the same, before the next one is looked for. -/
def fillTable (rb : Rebalance) (vol : Volume) (volId : ℤ) :
    List ScanLeb → List ℤ → ScanInfo → Option (List ℤ×ScanInfo)
  | [], tbl, si => some (tbl,si)
  | seb::sebs, tbl, si =>
    let si := if seb.lnum≥vol.reservedPebs.toInt then
        match scanFindSv si volId with
        | some sv => scanMoveToErase rb si sv seb
        | none => si
      else si
    (writeEntry tbl seb.lnum seb.pnum).bind fun tbl => fillTable rb vol volId sebs tbl si

/-- A table without any LEB. -/
def unmappedTable (vol : Volume) : List ℤ :=
  List.replicate vol.reservedPebs.toNatClampNeg UBI_LEB_UNMAPPED

/-- The loop over the volumes, up to the first allocation that fails. -/
def initLoop (d : Device) (rb : Rebalance) (volumes : ℕ → Option Volume) (kmalloc : ℕ → Bool) :
    List ℕ → EbaInit → Option (ℤ×EbaInit)
  | [], st => some (0,st)
  | i::is, st =>
    match volumeAt d volumes i with
    | none => initLoop d rb volumes kmalloc is st
    | some vol =>
      if ¬kmalloc i then some (-ENOMEM,st)
      else
        (fillTable rb vol (idx2volId d i) (scanLebs d st.si i) (unmappedTable vol) st.si).bind
          fun (tbl,si) => initLoop d rb volumes kmalloc is
            { st with tables := Function.update st.tables i (some tbl), si := si }

/-- `ubi_eba_init_scan`. -/
def ubiEbaInitScan (d : Device) (rb : Rebalance) (volumes : ℕ → Option Volume)
    (kmalloc : ℕ → Bool) (si : ScanInfo) (c : Counts) : Option (ℤ×EbaInit×Counts) :=
  (initLoop d rb volumes kmalloc (List.range (d.vtblSlots+UBI_INT_VOL_COUNT))
    ⟨fun _ => none,si,si.maxSqnum+1⟩).map fun (err,st) =>
    if err≠0 then (err,{ st with tables := fun _ => none },c)
    else
      match ebaReserve d c with
      | .error err => (err,{ st with tables := fun _ => none },c)
      | .ok c => (0,st,c)

variable {d : Device} {rb : Rebalance} {volumes : ℕ → Option Volume} {kmalloc : ℕ → Bool}
  {si : ScanInfo} {vol : Volume} {volId : ℤ} {sebs : List ScanLeb} {tbl tbl' : List ℤ}

/-! ## One table -/

/-- A LEB has a place in the table of a volume. -/
def Inside (vol : Volume) (seb : ScanLeb) : Prop := 0≤ seb.lnum∧seb.lnum<vol.reservedPebs.toInt

/-- The PEB of a LEB, when it is one of these. -/
def scannedPeb (sebs : List ScanLeb) (lnum : ℕ) : Option ℤ :=
  (sebs.find? fun seb => seb.lnum=(lnum : ℤ)).map fun seb => seb.pnum

theorem unmappedTable_length (vol : Volume) :
    (unmappedTable vol).length=vol.reservedPebs.toInt.toNat := List.length_replicate

theorem inside_iff (hlen : tbl.length=vol.reservedPebs.toInt.toNat) (seb : ScanLeb) :
    0≤ seb.lnum∧seb.lnum<tbl.length ↔ Inside vol seb := by
  unfold Inside
  omega

/-- Without a LEB beyond the end no LEB is moved, and the table holds the last
of the LEBs of a number. -/
theorem fillTable_inside (rb : Rebalance) (volId : ℤ) (si : ScanInfo) (hlen : tbl.length=vol.reservedPebs.toInt.toNat)
    (hin : ∀ seb∈sebs,Inside vol seb) (hord : sebs.Pairwise fun a b => a.lnum<b.lnum) :
    ∃ tbl',fillTable rb vol volId sebs tbl si=some (tbl',si)∧tbl'.length=tbl.length∧
      ∀ l<tbl.length,tbl'.getD l UBI_LEB_UNMAPPED=
        (scannedPeb sebs l).getD (tbl.getD l UBI_LEB_UNMAPPED) := by
  induction sebs generalizing tbl with
  | nil => exact ⟨tbl,rfl,rfl,fun _ _ => rfl⟩
  | cons seb sebs ih =>
    have hseb := hin seb List.mem_cons_self
    have hset : (tbl.set seb.lnum.toNat (seb.pnum : ℤ)).length=tbl.length := List.length_set
    have ⟨tbl',hrun,hlen',hget⟩ := ih (hset.trans hlen)
      (fun s hs => hin s (List.mem_cons_of_mem _ hs)) (List.pairwise_cons.mp hord).2
    refine ⟨tbl',?_,hlen'.trans hset,fun l hl => ?_⟩
    · unfold fillTable writeEntry
      have hlt := hseb.2
      rw [if_neg (by omega),if_pos ((inside_iff hlen seb).mpr hseb),Option.bind_some]
      exact hrun
    · rw [hget l (by rw [hset]; exact hl)]
      unfold scannedPeb
      have h0 := hseb.1
      by_cases heq : seb.lnum=l
      · -- no later LEB has this number
        have hnone : sebs.find? (fun s => s.lnum=(l : ℤ))=none := by
          rw [List.find?_eq_none]
          intro s hs hsl
          have hlt := (List.pairwise_cons.mp hord).1 s hs
          have hsl := of_decide_eq_true hsl
          omega
        rw [hnone,List.find?_cons_of_pos (by simp [heq])]
        have hnat : seb.lnum.toNat=l := by omega
        rw [hnat]
        simp [List.getD_eq_getElem?_getD,hl]
      · have hnat : seb.lnum.toNat≠l := by omega
        rw [List.find?_cons_of_neg (by simp [heq]),List.getD_eq_getElem?_getD,
          List.getElem?_set_ne hnat,←List.getD_eq_getElem?_getD]

/-- With a LEB beyond the end, there is a write outside of the table. -/
theorem fillTable_outside (hlen : tbl.length=vol.reservedPebs.toInt.toNat)
    (hout : ¬∀ seb∈sebs,Inside vol seb) : fillTable rb vol volId sebs tbl si=none := by
  induction sebs generalizing tbl si with
  | nil => exact absurd nofun hout
  | cons seb sebs ih =>
    unfold fillTable writeEntry
    by_cases hseb : Inside vol seb
    · rw [if_pos ((inside_iff hlen seb).mpr hseb),Option.bind_some]
      refine ih (List.length_set.trans hlen) fun hall => hout fun s hs => ?_
      rcases List.mem_cons.mp hs with heq|hs
      · rw [heq]
        exact hseb
      · exact hall s hs
    · rw [if_neg (mt (inside_iff hlen seb).mp hseb),Option.bind_none]

/-! ## All tables -/

/-- The volumes whose tables are filled: those before the first allocation that fails. -/
def reached (d : Device) (volumes : ℕ → Option Volume) (kmalloc : ℕ → Bool) (is : List ℕ) :
    List ℕ := is.takeWhile fun i => (volumeAt d volumes i).isNone||kmalloc i

/-- No LEB of a volume is beyond its end. -/
def Fits (d : Device) (volumes : ℕ → Option Volume) (si : ScanInfo) (i : ℕ) : Prop :=
  ∀ vol,volumeAt d volumes i=some vol → ∀ seb∈scanLebs d si i,Inside vol seb

/-- The table of a volume is built: it holds the scanned LEBs. -/
def Built (d : Device) (volumes : ℕ → Option Volume) (si : ScanInfo)
    (tables : ℕ → Option (List ℤ)) (i : ℕ) : Prop :=
  ∀ vol,volumeAt d volumes i=some vol → ∃ tbl,tables i=some tbl∧
    tbl.length=vol.reservedPebs.toInt.toNat∧
    ∀ l<vol.reservedPebs.toInt.toNat,tbl.getD l UBI_LEB_UNMAPPED=
      (scannedPeb (scanLebs d si i) l).getD UBI_LEB_UNMAPPED

/-- The trees of the volumes are ordered by LEB number. -/
def Ordered (d : Device) (si : ScanInfo) : Prop :=
  ∀ i,(scanLebs d si i).Pairwise fun a b => a.lnum<b.lnum

theorem initLoop_fits (rb : Rebalance) (hord : Ordered d si) {is : List ℕ} (hnd : is.Nodup) (st : EbaInit)
    (hsi : st.si=si) (hfits : ∀ i∈reached d volumes kmalloc is,Fits d volumes si i) :
    ∃ err st',initLoop d rb volumes kmalloc is st=some (err,st')∧st'.si=si∧
      (∀ i∉is,st'.tables i=st.tables i)∧
      (err=0 → ∀ i∈is,Built d volumes si st'.tables i∧Fits d volumes si i) := by
  induction is generalizing st with
  | nil => exact ⟨0,st,rfl,hsi,fun _ _ => rfl,fun _ => nofun⟩
  | cons i is ih =>
    have ⟨hni,hnd'⟩ := List.nodup_cons.mp hnd
    unfold initLoop
    unfold reached at hfits
    cases hvol : volumeAt d volumes i with
    | none =>
      rw [List.takeWhile_cons_of_pos (by rw [hvol]; rfl)] at hfits
      have ⟨err,st',hrun,hsi',hold,hok⟩ := ih hnd' st hsi fun j hj =>
        hfits j (List.mem_cons_of_mem _ hj)
      refine ⟨err,st',hrun,hsi',fun j hj => hold j (fun h => hj (List.mem_cons_of_mem _ h)),
        fun herr j hj => ?_⟩
      rcases List.mem_cons.mp hj with heq|hj
      · rw [heq]
        have hno : ∀ vol,volumeAt d volumes i≠some vol := fun vol hv => by
          rw [hvol] at hv
          cases hv
        exact ⟨fun vol hv => absurd hv (hno vol),fun vol hv => absurd hv (hno vol)⟩
      · exact hok herr j hj
    | some vol =>
      dsimp only
      by_cases hk : kmalloc i=true
      · rw [if_neg (not_not.mpr hk)]
        rw [List.takeWhile_cons_of_pos (by rw [hk,Bool.or_true])] at hfits
        have hlebs := hfits i List.mem_cons_self vol hvol
        have ⟨tbl,hfill,hlen,hget⟩ := fillTable_inside rb (idx2volId d i) si
          (unmappedTable_length vol) hlebs (hord i)
        rw [hsi,hfill,Option.bind_some]
        have ⟨err,st',hrun,hsi',hold,hok⟩ := ih hnd' { st with
          tables := Function.update st.tables i (some tbl), si := si } rfl fun j hj =>
            hfits j (List.mem_cons_of_mem _ hj)
        refine ⟨err,st',hrun,hsi',fun j hj => ?_,fun herr j hj => ?_⟩
        · rw [hold j fun h => hj (List.mem_cons_of_mem _ h)]
          exact Function.update_of_ne (fun h : j=i => hj (List.mem_cons.mpr (Or.inl h))) _ _
        · rcases List.mem_cons.mp hj with heq|hj
          · rw [heq]
            refine ⟨fun vol' hv => ?_,hfits i List.mem_cons_self⟩
            rw [hvol] at hv
            rw [←Option.some.inj hv]
            refine ⟨tbl,?_,hlen.trans (unmappedTable_length vol),fun l hl => ?_⟩
            · rw [hold i hni]
              exact Function.update_self _ _ _
            · rw [hget l (by rw [unmappedTable_length]; exact hl)]
              unfold unmappedTable
              rw [List.getD_eq_getElem?_getD,List.getElem?_replicate]
              split_ifs <;> rfl
          · exact hok herr j hj
      · rw [if_pos hk]
        exact ⟨-ENOMEM,st,rfl,hsi,fun _ _ => rfl,fun herr => by cases herr⟩

theorem initLoop_outside {is : List ℕ} {st : EbaInit} (hsi : st.si=si)
    (hord : Ordered d si) (hout : ¬∀ i∈reached d volumes kmalloc is,Fits d volumes si i) :
    initLoop d rb volumes kmalloc is st=none := by
  induction is generalizing st with
  | nil => exact absurd nofun hout
  | cons i is ih =>
    unfold initLoop
    unfold reached at hout
    cases hvol : volumeAt d volumes i with
    | none =>
      rw [List.takeWhile_cons_of_pos (by rw [hvol]; rfl)] at hout
      refine ih hsi fun hall => hout fun j hj => ?_
      rcases List.mem_cons.mp hj with heq|hj
      · rw [heq]
        intro vol hv
        rw [hvol] at hv
        cases hv
      · exact hall j hj
    | some vol =>
      dsimp only
      by_cases hk : kmalloc i=true
      · rw [if_neg (not_not.mpr hk),hsi]
        rw [List.takeWhile_cons_of_pos (by rw [hk,Bool.or_true])] at hout
        by_cases hlebs : ∀ seb∈scanLebs d si i,Inside vol seb
        · have ⟨tbl,hfill,_⟩ := fillTable_inside rb (idx2volId d i) si
            (unmappedTable_length vol) hlebs (hord i)
          rw [hfill,Option.bind_some]
          refine ih rfl fun hall => hout fun j hj => ?_
          rcases List.mem_cons.mp hj with heq|hj
          · rw [heq]
            intro vol' hv
            rw [hvol] at hv
            rw [←Option.some.inj hv]
            exact hlebs
          · exact hall j hj
        · rw [fillTable_outside (unmappedTable_length vol) hlebs,Option.bind_none]
      · rw [List.takeWhile_cons_of_neg (by rw [hvol]; simpa using hk)] at hout
        exact absurd nofun hout

/-! ## The claim of the function -/

/-- What `ubi_eba_init_scan` is for: no write is outside of a table, and after
success the tables hold the scanned LEBs, and the LEBs beyond the end of a
volume are among those to be erased and not in its tree any more. -/
def Right (d : Device) (rb : Rebalance) (volumes : ℕ → Option Volume) (kmalloc : ℕ → Bool)
    (si : ScanInfo) (c : Counts) : Prop :=
  ∃ err st c',ubiEbaInitScan d rb volumes kmalloc si c=some (err,st,c')∧
    (err=0 → ∀ i<d.vtblSlots+UBI_INT_VOL_COUNT,Built d volumes si st.tables i∧
      ∀ vol,volumeAt d volumes i=some vol → ∀ seb∈scanLebs d si i,
        vol.reservedPebs.toInt≤ seb.lnum → seb∈st.si.erase∧seb∉scanLebs d st.si i)

theorem find_mem {α : Type} {dir : α → Turn} {t : SearchTree.Tree α} {a : α} (h : t.find dir=some a) :
    a∈t.toList := by
  have ⟨l1,l2,hl,_⟩ := Tree.update_split h
  rw [hl]
  exact List.mem_append_right _ List.mem_cons_self

theorem ordered_of (hord : ∀ sv∈si.volumes.toList,sv.root.toList.Pairwise
    fun a b => a.lnum<b.lnum) : Ordered d si := by
  intro i
  unfold scanLebs
  cases hsv : scanFindSv si (idx2volId d i) with
  | none => exact List.Pairwise.nil
  | some sv => exact hord sv (find_mem hsv)

theorem ebaReserve_ne (d : Device) (c : Counts) : ebaReserve d c≠.error 0 := by
  intro h
  unfold ebaReserve at h
  split_ifs at h
  cases Except.error.inj h

/-- The tables are built right, inside of their bounds, exactly when no LEB
that was scanned is beyond the end of a volume whose table is filled. -/
theorem right_iff_fits (c : Counts) (hord : ∀ sv∈si.volumes.toList,sv.root.toList.Pairwise
    fun a b => a.lnum<b.lnum) : Right d rb volumes kmalloc si c ↔
      ∀ i∈reached d volumes kmalloc (List.range (d.vtblSlots+UBI_INT_VOL_COUNT)),
        Fits d volumes si i := by
  have hordered := ordered_of (d := d) hord
  constructor
  · intro ⟨err,st,c',hrun,_⟩
    by_contra hout
    unfold ubiEbaInitScan at hrun
    rw [initLoop_outside rfl hordered hout] at hrun
    cases hrun
  · intro hfits
    have ⟨err,st,hrun,hsi,_,hok⟩ := initLoop_fits rb hordered List.nodup_range
      ⟨fun _ => none,si,si.maxSqnum+1⟩ rfl hfits
    unfold Right ubiEbaInitScan
    rw [hrun,Option.map_some]
    dsimp only
    by_cases herr : err=0
    · rw [if_neg (not_not.mpr herr)]
      cases hres : ebaReserve d c with
      | error e => exact ⟨e,_,c,rfl,fun he => absurd hres (by rw [he]; exact ebaReserve_ne d c)⟩
      | ok c' =>
        refine ⟨0,st,c',rfl,fun _ i hi => ?_⟩
        have ⟨hbuilt,hfit⟩ := hok herr i (List.mem_range.mpr hi)
        refine ⟨hbuilt,fun vol hv seb hseb hle => ?_⟩
        have hin := hfit vol hv seb hseb
        exact absurd hin.2 (not_lt.mpr hle)
    · rw [if_pos herr]
      exact ⟨err,_,c,rfl,fun he => absurd he herr⟩

/-- A device with a slot for one volume. -/
def oneSlot : Device := ⟨8,100,1,1,false,2,0⟩

/-- A volume of one eraseblock. -/
def oneLeb (i : ℕ) : Option Volume :=
  if i=0 then some ⟨1,.dynamic,1,0,100,1,[97],0,0⟩ else none

/-- A scan that found one LEB of the volume. -/
def scannedLeb (lnum : ℤ) : ScanInfo :=
  { volumes := .node .nil ⟨0,lnum,1,true,0,100,0,0,.node .nil ⟨1,5,lnum,false,false,3⟩ .nil⟩ .nil }

def freePebs : Counts := ⟨4,4,0,0,8,0,0⟩

theorem scannedLeb_ordered (lnum : ℤ) : ∀ sv∈(scannedLeb lnum).volumes.toList,
    sv.root.toList.Pairwise fun a b => a.lnum<b.lnum := by
  intro sv hsv
  rw [List.mem_singleton.mp hsv]
  exact List.pairwise_singleton _ _

/-- LEB 0 of the volume goes into its table. -/
theorem right_iff_fits_example :
    Right oneSlot Rebalance.none oneLeb (fun _ => true) (scannedLeb 0) freePebs := by
  refine (right_iff_fits freePebs (scannedLeb_ordered 0)).mpr fun i hi vol hv seb hseb => ?_
  have hlt : i<2 := List.mem_range.mp ((List.takeWhile_sublist _).subset hi)
  interval_cases i
  · have hvol : vol=⟨1,.dynamic,1,0,100,1,[97],0,0⟩ := (Option.some.inj hv).symm
    have hleb : seb=⟨1,5,0,false,false,3⟩ := List.mem_singleton.mp hseb
    rw [hvol,hleb]
    exact ⟨by decide,by decide⟩
  · cases hseb

/-- A re-size to one eraseblock was cut short and LEB 1 is still there: its entry is
written behind the end of the table. -/
theorem surplus_written : ¬∀ (d : Device) (rb : Rebalance) (volumes : ℕ → Option Volume)
    (kmalloc : ℕ → Bool) (si : ScanInfo) (c : Counts),
    (∀ sv∈si.volumes.toList,sv.root.toList.Pairwise fun a b => a.lnum<b.lnum) →
    Right d rb volumes kmalloc si c := by
  intro h
  have ⟨err,st,c',hrun,_⟩ := h oneSlot Rebalance.none oneLeb (fun _ => true) (scannedLeb 1)
    freePebs (scannedLeb_ordered 1)
  have hnone : (ubiEbaInitScan oneSlot Rebalance.none oneLeb (fun _ => true) (scannedLeb 1)
      freePebs).isNone=true := by decide +kernel
  rw [hrun] at hnone
  cases hnone

end ArdroneKernel.UbiEbaInit
