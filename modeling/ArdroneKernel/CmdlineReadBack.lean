import ArdroneKernel.CmdlineText
import Mathlib.Data.List.Forall2
import Mathlib.Data.List.GetD

/-!
# What the command line builds

Every name, description and partition that is written lies in the memory that is
allocated, as long as its size has 32 bits, and the partitions built from the text of
definitions are those of the definitions, as long as sizes and offsets have 32 bits and
generated names their place.
-/

namespace ArdroneKernel.CmdlineReadBack

open CmdlineParts CmdlineText

/-! ## What is written -/

variable {s : List Char} {i e : ℕ} {b : Built} {name : Option (List Char)}

theorem length_generated (i : ℕ) :
    (generated i).length=10+(3-(Nat.toDigits 10 i).length)+(Nat.toDigits 10 i).length := by
  unfold generated pad3
  rw [List.length_append,List.length_append,List.length_replicate,Nat.add_assoc]
  rfl

theorem length_digits_le (i : ℕ) : (Nat.toDigits 10 i).length≤ i+3 :=
  (Nat.length_toDigits_le_iff (by decide) (by omega)).mpr
    (Nat.lt_of_lt_of_le (Nat.lt_pow_self (by decide)) (Nat.pow_le_pow_right (by decide) (by omega)))

/-- What is true before the last but so many partitions are entered. A generated name may
go beyond its place, but by less than the places that follow. -/
structure Inside (k e : ℕ) (b : Built) : Prop where
  needed : b.needed=b.extraMem+e
  array : k*PARTITION_SIZE≤b.extraMem
  writes : ∀ w∈b.writes,w.1+w.2≤b.extraMem+k

theorem Inside.enter (h : Inside (i+1) (e+nameLen name+1) b) (size offset maskFlags : ℕ) :
    Inside i e (enterPart i size offset maskFlags name b) where
  needed := by
    have := h.needed
    unfold enterPart
    dsimp only
    omega
  array := by
    have := h.array
    unfold enterPart PARTITION_SIZE at *
    dsimp only
    omega
  writes := by
    intro w hw
    have harray := h.array
    unfold enterPart at *
    dsimp only at *
    unfold PARTITION_SIZE at *
    rcases List.mem_cons.mp hw with rfl|hw
    · rw [List.length_append,List.length_singleton]
      cases name with
      | none =>
        have := length_generated i
        have := length_digits_le i
        change b.extraMem+((generated i).length+1)≤b.extraMem+13+1+i
        omega
      | some t =>
        change b.extraMem+(t.length+1)≤b.extraMem+t.length+1+i
        omega
    · rcases List.mem_cons.mp hw with rfl|hw
      · omega
      · have := h.writes w hw
        omega

theorem newpart_inside {kzalloc : Bool} {fuel : ℕ} (h : newpart kzalloc fuel s i e=some b) :
    Inside i e b := by
  induction fuel generalizing s i e b with
  | zero => cases h
  | succ fuel ih =>
    rw [newpart] at h
    split at h
    · cases h
    dsimp only at h
    split at h
    · cases h
    obtain ⟨b',hb',heq⟩ := Option.map_eq_some_iff.mp h
    subst heq
    refine Inside.enter ?_ _ _ _
    split at hb'
    · split at hb'
      · cases hb'
      · exact ih hb'
    · unfold allocParts at hb'
      split at hb'
      · cases hb'
        exact ⟨rfl,Nat.le_refl _,fun _ => nofun⟩
      · cases hb'

/-- The memory of a device is used up to its end, or nearly so. -/
structure Used (d : CmdlineMtdPartition) : Prop where
  inside : ∀ w∈d.writes,w.1+w.2≤d.needed
  last : ∃ w∈d.writes,d.needed<w.1+w.2+4

theorem enterDevice_used {id : List Char}
    (h : Inside 0 (id.length+1+DEVICE_SIZE+(POINTER_SIZE-1)) b) : Used (enterDevice id b) := by
  have hneeded := h.needed
  unfold DEVICE_SIZE POINTER_SIZE at hneeded
  constructor
  · intro w hw
    unfold enterDevice DEVICE_SIZE POINTER_SIZE at *
    dsimp only at *
    rcases List.mem_cons.mp hw with rfl|hw
    · omega
    · rcases List.mem_cons.mp hw with rfl|hw
      · omega
      · have := h.writes w hw
        omega
  · refine ⟨_,List.mem_cons_self,?_⟩
    unfold enterDevice DEVICE_SIZE POINTER_SIZE
    dsimp only
    omega

theorem setup_used (kzalloc : ℕ → Bool) (cmdline : Option (List Char)) :
    ∀ d∈(mtdpartSetupReal kzalloc cmdline).2,Used d := by
  cases cmdline with
  | none => exact fun _ => nofun
  | some s =>
    exact setupLoop_forall (fun _ _ _ _ _ hb => enterDevice_used (newpart_inside hb)) fun _ => nofun

/-- The memory that is allocated is enough exactly when its size has 32 bits. -/
theorem Used.inside_iff {d : CmdlineMtdPartition} (h : Used d) :
    (∀ w∈d.writes,w.1+w.2≤d.allocSize) ↔ d.needed<2^32 := by
  have ⟨w,hw,hlast⟩ := h.last
  unfold CmdlineMtdPartition.allocSize
  constructor
  · intro hin
    have := hin w hw
    omega
  · intro hlt w hw
    rw [Nat.mod_eq_of_lt hlt]
    exact h.inside w hw

/-! ## Names in memory -/

/-- A text ended by a zero is in memory. -/
def Holds (mem : ℕ → Char) (a : ℕ) (text : List Char) : Prop :=
  ∀ x≤text.length,mem (a+x)=text.getD x '\x00'

/-- A partition's name, given or generated. -/
def nameOf (i : ℕ) (p : PartDef) : List Char := p.name.getD (generated i)

/-- What is left of a name in its place. -/
def Slot (mem : ℕ → Char) (i : ℕ) (p : PartDef) (a : ℕ) : Prop :=
  ∀ x≤nameLen p.name,mem (a+x)=(nameOf i p).getD x '\x00'

variable {mem mem' : ℕ → Char} {a x : ℕ} {t u : List Char} {p : PartDef}
  {parts : List PartDef} {built : List MtdPartition}

theorem nameLen_le (i : ℕ) (p : PartDef) : nameLen p.name≤ (nameOf i p).length := by
  unfold nameOf nameLen
  cases p.name with
  | none =>
    have := length_generated i
    change 13≤ (generated i).length
    omega
  | some t => exact Nat.le_refl _

theorem getD_zero_end (t : List Char) (x : ℕ) : (t++['\x00']).getD x '\x00'=t.getD x '\x00' := by
  by_cases hx : x<t.length
  · exact List.getD_append _ _ _ _ hx
  · have hle := Nat.le_of_not_lt hx
    rw [List.getD_append_right _ _ _ _ hle,List.getD_eq_default _ _ hle]
    cases x-t.length <;> rfl

theorem store_at (hx : x≤t.length) : store mem a (t++['\x00']) (a+x)=t.getD x '\x00' := by
  unfold store
  rw [if_pos,Nat.add_sub_cancel_left,getD_zero_end]
  rw [List.length_append,List.length_singleton]
  omega

theorem store_before {y : ℕ} (hy : y<a) : store mem a t y=mem y := if_neg (by omega)

/-- A text in memory is the only one there. -/
theorem holds_unique (ht : Holds mem a t) (hu : Holds mem a u) (hzt : '\x00'∉t) (hzu : '\x00'∉u) :
    t=u := by
  have longer : ∀ t u : List Char,Holds mem a t → Holds mem a u → '\x00'∉u →
      u.length≤t.length := by
    intro t u ht hu hz
    refine Nat.le_of_not_lt fun hlt => hz ?_
    have hend := (ht t.length (Nat.le_refl _)).symm.trans (hu t.length (Nat.le_of_lt hlt))
    rw [List.getD_eq_default _ _ (Nat.le_refl _),List.getD_eq_getElem _ _ hlt] at hend
    exact hend▸List.getElem_mem hlt
  have hlen := Nat.le_antisymm (longer u t hu ht hzt) (longer t u ht hu hzu)
  refine List.ext_getElem hlen fun x hx hx' => ?_
  have := (ht x (Nat.le_of_lt hx)).symm.trans (hu x (Nat.le_of_lt hx'))
  rwa [List.getD_eq_getElem _ _ hx,List.getD_eq_getElem _ _ hx'] at this

/-- The digits of a number that have no place in a generated name. -/
def excess (i : ℕ) : List Char := (Nat.toDigits 10 i).drop 4

theorem excess_digit {c : Char} (h : c∈excess i) : c.isDigit=true :=
  Nat.isDigit_of_mem_toDigits (by decide) (by decide) (List.mem_of_mem_drop h)

theorem generated_short (hi : i<1000) : (generated i).length=13 := by
  have hlen := length_generated i
  have := (Nat.length_toDigits_le_iff (b := 10) (n := i) (k := 3) (by decide) (by decide)).mpr hi
  omega

theorem generated_long (hi : 1000≤ i) : (generated i).drop 14=excess i∧
    (generated i).length=14+(excess i).length := by
  have hlen : ¬(Nat.toDigits 10 i).length≤3 := fun h =>
    absurd ((Nat.length_toDigits_le_iff (b := 10) (by decide) (by decide)).mp h) (by omega)
  have hgen := length_generated i
  have hdrop : (generated i).drop 14=excess i := by
    unfold generated pad3 excess
    rw [Nat.sub_eq_zero_of_le (by omega),List.replicate_zero,List.nil_append]
    rfl
  refine ⟨hdrop,?_⟩
  have := congrArg List.length hdrop
  rw [List.length_drop] at this
  omega

/-- What comes before a partition, and where its name begins. -/
def Before (mem : ℕ → Char) : Option PartDef → ℕ → ℕ → Prop
  | none,i,_ => i=0
  | some p,i,a => 0< i∧Slot mem (i-1) p a

/-- A generated name that has no place is right when the name that is written over its
end is the same. -/
theorem holds_iff {prev : Option PartDef} (hslot : Slot mem i p a)
    (hprev : Before mem prev i (a+nameLen p.name+1)) (hzero : ∀ p'∈prev,∀ t∈p'.name,'\x00'∉t) :
    Holds mem a (nameOf i p) ↔
      (p.name=none → 1000≤ i → prev.bind PartDef.name=some (excess i)) := by
  unfold Slot nameOf at hslot
  unfold nameOf
  cases hname : p.name with
  | some t =>
    rw [hname] at hslot
    exact ⟨fun _ => nofun,fun _ => hslot⟩
  | none =>
    rw [hname] at hslot hprev
    change ∀ x≤13,mem (a+x)=(generated i).getD x '\x00' at hslot
    change Holds mem a (generated i) ↔ _
    rcases Nat.lt_or_ge i 1000 with hi|hi
    · refine ⟨fun _ _ hle => absurd hi (Nat.not_lt.mpr hle),fun _ => ?_⟩
      intro x hx
      rw [generated_short hi] at hx
      exact hslot x hx
    · have ⟨hdrop,hlen⟩ := generated_long hi
      have htail : Holds mem a (generated i) ↔ Holds mem (a+14) (excess i) := by
        have hget : ∀ x,(excess i).getD x '\x00'=(generated i).getD (14+x) '\x00' := by
          intro x
          rw [←hdrop,List.getD_eq_getElem?_getD,List.getElem?_drop,List.getD_eq_getElem?_getD]
        constructor
        · intro h x hx
          rw [hget,Nat.add_assoc]
          exact h _ (by omega)
        · intro h x hx
          rcases Nat.lt_or_ge x 14 with hlt|hge
          · exact hslot x (by omega)
          · have := h (x-14) (by omega)
            rwa [hget,Nat.add_assoc,Nat.add_sub_cancel' hge] at this
      have hdigits : '\x00'∉excess i := fun h => absurd (excess_digit h) (by decide)
      refine htail.trans ⟨fun h _ _ => ?_,fun h => ?_⟩
      · cases prev with
        | none => exact absurd hprev (by unfold Before; omega)
        | some p' =>
          have hprev : Slot mem (i-1) p' (a+14) := hprev.2
          unfold Slot nameOf at hprev
          change p'.name=some (excess i)
          cases hname' : p'.name with
          | some t =>
            rw [hname'] at hprev
            exact congrArg some (holds_unique hprev h (hzero p' rfl t hname') hdigits)
          | none =>
            -- a generated name begins with a letter
            rw [hname'] at hprev
            have hletter : mem (a+14+0)= 'P' := hprev 0 (Nat.zero_le _)
            have hfirst := (h 0 (Nat.zero_le _)).symm.trans hletter
            cases hex : excess i with
            | nil =>
              rw [hex] at hfirst
              cases hfirst
            | cons c l =>
              rw [hex] at hfirst
              have hc : c= 'P' := hfirst
              have := excess_digit (hex▸List.mem_cons_self : c∈excess i)
              rw [hc] at this
              cases this
      · have hbind := h rfl hi
        cases prev with
        | none => cases hbind
        | some p' =>
          have hname' : p'.name=some (excess i) := hbind
          have hprev : Slot mem (i-1) p' (a+14) := hprev.2
          unfold Slot nameOf at hprev
          rw [hname'] at hprev
          exact hprev

/-! ## Partitions of a device -/

/-- Partitions as they were entered, each name before that of the partition before. -/
def Entered (mem : ℕ → Char) : ℕ → ℕ → List PartDef → List MtdPartition → Prop
  | _,_,[],[] => True
  | i,stop,p::parts,q::built =>
    (q.size=p.sizeField%2^32∧q.offset=p.offsetField%2^32∧q.maskFlags=p.flags)∧
      q.name+nameLen p.name+1=stop∧Slot mem i p q.name∧Entered mem (i+1) q.name parts built
  | _,_,_,_ => False

/-- The partitions are those of the definitions. -/
def PartsRead (mem : ℕ → Char) : ℕ → List PartDef → List MtdPartition → Prop
  | _,[],[] => True
  | i,p::parts,q::built =>
    (q.size=p.sizeField∧q.offset=p.offsetField∧q.maskFlags=p.flags∧Holds mem q.name (nameOf i p))∧
      PartsRead mem (i+1) parts built
  | _,_,_ => False

/-- Sizes and offsets have 32 bits, only the last size may look like that of a fill-up
partition, and the part of a generated name that has no place is the name of the partition
before. -/
def Readable : Option PartDef → ℕ → List PartDef → Prop
  | _,_,[] => True
  | prev,i,p::parts =>
    (p.sizeField<2^32∧(parts≠[] → p.sizeField≠SIZE_REMAINING)∧p.offsetField<2^32∧
      (p.name=none → 1000≤ i → prev.bind PartDef.name=some (excess i)))∧
      Readable (some p) (i+1) parts

/-- The sizes with which a definition is not refused. -/
def Sized : List PartDef → Prop
  | [] => True
  | p::parts => (PAGE_SIZE≤p.sizeField%2^32∧
      (parts≠[] → p.sizeField%2^32≠SIZE_REMAINING))∧Sized parts

theorem Entered.congr {stop : ℕ} (h : Entered mem i stop parts built)
    (hmem : ∀ x<stop,mem' x=mem x) : Entered mem' i stop parts built := by
  induction parts generalizing i stop built with
  | nil =>
    cases built with
    | nil => trivial
    | cons q built => exact h
  | cons p parts ih =>
    cases built with
    | nil => exact h
    | cons q built =>
      have ⟨hfields,hstop,hslot,hrest⟩ := h
      refine ⟨hfields,hstop,fun x hx => ?_,ih hrest fun x hx => hmem x (by omega)⟩
      exact (hmem _ (by omega)).trans (hslot x hx)

theorem Entered.enter (h : Entered b.mem (i+1) b.extraMem parts b.parts) (p : PartDef) :
    let b' := enterPart i (p.sizeField%2^32) (p.offsetField%2^32) p.flags p.name b
    Entered b'.mem i b'.extraMem (p::parts) b'.parts := by
  refine ⟨⟨rfl,rfl,rfl⟩,rfl,fun x hx => ?_,h.congr fun x hx => store_before hx⟩
  exact store_at (Nat.le_trans hx (nameLen_le i p))

/-- What is built when nothing is refused. -/
theorem buildParts_entered (hparts : parts≠[]) (hsized : Sized parts) :
    ∃ b,buildParts i e parts s=some b∧Entered b.mem i b.extraMem parts b.parts := by
  induction parts generalizing i e with
  | nil => exact absurd rfl hparts
  | cons p parts ih =>
    obtain ⟨⟨hpage,hlast⟩,hsized⟩ := hsized
    rw [buildParts,if_neg (Nat.not_lt.mpr hpage)]
    cases parts with
    | nil =>
      have hnone : ∀ (mem : ℕ → Char) (i stop : ℕ),Entered mem i stop [] [] := fun _ _ _ => trivial
      exact ⟨_,rfl,(hnone _ _ _).enter p⟩
    | cons q parts =>
      obtain ⟨b,hb,hent⟩ := ih (i := i+1) (e := e+nameLen p.name+1) (List.cons_ne_nil _ _) hsized
      dsimp only
      rw [if_neg (hlast (List.cons_ne_nil _ _)),hb]
      exact ⟨_,rfl,hent.enter p⟩

theorem buildParts_sized (h : buildParts i e parts s=some b) : Sized parts := by
  induction parts generalizing i e b with
  | nil => trivial
  | cons p parts ih =>
    rw [buildParts] at h
    by_cases hpage : p.sizeField%2^32<PAGE_SIZE
    · rw [if_pos hpage] at h
      cases h
    rw [if_neg hpage] at h
    obtain ⟨b',hb',_⟩ := Option.map_eq_some_iff.mp h
    have hpage := Nat.not_lt.mp hpage
    cases parts with
    | nil => exact ⟨⟨hpage,fun hne => absurd rfl hne⟩,trivial⟩
    | cons q parts =>
      split_ifs at hb' with hrem
      exact ⟨⟨hpage,fun _ => hrem⟩,ih hb'⟩

theorem sizeField_page (p : PartDef) : PAGE_SIZE≤p.sizeField := by
  have hpage := p.page
  unfold PartDef.sizeField
  cases hs : p.size with
  | none => exact (by decide : PAGE_SIZE≤SIZE_REMAINING)
  | some x => exact hpage x hs

theorem Readable.sized {prev : Option PartDef} (h : Readable prev i parts) : Sized parts := by
  induction parts generalizing prev i with
  | nil => trivial
  | cons p parts ih =>
    have ⟨⟨hlt,hlast,_,_⟩,hrest⟩ := h
    refine ⟨?_,ih hrest⟩
    rw [Nat.mod_eq_of_lt hlt]
    exact ⟨sizeField_page p,hlast⟩

/-- The partitions that were entered are read back exactly when the definitions allow it. -/
theorem partsRead_iff (prev : Option PartDef) {stop : ℕ} (hsized : Sized parts)
    (h : Entered mem i stop parts built) (hprev : Before mem prev i stop) :
    PartsRead mem i parts built ↔ Readable prev i parts := by
  induction parts generalizing i prev stop built with
  | nil =>
    cases built with
    | nil => exact Iff.rfl
    | cons q built => exact h.elim
  | cons p parts ih =>
    cases built with
    | nil => exact h.elim
    | cons q built =>
      have ⟨⟨_,hlast⟩,hsized⟩ := hsized
      have ⟨⟨hsize,hoffset,hflags⟩,hstop,hslot,hrest⟩ := h
      subst hstop
      have hname := holds_iff hslot hprev fun p' _ t ht => (p'.closed t ht).2
      have htail := ih (some p) hsized hrest ⟨Nat.succ_pos i,hslot⟩
      refine and_congr ?_ htail
      rw [hsize,hoffset,hname]
      constructor
      · rintro ⟨hs,ho,_,hn⟩
        have hlt : p.sizeField<2^32 := hs▸Nat.mod_lt _ (by decide)
        refine ⟨hlt,fun hne => ?_,ho▸Nat.mod_lt _ (by decide),hn⟩
        rw [←Nat.mod_eq_of_lt hlt]
        exact hlast hne
      · rintro ⟨hs,_,ho,hn⟩
        exact ⟨Nat.mod_eq_of_lt hs,Nat.mod_eq_of_lt ho,hflags,hn⟩

/-! ## Devices -/

/-- The device and its partitions are those of the definitions. -/
structure ReadsBack (d : DeviceDef) (c : CmdlineMtdPartition) : Prop where
  id : Holds c.mem c.mtdId d.id
  parts : PartsRead c.mem 0 d.parts c.parts

theorem readsBack_iff {d : DeviceDef} (hb : buildDevice d s=some b) :
    ReadsBack d (enterDevice d.id b) ↔ Readable none 0 d.parts := by
  have hsized := buildParts_sized hb
  have ⟨b',hb',hent⟩ := buildParts_entered (s := s) (i := 0)
    (e := d.id.length+1+DEVICE_SIZE+(POINTER_SIZE-1)) d.some hsized
  cases hb.symm.trans hb'
  have hent : Entered (enterDevice d.id b).mem 0 b.extraMem d.parts (enterDevice d.id b).parts := by
    refine hent.congr fun x hx => store_before ?_
    unfold POINTER_SIZE DEVICE_SIZE
    omega
  rw [←partsRead_iff none hsized hent rfl]
  exact ⟨ReadsBack.parts,fun h => ⟨fun x hx => store_at hx,h⟩⟩

/-- What follows the text of a device. -/
def tailText : List DeviceDef → List Char
  | [] => []
  | d::devices => ';'::devicesText (d::devices)

/-- The devices that are built from definitions. -/
def buildAll : List DeviceDef → Bool×List CmdlineMtdPartition
  | [] => (true,[])
  | d::devices =>
    match buildDevice d (tailText devices) with
    | none => (false,[])
    | some b =>
      let r := buildAll devices
      (r.1,enterDevice d.id b::r.2)

theorem setupLoop_all {devices : List DeviceDef} {fuel : ℕ} (hfuel : devices.length≤fuel)
    (hne : devices≠[]) (partitions : List CmdlineMtdPartition) :
    setupLoop (fun _ => true) fuel (devicesText devices) partitions=
      ((buildAll devices).1,(buildAll devices).2.reverse++partitions) := by
  induction devices generalizing fuel partitions with
  | nil => exact absurd rfl hne
  | cons d devices ih =>
    cases fuel with
    | zero => cases hfuel
    | succ fuel =>
      have htext : devicesText (d::devices)=d.text++tailText devices := by
        cases devices with
        | nil => exact (List.append_nil _).symm
        | cons e devices => rfl
      have hends : tailText devices=[]∨∃ t,tailText devices= ';'::t := by
        cases devices with
        | nil => exact .inl rfl
        | cons e devices => exact .inr ⟨_,rfl⟩
      rw [htext,setupLoop_text d fuel partitions hends,buildAll]
      cases hb : buildDevice d (tailText devices) with
      | none => rfl
      | some b =>
        dsimp only
        rw [buildParts_rest hb]
        cases devices with
        | nil => rfl
        | cons e devices =>
          have hrest := ih (Nat.le_of_succ_le_succ hfuel) nofun (enterDevice d.id b::partitions)
          refine hrest.trans ?_
          rw [List.reverse_cons,List.append_assoc]
          rfl

theorem buildAll_iff (devices : List DeviceDef) :
    (buildAll devices).1=true∧List.Forall₂ ReadsBack devices (buildAll devices).2 ↔
      ∀ d∈devices,Readable none 0 d.parts := by
  induction devices with
  | nil => exact ⟨fun _ _ => nofun,fun _ => ⟨rfl,.nil⟩⟩
  | cons d devices ih =>
    rw [List.forall_mem_cons,←ih,buildAll]
    cases hb : buildDevice d (tailText devices) with
    | none =>
      refine iff_of_false (fun h => nomatch h.1) fun h => ?_
      have ⟨b,hb',_⟩ := buildParts_entered (s := tailText devices) (i := 0)
        (e := d.id.length+1+DEVICE_SIZE+(POINTER_SIZE-1)) d.some h.1.sized
      cases hb.symm.trans hb'
    | some b =>
      rw [←readsBack_iff hb]
      rw [List.forall₂_cons]
      tauto

theorem length_devicesText (devices : List DeviceDef) :
    devices.length≤ (devicesText devices).length+1 := by
  induction devices with
  | nil => exact Nat.zero_le _
  | cons d devices ih =>
    cases devices with
    | nil => exact Nat.le_add_left _ _
    | cons e devices =>
      rw [devicesText]
      simp only [List.length_append,List.length_cons] at ih ⊢
      omega

/-- The text of definitions is accepted and read back exactly when sizes and offsets have 32
bits, no size but the last looks like that of a fill-up partition, and what exceeds the place
of a generated name is the name of the partition before. For every line, what is written
lies in the memory that is allocated exactly when its size has 32 bits. -/
theorem reads_back_iff {devices : List DeviceDef} (hne : devices≠[]) (kzalloc : ℕ → Bool)
    (s : List Char) :
    ((mtdpartSetupReal (fun _ => true) (some (devicesText devices))).1=true∧
      List.Forall₂ ReadsBack devices
        (mtdpartSetupReal (fun _ => true) (some (devicesText devices))).2.reverse ↔
      ∀ d∈devices,Readable none 0 d.parts)∧
    ((∀ d∈(mtdpartSetupReal kzalloc (some s)).2,∀ w∈d.writes,w.1+w.2≤d.allocSize) ↔
      ∀ d∈(mtdpartSetupReal kzalloc (some s)).2,d.needed<2^32) := by
  constructor
  · have hall : mtdpartSetupReal (fun _ => true) (some (devicesText devices))=
        ((buildAll devices).1,(buildAll devices).2.reverse++[]) :=
      setupLoop_all (length_devicesText devices) hne []
    rw [hall,List.append_nil,List.reverse_reverse]
    exact buildAll_iff devices
  · have hused := setup_used kzalloc (some s)
    exact forall₂_congr fun d hd => (hused d hd).inside_iff

/-- The first line of the examples in the source. -/
theorem reads_back_iff_example : ∃ d : DeviceDef,
    d.text="edb7312-nor:256k(ARMboot)ro,-(root)".toList∧
      (mtdpartSetupReal (fun _ => true) (some (devicesText [d]))).1=true∧
        List.Forall₂ ReadsBack [d]
          (mtdpartSetupReal (fun _ => true) (some (devicesText [d]))).2.reverse := by
  let size : Numeral := ⟨.dec,256,some 'k',by rintro c ⟨⟩; rfl⟩
  let boot : PartDef := ⟨some size,none,some "ARMboot".toList,true,false,
    by rintro x ⟨⟩; decide,by rintro t ⟨⟩; decide⟩
  let root : PartDef := ⟨none,none,some "root".toList,false,false,nofun,by rintro t ⟨⟩; decide⟩
  let d : DeviceDef := ⟨"edb7312-nor".toList,[boot,root],by decide,nofun,by
    intro p hp
    cases List.mem_singleton.mp hp
    exact nofun⟩
  refine ⟨d,by decide +kernel,(reads_back_iff (List.cons_ne_nil d []) (fun _ => true) []).1.mpr fun d' hd' => ?_⟩
  cases List.mem_singleton.mp hd'
  exact ⟨⟨by decide,fun _ => by decide,by decide,nofun⟩,
    ⟨by decide,fun h => absurd rfl h,by decide,nofun⟩,trivial⟩

/-- A partition of 4 GiB is refused. -/
theorem large_refused : ∃ d : DeviceDef,d.text="nand:4g".toList∧
    (mtdpartSetupReal (fun _ => true) (some (devicesText [d]))).1=false := by
  let size : Numeral := ⟨.dec,4,some 'g',by rintro c ⟨⟩; rfl⟩
  let all : PartDef := ⟨some size,none,none,false,false,by rintro x ⟨⟩; decide,nofun⟩
  exact ⟨⟨"nand".toList,[all],by decide,nofun,nofun⟩,by decide +kernel,by decide +kernel⟩

end ArdroneKernel.CmdlineReadBack
