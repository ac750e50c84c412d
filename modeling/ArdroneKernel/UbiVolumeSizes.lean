import ArdroneKernel.UbiVolumeTable

/-!
# Sizes of created and re-sized volumes

A request gives the size of a volume in bytes, as an `int64_t`. The number of
eraseblocks is computed in 64 bits and stored into an `int`, from which the
size of the EBA table is computed as a 32-bit `size_t`. What a request that
succeeds has made is compared with the exact numbers.
-/

namespace ArdroneKernel.UbiVolumeSizes

open UbiVolumeOps UbiVolumeRequests UbiVolumeTable
open UbiVolumeCounts (toInt_bounds)

variable {d : Device} {st : State} {bytes usable : ℕ}

/-! ## The number of eraseblocks -/

/-- The exact number of eraseblocks for so many bytes. -/
def pebsFor (bytes usable : ℕ) : ℕ := (bytes+usable-1)/usable

/-- A number of eraseblocks is the least positive one that has room for so many bytes. -/
structure Least (n : ℤ) (bytes usable : ℕ) : Prop where
  room : (bytes : ℤ)≤n*usable
  pos : 0<n
  least : ∀ m : ℤ,0< m → (bytes : ℤ)≤ m*usable → n≤ m

theorem pebsFor_least (hb : 0<bytes) (hu : 0<usable) :
    Least (pebsFor bytes usable) bytes usable := by
  unfold pebsFor
  have hdiv := Nat.div_add_mod (bytes+usable-1) usable
  have hmod := Nat.mod_lt (bytes+usable-1) hu
  have hpos : 0<(bytes+usable-1)/usable := Nat.div_pos (by omega) hu
  refine ⟨?_,by omega,fun m hm hle => ?_⟩
  · rw [Nat.mul_comm] at hdiv
    have hle : bytes≤(bytes+usable-1)/usable*usable := by omega
    exact_mod_cast hle
  · obtain ⟨k,rfl⟩ := Int.eq_ofNat_of_zero_le hm.le
    have hlt : (bytes+usable-1)/usable<k+1 := by
      rw [Nat.div_lt_iff_lt_mul hu,Nat.add_mul,Nat.one_mul]
      omega
    omega

theorem Least.unique {n m : ℤ} (h : Least n bytes usable) (h' : Least m bytes usable) : n=m :=
  le_antisymm (h.least m h'.pos h'.room) (h'.least n h.pos h.room)

theorem least_iff (hb : 0<bytes) (hu : 0<usable) :
    Least (Int32.ofNat (pebsFor bytes usable)).toInt bytes usable ↔ pebsFor bytes usable<2^31 := by
  have hl := pebsFor_least hb hu
  constructor
  · intro h
    have heq := h.unique hl
    have hb := (toInt_bounds (Int32.ofNat (pebsFor bytes usable))).2
    omega
  · intro hlt
    rw [Int32.toInt_ofNat_of_lt hlt]
    exact hl

/-! ## Computations -/

/-- What is computed for a number of bytes does not wrap: the sum as an
`int64_t`, the quotient as an `int`, and, when an EBA table is allocated, its
size as a 32-bit `size_t` and what the volume grows by as an `int`. -/
structure NoWrap (bytes usable : ℕ) (table : Prop) (old : ℤ) : Prop where
  sum : bytes+usable-1<2^63
  count : pebsFor bytes usable<2^31
  size : table → pebsFor bytes usable*4<2^32
  growth : table → -2^31≤(pebsFor bytes usable : ℤ)-old∧(pebsFor bytes usable : ℤ)-old<2^31

theorem sum_lt (hu : usable<2^31) (h : pebsFor bytes usable<2^31) (hpos : 0<usable) :
    bytes+usable-1<2^63 := by
  unfold pebsFor at h
  rw [Nat.div_lt_iff_lt_mul hpos] at h
  omega

/-- A volume is as large as was asked, and nothing wrapped on the way. -/
structure AsLarge (vol : Volume) (bytes : Int64) (table : Prop) (old : ℤ) : Prop where
  least : Least vol.reservedPebs.toInt bytes.toInt.toNat vol.usableLebSize
  wrap : NoWrap bytes.toInt.toNat vol.usableLebSize table old

/-- The sizes of a device and of its volumes are positive and fit an `int`. -/
structure Sane (d : Device) (st : State) : Prop where
  leb : d.lebSize<2^31
  usable : ∀ i vol,st.volumes i=some vol → 0<vol.usableLebSize∧vol.usableLebSize<2^31

/-- What a request that succeeds makes: a new volume, or a volume of another
size, as large as was asked. -/
def AsAsked (st st' : State) : Request → Prop
  | .mkvol req => ∃ i vol,st.volumes i=none∧st'.volumes i=some vol∧AsLarge vol req.bytes True 0
  | .rsvol req => ∃ vol vol',st.volumes req.volId.toInt.toNat=some vol∧
    st'.volumes req.volId.toInt.toNat=some vol'∧
    AsLarge vol' req.bytes (vol'.reservedPebs≠vol.reservedPebs) vol.reservedPebs.toInt
  | .rmvol _ => True
  | .rnvol _ => True

/-- The number of eraseblocks asked for leaves room for the size of an EBA
table in 32 bits; where the volume has so many already it only has to be an `int`. -/
def Representable (d : Device) (st : State) : Request → Prop
  | .mkvol req => pebsFor req.bytes.toInt.toNat
    (d.lebSize-d.lebSize%req.alignment.toInt.toNat)<2^30
  | .rsvol req => ∀ vol,st.volumes req.volId.toInt.toNat=some vol →
    (pebsFor req.bytes.toInt.toNat vol.usableLebSize : ℤ)=vol.reservedPebs.toInt∨
    pebsFor req.bytes.toInt.toNat vol.usableLebSize<2^30∧
    (pebsFor req.bytes.toInt.toNat vol.usableLebSize : ℤ)-vol.reservedPebs.toInt<2^31
  | .rmvol _ => True
  | .rnvol _ => True

/-- The exact condition, for one number of eraseblocks. -/
theorem asLarge_iff {vol : Volume} {bytes : Int64} (old : Int32) (hb : 0<bytes.toInt)
    (hu : 0<vol.usableLebSize∧vol.usableLebSize<2^31)
    (hn : vol.reservedPebs=Int32.ofNat (pebsFor bytes.toInt.toNat vol.usableLebSize)) :
    AsLarge vol bytes (vol.reservedPebs≠old) old.toInt ↔
      (pebsFor bytes.toInt.toNat vol.usableLebSize : ℤ)=old.toInt∨
      pebsFor bytes.toInt.toNat vol.usableLebSize<2^30∧
      (pebsFor bytes.toInt.toNat vol.usableLebSize : ℤ)-old.toInt<2^31 := by
  have hleast := least_iff (show 0<bytes.toInt.toNat by omega) hu.1
  have hold := toInt_bounds old
  generalize hk : pebsFor bytes.toInt.toNat vol.usableLebSize=k at *
  have hsame : k<2^31 → (vol.reservedPebs=old ↔ (k : ℤ)=old.toInt) := by
    intro hlt
    rw [hn,←Int32.toInt_inj,Int32.toInt_ofNat_of_lt hlt]
  constructor
  · intro h
    have hlt : k<2^31 := hk▸h.wrap.count
    by_cases heq : (k : ℤ)=old.toInt
    · exact Or.inl heq
    · have htable : vol.reservedPebs≠old := fun hh => heq ((hsame hlt).mp hh)
      have hsize := h.wrap.size htable
      have hgrowth := h.wrap.growth htable
      rw [hk] at hsize hgrowth
      exact Or.inr ⟨by omega,hgrowth.2⟩
  · intro h
    have hlt : k<2^31 := by omega
    refine ⟨by rw [hn]; exact hleast.mpr hlt,sum_lt hu.2 (hk.symm▸hlt) hu.1,hk.symm▸hlt,
      fun htable => ?_,fun htable => ?_⟩
    all_goals
      have hne : (k : ℤ)≠old.toInt := fun hh => htable ((hsame hlt).mpr hh)
      omega

/-! ## Requests -/

/-- A check that was passed, before something that depends on it. -/
theorem of_dite {α : Type} {p : Prop} [Decidable p] {err : ℤ} {f : ¬p → Except ℤ α} {r : α}
    (h : (if hp : p then .error err else f hp)=.ok r) : ∃ hp : ¬p,f hp=.ok r := by
  by_cases hp : p
  · rw [dif_pos hp] at h
    cases h
  · rw [dif_neg hp] at h
    exact ⟨hp,h⟩

theorem of_ite {α : Type} {p : Prop} [Decidable p] {err : ℤ} {x : Except ℤ α} {r : α}
    (h : (if p then .error err else x)=.ok r) : x=.ok r := (of_dite h).2

theorem verifyMkvolReq_ok {req : UbiMkvolReq} {r : MkvolReq d} (h : verifyMkvolReq d req=.ok r) :
    0<req.bytes.toInt∧r.bytes=req.bytes.toInt.toNat∧r.alignment=req.alignment.toInt.toNat := by
  have ⟨h1,h⟩ := of_dite h
  have ⟨_,h⟩ := of_dite h
  have ⟨_,h⟩ := of_dite h
  have ⟨h4,h⟩ := of_dite h
  have ⟨_,h⟩ := of_dite (of_ite h)
  rw [←Except.ok.inj (of_ite (of_ite (of_ite h)))]
  exact ⟨by omega,rfl,rfl⟩

theorem mkvol_iff (hs : Sane d st) {req : UbiMkvolReq} {env : Env}
    (ok : (iocMkvol d st req env).1=0) :
    AsAsked st (iocMkvol d st req env).2 (.mkvol req) ↔ Representable d st (.mkvol req) := by
  unfold iocMkvol at ok ⊢
  cases hr : verifyMkvolReq d req with
  | error err =>
    have hver := verifyMkvolReq_spec (d := d) req
    rw [hr] at ok hver
    exact absurd ok hver
  | ok r =>
    rw [hr] at ok
    dsimp only at ok ⊢
    split at ok
    next herr => exact absurd ok herr
    next herr =>
    rw [if_neg herr]
    have ⟨hb,hbytes,halign⟩ := verifyMkvolReq_ok hr
    have ⟨i,_,tbl,hnone,_,hvol,_⟩ := createVolume_ok (not_not.mp herr)
    have husable : (newVolume r tbl).usableLebSize=
        d.lebSize-d.lebSize%req.alignment.toInt.toNat := by
      rw [←halign]
      rfl
    have hu : 0<(newVolume r tbl).usableLebSize∧(newVolume r tbl).usableLebSize<2^31 := by
      have hal := r.aligned
      have hmod := Nat.mod_lt d.lebSize hal.1
      have hleb := hs.leb
      rw [husable,←halign]
      omega
    have hn : (newVolume r tbl).reservedPebs=
        Int32.ofNat (pebsFor req.bytes.toInt.toNat (newVolume r tbl).usableLebSize) := by
      rw [←hbytes]
      rfl
    have hleast := least_iff (show 0<req.bytes.toInt.toNat by omega) hu.1
    change _ ↔ pebsFor req.bytes.toInt.toNat
      (d.lebSize-d.lebSize%req.alignment.toInt.toNat)<2^30
    rw [←husable]
    have hat : (createVolume d st r env.steps).2.volumes i=some (newVolume r tbl) := by
      rw [hvol,Function.update_self]
    constructor
    · intro ⟨j,vol,hj,hv,h⟩
      have hji : j=i := by
        by_contra hne
        rw [hvol,Function.update_of_ne hne,hj] at hv
        cases hv
      rw [hji,hat] at hv
      rw [Option.some.inj hv]
      have hsize := h.wrap.size trivial
      omega
    · intro hlt
      have hlt' : pebsFor req.bytes.toInt.toNat (newVolume r tbl).usableLebSize<2^31 := by omega
      refine ⟨i,newVolume r tbl,hnone,hat,by rw [hn]; exact hleast.mpr hlt',
        sum_lt hu.2 hlt' hu.1,hlt',fun _ => by omega,fun _ => by omega⟩

theorem verifyRsvolReq_ok {req : UbiRsvolReq} (h : verifyRsvolReq d req=0) :
    0<req.bytes.toInt := by
  unfold verifyRsvolReq at h
  split at h
  · cases h
  next hb =>
  omega

/-- A volume that the request has opened is otherwise as it was. -/
theorem hold_volume (held : List ℕ) {i : ℕ} {vol : Volume} (hv : st.volumes i=some vol) :
    (holdVolumes st held).volumes i=some { vol with refCount := vol.refCount+held.count i } := by
  unfold holdVolumes
  dsimp only
  rw [hv,Option.map_some]

theorem close_volume (held : List ℕ) {i : ℕ} {vol : Volume} (hv : st.volumes i=some vol) :
    (closeVolumes st held).volumes i=some { vol with refCount := vol.refCount-held.count i } := by
  unfold closeVolumes
  dsimp only
  rw [hv,Option.map_some]

theorem rsvol_iff (hs : Sane d st) {req : UbiRsvolReq} {env : Env}
    (ok : (iocRsvol d st req env).1=0) :
    AsAsked st (iocRsvol d st req env).2 (.rsvol req) ↔ Representable d st (.rsvol req) := by
  unfold iocRsvol at ok ⊢
  split at ok
  next herr => exact absurd ok herr
  next herr =>
  rw [if_neg herr]
  have hb := verifyRsvolReq_ok (not_not.mp herr)
  cases hopen : ubiOpenVolume d st env [] req.volId.toInt with
  | error err =>
    rw [hopen] at ok
    subst ok
    exact absurd hopen (ubiOpenVolume_ne env [] req.volId.toInt)
  | ok i =>
    have ⟨hid,_,_,⟨vol,hv⟩,_⟩ := ubiOpenVolume_ok hopen
    rw [hopen] at ok
    dsimp only at ok ⊢
    rw [hv] at ok ⊢
    -- the volume afterwards, from that before
    have hres : ∃ vol',
        (closeVolumes (resizeVolume d (holdVolumes st [i]) i (rsvolPebs vol req.bytes)
          env.steps).2 [i]).volumes i=some vol'∧
        vol'.reservedPebs=rsvolPebs vol req.bytes∧vol'.usableLebSize=vol.usableLebSize := by
      have ⟨_,held,hheld,hres⟩ := resizeVolume_ok ok
      rw [hold_volume [i] hv] at hheld
      rw [←Option.some.inj hheld] at hres
      rcases hres with ⟨hn,hvol,_⟩|⟨tbl,hvol,_⟩
      · have hat := hold_volume [i] hv
        rw [←hvol] at hat
        exact ⟨_,close_volume [i] hat,hn.symm,rfl⟩
      · have hat := congrFun hvol i
        rw [Function.update_self] at hat
        exact ⟨_,close_volume [i] hat,rfl,rfl⟩
    have ⟨vol',hvol',hn,husable⟩ := hres
    have hu := hs.usable i vol hv
    rw [←husable] at hu
    have hpebs : vol'.reservedPebs=
        Int32.ofNat (pebsFor req.bytes.toInt.toNat vol'.usableLebSize) := by
      rw [hn,husable]
      rfl
    have hiff := asLarge_iff vol.reservedPebs hb hu hpebs
    rw [husable] at hiff
    unfold AsAsked Representable
    dsimp only
    rw [←hid,hv,hvol']
    constructor
    · intro ⟨v,v',hvv,hvv',h⟩ w hw
      rw [←Option.some.inj hw]
      rw [←Option.some.inj hvv,←Option.some.inj hvv'] at h
      exact hiff.mp h
    · intro h
      exact ⟨vol,vol',rfl,rfl,hiff.mpr (h vol rfl)⟩

/-- A created or re-sized volume is as large as was asked, in numbers that do
not wrap, exactly when the number of eraseblocks asked for is representable. -/
theorem asAsked_iff (hs : Sane d st) {req : Request} {env : Env}
    (ok : (ubiCdevIoctl d st req env).1=0) :
    AsAsked st (ubiCdevIoctl d st req env).2 req ↔ Representable d st req := by
  unfold ubiCdevIoctl at ok ⊢
  split at ok
  · cases ok
  next hcap =>
  rw [if_neg hcap]
  cases req with
  | mkvol req =>
    dsimp only at ok ⊢
    split at ok
    · cases ok
    next harg =>
    rw [if_neg harg]
    exact mkvol_iff hs ok
  | rmvol volId => exact Iff.rfl
  | rsvol req =>
    dsimp only at ok ⊢
    split at ok
    · cases ok
    next harg =>
    rw [if_neg harg]
    exact rsvol_iff hs ok
  | rnvol req => exact Iff.rfl

theorem noVolumes_sane : Sane smallDevice noVolumes := ⟨by decide,fun _ _ hv => by cases hv⟩

/-- A volume of 150 bytes takes two eraseblocks of 100. -/
theorem asAsked_iff_example : AsAsked noVolumes
    (ubiCdevIoctl smallDevice noVolumes (.mkvol (mkvolNamed 1)) allSucceed).2
    (.mkvol (mkvolNamed 1)) :=
  (asAsked_iff noVolumes_sane (by decide +kernel)).mpr (by
    change pebsFor 150 (100-100%1)<2^30
    decide)

/-- A volume of so many bytes. -/
def mkvolOf (bytes : Int64) : UbiMkvolReq := {mkvolNamed 1 with bytes := bytes}

/-- A volume of 2^32 eraseblocks is created, and has none. -/
theorem created_empty : ¬∀ (d : Device) (st : State) (req : Request) (env : Env),Sane d st →
    (ubiCdevIoctl d st req env).1=0 → AsAsked st (ubiCdevIoctl d st req env).2 req := by
  intro h
  have hio : ubiCdevIoctl smallDevice noVolumes (.mkvol (mkvolOf 429496729600)) allSucceed=
      iocMkvol smallDevice noVolumes (mkvolOf 429496729600) allSucceed := rfl
  have hok : (iocMkvol smallDevice noVolumes (mkvolOf 429496729600) allSucceed).1=0 := by
    decide +kernel
  have hasked := h smallDevice noVolumes (.mkvol (mkvolOf 429496729600)) allSucceed
    noVolumes_sane (by rw [hio]; exact hok)
  have hrep := (mkvol_iff noVolumes_sane hok).mp hasked
  change pebsFor 429496729600 (100-100%1)<2^30 at hrep
  exact absurd hrep (by decide)

end ArdroneKernel.UbiVolumeSizes
