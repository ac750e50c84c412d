import ArdroneKernel.DspDmmRegions
import ArdroneKernel.Execution

/-!
# Runs of the memory manager

Every call ends within the table and keeps its regions; the reserved ones are
the chunks that have been returned and not been given back.
-/

namespace ArdroneKernel.DspDmm

open BlockTilings Execution Function

/-- What holds between the calls. -/
structure Good (s : State) (rs : List Region) : Prop where
  tidy : Tidy s.dmm.virtualMappingTable s.dmm.tableSize rs
  cached : Cached s.dmm rs
  /-- The chunks that are out are the reserved regions. -/
  live : ∀ b,b∈s.live ↔ (⟨b.start,b.size,true⟩ : Region)∈rs
  apart : s.live.Pairwise Block.Apart
  /-- Sizes of mappings have 31 bits. -/
  narrow : ∀ i,(s.dmm.virtualMappingTable i).mappedSize<2^31
  created : s.dmm.created=true
  size : s.dmm.tableSize<2^20
  beg : s.dmm.dynMemMapBeg<2^32

variable {s : State} {d t : Dmm} {rs pre post : List Region} {i k m : ℕ} {f : ℕ → MapPage}

/-- The table that `dmm_create_tables` writes. -/
def freshTable (n : ℕ) : ℕ → MapPage :=
  update (fun _ => ⟨0,false,0,false⟩) 0 ⟨n,false,0,false⟩

theorem freshTable_zero (n : ℕ) : freshTable n 0=⟨n,false,0,false⟩ := update_self _ _ _

theorem freshTable_of_ne (n : ℕ) (h : i≠0) : freshTable n i=⟨0,false,0,false⟩ :=
  update_of_ne h _ _

theorem freshTable_tidy {n : ℕ} (hn : 0<n) : Tidy (freshTable n) n [⟨0,n,false⟩] where
  tiles := ⟨rfl,hn,Nat.zero_add n⟩
  holds r hr := by
    cases List.mem_singleton.mp hr
    unfold Holds
    exact ⟨rfl,rfl⟩
  inner i _ hne := by
    rw [freshTable_of_ne n (hne _ (List.mem_singleton_self _)).symm]
  inside i hi := by
    by_cases h0 : i=0
    · rw [h0,freshTable_zero,Nat.zero_add]
    · rw [freshTable_of_ne n h0]
      exact hi.le

/-- A new table is one free region. -/
theorem create_good (d : Dmm) {mem : Bool} {addr size : ℕ}
    (h : (dmmCreateTables d mem addr size).1.created=true) :
    Good ⟨(dmmCreateTables d mem addr size).1,[]⟩
      [⟨0,(dmmCreateTables d mem addr size).1.tableSize,false⟩] := by
  unfold dmmCreateTables at h ⊢
  dsimp only at h ⊢
  have hlt : (size+PG_SIZE4K-1)%2^32/PG_SIZE4K<2^20 := by
    unfold PG_SIZE4K at *
    omega
  split at h
  next hmem =>
    rw [if_pos hmem]
    generalize (size+PG_SIZE4K-1)%2^32/PG_SIZE4K=n at *
    refine ⟨freshTable_tidy (Nat.pos_of_ne_zero hmem.2),⟨n,?_,fun _ => ?_⟩,fun b => ?_,
      List.Pairwise.nil,fun i => ?_,rfl,hlt,Nat.mod_lt _ (Nat.two_pow_pos 32)⟩
    · unfold PG_SIZE4K
      exact Nat.mod_eq_of_lt (by omega)
    · exact List.mem_singleton_self _
    · simp
    · change (freshTable n i).mappedSize<2^31
      by_cases h0 : i=0
      · rw [h0,freshTable_zero]
        exact Nat.two_pow_pos 31
      · rw [freshTable_of_ne n h0]
        exact Nat.two_pow_pos 31
  · cases h

theorem addrToIndex_virtual (d : Dmm) (hi : i<2^20) (hbeg : d.dynMemMapBeg<2^32) :
    d.addrToIndex (d.addrVirtual i)=i := by
  unfold Dmm.addrToIndex Dmm.addrVirtual PG_SIZE4K
  omega

/-! ## Reserving -/

/-- `get_free_region` finds a free region that is large enough, or there is none. -/
theorem getFreeRegion_spec (htidy : Tidy d.virtualMappingTable d.tableSize rs)
    (hcached : Cached d rs) (hcreated : d.created=true) (hsize : d.tableSize<2^20) (hm : 0< m) :
    (∃ t rs' k,Dmm.getFreeRegion d.rounds d (m*PG_SIZE4K)=
        some ({t with freeRegion := t.freeRegion+m,freeSize := (k-m)*PG_SIZE4K},some t.freeRegion)∧
      m≤k∧(⟨t.freeRegion,k,false⟩ : Region)∈rs'∧Kept d t rs rs')∨
    ∃ t rs',Dmm.getFreeRegion d.rounds d (m*PG_SIZE4K)=some (t,none)∧Found d t rs rs'∧
      t.freeSize< m*PG_SIZE4K := by
  have ⟨k,hk,hmem⟩ := hcached
  have hbytes : m*PG_SIZE4K/PG_SIZE4K=m := Nat.mul_div_cancel m (by decide)
  unfold Dmm.getFreeRegion
  rw [if_pos hcreated,hbytes]
  -- Taking pages from the region that is remembered.
  have htake : ∀ t rs' k,Kept d t rs rs' → t.freeSize=k*PG_SIZE4K → m≤k →
      (⟨t.freeRegion,k,false⟩ : Region)∈rs' →
      ((t.freeRegion+m)%2^32=t.freeRegion+m)∧t.freeSize-m*PG_SIZE4K=(k-m)*PG_SIZE4K := by
    intro t rs' k hkept hfree hmk hmem
    have hb := (hkept.tidy.bounds hmem).2
    rw [hkept.size] at hb
    dsimp only at hb
    rw [hfree,Nat.sub_mul]
    exact ⟨Nat.mod_eq_of_lt (by omega),rfl⟩
  have hpage : (0 : ℕ)<PG_SIZE4K := by decide
  split
  next hlarger =>
    have hlen := htidy.tiles.length_le
    rw [List.length_map] at hlen
    have hshort : ([]++rs.take 1).IsChain Region.Parted := by
      cases rs with
      | nil => exact List.isChain_nil
      | cons r rs => exact List.isChain_singleton r
    have hfuel : rs.length<d.rounds := by
      unfold Dmm.rounds
      omega
    have ⟨t,rs',ht,hfound⟩ := freeLoop_spec htidy hsize htidy.tiles
      ⟨k,hk,fun hpos => Or.inl (hmem hpos)⟩ (fun _ hr => by cases hr) hshort hfuel
    rw [ht,Option.map_some]
    have ⟨k',hk',hmem'⟩ := hfound.cached
    by_cases hle : m≤k'
    · have ⟨h1,h2⟩ := htake t rs' k' hfound.toKept hk' hle (hmem' (by omega))
      refine Or.inl ⟨t,rs',k',?_,hle,hmem' (by omega),hfound.toKept⟩
      have hmul : m*PG_SIZE4K≤t.freeSize := by
        rw [hk']
        exact Nat.mul_le_mul_right _ hle
      rw [if_pos hmul,h1,h2]
    · have hlt : t.freeSize< m*PG_SIZE4K := by
        rw [hk']
        exact (Nat.mul_lt_mul_right hpage).mpr (Nat.lt_of_not_le hle)
      refine Or.inr ⟨t,rs',?_,hfound,hlt⟩
      rw [if_neg (Nat.not_le_of_lt hlt)]
  next hfits =>
    have hle : m≤k := by
      rw [hk] at hfits
      exact Nat.le_of_mul_le_mul_right (Nat.le_of_not_gt hfits) hpage
    have hkept : Kept d d rs rs :=
      ⟨htidy,⟨k,hk,hmem⟩,fun _ _ => Iff.rfl,fun _ => rfl,rfl,rfl,rfl⟩
    have ⟨h1,h2⟩ := htake d rs k hkept hk hle (hmem (by omega))
    refine Or.inl ⟨d,rs,k,?_,hle,hmem (by omega),hkept⟩
    rw [Option.map_some,if_pos (Nat.le_of_not_gt hfits),h1,h2]

theorem setPage_some (d : Dmm) (p : MapPage) (hi : i<d.tableSize) :
    d.setPage i p=some {d with
      virtualMappingTable := update d.virtualMappingTable i p} := if_pos hi

/-- The same for a table that has just been written to. -/
theorem setPage_setPage (d : Dmm) (f : ℕ → MapPage) (p : MapPage) (hi : i<d.tableSize) :
    ({d with virtualMappingTable := f}).setPage i p=
      some {d with virtualMappingTable := update f i p} := if_pos hi

/-- A chunk is cut off the start of a free region. -/
theorem takeChunk_spec (htidy : Tidy d.virtualMappingTable d.tableSize (pre++⟨i,k,false⟩::post))
    (hm : 0< m) (hmk : m≤k) :
    ∃ f,d.takeChunk i m=some {d with virtualMappingTable := f}∧
      Tidy f d.tableSize
        (pre++(⟨i,m,true⟩::if m<k then [⟨i+m,k-m,false⟩] else [])++post)∧
      ∀ j,(f j).mappedSize=(d.virtualMappingTable j).mappedSize∨(f j).mappedSize=0 := by
  have hmem : (⟨i,k,false⟩ : Region)∈pre++⟨i,k,false⟩::post := by simp
  have hsz : (d.virtualMappingTable i).regionSize=k := (htidy.holds _ hmem).1
  have hbounds : 0<k∧i+k≤d.tableSize := htidy.bounds hmem
  have ⟨hkpos,hbound⟩ := hbounds
  -- The other entries of the region are not headers of regions.
  have hinner : ∀ j,(∃ r∈[(⟨i,k,false⟩ : Region)],r.block.Has j) → j≠i →
      (d.virtualMappingTable j).reserved=false := by
    rintro j ⟨r,hr,hhas⟩ hne
    cases List.mem_singleton.mp hr
    have hlt : j< i+k := hhas.2
    refine htidy.inner j (by omega) fun q hq hqj => hne ?_
    have heq := htidy.tiles.unique (List.mem_map_of_mem hq) (List.mem_map_of_mem hmem)
      ⟨hqj.le,?_⟩ hhas
    · exact hqj.symm.trans (congrArg Block.start heq)
    · have := (htidy.bounds hq).1
      unfold Region.block Block.stop
      dsimp only
      omega
  have hout : ∀ j,(∀ r∈[(⟨i,k,false⟩ : Region)],¬r.block.Has j) → j< i∨i+k≤j := by
    intro j hj
    have hnot := hj _ (List.mem_singleton_self _)
    unfold Region.block Block.Has Block.stop at hnot
    dsimp only at hnot
    omega
  have hsplit : pre++⟨i,k,false⟩::post=pre++[⟨i,k,false⟩]++post := by simp
  rw [hsplit] at htidy
  unfold Dmm.takeChunk Dmm.page
  rw [if_pos (by omega)]
  dsimp only [Option.bind_eq_bind,Option.bind_some]
  rw [hsz]
  split
  next hlt =>
    rw [setPage_some d _ (by omega),Option.bind_some,
      setPage_setPage d _ _ (by omega)]
    refine ⟨_,rfl,htidy.replace ?_ ?_ ?_ ?_ ?_,?_⟩
    · intro lo hi ht
      exact Tiles.split [] ht hm hlt
    · intro j hj
      have := hout j hj
      rw [update_of_ne (by omega),update_of_ne (by omega)]
    · intro r hr
      unfold Holds
      rcases List.mem_pair.mp hr with rfl|rfl
      · rw [update_self]
        exact ⟨rfl,rfl⟩
      · dsimp only
        rw [update_of_ne (by omega),update_self]
        exact ⟨rfl,rfl⟩
    · intro j hj hne
      have h1 : j≠i := (hne _ (List.mem_pair.mpr (Or.inl rfl))).symm
      have h2 : j≠i+m := (hne _ (List.mem_pair.mpr (Or.inr rfl))).symm
      rw [update_of_ne h1,update_of_ne h2]
      exact hinner j hj h1
    · intro j hj
      by_cases h1 : j=i
      · rw [h1,update_self]
        dsimp only
        omega
      · rw [update_of_ne h1]
        by_cases h2 : j=i+m
        · rw [h2,update_self]
          dsimp only
          omega
        · rw [update_of_ne h2]
          exact htidy.inside j hj
    · intro j
      by_cases h1 : j=i
      · rw [h1,update_self]
        exact Or.inr rfl
      · rw [update_of_ne h1]
        by_cases h2 : j=i+m
        · rw [h2,update_self]
          exact Or.inr rfl
        · rw [update_of_ne h2]
          exact Or.inl rfl
  next hge =>
    have hmk : m=k := by omega
    subst hmk
    rw [setPage_some d _ (by omega)]
    refine ⟨_,rfl,htidy.replace id ?_ ?_ ?_ ?_,?_⟩
    · intro j hj
      have := hout j hj
      rw [update_of_ne (by omega)]
    · intro r hr
      cases List.mem_singleton.mp hr
      unfold Holds
      rw [update_self]
      exact ⟨rfl,rfl⟩
    · intro j hj hne
      have h1 : j≠i := (hne _ (List.mem_singleton_self _)).symm
      rw [update_of_ne h1]
      exact hinner j hj h1
    · intro j hj
      by_cases h1 : j=i
      · rw [h1,update_self]
        exact hbound
      · rw [update_of_ne h1]
        exact htidy.inside j hj
    · intro j
      by_cases h1 : j=i
      · rw [h1,update_self]
        exact Or.inr rfl
      · rw [update_of_ne h1]
        exact Or.inl rfl

/-- The chunk that is cut off is out. -/
theorem Good.take (h : Good s rs) (hmk : m≤k) (hkept : Kept s.dmm t rs (pre++⟨i,k,false⟩::post))
    (htidy : Tidy f t.tableSize (pre++(⟨i,m,true⟩::if m<k then [⟨i+m,k-m,false⟩] else [])++post))
    (hmapped : ∀ j,(f j).mappedSize=(t.virtualMappingTable j).mappedSize∨(f j).mappedSize=0) :
    Good ⟨{t with
        virtualMappingTable := f
        freeRegion := i+m
        freeSize := (k-m)*PG_SIZE4K},⟨i,m⟩::s.live⟩
      (pre++(⟨i,m,true⟩::if m<k then [⟨i+m,k-m,false⟩] else [])++post) := by
  -- The chunks that were out are the reserved regions on both sides.
  have hold : ∀ b,b∈s.live ↔ (⟨b.start,b.size,true⟩ : Region)∈pre++post := by
    intro b
    rw [h.live,← hkept.reserved _ rfl]
    simp
  have hnew : ∀ b,b=⟨i,m⟩∨b∈s.live ↔ (⟨b.start,b.size,true⟩ : Region)∈
      pre++(⟨i,m,true⟩::if m<k then [⟨i+m,k-m,false⟩] else [])++post := by
    intro b
    rw [hold]
    have hhere : (⟨b.start,b.size,true⟩ : Region)=⟨i,m,true⟩ ↔ b=⟨i,m⟩ := by
      cases b
      simp
    simp only [List.mem_append,List.mem_cons,hhere]
    split <;> simp <;> tauto
  refine ⟨htidy,⟨k-m,rfl,fun hpos => ?_⟩,fun b => ?_,List.pairwise_cons.mpr ⟨fun b hb => ?_,h.apart⟩,
    fun j => ?_,hkept.created.trans h.created,hkept.size▸h.size,hkept.beg▸h.beg⟩
  · rw [if_pos (by omega)]
    simp
  · rw [← hnew,List.mem_cons]
  · have hmem := List.mem_map_of_mem (f := Region.block) ((hnew b).mp (Or.inr hb))
    have hmem' := List.mem_map_of_mem (f := Region.block) ((hnew ⟨i,m⟩).mp (Or.inl rfl))
    refine htidy.tiles.apart_of_ne hmem' hmem fun heq => ?_
    -- A chunk that starts there would be the region, which was free.
    have hstart : i=b.start := congrArg Block.start heq
    have hbmem := (hkept.reserved _ rfl).mpr ((h.live b).mp hb)
    have heq := hkept.tidy.start_inj hbmem (q := ⟨i,k,false⟩) (by simp) hstart.symm
    cases congrArg Region.reserved heq
  · rcases hmapped j with e|e
    · rw [e,hkept.mapped]
      exact h.narrow j
    · rw [e]
      exact Nat.two_pow_pos 31

/-- Whether some pages in a row are all outside the chunks that are out. -/
def Room (s : State) (m : ℕ) : Prop :=
  ∃ x,x+m≤ s.dmm.tableSize∧∀ y,x≤y → y<x+m → ∀ b∈s.live,¬b.Has y

/-- When the search finds no free region that is large enough, there is none. -/
theorem Good.no_room (h : Good s rs) {rs' : List Region} (hfound : Found s.dmm t rs rs')
    (hm : 0< m) (hlt : t.freeSize< m*PG_SIZE4K) : ¬Room s m := by
  rintro ⟨x,hx,hout⟩
  rw [← hfound.size] at hx
  have ⟨r,hr,hfree,hle,hge⟩ := hfound.tidy.tiles.run_inside (fun r => r.reserved=false)
    hfound.chain hm (Nat.zero_le x) hx fun y h1 h2 r hr hhas => by
      by_contra hres
      have hres := Bool.of_not_eq_false hres
      have hmem := (hfound.reserved r hres).mp hr
      refine hout y h1 h2 r.block ((h.live _).mpr ?_) hhas
      rw [← hres]
      exact hmem
  have hseen := hfound.seen r hr hfree
  have hsize : m≤r.size := by
    unfold Region.block Block.stop at *
    dsimp only at *
    omega
  exact absurd (hseen.trans_lt hlt) (Nat.not_lt_of_le (Nat.mul_le_mul_right _ hsize))

/-- A chunk is returned, or no pages in a row are free that would be enough. -/
theorem reserve_good (h : Good s rs) (hm : 0< m) :
    ∃ t addr rs',s.dmm.dmmReserveMemory s.dmm.rounds (m*PG_SIZE4K)=some (t,addr)∧
      (∀ a,addr=some a → Good ⟨t,⟨t.addrToIndex a,m⟩::s.live⟩ rs')∧
      (addr=none → Good ⟨t,s.live⟩ rs'∧¬Room s m) := by
  have hdiv : m*PG_SIZE4K/PG_SIZE4K=m := Nat.mul_div_cancel m (by decide)
  unfold Dmm.dmmReserveMemory
  rcases getFreeRegion_spec h.tidy h.cached h.created h.size hm with
    ⟨t,rs',k,ht,hmk,hmem,hkept⟩|⟨t,rs',ht,hfound,hlt⟩
  · rw [ht]
    have ⟨pre,post,hsplit⟩ := List.append_of_mem hmem
    rw [hsplit] at hkept
    have ⟨f,hf,htidy,hmapped⟩ := takeChunk_spec
      (d := {t with freeRegion := t.freeRegion+m,freeSize := (k-m)*PG_SIZE4K}) hkept.tidy hm hmk
    have hgood := h.take hmk hkept htidy hmapped
    have hin := hkept.tidy.bounds (r := ⟨t.freeRegion,k,false⟩) (by simp)
    have hlt : t.freeRegion<2^20 := by
      have := h.size
      rw [hkept.size] at hin
      dsimp only at hin
      omega
    dsimp only [Option.bind_eq_bind,Option.bind_some]
    rw [hdiv,hf]
    have hindex := addrToIndex_virtual t hlt (hkept.beg▸h.beg)
    generalize pre++(⟨t.freeRegion,m,true⟩::if m<k then [⟨t.freeRegion+m,k-m,false⟩] else [])++
      post=rs2 at hgood
    refine ⟨_,_,rs2,rfl,fun a ha => ?_,nofun⟩
    cases ha
    exact hindex.symm▸hgood
  · rw [ht]
    refine ⟨t,none,rs',rfl,nofun,fun _ => ⟨?_,h.no_room hfound hm hlt⟩⟩
    refine ⟨hfound.tidy,hfound.cached,fun b => ?_,h.apart,fun j => ?_,
      hfound.created.trans h.created,hfound.size▸h.size,hfound.beg▸h.beg⟩
    · exact (h.live b).trans (hfound.reserved _ rfl).symm
    · exact (hfound.mapped j)▸h.narrow j

/-! ## Giving back and mapping -/

/-- Two tables with the same regions; mappings may differ. -/
structure SameRegions (f g : ℕ → MapPage) : Prop where
  size : ∀ i,(g i).regionSize=(f i).regionSize
  reserved : ∀ i,(g i).reserved=(f i).reserved
  narrow : ∀ i,(g i).mappedSize<2^31

theorem sameRegions_update {p : MapPage} (hf : ∀ i,(f i).mappedSize<2^31)
    (hs : p.regionSize=(f i).regionSize) (hr : p.reserved=(f i).reserved) (hm : p.mappedSize<2^31) :
    SameRegions f (update f i p) where
  size := update_same hs
  reserved := update_same hr
  narrow j := by
    by_cases hj : j=i
    · rw [hj,update_self]
      exact hm
    · rw [update_of_ne hj]
      exact hf j

theorem SameRegions.trans {f g g' : ℕ → MapPage} (h : SameRegions f g) (h' : SameRegions g g') :
    SameRegions f g' :=
  ⟨fun i => (h'.size i).trans (h.size i),fun i => (h'.reserved i).trans (h.reserved i),h'.narrow⟩

/-- Pages that the loop still has to look at, counted twice where a mapping
starts at the first of them. -/
def work (d : Dmm) (chunk i : ℕ) : ℕ :=
  2*((d.virtualMappingTable chunk).regionSize-i)+
    if (d.virtualMappingTable (chunk+i)).mapped then 1 else 0

/-- The loop ends within the region, whatever the mappings in it. -/
theorem unmapLoop_spec {fuel chunk : ℕ} (hnarrow : ∀ i,(d.virtualMappingTable i).mappedSize<2^31)
    (hin : chunk+(d.virtualMappingTable chunk).regionSize≤d.tableSize)
    (hsize : d.tableSize<2^20) (hfuel : work d chunk i<fuel) :
    ∃ f,d.unmapLoop fuel chunk i=some {d with virtualMappingTable := f}∧
      SameRegions d.virtualMappingTable f := by
  induction fuel generalizing d i with
  | zero => omega
  | succ fuel ih =>
    unfold work at hfuel
    unfold Dmm.unmapLoop
    split
    next hlt =>
      unfold Dmm.page
      rw [if_pos (by omega)]
      dsimp only [Option.bind_eq_bind,Option.bind_some]
      have hms := hnarrow (chunk+i)
      split
      next hmapped =>
        rw [if_pos hmapped] at hfuel
        rw [setPage_some d _ (by omega),Option.bind_some,Nat.mod_eq_of_lt (by omega)]
        have hsame := sameRegions_update (i := chunk+i)
          (p := {d.virtualMappingTable (chunk+i) with mapped := false,mappedSize := 0})
          hnarrow rfl rfl (Nat.two_pow_pos 31)
        generalize hg : update d.virtualMappingTable (chunk+i) _=g at hsame ⊢
        have hreg := hsame.size chunk
        have hclear : (g (chunk+i)).mapped=false := by
          rw [← hg,update_self]
        have ⟨f,hf,hsame'⟩ := ih (d := {d with virtualMappingTable := g})
          (i := i+(d.virtualMappingTable (chunk+i)).mappedSize) hsame.narrow
          (by dsimp only; omega) hsize (by
            unfold work
            dsimp only
            by_cases hz : (d.virtualMappingTable (chunk+i)).mappedSize=0
            · rw [hz,Nat.add_zero,hclear]
              simp only [Bool.false_eq_true,if_false]
              omega
            · split <;> omega)
        exact ⟨f,hf,hsame.trans hsame'⟩
      next hmapped =>
        refine ih hnarrow hin hsize ?_
        unfold work
        split <;> omega
    next hge => exact ⟨d.virtualMappingTable,rfl,fun _ => rfl,fun _ => rfl,hnarrow⟩

/-- The regions after the one with some header has been marked free. -/
def freed (chunk : ℕ) (rs : List Region) : List Region :=
  rs.map fun r => if r.start=chunk then ⟨r.start,r.size,false⟩ else r

theorem freed_block (chunk : ℕ) (rs : List Region) :
    (freed chunk rs).map Region.block=rs.map Region.block := by
  unfold freed
  rw [List.map_map]
  refine List.map_congr_left fun r _ => ?_
  rw [Function.comp_apply]
  split <;> rfl

theorem mem_freed {chunk : ℕ} {b : Block} : (⟨b.start,b.size,true⟩ : Region)∈freed chunk rs ↔
    (⟨b.start,b.size,true⟩ : Region)∈rs∧b.start≠chunk := by
  unfold freed
  rw [List.mem_map]
  constructor
  · rintro ⟨r,hr,heq⟩
    split at heq
    · cases congrArg Region.reserved heq
    next hne =>
      rw [heq] at hr hne
      exact ⟨hr,hne⟩
  · exact fun ⟨hr,hne⟩ => ⟨_,hr,if_neg hne⟩

/-- A free region is the same after it. -/
theorem mem_freed_free {chunk : ℕ} {a b : ℕ} (h : (⟨a,b,false⟩ : Region)∈rs) :
    (⟨a,b,false⟩ : Region)∈freed chunk rs := by
  refine List.mem_map.mpr ⟨_,h,?_⟩
  split <;> rfl

theorem Tidy.free {f g : ℕ → MapPage} {n chunk : ℕ} (h : Tidy f n rs)
    (hsize : ∀ i,(g i).regionSize=(f i).regionSize) (hchunk : (g chunk).reserved=false)
    (hother : ∀ i,i≠chunk → (g i).reserved=(f i).reserved) : Tidy g n (freed chunk rs) where
  tiles := (freed_block chunk rs).symm▸h.tiles
  holds r hr := by
    have ⟨q,hq,heq⟩ := List.mem_map.mp hr
    have ⟨hs,hres⟩ := h.holds q hq
    split at heq
    next hqc =>
      subst heq
      exact ⟨(hsize _).trans hs,hqc▸hchunk⟩
    next hqc =>
      subst heq
      exact ⟨(hsize _).trans hs,(hother _ hqc).trans hres⟩
  inner i hi hne := by
    by_cases hic : i=chunk
    · exact hic▸hchunk
    · rw [hother i hic]
      refine h.inner i hi fun r hr heq => hne r ?_ heq
      exact List.mem_map.mpr ⟨r,hr,if_neg (heq▸hic)⟩
  inside i hi := (hsize i).symm▸h.inside i hi

/-- A chunk is free after it has been given back. -/
theorem unReserve_good (h : Good s rs) (rsvAddr : ℕ) :
    ∃ t ret rs',s.dmm.dmmUnReserveMemory s.dmm.rounds rsvAddr=some (t,ret)∧
      Good ⟨t,s.live.filter fun b => b.start≠s.dmm.addrToIndex rsvAddr⟩ rs' := by
  unfold Dmm.dmmUnReserveMemory Dmm.getMappedRegion
  generalize s.dmm.addrToIndex rsvAddr=chunk
  have hlive : ∀ (rs' : List Region),(∀ b : Block,(⟨b.start,b.size,true⟩ : Region)∈rs' ↔
      (⟨b.start,b.size,true⟩ : Region)∈rs∧b.start≠chunk) →
      ∀ b,b∈s.live.filter (fun b => b.start≠chunk) ↔ (⟨b.start,b.size,true⟩ : Region)∈rs' := by
    intro rs' hrs' b
    rw [hrs',← h.live,List.mem_filter,decide_eq_true_eq]
  by_cases hc : s.dmm.created=true∧chunk<s.dmm.tableSize∧
      ((s.dmm.virtualMappingTable chunk).mapped=true∨
        (s.dmm.virtualMappingTable chunk).reserved=true)
  · rw [if_pos hc]
    have hin := h.tidy.inside chunk hc.2.1
    have hfuel : work s.dmm chunk 0<s.dmm.rounds := by
      unfold work Dmm.rounds
      split <;> omega
    have ⟨f,hf,hsame⟩ := unmapLoop_spec h.narrow hin h.size hfuel
    dsimp only
    rw [hf]
    dsimp only [Option.bind_eq_bind,Option.bind_some]
    unfold Dmm.page
    rw [if_pos hc.2.1]
    dsimp only [Option.bind_some]
    rw [setPage_setPage s.dmm f _ hc.2.1]
    have ⟨k,hk,hmem⟩ := h.cached
    refine ⟨_,_,freed chunk rs,rfl,h.tidy.free (fun i => ?_) ?_ (fun i hi => ?_),
      ⟨k,hk,fun hpos => mem_freed_free (hmem hpos)⟩,hlive _ fun b => mem_freed,
      h.apart.filter _,fun i => ?_,h.created,h.size,h.beg⟩
    · exact (update_same (φ := MapPage.regionSize) (p := {f chunk with reserved := false})
        rfl i).trans (hsame.size i)
    · dsimp only
      rw [update_self]
    · dsimp only
      rw [update_of_ne hi]
      exact hsame.reserved i
    · rw [update_same (φ := MapPage.mappedSize) (p := {f chunk with reserved := false}) rfl i]
      exact hsame.narrow i
  · rw [if_neg hc]
    refine ⟨_,_,rs,rfl,h.tidy,h.cached,hlive rs fun b => ?_,h.apart.filter _,h.narrow,h.created,
      h.size,h.beg⟩
    -- No chunk starts there, since its header would be marked.
    refine ⟨fun hmem => ⟨hmem,fun heq => hc ⟨h.created,?_,Or.inr ?_⟩⟩,And.left⟩
    · have hb : 0<b.size∧b.start+b.size≤ s.dmm.tableSize := h.tidy.bounds hmem
      omega
    · exact heq▸(h.tidy.holds _ hmem).2

/-- A change of mappings keeps the regions. -/
theorem Good.sameRegions (h : Good s rs) (hsame : SameRegions s.dmm.virtualMappingTable f) :
    Good ⟨{s.dmm with virtualMappingTable := f},s.live⟩ rs :=
  ⟨h.tidy.congr fun i => ⟨hsame.size i,hsame.reserved i⟩,h.cached,h.live,h.apart,hsame.narrow,
    h.created,h.size,h.beg⟩

theorem map_good (h : Good s rs) (addr size : ℕ) :
    Good ⟨(s.dmm.dmmMapMemory addr size).1,s.live⟩ rs := by
  unfold Dmm.dmmMapMemory
  split
  · exact h.sameRegions (sameRegions_update h.narrow rfl rfl (Nat.mod_lt _ (Nat.two_pow_pos 31)))
  · exact h

theorem unMap_good (h : Good s rs) (addr : ℕ) :
    Good ⟨(s.dmm.dmmUnMapMemory addr).1,s.live⟩ rs := by
  unfold Dmm.dmmUnMapMemory
  split
  · exact h.sameRegions (sameRegions_update h.narrow rfl rfl (Nat.two_pow_pos 31))
  · exact h

/-! ## Runs -/

theorem checked_pages {size : ℕ} (h : checked size=true) :
    0<size/PG_SIZE4K∧size/PG_SIZE4K*PG_SIZE4K=size := by
  unfold checked PG_SIZE4K at *
  have := of_decide_eq_true h
  omega

/-- Every call ends and keeps the regions. -/
theorem step_good (h : Good s rs) {e : Event} (hok : e.ok=true) :
    ∃ t rs',step s e=some t∧Good t rs' := by
  cases e with
  | reserve size =>
    have ⟨hm,hsize⟩ := checked_pages hok
    have ⟨t,addr,rs',ht,hsome,hnone⟩ := reserve_good h hm
    rw [hsize] at ht
    unfold step
    dsimp only
    rw [ht]
    cases addr with
    | none => exact ⟨_,rs',rfl,(hnone rfl).1⟩
    | some a => exact ⟨_,rs',rfl,hsome a rfl⟩
  | unReserve rsvAddr =>
    have ⟨t,ret,rs',ht,hgood⟩ := unReserve_good h rsvAddr
    unfold step
    dsimp only
    rw [ht]
    exact ⟨_,rs',rfl,hgood⟩
  | map addr size => exact ⟨_,rs,rfl,map_good h addr size⟩
  | unMap addr => exact ⟨_,rs,rfl,unMap_good h addr⟩

theorem run_good {es : List Event} {t : State} (h : Good s rs)
    (hrun : Run step (fun _ e => e.ok=true) s es t) : ∃ rs',Good t rs' := by
  refine hrun.invariant (fun u => ∃ rs',Good u rs') ⟨rs,h⟩ ?_
  rintro u u' e ⟨rs',hu⟩ hok hstep
  have ⟨t',rs'',ht,hgood⟩ := step_good hu hok
  cases Option.some.inj (ht.symm.trans hstep)
  exact ⟨rs'',hgood⟩

/-- The headers reached from the first entry are at some indices. -/
structure Mapped (s : State) (hs : List ℕ) : Prop where
  /-- Stepping by the sizes of the regions tiles the table. -/
  tiles : Tiles 0 (hs.map fun i => ⟨i,(s.dmm.virtualMappingTable i).regionSize⟩) s.dmm.tableSize
  /-- The headers marked reserved are the chunks that are out, with their sizes. -/
  live : ∀ b,b∈s.live ↔ b.start∈hs∧(s.dmm.virtualMappingTable b.start).reserved=true∧
    (s.dmm.virtualMappingTable b.start).regionSize=b.size
  /-- Chunks have no page in common. -/
  apart : s.live.Pairwise Block.Apart
  /-- A whole free region is remembered. -/
  cached : s.dmm.freeSize≠0 → s.dmm.freeRegion∈hs∧
    (s.dmm.virtualMappingTable s.dmm.freeRegion).reserved=false∧
    (s.dmm.virtualMappingTable s.dmm.freeRegion).regionSize*PG_SIZE4K=s.dmm.freeSize

theorem Good.toMapped (h : Good s rs) : Mapped s (rs.map Region.start) where
  tiles := by
    have hblocks : (rs.map Region.start).map
        (fun i => (⟨i,(s.dmm.virtualMappingTable i).regionSize⟩ : Block))=rs.map Region.block := by
      rw [List.map_map]
      refine List.map_congr_left fun r hr => ?_
      rw [Function.comp_apply,(h.tidy.holds r hr).1]
      rfl
    rw [hblocks]
    exact h.tidy.tiles
  live b := by
    rw [h.live,List.mem_map]
    constructor
    · exact fun hb => ⟨⟨_,hb,rfl⟩,(h.tidy.holds _ hb).2,(h.tidy.holds _ hb).1⟩
    · rintro ⟨⟨r,hr,hstart⟩,hres,hsize⟩
      have ⟨hs,hv⟩ := h.tidy.holds r hr
      rw [hstart,hsize] at hs
      rw [hstart,hres] at hv
      rw [hs,← hstart,hv]
      exact hr
  apart := h.apart
  cached hne := by
    have ⟨k,hk,hmem⟩ := h.cached
    have hpos : 0<k := Nat.pos_of_ne_zero fun hz => hne (by rw [hk,hz,Nat.zero_mul])
    have ⟨hs,hv⟩ := h.tidy.holds _ (hmem hpos)
    refine ⟨List.mem_map_of_mem (hmem hpos),hv,?_⟩
    rw [hs,hk]

/-- After every run the regions tile the table and the reserved ones are the
chunks that are out; every further call ends within the table, and memory is
refused only when no pages in a row would be enough. -/
theorem reservations_disjoint (d : Dmm) {mem : Bool} {addr size : ℕ} {es : List Event}
    (hcreated : (dmmCreateTables d mem addr size).1.created=true)
    (hrun : Run step (fun _ e => e.ok=true) ⟨(dmmCreateTables d mem addr size).1,[]⟩ es s) :
    (∃ hs,Mapped s hs)∧(∀ e : Event,e.ok=true → ∃ t,step s e=some t)∧
      ∀ n t,checked n=true → s.dmm.dmmReserveMemory s.dmm.rounds n=some (t,none) →
        ¬Room s (n/PG_SIZE4K) := by
  have ⟨rs,h⟩ := run_good (create_good d hcreated) hrun
  refine ⟨⟨_,h.toMapped⟩,fun e hok => ?_,fun n t hn ht => ?_⟩
  · have ⟨t,_,ht,_⟩ := step_good h hok
    exact ⟨t,ht⟩
  · have ⟨hm,hsize⟩ := checked_pages hn
    have ⟨t',addr,rs',ht',_,hnone⟩ := reserve_good h hm
    rw [hsize,ht] at ht'
    cases ht'
    exact (hnone rfl).2

/-- Two chunks that have been given back are joined for a larger one. -/
theorem reservations_disjoint_example : ∃ s,
    Run step (fun _ e => e.ok=true)
      ⟨(dmmCreateTables ⟨fun _ => ⟨0,false,0,false⟩,false,0,0,0,0⟩ true 65536 32768).1,[]⟩
      [.reserve 8192,.reserve 4096,.reserve 8192,.map 69632 8192,.unReserve 65536,
        .unReserve 73728,.reserve 12288,.reserve 12288] s∧
    s.live=[⟨0,3⟩,⟨5,3⟩,⟨3,2⟩]∧∃ hs,Mapped s hs := by
  have ⟨s,hrun,hlive⟩ := exists_run step (fun _ e => e.ok)
    ⟨(dmmCreateTables ⟨fun _ => ⟨0,false,0,false⟩,false,0,0,0,0⟩ true 65536 32768).1,[]⟩
    [.reserve 8192,.reserve 4096,.reserve 8192,.map 69632 8192,.unReserve 65536,
      .unReserve 73728,.reserve 12288,.reserve 12288] (fun s : State => decide (s.live=[⟨0,3⟩,⟨5,3⟩,⟨3,2⟩]))
    (by decide +kernel)
  exact ⟨s,hrun,of_decide_eq_true hlive,(reservations_disjoint _ rfl hrun).1⟩

end ArdroneKernel.DspDmm
