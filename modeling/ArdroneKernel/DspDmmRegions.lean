import ArdroneKernel.DspDmm

/-!
# Regions of the mapping table

The regions that are reached from the first entry by their sizes tile the
table, and no other entry is reserved. The search for a free region joins
free neighbours and remembers the largest free region.
-/

namespace ArdroneKernel.DspDmm

open BlockTilings Function

/-- A region, as its header describes it. -/
structure Region where
  /-- The index of the header. -/
  start : ℕ
  /-- How many pages it has. -/
  size : ℕ
  /-- Whether it has been reserved. -/
  reserved : Bool
  deriving DecidableEq

/-- The pages of a region. -/
def Region.block (r : Region) : Block := ⟨r.start,r.size⟩

/-- Two neighbours that cannot be joined. -/
def Region.Parted (a b : Region) : Prop := ¬(a.reserved=false∧b.reserved=false)

/-- The header of a region is in the table. -/
def Holds (f : ℕ → MapPage) (r : Region) : Prop :=
  (f r.start).regionSize=r.size∧(f r.start).reserved=r.reserved

/-- A table of so many entries, with its regions. -/
structure Tidy (f : ℕ → MapPage) (n : ℕ) (rs : List Region) : Prop where
  /-- The regions follow each other from the first entry to the last. -/
  tiles : Tiles 0 (rs.map Region.block) n
  /-- Their headers are in the table. -/
  holds : ∀ r∈rs,Holds f r
  /-- All other entries are not reserved. -/
  inner : ∀ i<n,(∀ r∈rs,r.start≠i) → (f i).reserved=false
  /-- No entry, not even an old one, has a size that leads out of the table. -/
  inside : ∀ i<n,i+(f i).regionSize≤n

variable {f g : ℕ → MapPage} {n i : ℕ} {rs pre old new post todo : List Region} {r : Region}

/-- An entry is changed, but not in one respect. -/
theorem update_same {α : Type} {φ : MapPage → α} {p : MapPage} (h : φ p=φ (f i)) (j : ℕ) :
    φ (update f i p j)=φ (f j) := by
  by_cases hj : j=i
  · rw [hj,update_self,h]
  · rw [update_of_ne hj]

theorem Tidy.bounds (h : Tidy f n rs) (hr : r∈rs) : 0<r.size∧r.start+r.size≤n :=
  (h.tiles.bounds (List.mem_map_of_mem hr)).2

/-- A header belongs to one region. -/
theorem Tidy.start_inj (h : Tidy f n rs) {q : Region} (hr : r∈rs) (hq : q∈rs)
    (hstart : r.start=q.start) : r=q := by
  have hpr := (h.bounds hr).1
  have hpq := (h.bounds hq).1
  have heq := h.tiles.unique (x := r.start) (List.mem_map_of_mem hr) (List.mem_map_of_mem hq)
    ⟨le_rfl,by
      unfold Region.block Block.stop
      dsimp only
      omega⟩ ⟨hstart.ge,by
      unfold Region.block Block.stop
      dsimp only
      omega⟩
  have hsize : r.size=q.size := congrArg Block.size heq
  have hres := (h.holds r hr).2
  rw [hstart,(h.holds q hq).2] at hres
  cases r
  cases q
  simp only at hstart hsize hres
  rw [hstart,hsize,hres]

theorem Tidy.congr (h : Tidy f n rs)
    (same : ∀ i,(g i).regionSize=(f i).regionSize∧(g i).reserved=(f i).reserved) :
    Tidy g n rs where
  tiles := h.tiles
  holds r hr := ⟨(same _).1.trans (h.holds r hr).1,(same _).2.trans (h.holds r hr).2⟩
  inner i hi hne := (same i).2.trans (h.inner i hi hne)
  inside i hi := (same i).1▸h.inside i hi

theorem tiles_map_append {lo hi : ℕ} {xs ys : List Region} :
    Tiles lo ((xs++ys).map Region.block) hi ↔
      ∃ mid,Tiles lo (xs.map Region.block) mid∧Tiles mid (ys.map Region.block) hi := by
  rw [List.map_append,tiles_append]

/-- The pages of some neighbours are divided in another way. -/
theorem Tidy.replace (h : Tidy f n (pre++old++post))
    (htiles : ∀ {lo hi},Tiles lo (old.map Region.block) hi → Tiles lo (new.map Region.block) hi)
    (houter : ∀ i,(∀ r∈old,¬r.block.Has i) → g i=f i) (hholds : ∀ r∈new,Holds g r)
    (hinner : ∀ i,(∃ r∈old,r.block.Has i) → (∀ r∈new,r.start≠i) → (g i).reserved=false)
    (hinside : ∀ i<n,i+(g i).regionSize≤n) : Tidy g n (pre++new++post) := by
  have hpair := h.tiles.pairwise
  rw [List.pairwise_map,List.pairwise_append,List.pairwise_append] at hpair
  have ⟨⟨_,_,hpre⟩,_,hpost⟩ := hpair
  have hkeep : ∀ r,r∈pre++post → r∈pre++old++post∧g r.start=f r.start := by
    intro r hr
    have hmem : r∈pre++old++post := by
      simp only [List.mem_append] at hr ⊢
      tauto
    refine ⟨hmem,houter r.start fun o ho hhas => ?_⟩
    have hpos := (h.bounds hmem).1
    unfold Block.Has at hhas
    unfold Region.block Block.stop at hhas hpre hpost
    dsimp only at hhas hpre hpost
    rcases List.mem_append.mp hr with hr|hr
    · have := hpre r hr o ho
      omega
    · have := hpost o (List.mem_append_right _ ho) r hr
      omega
  constructor
  · have ⟨mid,h1,h2⟩ := tiles_map_append.mp h.tiles
    have ⟨lo,h3,h4⟩ := tiles_map_append.mp h1
    exact tiles_map_append.mpr ⟨mid,tiles_map_append.mpr ⟨lo,h3,htiles h4⟩,h2⟩
  · intro r hr
    by_cases hnew : r∈new
    · exact hholds r hnew
    · have ⟨hmem,heq⟩ := hkeep r (by
        simp only [List.mem_append] at hr ⊢
        tauto)
      unfold Holds
      rw [heq]
      exact h.holds r hmem
  · intro i hi hne
    by_cases hold : ∃ r∈old,r.block.Has i
    · exact hinner i hold fun r hr => hne r (by simp [hr])
    · rw [houter i fun r hr hhas => hold ⟨r,hr,hhas⟩]
      refine h.inner i hi fun r hr heq => ?_
      by_cases hro : r∈old
      · refine hold ⟨r,hro,heq.le,?_⟩
        have := (h.bounds hr).1
        unfold Region.block Block.stop
        dsimp only
        omega
      · refine hne r ?_ heq
        simp only [List.mem_append] at hr ⊢
        tauto
  · exact hinside

/-- The region that is remembered, when there is one. -/
def Cached (s : Dmm) (rs : List Region) : Prop :=
  ∃ k,s.freeSize=k*PG_SIZE4K∧(0<k → (⟨s.freeRegion,k,false⟩ : Region)∈rs)

/-- The first of some regions is free and larger than so many pages. -/
def Swallowed (k : ℕ) (todo : List Region) : Prop :=
  ∃ r rest,todo=r::rest∧r.reserved=false∧k<r.size

/-- The region that is remembered, while the search looks at the first of the
regions to do, which may have swallowed it. -/
def Pending (s : Dmm) (pre todo : List Region) : Prop :=
  ∃ k,s.freeSize=k*PG_SIZE4K∧
    (0<k → (⟨s.freeRegion,k,false⟩ : Region)∈pre++todo∨Swallowed k todo)

/-- What is the same after a search: the reserved regions and the mappings. -/
structure Kept (s t : Dmm) (old rs : List Region) : Prop where
  tidy : Tidy t.virtualMappingTable t.tableSize rs
  /-- A free region is remembered. -/
  cached : Cached t rs
  reserved : ∀ r,r.reserved=true → (r∈rs ↔ r∈old)
  mapped : ∀ i,(t.virtualMappingTable i).mappedSize=(s.virtualMappingTable i).mappedSize
  size : t.tableSize=s.tableSize
  beg : t.dynMemMapBeg=s.dynMemMapBeg
  created : t.created=s.created

/-- What the search leads to. -/
structure Found (s t : Dmm) (old rs : List Region) : Prop extends Kept s t old rs where
  /-- No two free regions are neighbours. -/
  chain : rs.IsChain Region.Parted
  /-- None of them is larger than the one remembered. -/
  seen : ∀ r∈rs,r.reserved=false → r.size*PG_SIZE4K≤t.freeSize

/-! ## The search for a free region -/

/-- A free region swallows the free region after it. -/
theorem Tidy.join {a b : Region} (h : Tidy f n (pre++a::b::post)) (hn : n<2^20)
    (ha : a.reserved=false) (hb : b.reserved=false) :
    Tidy (update f a.start
        {f a.start with regionSize := ((f a.start).regionSize+(f b.start).regionSize)%2^31}) n
      (pre++⟨a.start,a.size+b.size,false⟩::post) := by
  have hmem : a∈pre++a::b::post∧b∈pre++a::b::post := by simp
  have ⟨hfa,hra⟩ := h.holds a hmem.1
  have hfb := (h.holds b hmem.2).1
  have ⟨hapos,_⟩ := h.bounds hmem.1
  have ⟨hbpos,hbn⟩ := h.bounds hmem.2
  have hnext : b.start=a.start+a.size := by
    have ht := h.tiles
    rw [List.map_append,List.map_cons,tiles_around] at ht
    exact ht.2.2.1
  have hmod : (a.size+b.size)%2^31=a.size+b.size := Nat.mod_eq_of_lt (by omega)
  rw [hfa,hfb,hmod]
  have hab : pre++a::b::post=pre++[a,b]++post := by simp
  rw [hab] at h
  rw [show ∀ c : Region,pre++c::post=pre++[c]++post by simp]
  refine h.replace ?_ ?_ ?_ ?_ ?_
  · intro lo hi ht
    exact Tiles.join [] ht
  · intro i hout
    refine update_of_ne ?_ _ _
    rintro rfl
    refine hout a (by simp) ⟨le_rfl,?_⟩
    unfold Region.block Block.stop
    dsimp only
    omega
  · intro c hc
    cases List.mem_singleton.mp hc
    unfold Holds
    rw [update_self]
    exact ⟨rfl,hra.trans ha⟩
  · rintro i ⟨c,hc,hhas⟩ hne
    have hia : i≠a.start := fun e => hne _ (List.mem_singleton_self _) e.symm
    rw [update_of_ne hia]
    by_cases hib : i=b.start
    · rw [hib,(h.holds b (by simp)).2,hb]
    · unfold Block.Has Region.block Block.stop at hhas
      dsimp only at hhas
      refine h.inner i ?_ fun d hd hdi => ?_
      · have := h.bounds (r := c) (by
          simp only [List.mem_append]
          tauto)
        omega
      · -- The entry would be a header in the interior of one of the two regions.
        have hcmem : c∈pre++[a,b]++post := by
          simp only [List.mem_append]
          tauto
        have hdpos := (h.bounds hd).1
        have heq := h.tiles.unique (x := i) (List.mem_map_of_mem hd) (List.mem_map_of_mem hcmem)
          ⟨hdi.le,by
            unfold Region.block Block.stop
            dsimp only
            omega⟩ hhas
        have hstart : d.start=c.start := congrArg Block.start heq
        rcases List.mem_pair.mp hc with rfl|rfl
        · exact hia (hdi.symm.trans hstart)
        · exact hib (hdi.symm.trans hstart)
  · intro i hi
    by_cases hia : i=a.start
    · rw [hia,update_self]
      dsimp only
      omega
    · rw [update_of_ne hia]
      exact h.inside i hi

theorem parted_left {a b : Region} (h : a.reserved=true) : a.Parted b := fun hab => by
  rw [hab.1] at h
  cases h

/-- Where the first of the regions to do starts, and where the next one does. -/
theorem tiles_first {s : Dmm} (h : Tiles i ((r::todo).map Region.block) s.tableSize) :
    r.start=i∧0<r.size∧i+r.size≤ s.tableSize∧
      Tiles (i+r.size) (todo.map Region.block) s.tableSize := by
  have ⟨hi,hpos,ht⟩ := h
  exact ⟨hi,hpos,hi▸ht.le,hi▸ht⟩

variable {s : Dmm}

/-- The search goes on behind a region that is not joined and not remembered. -/
theorem Pending.pass {k : ℕ} (hk : s.freeSize=k*PG_SIZE4K)
    (h : 0<k → (⟨s.freeRegion,k,false⟩ : Region)∈pre++r::todo∨Swallowed k (r::todo))
    (hno : r.reserved=false → r.size*PG_SIZE4K≤ s.freeSize) : Pending s (pre++[r]) todo := by
  refine ⟨k,hk,fun hpos => Or.inl ?_⟩
  rw [List.append_assoc]
  rcases h hpos with hmem|⟨q,rest,heq,hfree,hlt⟩
  · exact hmem
  · cases heq
    have hle := hno hfree
    unfold PG_SIZE4K at *
    omega

/-- The search ends; it leaves no free neighbours and remembers the largest
free region. -/
theorem freeLoop_spec {fuel : ℕ} (htidy : Tidy s.virtualMappingTable s.tableSize (pre++todo))
    (hsize : s.tableSize<2^20) (hi : Tiles i (todo.map Region.block) s.tableSize)
    (hpend : Pending s pre todo)
    (hseen : ∀ r∈pre,r.reserved=false → r.size*PG_SIZE4K≤ s.freeSize)
    (hchain : (pre++todo.take 1).IsChain Region.Parted) (hfuel : todo.length<fuel) :
    ∃ t rs,Dmm.freeLoop fuel s i=some t∧Found s t (pre++todo) rs := by
  induction fuel generalizing s pre todo i with
  | zero => omega
  | succ fuel ih =>
    unfold Dmm.freeLoop
    cases todo with
    | nil =>
      have hend : i=s.tableSize := hi
      rw [if_neg (by omega)]
      have hchain : pre.IsChain Region.Parted := by
        rwa [List.take_nil,List.append_nil] at hchain
      rw [List.append_nil] at *
      have ⟨k,hk,hmem⟩ := hpend
      refine ⟨s,pre,rfl,⟨htidy,⟨k,hk,fun hpos => ?_⟩,fun r _ => Iff.rfl,fun _ => rfl,rfl,rfl,rfl⟩,
        hchain,hseen⟩
      rcases hmem hpos with h|⟨_,_,h,_⟩
      · rwa [List.append_nil] at h
      · cases h
    | cons r todo =>
      have ⟨hstart,hpos,hle,hrest⟩ := tiles_first hi
      have ⟨hsz,hres⟩ := htidy.holds r (by simp)
      rw [hstart] at hsz hres
      have hmod : (i+r.size)%2^32=i+r.size := Nat.mod_eq_of_lt (by omega)
      have ⟨k,hk,hcache⟩ := hpend
      have hassoc : pre++r::todo=pre++[r]++todo := by simp
      rw [List.length_cons] at hfuel
      rw [if_pos (by omega)]
      dsimp only
      rw [hsz,hmod,hres]
      have hparted : ∀ {l},(∀ q rest,todo=q::rest → r.Parted q) → l=pre++[r] →
          (l++todo.take 1).IsChain Region.Parted := by
        rintro l hp rfl
        rw [List.append_assoc]
        cases todo with
        | nil => exact hchain
        | cons q rest =>
          exact List.isChain_append_cons_cons.mpr ⟨hchain,hp q rest rfl,List.isChain_singleton q⟩
      -- Passing the region when it stays as it is.
      have hpass : (∀ q rest,todo=q::rest → r.Parted q) →
          (r.reserved=false → r.size*PG_SIZE4K≤ s.freeSize) →
          ∃ t rs,Dmm.freeLoop fuel s (i+r.size)=some t∧Found s t (pre++r::todo) rs := by
        intro hp hno
        rw [hassoc] at htidy ⊢
        refine ih htidy hsize hrest (.pass hk hcache hno) ?_ (hparted hp rfl) (by omega)
        intro q hq hfree
        rcases List.mem_append.mp hq with hq|hq
        · exact hseen q hq hfree
        · cases List.mem_singleton.mp hq
          exact hno hfree
      cases hr : r.reserved with
      | true =>
        exact hpass (fun _ _ _ => parted_left hr) fun hfree => by
          rw [hr] at hfree
          cases hfree
      | false =>
        rw [if_pos rfl]
        have hbytes : r.size*PG_SIZE4K%2^32=r.size*PG_SIZE4K := by
          unfold PG_SIZE4K
          exact Nat.mod_eq_of_lt (by omega)
        -- The region is larger than the one remembered, or not.
        have hlook : (∀ q rest,todo=q::rest → r.Parted q) → ∃ t rs,
            (if r.size*PG_SIZE4K>s.freeSize then
              Dmm.freeLoop fuel {s with freeRegion := i,freeSize := r.size*PG_SIZE4K} (i+r.size)
            else Dmm.freeLoop fuel s (i+r.size))=some t∧Found s t (pre++r::todo) rs := by
          intro hp
          split
          next hlarger =>
            rw [hassoc] at htidy ⊢
            have ⟨t,rs,ht,hfound⟩ := ih (s := {s with
              freeRegion := i,freeSize := r.size*PG_SIZE4K}) htidy hsize hrest
              ⟨r.size,rfl,fun _ => Or.inl (by simp [← hstart,← hr])⟩ (fun q hq hfree => by
                rcases List.mem_append.mp hq with hq|hq
                · exact (hseen q hq hfree).trans hlarger.le
                · rw [List.mem_singleton.mp hq]) (hparted hp rfl) (by omega)
            exact ⟨t,rs,ht,{hfound with}⟩
          next hsmaller => exact hpass hp fun _ => Nat.le_of_not_gt hsmaller
        rw [hbytes]
        cases todo with
        | nil =>
          have hend : i+r.size=s.tableSize := hrest
          rw [if_neg (by omega)]
          exact hlook nofun
        | cons q rest =>
          have ⟨hqstart,hqpos,hqle,_⟩ := tiles_first hrest
          have ⟨hqsz,hqres⟩ := htidy.holds q (by simp)
          rw [← hqstart,hqres]
          cases hq : q.reserved with
          | true =>
            rw [if_neg (by simp),hqstart]
            exact hlook fun q' _ heq => by
              cases heq
              exact fun hp => by
                rw [hq] at hp
                cases hp.2
          | false =>
            rw [if_pos ⟨by omega,rfl⟩]
            have hjoin := htidy.join hsize hr hq
            dsimp only at hjoin
            rw [hstart,hsz,hres,hr] at hjoin
            generalize hg : update s.virtualMappingTable i _=g at hjoin ⊢
            have hmapped (j) : (g j).mappedSize=(s.virtualMappingTable j).mappedSize := by
              rw [← hg]
              refine update_same (φ := MapPage.mappedSize) ?_ j
              rfl
            have htiles : Tiles i (((⟨i,r.size+q.size,false⟩ : Region)::rest).map Region.block)
                s.tableSize := by
              have hjoined := Tiles.join [] hi
              rwa [show r.block.start=i from hstart] at hjoined
            have ⟨t,rs,ht,hfound⟩ := ih (s := {s with virtualMappingTable := g}) hjoin hsize htiles
              ?_ hseen ?_ (by simpa using hfuel)
            · refine ⟨t,rs,ht,{hfound with
                reserved := fun x hx => ?_,mapped := fun j => (hfound.mapped j).trans (hmapped j)}⟩
              rw [hfound.reserved x hx]
              simp only [List.mem_append,List.mem_cons]
              constructor
              · rintro (h|rfl|h)
                · exact Or.inl h
                · cases hx
                · exact Or.inr (Or.inr (Or.inr h))
              · rintro (h|rfl|rfl|h)
                · exact Or.inl h
                · rw [hr] at hx
                  cases hx
                · rw [hq] at hx
                  cases hx
                · exact Or.inr (Or.inr h)
            · -- A region that was swallowed is smaller than the joined one.
              refine ⟨k,hk,fun hkpos => ?_⟩
              have hlarger : k<r.size+q.size → Swallowed k (⟨i,r.size+q.size,false⟩::rest) :=
                fun hlt => ⟨_,rest,rfl,rfl,hlt⟩
              rcases hcache hkpos with hmem|⟨_,_,heq,_,hlt⟩
              · simp only [List.mem_append,List.mem_cons] at hmem
                rcases hmem with h|h|h|h
                · exact Or.inl (List.mem_append_left _ h)
                · have : k=r.size := congrArg Region.size h
                  exact Or.inr (hlarger (by omega))
                · have : k=q.size := congrArg Region.size h
                  exact Or.inr (hlarger (by omega))
                · exact Or.inl (List.mem_append_right _ (List.mem_cons_of_mem _ h))
              · cases heq
                exact Or.inr (hlarger (by omega))
            · have ⟨hpre,_,hlast⟩ := List.isChain_append.mp hchain
              refine List.isChain_append.mpr ⟨hpre,List.isChain_singleton _,fun x hx y hy => ?_⟩
              cases hy
              exact fun hxy => hlast x hx r rfl ⟨hxy.1,hr⟩

end ArdroneKernel.DspDmm
