import ArdroneKernel.BlockTilings
import ArdroneKernel.DspCmm
import ArdroneKernel.Execution

/-!
# Runs of the shared-memory allocator

A block that goes to the free list is combined with its neighbours there, so
no two free blocks touch, and the free blocks and the blocks in use cover a
segment once.
-/

namespace ArdroneKernel.DspCmm

open BlockTilings Execution Function

/-- The block of a node. -/
def Mnode.block (m : Mnode) : Block := ⟨m.pa,m.size⟩

/-- In how many of the blocks an address is. -/
def covered (l : List Mnode) (x : ℕ) : ℕ := coverage (l.map Mnode.block) x

variable {l l' : List Mnode} {m p : Mnode} {x : ℕ}

theorem covered_perm (h : l.Perm l') (x : ℕ) : covered l x=covered l' x :=
  coverage_perm (h.map _) x

theorem covered_cons (m : Mnode) (l : List Mnode) (x : ℕ) :
    covered (m::l) x=m.block.count x+covered l x := rfl

theorem covered_erase (hm : m∈l) (x : ℕ) : covered l x=m.block.count x+covered (l.erase m) x :=
  covered_perm (List.perm_cons_erase hm) x

/-- A block of memory, at a distance between physical and virtual addresses. -/
structure Placed (base vm : ℕ) (m : Mnode) : Prop where
  pos : 0< m.size
  low : 0< m.pa
  high : m.pa+m.size≤2^32
  virtual : m.va+base=m.pa+vm

/-- Free blocks, the smallest first, no two of which touch. -/
structure Neat (base vm : ℕ) (l : List Mnode) : Prop where
  placed : ∀ m∈l,Placed base vm m
  sorted : l.Pairwise fun a b => a.size≤b.size
  gaps : ∀ a∈l,∀ b∈l,a.pa+a.size≠b.pa

/-- A block that is to go to the free list. -/
structure Fits (base vm : ℕ) (l : List Mnode) (p : Mnode) : Prop where
  neat : Neat base vm l
  placed : Placed base vm p
  once : ∀ x,covered l x+p.block.count x≤1

variable {base vm thisPa nextPa : ℕ}

theorem Placed.next_eq (hm : Placed base vm m) (hp : Placed base vm p) :
    p.pa=m.nextPa ↔ m.pa+m.size=p.pa := by
  have h1 := hm.high
  have h2 := hp.high
  have h3 := hp.low
  have h4 := hp.pos
  unfold Mnode.nextPa
  omega

theorem Neat.erase (h : Neat base vm l) (m : Mnode) : Neat base vm (l.erase m) where
  placed k hk := h.placed k (List.mem_of_mem_erase hk)
  sorted := h.sorted.sublist List.erase_sublist
  gaps a ha b hb := h.gaps a (List.mem_of_mem_erase ha) b (List.mem_of_mem_erase hb)

/-- What the loop finds. -/
theorem neighbours_spec {prev next P N : Option Mnode}
    (h : neighbours thisPa nextPa l prev next=(P,N)) :
    (P=prev∨∃ m∈l,thisPa=m.nextPa∧P=some m)∧(N=next∨∃ m∈l,nextPa=m.pa∧N=some m)∧
    (P=none → prev=none∧∀ m∈l,thisPa≠m.nextPa)∧
    (N=none → next=none∧∀ m∈l,thisPa=m.nextPa∨nextPa≠m.pa) := by
  induction l generalizing prev next with
  | nil =>
    cases h
    exact ⟨Or.inl rfl,Or.inl rfl,fun e => ⟨e,nofun⟩,fun e => ⟨e,nofun⟩⟩
  | cons m l ih =>
    unfold neighbours at h
    -- The loop goes on with what it has found, or stops with both.
    have hgo : ∀ {prev' next' : Option Mnode},
        (if prev'=none∨next'=none then neighbours thisPa nextPa l prev' next'
          else (prev',next'))=(P,N) →
        (P=prev'∨∃ m∈l,thisPa=m.nextPa∧P=some m)∧(N=next'∨∃ m∈l,nextPa=m.pa∧N=some m)∧
        (P=none → prev'=none∧∀ m∈l,thisPa≠m.nextPa)∧
        (N=none → next'=none∧∀ m∈l,thisPa=m.nextPa∨nextPa≠m.pa) := by
      intro prev' next' h
      split at h
      · exact ih h
      next hboth =>
        cases h
        exact ⟨Or.inl rfl,Or.inl rfl,fun e => absurd (Or.inl e) hboth,
          fun e => absurd (Or.inr e) hboth⟩
    by_cases hthis : thisPa=m.nextPa
    · rw [if_pos hthis] at h
      have ⟨h1,h2,h3,h4⟩ := hgo h
      refine ⟨Or.inr ?_,?_,fun e => ?_,fun e => ?_⟩
      · rcases h1 with e|⟨k,hk,hkt,e⟩
        · exact ⟨m,List.mem_cons_self,hthis,e⟩
        · exact ⟨k,List.mem_cons_of_mem m hk,hkt,e⟩
      · exact h2.imp id fun ⟨k,hk,he⟩ => ⟨k,List.mem_cons_of_mem m hk,he⟩
      · cases (h3 e).1
      · exact ⟨(h4 e).1,List.forall_mem_cons.mpr ⟨Or.inl hthis,(h4 e).2⟩⟩
    · rw [if_neg hthis] at h
      by_cases hnext : nextPa=m.pa
      · rw [if_pos hnext] at h
        have ⟨h1,h2,h3,h4⟩ := hgo h
        refine ⟨?_,Or.inr ?_,fun e => ?_,fun e => ?_⟩
        · exact h1.imp id fun ⟨k,hk,he⟩ => ⟨k,List.mem_cons_of_mem m hk,he⟩
        · rcases h2 with e|⟨k,hk,hkt,e⟩
          · exact ⟨m,List.mem_cons_self,hnext,e⟩
          · exact ⟨k,List.mem_cons_of_mem m hk,hkt,e⟩
        · exact ⟨(h3 e).1,List.forall_mem_cons.mpr ⟨hthis,(h3 e).2⟩⟩
        · cases (h4 e).1
      · rw [if_neg hnext] at h
        have ⟨h1,h2,h3,h4⟩ := hgo h
        exact ⟨h1.imp id fun ⟨k,hk,he⟩ => ⟨k,List.mem_cons_of_mem m hk,he⟩,
          h2.imp id fun ⟨k,hk,he⟩ => ⟨k,List.mem_cons_of_mem m hk,he⟩,
          fun e => ⟨(h3 e).1,List.forall_mem_cons.mpr ⟨hthis,(h3 e).2⟩⟩,
          fun e => ⟨(h4 e).1,List.forall_mem_cons.mpr ⟨Or.inr hnext,(h4 e).2⟩⟩⟩

/-- A node combined with the block before it. -/
theorem Fits.withPrev (h : Fits base vm l p) (hm : m∈l) (htouch : m.pa+m.size=p.pa) :
    (p.size+m.size)%2^32=p.size+m.size∧
      Fits base vm (l.erase m) ⟨m.pa,m.va,p.size+m.size⟩∧
      ∀ x,covered (l.erase m) x+(⟨m.pa,p.size+m.size⟩ : Block).count x=
        covered l x+p.block.count x := by
  have hmp := h.neat.placed m hm
  have hhigh := h.placed.high
  have hlow := hmp.low
  have hcount : ∀ x,covered (l.erase m) x+(⟨m.pa,p.size+m.size⟩ : Block).count x=
      covered l x+p.block.count x := by
    intro x
    rw [Nat.add_comm p.size,count_add,htouch,covered_erase hm]
    unfold Mnode.block
    omega
  refine ⟨Nat.mod_eq_of_lt (by omega),⟨h.neat.erase m,⟨?_,hlow,?_,hmp.virtual⟩,fun x => ?_⟩,hcount⟩
  · exact Nat.add_pos_left h.placed.pos _
  · dsimp only
    omega
  · exact (hcount x).trans_le (h.once x)

/-- A node combined with the block after it. -/
theorem Fits.withNext (h : Fits base vm l p) (hm : m∈l) (htouch : p.pa+p.size=m.pa) :
    (p.size+m.size)%2^32=p.size+m.size∧
      Fits base vm (l.erase m) ⟨p.pa,p.va,p.size+m.size⟩∧
      ∀ x,covered (l.erase m) x+(⟨p.pa,p.size+m.size⟩ : Block).count x=
        covered l x+p.block.count x := by
  have hmp := h.neat.placed m hm
  have hhigh := hmp.high
  have hlow := h.placed.low
  have hcount : ∀ x,covered (l.erase m) x+(⟨p.pa,p.size+m.size⟩ : Block).count x=
      covered l x+p.block.count x := by
    intro x
    rw [count_add,htouch,covered_erase hm]
    unfold Mnode.block
    omega
  refine ⟨Nat.mod_eq_of_lt (by omega),⟨h.neat.erase m,⟨?_,hlow,?_,h.placed.virtual⟩,fun x => ?_⟩,
    hcount⟩
  · exact Nat.add_pos_left h.placed.pos _
  · dsimp only
    omega
  · exact (hcount x).trans_le (h.once x)

/-- A node that touches no free block goes to its place by size. -/
theorem Fits.insert (h : Fits base vm l p) (hprev : ∀ k∈l,k.pa+k.size≠p.pa)
    (hnext : ∀ k∈l,p.pa+p.size≠k.pa) :
    Neat base vm (l.orderedInsert (fun a b => a.size≤b.size) p) := by
  have hmem : ∀ k,k∈l.orderedInsert (fun a b => a.size≤b.size) p ↔ k=p∨k∈l := fun k =>
    List.mem_orderedInsert _
  constructor
  · intro k hk
    rcases (hmem k).mp hk with rfl|hk
    · exact h.placed
    · exact h.neat.placed k hk
  · exact h.neat.sorted.orderedInsert p l
  · intro a ha b hb
    have hpos := h.placed.pos
    rcases (hmem a).mp ha with rfl|ha'
    · rcases (hmem b).mp hb with rfl|hb'
      · omega
      · exact hnext b hb'
    · rcases (hmem b).mp hb with rfl|hb'
      · exact hprev a ha'
      · exact h.neat.gaps a ha' b hb'

theorem covered_insert (l : List Mnode) (p : Mnode) (x : ℕ) :
    covered (l.orderedInsert (fun a b => a.size≤b.size) p) x=covered l x+p.block.count x := by
  rw [covered_perm (List.perm_orderedInsert _ p l),covered_cons]
  exact Nat.add_comm _ _

/-- The end of `add_to_free_list`, when nothing free ends where the node starts. -/
theorem Fits.finish (h : Fits base vm l p) (hprev : ∀ k∈l,k.pa+k.size≠p.pa) {N : Option Mnode}
    (hsome : ∀ m,N=some m → m∈l∧p.pa+p.size=m.pa) (hnone : N=none → ∀ k∈l,p.pa+p.size≠k.pa) :
    Neat base vm ((takeNext l p N).2.orderedInsert (fun a b => a.size≤b.size)
        (takeNext l p N).1)∧
      ∀ x,covered ((takeNext l p N).2.orderedInsert (fun a b => a.size≤b.size)
        (takeNext l p N).1) x=covered l x+p.block.count x := by
  cases N with
  | none => exact ⟨h.insert hprev (hnone rfl),covered_insert l p⟩
  | some m =>
    have ⟨hm,htouch⟩ := hsome m rfl
    have ⟨hmod,hfits,hcount⟩ := h.withNext hm htouch
    unfold takeNext
    dsimp only
    rw [hmod]
    refine ⟨hfits.insert (fun k hk => hprev k (List.mem_of_mem_erase hk)) fun k hk => ?_,
      fun x => (covered_insert _ _ x).trans (hcount x)⟩
    -- The block after it touches no other free block.
    have := h.neat.gaps m hm k (List.mem_of_mem_erase hk)
    dsimp only
    omega

/-- A block that is added to the free list is free, and nothing else changes
about what is free. -/
theorem addToFreeList_spec (h : Fits base vm l p) :
    Neat base vm (addToFreeList l p).1∧
      ∀ x,covered (addToFreeList l p).1 x=covered l x+p.block.count x := by
  unfold addToFreeList
  cases hfound : neighbours p.pa p.nextPa l none none with
  | mk P N =>
    have ⟨hP,hN,hnoP,hnoN⟩ := neighbours_spec hfound
    have hplaced := h.neat.placed
    have hpp := h.placed
    -- The block after the node, as the loop has found it.
    have hnext : ∀ m,N=some m → m∈l∧p.pa+p.size=m.pa := by
      intro m e
      rcases hN with e'|⟨k,hk,hkp,e'⟩
      · rw [e] at e'
        cases e'
      · cases Option.some.inj (e.symm.trans e')
        exact ⟨hk,(hpp.next_eq (hplaced m hk)).mp hkp.symm⟩
    have hnonext : N=none → ∀ k∈l,p.pa+p.size≠k.pa := by
      intro e k hk htouch
      have hppos := hpp.pos
      rcases (hnoN e).2 k hk with hprev|hne
      · have := ((hplaced k hk).next_eq hpp).mp hprev
        omega
      · exact hne ((hpp.next_eq (hplaced k hk)).mpr htouch).symm
    cases P with
    | none =>
      have hprev : ∀ k∈l,k.pa+k.size≠p.pa := fun k hk e =>
        (hnoP rfl).2 k hk (((hplaced k hk).next_eq hpp).mpr e)
      exact h.finish hprev hnext hnonext
    | some m =>
      rcases hP with e|⟨k,hm,hmp,e⟩
      · cases e
      cases e
      have htouch := ((hplaced m hm).next_eq hpp).mp hmp
      have ⟨hmod,hfits,hcount⟩ := h.withPrev hm htouch
      have hppos := hpp.pos
      unfold takePrev
      dsimp only
      rw [hmod]
      have ⟨hneat,hcover⟩ := hfits.finish (N := N)
        (fun k hk => h.neat.gaps k (List.mem_of_mem_erase hk) m hm) (fun k e => ?_) fun e k hk => ?_
      · exact ⟨hneat,fun x => (hcover x).trans (hcount x)⟩
      · have ⟨hk,hkp⟩ := hnext k e
        refine ⟨(List.mem_erase_of_ne ?_).mpr hk,?_⟩
        · rintro rfl
          omega
        · dsimp only
          omega
      · have := hnonext e k (List.mem_of_mem_erase hk)
        dsimp only
        omega

/-! ## Sizes -/

/-- The mask leaves the multiples of a power of two. -/
theorem land_mask {n k : ℕ} (hn : n<2^32) (hk : k≤32) : n&&&(2^32-1-(2^k-1))=n/2^k*2^k := by
  have hmask : 2^32-1-(2^k-1)=(2^(32-k)-1)<<<k := by
    have hpow : 2^(32-k)*2^k=2^32 := by
      rw [← Nat.pow_add,Nat.sub_add_cancel hk]
    have := Nat.two_pow_pos k
    rw [Nat.shiftLeft_eq,Nat.sub_mul,Nat.one_mul,hpow]
    omega
  have hdiv : n/2^k*2^k=(n>>>k)<<<k := by
    rw [Nat.shiftLeft_eq,Nat.shiftRight_eq_div_pow]
  rw [hmask,hdiv]
  refine Nat.eq_of_testBit_eq fun i => ?_
  rw [Nat.testBit_and,Nat.testBit_shiftLeft,Nat.testBit_shiftLeft,Nat.testBit_shiftRight,
    Nat.testBit_two_pow_sub_one]
  by_cases hi : k≤ i
  · have hadd : k+(i-k)=i := by omega
    rw [hadd]
    by_cases hi' : i<32
    · have hlt : i-k<32-k := by omega
      simp [hi,hlt]
    · have hzero : n.testBit i=false :=
        Nat.testBit_lt_two_pow (hn.trans_le (Nat.pow_le_pow_right (by decide) (by omega)))
      simp [hzero]
  · simp [hi]

/-- A size that is not zero is not made smaller, unless it wraps around to zero. -/
theorem le_roundSize {k usize : ℕ} (hk : k≤31) (hu : 0<usize) (hfit : usize<2^32)
    (hpos : 0<roundSize (2^k) usize) : usize≤roundSize (2^k) usize := by
  have hmask := land_mask (n := usize-1) (k := k) (by omega) (by omega)
  unfold roundSize at hpos ⊢
  rw [hmask] at hpos ⊢
  have hdiv := Nat.div_add_mod (usize-1) (2^k)
  rw [Nat.mul_comm] at hdiv
  -- Rounding stops at 2^32, which becomes zero.
  have hle : (usize-1)/2^k*2^k+2^k≤2^32 := by
    have hq : (usize-1)/2^k<2^(32-k) := by
      rw [Nat.div_lt_iff_lt_mul (Nat.two_pow_pos k),← Nat.pow_add,Nat.sub_add_cancel (by omega)]
      omega
    have hmul := Nat.mul_le_mul_right (2^k) (Nat.succ_le_of_lt hq)
    rw [← Nat.pow_add,Nat.sub_add_cancel (by omega),Nat.succ_mul] at hmul
    exact hmul
  rcases Nat.lt_or_eq_of_le hle with h|h
  · omega
  · omega

/-! ## A segment -/

/-- What holds of a segment between the calls. -/
structure Good (a : Allocator) : Prop where
  /-- Every address of the segment is in one block, and no other address is. -/
  cover : ∀ x,covered a.inUseList x+covered a.freeList x=
    if a.shmBase≤x∧x<a.shmBase+a.smSize then 1 else 0
  neat : Neat a.shmBase a.vmBase a.freeList
  used : ∀ m∈a.inUseList,Placed a.shmBase a.vmBase m
  high : a.vmBase+a.smSize≤2^32

variable {a : Allocator}

theorem Good.inside (h : Good a) (hx : 0<covered a.inUseList x+covered a.freeList x) :
    a.shmBase≤x∧x<a.shmBase+a.smSize := by
  rw [h.cover] at hx
  split at hx
  next hin => exact hin
  · omega

/-- A block ends in the segment. -/
theorem Good.stop_le (h : Good a) (hm : m∈a.freeList) : m.pa+m.size≤a.shmBase+a.smSize := by
  have hpos := (h.neat.placed m hm).pos
  have hcount : m.block.count (m.pa+m.size-1)=1 := by
    refine count_of_has ⟨?_,?_⟩
    · unfold Mnode.block
      dsimp only
      omega
    · unfold Mnode.block Block.stop
      dsimp only
      omega
  have hin := h.inside (x := m.pa+m.size-1) (by
    rw [covered_erase hm,hcount]
    omega)
  omega

theorem Good.once (h : Good a) (x : ℕ) : covered a.inUseList x+covered a.freeList x≤1 := by
  rw [h.cover]
  split <;> omega

/-- A block in use is freed. -/
theorem Good.free (h : Good a) (hm : m∈a.inUseList) :
    Good {a with
      freeList := (addToFreeList a.freeList m).1
      inUseList := a.inUseList.erase m} := by
  have hfits : Fits a.shmBase a.vmBase a.freeList m := by
    refine ⟨h.neat,h.used m hm,fun x => ?_⟩
    have := h.once x
    rw [covered_erase hm] at this
    omega
  have ⟨hneat,hcover⟩ := addToFreeList_spec hfits
  refine ⟨fun x => ?_,hneat,fun k hk => h.used k (List.mem_of_mem_erase hk),h.high⟩
  dsimp only
  rw [← h.cover,hcover,covered_erase hm]
  omega

theorem covered_append (l l' : List Mnode) (x : ℕ) :
    covered (l++l') x=covered l x+covered l' x := by
  unfold covered
  rw [List.map_append,coverage_append]

/-- A free block is used as a whole. -/
theorem Good.take (h : Good a) (hm : m∈a.freeList) :
    Good {a with freeList := a.freeList.erase m,inUseList := a.inUseList++[m]} := by
  refine ⟨fun x => ?_,h.neat.erase m,fun k hk => ?_,h.high⟩
  · dsimp only
    rw [← h.cover,covered_append,covered_erase hm,covered_cons]
    change _+(_+0)+_=_
    omega
  · rcases List.mem_append.mp hk with hk|hk
    · exact h.used k hk
    · cases List.mem_singleton.mp hk
      exact h.neat.placed m hm

/-- The first part of a free block is used, and the rest is free. -/
theorem Good.split (h : Good a) (hm : m∈a.freeList) {n : ℕ} (hn : 0<n) (hlt : n< m.size) :
    (m.pa+n)%2^32=m.pa+n∧(m.va+n)%2^32=m.va+n∧
    Good {a with
      freeList := (addToFreeList (a.freeList.erase m) ⟨m.pa+n,m.va+n,m.size-n⟩).1
      inUseList := a.inUseList++[{m with size := n}]} := by
  have hplaced := h.neat.placed m hm
  have hhigh := hplaced.high
  have hlow := hplaced.low
  have hvirtual := hplaced.virtual
  have hstop := h.stop_le hm
  have hvhigh := h.high
  have hcut : ∀ x,m.block.count x=
      (⟨m.pa,n⟩ : Block).count x+(⟨m.pa+n,m.size-n⟩ : Block).count x := fun x => by
    rw [← count_add,Nat.add_sub_cancel' hlt.le]
    rfl
  have hfits : Fits a.shmBase a.vmBase (a.freeList.erase m) ⟨m.pa+n,m.va+n,m.size-n⟩ := by
    refine ⟨h.neat.erase m,⟨Nat.sub_pos_of_lt hlt,Nat.add_pos_left hlow n,?_,?_⟩,fun x => ?_⟩
    · dsimp only
      omega
    · dsimp only
      omega
    · have := h.once x
      rw [covered_erase hm,hcut] at this
      change covered _ x+(⟨m.pa+n,m.size-n⟩ : Block).count x≤1
      omega
  have ⟨hneat,hcover⟩ := addToFreeList_spec hfits
  refine ⟨Nat.mod_eq_of_lt (by omega),Nat.mod_eq_of_lt (by omega),fun x => ?_,hneat,fun k hk => ?_,
    hvhigh⟩
  · rw [← h.cover,hcover,covered_append,covered_erase hm,hcut]
    change _+((⟨m.pa,n⟩ : Block).count x+0)+(_+(⟨m.pa+n,m.size-n⟩ : Block).count x)=_
    omega
  · rcases List.mem_append.mp hk with hk|hk
    · exact h.used k hk
    · cases List.mem_singleton.mp hk
      refine ⟨hn,hlow,?_,hvirtual⟩
      dsimp only
      omega

/-! ## Calls -/

/-- What holds between the calls. -/
structure AllGood (k : ℕ) (s : Cmm) : Prop where
  min : s.minBlockSize=2^k
  segments : ∀ slot a,s.segTab slot=some a → Good a

variable {k slot usize segId pa n : ℕ} {s t : Cmm} {mem : Bool}

/-- A segment takes the place of another. -/
theorem AllGood.update {s' : Cmm} (h : AllGood k s) (hmin : s'.minBlockSize=s.minBlockSize)
    (htab : s'.segTab=update s.segTab slot (some a)) (ha : Good a) : AllGood k s' := by
  refine ⟨hmin.trans h.min,fun i b hb => ?_⟩
  rw [htab] at hb
  by_cases hi : i=slot
  · rw [hi,update_self] at hb
    cases hb
    exact ha
  · rw [update_of_ne hi] at hb
    exact h.segments i b hb

/-- A new segment is one free block. -/
theorem registered_good (hm : Placed base vm ⟨base,vm,n⟩) (hvm : vm+n≤2^32) :
    Good ⟨base,n,vm,[⟨base,vm,n⟩],[]⟩ := by
  refine ⟨fun x => Nat.zero_add _,⟨?_,List.pairwise_singleton _ _,?_⟩,nofun,hvm⟩
  · intro m hm'
    cases List.mem_singleton.mp hm'
    exact hm
  · intro c hc d hd
    cases List.mem_singleton.mp hc
    cases List.mem_singleton.mp hd
    have := hm.pos
    omega

theorem getNode_eq {kept va size : ℕ} {r : Mnode×ℕ} (h : getNode kept mem pa va size=some r) :
    r.1=⟨pa,va,size⟩ := by
  unfold getNode at h
  split at h
  · split at h <;> cases h
    rfl
  · cases h
    rfl

/-- A segment is registered where there is none. -/
theorem register_cases (s : Cmm) (basePa size baseVa : ℕ) (mem node : Bool) :
    (s.cmmRegisterGppsmSeg basePa size baseVa mem node).1=s∨
    ∃ slot kept,s.segTab slot=none∧s.minBlockSize≤ size∧
      (s.cmmRegisterGppsmSeg basePa size baseVa mem node).1={s with
        nodeFreeList := kept
        segTab := update s.segTab slot
          (some ⟨basePa,size,baseVa,[⟨basePa,baseVa,size⟩],[]⟩)} := by
  unfold Cmm.cmmRegisterGppsmSeg
  cases hslot : s.getSlot with
  | none => exact Or.inl rfl
  | some slot =>
    have hfree : s.segTab slot=none := Option.isNone_iff_eq_none.mp
      (List.find?_some (p := fun slot => (s.segTab slot).isNone) hslot)
    dsimp only
    split
    · exact Or.inl rfl
    next hsize =>
      split
      · cases hnode : getNode s.nodeFreeList node basePa baseVa size with
        | none => exact Or.inl rfl
        | some r =>
          rw [← getNode_eq hnode]
          exact Or.inr ⟨slot,r.2,hfree,Nat.le_of_not_lt hsize,rfl⟩
      · exact Or.inl rfl

/-- What a block is used for: what is free afterwards is good. -/
theorem splitBlock_spec (hs : AllGood k s) (h : Good a) (hm : m∈a.freeList) (hn : 0<n)
    (hfit : n≤ m.size) (hnode : n+s.minBlockSize≤ m.size → s.nodeFreeList≠0∨mem=true)
    {l' : List Mnode} {b : Mnode} {kept : ℕ}
    (hsplit : s.splitBlock mem n m (a.freeList.erase m)=(l',b,kept)) :
    Good {a with freeList := l',inUseList := a.inUseList++[b]}∧
      b.pa=m.pa∧b.va=m.va∧n≤b.size∧b.size≤ m.size∧
      (m.size=n∨n+s.minBlockSize≤ m.size → b.size=n) := by
  have hpos : 0<s.minBlockSize := by
    rw [hs.min]
    exact Nat.two_pow_pos k
  unfold Cmm.splitBlock at hsplit
  dsimp only at hsplit
  split at hsplit
  next hrest =>
    have hlt : n< m.size := by omega
    have ⟨hpa,hva,hgood⟩ := h.split hm hn hlt
    have ⟨kept',hgot⟩ : ∃ kept',getNode s.nodeFreeList mem ((m.pa+n)%2^32) ((m.va+n)%2^32)
        (m.size-n)=some (⟨m.pa+n,m.va+n,m.size-n⟩,kept') := by
      unfold getNode
      rw [hpa,hva]
      split
      next hkept =>
        have hmem := (hnode (by omega)).resolve_left fun h => h hkept
        exact ⟨0,if_pos hmem⟩
      · exact ⟨_,rfl⟩
    rw [hgot] at hsplit
    cases hsplit
    exact ⟨hgood,rfl,rfl,le_rfl,hfit,fun _ => rfl⟩
  next hrest =>
    cases hsplit
    refine ⟨h.take hm,rfl,rfl,hfit,le_rfl,fun hor => ?_⟩
    omega

/-- What a request does. -/
theorem cmmCallocBuf_cases (mem : Bool) (hs : s.segTab (segId-1)=some a) (hu : usize≠0) :
    (s.cmmCallocBuf usize segId mem=(s,none)∧
      ∀ m∈a.freeList,m.size<roundSize s.minBlockSize usize)∨
    ∃ m l b kept,m∈a.freeList∧roundSize s.minBlockSize usize≤ m.size∧
      getFreeBlock (roundSize s.minBlockSize usize) a.freeList=some (m,a.freeList.erase m)∧
      s.splitBlock mem (roundSize s.minBlockSize usize) m (a.freeList.erase m)=(l,b,kept)∧
      s.cmmCallocBuf usize segId mem=
        ({s with
          nodeFreeList := kept
          segTab := update s.segTab (segId-1)
            (some {a with freeList := l,inUseList := a.inUseList++[b]})
          memory := clearMem s.memory b.va (roundSize s.minBlockSize usize)},some b.pa) := by
  unfold Cmm.cmmCallocBuf
  rw [if_pos hu,hs]
  dsimp only
  cases hfind : a.freeList.find? fun m => roundSize s.minBlockSize usize≤ m.size with
  | none =>
    refine Or.inl ⟨?_,fun m hm => ?_⟩
    · unfold getFreeBlock
      rw [hfind]
      rfl
    · have := List.find?_eq_none.mp hfind m hm
      exact Nat.lt_of_not_le fun hle => this (decide_eq_true hle)
  | some m =>
    have hget : getFreeBlock (roundSize s.minBlockSize usize) a.freeList=
        some (m,a.freeList.erase m) := by
      unfold getFreeBlock
      rw [hfind]
      rfl
    have hfits := List.find?_some hfind
    rw [hget]
    exact Or.inr ⟨m,_,_,_,List.mem_of_find?_eq_some hfind,of_decide_eq_true hfits,rfl,rfl,rfl⟩

/-- What a call to free a block does. -/
theorem cmmFreeBuf_cases (pa : ℕ) (hs : s.segTab ((if segId=0 then 1 else segId)-1)=some a) :
    (s.cmmFreeBuf pa segId=(s,-EFAULT)∧∀ m∈a.inUseList,pa≠m.pa)∨
    ∃ m kept,m∈a.inUseList∧m.pa=pa∧
      s.cmmFreeBuf pa segId=
        ({s with
          nodeFreeList := kept
          segTab := update s.segTab ((if segId=0 then 1 else segId)-1)
            (some {a with
              freeList := (addToFreeList a.freeList m).1
              inUseList := a.inUseList.erase m})},0) := by
  unfold Cmm.cmmFreeBuf
  dsimp only
  rw [hs]
  dsimp only
  cases hfind : a.inUseList.find? fun m => pa=m.pa with
  | none =>
    refine Or.inl ⟨rfl,fun m hm he => ?_⟩
    exact List.find?_eq_none.mp hfind m hm (decide_eq_true he)
  | some m =>
    have haddr := List.find?_some hfind
    exact Or.inr ⟨m,_,List.mem_of_find?_eq_some hfind,(of_decide_eq_true haddr).symm,rfl⟩

/-- A request finds a node for what is left over of the block it takes. -/
theorem request_split (h : AllGood k s) (hk : k≤31) (hs : s.segTab (segId-1)=some a)
    (hu : usize≠0) (hfit : usize<2^32)
    (hsafe : (Event.calloc usize segId mem).safe s=true) (hm : m∈a.freeList)
    (hget : getFreeBlock (roundSize s.minBlockSize usize) a.freeList=some (m,a.freeList.erase m))
    (hle : roundSize s.minBlockSize usize≤ m.size) {l : List Mnode} {b : Mnode} {kept : ℕ}
    (hsplit : s.splitBlock mem (roundSize s.minBlockSize usize) m (a.freeList.erase m)=
      (l,b,kept)) :
    Good {a with freeList := l,inUseList := a.inUseList++[b]}∧
      b.pa=m.pa∧b.va=m.va∧usize≤b.size∧b.size≤ m.size∧
      (m.size=roundSize s.minBlockSize usize∨roundSize s.minBlockSize usize+s.minBlockSize≤ m.size →
        b.size=roundSize s.minBlockSize usize) := by
  have hsafe := (of_decide_eq_true hsafe).resolve_left hu
  rw [hs,Option.all_some,hget,Option.all_some] at hsafe
  have ⟨hpos,hnode⟩ := of_decide_eq_true hsafe
  have ⟨hgood,hpa,hva,hlow,hhigh,hexact⟩ :=
    splitBlock_spec h (h.segments _ a hs) hm hpos hle hnode hsplit
  refine ⟨hgood,hpa,hva,Nat.le_trans ?_ hlow,hhigh,hexact⟩
  rw [h.min] at hpos ⊢
  exact le_roundSize hk (Nat.pos_of_ne_zero hu) hfit hpos

theorem step_good {e : Event} (hk : k≤31) (h : AllGood k s) (hok : e.ok=true)
    (hsafe : e.safe s=true) (hstep : step s e=some t) : AllGood k t := by
  cases e with
  | register basePa size baseVa mem node =>
    cases hstep
    have ⟨hlow,hhigh,hvm⟩ := of_decide_eq_true hok
    rcases register_cases s basePa size baseVa mem node with he|⟨slot,kept,_,hsize,he⟩
    · rw [he]
      exact h
    · rw [he]
      have hpos := Nat.two_pow_pos k
      rw [← h.min] at hpos
      exact h.update rfl rfl
        (registered_good ⟨hpos.trans_le hsize,hlow,hhigh,Nat.add_comm _ _⟩ hvm)
  | calloc usize segId mem =>
    cases hstep
    have ⟨hfit,_,_⟩ := of_decide_eq_true hok
    by_cases hu : usize=0
    · cases hu
      exact h
    cases hs : s.segTab (segId-1) with
    | none =>
      unfold Cmm.cmmCallocBuf
      rw [if_pos hu,hs]
      exact h
    | some a =>
      rcases cmmCallocBuf_cases mem hs hu with ⟨he,_⟩|⟨m,l,b,kept,hm,hle,hget,hsplit,he⟩
      · rw [he]
        exact h
      · rw [he]
        exact h.update rfl rfl (request_split h hk hs hu hfit hsafe hm hget hle hsplit).1
  | free pa segId =>
    cases hstep
    cases hs : s.segTab ((if segId=0 then 1 else segId)-1) with
    | none =>
      unfold Cmm.cmmFreeBuf
      dsimp only
      rw [hs]
      exact h
    | some a =>
      rcases cmmFreeBuf_cases pa hs with ⟨he,_⟩|⟨m,kept,hm,_,he⟩
      · rw [he]
        exact h
      · rw [he]
        exact h.update rfl rfl ((h.segments _ a hs).free hm)

/-! ## What callers see -/

/-- The lists of a segment share it out. -/
structure Partitioned (a : Allocator) : Prop where
  /-- The blocks, free or in use, follow one another from its start to its end. -/
  tiles : ∃ bs : List Block,bs.Perm ((a.inUseList++a.freeList).map Mnode.block)∧
    Tiles a.shmBase bs (a.shmBase+a.smSize)
  sorted : a.freeList.Pairwise fun b c => b.size≤c.size
  apart : ∀ b∈a.freeList,∀ c∈a.freeList,b.pa+b.size≠c.pa

/-- What a request gives: no block, when every free one is too small, or the
start of one that was free, of at least the size, and cleared. A size that is
rounded up past a free block misses it, and the loop that clears the block
goes up to the rounded size if that has a sign. -/
def Served (s : Cmm) (a : Allocator) (usize segId : ℕ) : Cmm×Option ℕ → Prop
  | (s',none) => s'=s∧(usize≠0 →
      (∀ m∈a.freeList,usize≤ m.size → roundSize s.minBlockSize usize≤ m.size) →
      ∀ m∈a.freeList,m.size<usize)
  | (s',some pa) => ∃ m∈a.freeList,∃ l b,
      s'.segTab (segId-1)=some {a with freeList := l,inUseList := a.inUseList++[b]}∧
      b.pa=pa∧m.pa=pa∧b.va+a.shmBase=pa+a.vmBase∧usize≤b.size∧b.size≤ m.size∧
      (roundSize s.minBlockSize usize<2^31 →
        m.size=roundSize s.minBlockSize usize∨
          roundSize s.minBlockSize usize+s.minBlockSize≤ m.size →
        ∀ x,b.va≤x → x<b.va+b.size → s'.memory x=0)

/-- What a call to free gives: success for the address of a block in use,
which alone is not in use any more. -/
structure Freed (s : Cmm) (a : Allocator) (pa slot : ℕ) (r : Cmm×ℤ) : Prop where
  status : r.2=0 ↔ ∃ m∈a.inUseList,m.pa=pa
  freed : r.2=0 → ∃ m∈a.inUseList,m.pa=pa∧∃ l,
    r.1.segTab slot=some {a with freeList := l,inUseList := a.inUseList.erase m}
  failed : r.2≠0 → r.1=s

theorem Good.partitioned (h : Good a) : Partitioned a := by
  refine ⟨exists_tiles ?_ (Nat.le_add_right _ _) fun x => ?_,h.neat.sorted,h.neat.gaps⟩
  · intro b hb
    have ⟨m,hm,he⟩ := List.mem_map.mp hb
    rw [← he]
    rcases List.mem_append.mp hm with hm|hm
    · exact (h.used m hm).pos
    · exact (h.neat.placed m hm).pos
  · rw [List.map_append,coverage_append]
    exact h.cover x

theorem AllGood.served (h : AllGood k s) (hk : k≤31) (hs : s.segTab (segId-1)=some a)
    (hfit : usize<2^32) (hsafe : (Event.calloc usize segId mem).safe s=true) :
    Served s a usize segId (s.cmmCallocBuf usize segId mem) := by
  by_cases hu : usize=0
  · cases hu
    exact ⟨rfl,fun h => absurd rfl h⟩
  rcases cmmCallocBuf_cases mem hs hu with ⟨he,hsmall⟩|⟨m,l,b,kept,hm,hle,hget,hsplit,he⟩
  · rw [he]
    refine ⟨rfl,fun _ hround m hm => ?_⟩
    by_contra hlarge
    exact Nat.not_lt_of_le (hround m hm (Nat.le_of_not_lt hlarge)) (hsmall m hm)
  · rw [he]
    have ⟨_,hpa,hva,hlow,hhigh,hexact⟩ :=
      request_split h hk hs hu hfit hsafe hm hget hle hsplit
    have hvirtual := ((h.segments _ a hs).neat.placed m hm).virtual
    refine ⟨m,hm,l,b,update_self _ _ _,rfl,hpa.symm,?_,hlow,hhigh,fun hsign hor x h1 h2 => ?_⟩
    · rw [hva,hpa]
      exact hvirtual
    · rw [hexact hor] at h2
      exact if_pos ⟨hsign,h1,h2⟩

theorem freed_of_segment (hs : s.segTab ((if segId=0 then 1 else segId)-1)=some a) :
    Freed s a pa ((if segId=0 then 1 else segId)-1) (s.cmmFreeBuf pa segId) := by
  rcases cmmFreeBuf_cases pa hs with ⟨he,hnone⟩|⟨m,kept,hm,hpa,he⟩
  · rw [he]
    have hfault : -EFAULT≠0 := by decide
    exact ⟨⟨fun h => absurd h hfault,fun ⟨m,hm,hpa⟩ => absurd hpa.symm (hnone m hm)⟩,
      fun h => absurd h hfault,fun _ => rfl⟩
  · rw [he]
    exact ⟨⟨fun _ => ⟨m,hm,hpa⟩,fun _ => rfl⟩,fun _ => ⟨m,hm,hpa,_,update_self _ _ _⟩,
      fun h => absurd rfl h⟩

/-- Every segment stays partitioned, as long as no request that finds a block
wraps around or is without a node for what is left over, and each call gives
what it should. -/
theorem segments_kept (hk : k≤31) (memory : ℕ → UInt8) {es : List Event}
    (hrun : Run step (fun s e => e.ok=true∧e.safe s=true) (cmmCreate (2^k) memory) es t) :
    (∀ slot a,t.segTab slot=some a → Partitioned a∧
      ∀ basePa size baseVa mem node,
        (t.cmmRegisterGppsmSeg basePa size baseVa mem node).1.segTab slot=some a)∧
    (∀ a usize segId mem,t.segTab (segId-1)=some a → usize<2^32 →
      (Event.calloc usize segId mem).safe t=true →
        Served t a usize segId (t.cmmCallocBuf usize segId mem))∧
    ∀ a pa segId,t.segTab ((if segId=0 then 1 else segId)-1)=some a →
      Freed t a pa ((if segId=0 then 1 else segId)-1) (t.cmmFreeBuf pa segId) := by
  have h := hrun.invariant (AllGood k) ⟨rfl,fun _ _ h => by cases h⟩
    fun hs hok hstep => step_good hk hs hok.1 hok.2 hstep
  refine ⟨fun slot a hs => ⟨(h.segments slot a hs).partitioned,fun basePa size baseVa mem node => ?_⟩,
    fun a usize segId mem hs hfit hsafe => h.served hk hs hfit hsafe,fun a pa segId hs => freed_of_segment hs⟩
  rcases register_cases t basePa size baseVa mem node with he|⟨i,kept,hnone,_,he⟩
  · rw [he]
    exact hs
  · rw [he]
    have hne : slot≠i := by
      rintro rfl
      rw [hs] at hnone
      cases hnone
    exact (update_of_ne hne _ _).trans hs

/-- Two blocks are allocated and the first is freed. -/
theorem segments_kept_example : ∃ s,
    Run step (fun s e => e.ok=true∧e.safe s=true) (cmmCreate (2^4) fun _ => 1)
      [.register 4096 100 65536 true true,.calloc 20 1 true,.calloc 1 1 true,.free 4096 1] s∧
    ∃ a,s.segTab 0=some a∧a.inUseList=[⟨4128,65568,16⟩]∧
      a.freeList=[⟨4096,65536,32⟩,⟨4144,65584,52⟩]∧Partitioned a := by
  have ⟨s,hrun,htab⟩ := exists_run step (fun s e => e.ok&&e.safe s) (cmmCreate (2^4) fun _ => 1)
    [.register 4096 100 65536 true true,.calloc 20 1 true,.calloc 1 1 true,.free 4096 1]
    (fun s : Cmm => (s.segTab 0).any fun a : Allocator => decide (a.inUseList=[⟨4128,65568,16⟩]∧
      a.freeList=[⟨4096,65536,32⟩,⟨4144,65584,52⟩])) (by decide +kernel)
  have hrun := hrun.mono fun s e h => Bool.and_eq_true_iff.mp h
  have ⟨a,ha,hlists⟩ := (Option.any_eq_true _ _).mp htab
  have ⟨hused,hfree⟩ := of_decide_eq_true hlists
  exact ⟨s,hrun,a,ha,hused,hfree,((segments_kept (by decide) _ hrun).1 0 a ha).1⟩

/-- Without a node what is left over is lost, so a segment of 100 bytes has one
block of 32; a request of almost 2^32 bytes gives a block of none; and the end
of a block whose rest is small is not cleared. -/
theorem segments_broken :
    (∃ s,Run step (fun _ e => e.ok=true) (cmmCreate (2^4) fun _ => 1)
      [.register 4096 100 65536 true true,.calloc 20 1 false] s∧
      ∃ a,s.segTab 0=some a∧a.smSize=100∧a.inUseList=[⟨4096,65536,32⟩]∧a.freeList=[])∧
    ∃ s,Run step (fun _ e => e.ok=true) (cmmCreate (2^4) fun _ => 1)
      [.register 4096 40 65536 true true] s∧
      (∃ a,(s.cmmCallocBuf (2^32-1) 1 true).1.segTab 0=some a∧
        a.inUseList=[⟨4096,65536,0⟩]∧(s.cmmCallocBuf (2^32-1) 1 true).2=some 4096)∧
      ∃ a,(s.cmmCallocBuf 20 1 true).1.segTab 0=some a∧a.inUseList=[⟨4096,65536,40⟩]∧
        (s.cmmCallocBuf 20 1 true).1.memory 65568=1 := by
  have ⟨s,hrun,hs⟩ := exists_run step (fun _ e => e.ok) (cmmCreate (2^4) fun _ => 1)
    [.register 4096 100 65536 true true,.calloc 20 1 false]
    (fun s : Cmm => (s.segTab 0).any fun a : Allocator => decide (a.smSize=100∧
      a.inUseList=[⟨4096,65536,32⟩]∧a.freeList=[])) (by decide +kernel)
  have ⟨s',hrun',hs'⟩ := exists_run step (fun _ e => e.ok) (cmmCreate (2^4) fun _ => 1)
    [.register 4096 40 65536 true true]
    (fun s : Cmm => ((s.cmmCallocBuf (2^32-1) 1 true).1.segTab 0).any (fun a : Allocator =>
        decide (a.inUseList=[⟨4096,65536,0⟩]∧(s.cmmCallocBuf (2^32-1) 1 true).2=some 4096))&&
      ((s.cmmCallocBuf 20 1 true).1.segTab 0).any fun a : Allocator =>
        decide (a.inUseList=[⟨4096,65536,40⟩]∧(s.cmmCallocBuf 20 1 true).1.memory 65568=1))
    (by decide +kernel)
  have ⟨a,ha,hlists⟩ := (Option.any_eq_true _ _).mp hs
  have ⟨hwrap,hshort⟩ := Bool.and_eq_true_iff.mp hs'
  have ⟨b,hb,hblists⟩ := (Option.any_eq_true _ _).mp hwrap
  have ⟨c,hc,hclists⟩ := (Option.any_eq_true _ _).mp hshort
  exact ⟨⟨s,hrun,a,ha,of_decide_eq_true hlists⟩,s',hrun',⟨b,hb,of_decide_eq_true hblists⟩,
    c,hc,of_decide_eq_true hclists⟩

end ArdroneKernel.DspCmm
