import ArdroneKernel.AlignedBlocks
import ArdroneKernel.PmemBitmap

/-!
# The blocks of the pmem allocator

The orders at the starts of the blocks divide the space into aligned blocks.
Allocating splits a free block, freeing merges it with its buddies. A free
block is merged as far as possible, so that a space without allocations is
divided as it was at first.
-/

namespace ArdroneKernel.PmemBitmap

open AlignedBlocks Execution Function

/-! ## Cells -/

section

variable (s : State) (i index order : ℕ) (allocated : Bool) (is : List ℕ)

@[simp] theorem access_order : (s.access is).order=s.order := rfl

@[simp] theorem access_isFree : (s.access is).isFree=s.isFree := rfl

theorem setOrder_other (h : i≠index) : (s.setOrder index order).bitmap i=s.bitmap i := by
  exact update_of_ne h _ _

theorem setAllocated_other (h : i≠index) :
    (s.setAllocated index allocated).bitmap i=s.bitmap i := by
  exact update_of_ne h _ _

theorem setOrder_order_self (h : order<2^7) : (s.setOrder index order).order index=order := by
  unfold State.setOrder State.order
  dsimp only
  rw [update_self]
  exact Nat.mod_eq_of_lt h

theorem setOrder_order_other (h : i≠index) : (s.setOrder index order).order i=s.order i := by
  unfold State.order
  rw [setOrder_other s i index order h]

@[simp] theorem setOrder_isFree : (s.setOrder index order).isFree=s.isFree := by
  funext i
  unfold State.isFree
  by_cases h : i=index
  · subst h
    unfold State.setOrder
    dsimp only
    rw [update_self]
  · rw [setOrder_other s i index order h]

@[simp] theorem setAllocated_order : (s.setAllocated index allocated).order=s.order := by
  funext i
  unfold State.order
  by_cases h : i=index
  · subst h
    unfold State.setAllocated
    dsimp only
    rw [update_self]
  · rw [setAllocated_other s i index allocated h]

theorem setAllocated_isFree_self : (s.setAllocated index allocated).isFree index= !allocated := by
  unfold State.isFree State.setAllocated
  dsimp only
  rw [update_self]

theorem setAllocated_isFree_other (h : i≠index) :
    (s.setAllocated index allocated).isFree i=s.isFree i := by
  unfold State.isFree
  rw [setAllocated_other s i index allocated h]

end

/-! ## Blocks -/

/-- The cells divide the space into aligned blocks, and those inside a block
are not marked as allocated. Apart from one block, no free block has a free
buddy of its order, and the code stays in the bitmap. -/
structure Blocks (n e : ℕ) (s : State) (heads : List ℕ) : Prop where
  tiles : Tiles s.order 0 n heads
  aligned : Aligned s.order heads
  stale : ∀ x< n,x∉heads → s.isFree x=true
  apart : ∀ x∈heads,∀ y∈heads,x≠e → y≠e → s.isFree x=true → s.isFree y=true →
    s.order y=s.order x → y≠x^^^2^s.order x
  inRange : ∀ i∈s.indices,i< n

variable {n e : ℕ} {s : State} {heads : List ℕ} {size : UInt32}

theorem Blocks.order_lt (h : Blocks n e s heads) {x : ℕ} (hx : x∈heads) : 2^s.order x≤n := by
  have := (h.tiles.bounds hx).2
  omega

theorem Blocks.access (h : Blocks n e s heads) {is : List ℕ} (his : ∀ i∈is,i< n) :
    Blocks n e (s.access is) heads := by
  refine ⟨h.tiles,h.aligned,h.stale,h.apart,?_⟩
  intro i hi
  rcases List.mem_append.mp hi with hi|hi
  · exact his i hi
  · exact h.inRange i hi

/-- Blocks of a space whose size fits an `unsigned long` have small orders. -/
theorem Blocks.order_small (h : Blocks n e s heads) (hn : n<2^32) {x : ℕ} (hx : x∈heads) :
    s.order x<32 := by
  by_contra hge
  have h32 : 2^32≤2^s.order x := Nat.pow_le_pow_right (by decide) (not_lt.mp hge)
  have := h.order_lt hx
  omega

theorem numEntries_lt (size : UInt32) : numEntries size<2^32 := by
  exact UInt32.toNat_lt _

/-! ## Setup -/

/-- Every bit of the number of entries adds a block of its size. -/
theorem setupLoop_blocks (i : ℕ) : ∀ (index : ℕ) (s : State) (heads : List ℕ),i≤32 →
    Tiles s.order 0 index heads → Aligned s.order heads → (∀ x∈heads,i≤ s.order x) →
    (∀ x∈heads,∀ y∈heads,s.order y=s.order x → y=x) → (∀ x< n,s.isFree x=true) →
    (∀ j∈s.indices,j< n) → index+n%2^i=n → 2^i∣index →
    ∃ heads',Blocks n n (setupLoop n i index s) heads'∧
      ∀ x< n,(setupLoop n i index s).isFree x=true := by
  induction i with
  | zero =>
    intro index s heads _ tiles aligned _ inj free inRange hindex _
    have hn : index=n := by
      rw [pow_zero,Nat.mod_one] at hindex
      exact hindex
    subst hn
    have hb : Blocks index index s heads := by
      refine ⟨tiles,aligned,fun x hx _ => free x hx,?_,inRange⟩
      intro x hx y hy _ _ _ _ heq hbud
      have hyx := inj x hx y hy heq
      rcases buddy_cases (aligned x hx) with ⟨_,h⟩|⟨_,h⟩ <;> omega
    exact ⟨heads,hb,free⟩
  | succ i ih =>
    intro index s heads hi tiles aligned large inj free inRange hindex hdvd
    have hmod : n%2^(i+1)=n%2^i+2^i*(n.testBit i).toNat := by
      rw [Nat.mod_pow_succ,Nat.toNat_testBit]
    unfold setupLoop
    split
    · next hbit =>
      rw [hbit] at hmod
      have hord := setOrder_order_self s index i (by omega)
      have hlt : index< n := by
        rw [hmod] at hindex
        simp only [Bool.toNat_true,mul_one] at hindex
        omega
      have hold : ∀ x∈heads,(s.setOrder index i).order x=s.order x := fun x hx =>
        setOrder_order_other s x index i (tiles.lt hx).ne
      have hnext : (s.setOrder index i).nextIndex index=index+2^i := by
        unfold State.nextIndex
        rw [hord]
      dsimp only
      rw [hnext]
      refine ih (index+2^i) _ (heads++[index]) (by omega) ?_ ?_ ?_ ?_ ?_ ?_ ?_ ?_
      · refine tiles_append.mpr ⟨index,tiles.congr hold,rfl,?_⟩
        rw [hord]
        rfl
      · intro x hx
        rcases List.mem_append.mp hx with hx|hx
        · rw [hold x hx]
          exact aligned x hx
        · rw [List.mem_singleton.mp hx,hord]
          exact (Nat.pow_dvd_pow 2 (Nat.le_succ i)).trans hdvd
      · intro x hx
        rcases List.mem_append.mp hx with hx|hx
        · rw [hold x hx]
          exact (Nat.le_succ i).trans (large x hx)
        · rw [List.mem_singleton.mp hx,hord]
      · intro x hx y hy heq
        rcases List.mem_append.mp hx with hx|hx <;> rcases List.mem_append.mp hy with hy|hy
        · rw [hold x hx,hold y hy] at heq
          exact inj x hx y hy heq
        · rw [hold x hx,List.mem_singleton.mp hy,hord] at heq
          have := large x hx
          omega
        · rw [hold y hy,List.mem_singleton.mp hx,hord] at heq
          have := large y hy
          omega
        · rw [List.mem_singleton.mp hx,List.mem_singleton.mp hy]
      · rw [setOrder_isFree]
        exact free
      · intro j hj
        rcases List.mem_cons.mp hj with rfl|hj
        · exact hlt
        · exact inRange j hj
      · rw [hmod] at hindex
        simp only [Bool.toNat_true,mul_one] at hindex
        omega
      · exact Nat.dvd_add ((Nat.pow_dvd_pow 2 (Nat.le_succ i)).trans hdvd) dvd_rfl
    · next hbit =>
      rw [Bool.not_eq_true] at hbit
      rw [hbit] at hmod
      refine ih index s heads (by omega) tiles aligned ?_ inj free inRange ?_ ?_
      · exact fun x hx => (Nat.le_succ i).trans (large x hx)
      · rw [hmod] at hindex
        simpa using hindex
      · exact (Nat.pow_dvd_pow 2 (Nat.le_succ i)).trans hdvd

theorem setup_blocks (size : UInt32) (after : ℕ → PmemBits) :
    ∃ heads,Blocks (numEntries size) (numEntries size) (pmemSetup size after) heads∧
      ∀ x<numEntries size,(pmemSetup size after).isFree x=true := by
  refine setupLoop_blocks 32 0 _ [] le_rfl rfl ?_ ?_ ?_ ?_ ?_ ?_ (Nat.dvd_zero _)
  · intro x hx
    cases hx
  · intro x hx
    cases hx
  · intro x hx
    cases hx
  · intro x hx
    unfold State.isFree
    dsimp only
    rw [if_pos hx]
    rfl
  · intro j hj
    cases hj
  · rw [Nat.mod_eq_of_lt (numEntries_lt size),Nat.zero_add]

/-! ## Allocation -/

theorem access_access (s : State) (is js : List ℕ) :
    (s.access is).access js=s.access (js++is) := by
  unfold State.access
  simp

/-- One block of the walk. -/
theorem fitLoop_succ (order fuel curr : ℕ) (best : Option ℕ) (s : State) :
    fitLoop n order (fuel+1) curr best s=
      if curr< n then
        if s.isFree curr=true then
          if s.order curr=order then (s.access [curr],some curr)
          else if s.order curr>order∧∀ b∈best,s.order curr<s.order b then
            fitLoop n order fuel (s.nextIndex curr) (some curr)
              (s.access (best.toList++[curr]))
          else fitLoop n order fuel (s.nextIndex curr) best (s.access (best.toList++[curr]))
        else fitLoop n order fuel (s.nextIndex curr) best (s.access [curr])
      else (s,best) := by
  rw [←access_access]
  rfl

/-- The walk over the blocks finds a free one that is large enough, if there is one. -/
theorem fitLoop_spec (order fuel : ℕ) : ∀ (curr : ℕ) (best : Option ℕ) (s : State)
    (rest : List ℕ),Tiles s.order curr n rest → (∀ x∈rest,x∈heads) → n-curr≤fuel →
    (∀ x∈heads,x< n) →
    (∀ b∈best,b∈heads∧s.isFree b=true∧order≤ s.order b) →
    ∃ is r,fitLoop n order fuel curr best s=(s.access is,r)∧(∀ i∈is,i< n)∧
      (∀ b∈r,b∈heads∧s.isFree b=true∧order≤ s.order b)∧
      (r=none → best=none∧∀ x∈rest,s.isFree x=true → s.order x<order) := by
  induction fuel with
  | zero =>
    intro curr best s rest tiles _ hfuel _ hbest
    refine ⟨[],best,rfl,by simp,hbest,fun hr => ⟨hr,?_⟩⟩
    intro x hx
    have hb := tiles.bounds hx
    have := tiles.lt hx
    omega
  | succ fuel ih =>
    intro curr best s rest tiles hrest hfuel hlt hbest
    rw [fitLoop_succ]
    by_cases hcurr : curr< n
    case neg =>
      rw [if_neg hcurr]
      refine ⟨[],best,rfl,by simp,hbest,fun hr => ⟨hr,?_⟩⟩
      intro x hx
      have hb := tiles.bounds hx
      have := tiles.lt hx
      omega
    rw [if_pos hcurr]
    cases rest with
    | nil =>
      have hn : curr=n := tiles
      omega
    | cons x xs =>
    have ⟨hx,hxs⟩ := tiles
    subst hx
    have hmem := hrest x List.mem_cons_self
    have hp := Nat.two_pow_pos (s.order x)
    -- The walk goes on after this block.
    have go (best' : Option ℕ) (js : List ℕ) (hjs : ∀ i∈js,i< n)
        (hbest' : ∀ b∈best',b∈heads∧s.isFree b=true∧order≤ s.order b)
        (hnone : best'=none → best=none∧(s.isFree x=true → s.order x<order)) :
        ∃ is r,fitLoop n order fuel (s.nextIndex x) best' (s.access js)=(s.access is,r)∧
          (∀ i∈is,i< n)∧(∀ b∈r,b∈heads∧s.isFree b=true∧order≤ s.order b)∧
          (r=none → best=none∧∀ y∈x::xs,s.isFree y=true → s.order y<order) := by
      have ⟨is,r,heq,his,hr,hrn⟩ := ih (s.nextIndex x) best' (s.access js) xs hxs
        (fun y hy => hrest y (List.mem_cons_of_mem _ hy)) (by unfold State.nextIndex; omega) hlt
        hbest'
      refine ⟨is++js,r,?_,?_,hr,fun hn => ?_⟩
      · rw [heq,access_access]
      · intro i hi
        rcases List.mem_append.mp hi with hi|hi
        · exact his i hi
        · exact hjs i hi
      · have ⟨hb,hall⟩ := hrn hn
        refine ⟨(hnone hb).1,fun y hy => ?_⟩
        rcases List.mem_cons.mp hy with rfl|hy
        · exact (hnone hb).2
        · exact hall y hy
    have hbs : ∀ i∈best.toList++[x],i< n := by
      intro i hi
      rcases List.mem_append.mp hi with hi|hi
      · exact hlt i (hbest i (Option.mem_toList.mp hi)).1
      · rw [List.mem_singleton.mp hi]
        exact hcurr
    have hone : ∀ i∈[x],i< n := fun i hi => by
      rw [List.mem_singleton.mp hi]
      exact hcurr
    by_cases hfree : s.isFree x=true
    · rw [if_pos hfree]
      by_cases heq : s.order x=order
      · rw [if_pos heq]
        refine ⟨[x],some x,rfl,hone,?_,?_⟩
        · intro b hb
          rw [←Option.some.inj hb]
          exact ⟨hmem,hfree,heq.ge⟩
        · intro hr
          cases hr
      rw [if_neg heq]
      by_cases hbetter : s.order x>order∧∀ b∈best,s.order x<s.order b
      · rw [if_pos hbetter]
        refine go (some x) _ hbs ?_ ?_
        · intro b hb
          rw [←Option.some.inj hb]
          exact ⟨hmem,hfree,hbetter.1.le⟩
        · intro hr
          cases hr
      · rw [if_neg hbetter]
        refine go best _ hbs hbest fun hr => ⟨hr,fun _ => ?_⟩
        subst hr
        have hle : ¬s.order x>order := fun hgt => hbetter ⟨hgt,by simp⟩
        omega
    · rw [if_neg hfree]
      exact go best [x] hone hbest fun hr => ⟨hr,fun h => absurd h hfree⟩

/-- A block that is free or not is split into two halves of which the upper one is free. -/
theorem Blocks.split (h : Blocks n e s heads) (hn : n<2^32) (he : e∈heads) {k : ℕ}
    (hk : s.order e=k+1) :
    ∃ heads',Blocks n e ((s.setOrder e k).setOrder (e+2^k) k) heads'∧
      ((s.setOrder e k).setOrder (e+2^k) k).order e=k∧
      (∀ y,y∈heads' ↔ y∈heads∨y=e+2^k)∧
      (∀ y∈heads,y≠e → ((s.setOrder e k).setOrder (e+2^k) k).bitmap y=s.bitmap y)∧
      s.isFree (e+2^k)=true := by
  have hsmall := h.order_small hn he
  have hdvd := h.aligned e he
  rw [hk] at hdvd hsmall
  have hend := (h.tiles.bounds he).2
  rw [hk,pow_succ] at hend
  have hout : ∀ y∈heads,y≠e → y≠e+2^k := by
    intro y hy hne heq
    have hap := h.tiles.apart he hy (by omega)
    rw [hk,pow_succ] at hap
    omega
  generalize hs' : (s.setOrder e k).setOrder (e+2^k) k=s'
  have hsame : ∀ y∈heads,y≠e → s'.bitmap y=s.bitmap y := by
    intro y hy hne
    rw [←hs',setOrder_other _ _ _ _ (hout y hy hne),setOrder_other _ _ _ _ hne]
  have hord : ∀ y∈heads,y≠e → s'.order y=s.order y := fun y hy hne =>
    congrArg PmemBits.order (hsame y hy hne)
  have he' : s'.order e=k := by
    rw [←hs',setOrder_order_other _ _ _ _ (by omega),setOrder_order_self _ _ _ (by omega)]
  have hu' : s'.order (e+2^k)=k := by
    rw [←hs',setOrder_order_self _ _ _ (by omega)]
  have hfree : s'.isFree=s.isFree := by
    rw [←hs',setOrder_isFree,setOrder_isFree]
  have ⟨heads',tiles,hmem⟩ := h.tiles.split he hk he' hu' hord
  have hbud : (e+2^k)^^^2^k=e := by
    rw [←buddy_lower hdvd,Nat.xor_xor_cancel_right]
  have hup : s.isFree (e+2^k)=true := by
    refine h.stale _ (by omega) fun hmem => ?_
    exact hout _ hmem (by omega) rfl
  refine ⟨heads',⟨tiles,?_,?_,?_,?_⟩,he',hmem,hsame,hup⟩
  · intro y hy
    rcases (hmem y).mp hy with hy|rfl
    · by_cases hye : y=e
      · rw [hye,he']
        exact (Nat.pow_dvd_pow 2 (Nat.le_succ k)).trans hdvd
      · rw [hord y hy hye]
        exact h.aligned y hy
    · rw [hu']
      exact Nat.dvd_add ((Nat.pow_dvd_pow 2 (Nat.le_succ k)).trans hdvd) dvd_rfl
  · intro y hy hnot
    rw [hfree]
    exact h.stale y hy fun hold => hnot ((hmem y).mpr (.inl hold))
  · intro x hx y hy hxe hye
    rw [hfree]
    rcases (hmem x).mp hx with hx|rfl <;> rcases (hmem y).mp hy with hy|rfl
    · rw [hord x hx hxe,hord y hy hye]
      exact h.apart x hx y hy hxe hye
    · intro _ _ heq hb
      rw [hu'] at heq
      rw [←heq] at hb
      refine hxe ?_
      rw [←hbud,hb,Nat.xor_xor_cancel_right]
    · intro _ _ heq hb
      rw [hu'] at hb
      exact hye (hb.trans hbud)
    · intro _ _ _ hb
      rw [hu',hbud] at hb
      exact hye hb
  · intro i hi
    rw [←hs'] at hi
    rcases List.mem_cons.mp hi with rfl|hi
    · omega
    · rcases List.mem_cons.mp hi with rfl|hi
      · omega
      · exact h.inRange i hi

/-- Splitting a free block leaves a block of the wanted order in its place,
the rest of it free, and the other blocks as they were. -/
theorem splitLoop_spec {order b : ℕ} (hn : n<2^32) (fuel : ℕ) : ∀ (s : State) (heads : List ℕ),
    Blocks n b s heads → b∈heads → order≤ s.order b → s.order b≤order+fuel → s.isFree b=true →
    ∃ heads',Blocks n b (splitLoop order b fuel s) heads'∧b∈heads'∧
      (splitLoop order b fuel s).order b=order∧
      (∀ x∈heads,x∈heads'∧(x≠b → (splitLoop order b fuel s).bitmap x=s.bitmap x))∧
      ∀ x∈heads',x∉heads → (splitLoop order b fuel s).isFree x=true := by
  induction fuel with
  | zero =>
    intro s heads h hb hle hfuel hfree
    refine ⟨heads,h,hb,by exact le_antisymm hfuel hle,fun x hx => ⟨hx,fun _ => rfl⟩,?_⟩
    exact fun x hx hnot => absurd hx hnot
  | succ fuel ih =>
    intro s heads h hb hle hfuel hfree
    have hacc : Blocks n b (s.access [b]) heads := h.access fun i hi => by
      rw [List.mem_singleton.mp hi]
      exact h.tiles.lt hb
    unfold splitLoop
    dsimp only
    split
    · next hgt =>
      have ⟨k,hk⟩ : ∃ k,s.order b=k+1 := Nat.exists_eq_add_one.mpr (by
        have : s.order b>order := hgt
        omega)
      have hdvd := h.aligned b hb
      rw [hk] at hdvd
      have hsmall := h.order_small hn hb
      have hk' : (s.access [b]).order b-1=k := by
        rw [access_order,hk,Nat.add_sub_cancel]
      have hself := setOrder_order_self (s.access [b]) b k (by omega)
      have hbud : ((s.access [b]).setOrder b k).buddyIndex b=b+2^k := by
        unfold State.buddyIndex
        rw [hself]
        exact buddy_lower hdvd
      have ⟨heads1,h1,hord1,hmem,hsame,hup⟩ := hacc.split hn hb hk
      rw [hk',hbud,hself]
      have hfree1 : (((s.access [b]).setOrder b k).setOrder (b+2^k) k).isFree=s.isFree := by
        rw [setOrder_isFree,setOrder_isFree,access_isFree]
      generalize ((s.access [b]).setOrder b k).setOrder (b+2^k) k=s1 at h1 hord1 hsame hfree1 ⊢
      have hb1 := (hmem b).mpr (.inl hb)
      have ⟨heads',h',hb',hord',hkeep,hnew⟩ := ih s1 heads1 h1 hb1 (by omega) (by omega)
        (by rw [hfree1]; exact hfree)
      refine ⟨heads',h',hb',hord',fun x hx => ?_,fun x hx hnot => ?_⟩
      · have ⟨hx',hbits⟩ := hkeep x ((hmem x).mpr (.inl hx))
        exact ⟨hx',fun hne => (hbits hne).trans (hsame x hx hne)⟩
      · by_cases hx1 : x∈heads1
        · have hxb : x=b+2^k := ((hmem x).mp hx1).resolve_left hnot
          have hne : x≠b := by
            omega
          have hbits := (hkeep x hx1).2 hne
          have hcell : (splitLoop order b fuel s1).isFree x=s1.isFree x :=
            congrArg (fun c => !PmemBits.allocated c) hbits
          rw [hcell,hfree1,hxb]
          exact hup
        · exact hnew x hx hx1
    · next hle' =>
      have hle' : ¬s.order b>order := hle'
      refine ⟨heads,hacc,hb,?_,fun x hx => ⟨hx,fun _ => rfl⟩,fun x hx hnot => absurd hx hnot⟩
      rw [access_order]
      omega

/-! ## Freeing -/

/-- A free block and its free buddy become one block. -/
theorem Blocks.merge (h : Blocks n e s heads) (hn : n<2^32) (he : e∈heads) {k b : ℕ}
    (hk : s.order e=k) (hb : b=e^^^2^k) (hlt : b< n) (hfe : s.isFree e=true)
    (hfb : s.isFree b=true) (ho : s.order b=k) :
    ∃ heads',Blocks n (min b e) ((s.setOrder b (k+1)).setOrder e (k+1)) heads'∧
      min b e∈heads'∧((s.setOrder b (k+1)).setOrder e (k+1)).order (min b e)=k+1∧
      (∀ y,y∈heads' ↔ y∈heads∧y≠max b e)∧
      ∀ y∈heads,y≠e → y≠b → ((s.setOrder b (k+1)).setOrder e (k+1)).bitmap y=s.bitmap y := by
  have hsmall := h.order_small hn he
  have hde := h.aligned e he
  rw [hk] at hsmall hde
  have hbmem : b∈heads := by
    rw [hb,←hk]
    exact (h.tiles.buddy h.aligned he (by rw [hk,←hb]; exact hlt)).1
  have ⟨hlow,hhigh⟩ : 2^(k+1)∣min b e∧max b e=min b e+2^k := by
    rcases buddy_cases hde with ⟨hd,hx⟩|⟨hd,hx⟩
    · have hbe : b=e+2^k := hb.trans hx
      have h1 : min b e=e := by omega
      have h2 : max b e=b := by omega
      rw [h1,h2]
      exact ⟨hd,hbe⟩
    · rw [←hb] at hd hx
      have h1 : min b e=b := by omega
      have h2 : max b e=e := by omega
      rw [h1,h2]
      exact ⟨hd,hx.symm⟩
  have hboth : ∀ y,y=e∨y=b ↔ y=min b e∨y=max b e := by
    intro y
    omega
  generalize min b e=lo at hlow hhigh hboth ⊢
  generalize max b e=hi at hhigh hboth ⊢
  generalize hs' : (s.setOrder b (k+1)).setOrder e (k+1)=s'
  have hsame : ∀ y,y≠lo → y≠hi → s'.bitmap y=s.bitmap y := by
    intro y h1 h2
    have hnot : ¬(y=e∨y=b) := by
      rw [hboth]
      exact not_or.mpr ⟨h1,h2⟩
    have hnot := not_or.mp hnot
    rw [←hs',setOrder_other _ _ _ _ hnot.1,setOrder_other _ _ _ _ hnot.2]
  have hfree : s'.isFree=s.isFree := by
    rw [←hs',setOrder_isFree,setOrder_isFree]
  have hcells : ∀ y,y=lo∨y=hi →
      y∈heads∧s.order y=k∧s.isFree y=true∧s'.order y=k+1 := by
    intro y hy
    have hord : s'.order y=k+1 := by
      rw [←hs']
      by_cases hye : y=e
      · rw [hye,setOrder_order_self _ _ _ (by omega)]
      · rw [setOrder_order_other _ _ _ _ hye,((hboth y).mpr hy).resolve_left hye,
          setOrder_order_self _ _ _ (by omega)]
    rcases (hboth y).mpr hy with rfl|rfl
    · exact ⟨he,hk,hfe,hord⟩
    · exact ⟨hbmem,ho,hfb,hord⟩
  have ⟨hlomem,hlok,_,hlo'⟩ := hcells lo (.inl rfl)
  have ⟨himem,hhik,hhifree,_⟩ := hcells hi (.inr rfl)
  have ⟨heads',tiles,hmem⟩ : ∃ heads',Tiles s'.order 0 n heads'∧
      ∀ y,y∈heads' ↔ y∈heads∧y≠hi := by
    have hnext : lo+2^s.order lo=hi := by rw [hlok,hhigh]
    rw [←hnext]
    refine h.tiles.merge hlomem (hnext▸himem) (by rw [hnext,hhik,hlok]) (by rw [hlok,hlo']) ?_
    intro y _ h1 h2
    exact congrArg PmemBits.order (hsame y h1 (hnext▸h2))
  refine ⟨heads',⟨tiles,?_,?_,?_,?_⟩,(hmem lo).mpr ⟨hlomem,by omega⟩,hlo',hmem,?_⟩
  · intro y hy
    by_cases hyl : y=lo
    · rw [hyl,hlo']
      exact hlow
    · have ⟨hy,hyh⟩ := (hmem y).mp hy
      have hord : s'.order y=s.order y := congrArg PmemBits.order (hsame y hyl hyh)
      rw [hord]
      exact h.aligned y hy
  · intro y hy hnot
    rw [hfree]
    by_cases hyh : y=hi
    · rw [hyh]
      exact hhifree
    · exact h.stale y hy fun hold => hnot ((hmem y).mpr ⟨hold,hyh⟩)
  · intro x hx y hy hxl hyl
    have ⟨hx,hxh⟩ := (hmem x).mp hx
    have ⟨hy,hyh⟩ := (hmem y).mp hy
    have hox : s'.order x=s.order x := congrArg PmemBits.order (hsame x hxl hxh)
    have hoy : s'.order y=s.order y := congrArg PmemBits.order (hsame y hyl hyh)
    have hne := (hboth e).mp (.inl rfl)
    rw [hfree,hox,hoy]
    refine h.apart x hx y hy (fun hxe => ?_) (fun hye => ?_)
    · rw [←hxe] at hne
      exact hne.elim hxl hxh
    · rw [←hye] at hne
      exact hne.elim hyl hyh
  · intro i hi
    rw [←hs'] at hi
    rcases List.mem_cons.mp hi with rfl|hi
    · exact h.tiles.lt he
    · rcases List.mem_cons.mp hi with rfl|hi
      · exact hlt
      · exact h.inRange i hi
  · intro y _ hye hyb
    have hnot : ¬(y=lo∨y=hi) := by
      rw [←hboth]
      exact not_or.mpr ⟨hye,hyb⟩
    have hnot := not_or.mp hnot
    exact hsame y hnot.1 hnot.2

/-- The start of the last block of an empty space, which is its smallest one. -/
def lastBlock (n : ℕ) : ℕ := n&&&(n-1)

theorem lastBlock_eq {k x : ℕ} (hx : 2^(k+1)∣x) (hend : x+2^k=n) : lastBlock n=x := by
  have ⟨q,hq⟩ := hx
  have hhalf : 2^k<2^(k+1) := Nat.pow_lt_pow_right (by decide) (Nat.lt_succ_self k)
  unfold lastBlock
  apply Nat.eq_of_testBit_eq
  intro i
  have h1 : n=2^(k+1)*q+2^k := by omega
  have h2 : n-1=2^(k+1)*q+(2^k-1) := by omega
  have h3 : x=2^(k+1)*q+0 := hq
  rw [Nat.testBit_and,h2,h1,h3,Nat.testBit_two_pow_mul_add q hhalf,
    Nat.testBit_two_pow_mul_add q (show 2^k-1<2^(k+1) by omega),
    Nat.testBit_two_pow_mul_add q (Nat.two_pow_pos (k+1))]
  split
  · next hi =>
    rw [Nat.testBit_two_pow,Nat.testBit_two_pow_sub_one,Nat.zero_testBit,Bool.and_eq_false_iff]
    by_cases hki : k=i
    · exact .inr (decide_eq_false (by omega))
    · exact .inl (decide_eq_false hki)
  · exact Bool.and_self _

/-- A block is not the last free one of the smallest block of an empty space. -/
def Guarded (n e : ℕ) (s : State) (heads : List ℕ) : Prop :=
  e<lastBlock n∨∃ j∈heads,j≠e∧s.isFree j=false∧lastBlock n≤j

/-- The buddy of such a block lies in the bitmap. -/
theorem Blocks.buddy_lt (h : Blocks n e s heads) (he : e∈heads) (guard : Guarded n e s heads) :
    e^^^2^s.order e< n := by
  have hend := (h.tiles.bounds he).2
  rcases buddy_cases (h.aligned e he) with ⟨hd,heq⟩|⟨_,heq⟩
  · rw [heq]
    refine lt_of_le_of_ne hend fun hn => ?_
    have hlast := lastBlock_eq hd hn
    rcases guard with hlt|⟨j,hj,hne,_,hle⟩
    · omega
    · have hap := h.tiles.apart he hj (by omega)
      have := h.tiles.lt hj
      omega
  · omega

/-- A freed block merges with its buddies until one of them is not free or is
divided; the allocated blocks stay as they are. -/
theorem mergeLoop_spec (hn : n<2^32) (fuel : ℕ) : ∀ (e : ℕ) (s : State) (heads : List ℕ),
    Blocks n e s heads → e∈heads → s.isFree e=true → Guarded n e s heads →
    32≤ s.order e+fuel →
    ∃ s' heads',mergeLoop n fuel e s=some s'∧Blocks n n s' heads'∧s'.isFree=s.isFree∧
      (∀ x∈heads',x∈heads)∧
      ∀ x∈heads,s.isFree x=false → x∈heads'∧s'.bitmap x=s.bitmap x := by
  induction fuel with
  | zero =>
    intro e s heads h he _ _ hfuel
    have := h.order_small hn he
    omega
  | succ fuel ih =>
    intro e s heads h he hfe guard hfuel
    have hsmall := h.order_small hn he
    have hlt := h.buddy_lt he guard
    have hacc : Blocks n e (s.access [e,s.buddyIndex e]) heads := by
      refine h.access fun i hi => ?_
      rcases List.mem_cons.mp hi with rfl|hi
      · exact h.tiles.lt he
      · rw [List.mem_singleton.mp hi]
        exact hlt
    generalize hk : s.order e=k at hlt hsmall hfuel
    generalize hb : e^^^2^k=b at hlt
    have hbud : s.buddyIndex e=b := by
      unfold State.buddyIndex
      rw [hk,hb]
    unfold mergeLoop
    rw [hbud] at hacc ⊢
    dsimp only
    split
    · next hmerge =>
      have hmerge : s.isFree b=true∧s.order b=s.order e := hmerge
      have ⟨hfb,hob⟩ := hmerge
      rw [hk] at hob
      have hbe : b≠e := by
        rcases buddy_cases (hk▸h.aligned e he) with ⟨_,heq⟩|⟨_,heq⟩ <;> omega
      have ⟨heads1,h1,hin,hord,hmem,hsame⟩ := hacc.merge hn he hk hb.symm hlt hfe hfb hob
      have hord1 : (s.access [e,b]).order b+1=k+1 := congrArg (·+1) hob
      have hord2 : ((s.access [e,b]).setOrder b (k+1)).order e+1=k+1 := by
        rw [setOrder_order_other _ _ _ _ (Ne.symm hbe)]
        exact congrArg (·+1) hk
      rw [hord1,hord2]
      have hfree : (((s.access [e,b]).setOrder b (k+1)).setOrder e (k+1)).isFree=s.isFree := by
        rw [setOrder_isFree,setOrder_isFree,access_isFree]
      generalize ((s.access [e,b]).setOrder b (k+1)).setOrder e (k+1)=s1
        at h1 hord hsame hfree ⊢
      rw [if_pos (h1.tiles.lt hin)]
      have hkeep : ∀ x∈heads,s.isFree x=false → x≠e∧x≠b := by
        intro x _ hx
        refine ⟨fun hxe => ?_,fun hxb => ?_⟩
        · rw [hxe,hfe] at hx
          cases hx
        · rw [hxb,hfb] at hx
          cases hx
      have hstay : ∀ x∈heads,s.isFree x=false → x∈heads1 := by
        intro x hx hal
        have := hkeep x hx hal
        exact (hmem x).mpr ⟨hx,by omega⟩
      have guard1 : Guarded n (min b e) s1 heads1 := by
        rcases guard with hlt|⟨j,hj,hne,hal,hle⟩
        · exact .inl (by omega)
        · have := hkeep j hj hal
          exact .inr ⟨j,hstay j hj hal,by omega,by rw [hfree]; exact hal,hle⟩
      have hfm : s1.isFree (min b e)=true := by
        rw [hfree]
        rcases min_choice b e with hm|hm <;> rw [hm]
        · exact hfb
        · exact hfe
      have ⟨s',heads',hrun,h',hfree',hsub,hall⟩ := ih _ s1 heads1 h1 hin hfm guard1
        (by omega)
      refine ⟨s',heads',hrun,h',hfree'.trans hfree,fun x hx => ((hmem x).mp (hsub x hx)).1,?_⟩
      intro x hx hal
      have hne := hkeep x hx hal
      have ⟨hx',hbits⟩ := hall x (hstay x hx hal) (by rw [hfree]; exact hal)
      exact ⟨hx',hbits.trans (hsame x hx hne.1 hne.2)⟩
    · next hstop =>
      have hstop : ¬(s.isFree b=true∧s.order b=s.order e) := hstop
      refine ⟨_,heads,rfl,⟨hacc.tiles,hacc.aligned,hacc.stale,?_,hacc.inRange⟩,rfl,
        fun x hx => hx,fun x hx _ => ⟨hx,rfl⟩⟩
      dsimp only [access_order,access_isFree]
      intro x hx y hy _ _ hfx hfy heq hbuddy
      by_cases hxe : x=e
      · subst hxe
        rw [hk,hb] at hbuddy
        subst hbuddy
        exact hstop ⟨hfy,heq⟩
      · by_cases hye : y=e
        · subst hye
          refine hstop ⟨?_,?_⟩ <;> rw [←hb,←hk,heq,hbuddy,Nat.xor_xor_cancel_right]
          · exact hfx
        · exact h.apart x hx y hy hxe hye hfx hfy heq hbuddy

/-! ## Requests -/

/-- A block of the order asked for holds that many bytes. -/
theorem le_pmemOrder {len : UInt32} (h : pmemOrder len<32) :
    len.toNat≤2^pmemOrder len*PMEM_MIN_ALLOC.toNat := by
  unfold pmemOrder at h ⊢
  dsimp only at h ⊢
  generalize hl : ((len+PMEM_MIN_ALLOC-1)/PMEM_MIN_ALLOC-1).toNat=m at h ⊢
  cases hf : (List.range 32).find? fun i => m>>>i=0 with
  | none =>
    rw [hf] at h
    exact absurd h (by decide)
  | some i =>
    have hm : m>>>i=0 := by
      have := List.find?_some hf
      simpa using this
    have hi : i<32 := List.mem_range.mp (List.mem_of_find?_eq_some hf)
    rw [Nat.shiftRight_eq_div_pow,Nat.div_eq_zero_iff] at hm
    have hlt : m<2^i := hm.resolve_left (Nat.two_pow_pos i).ne'
    have hmin : PMEM_MIN_ALLOC.toNat=4096 := rfl
    have hone : (1 : UInt32).toNat=1 := rfl
    have hlen := len.toNat_lt
    rw [UInt32.toNat_sub,UInt32.toNat_div,UInt32.toNat_sub,UInt32.toNat_add,hmin,hone] at hl
    rw [hmin]
    dsimp only [Option.getD_some]
    omega

theorem pmemOrder_le (len : UInt32) : pmemOrder len≤32 := by
  unfold pmemOrder
  dsimp only
  generalize ((len+PMEM_MIN_ALLOC-1)/PMEM_MIN_ALLOC-1).toNat=m
  cases hf : (List.range 32).find? fun i => m>>>i=0 with
  | none => exact le_rfl
  | some i => exact (List.mem_range.mp (List.mem_of_find?_eq_some hf)).le

/-- A block without an exception, and with one. -/
theorem Blocks.except (h : Blocks n n s heads) (b : ℕ) : Blocks n b s heads :=
  ⟨h.tiles,h.aligned,h.stale,fun x hx y hy _ _ =>
    h.apart x hx y hy (h.tiles.lt hx).ne (h.tiles.lt hy).ne,h.inRange⟩

/-- An allocated block needs no exception. -/
theorem Blocks.allocated (h : Blocks n e s heads) (he : e∈heads) :
    Blocks n n (s.setAllocated e true) heads := by
  have hfree : ∀ x,(s.setAllocated e true).isFree x=true → x≠e∧s.isFree x=true := by
    intro x hx
    by_cases hxe : x=e
    · rw [hxe,setAllocated_isFree_self] at hx
      cases hx
    · rw [setAllocated_isFree_other _ _ _ _ hxe] at hx
      exact ⟨hxe,hx⟩
  refine ⟨?_,?_,?_,?_,?_⟩
  · rw [setAllocated_order]
    exact h.tiles
  · rw [setAllocated_order]
    exact h.aligned
  · intro x hx hnot
    have hxe : x≠e := fun heq => hnot (heq▸he)
    rw [setAllocated_isFree_other _ _ _ _ hxe]
    exact h.stale x hx hnot
  · intro x hx y hy _ _ hfx hfy
    have hfx := hfree x hfx
    have hfy := hfree y hfy
    rw [setAllocated_order]
    exact h.apart x hx y hy hfx.1 hfy.1 hfx.2 hfy.2
  · intro i hi
    rcases List.mem_cons.mp hi with rfl|hi
    · exact h.tiles.lt he
    · exact h.inRange i hi

/-- A request is answered with the index of a free block, which is then
allocated, or refused where there is none. -/
theorem pmemAllocate_spec {n : ℕ} (hsize : numEntries size=n) {s : State} {heads : List ℕ}
    (h : Blocks n n s heads) (len : UInt32) :
    (∃ is,pmemAllocate size s len=(-1,s.access is)∧(∀ i∈is,i< n)∧
      ∀ x∈heads,s.isFree x=true → s.order x<pmemOrder len)∨
    ∃ (b : ℕ) (heads' : List ℕ),(pmemAllocate size s len).1=b∧b∈heads∧s.isFree b=true∧
      pmemOrder len≤ s.order b∧Blocks n n (pmemAllocate size s len).2 heads'∧b∈heads'∧
      (pmemAllocate size s len).2.order b=pmemOrder len∧
      (pmemAllocate size s len).2.isFree b=false∧
      (∀ x∈heads,x≠b → x∈heads'∧(pmemAllocate size s len).2.bitmap x=s.bitmap x)∧
      ∀ x∈heads',x∉heads → (pmemAllocate size s len).2.isFree x=true := by
  have hn : n<2^32 := hsize▸numEntries_lt size
  have hmax : ¬pmemOrder len>PMEM_MAX_ORDER := by
    have := pmemOrder_le len
    unfold PMEM_MAX_ORDER
    omega
  have ⟨is,r,heq,his,hr,hnone⟩ := fitLoop_spec (pmemOrder len) n 0 none s heads h.tiles
    (fun x hx => hx) (by omega) (fun x hx => h.tiles.lt hx) (by simp)
  have hacc := h.access his
  unfold pmemAllocate
  rw [if_neg hmax,hsize,heq]
  cases r with
  | none => exact .inl ⟨is,rfl,his,(hnone rfl).2⟩
  | some b =>
    refine .inr ?_
    dsimp only
    have ⟨hb,hfree,hle⟩ := hr b rfl
    have ⟨heads',h',hb',hord,hkeep,hnew⟩ := splitLoop_spec hn (s.order b) (s.access is) heads
      (hacc.except b) hb hle (Nat.le_add_left _ _) hfree
    rw [access_order]
    refine ⟨b,heads',rfl,hb,hfree,hle,h'.allocated hb',hb',?_,?_,?_,?_⟩
    · rw [setAllocated_order]
      exact hord
    · rw [setAllocated_isFree_self]
      rfl
    · intro x hx hne
      have ⟨hx',hbits⟩ := hkeep x hx
      exact ⟨hx',(setAllocated_other _ _ _ _ hne).trans (hbits hne)⟩
    · intro x hx hnot
      have hne : x≠b := fun heq => hnot (heq▸hb)
      rw [setAllocated_isFree_other _ _ _ _ hne]
      exact hnew x hx hnot

/-- An allocated block that is freed, where the condition on its buddies holds. -/
theorem pmemFree_spec {n : ℕ} (hsize : numEntries size=n) {s : State} {heads : List ℕ}
    (h : Blocks n n s heads) {index : ℕ} (hin : index∈heads) (guard : Guarded n index s heads) :
    ∃ s' heads',pmemFree size s index=some s'∧Blocks n n s' heads'∧
      (∀ x,x≠index → s'.isFree x=s.isFree x)∧(∀ x∈heads',x∈heads)∧s'.isFree index=true∧
      ∀ x∈heads,x≠index → s.isFree x=false → x∈heads'∧s'.bitmap x=s.bitmap x := by
  have hn : n<2^32 := hsize▸numEntries_lt size
  have hself := setAllocated_isFree_self s index false
  have hother : ∀ x,x≠index → (s.setAllocated index false).isFree x=s.isFree x := fun x hx =>
    setAllocated_isFree_other _ _ _ _ hx
  have hsame : ∀ x,x≠index → (s.setAllocated index false).bitmap x=s.bitmap x := fun x hx =>
    setAllocated_other _ _ _ _ hx
  have hb : Blocks n index (s.setAllocated index false) heads := by
    refine ⟨?_,?_,?_,?_,?_⟩
    · rw [setAllocated_order]
      exact h.tiles
    · rw [setAllocated_order]
      exact h.aligned
    · intro x hx hnot
      rw [hother x fun heq => hnot (heq▸hin)]
      exact h.stale x hx hnot
    · intro x hx y hy hxe hye
      rw [hother x hxe,hother y hye,setAllocated_order]
      exact h.apart x hx y hy (h.tiles.lt hx).ne (h.tiles.lt hy).ne
    · intro i hi
      rcases List.mem_cons.mp hi with rfl|hi
      · exact h.tiles.lt hin
      · exact h.inRange i hi
  have guard' : Guarded n index (s.setAllocated index false) heads := by
    rcases guard with hlt|⟨j,hj,hne,hal,hle⟩
    · exact .inl hlt
    · exact .inr ⟨j,hj,hne,(hother j hne).trans hal,hle⟩
  have ⟨s',heads',hrun,h',hfree,hsub,hall⟩ := mergeLoop_spec hn PMEM_MAX_ORDER index _ heads hb hin
    hself guard' (by unfold PMEM_MAX_ORDER; omega)
  refine ⟨s',heads',?_,h',fun x hx => ?_,hsub,?_,fun x hx hne hal => ?_⟩
  · unfold pmemFree
    rw [hsize]
    exact hrun
  · rw [hfree,hother x hx]
  · rw [hfree,hself]
    rfl
  · have ⟨hx',hbits⟩ := hall x hx ((hother x hne).trans hal)
    exact ⟨hx',hbits.trans (hsame x hne)⟩

/-- Another block of the last block of an empty space is in use, or the freed
block lies before it. -/
def Spare (size : UInt32) (c : Session) : Request → Prop
  | .allocate _ => True
  | .free index => index<lastBlock (numEntries size)∨
    ∃ j∈c.live,j≠index∧lastBlock (numEntries size)≤j

/-- Following the next indices from 0 visits aligned blocks that tile the
entries, and the blocks in use are the allocated ones. -/
def Divided (size : UInt32) (c : Session) (heads : List ℕ) : Prop :=
  Tiles c.state.order 0 (numEntries size) heads∧Aligned c.state.order heads∧
    ∀ x,x∈c.live ↔ x∈heads∧c.state.isFree x=false

/-- What holds of the allocator between two requests. -/
structure Sound (size : UInt32) (after : ℕ → PmemBits) (c : Session) : Prop where
  divided : ∃ heads,Divided size c heads
  inRange : ∀ i∈c.state.indices,i<numEntries size
  /-- Where nothing is in use, the blocks are those `pmem_setup` built. -/
  restored : c.live=∅ → ∃ heads,Tiles c.state.order 0 (numEntries size) heads∧
    Tiles (pmemSetup size after).order 0 (numEntries size) heads∧
    ∀ x∈heads,c.state.order x=(pmemSetup size after).order x

/-- A request was answered as it should. -/
def Answers (size : UInt32) (c : Session) : Request → Session → Prop
  | .allocate len, c' => ∃ heads heads',Divided size c heads∧Divided size c' heads'∧
      ((pmemAllocate size c.state len).1=-1 ↔
        ∀ x∈heads,c.state.isFree x=true → c.state.order x<pmemOrder len)∧
      ((pmemAllocate size c.state len).1≠-1 → ∃ b : ℕ,(pmemAllocate size c.state len).1=b∧
        b∈heads∧c.state.isFree b=true∧c'.live=insert b c.live∧
        c'.state.order b≤c.state.order b∧len.toNat≤2^c'.state.order b*PMEM_MIN_ALLOC.toNat)∧
      ∀ x∈c.live,x∈heads'∧c'.state.bitmap x=c.state.bitmap x
  | .free index, c' => ∃ heads',Divided size c' heads'∧c'.live=c.live.erase index∧
      ∀ x∈c.live,x≠index → x∈heads'∧c'.state.bitmap x=c.state.bitmap x

/-- Only blocks in use are freed. -/
def Legal (c : Session) : Request → Prop
  | .allocate _ => True
  | .free index => index∈c.live

/-- What every request keeps. -/
def Inv (size : UInt32) (c : Session) : Prop :=
  ∃ heads,Blocks (numEntries size) (numEntries size) c.state heads∧
    ∀ x,x∈c.live ↔ x∈heads∧c.state.isFree x=false

theorem Inv.sound {c : Session} (after : ℕ → PmemBits) (h : Inv size c) :
    Sound size after c := by
  have ⟨heads,hb,hlive⟩ := h
  refine ⟨⟨heads,hb.tiles,hb.aligned,hlive⟩,hb.inRange,fun hempty => ?_⟩
  have hfree : ∀ x∈heads,c.state.isFree x=true := by
    intro x hx
    by_contra hal
    have hmem := (hlive x).mpr ⟨hx,Bool.not_eq_true _ ▸ hal⟩
    rw [hempty] at hmem
    exact Finset.notMem_empty x hmem
  have ⟨heads',hb',hfree'⟩ := setup_blocks size after
  have ⟨heq,hord⟩ := hb.tiles.eq_of_alone hb.aligned
    (fun x hx y hy ho => hb.apart x hx y hy (hb.tiles.lt hx).ne (hb.tiles.lt hy).ne
      (hfree x hx) (hfree y hy) ho)
    hb'.tiles hb'.aligned
    (fun x hx y hy ho => hb'.apart x hx y hy (hb'.tiles.lt hx).ne (hb'.tiles.lt hy).ne
      (hfree' x (hb'.tiles.lt hx)) (hfree' y (hb'.tiles.lt hy)) ho)
  subst heq
  exact ⟨heads,hb.tiles,hb'.tiles,hord⟩

theorem start_inv (size : UInt32) (after : ℕ → PmemBits) : Inv size (Session.start size after) := by
  have ⟨heads,hb,hfree⟩ := setup_blocks size after
  refine ⟨heads,hb,fun x => ⟨fun hx => absurd hx (Finset.notMem_empty x),fun ⟨hx,hal⟩ => ?_⟩⟩
  have := (hfree x (hb.tiles.lt hx)).symm.trans hal
  cases this

/-- Every request that is possible and meets the condition is answered as it should. -/
theorem step_answers {c : Session} (h : Inv size c) {r : Request} (legal : Legal c r)
    (spare : Spare size c r) :
    ∃ c',step size c r=some c'∧Inv size c'∧Answers size c r c' := by
  have ⟨heads,hb,hlive⟩ := h
  cases r with
  | allocate len =>
    have hstep : step size c (.allocate len)=some ⟨(pmemAllocate size c.state len).2,
        if (pmemAllocate size c.state len).1<0 then c.live
        else insert (pmemAllocate size c.state len).1.toNat c.live⟩ := rfl
    refine ⟨_,hstep,?_⟩
    rcases pmemAllocate_spec rfl hb len with ⟨is,heq,his,hnone⟩|
      ⟨b,heads',hres,hbin,hbfree,hle,hb',hbin',hord,hbal,hkeep,hnew⟩
    · rw [heq]
      have hb' := hb.access his
      refine ⟨⟨heads,hb',hlive⟩,heads,heads,⟨hb.tiles,hb.aligned,hlive⟩,
        ⟨hb'.tiles,hb'.aligned,hlive⟩,iff_of_true (congrArg Prod.fst heq) hnone,
        fun hne => absurd (congrArg Prod.fst heq) hne,?_⟩
      exact fun x hx => ⟨((hlive x).mp hx).1,rfl⟩
    · have hlive' : ∀ x,x∈insert b c.live ↔
          x∈heads'∧(pmemAllocate size c.state len).2.isFree x=false := by
        intro x
        rw [Finset.mem_insert,hlive x]
        by_cases hxb : x=b
        · rw [hxb]
          exact iff_of_true (.inl rfl) ⟨hbin',hbal⟩
        rw [or_iff_right hxb]
        constructor
        · intro ⟨hx,hal⟩
          have ⟨hx',hbits⟩ := hkeep x hx hxb
          exact ⟨hx',(congrArg (fun c => !PmemBits.allocated c) hbits).trans hal⟩
        · intro ⟨hx,hal⟩
          by_cases hold : x∈heads
          · have hbits := (hkeep x hold hxb).2
            exact ⟨hold,(congrArg (fun c => !PmemBits.allocated c) hbits).symm.trans hal⟩
          · rw [hnew x hx hold] at hal
            cases hal
      have hnat : (pmemAllocate size c.state len).1.toNat=b := by
        rw [hres]
        rfl
      have hpos : ¬(pmemAllocate size c.state len).1<0 := by
        omega
      have hsmall := hb'.order_small (numEntries_lt size) hbin'
      rw [hord] at hsmall
      rw [if_neg hpos,hnat]
      refine ⟨⟨heads',hb',hlive'⟩,heads,heads',⟨hb.tiles,hb.aligned,hlive⟩,
        ⟨hb'.tiles,hb'.aligned,hlive'⟩,iff_of_false ?_ ?_,fun _ => ?_,fun x hx => ?_⟩
      · omega
      · intro hall
        have := hall b hbin hbfree
        omega
      · refine ⟨b,hres,hbin,hbfree,rfl,?_,?_⟩
        · rw [hord]
          exact hle
        · rw [hord]
          exact le_pmemOrder hsmall
      · have ⟨hxin,hxal⟩ := (hlive x).mp hx
        refine hkeep x hxin fun hxb => ?_
        rw [hxb,hbfree] at hxal
        cases hxal
  | free index =>
    have ⟨hin,hal⟩ := (hlive index).mp legal
    have guard : Guarded (numEntries size) index c.state heads := by
      rcases spare with hlt|⟨j,hj,hne,hle⟩
      · exact .inl hlt
      · have ⟨hjin,hjal⟩ := (hlive j).mp hj
        exact .inr ⟨j,hjin,hne,hjal,hle⟩
    have ⟨s',heads',hrun,hb',hother,hsub,hself,hall⟩ := pmemFree_spec rfl hb hin guard
    have hlive' : ∀ x,x∈c.live.erase index ↔ x∈heads'∧s'.isFree x=false := by
      intro x
      rw [Finset.mem_erase,hlive x]
      constructor
      · intro ⟨hne,hx,hxal⟩
        exact ⟨(hall x hx hne hxal).1,(hother x hne).trans hxal⟩
      · intro ⟨hx,hxal⟩
        have hne : x≠index := by
          intro heq
          rw [heq,hself] at hxal
          cases hxal
        exact ⟨hne,hsub x hx,(hother x hne).symm.trans hxal⟩
    refine ⟨⟨s',c.live.erase index⟩,?_,⟨heads',hb',hlive'⟩,heads',
      ⟨hb'.tiles,hb'.aligned,hlive'⟩,rfl,fun x hx hne => ?_⟩
    · unfold step
      dsimp only
      rw [if_pos (show index∈c.live from legal),hrun]
      rfl
    · have ⟨hxin,hxal⟩ := (hlive x).mp hx
      exact hall x hxin hne hxal

theorem step_inv {c c' : Session} {r : Request} (h : Inv size c) (spare : Spare size c r)
    (hs : step size c r=some c') : Inv size c' := by
  have legal : Legal c r := by
    cases r with
    | allocate len => exact trivial
    | free index =>
      unfold step at hs
      dsimp only at hs
      split at hs
      · assumption
      · cases hs
  have ⟨c'',hs',hinv,_⟩ := step_answers h legal spare
  rw [hs] at hs'
  rw [Option.some.inj hs']
  exact hinv

/-- After any requests that meet the condition the space is divided as it
should be, and every further one of them is answered as it should. -/
theorem run_divided (size : UInt32) (after : ℕ → PmemBits) {rs : List Request} {c : Session}
    (h : Run (step size) (Spare size) (Session.start size after) rs c) :
    Sound size after c∧∀ r,Legal c r → Spare size c r →
      ∃ c',step size c r=some c'∧Sound size after c'∧Answers size c r c' := by
  have hinv := h.invariant (Inv size) (start_inv size after) fun hi hok hs => step_inv hi hok hs
  refine ⟨hinv.sound after,fun r legal spare => ?_⟩
  have ⟨c',hs,hi,ha⟩ := step_answers hinv legal spare
  exact ⟨c',hs,hi.sound after,ha⟩

instance (size : UInt32) (c : Session) (r : Request) : Decidable (Spare size c r) := by
  cases r with
  | allocate len => exact .isTrue trivial
  | free index => exact inferInstanceAs (Decidable (_∨∃ j∈c.live,_))

/-- A space of five pages: the first block is divided, and its halves merge again. -/
theorem run_divided_example :
    ∃ c,(Sound 20480 (fun _ => {}) c∧∀ r,Legal c r → Spare 20480 c r →
      ∃ c',step 20480 c r=some c'∧Sound 20480 (fun _ => {}) c'∧Answers 20480 c r c')∧
      c.live=∅ := by
  have ⟨c,hrun,hlive⟩ := exists_run (step 20480) (fun c r => decide (Spare 20480 c r))
    (Session.start 20480 fun _ => {}) [.allocate 8192,.free 0] (fun c => decide (c.live=∅))
    (by decide +kernel)
  exact ⟨c,run_divided 20480 (fun _ => {}) (hrun.mono fun c r h => of_decide_eq_true h),
    of_decide_eq_true hlive⟩

/-- A space of one page: when its block is freed, the code looks at the cell after it. -/
theorem run_outside : ¬∀ (size : UInt32) (after : ℕ → PmemBits) (rs : List Request) (c : Session),
    Run (step size) (fun _ _ => True) (Session.start size after) rs c → Sound size after c := by
  intro h
  have ⟨c,hrun,hout⟩ := exists_run (step 4096) (fun _ _ => true)
    (Session.start 4096 fun _ => { allocated := true }) [.allocate 4096,.free 0]
    (fun c => decide (1∈c.state.indices)) (by decide +kernel)
  have hs := h 4096 (fun _ => { allocated := true }) _ c (hrun.mono fun _ _ _ => trivial)
  have := hs.inRange 1 (of_decide_eq_true hout)
  exact absurd this (by decide)

end ArdroneKernel.PmemBitmap
