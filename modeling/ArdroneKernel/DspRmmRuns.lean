import ArdroneKernel.DspRmm
import ArdroneKernel.Execution

/-!
# Runs of the code and data heap

As long as no block is freed in front of an empty header, the headers are
apart from each other, and they and the live blocks cover the segment once.
-/

namespace ArdroneKernel.DspRmm

open BlockTilings Execution Function

/-- The block that a header describes. -/
def Header.block (h : Header) : Block := ⟨h.addr,h.size⟩

/-- The next header starts after a gap. -/
def Header.Before (g h : Header) : Prop := g.addr+g.size<h.addr

/-- In how many of the free blocks an address is. -/
def covered (l : List Header) (x : ℕ) : ℕ := coverage (l.map Header.block) x

@[simp] theorem covered_nil (x : ℕ) : covered [] x=0 := rfl

@[simp] theorem covered_cons (h : Header) (l : List Header) (x : ℕ) :
    covered (h::l) x=h.block.count x+covered l x := rfl

variable {a n x : ℕ} {h head rhead : Header} {l l' rest : List Header}

/-- Headers apart from each other, with addresses of 32 bits. -/
structure Spaced (l : List Header) : Prop where
  order : l.Pairwise Header.Before
  fits : ∀ h∈l,h.addr+h.size<2^32

theorem spaced_cons : Spaced (h::l) ↔
    (∀ k∈l,h.Before k)∧h.addr+h.size<2^32∧Spaced l := by
  constructor
  · intro ⟨ho,hf⟩
    have ⟨h1,h2⟩ := List.pairwise_cons.mp ho
    exact ⟨h1,hf h List.mem_cons_self,h2,fun k hk => hf k (List.mem_cons_of_mem h hk)⟩
  · intro ⟨h1,h2,h3⟩
    exact ⟨List.pairwise_cons.mpr ⟨h1,h3.order⟩,List.forall_mem_cons.mpr ⟨h2,h3.fits⟩⟩

/-- A block that is not free: every header is below or above it. -/
def Outside (a n : ℕ) (l : List Header) : Prop := ∀ h∈l,h.addr+h.size≤a∨a+n≤h.addr

/-- A free list after a block has been freed. -/
structure Freed (a n : ℕ) (l l' : List Header) : Prop where
  spaced : Spaced l'
  /-- The block is free now. -/
  cover : ∀ x,covered l' x=covered l x+(⟨a,n⟩ : Block).count x
  /-- A header starts where one has started before, or with the block. -/
  start : ∀ h∈l',h.addr=a∨∃ k∈l,h.addr=k.addr
  /-- No header describes an empty block that has not done so before; the
  block is not below one. -/
  empty : ∀ h∈l',h.size=0 → h∈l∧h.addr≠a+n
  nonempty : l'≠[]

/-! ## Freeing -/

theorem next_eq (hfit : h.addr+h.size<2^32) : h.next=h.addr+h.size := Nat.mod_eq_of_lt hfit

/-- The new header is joined with the header after it, when they touch. -/
theorem joinUpper_spec (hn : 0<n) (hfit : a+n<2^32) (hl : Spaced l) (hab : ∀ h∈l,a+n≤h.addr) :
    ∃ m rest,joinUpper a n ⟨a,n⟩ l=(⟨a,m⟩,rest)∧0< m∧Spaced (⟨a,m⟩::rest)∧
      (∀ x,(⟨a,m⟩ : Block).count x+covered rest x=covered l x+(⟨a,n⟩ : Block).count x)∧
      ∀ h∈rest,h∈l∧h.addr≠a+n := by
  cases l with
  | nil =>
    refine ⟨n,[],rfl,hn,spaced_cons.mpr ⟨nofun,hfit,hl⟩,fun x => ?_,nofun⟩
    omega
  | cons k rest =>
    have ⟨hk,hkfit,hrest⟩ := spaced_cons.mp hl
    have hak := hab k List.mem_cons_self
    have hne : ∀ h∈rest,h.addr≠a+n := fun h hh => by
      have := hk h hh
      unfold Header.Before at this
      omega
    unfold joinUpper
    dsimp only
    split
    next hjoin =>
      rw [next_eq hfit] at hjoin
      rw [Nat.mod_eq_of_lt (by omega)]
      refine ⟨n+k.size,rest,rfl,by omega,spaced_cons.mpr ⟨fun h hh => ?_,by dsimp only; omega,hrest⟩,
        fun x => ?_,fun h hh => ⟨List.mem_cons_of_mem k hh,hne h hh⟩⟩
      · have := hk h hh
        unfold Header.Before at *
        dsimp only
        omega
      · rw [covered_cons,count_add,hjoin]
        unfold Header.block
        omega
    next hapart =>
      rw [next_eq hfit] at hapart
      dsimp only at hapart
      refine ⟨n,k::rest,rfl,hn,spaced_cons.mpr ⟨fun h hh => ?_,hfit,hl⟩,
        fun x => Nat.add_comm _ _,fun h hh => ⟨hh,?_⟩⟩
      · have := hab h hh
        unfold Header.Before
        dsimp only
        rcases List.mem_cons.mp hh with rfl|hh
        · omega
        · have := hne h hh
          omega
      · rcases List.mem_cons.mp hh with rfl|hh
        · exact fun e => hapart e.symm
        · exact hne h hh

/-- A block is put between a header and those above it. -/
theorem join_above (hn : 0<n) (hfit : a+n<2^32) (hl : Spaced (head::l))
    (hbelow : head.addr+head.size≤a) (habove : ∀ h∈l,a+n≤h.addr) :
    Freed a n (head::l) (join a n head ⟨a,n⟩ l) := by
  have ⟨hbefore,hhead,hl⟩ := spaced_cons.mp hl
  have ⟨m,rest,hup,hm,hspaced,hcover,hrest⟩ := joinUpper_spec hn hfit hl habove
  have ⟨hfirst,hmfit,hspacedRest⟩ := spaced_cons.mp hspaced
  unfold join
  rw [hup]
  unfold joinLower
  dsimp only
  have hmem : ∀ h∈rest,h∈head::l := fun h hh => List.mem_cons_of_mem head (hrest h hh).1
  split
  next hjoin =>
    rw [next_eq hhead] at hjoin
    rw [Nat.mod_eq_of_lt (by dsimp only at hmfit; omega)]
    constructor
    · refine spaced_cons.mpr ⟨fun h hh => ?_,?_,hspacedRest⟩
      · have := hfirst h hh
        unfold Header.Before at *
        dsimp only at *
        omega
      · dsimp only at *
        omega
    · intro x
      have := hcover x
      rw [covered_cons,covered_cons]
      unfold Header.block
      dsimp only
      rw [count_add,hjoin]
      omega
    · intro h hh
      rcases List.mem_cons.mp hh with rfl|hh
      · exact Or.inr ⟨head,List.mem_cons_self,rfl⟩
      · exact Or.inr ⟨h,hmem h hh,rfl⟩
    · intro h hh hz
      rcases List.mem_cons.mp hh with rfl|hh
      · dsimp only at hz
        omega
      · exact ⟨hmem h hh,(hrest h hh).2⟩
    · exact List.cons_ne_nil _ _
  next hapart =>
    rw [next_eq hhead] at hapart
    constructor
    · refine spaced_cons.mpr ⟨fun h hh => ?_,hhead,hspaced⟩
      rcases List.mem_cons.mp hh with rfl|hh
      · exact Nat.lt_of_le_of_ne hbelow hapart
      · exact hbefore h (hrest h hh).1
    · intro x
      have := hcover x
      rw [covered_cons,covered_cons,covered_cons]
      unfold Header.block at *
      dsimp only at *
      omega
    · intro h hh
      rcases List.mem_cons.mp hh with rfl|hh
      · exact Or.inr ⟨h,List.mem_cons_self,rfl⟩
      · rcases List.mem_cons.mp hh with rfl|hh
        · exact Or.inl rfl
        · exact Or.inr ⟨h,hmem h hh,rfl⟩
    · intro h hh hz
      rcases List.mem_cons.mp hh with rfl|hh
      · exact ⟨List.mem_cons_self,by omega⟩
      · rcases List.mem_cons.mp hh with rfl|hh
        · dsimp only at hz
          omega
        · exact ⟨hmem h hh,(hrest h hh).2⟩
    · exact List.cons_ne_nil _ _

/-- The walk stops at the last header below the block. -/
theorem insertAbove_spec (hn : 0<n) (hfit : a+n<2^32) (hl : Spaced (head::l))
    (hbelow : head.addr+head.size≤a) (hout : Outside a n l) (hclear : ∀ h∈l,h.addr≠a) :
    Freed a n (head::l) (insertAbove a n head l) := by
  induction l generalizing head with
  | nil => exact join_above hn hfit hl hbelow nofun
  | cons next rest ih =>
    have ⟨hbefore,hhead,hspaced⟩ := spaced_cons.mp hl
    have hnext := hout next List.mem_cons_self
    have hne := hclear next List.mem_cons_self
    unfold insertAbove
    split
    next hgt =>
      have hfreed := ih hspaced (by omega) (fun h hh => hout h (List.mem_cons_of_mem next hh))
        fun h hh => hclear h (List.mem_cons_of_mem next hh)
      have hlt : head.addr+head.size<next.addr := hbefore next List.mem_cons_self
      constructor
      · refine spaced_cons.mpr ⟨fun h hh => ?_,hhead,hfreed.spaced⟩
        unfold Header.Before
        rcases hfreed.start h hh with e|⟨k,hk,e⟩
        · omega
        · rw [e]
          exact hbefore k hk
      · intro x
        rw [covered_cons,hfreed.cover x,covered_cons head]
        omega
      · intro h hh
        rcases List.mem_cons.mp hh with rfl|hh
        · exact Or.inr ⟨h,List.mem_cons_self,rfl⟩
        · exact (hfreed.start h hh).imp id fun ⟨k,hk,e⟩ => ⟨k,List.mem_cons_of_mem head hk,e⟩
      · intro h hh hz
        rcases List.mem_cons.mp hh with rfl|hh
        · exact ⟨List.mem_cons_self,by omega⟩
        · have ⟨hmem,hstop⟩ := hfreed.empty h hh hz
          exact ⟨List.mem_cons_of_mem head hmem,hstop⟩
      · exact List.cons_ne_nil _ _
    next hle =>
      refine join_above hn hfit hl hbelow fun h hh => ?_
      have hlow : a+n≤next.addr := by omega
      rcases List.mem_cons.mp hh with rfl|hh
      · exact hlow
      · have : next.addr+next.size<h.addr := (spaced_cons.mp hspaced).1 h hh
        omega

/-- A block below the first header becomes the first. -/
theorem join_below (hn : 0<n) (hl : Spaced (head::l)) (hle : a+n≤head.addr) :
    Freed a n (head::l) (join a n ⟨a,n⟩ head l) := by
  have ⟨hbefore,hhead,hspaced⟩ := spaced_cons.mp hl
  -- The old first header does not touch the one after it.
  have hup : joinUpper a n head l=(head,l) := by
    cases l with
    | nil => rfl
    | cons k rest =>
      have : head.addr+head.size<k.addr := hbefore k List.mem_cons_self
      unfold joinUpper
      dsimp only
      rw [next_eq hhead,if_neg (by omega)]
  unfold join
  rw [hup]
  unfold joinLower
  rw [next_eq (show (⟨a,n⟩ : Header).addr+(⟨a,n⟩ : Header).size<2^32 by dsimp only; omega)]
  dsimp only
  split
  next hjoin =>
    rw [Nat.mod_eq_of_lt (by omega)]
    constructor
    · refine spaced_cons.mpr ⟨fun h hh => ?_,by dsimp only; omega,hspaced⟩
      have : head.addr+head.size<h.addr := hbefore h hh
      unfold Header.Before
      dsimp only
      omega
    · intro x
      rw [covered_cons,covered_cons]
      unfold Header.block
      dsimp only
      rw [count_add,hjoin]
      omega
    · intro h hh
      rcases List.mem_cons.mp hh with rfl|hh
      · exact Or.inl rfl
      · exact Or.inr ⟨h,List.mem_cons_of_mem head hh,rfl⟩
    · intro h hh hz
      rcases List.mem_cons.mp hh with rfl|hh
      · dsimp only at hz
        omega
      · have : head.addr+head.size<h.addr := hbefore h hh
        exact ⟨List.mem_cons_of_mem head hh,by omega⟩
    · exact List.cons_ne_nil _ _
  next hapart =>
    constructor
    · refine spaced_cons.mpr ⟨fun h hh => ?_,by dsimp only; omega,hl⟩
      unfold Header.Before
      dsimp only
      rcases List.mem_cons.mp hh with rfl|hh
      · omega
      · have : head.addr+head.size<h.addr := hbefore h hh
        omega
    · intro x
      rw [covered_cons]
      exact Nat.add_comm _ _
    · intro h hh
      rcases List.mem_cons.mp hh with rfl|hh
      · exact Or.inl rfl
      · exact Or.inr ⟨h,hh,rfl⟩
    · intro h hh hz
      rcases List.mem_cons.mp hh with rfl|hh
      · dsimp only at hz
        omega
      · refine ⟨hh,?_⟩
        rcases List.mem_cons.mp hh with rfl|hh
        · exact fun e => hapart e.symm
        · have : head.addr+head.size<h.addr := hbefore h hh
          omega
    · exact List.cons_ne_nil _ _

/-- A block that is not free is freed, when no empty header after the first
one is in its way. -/
theorem freeBlock_spec (hn : 0<n) (hfit : a+n<2^32) (hl : Spaced l) (hne : l≠[])
    (hout : Outside a n l) (hclear : ∀ h∈l.tail,h.addr=a → h.size≠0) :
    ∃ l',freeBlock true a n l=(l',true)∧Freed a n l l' := by
  cases l with
  | nil => exact absurd rfl hne
  | cons head rest =>
    have hhead := hout head List.mem_cons_self
    unfold freeBlock
    dsimp only
    rw [if_pos rfl]
    split
    next hge =>
      refine ⟨_,rfl,insertAbove_spec hn hfit hl (by omega)
        (fun h hh => hout h (List.mem_cons_of_mem head hh)) fun h hh e => ?_⟩
      have := hout h (List.mem_cons_of_mem head hh)
      have := hclear h hh e
      omega
    next hlt => exact ⟨_,rfl,join_below hn hl (by omega)⟩

/-! ## Allocating -/

/-- A free list after memory has been taken from the start of a block. -/
structure Taken (a k : ℕ) (l l' : List Header) : Prop where
  spaced : Spaced l'
  cover : ∀ x,covered l x=covered l' x+(⟨a,k⟩ : Block).count x
  /-- The memory taken is not free, and no header starts with it. -/
  outside : Outside a k l'∧∀ h∈l',h.addr≠a
  /-- A block may be empty that ends with the memory taken. -/
  empty : ∀ h∈l',h.size=0 → h∈l∨h.addr=a+k
  start : ∀ h∈l',∃ g∈l,g.addr≤h.addr

theorem tmpalign_lt (addr : ℕ) {align : ℕ} (h : 0<align) : tmpalign addr align<align := by
  unfold tmpalign
  split <;> omega

theorem tmpalign_dvd (addr : ℕ) {align : ℕ} (h : 0<align) :
    align∣addr+tmpalign addr align := by
  have hlt := Nat.mod_lt addr h
  have hdiv := Nat.div_add_mod addr align
  unfold tmpalign
  split
  · refine ⟨addr/align+1,?_⟩
    rw [Nat.mul_add,Nat.mul_one]
    omega
  next hz =>
    rw [Nat.add_zero]
    exact Nat.dvd_of_mod_eq_zero (by omega)

/-- The next multiple is not after any multiple. -/
theorem tmpalign_le {addr align y : ℕ} (hy : addr≤y) (hdvd : align∣y) :
    addr+tmpalign addr align≤y := by
  have ⟨q,hq⟩ := hdvd
  have hdiv := Nat.div_add_mod addr align
  unfold tmpalign
  split
  next hne =>
    have hpos : 0<align := Nat.pos_of_ne_zero fun hz => by
      rw [hz,Nat.zero_mul] at hq
      omega
    have hquot : addr/align+1≤q := by
      by_contra hle
      have := Nat.mul_le_mul_left align (show q≤addr/align by omega)
      omega
    have := Nat.mul_le_mul_left align hquot
    rw [Nat.mul_add,Nat.mul_one] at this
    omega
  · exact hy

variable {size align : ℕ}

/-- The loop finds the first block that is large enough. -/
theorem allocLoop_spec (hl : Spaced l) (hsize : 0<size) (halign : 0<align)
    (hfit : size+align≤2^32) (first : Bool) :
    (∃ a l',allocLoop size align first l=some (a,l')∧
      Taken a (size+tmpalign a align) l l'∧(first=true → l'≠[]))∨
    allocLoop size align first l=none∧∀ h∈l,h.size<size+tmpalign h.addr align := by
  induction l generalizing first with
  | nil => exact Or.inr ⟨rfl,nofun⟩
  | cons head next ih =>
    have ⟨hbefore,hhead,hspaced⟩ := spaced_cons.mp hl
    have hlt := tmpalign_lt head.addr halign
    have habove : ∀ h∈next,head.addr+head.size<h.addr := hbefore
    unfold allocLoop
    dsimp only
    rw [Nat.mod_eq_of_lt (by omega)]
    split
    next hge =>
      refine Or.inl ?_
      split
      next hexact =>
        refine ⟨head.addr,next,rfl,⟨hspaced,fun x => ?_,⟨fun h hh => Or.inr ?_,fun h hh => ?_⟩,
          fun h hh _ => Or.inl (List.mem_cons_of_mem head hh),
          fun h hh => ⟨h,List.mem_cons_of_mem head hh,le_rfl⟩⟩,fun hf => ?_⟩
        · rw [covered_cons,← hexact.1]
          exact Nat.add_comm _ _
        · have := habove h hh
          omega
        · have := habove h hh
          omega
        · rw [hexact.2] at hf
          cases hf
      next hrest =>
        rw [Nat.mod_eq_of_lt (by omega)]
        refine ⟨head.addr,_,rfl,⟨spaced_cons.mpr ⟨fun h hh => ?_,by dsimp only; omega,hspaced⟩,
          fun x => ?_,⟨fun h hh => Or.inr ?_,fun h hh => ?_⟩,fun h hh hz => ?_,fun h hh => ?_⟩,
          fun _ => List.cons_ne_nil _ _⟩
        · have := habove h hh
          unfold Header.Before
          dsimp only
          omega
        · have hcut := count_add head.addr (size+tmpalign head.addr align)
            (head.size-(size+tmpalign head.addr align)) x
          rw [Nat.add_sub_cancel' hge] at hcut
          rw [covered_cons,covered_cons]
          unfold Header.block
          dsimp only
          omega
        · rcases List.mem_cons.mp hh with rfl|hh
          · exact le_rfl
          · have := habove h hh
            omega
        · rcases List.mem_cons.mp hh with rfl|hh
          · dsimp only
            omega
          · have := habove h hh
            omega
        · rcases List.mem_cons.mp hh with rfl|hh
          · exact Or.inr rfl
          · exact Or.inl (List.mem_cons_of_mem head hh)
        · rcases List.mem_cons.mp hh with rfl|hh
          · exact ⟨head,List.mem_cons_self,Nat.le_add_right _ _⟩
          · exact ⟨h,List.mem_cons_of_mem head hh,le_rfl⟩
    next hsmall =>
      rcases ih hspaced false with ⟨a,l',hloop,htaken,_⟩|⟨hloop,hnone⟩
      · rw [hloop]
        refine Or.inl ⟨a,head::l',rfl,⟨spaced_cons.mpr ⟨fun h hh => ?_,hhead,htaken.spaced⟩,
          fun x => ?_,?_,fun h hh hz => ?_,fun h hh => ?_⟩,fun _ => List.cons_ne_nil _ _⟩
        · have ⟨g,hg,hle⟩ := htaken.start h hh
          have := habove g hg
          unfold Header.Before
          omega
        · have := htaken.cover x
          rw [covered_cons,covered_cons head]
          omega
        · -- Memory was taken from a header after this one.
          have hbelow : head.addr+head.size<a := by
            have hin : (⟨a,size+tmpalign a align⟩ : Block).count a=1 := by
              refine count_of_has ⟨le_rfl,?_⟩
              unfold Block.stop
              dsimp only
              omega
            have hcov := htaken.cover a
            have hpos : 0<covered next a := by omega
            have ⟨b,hb,hhas⟩ := exists_of_coverage hpos
            have ⟨g,hg,hgb⟩ := List.mem_map.mp hb
            subst hgb
            have := habove g hg
            exact this.trans_le hhas.1
          refine ⟨fun h hh => ?_,fun h hh => ?_⟩
          · rcases List.mem_cons.mp hh with rfl|hh
            · exact Or.inl hbelow.le
            · exact htaken.outside.1 h hh
          · rcases List.mem_cons.mp hh with rfl|hh
            · omega
            · exact htaken.outside.2 h hh
        · rcases List.mem_cons.mp hh with rfl|hh
          · exact Or.inl List.mem_cons_self
          · exact (htaken.empty h hh hz).imp (List.mem_cons_of_mem head) id
        · rcases List.mem_cons.mp hh with rfl|hh
          · exact ⟨h,List.mem_cons_self,le_rfl⟩
          · have ⟨g,hg,hle⟩ := htaken.start h hh
            exact ⟨g,List.mem_cons_of_mem head hg,hle⟩
      · rw [hloop]
        refine Or.inr ⟨rfl,fun h hh => ?_⟩
        rcases List.mem_cons.mp hh with rfl|hh
        · omega
        · exact hnone h hh

theorem alignbytes_pos (align : ℕ) : 0<alignbytes align := by
  unfold alignbytes
  split <;> omega

/-- A free list after a block has been allocated. -/
structure Allocated (align a size : ℕ) (l l' : List Header) : Prop where
  aligned : alignbytes align∣a
  spaced : Spaced l'
  nonempty : l'≠[]
  cover : ∀ x,covered l x=covered l' x+(⟨a,size⟩ : Block).count x
  /-- A block may have become empty that ends with the one allocated. -/
  empty : ∀ h∈l',h.size=0 → h∈l∨h.addr=a+size

/-- Memory that is covered is below 2^32. -/
theorem Spaced.lt (hl : Spaced l) (h : 0<covered l x) : x<2^32 := by
  have ⟨b,hb,hhas⟩ := exists_of_coverage h
  have ⟨g,hg,hgb⟩ := List.mem_map.mp hb
  subst hgb
  exact (Nat.lt_of_lt_of_le hhas.2 (hl.fits g hg).le)

/-- Memory is taken at a multiple of the alignment, and the hole before it is
free again; or no block is large enough. -/
theorem allocBlock_spec {align : ℕ} (hl : Spaced l) (hsize : 0<size) (hfit : size+align<2^32) :
    (∃ a l',allocBlock true size align l=some (a,l')∧Allocated align a size l l')∨
    allocBlock true size align l=none∧∀ h∈l,h.size<size+tmpalign h.addr (alignbytes align) := by
  have halign := alignbytes_pos align
  have hfit' : size+alignbytes align≤2^32 := by
    unfold alignbytes
    split <;> omega
  unfold allocBlock
  rcases allocLoop_spec hl hsize halign hfit' true with ⟨a,l1,hloop,htaken,hne⟩|⟨hloop,hnone⟩
  · rw [hloop]
    have hdvd := tmpalign_dvd a halign
    have ⟨hspaced,hcover,⟨hout,hstart⟩,hempty,_⟩ := htaken
    refine Or.inl ?_
    rw [Option.map_some]
    dsimp only
    generalize tmpalign a (alignbytes align)=hole at *
    have hcut : ∀ x,covered l x=
        covered l1 x+(⟨a,hole⟩ : Block).count x+(⟨a+hole,size⟩ : Block).count x := fun x => by
      rw [hcover x,Nat.add_comm size hole,count_add,Nat.add_assoc]
    have hlt : a+hole<2^32 := by
      refine hl.lt ?_
      rw [hcut,count_of_has (b := ⟨a+hole,size⟩) ⟨le_rfl,Nat.lt_add_of_pos_right hsize⟩]
      exact Nat.succ_pos _
    rw [Nat.mod_eq_of_lt hlt]
    unfold freeHole
    split
    next hpos =>
      have hout' : Outside a hole l1 := fun h hh => by
        have := hout h hh
        omega
      have ⟨l',hfree,hfreed⟩ := freeBlock_spec (Nat.pos_of_ne_zero hpos) hlt hspaced (hne rfl) hout'
        fun h hh e => absurd e (hstart h (List.mem_of_mem_tail hh))
      rw [hfree]
      refine ⟨_,_,rfl,hdvd,hfreed.spaced,hfreed.nonempty,fun x => ?_,fun h hh hz => ?_⟩
      · rw [hcut,hfreed.cover]
      · refine (hempty h (hfreed.empty h hh hz).1 hz).imp id fun e => ?_
        omega
    next hzero =>
      have hzero : hole=0 := by omega
      subst hzero
      refine ⟨_,_,rfl,hdvd,hspaced,hne rfl,fun x => ?_,fun h hh hz => ?_⟩
      · rw [hcut,count_empty]
        rfl
      · exact hempty h hh hz
  · rw [hloop]
    exact Or.inr ⟨rfl,hnone⟩

/-! ## A segment -/

/-- What holds of a segment and its live blocks between the calls. -/
structure Good (s : Segment) (live : List Block) : Prop where
  /-- Every address of the segment is in one block, and no other address is. -/
  cover : ∀ x,coverage live x+covered s.freeList x=if s.base≤x∧x<s.base+s.length then 1 else 0
  spaced : Spaced s.freeList
  nonempty : s.freeList≠[]
  /-- The block before an empty one is live. -/
  empty : ∀ h∈s.freeList,h.size=0 → h.addr=s.base∨∃ b∈live,b.stop=h.addr
  pos : ∀ b∈live,0<b.size
  number : s.number=live.length
  fits : s.base+s.length<2^32

variable {s : Segment} {live : List Block} {b : Block}

theorem create_good {base length : ℕ} (hfit : base+length<2^32) :
    Good ⟨base,length,0,[⟨base,length⟩]⟩ [] where
  cover x := by
    rw [coverage_nil,covered_cons,covered_nil]
    unfold Header.block Block.count Block.stop
    dsimp only
    omega
  spaced := ⟨List.pairwise_singleton _ _,fun h hh => by
    cases List.mem_singleton.mp hh
    exact hfit⟩
  nonempty := List.cons_ne_nil _ _
  empty h hh _ := by
    cases List.mem_singleton.mp hh
    exact Or.inl rfl
  pos _ hb := by cases hb
  number := rfl
  fits := hfit

/-- What is covered is in the segment. -/
theorem Good.inside (h : Good s live) (hx : 0<coverage live x+covered s.freeList x) :
    s.base≤x∧x<s.base+s.length := by
  rw [h.cover] at hx
  split at hx
  next hin => exact hin
  · omega

theorem Good.bounds (h : Good s live) (hb : b∈live) : s.base≤b.start∧b.stop≤ s.base+s.length := by
  have hpos := h.pos b hb
  have hin : ∀ y,b.Has y → s.base≤y∧y<s.base+s.length := fun y hy => by
    have := count_le hb y
    rw [count_of_has hy] at this
    exact h.inside (by omega)
  have h1 := hin b.start ⟨le_rfl,Nat.lt_add_of_pos_right hpos⟩
  have h2 := hin (b.stop-1) (by
    unfold Block.Has Block.stop
    omega)
  exact ⟨h1.1,by omega⟩

/-- A live block is outside the free blocks. -/
theorem Good.outside (h : Good s live) (hb : b∈live) : Outside b.start b.size s.freeList := by
  intro g hg
  have hpos := h.pos b hb
  have hlow := (h.bounds hb).1
  by_contra hin
  by_cases hz : g.size=0
  · rcases h.empty g hg hz with e|⟨c,hc,e⟩
    · omega
    · -- The live block before the empty one would be in this one.
      have hcpos := h.pos c hc
      have hne : b≠c := by
        rintro rfl
        unfold Block.stop at e
        omega
      have htwo := count_add_le hb hc hne (g.addr-1)
      have hone := h.cover (g.addr-1)
      unfold Block.stop at e
      rw [count_of_has (b := b) (by unfold Block.Has Block.stop; omega),
        count_of_has (b := c) (by unfold Block.Has Block.stop; omega)] at htwo
      split at hone <;> omega
  · have hfree := count_le (List.mem_map_of_mem (f := Header.block) hg) (max b.start g.addr)
    have hlive := count_le hb (max b.start g.addr)
    have hone := h.cover (max b.start g.addr)
    rw [count_of_has (b := b) (by unfold Block.Has Block.stop; omega)] at hlive
    rw [count_of_has (b := g.block) (by
      unfold Block.Has Header.block Block.stop
      dsimp only
      omega)] at hfree
    unfold covered at hone
    split at hone <;> omega

/-- A block is freed. -/
theorem Good.free (h : Good s live) {a n : ℕ} (hb : (⟨a,n⟩ : Block)∈live)
    (hclear : ∀ g∈s.freeList.tail,g.addr=a → g.size≠0) :
    ∃ t,rmmFree true s a n=(t,true)∧t.base=s.base∧t.length=s.length∧
      Good t (live.erase ⟨a,n⟩) := by
  have hbound : s.base≤a∧a+n≤ s.base+s.length := h.bounds hb
  have hfits := h.fits
  have hn : 0<n := h.pos _ hb
  have ⟨l',hfree,hfreed⟩ := freeBlock_spec (a := a) (n := n) hn (by omega) h.spaced h.nonempty
    (h.outside hb) hclear
  have hperm := List.perm_cons_erase hb
  unfold rmmFree
  rw [hfree]
  refine ⟨_,rfl,rfl,rfl,fun x => ?_,hfreed.spaced,hfreed.nonempty,fun g hg hz => ?_,fun c hc => ?_,
    ?_,hfits⟩
  · have hcover := h.cover x
    rw [coverage_perm hperm x,coverage_cons] at hcover
    rw [hfreed.cover,← hcover]
    omega
  · have ⟨hmem,hstop⟩ := hfreed.empty g hg hz
    refine (h.empty g hmem hz).imp id fun ⟨c,hc,e⟩ => ⟨c,(List.mem_erase_of_ne ?_).mpr hc,e⟩
    rintro rfl
    exact hstop e.symm
  · exact h.pos c (List.mem_of_mem_erase hc)
  · rw [h.number,List.length_erase_of_mem hb]

/-- A block is allocated. -/
theorem Good.alloc (h : Good s live) {size align a : ℕ} {l' : List Header} (hsize : 0<size)
    (htaken : Allocated align a size s.freeList l') :
    Good {s with number := s.number+1,freeList := l'} (⟨a,size⟩::live) where
  cover x := by
    dsimp only
    rw [← h.cover,htaken.cover,coverage_cons]
    omega
  spaced := htaken.spaced
  nonempty := htaken.nonempty
  empty g hg hz := by
    rcases htaken.empty g hg hz with hmem|e
    · exact (h.empty g hmem hz).imp id fun ⟨c,hc,e⟩ => ⟨c,List.mem_cons_of_mem _ hc,e⟩
    · exact Or.inr ⟨_,List.mem_cons_self,e.symm⟩
  pos c hc := by
    rcases List.mem_cons.mp hc with rfl|hc
    · exact hsize
    · exact h.pos c hc
  number := congrArg (·+1) h.number
  fits := h.fits

/-- Whether a block fits at an aligned address of free memory. -/
def Fits (s : Segment) (live : List Block) (size align : ℕ) : Prop :=
  ∃ x,alignbytes align∣x∧s.base≤x∧x+size≤ s.base+s.length∧
    ∀ y,x≤y → y<x+size → ∀ b∈live,¬b.Has y

theorem spaced_cases (hl : Spaced l) {g : Header} (hg : g∈l) (hh : h∈l) :
    g=h∨g.Before h∨h.Before g := by
  induction l with
  | nil => cases hg
  | cons k rest ih =>
    have ⟨hbefore,_,hspaced⟩ := spaced_cons.mp hl
    rcases List.mem_cons.mp hg with rfl|hg'
    · rcases List.mem_cons.mp hh with rfl|hh'
      · exact Or.inl rfl
      · exact Or.inr (Or.inl (hbefore h hh'))
    · rcases List.mem_cons.mp hh with rfl|hh'
      · exact Or.inr (Or.inr (hbefore g hg'))
      · exact ih hspaced hg' hh'

/-- When no header is large enough, nothing fits. -/
theorem Good.no_fit (h : Good s live) {size align : ℕ} (hsize : 0<size)
    (hnone : ∀ g∈s.freeList,g.size<size+tmpalign g.addr (alignbytes align)) :
    ¬Fits s live size align := by
  rintro ⟨x,hdvd,hlow,hhigh,hout⟩
  -- Every address of the block is in a free block.
  have hfree : ∀ y,x≤y → y<x+size → ∃ g∈s.freeList,g.addr≤y∧y<g.addr+g.size := by
    intro y h1 h2
    have hcover := h.cover y
    rw [if_pos (by omega)] at hcover
    have hzero : coverage live y=0 := by
      by_contra hpos
      have ⟨b,hb,hhas⟩ := exists_of_coverage (Nat.pos_of_ne_zero hpos)
      exact hout y h1 h2 b hb hhas
    have hpos : 0<covered s.freeList y := by omega
    have ⟨b,hb,hhas⟩ := exists_of_coverage hpos
    have ⟨g,hg,hgb⟩ := List.mem_map.mp hb
    subst hgb
    exact ⟨g,hg,hhas⟩
  have ⟨g,hg,hgx,hxg⟩ := hfree x le_rfl (by omega)
  have hin : x+size≤g.addr+g.size := by
    by_contra hlt
    have ⟨k,hk,h1,h2⟩ := hfree (g.addr+g.size) (by omega) (by omega)
    rcases spaced_cases h.spaced hg hk with rfl|e|e
    · omega
    · unfold Header.Before at e
      omega
    · unfold Header.Before at e
      omega
  have := hnone g hg
  have := tmpalign_le hgx hdvd
  omega

theorem rmmAlloc_spec (h : Good s live) {size align : ℕ} (hsize : 0<size)
    (hfit : size+align<2^32) :
    (∃ a t,rmmAlloc true s size align=(t,.ok a)∧t.base=s.base∧t.length=s.length∧
      alignbytes align∣a∧Good t (⟨a,size⟩::live))∨
    (rmmAlloc true s size align=(s,.error (-ENOMEM))∧¬Fits s live size align) := by
  unfold rmmAlloc
  rcases allocBlock_spec h.spaced hsize hfit with ⟨a,l',halloc,htaken⟩|⟨halloc,hnone⟩
  · rw [halloc]
    exact Or.inl ⟨a,_,rfl,rfl,rfl,htaken.aligned,h.alloc hsize htaken⟩
  · rw [halloc]
    exact Or.inr ⟨rfl,h.no_fit hsize hnone⟩

/-! ## Runs -/

theorem rmmCreate_good {base length : ℕ → ℕ} (hfit : ∀ i,base i+length i<2^32) (i : ℕ) :
    Good ((rmmCreate base length).target i) ((rmmCreate base length).live i) :=
  create_good (hfit i)

/-- Every segment, with the base and length it was created with, holds. -/
def AllGood (base length : ℕ → ℕ) (s : State) : Prop :=
  ∀ i,Good (s.target i) (s.live i)∧(s.target i).base=base i∧(s.target i).length=length i

variable {base length : ℕ → ℕ} {u v : State}

/-- A segment is replaced by one that holds. -/
theorem AllGood.update (h : AllGood base length u) {i : ℕ} {t : Segment} {bs : List Block}
    (hgood : Good t bs) (hbase : t.base=(u.target i).base) (hlength : t.length=(u.target i).length) :
    AllGood base length ⟨update u.target i t,update u.live i bs⟩ := by
  intro j
  dsimp only
  by_cases hj : j=i
  · subst hj
    rw [update_self,update_self]
    exact ⟨hgood,hbase.trans (h j).2.1,hlength.trans (h j).2.2⟩
  · rw [update_of_ne hj,update_of_ne hj]
    exact h j

theorem step_good (h : AllGood base length u) {e : Event} (hok : e.ok=true)
    (hclear : e.clear u=true) (hstep : step u e=some v) : AllGood base length v := by
  cases e with
  | alloc segid size align mem =>
    have ⟨hsize,hfit,hmem⟩ := of_decide_eq_true hok
    subst hmem
    unfold step at hstep
    dsimp only at hstep
    rcases rmmAlloc_spec (h segid).1 hsize hfit with ⟨a,t,halloc,hb,hlen,_,hgood⟩|⟨halloc,_⟩
    · rw [halloc] at hstep
      cases hstep
      exact h.update hgood hb hlen
    · rw [halloc] at hstep
      cases hstep
      have hsame := h.update (h segid).1 rfl rfl
      rwa [update_eq_self] at hsame ⊢
  | free segid addr size mem =>
    have hmem : mem=true := hok
    subst hmem
    have hnoempty : ∀ g∈(u.target segid).freeList.tail,g.addr=addr → g.size≠0 := by
      intro g hg e
      have hor := of_decide_eq_true (List.all_eq_true.mp hclear g hg)
      exact hor.resolve_left fun hne => hne e
    unfold step at hstep
    dsimp only at hstep
    split at hstep
    next hlive =>
      have ⟨t,hfree,hb,hlen,hgood⟩ := (h segid).1.free hlive hnoempty
      rw [hfree] at hstep
      cases hstep
      exact h.update hgood hb hlen
    · cases hstep

/-- What the heap keeps in a segment. -/
structure Kept (s : Segment) (live : List Block) : Prop where
  /-- The live blocks and the free blocks that are not empty tile the segment. -/
  tiles : ∃ bs : List Block,
    bs.Perm (live++(s.freeList.map Header.block).filter (0<·.size))∧
      Tiles s.base bs (s.base+s.length)
  /-- The free list is in the order of the addresses. -/
  order : s.freeList.Pairwise fun g h => g.addr<h.addr
  number : s.number=live.length
  /-- A block that is returned is at a multiple of the alignment. -/
  aligned : ∀ {size align a t},0<size → size+align<2^32 →
    rmmAlloc true s size align=(t,.ok a) → alignbytes align∣a
  /-- Memory is refused only when no aligned block fits in free memory. -/
  refused : ∀ {size align e t},0<size → size+align<2^32 →
    rmmAlloc true s size align=(t,.error e) → ¬Fits s live size align
  /-- When nothing is live the whole segment can be had. -/
  whole : live=[] → ∀ {align},0<s.length → s.length+align<2^32 → alignbytes align∣s.base →
    ∃ a t,rmmAlloc true s s.length align=(t,.ok a)

theorem covered_filter (l : List Header) (x : ℕ) :
    coverage ((l.map Header.block).filter (0<·.size)) x=covered l x := by
  induction l with
  | nil => rfl
  | cons h l ih =>
    rw [List.map_cons,covered_cons,List.filter_cons]
    split
    · rw [coverage_cons,ih]
    next hz =>
      have hcount : h.block.count x=0 := by
        have hz : h.block.size=0 := by
          have := of_decide_eq_false (Bool.of_not_eq_true hz)
          omega
        rw [← count_empty h.block.start x,← hz]
      rw [hcount,ih,Nat.zero_add]

theorem Good.kept (h : Good s live) : Kept s live where
  tiles := by
    refine exists_tiles (fun b hb => ?_) (Nat.le_add_right _ _) fun x => ?_
    · rcases List.mem_append.mp hb with hb|hb
      · exact h.pos b hb
      · exact of_decide_eq_true (List.mem_filter.mp hb).2
    · rw [coverage_append,covered_filter]
      exact h.cover x
  order := h.spaced.order.imp fun {g k} hgk => by
    unfold Header.Before at hgk
    omega
  number := h.number
  aligned hsize hfit halloc := by
    rcases rmmAlloc_spec h hsize hfit with ⟨a,t,heq,_,_,hdvd,_⟩|⟨heq,_⟩
    · cases heq.symm.trans halloc
      exact hdvd
    · cases heq.symm.trans halloc
  refused hsize hfit halloc := by
    rcases rmmAlloc_spec h hsize hfit with ⟨a,t,heq,_⟩|⟨heq,hno⟩
    · cases heq.symm.trans halloc
    · exact hno
  whole hempty align hsize hfit hdvd := by
    rcases rmmAlloc_spec h hsize hfit with ⟨a,t,heq,_⟩|⟨heq,hno⟩
    · exact ⟨a,t,heq⟩
    · refine absurd ⟨s.base,hdvd,le_rfl,le_rfl,fun _ _ _ b hb => ?_⟩ hno
      rw [hempty] at hb
      cases hb

/-- In every run in which no block is freed in front of an empty header that
is not the first, the heap keeps every segment. -/
theorem heap_kept (hfit : ∀ i,base i+length i<2^32) {es : List Event}
    (hrun : Run step (fun s e => e.ok=true∧e.clear s=true) (rmmCreate base length) es u) (i : ℕ) :
    (u.target i).base=base i∧(u.target i).length=length i∧Kept (u.target i) (u.live i) := by
  have h := hrun.invariant (AllGood base length) (fun i => ⟨rmmCreate_good hfit i,rfl,rfl⟩)
    fun hu hok hstep => step_good hu hok.1 hok.2 hstep
  exact ⟨(h i).2.1,(h i).2.2,(h i).1.kept⟩

/-- Two blocks are allocated, one of them aligned, and the first is freed. -/
theorem heap_kept_example : ∃ s,
    Run step (fun s e => e.ok=true∧e.clear s=true) (rmmCreate (fun _ => 4) fun _ => 28)
      [.alloc 0 12 0 true,.alloc 0 4 8 true,.free 0 4 12 true] s∧
    s.live 0=[⟨16,4⟩]∧Kept (s.target 0) (s.live 0) := by
  have ⟨s,hrun,hlive⟩ := exists_run step (fun s e => e.ok&&e.clear s)
    (rmmCreate (fun _ => 4) fun _ => 28)
    [.alloc 0 12 0 true,.alloc 0 4 8 true,.free 0 4 12 true]
    (fun s : State => decide (s.live 0=[⟨16,4⟩])) (by decide +kernel)
  have hrun := hrun.mono fun s e h => Bool.and_eq_true_iff.mp h
  exact ⟨s,hrun,of_decide_eq_true hlive,(heap_kept (fun _ => by decide) hrun 0).2.2⟩

/-- A block is freed in front of an empty header, and the blocks around the
header are not joined when all is free; in another run such a header makes
memory be given out twice. -/
theorem heap_broken :
    (∃ s,Run step (fun _ e => e.ok=true) (rmmCreate (fun _ => 4) fun _ => 28)
      [.alloc 0 12 0 true,.alloc 0 8 0 true,.free 0 4 12 true,.alloc 0 8 8 true,
        .free 0 16 8 true,.free 0 8 8 true] s∧
      s.live 0=[]∧∃ t,rmmAlloc true (s.target 0) 28 0=(t,.error (-ENOMEM)))∧
    ∃ s,Run step (fun _ e => e.ok=true) (rmmCreate (fun _ => 1) fun _ => 5)
      [.alloc 0 1 2 true,.alloc 0 2 2 true,.free 0 2 1 true,.alloc 0 2 2 true,
        .free 0 4 2 true,.alloc 0 1 2 true,.free 0 2 2 true,.alloc 0 3 0 true,
        .alloc 0 1 0 true,.free 0 1 3 true,.alloc 0 1 0 true,.alloc 0 3 0 true] s∧
      s.live 0=[⟨1,3⟩,⟨1,1⟩,⟨5,1⟩,⟨4,1⟩] := by
  have ⟨s,hrun,hs⟩ := exists_run step (fun _ e => e.ok) (rmmCreate (fun _ => 4) fun _ => 28)
    [.alloc 0 12 0 true,.alloc 0 8 0 true,.free 0 4 12 true,.alloc 0 8 8 true,
      .free 0 16 8 true,.free 0 8 8 true]
    (fun s : State => decide (s.live 0=[]∧
      (s.target 0).freeList=[⟨4,20⟩,⟨16,0⟩,⟨24,8⟩])) (by decide +kernel)
  have ⟨s',hrun',hs'⟩ := exists_run step (fun _ e => e.ok) (rmmCreate (fun _ => 1) fun _ => 5)
    [.alloc 0 1 2 true,.alloc 0 2 2 true,.free 0 2 1 true,.alloc 0 2 2 true,
      .free 0 4 2 true,.alloc 0 1 2 true,.free 0 2 2 true,.alloc 0 3 0 true,
      .alloc 0 1 0 true,.free 0 1 3 true,.alloc 0 1 0 true,.alloc 0 3 0 true]
    (fun s : State => decide (s.live 0=[⟨1,3⟩,⟨1,1⟩,⟨5,1⟩,⟨4,1⟩])) (by decide +kernel)
  have ⟨hlive,hlist⟩ := of_decide_eq_true hs
  refine ⟨⟨s,hrun,hlive,s.target 0,?_⟩,s',hrun',of_decide_eq_true hs'⟩
  unfold rmmAlloc
  rw [hlist]
  rfl

end ArdroneKernel.DspRmm
