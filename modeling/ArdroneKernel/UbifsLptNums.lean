import ArdroneKernel.UbifsLptNodes

/-!
# The numbers of the nodes

The number of a nnode is a one followed by the branches that lead to it, and
the number of a pnode is its place in the lowest row. Both fit the width that
the geometry gives them, which comes from the number of LEBs the file-system
may grow to.
-/

namespace ArdroneKernel.UbifsLpt

variable {c : Info} {n x a : ℕ}

/-! ## Turning digits round -/

theorem shl_or_digit (a x : ℕ) :
    a<<<UBIFS_LPT_FANOUT_SHIFT|||(x&&&(UBIFS_LPT_FANOUT-1))=4*a+x%4 := by
  have hand : x&&&(UBIFS_LPT_FANOUT-1)=x%4 := Nat.and_two_pow_sub_one_eq_mod x 2
  have hor := Nat.two_pow_add_eq_or_of_lt (i := 2) (Nat.mod_lt x (by decide) : x%4<4) a
  rw [hand]
  rw [Nat.shiftLeft_eq,Nat.mul_comm a]
  exact hor.symm

theorem shr_fanout (x : ℕ) : x>>>UBIFS_LPT_FANOUT_SHIFT=x/4 := Nat.shiftRight_eq_div_pow x 2

/-- The last digits of a number in reverse, after those found so far. -/
def turned : ℕ → ℕ → ℕ → ℕ
  | 0, _, a => a
  | n+1, x, a => turned n (x/4) (4*a+x%4)

theorem calcNnodeNum_go (n x a : ℕ) : calcNnodeNum.go n x a=turned n x a := by
  induction n generalizing x a with
  | zero => rfl
  | succ n ih =>
    unfold calcNnodeNum.go turned
    rw [ih,shl_or_digit,shr_fanout]

theorem calcPnodeNum_go (n x a : ℕ) : calcPnodeNumFromParent.go n x a=turned n x a := by
  induction n generalizing x a with
  | zero => rfl
  | succ n ih =>
    unfold calcPnodeNumFromParent.go turned
    rw [ih,shl_or_digit,shr_fanout]

theorem turned_eq (n x a : ℕ) : turned n x a=a*4^n+turned n x 0 := by
  induction n generalizing x a with
  | zero => simp [turned]
  | succ n ih =>
    unfold turned
    rw [ih,ih (x/4) (4*0+x%4)]
    ring

theorem turned_succ (n x : ℕ) : turned (n+1) x 0=(x%4)*4^n+turned n (x/4) 0 := by
  have hstep : turned (n+1) x 0=turned n (x/4) (4*0+x%4) := rfl
  rw [hstep,Nat.mul_zero,Nat.zero_add,turned_eq]

theorem turned_lt (n x : ℕ) : turned n x 0<4^n := by
  induction n generalizing x with
  | zero => exact Nat.zero_lt_one
  | succ n ih =>
    have hdigit : x%4+1≤4 := Nat.mod_lt x (by decide)
    calc turned (n+1) x 0=(x%4)*4^n+turned n (x/4) 0 := turned_succ n x
      _<(x%4)*4^n+4^n := Nat.add_lt_add_left (ih _) _
      _=(x%4+1)*4^n := by ring
      _≤4*4^n := Nat.mul_le_mul_right _ hdigit
      _=4^(n+1) := by ring

theorem mod_pow_succ_digits (n x : ℕ) :
    x%4^(n+1)%4=x%4∧x%4^(n+1)/4=x/4%4^n := by
  have hpow : 4^(n+1)=4*4^n := by ring
  constructor
  · rw [hpow,Nat.mod_mul_right_mod]
  · rw [hpow,Nat.mod_mul_right_div_self]

/-- The first digit turned is the last one of the result. -/
theorem turned_last (n x : ℕ) : turned (n+1) x 0=4*turned n (x%4^n) 0+x/4^n%4 := by
  induction n generalizing x with
  | zero => simp [turned]
  | succ n ih =>
    have ⟨hmod,hdiv⟩ := mod_pow_succ_digits n x
    have hquot : x/4/4^n=x/4^(n+1) := by rw [Nat.div_div_eq_div_mul,pow_succ,Nat.mul_comm]
    rw [turned_succ,ih,turned_succ n,hmod,hdiv,hquot]
    ring

/-- Digits turned twice are as they were. -/
theorem turned_turned (n x a : ℕ) : turned n (turned n x a) 0=x%4^n := by
  induction n generalizing x a with
  | zero => simp [turned,Nat.mod_one]
  | succ n ih =>
    set y := turned (n+1) x a
    have hy : y=4*turned n (x%4^n) a+x/4^n%4 := by
      have hleft : y=a*4^(n+1)+turned (n+1) x 0 := turned_eq (n+1) x a
      rw [hleft,turned_last,turned_eq n _ a]
      ring
    have hmod : y%4=x/4^n%4 := by
      rw [hy,Nat.mul_add_mod,Nat.mod_mod]
    have hdiv : y/4=turned n (x%4^n) a := by
      omega
    rw [turned_succ,hmod,hdiv,ih,Nat.mod_mod,Nat.mod_pow_succ]
    ring

/-! ## The height -/

theorem hghtLoop_covers {m fuel h : ℕ} (hfuel : m≤4^(h+fuel)) :
    m≤4^Info.hghtLoop m fuel h (4^h) := by
  induction fuel generalizing h with
  | zero => exact hfuel
  | succ fuel ih =>
    unfold Info.hghtLoop
    by_cases hlt : 4^h< m
    · have hnext : 4^h<<<UBIFS_LPT_FANOUT_SHIFT=4^(h+1) := Nat.shiftLeft_eq _ _
      rw [if_pos hlt,hnext]
      refine ih (hfuel.trans_eq ?_)
      congr 1
      omega
    · rw [if_neg hlt]
      exact not_lt.mp hlt

theorem hghtLoop_least {m fuel h : ℕ} : h≤Info.hghtLoop m fuel h (4^h)∧
    (Info.hghtLoop m fuel h (4^h)=h∨4^(Info.hghtLoop m fuel h (4^h)-1)< m) := by
  induction fuel generalizing h with
  | zero => exact ⟨le_rfl,.inl rfl⟩
  | succ fuel ih =>
    unfold Info.hghtLoop
    by_cases hlt : 4^h< m
    · have hnext : 4^h<<<UBIFS_LPT_FANOUT_SHIFT=4^(h+1) := Nat.shiftLeft_eq _ _
      rw [if_pos hlt,hnext]
      have ⟨hle,hr⟩ := ih (h := h+1)
      refine ⟨by omega,.inr ?_⟩
      rcases hr with hr|hr
      · rw [hr]
        exact hlt
      · exact hr
    · rw [if_neg hlt]
      exact ⟨le_rfl,.inl rfl⟩

/-- The lowest row has room for every pnode. -/
theorem maxPnodeCnt_le (c : Info) : c.maxPnodeCnt≤4^c.lptHght := by
  refine hghtLoop_covers (h := 1) ?_
  refine (Nat.lt_pow_self (by decide : 1<4)).le.trans ?_
  exact Nat.pow_le_pow_right (by decide) (Nat.le_add_left _ _)

theorem lptHght_pos (c : Info) : 1≤c.lptHght := (hghtLoop_least (h := 1)).1

/-- No row is higher than the pnodes need. -/
theorem lptHght_least (c : Info) : c.lptHght=1∨4^(c.lptHght-1)<c.maxPnodeCnt :=
  (hghtLoop_least (h := 1)).2

/-! ## Numbers -/

theorem Valid.maxPnodeCnt_le (h : Valid c) : c.maxPnodeCnt≤2^c.pcntBits := by
  have hcnt := h.lebCnt
  have hlt : divRoundUp c.maxLebCnt UBIFS_LPT_FANOUT-1<2^c.pcntBits := lt_fls _
  have hle : c.maxPnodeCnt≤divRoundUp c.maxLebCnt UBIFS_LPT_FANOUT := by
    unfold Info.maxPnodeCnt divRoundUp UBIFS_LPT_FANOUT
    omega
  omega

/-- A row of the tree, with the one before its branches. -/
theorem Valid.row_le (h : Valid c) {row : ℕ} (hrow : row<c.lptHght) : 2*4^row≤2^c.pcntBits := by
  have hpow : ∀ r,4^r=2^(2*r) := fun r => by rw [pow_mul]; rfl
  have htwo : ∀ r,2*4^r=2^(2*r+1) := fun r => by rw [hpow,pow_succ,Nat.mul_comm]
  rw [htwo]
  refine Nat.pow_le_pow_right (by decide) ?_
  have hbits := h.pcntBits
  rcases lptHght_least c with hone|hlt
  · omega
  · have hcnt := hlt.trans_le h.maxPnodeCnt_le
    rw [hpow] at hcnt
    have hexp := (Nat.pow_lt_pow_iff_right (by decide : 1<2)).mp hcnt
    omega

/-- The numbers of the nnodes. -/
def NnodeNum (c : Info) (num : ℕ) : Prop := ∃ row<c.lptHght,∃ col,num=calcNnodeNum row col

/-- The numbers of the pnodes. -/
def PnodeNum (c : Info) (num : ℕ) : Prop := ∃ i<c.maxPnodeCnt,
  num=calcPnodeNumFromParent c.lptHght (calcNnodeNum (c.lptHght-1) (i/UBIFS_LPT_FANOUT))
    (i%UBIFS_LPT_FANOUT)

theorem NnodeNum.lt (h : Valid c) {num : ℕ} (hnum : NnodeNum c num) : num<2^c.pcntBits := by
  have ⟨row,hrow,col,heq⟩ := hnum
  have hlt := turned_lt row col
  rw [heq]
  unfold calcNnodeNum
  rw [calcNnodeNum_go,turned_eq]
  calc 1*4^row+turned row col 0<1*4^row+4^row := Nat.add_lt_add_left hlt _
    _=2*4^row := by ring
    _≤2^c.pcntBits := h.row_le hrow

/-- Pnodes are numbered left to right, from zero. -/
theorem calcPnodeNum_eq (c : Info) {i : ℕ} (hi : i<c.maxPnodeCnt) :
    calcPnodeNumFromParent c.lptHght (calcNnodeNum (c.lptHght-1) (i/UBIFS_LPT_FANOUT))
      (i%UBIFS_LPT_FANOUT)=i := by
  have hmask : i%UBIFS_LPT_FANOUT=i&&&(UBIFS_LPT_FANOUT-1) :=
    (Nat.and_two_pow_sub_one_eq_mod i 2).symm
  unfold calcPnodeNumFromParent calcNnodeNum
  rw [calcNnodeNum_go,calcPnodeNum_go,turned_turned,hmask,shl_or_digit]
  have hcol : i/UBIFS_LPT_FANOUT<4^(c.lptHght-1) := by
    have hle := hi.trans_le (UbifsLpt.maxPnodeCnt_le c)
    have hpow : 4^c.lptHght=4*4^(c.lptHght-1) := by
      rw [←pow_succ']
      congr 1
      have := lptHght_pos c
      omega
    rw [hpow] at hle
    exact Nat.div_lt_of_lt_mul hle
  rw [Nat.mod_eq_of_lt hcol]
  exact Nat.div_add_mod i 4

theorem PnodeNum.lt (h : Valid c) {num : ℕ} (hnum : PnodeNum c num) : num<2^c.pcntBits := by
  have ⟨i,hi,heq⟩ := hnum
  rw [heq,calcPnodeNum_eq c hi]
  exact hi.trans_le h.maxPnodeCnt_le

end ArdroneKernel.UbifsLpt
