import Mathlib.Tactic.Abel

/-!
# Budgets of UBIFS

The requests of `fs/ubifs/budget.c`, and what they add to `budg_idx_growth`,
`budg_data_growth` and `budg_dd_growth`. What `ubifs_budget_space` records in a request
is what `calc_idx_growth` and its siblings compute from it.
-/

namespace ArdroneKernel.UbifsBudget

/-- `UBIFS_BLOCK_SIZE` -/
def BLOCK_SIZE : ℕ := 4096

/-- `UBIFS_INO_NODE_SZ` -/
def INO_NODE_SZ : ℕ := 160

/-- `UBIFS_MAX_DATA_NODE_SZ` -/
def MAX_DATA_NODE_SZ : ℕ := 48+BLOCK_SIZE

/-- `UBIFS_MAX_DENT_NODE_SZ` -/
def MAX_DENT_NODE_SZ : ℕ := 56+255+1

/-- What budgeting uses of `struct ubifs_info`. -/
structure Info where
  /-- `UBIFS_BLOCKS_PER_PAGE_SHIFT` -/
  blocksPerPageShift : ℕ
  maxIdxNodeSz : ℕ

variable (c : Info)

/-- `UBIFS_BLOCKS_PER_PAGE` -/
def Info.blocksPerPage : ℕ := 2^c.blocksPerPageShift

/-- `page_budget` -/
def Info.pageBudget : ℕ := MAX_DATA_NODE_SZ*c.blocksPerPage

/-- `inode_budget` -/
def Info.inodeBudget (_c : Info) : ℕ := INO_NODE_SZ

/-- `dent_budget` -/
def Info.dentBudget (_c : Info) : ℕ := MAX_DENT_NODE_SZ

/-- What is budgeted for. -/
inductive Growth where
  /-- `budg_idx_growth` -/
  | idx
  /-- `budg_data_growth` -/
  | data
  /-- `budg_dd_growth` -/
  | dd
  deriving DecidableEq

/-- Budgeted space, or a change of it. -/
abbrev Budget := Growth → ℤ

/-- `struct ubifs_budget_req` -/
structure Req where
  newPage : Bool := false
  dirtiedPage : Bool := false
  newDent : Bool := false
  modDent : Bool := false
  newIno : Bool := false
  newInoD : ℕ := 0
  dirtiedIno : ℕ := 0
  dirtiedInoD : ℕ := 0

/-- `calc_idx_growth` -/
def calcIdxGrowth (req : Req) : ℕ :=
  (req.newIno.toNat+req.newPage.toNat*2^c.blocksPerPageShift+req.newDent.toNat)*c.maxIdxNodeSz

/-- `calc_data_growth` -/
def calcDataGrowth (req : Req) : ℕ :=
  (if req.newIno then c.inodeBudget else 0)+(if req.newPage then c.pageBudget else 0)+
    (if req.newDent then c.dentBudget else 0)+req.newInoD

/-- `calc_dd_growth` -/
def calcDdGrowth (req : Req) : ℕ :=
  (if req.dirtiedPage then c.pageBudget else 0)+
    (if req.dirtiedIno≠0 then c.inodeBudget*2^(req.dirtiedIno-1) else 0)+
    (if req.modDent then c.dentBudget else 0)+req.dirtiedInoD

/-- All that a request asks for. -/
def growth (req : Req) : Budget
  | .idx => calcIdxGrowth c req
  | .data => calcDataGrowth c req
  | .dd => calcDdGrowth c req

/-- `ubifs_budget_space`. Whether there is space for what is asked for is given. -/
def ubifsBudgetSpace (budg : Budget) (req : Req) (space : Bool) : Option Budget :=
  let change := growth c req
  if change .data=0∧change .dd=0 then some budg
  else if space then some (budg+change)
  else none

/-- `ubifs_release_budget`, of a request that asked for some growth. -/
def ubifsReleaseBudget (budg change : Budget) : Budget :=
  if change .data=0∧change .dd=0 then budg else budg-change

/-! ## What they amount to -/

theorem pageBudget_pos : 0<c.pageBudget :=
  Nat.mul_pos (by decide) (Nat.two_pow_pos _)

/-- The index grows only where the data do. -/
theorem idx_of_data {req : Req} (h : growth c req .data=0) : growth c req .idx=0 := by
  have hpage := pageBudget_pos c
  have hino : 0<c.inodeBudget := by unfold Info.inodeBudget; decide
  have hdent : 0<c.dentBudget := by unfold Info.dentBudget; decide
  unfold growth calcDataGrowth at h
  unfold growth calcIdxGrowth
  cases hi : req.newIno <;> cases hp : req.newPage <;> cases hd : req.newDent <;>
    simp [hi,hp,hd] at h ⊢ <;> omega

variable {c}

theorem budgetSpace_some {budg budg' : Budget} {req : Req} {space : Bool}
    (h : ubifsBudgetSpace c budg req space=some budg') : budg'=budg+growth c req := by
  unfold ubifsBudgetSpace at h
  dsimp only at h
  split at h
  next hzero =>
    cases h
    have hgrowth : growth c req=0 := by
      funext g
      cases g with
      | idx => exact idx_of_data c hzero.1
      | data => exact hzero.1
      | dd => exact hzero.2
    rw [hgrowth,add_zero]
  · split at h
    · cases h
      rfl
    · cases h

theorem release_eq {budg change : Budget} (h : change .data=0 → change .idx=0) :
    ubifsReleaseBudget budg change=budg-change := by
  unfold ubifsReleaseBudget
  split
  next hzero =>
    have hchange : change=0 := by
      funext g
      cases g with
      | idx => exact h hzero.1
      | data => exact hzero.1
      | dd => exact hzero.2
    rw [hchange,sub_zero]
  · rfl

variable (budg : Budget)

theorem release_growth (req : Req) :
    ubifsReleaseBudget budg (growth c req)=budg-growth c req := release_eq (idx_of_data c)

end ArdroneKernel.UbifsBudget
