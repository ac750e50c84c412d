import Mathlib.Algebra.Order.Ring.Nat
import Mathlib.Data.List.Chain
import Mathlib.Data.List.Perm.Basic

/-!
# Tilings by blocks

Blocks of any positive sizes follow each other from one position to another.
A run of positions that lie in free blocks lies in one free block when no two
neighbours are free.
-/

namespace ArdroneKernel.BlockTilings

/-- So many positions from a first one on. -/
structure Block where
  /-- The first position. -/
  start : ℕ
  /-- How many positions there are. -/
  size : ℕ
  deriving DecidableEq

/-- The position after the last one. -/
def Block.stop (b : Block) : ℕ := b.start+b.size

/-- Two blocks that have no position in common. -/
def Block.Apart (a b : Block) : Prop := a.stop≤b.start∨b.stop≤a.start

/-- Whether a position is in a block. -/
def Block.Has (b : Block) (x : ℕ) : Prop := b.start≤x∧x<b.stop

/-- Blocks follow each other from one position to another. -/
def Tiles : ℕ → List Block → ℕ → Prop
  | lo,[],hi => lo=hi
  | lo,b::bs,hi => b.start=lo∧0<b.size∧Tiles b.stop bs hi

variable {lo mid hi x n : ℕ} {a b : Block} {xs ys pre post : List Block}

theorem Tiles.le (h : Tiles lo xs hi) : lo≤hi := by
  induction xs generalizing lo with
  | nil => exact h.le
  | cons b bs ih =>
    have ⟨hb,_,hbs⟩ := h
    have := ih hbs
    unfold Block.stop at this
    omega

theorem tiles_append : Tiles lo (xs++ys) hi ↔ ∃ mid,Tiles lo xs mid∧Tiles mid ys hi := by
  induction xs generalizing lo with
  | nil => exact ⟨fun h => ⟨lo,rfl,h⟩,fun ⟨_,hm,h⟩ => hm.symm▸h⟩
  | cons b bs ih =>
    constructor
    · intro ⟨hb,hpos,h⟩
      have ⟨mid,h1,h2⟩ := ih.mp h
      exact ⟨mid,⟨hb,hpos,h1⟩,h2⟩
    · intro ⟨mid,⟨hb,hpos,h1⟩,h2⟩
      exact ⟨hb,hpos,ih.mpr ⟨mid,h1,h2⟩⟩

/-- What is before and after one of the blocks. -/
theorem tiles_around : Tiles lo (pre++b::post) hi ↔
    Tiles lo pre b.start∧0<b.size∧Tiles b.stop post hi := by
  rw [tiles_append]
  constructor
  · rintro ⟨mid,h1,rfl,hpos,h2⟩
    exact ⟨h1,hpos,h2⟩
  · exact fun ⟨h1,hpos,h2⟩ => ⟨b.start,h1,rfl,hpos,h2⟩

theorem Tiles.bounds (h : Tiles lo xs hi) (hb : b∈xs) : lo≤b.start∧0<b.size∧b.stop≤hi := by
  have ⟨pre,post,hxs⟩ := List.append_of_mem hb
  subst hxs
  have ⟨h1,hpos,h2⟩ := tiles_around.mp h
  exact ⟨h1.le,hpos,h2.le⟩

/-- The blocks are in the order of their positions. -/
theorem Tiles.pairwise (h : Tiles lo xs hi) : xs.Pairwise fun a b => a.stop≤b.start := by
  induction xs generalizing lo with
  | nil => exact List.Pairwise.nil
  | cons b bs ih =>
    have ⟨_,_,hbs⟩ := h
    exact List.pairwise_cons.mpr ⟨fun c hc => (hbs.bounds hc).1,ih hbs⟩

/-- A position lies in one block only. -/
theorem Tiles.unique (h : Tiles lo xs hi) (ha : a∈xs) (hb : b∈xs) (hax : a.Has x)
    (hbx : b.Has x) : a=b := by
  unfold Block.Has at hax hbx
  induction xs generalizing lo with
  | nil => cases ha
  | cons c cs ih =>
    have ⟨_,_,hcs⟩ := h
    rcases List.mem_cons.mp ha with rfl|ha'
    · rcases List.mem_cons.mp hb with rfl|hb'
      · rfl
      · have := (hcs.bounds hb').1
        omega
    · rcases List.mem_cons.mp hb with rfl|hb'
      · have := (hcs.bounds ha').1
        omega
      · exact ih hcs ha' hb'

theorem Tiles.apart_of_ne (h : Tiles lo xs hi) (ha : a∈xs) (hb : b∈xs) (hne : a≠b) :
    a.Apart b := by
  by_contra hnot
  have hpa := (h.bounds ha).2.1
  have hpb := (h.bounds hb).2.1
  refine hne (h.unique (x := max a.start b.start) ha hb ⟨le_max_left _ _,?_⟩
    ⟨le_max_right _ _,?_⟩)
  all_goals
    unfold Block.Apart Block.stop at *
    omega

/-- Two neighbours are joined. -/
theorem Tiles.join (pre : List Block) (h : Tiles lo (pre++a::b::post) hi) :
    Tiles lo (pre++⟨a.start,a.size+b.size⟩::post) hi := by
  have ⟨hpre,hpos,hb,_,hpost⟩ := tiles_around.mp h
  refine tiles_around.mpr ⟨hpre,Nat.add_pos_left hpos _,?_⟩
  unfold Block.stop at *
  rw [← Nat.add_assoc,← hb]
  exact hpost

/-- A block is split. -/
theorem Tiles.split (pre : List Block) (h : Tiles lo (pre++b::post) hi) (hn : 0<n) (hlt : n<b.size) :
    Tiles lo (pre++⟨b.start,n⟩::⟨b.start+n,b.size-n⟩::post) hi := by
  have ⟨hpre,hpos,hpost⟩ := tiles_around.mp h
  refine tiles_around.mpr ⟨hpre,hn,rfl,Nat.sub_pos_of_lt hlt,?_⟩
  unfold Block.stop at *
  rwa [show b.start+n+(b.size-n)=b.start+b.size by omega]

/-- There are not more blocks than positions. -/
theorem Tiles.length_le (h : Tiles lo xs hi) : lo+xs.length≤hi := by
  induction xs generalizing lo with
  | nil => exact le_of_eq h
  | cons b bs ih =>
    have ⟨hb,hpos,hbs⟩ := h
    have := ih hbs
    rw [List.length_cons]
    unfold Block.stop at this
    omega

/-- Free positions one after another are in one free block, when no two free
blocks are neighbours. -/
theorem Tiles.run_inside {α : Type} {block : α → Block} {xs : List α}
    (h : Tiles lo (xs.map block) hi) (free : α → Prop) (hchain : xs.IsChain fun a b => ¬(free a∧free b))
    (hn : 0<n) (hlo : lo≤x) (hhi : x+n≤hi)
    (hfree : ∀ y,x≤y → y<x+n → ∀ b∈xs,(block b).Has y → free b) :
    ∃ b∈xs,free b∧(block b).start≤x∧x+n≤(block b).stop := by
  induction xs generalizing lo with
  | nil =>
    have : lo=hi := h
    omega
  | cons b bs ih =>
    have ⟨hb,hpos,hbs⟩ := h
    by_cases hx : x<(block b).stop
    · have hbfree := hfree x le_rfl (by omega) b List.mem_cons_self ⟨hb.le.trans hlo,hx⟩
      refine ⟨b,List.mem_cons_self,hbfree,hb.le.trans hlo,?_⟩
      by_contra hlt
      -- The run goes on into the next block, which would be free too.
      cases bs with
      | nil =>
        have : (block b).stop=hi := hbs
        omega
      | cons c cs =>
        have ⟨hc,hcpos,_⟩ := hbs
        refine (List.isChain_cons_cons.mp hchain).1 ⟨hbfree,?_⟩
        refine hfree (block b).stop (by omega) (by omega) c (by simp) ⟨hc.le,?_⟩
        unfold Block.stop at *
        omega
    · have ⟨c,hc,hcfree,hcx⟩ := ih hbs hchain.tail (Nat.le_of_not_lt hx)
        fun y h1 h2 c hc => hfree y h1 h2 c (List.mem_cons_of_mem b hc)
      exact ⟨c,List.mem_cons_of_mem b hc,hcfree,hcx⟩

/-! ## Coverage -/

/-- How often a position is in a block. -/
def Block.count (b : Block) (x : ℕ) : ℕ := if b.start≤x∧x<b.stop then 1 else 0

/-- In how many of some blocks a position is. -/
def coverage (bs : List Block) (x : ℕ) : ℕ := (bs.map (Block.count · x)).sum

@[simp] theorem coverage_nil (x : ℕ) : coverage [] x=0 := rfl

@[simp] theorem coverage_cons (b : Block) (bs : List Block) (x : ℕ) :
    coverage (b::bs) x=b.count x+coverage bs x := rfl

@[simp] theorem coverage_append (xs ys : List Block) (x : ℕ) :
    coverage (xs++ys) x=coverage xs x+coverage ys x := by
  unfold coverage
  rw [List.map_append,List.sum_append]

theorem coverage_perm (h : xs.Perm ys) (x : ℕ) : coverage xs x=coverage ys x :=
  (h.map _).sum_nat

/-- Two neighbours count as the block they form. -/
theorem count_add (start m n x : ℕ) :
    (⟨start,m+n⟩ : Block).count x=(⟨start,m⟩ : Block).count x+(⟨start+m,n⟩ : Block).count x := by
  unfold Block.count Block.stop
  dsimp only
  split <;> split <;> split <;> omega

theorem count_empty (start x : ℕ) : (⟨start,0⟩ : Block).count x=0 := by
  unfold Block.count Block.stop
  exact if_neg (by dsimp only; omega)

theorem count_le (hb : b∈xs) (x : ℕ) : b.count x≤coverage xs x := by
  have ⟨pre,post,hsplit⟩ := List.append_of_mem hb
  rw [hsplit,coverage_append,coverage_cons]
  omega

/-- Two of some blocks count both. -/
theorem count_add_le (ha : a∈xs) (hb : b∈xs) (hne : a≠b) (x : ℕ) :
    a.count x+b.count x≤coverage xs x := by
  rw [coverage_perm (List.perm_cons_erase ha) x,coverage_cons]
  have := count_le ((List.mem_erase_of_ne hne.symm).mpr hb) x
  omega

theorem count_of_has (h : b.Has x) : b.count x=1 := if_pos h

theorem has_of_count (h : 0<b.count x) : b.Has x := by
  unfold Block.count at h
  split at h
  next hin => exact hin
  · omega

/-- A position that is covered is in a block. -/
theorem exists_of_coverage (h : 0<coverage xs x) : ∃ b∈xs,b.Has x := by
  induction xs with
  | nil => cases h
  | cons b bs ih =>
    rw [coverage_cons] at h
    by_cases hb : 0<b.count x
    · exact ⟨b,List.mem_cons_self,has_of_count hb⟩
    · have ⟨c,hc,hcx⟩ := ih (by omega)
      exact ⟨c,List.mem_cons_of_mem b hc,hcx⟩

/-- Blocks that cover every position once tile what they cover, in some order. -/
theorem exists_tiles (hpos : ∀ b∈xs,0<b.size) (hle : lo≤hi)
    (hcover : ∀ x,coverage xs x=if lo≤x∧x<hi then 1 else 0) :
    ∃ ys,ys.Perm xs∧Tiles lo ys hi := by
  induction hn : xs.length generalizing xs lo with
  | zero =>
    cases List.eq_nil_of_length_eq_zero hn
    refine ⟨[],List.Perm.nil,?_⟩
    by_contra hne
    have hlt : lo<hi := Nat.lt_of_le_of_ne hle hne
    have := hcover lo
    rw [coverage_nil,if_pos ⟨le_rfl,hlt⟩] at this
    omega
  | succ n ih =>
    -- Some block starts first, and it covers the first position.
    have hne : xs≠[] := by
      rintro rfl
      cases hn
    have hlt : lo<hi := by
      have ⟨c,hc⟩ := List.exists_mem_of_ne_nil xs hne
      have h1 := count_le hc c.start
      rw [count_of_has ⟨le_rfl,Nat.lt_add_of_pos_right (hpos c hc)⟩,hcover] at h1
      split at h1 <;> omega
    have hcovered : 0<coverage xs lo := by
      rw [hcover,if_pos ⟨le_rfl,hlt⟩]
      exact Nat.one_pos
    have ⟨b,hb,hhas⟩ := exists_of_coverage hcovered
    have hinside : ∀ x,b.Has x → lo≤x∧x<hi := by
      intro x hx
      have h1 := count_le hb x
      rw [count_of_has hx,hcover] at h1
      split at h1
      next hin => exact hin
      · omega
    have hbpos := hpos b hb
    have hstart : b.start=lo := by
      have := (hinside b.start ⟨le_rfl,Nat.lt_add_of_pos_right hbpos⟩).1
      exact Nat.le_antisymm hhas.1 this
    have hstop : b.stop≤hi := by
      have hlast : b.Has (b.stop-1) := by
        unfold Block.Has Block.stop
        omega
      have := (hinside _ hlast).2
      omega
    have ⟨pre,post,hsplit⟩ := List.append_of_mem hb
    subst hsplit
    have hrest : ∀ x,coverage (pre++post) x=if b.stop≤x∧x<hi then 1 else 0 := by
      intro x
      have h1 := hcover x
      rw [coverage_append,coverage_cons] at h1
      rw [coverage_append]
      unfold Block.count at h1
      unfold Block.stop at *
      split at h1 <;> split at h1 <;> split <;> omega
    have hposRest : ∀ c∈pre++post,0<c.size := by
      intro c hc
      refine hpos c ?_
      rcases List.mem_append.mp hc with hc|hc
      · exact List.mem_append_left _ hc
      · exact List.mem_append_right _ (List.mem_cons_of_mem b hc)
    have hlen : (pre++post).length=n := by
      rw [List.length_append,List.length_cons] at hn
      rw [List.length_append]
      omega
    have ⟨ys,hperm,htiles⟩ := ih hposRest hstop hrest hlen
    exact ⟨b::ys,(hperm.cons b).trans List.perm_middle.symm,hstart,hbpos,htiles⟩

end ArdroneKernel.BlockTilings
