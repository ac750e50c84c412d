import Mathlib.Tactic.Ring

/-!
# Next fit

Items go into bins of one capacity, each into the bin that is open if it has
room, else into a new one. Two bins next to each other hold more than one
capacity, which bounds the number of bins by the items.
-/

namespace ArdroneKernel.NextFit

/-- The bin that is open, and how much is in it. -/
@[ext]
structure Cursor where
  bin : ℕ
  offs : ℕ
  deriving DecidableEq

namespace Cursor

variable (cap sz : ℕ)

/-- Where an item goes. -/
def place (c : Cursor) : Cursor := if cap<c.offs+sz then ⟨c.bin+1,0⟩ else c

/-- After an item. -/
def next (c : Cursor) : Cursor := ⟨(c.place cap sz).bin,(c.place cap sz).offs+sz⟩

/-- After some items of one size. -/
def skip : ℕ → Cursor → Cursor
  | 0,c => c
  | n+1,c => (skip n c).next cap sz

variable {cap sz} {c : Cursor} {first total : ℕ}

theorem place_of_fits (h : c.offs+sz≤cap) : c.place cap sz=c := if_neg (Nat.not_lt.mpr h)

theorem place_of_full (h : cap<c.offs+sz) : c.place cap sz=⟨c.bin+1,0⟩ := if_pos h

/-- An item stays inside its bin. -/
theorem place_fits (hsz : sz≤cap) : (c.place cap sz).offs+sz≤cap := by
  unfold place
  split
  · rwa [Nat.zero_add]
  · omega

/-! ## The bound -/

/-- From a first bin on, the bins are no more than twice what is in them. -/
structure Within (cap first total : ℕ) (c : Cursor) : Prop where
  first_le : first≤c.bin
  bound : (c.bin-first)*cap+c.offs≤2*total

theorem Within.start (cap first : ℕ) : Within cap first 0 ⟨first,0⟩ :=
  ⟨Nat.le_refl first,by rw [Nat.sub_self,Nat.zero_mul]; exact Nat.zero_le _⟩

/-- The first item of a new bin did not fit into the one before it. -/
theorem Within.place (h : Within cap first total c) (sz : ℕ) :
    first≤(c.place cap sz).bin∧((c.place cap sz).bin-first)*cap≤2*total+sz := by
  have ⟨hfirst,hbound⟩ := h
  rcases Nat.lt_or_ge cap (c.offs+sz) with hfull|hfits
  · have hsucc : c.bin+1-first=c.bin-first+1 := by omega
    rw [place_of_full hfull]
    refine ⟨Nat.le_succ_of_le hfirst,?_⟩
    rw [hsucc,Nat.succ_mul]
    omega
  · rw [place_of_fits hfits]
    exact ⟨hfirst,by omega⟩

theorem Within.next (h : Within cap first total c) :
    Within cap first (total+sz) (c.next cap sz) := by
  have ⟨hfirst,hbound⟩ := h
  have hplace := (h.place sz).1
  refine ⟨hplace,?_⟩
  unfold Cursor.next
  rcases Nat.lt_or_ge cap (c.offs+sz) with hfull|hfits
  · have hsucc : c.bin+1-first=c.bin-first+1 := by omega
    rw [place_of_full hfull]
    dsimp only
    rw [hsucc,Nat.succ_mul]
    omega
  · rw [place_of_fits hfits]
    dsimp only
    omega

theorem Within.skip (h : Within cap first total c) (n : ℕ) :
    Within cap first (total+n*sz) (skip cap sz n c) := by
  induction n with
  | zero =>
    rw [Nat.zero_mul]
    exact h
  | succ n ih =>
    rw [Nat.succ_mul,← Nat.add_assoc]
    exact ih.next

/-- With room for four times the items no bin is outside. -/
theorem Within.place_lt {first total cnt : ℕ} (h : Within cap first total c) (hcap : 0<cap)
    (hcnt : 0<cnt) (hroom : 4*(total+sz)≤cnt*cap) : (c.place cap sz).bin<first+cnt := by
  have ⟨hfirst,hbound⟩ := h.place sz
  by_contra hge
  have hle : cnt≤(c.place cap sz).bin-first := by omega
  have hmul := Nat.mul_le_mul_right cap hle
  have hpos := Nat.mul_pos hcnt hcap
  omega

end Cursor

end ArdroneKernel.NextFit
