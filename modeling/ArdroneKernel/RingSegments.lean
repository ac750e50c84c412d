import Mathlib.Data.Nat.Notation

/-!
# Places in a ring

A ring has so many places from a first one on, and the place after the last one
is the first one again. A segment is told by where it starts and by how far
from there a place is.
-/

namespace ArdroneKernel.RingSegments

/-- Whether a number is a place of the ring. -/
def InRing (first size a : ℕ) : Prop := first≤ a∧a<first+size

/-- The place after a place. -/
def next (first size a : ℕ) : ℕ := if first+size≤ a+1 then first else a+1

/-- How many places forward it is from one place to another. -/
def dist (size a b : ℕ) : ℕ := if a≤b then b-a else b+size-a

variable {first size a b c : ℕ}

theorem next_inRing (ha : InRing first size a) : InRing first size (next first size a) := by
  unfold InRing next at *
  split <;> omega

theorem dist_self : dist size a a=0 := by
  unfold dist
  rw [if_pos (Nat.le_refl a),Nat.sub_self]

theorem dist_lt (ha : InRing first size a) (hb : InRing first size b) : dist size a b<size := by
  unfold InRing dist at *
  split <;> omega

theorem dist_eq_zero (ha : InRing first size a) (hb : InRing first size b)
    (h : dist size a b=0) : b=a := by
  unfold InRing dist at *
  split at h <;> omega

theorem dist_pos (ha : InRing first size a) (hb : InRing first size b) (h : b≠a) :
    0<dist size a b :=
  Nat.pos_of_ne_zero fun hz => h (dist_eq_zero ha hb hz)

/-- The distance tells the place. -/
theorem dist_inj (ha : InRing first size a) (hb : InRing first size b) (hc : InRing first size c)
    (h : dist size a b=dist size a c) : b=c := by
  unfold InRing dist at *
  split at h <;> split at h <;> omega

/-- The next place is one further, unless it is the start. -/
theorem dist_next (ha : InRing first size a) (hb : InRing first size b)
    (h : next first size b≠a) : dist size a (next first size b)=dist size a b+1 := by
  unfold InRing at ha hb
  by_cases hlast : first+size≤b+1
  · have hnext : next first size b=first := if_pos hlast
    unfold dist
    split <;> split <;> omega
  · have hnext : next first size b=b+1 := if_neg hlast
    unfold dist
    split <;> split <;> omega

theorem next_eq_start (ha : InRing first size a) (hb : InRing first size b) :
    next first size b=a ↔ dist size a b+1=size := by
  unfold InRing next dist at *
  split <;> split <;> omega

/-- A place on the way divides the distance. -/
theorem dist_split (ha : InRing first size a) (hb : InRing first size b)
    (hc : InRing first size c) (h : dist size a b≤dist size a c) :
    dist size a c=dist size a b+dist size b c := by
  unfold InRing dist at *
  by_cases hab : a≤b <;> by_cases hac : a≤ c <;> by_cases hbc : b≤ c <;>
    simp only [hab,hac,hbc,if_true,if_false] at h ⊢ <;> omega

/-- The way from a place round to another is what is left of the ring. -/
theorem dist_back (ha : InRing first size a) (hb : InRing first size b) (h : b≠a) :
    dist size a b+dist size b a=size := by
  unfold InRing dist at *
  split <;> split <;> omega

end ArdroneKernel.RingSegments
