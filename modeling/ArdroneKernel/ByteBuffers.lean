import Mathlib.Data.List.Basic
import Mathlib.Algebra.Order.Ring.Nat

/-!
# Buffers

A buffer is written in place: some of its entries are replaced by as many
others. The last entries of a list are those that a buffer of a size can hold.
-/

namespace ArdroneKernel.ByteBuffers

variable {α : Type} {buf : List α} (piece : List α)

/-- Entries of a buffer are replaced. -/
def putAt (buf : List α) (offs : ℕ) (data : List α) : List α :=
  buf.take offs++data++buf.drop (offs+data.length)

theorem putAt_length {offs : ℕ} {piece : List α} (h : offs+piece.length≤ buf.length) :
    (putAt buf offs piece).length=buf.length := by
  unfold putAt
  rw [List.length_append,List.length_append,List.length_take,List.length_drop]
  omega

/-- A buffer holds the entries before those that were put, and these. -/
theorem putAt_take {offs : ℕ} (h : offs≤ buf.length) :
    (putAt buf offs piece).take (offs+piece.length)=buf.take offs++piece := by
  have hlen : (buf.take offs++piece).length=offs+piece.length := by
    rw [List.length_append,List.length_take,min_eq_left h]
  unfold putAt
  rw [←hlen,List.take_left]

theorem putAt_take_left {offs : ℕ} (h : offs≤ buf.length) :
    (putAt buf offs piece).take offs=buf.take offs := by
  have hlen : (buf.take offs).length=offs := by
    rw [List.length_take,min_eq_left h]
  unfold putAt
  rw [List.append_assoc]
  exact List.take_left' hlen

/-- What follows the entries that were put is as before. -/
theorem putAt_drop {offs k : ℕ} (h : offs≤ buf.length) (hk : offs+piece.length≤ k) :
    (putAt buf offs piece).drop k=buf.drop k := by
  have hlen : (buf.take offs++piece).length=offs+piece.length := by
    rw [List.length_append,List.length_take,min_eq_left h]
  unfold putAt
  rw [List.drop_append,hlen,List.drop_of_length_le (by omega),List.nil_append,List.drop_drop]
  congr 1
  omega

/-- Entries before those that were put are as before. -/
theorem putAt_slice_before {offs k n : ℕ} (h : offs≤ buf.length) (hk : k+n≤ offs) :
    ((putAt buf offs piece).drop k).take n=(buf.drop k).take n := by
  have htake : (putAt buf offs piece).take (k+n)=buf.take (k+n) := by
    have := congrArg (List.take (k+n)) (putAt_take_left piece h)
    rwa [List.take_take,List.take_take,min_eq_left hk] at this
  have hslice : ∀ l : List α,(l.drop k).take n=(l.take (k+n)).drop k := by
    intro l
    rw [List.drop_take,Nat.add_sub_cancel_left]
  rw [hslice,hslice,htake]

/-- Putting what is there changes nothing. -/
theorem putAt_same (buf : List α) (offs n : ℕ) :
    putAt buf offs ((buf.drop offs).take n)=buf := by
  unfold putAt
  rw [List.append_assoc,List.length_take,List.length_drop]
  have hdrop : (buf.drop offs).take n++buf.drop (offs+min n (buf.length-offs))=buf.drop offs := by
    by_cases hn : n≤ buf.length-offs
    · rw [min_eq_left hn,←List.drop_drop,List.take_append_drop]
    · have hend : buf.drop (offs+(buf.length-offs))=[] := List.drop_of_length_le (by omega)
      rw [min_eq_right (by omega),hend,List.append_nil,
        List.take_of_length_le (by rw [List.length_drop]; omega)]
  rw [hdrop,List.take_append_drop]

/-- The last entries of a list, at most so many. -/
def lastOf (n : ℕ) (l : List α) : List α := l.drop (l.length-n)

theorem lastOf_of_le {n : ℕ} {l : List α} (h : l.length≤ n) : lastOf n l=l := by
  unfold lastOf
  rw [Nat.sub_eq_zero_of_le h,List.drop_zero]

theorem lastOf_length (n : ℕ) (l : List α) : (lastOf n l).length=min l.length n := by
  unfold lastOf
  rw [List.length_drop]
  omega

/-- Only the last entries of both parts matter. -/
theorem lastOf_append (n : ℕ) (l m : List α) :
    lastOf n (l++m)=lastOf n (lastOf n l++lastOf n m) := by
  unfold lastOf
  rw [List.length_append,List.length_append,List.length_drop,List.length_drop]
  by_cases hm : m.length≤ n
  · rw [Nat.sub_eq_zero_of_le hm,List.drop_zero,List.drop_append,List.drop_append,
      List.drop_drop,List.length_drop]
    congr 1
    · congr 1
      omega
    · congr 1
      omega
  · rw [List.drop_append,List.drop_append,List.drop_of_length_le (l := l) (by omega),
      List.drop_of_length_le (l := l.drop (l.length-n)) (by rw [List.length_drop]; omega),
      List.drop_drop,List.length_drop]
    congr 2
    omega

end ArdroneKernel.ByteBuffers
