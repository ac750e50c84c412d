import ArdroneKernel.AshmemRequests
import Mathlib.Data.UInt
import Mathlib.Data.Nat.Bitwise

/-!
# The pages of a request

A request that passes the checks of `ashmem_pin_unpin` names the pages of its
bytes, which are pages of the area, unless it is empty.
-/

namespace ArdroneKernel.AshmemRequests

open Ashmem

/-! ## Rounding -/

theorem and_mask {n : ℕ} (hn : n<2^32) : n&&&(2^20-1)*2^12=n/2^12*2^12 := by
  apply Nat.eq_of_testBit_eq
  intro i
  rw [Nat.testBit_and,Nat.testBit_mul_two_pow,Nat.testBit_mul_two_pow,Nat.testBit_div_two_pow,
    Nat.testBit_two_pow_sub_one]
  by_cases hi : 12≤ i
  · have hback : i-12+12=i := by omega
    rw [hback]
    by_cases hlt : i<32
    · have hin : i-12<20 := by omega
      simp [hi,hin]
    · have hbit : n.testBit i=false :=
        Nat.testBit_lt_two_pow (hn.trans_le (Nat.pow_le_pow_right (by decide) (by omega)))
      rw [hbit,Bool.false_and,Bool.and_false]
  · simp [hi]

/-- The pages of an area, the last one perhaps in part. -/
def pageCount (size : UInt32) : ℕ := (size.toNat+4095)/4096

theorem pageAlign_toNat (x : UInt32) :
    (pageAlign x).toNat=(x.toNat+4095)%2^32/4096*4096 := by
  have hmask : PAGE_MASK.toNat=(2^20-1)*2^12 := by decide
  unfold pageAlign
  rw [UInt32.toNat_and,hmask,and_mask (UInt32.toNat_lt _),UInt32.toNat_add]
  rfl

/-- A rounded size is the pages of the area, unless it does not fit. -/
theorem pageAlign_cases (size : UInt32) :
    (pageAlign size).toNat=4096*pageCount size∨(pageAlign size).toNat=0 := by
  rw [pageAlign_toNat]
  unfold pageCount
  have := size.toNat_lt
  omega

/-- The test for whole pages. -/
theorem wholePages_iff (x y : UInt32) :
    (x|||y)&&&~~~PAGE_MASK=0 ↔ x.toNat%4096=0∧y.toNat%4096=0 := by
  have hmask : (~~~PAGE_MASK).toNat=2^12-1 := by decide
  rw [←UInt32.toNat_inj,UInt32.toNat_and,UInt32.toNat_or,hmask,Nat.and_two_pow_sub_one_eq_mod,
    Nat.or_mod_two_pow]
  exact Nat.or_eq_zero_iff

/-! ## Requests -/

/-- What `ashmem_shrink` computes of a range is right. -/
structure RangeRight (r : Range) : Prop where
  nonzero : r.size≠0
  size : r.size.toNat=r.pgend+1-r.pgstart
  start : (shrinkStart r).toNat=4096*r.pgstart
  last : (shrinkEnd r).toNat=4096*(r.pgend+1)-1

theorem rangeRight_of_bounds {r : Range} (hle : r.pgstart≤ r.pgend) (hlt : 4096*(r.pgend+1)<2^32) :
    RangeRight r := by
  have hpage : PAGE_SIZE.toNat=4096 := by decide
  have hone : (1 : UInt32).toNat=1 := by decide
  have hword : UInt32.size=2^32 := rfl
  have hstart : (UInt32.ofNat r.pgstart).toNat=r.pgstart :=
    UInt32.toNat_ofNat_of_lt' (by omega)
  have hend : (UInt32.ofNat r.pgend).toNat=r.pgend := UInt32.toNat_ofNat_of_lt' (by omega)
  have hsize : r.size.toNat=r.pgend+1-r.pgstart := UInt32.toNat_ofNat_of_lt' (by omega)
  refine ⟨fun hz => ?_,hsize,?_,?_⟩
  · rw [hz] at hsize
    have : (0 : UInt32).toNat=0 := rfl
    omega
  · unfold shrinkStart
    rw [UInt32.toNat_mul,hstart,hpage]
    omega
  · have hnext : ((UInt32.ofNat r.pgend+1)*PAGE_SIZE).toNat=4096*(r.pgend+1) := by
      rw [UInt32.toNat_mul,UInt32.toNat_add,hend,hpage,hone]
      omega
    unfold shrinkEnd
    rw [UInt32.toNat_sub_of_le _ _ (UInt32.le_iff_toNat_le.mpr (by omega)),hnext,hone]

/-- The bytes that a request names; a length of zero means up to the end. -/
def wanted (size : UInt32) (pin : Pin) : ℕ :=
  if pin.len=0 then 4096*pageCount size-pin.offset.toNat else pin.len.toNat

/-- The pages of a request are those of its bytes, and pages of the area. -/
structure PagesRight (size : UInt32) (pin : Pin) (pgstart pgend : UInt32) : Prop where
  order : pgstart≤ pgend
  inside : pgend.toNat<pageCount size
  pages : ∀ p : ℕ,pgstart.toNat≤ p∧p≤ pgend.toNat ↔
    ∃ b,pin.offset.toNat≤ b∧b<pin.offset.toNat+wanted size pin∧b/4096=p
  /-- A range of these pages is reclaimed right. -/
  range : ∀ asma purged,RangeRight ⟨asma,pgstart.toNat,pgend.toNat,purged⟩

/-- The length after `len` was filled in. -/
def pinLen (size : UInt32) (pin : Pin) : UInt32 :=
  if pin.len=0 then pageAlign size-pin.offset else pin.len

variable {pgstart pgend : UInt32} {size : UInt32}

/-- A request that passes the checks is whole pages up to the rounded size. -/
theorem pinPages_ok {pin : Pin} (h : pinPages size pin=.ok (pgstart,pgend)) :
    pin.offset.toNat%4096=0∧(pinLen size pin).toNat%4096=0∧
      pin.offset.toNat+(pinLen size pin).toNat≤(pageAlign size).toNat∧
      pgstart=pin.offset/PAGE_SIZE∧pgend=pgstart+pinLen size pin/PAGE_SIZE-1 := by
  change (if (pin.offset|||pinLen size pin)&&&~~~PAGE_MASK≠0 then _ else
    if -1-pin.offset<pinLen size pin then _ else
    if pageAlign size<pin.offset+pinLen size pin then _ else
    Except.ok (pin.offset/PAGE_SIZE,pin.offset/PAGE_SIZE+pinLen size pin/PAGE_SIZE-1))=_ at h
  generalize pinLen size pin=len at h ⊢
  by_cases h1 : (pin.offset|||len)&&&~~~PAGE_MASK≠0
  · rw [if_pos h1] at h
    cases h
  rw [if_neg h1] at h
  by_cases h2 : -1-pin.offset<len
  · rw [if_pos h2] at h
    cases h
  rw [if_neg h2] at h
  by_cases h3 : pageAlign size<pin.offset+len
  · rw [if_pos h3] at h
    cases h
  rw [if_neg h3] at h
  have ⟨ho,hl⟩ := (wholePages_iff _ _).mp (not_not.mp h1)
  have hroom : (-1-pin.offset).toNat=2^32-1-pin.offset.toNat := by
    rw [UInt32.toNat_sub]
    have : (-1 : UInt32).toNat=2^32-1 := by decide
    have := pin.offset.toNat_lt
    omega
  rw [UInt32.lt_iff_toNat_lt,hroom,not_lt] at h2
  rw [UInt32.lt_iff_toNat_lt,UInt32.toNat_add,not_lt] at h3
  have hpair := Prod.mk.inj (Except.ok.inj h)
  have := pin.offset.toNat_lt
  refine ⟨ho,hl,by omega,hpair.1.symm,?_⟩
  rw [←hpair.1]
  exact hpair.2.symm

/-- The numbers of the pages. -/
theorem pages_toNat {pin : Pin} (h : pinPages size pin=.ok (pgstart,pgend))
    (hpos : 0<(pinLen size pin).toNat) :
    pgstart.toNat=pin.offset.toNat/4096∧
      pgend.toNat+1=pgstart.toNat+(pinLen size pin).toNat/4096∧
      (pageAlign size).toNat=4096*pageCount size := by
  have ⟨_,hl,hle,hstart,hend⟩ := pinPages_ok h
  have hpage : PAGE_SIZE.toNat=4096 := by decide
  have hone : (1 : UInt32).toNat=1 := by decide
  have hs : pgstart.toNat=pin.offset.toNat/4096 := by
    rw [hstart,UInt32.toNat_div,hpage]
  have hcases := pageAlign_cases size
  have hword := (pageAlign size).toNat_lt
  have hsum : (pgstart+pinLen size pin/PAGE_SIZE).toNat=
      pgstart.toNat+(pinLen size pin).toNat/4096 := by
    rw [UInt32.toNat_add,UInt32.toNat_div,hpage]
    omega
  refine ⟨hs,?_,by omega⟩
  rw [hend,UInt32.toNat_sub_of_le _ _ (UInt32.le_iff_toNat_le.mpr (by omega)),hsum,hone]
  omega

/-- A length that is not zero is the one that was asked for. -/
theorem wanted_eq {pin : Pin} (h : pinPages size pin=.ok (pgstart,pgend))
    (hpos : 0<(pinLen size pin).toNat) :
    wanted size pin=(pinLen size pin).toNat := by
  have ⟨_,_,hle,_,_⟩ := pinPages_ok h
  have ⟨_,_,halign⟩ := pages_toNat h hpos
  unfold wanted
  unfold pinLen at hle ⊢
  by_cases hlen : pin.len=0
  · rw [if_pos hlen] at hle
    rw [if_pos hlen,if_pos hlen]
    rw [UInt32.toNat_sub] at hle ⊢
    have := (pageAlign size).toNat_lt
    omega
  · rw [if_neg hlen,if_neg hlen]

/-- A request that is not the empty one at the end of the area has a length. -/
theorem pinLen_pos_iff (size : UInt32) (pin : Pin) :
    0<(pinLen size pin).toNat ↔ Named size pin := by
  have hzero : ∀ x : UInt32,0<x.toNat ↔ x≠0 := fun x => by
    rw [Nat.pos_iff_ne_zero,Ne,Ne,←UInt32.toNat_inj]
    rfl
  rw [hzero]
  unfold pinLen Named
  by_cases hlen : pin.len=0
  · rw [if_pos hlen,and_iff_right hlen,Ne,sub_eq_zero,eq_comm]
  · rw [if_neg hlen]
    exact iff_of_true hlen fun h => hlen h.1

/-- An accepted request is right exactly when it is not the empty one at the
end of the area. -/
theorem pinPages_right {pin : Pin} (h : pinPages size pin=.ok (pgstart,pgend)) :
    PagesRight size pin pgstart pgend ↔ Named size pin := by
  have ⟨ho,hl,hle,hstart,hend⟩ := pinPages_ok h
  rw [←pinLen_pos_iff]
  constructor
  · intro hr
    by_contra hpos
    have hzero : pinLen size pin=0 := UInt32.toNat_inj.mp (by
      have : (0 : UInt32).toNat=0 := rfl
      omega)
    have hdiv : (0 : UInt32)/PAGE_SIZE=0 := by decide
    rw [hzero,hdiv,add_zero] at hend
    have hinside := hr.inside
    have horder := UInt32.le_iff_toNat_le.mp hr.order
    rw [hend,UInt32.toNat_sub] at hinside horder
    have hone : (1 : UInt32).toNat=1 := by decide
    have hcount : pageCount size≤2^20 := by
      have := size.toNat_lt
      unfold pageCount
      omega
    omega
  · intro hpos
    have ⟨hs,he,halign⟩ := pages_toNat h hpos
    have hword := (pageAlign size).toNat_lt
    have hlt : pgend.toNat<pageCount size := by omega
    refine ⟨UInt32.le_iff_toNat_le.mpr (by omega),hlt,fun p => ?_,fun _ _ =>
      rangeRight_of_bounds (by dsimp only; omega) (by dsimp only; omega)⟩
    rw [wanted_eq h hpos]
    constructor
    · intro hp
      exact ⟨4096*p,by omega,by omega,by omega⟩
    · rintro ⟨b,hb⟩
      omega

end ArdroneKernel.AshmemRequests
