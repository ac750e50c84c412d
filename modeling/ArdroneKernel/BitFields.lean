import Mathlib.Data.Nat.Bitwise
import Mathlib.Data.Nat.Size

/-!
# Fields of bits in a buffer

A buffer of bytes is a row of bits, the low bits of a byte first. A field is
the number that so many bits from a place on hold.
-/

namespace ArdroneKernel.BitFields

/-- A bit of a buffer. -/
def bit (buf : List UInt8) (k : ℕ) : Bool := (buf.getD (k/8) 0).toNat.testBit (k%8)

/-- The number that the `n` bits from a place on hold. -/
def fieldAt (buf : List UInt8) : ℕ → ℕ → ℕ
  | _, 0 => 0
  | k, n+1 => (bit buf k).toNat+2*fieldAt buf (k+1) n

variable {buf buf' : List UInt8} {k n v : ℕ}

theorem testBit_fieldAt (i : ℕ) : (fieldAt buf k n).testBit i=(decide (i< n) && bit buf (k+i)) := by
  induction n generalizing k i with
  | zero => simp [fieldAt]
  | succ n ih =>
    unfold fieldAt
    cases i with
    | zero =>
      cases bit buf k <;> simp <;> omega
    | succ i =>
      have hdiv : ((bit buf k).toNat+2*fieldAt buf (k+1) n)/2=fieldAt buf (k+1) n := by
        cases bit buf k <;> simp <;> omega
      rw [Nat.testBit_succ,hdiv,ih]
      have hk : k+1+i=k+(i+1) := by omega
      rw [hk]
      simp

theorem fieldAt_lt : fieldAt buf k n<2^n := by
  refine Nat.lt_pow_two_of_testBit _ fun i hi => ?_
  rw [testBit_fieldAt,decide_eq_false (by omega),Bool.false_and]

/-- A number is the field at a place if it has its bits. -/
theorem fieldAt_eq (hv : v<2^n) (h : ∀ i< n,bit buf (k+i)=v.testBit i) : fieldAt buf k n=v := by
  refine Nat.eq_of_testBit_eq fun i => ?_
  rw [testBit_fieldAt]
  by_cases hi : i< n
  · rw [decide_eq_true hi,Bool.true_and,h i hi]
  · rw [decide_eq_false hi,Bool.false_and]
    refine (Nat.testBit_lt_two_pow (hv.trans_le ?_)).symm
    exact Nat.pow_le_pow_right (by decide) (by omega)

theorem bit_of_fieldAt {i : ℕ} (hi : i< n) : bit buf (k+i)=(fieldAt buf k n).testBit i := by
  rw [testBit_fieldAt,decide_eq_true hi,Bool.true_and]

theorem fieldAt_congr (h : ∀ i< n,bit buf' (k+i)=bit buf (k+i)) :
    fieldAt buf' k n=fieldAt buf k n :=
  fieldAt_eq fieldAt_lt fun i hi => (h i hi).trans (bit_of_fieldAt hi)

/-- Buffers of one length with the same bits are the same. -/
theorem ext_bit (hlen : buf'.length=buf.length) (h : ∀ k<8*buf.length,bit buf' k=bit buf k) :
    buf'=buf := by
  refine List.ext_getElem hlen fun j hj hj' => ?_
  refine UInt8.toNat_inj.mp (Nat.eq_of_testBit_eq fun i => ?_)
  by_cases hi : i<8
  · have hk := h (8*j+i) (by omega)
    unfold bit at hk
    have hdiv : (8*j+i)/8=j := by omega
    have hmod : (8*j+i)%8=i := by omega
    rwa [hdiv,hmod,List.getD_eq_getElem _ _ hj,List.getD_eq_getElem _ _ hj'] at hk
  · have hbig : ∀ x : UInt8,x.toNat.testBit i=false := fun x =>
      Nat.testBit_lt_two_pow (x.toNat_lt.trans_le (Nat.pow_le_pow_right (by decide) (by omega)))
    rw [hbig,hbig]

/-! ## Rows of fields -/

/-- The number of bits of a row of fields, each with its width. -/
def width : List (ℕ×ℕ) → ℕ
  | [] => 0
  | (n,_)::fs => n+width fs

/-- The fields follow each other from a place on. -/
def Laid (buf : List UInt8) : ℕ → List (ℕ×ℕ) → Prop
  | _, [] => True
  | k, (n,v)::fs => fieldAt buf k n=v∧Laid buf (k+n) fs

theorem width_append (fs gs : List (ℕ×ℕ)) : width (fs++gs)=width fs+width gs := by
  induction fs with
  | nil => simp [width]
  | cons f fs ih =>
    rcases f with ⟨n,v⟩
    simp only [List.cons_append,width,ih]
    omega

theorem laid_append {fs gs : List (ℕ×ℕ)} :
    Laid buf k (fs++gs) ↔ Laid buf k fs∧Laid buf (k+width fs) gs := by
  induction fs generalizing k with
  | nil => simp [Laid,width]
  | cons f fs ih =>
    rcases f with ⟨n,v⟩
    simp only [List.cons_append,Laid,width,ih,and_assoc,Nat.add_assoc]

/-- A row of fields stays where its bits stay. -/
theorem Laid.congr {fs : List (ℕ×ℕ)} (h : Laid buf k fs)
    (hbits : ∀ i<width fs,bit buf' (k+i)=bit buf (k+i)) : Laid buf' k fs := by
  induction fs generalizing k with
  | nil => trivial
  | cons f fs ih =>
    rcases f with ⟨n,v⟩
    refine ⟨(fieldAt_congr fun i hi => hbits i (Nat.lt_add_right _ hi)).trans h.1,
      ih h.2 fun i hi => ?_⟩
    have hn := hbits (n+i) (Nat.add_lt_add_left hi n)
    rwa [←Nat.add_assoc] at hn

/-- A row of fields tells its bits. -/
theorem Laid.bits {fs : List (ℕ×ℕ)} (h : Laid buf k fs) (h' : Laid buf' k fs) :
    ∀ i<width fs,bit buf' (k+i)=bit buf (k+i) := by
  induction fs generalizing k with
  | nil => exact fun i hi => absurd hi (Nat.not_lt_zero i)
  | cons f fs ih =>
    rcases f with ⟨n,v⟩
    intro i hi
    by_cases hn : i< n
    · rw [bit_of_fieldAt hn,bit_of_fieldAt hn,h.1,h'.1]
    · have hrest := ih h.2 h'.2 (i-n) (by
        unfold width at hi
        omega)
      have hi' : k+n+(i-n)=k+i := by omega
      rwa [hi'] at hrest

/-! ## Bytes -/

/-- Some bytes as one number, the low byte first. -/
def joinBytes : List UInt8 → ℕ
  | [] => 0
  | x::xs => x.toNat|||joinBytes xs<<<8

theorem testBit_byte (x : UInt8) {i : ℕ} (hi : 8≤ i) : x.toNat.testBit i=false :=
  Nat.testBit_lt_two_pow (x.toNat_lt.trans_le (Nat.pow_le_pow_right (by decide) hi))

theorem testBit_joinBytes (xs : List UInt8) (i : ℕ) : (joinBytes xs).testBit i=bit xs i := by
  induction xs generalizing i with
  | nil => simp [joinBytes,bit]
  | cons x xs ih =>
    unfold joinBytes
    rw [Nat.testBit_or,Nat.testBit_shiftLeft]
    unfold bit
    by_cases hi : i<8
    · have hdiv : i/8=0 := by omega
      have hmod : i%8=i := by omega
      rw [decide_eq_false (by omega),Bool.false_and,Bool.or_false,hdiv,hmod]
      rfl
    · have hdiv : i/8=(i-8)/8+1 := by omega
      have hmod : i%8=(i-8)%8 := by omega
      rw [testBit_byte x (by omega),decide_eq_true (by omega),Bool.false_or,Bool.true_and,ih,hdiv,
        hmod]
      rfl

end ArdroneKernel.BitFields
