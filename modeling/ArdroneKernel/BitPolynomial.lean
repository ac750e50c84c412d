import Mathlib

/-!
# Bit patterns as polynomials in characteristic two

A natural number is read as the polynomial whose coefficients are its
binary digits, evaluated at a point of any commutative ring of
characteristic two. Exclusive or is then addition and a left shift is a
multiplication by a power of the point. Taking the indeterminate itself as
the point gives the polynomial, and a root of it gives a field element, so
one set of lemmas serves the encoder words and the field tables alike.
-/

namespace ArdroneKernel.BitPolynomial

open Polynomial

section Semiring

variable {R : Type*} [CommSemiring R]

/-- The value at `x` of the polynomial whose coefficients are the bits of `n`. -/
def bitSum (x : R) (n : ℕ) : R := ∑ i ∈ Finset.range n, if n.testBit i then x^i else 0

/-- Any width that holds the number gives the same sum. -/
theorem bitSum_eq_sum {n k : ℕ} (x : R) (h : n<2^k) :
    bitSum x n=∑ i ∈ Finset.range k, if n.testBit i then x^i else 0 := by
  have hz : ∀ i j, j ≤ i → n<2^j → (if n.testBit i then x^i else 0)=0 := by
    intro i j hij hn
    have hb : n.testBit i=false := Nat.testBit_lt_two_pow (lt_of_lt_of_le hn
      (Nat.pow_le_pow_right (by omega) hij))
    simp [hb]
  rcases le_total n k with hk | hk
  · apply Finset.sum_subset (Finset.range_subset_range.mpr hk)
    intro i _ hi
    exact hz i n (by simpa using hi) n.lt_two_pow_self
  · symm
    apply Finset.sum_subset (Finset.range_subset_range.mpr hk)
    intro i _ hi
    exact hz i k (by simpa using hi) h

@[simp]
theorem bitSum_zero (x : R) : bitSum x 0=0 := by simp [bitSum]

@[simp]
theorem bitSum_one (x : R) : bitSum x 1=1 := by simp [bitSum]

/-- A single bit is a power of the point. -/
@[simp]
theorem bitSum_two_pow (x : R) (k : ℕ) : bitSum x (2^k)=x^k := by
  rw [bitSum_eq_sum x (Nat.pow_lt_pow_right (by omega) (Nat.lt_succ_self k))]
  rw [Finset.sum_eq_single k]
  · simp
  · intro i _ hi
    simp [Ne.symm hi]
  · simp

/-- A left shift multiplies by a power of the point. -/
@[simp]
theorem bitSum_shiftLeft (x : R) (n k : ℕ) : bitSum x (n<<<k)=x^k*bitSum x n := by
  have hlt : n<<<k<2^(k+n) := by
    rw [Nat.shiftLeft_eq,Nat.mul_comm,pow_add]
    exact Nat.mul_lt_mul_of_pos_left n.lt_two_pow_self (by positivity)
  rw [bitSum_eq_sum x hlt,Finset.sum_range_add,bitSum,Finset.mul_sum]
  rw [Finset.sum_eq_zero,zero_add]
  · apply Finset.sum_congr rfl
    intro i _
    simp [Nat.testBit_shiftLeft,pow_add]
  · intro i hi
    have hik : ¬ k ≤ i := by simpa using hi
    simp [Nat.testBit_shiftLeft,hik]

/-- Ring homomorphisms act on the point alone. -/
theorem map_bitSum {S : Type*} [CommSemiring S] (f : R →+* S) (x : R) (n : ℕ) :
    f (bitSum x n)=bitSum (f x) n := by
  simp only [bitSum,map_sum,apply_ite f,map_pow,map_zero]

end Semiring

section CharTwo

variable {R : Type*} [CommRing R] [CharP R 2]

/-- Exclusive or is addition in characteristic two. -/
@[simp]
theorem bitSum_xor (x : R) (a b : ℕ) : bitSum x (a^^^b)=bitSum x a+bitSum x b := by
  have ha : a<2^(a+b) := lt_of_lt_of_le a.lt_two_pow_self (Nat.pow_le_pow_right (by omega) (by omega))
  have hb : b<2^(a+b) := lt_of_lt_of_le b.lt_two_pow_self (Nat.pow_le_pow_right (by omega) (by omega))
  rw [bitSum_eq_sum x ha,bitSum_eq_sum x hb,bitSum_eq_sum x (Nat.xor_lt_two_pow ha hb),
    ←Finset.sum_add_distrib]
  apply Finset.sum_congr rfl
  intro i _
  rw [Nat.testBit_xor]
  cases a.testBit i <;> cases b.testBit i <;> simp [CharTwo.add_self_eq_zero]

/-- A number splits into its high part, shifted back, and its low part. -/
theorem bitSum_split (x : R) (n k : ℕ) :
    bitSum x n=x^k*bitSum x (n>>>k)+bitSum x (n%2^k) := by
  have h : n=((n>>>k)<<<k)^^^(n%2^k) := by
    apply Nat.eq_of_testBit_eq
    intro i
    by_cases hi : k ≤ i
    · simp [hi,Nat.not_lt.mpr hi,show k+(i-k)=i by omega]
    · simp [hi,Nat.lt_of_not_le hi]
  conv_lhs => rw [h]
  rw [bitSum_xor,bitSum_shiftLeft]

end CharTwo

/-- The polynomial over the two-element field with the bits of `n` as coefficients. -/
noncomputable abbrev bitPoly (n : ℕ) : (ZMod 2)[X] := bitSum X n

/-- Evaluating the polynomial gives back the sum at any point. -/
theorem aeval_bitPoly {A : Type*} [CommRing A] [Algebra (ZMod 2) A] (x : A) (n : ℕ) :
    aeval x (bitPoly n)=bitSum x n := by
  have h := map_bitSum (aeval x : (ZMod 2)[X] →ₐ[ZMod 2] A).toRingHom X n
  simpa using h

theorem coeff_bitPoly (n i : ℕ) : (bitPoly n).coeff i=if n.testBit i then 1 else 0 := by
  have hn : n<2^(n+i+1) := lt_of_lt_of_le n.lt_two_pow_self (Nat.pow_le_pow_right (by omega) (by omega))
  rw [bitPoly,bitSum_eq_sum X hn,finsetSum_coeff,Finset.sum_eq_single i]
  · split <;> simp
  · intro j _ hj
    split
    · rw [coeff_X_pow,if_neg (Ne.symm hj)]
    · simp
  · intro h
    exact absurd (Finset.mem_range.mpr (by omega)) h

/-- A number below a power of two fills the empty low bits of another. -/
theorem or_eq_xor {a b s : ℕ} (ha : a%2^s=0) (hb : b<2^s) : a|||b=a^^^b := by
  apply Nat.eq_of_testBit_eq
  intro i
  rw [Nat.testBit_or,Nat.testBit_xor]
  rcases Nat.lt_or_ge i s with hi | hi
  · have hz : a.testBit i=false := by
      have := Nat.testBit_mod_two_pow a s i
      rw [ha,Nat.zero_testBit] at this
      simpa [hi] using this.symm
    rw [hz,Bool.false_or,Bool.false_xor]
  · have hz : b.testBit i=false :=
      Nat.testBit_lt_two_pow (lt_of_lt_of_le hb (Nat.pow_le_pow_right (by omega) hi))
    rw [hz,Bool.or_false,Bool.xor_false]

/-- Filling the empty low bits adds the polynomials. -/
theorem bitPoly_or {a b s : ℕ} (ha : a%2^s=0) (hb : b<2^s) :
    bitPoly (a|||b)=bitPoly a+bitPoly b := by
  rw [or_eq_xor ha hb]
  exact bitSum_xor X a b

/-- The degree of the polynomial is read off the width of the number. -/
theorem degree_bitPoly_lt {n k : ℕ} : (bitPoly n).degree<k ↔ n<2^k := by
  rw [degree_lt_iff_coeff_zero]
  constructor
  · intro h
    apply Nat.lt_pow_two_of_testBit
    intro i hi
    have hc := h i hi
    rw [coeff_bitPoly] at hc
    by_contra hb
    simp [hb] at hc
  · intro h i hi
    rw [coeff_bitPoly,Nat.testBit_lt_two_pow (lt_of_lt_of_le h (Nat.pow_le_pow_right (by omega) hi))]
    simp

/-- Different numbers are different polynomials. -/
theorem bitPoly_injective : Function.Injective bitPoly := by
  intro a b h
  apply Nat.eq_of_testBit_eq
  intro i
  have hc := congrArg (fun p => p.coeff i) h
  simp only [coeff_bitPoly] at hc
  cases ha : a.testBit i <;> cases hb : b.testBit i <;> simp [ha,hb] at hc ⊢

/-- A number of exactly `k+1` bits is a monic polynomial of degree `k`. -/
theorem monic_bitPoly {n k : ℕ} (hl : 2^k≤n) (hu : n<2^(k+1)) :
    (bitPoly n).Monic ∧ (bitPoly n).natDegree=k := by
  have hb : n.testBit k=true := by
    have h := Nat.testBit_two_pow_add_eq (n-2^k) k
    have hz : (n-2^k).testBit k=false := Nat.testBit_lt_two_pow (by rw [pow_succ] at hu; omega)
    rw [hz,show 2^k+(n-2^k)=n by omega] at h
    simpa using h
  have hd : (bitPoly n).degree<(k+1 : ℕ) := degree_bitPoly_lt.mpr hu
  have hc : (bitPoly n).coeff k=1 := by rw [coeff_bitPoly,if_pos hb]
  have hn : (bitPoly n).natDegree=k := by
    apply natDegree_eq_of_le_of_coeff_ne_zero
    · exact natDegree_le_iff_degree_le.mpr (Order.le_of_lt_succ (by exact_mod_cast hd))
    · rw [hc]
      exact one_ne_zero
  exact ⟨by rw [Monic,leadingCoeff,hn,hc],hn⟩

/-- Reduce a bit pattern by one of degree `d`, from the bit `n+d-1` down. -/
def reduceBits (p d : ℕ) : ℕ → ℕ → ℕ
  | 0,v => v
  | n+1,v => if v.testBit (n+d) then reduceBits p d n (v^^^(p<<<n)) else reduceBits p d n v

/-- Reduction changes a pattern by a multiple of the modulus. -/
theorem dvd_reduceBits (p d n v : ℕ) : bitPoly p ∣ bitPoly v+bitPoly (reduceBits p d n v) := by
  induction n generalizing v with
  | zero =>
    rw [reduceBits,CharTwo.add_self_eq_zero]
    exact dvd_zero _
  | succ n ih =>
    rw [reduceBits]
    split
    · have hx : bitPoly (v^^^(p<<<n))=bitPoly v+X^n*bitPoly p :=
        (bitSum_xor X _ _).trans (congrArg _ (bitSum_shiftLeft X _ _))
      have h := ih (v^^^(p<<<n))
      rw [hx] at h
      have hsum := dvd_add h (dvd_mul_left (bitPoly p) (X^n))
      have hrw : bitPoly v+X^n*bitPoly p+bitPoly (reduceBits p d n (v^^^(p<<<n)))+X^n*bitPoly p=
          bitPoly v+bitPoly (reduceBits p d n (v^^^(p<<<n))) := by
        linear_combination CharTwo.add_self_eq_zero (X^n*bitPoly p)
      rwa [hrw] at hsum
    · exact ih v

/-- A pattern that reduces to zero is a multiple. -/
theorem dvd_of_reduceBits {p d n v : ℕ} (h : reduceBits p d n v=0) : bitPoly p ∣ bitPoly v := by
  have hd := dvd_reduceBits p d n v
  have hz : bitPoly 0=0 := bitSum_zero X
  rwa [h,hz,add_zero] at hd

end ArdroneKernel.BitPolynomial
