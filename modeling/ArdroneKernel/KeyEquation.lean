import Mathlib

/-!
# Newton identities and the binary Berlekamp-Massey step

The power sums of an error pattern are collected in a polynomial `A` with
constant term one. A locator `C` satisfies Newton's identities up to some
order when the residue `C*A+C+X*C'` vanishes to that order. In
characteristic two and for conjugate power sums, a residue that vanishes
through an odd order vanishes through the next even one, which is why half
of the steps of the Berlekamp-Massey algorithm are not needed. The step
lemma below keeps the degree, the residue and the minimality of the
locator; the last section recovers the error pattern from it.
-/

namespace ArdroneKernel.KeyEquation

open Polynomial

variable {F : Type*} [Field F]

/-- What is missing in Newton's identities for the locator `C`. -/
noncomputable def resid (A C : F[X]) : F[X] := C*A+C+X*derivative C

/-- The power sums are conjugate up to order `M`: the even part of `A` is its square. -/
def Conjugate (A : F[X]) (M : ℕ) : Prop := A.coeff 0=1 ∧ X^M ∣ X*derivative A+A+A^2

theorem resid_add (A C D : F[X]) : resid A (C+D)=resid A C+resid A D := by
  unfold resid
  rw [derivative_add]
  ring

theorem resid_C_mul (A C : F[X]) (a : F) : resid A (Polynomial.C a*C)=Polynomial.C a*resid A C := by
  unfold resid
  rw [derivative_C_mul]
  ring

section CharTwo

variable [CharP F 2]

/-- Even powers of the indeterminate pass through the residue. -/
theorem resid_X_pow_mul (A C : F[X]) (k : ℕ) : resid A (X^(2*k)*C)=X^(2*k)*resid A C := by
  unfold resid
  have h2 : ((2*k : ℕ) : F)=0 := by
    push_cast
    rw [CharTwo.two_eq_zero,zero_mul]
  rw [derivative_mul,derivative_X_pow,h2,map_zero]
  ring

/-- The residue of an odd power starts with that power. -/
theorem resid_X_pow_odd (A : F[X]) (k : ℕ) : resid A (X^(2*k+1))=X^(2*k+1)*A := by
  unfold resid
  have h2 : (2 : F[X])=0 := CharTwo.two_eq_zero
  have hc : Polynomial.C ((2*k+1 : ℕ) : F)=1 := by
    have : ((2*k+1 : ℕ) : F)=1 := by
      push_cast
      rw [CharTwo.two_eq_zero,zero_mul,zero_add]
    rw [this,map_one]
  rw [derivative_X_pow,hc,Nat.add_sub_cancel]
  linear_combination X^(2*k+1)*h2

/-- The Euler operator applied to a residue gives the residue times `A`. -/
theorem euler_resid {A C d : F[X]} (hd : X*derivative A+A+A^2=d) :
    X*derivative (resid A C)=A*resid A C+C*d := by
  have h2 : (2 : F[X])=0 := CharTwo.two_eq_zero
  have hdd : derivative (derivative C)=0 := by
    ext n
    simp only [coeff_derivative,coeff_zero]
    have : ((n+1 : ℕ) : F)*((n+1+1 : ℕ) : F)=0 := by
      rw [←Nat.cast_mul]
      have hdvd : 2 ∣ (n+1)*(n+1+1) := (Nat.even_mul_succ_self (n+1)).two_dvd
      exact (CharP.cast_eq_zero_iff F 2 _).mpr hdvd
    push_cast at this ⊢
    linear_combination (C.coeff (n+1+1))*this
  unfold resid
  simp only [derivative_add,derivative_mul,derivative_X,hdd]
  linear_combination C*hd+(C*A+X*derivative C-A*C-C*A^2-C*A-A*X*derivative C)*h2+A*X*derivative C*h2

/-- A residue that vanishes through an odd order vanishes through the next even one. -/
theorem resid_even_step {A C : F[X]} {i M : ℕ} (hA : Conjugate A M) (hM : 2*i+3 ≤ M)
    (h : X^(2*i+2) ∣ resid A C) : X^(2*i+3) ∣ resid A C := by
  obtain ⟨d,hd⟩ := hA.2
  have he := euler_resid (C := C) hd
  have hx : X ∣ A+1 := by
    rw [X_dvd_iff,coeff_add,hA.1,coeff_one_zero,CharTwo.add_self_eq_zero]
  have hdvd : X^(2*i+3) ∣ resid A C+X*derivative (resid A C) := by
    have hsum : resid A C+X*derivative (resid A C)=resid A C*(A+1)+X^M*(d*C) := by
      rw [he]
      ring
    rw [hsum]
    apply dvd_add
    · exact mul_dvd_mul h hx
    · exact Dvd.dvd.mul_right (pow_dvd_pow X hM) _
  rw [X_pow_dvd_iff] at h hdvd ⊢
  intro n hn
  rcases Nat.lt_or_ge n (2*i+2) with hlt | hge
  · exact h n hlt
  · obtain rfl : n=2*i+1+1 := by omega
    have hc := hdvd (2*i+1+1) (by omega)
    rw [coeff_add,coeff_X_mul,coeff_derivative] at hc
    have h2 : ((2*i+1 : ℕ) : F)+1=0 := by
      push_cast
      linear_combination ((i : F)+1)*(CharTwo.two_eq_zero : (2 : F)=0)
    rwa [h2,mul_zero,add_zero] at hc

end CharTwo

section Step

/-- `D` explains `A` as a recurrence of length `w` up to order `M`. -/
structure Explains (A : F[X]) (M w : ℕ) (D : F[X]) : Prop where
  /-- The constant term is one. -/
  const : D.coeff 0=1
  /-- The length bounds the degree. -/
  degree : D.natDegree≤w
  /-- The recurrence holds from the length on. -/
  zero : ∀ n, w<n → n<M → (D*A).coeff n=0

/-- A product with a low-degree remainder below order `N` has only the
contribution of the coefficient at `N` there. -/
theorem coeff_mul_of_low {P D R : F[X]} {N : ℕ} (hdeg : (D*P).natDegree<N) (hR : X^N ∣ R) :
    (D*(P+R)).coeff N=D.coeff 0*R.coeff N := by
  obtain ⟨Q,rfl⟩ := hR
  rw [mul_add,coeff_add,coeff_eq_zero_of_natDegree_lt hdeg,zero_add]
  have h1 : D*(X^N*Q)=X^N*(D*Q) := by ring
  have hx : (X^N*(D*Q)).coeff N=(D*Q).coeff 0 := by
    simpa using coeff_X_pow_mul (D*Q) N 0
  have hy : (X^N*Q).coeff N=Q.coeff 0 := by
    simpa using coeff_X_pow_mul Q N 0
  rw [h1,hx,hy,mul_coeff_zero]

/-- Massey's bound: where a locator of length `L` first fails, every
recurrence that goes on has length at least the order minus `L`. -/
theorem massey_bound {A C D : F[X]} {M N L w : ℕ} (hD : Explains A M w D) (hNM : N<M)
    (hdeg : C.natDegree≤L) (hC : X^N ∣ resid A C) (hne : (resid A C).coeff N≠0) : N≤L+w := by
  by_contra hlt
  have hder : (X*derivative C).natDegree≤L := by
    by_cases h0 : derivative C=0
    · simp [h0]
    · have hpos : C.natDegree≠0 := by
        intro hz
        rw [eq_C_of_natDegree_eq_zero hz,derivative_C] at h0
        exact h0 rfl
      have hl := natDegree_derivative_lt hpos
      have hm := natDegree_mul_le (p := (X : F[X])) (q := derivative C)
      rw [natDegree_X] at hm
      omega
  have hP : (-(C+X*derivative C)).natDegree≤L := by
    rw [natDegree_neg]
    exact (natDegree_add_le _ _).trans (max_le hdeg hder)
  have hCA : C*A=-(C+X*derivative C)+resid A C := by
    unfold resid
    ring
  have h1 : (D*(C*A)).coeff N=(resid A C).coeff N := by
    rw [hCA,coeff_mul_of_low _ hC,hD.const,one_mul]
    have hm := natDegree_mul_le (p := D) (q := -(C+X*derivative C))
    have := hD.degree
    omega
  have h2 : (D*(C*A)).coeff N=0 := by
    rw [show D*(C*A)=C*(D*A) by ring,coeff_mul]
    apply Finset.sum_eq_zero
    intro ij hij
    have hs := Finset.HasAntidiagonal.mem_antidiagonal.mp hij
    by_cases hi : ij.1≤L
    · rw [hD.zero ij.2 (by omega) (by omega),mul_zero]
    · rw [coeff_eq_zero_of_natDegree_lt (by omega),zero_mul]
  exact hne (h1.symm.trans h2)

/-- The state of the binary Berlekamp-Massey algorithm before round `i`:
the locator `C` of degree `L`, and the polynomial `B` of degree `Lp` that
failed at order `q` with discrepancy `b`. -/
structure RoundInv (A : F[X]) (M i : ℕ) (C B : F[X]) (L Lp q : ℕ) (b : F) : Prop where
  /-- The constant term is one. -/
  const : C.coeff 0=1
  /-- The leading coefficient stands at the recorded degree. -/
  degree : C.degree=L
  /-- Newton's identities hold through order `2i`. -/
  newton : X^(2*i+1) ∣ resid A C
  /-- The recorded degree of the earlier polynomial is the right one. -/
  prevDegree : B.degree=Lp
  /-- Shifted up to any later odd order, the earlier polynomial fails
  there for the first time, and by the recorded discrepancy. -/
  prevFails : ∀ r, q≤2*r → X^(2*r+1) ∣ resid A (X^(2*r+1-q)*B) ∧
    (resid A (X^(2*r+1-q)*B)).coeff (2*r+1)=b
  /-- The recorded discrepancy is not zero. -/
  prevNe : b≠0
  /-- The two lengths add up to the order of the last change. -/
  lengths : L+Lp=q
  /-- The last change was made before this round. -/
  before : q≤2*i
  /-- No recurrence for `A` is shorter. -/
  minimal : ∀ w D, Explains A M w D → L≤w

section Rounds

variable [CharP F 2] {A C B : F[X]} {M i L Lp q : ℕ} {b : F}

/-- The algorithm starts with both polynomials equal to one. -/
theorem RoundInv.init (hA : Conjugate A M) : RoundInv A M 0 1 1 0 0 0 (1 : F) where
  const := coeff_one_zero
  degree := degree_one
  newton := by
    rw [X_pow_dvd_iff]
    intro n hn
    obtain rfl : n=0 := by omega
    simp [resid,hA.1,CharTwo.add_self_eq_zero]
  prevDegree := degree_one
  prevFails := by
    intro r _
    rw [Nat.sub_zero,mul_one,resid_X_pow_odd]
    refine ⟨Dvd.intro _ rfl,?_⟩
    simpa [hA.1] using coeff_X_pow_mul A (2*r+1) 0
  prevNe := one_ne_zero
  lengths := rfl
  before := Nat.zero_le _
  minimal := by
    intro w _ _
    exact Nat.zero_le w

/-- A round without discrepancy changes nothing. -/
theorem RoundInv.skip (h : RoundInv A M i C B L Lp q b) (hA : Conjugate A M) (hM : 2*i+3≤M)
    (hd : (resid A C).coeff (2*i+1)=0) : RoundInv A M (i+1) C B L Lp q b where
  const := h.const
  degree := h.degree
  newton := by
    apply resid_even_step hA hM
    rw [X_pow_dvd_iff]
    intro n hn
    rcases Nat.lt_or_ge n (2*i+1) with hlt | hge
    · exact X_pow_dvd_iff.mp h.newton n hlt
    · obtain rfl : n=2*i+1 := by omega
      exact hd
  prevDegree := h.prevDegree
  prevFails := h.prevFails
  prevNe := h.prevNe
  lengths := h.lengths
  before := h.before.trans (by omega)
  minimal := h.minimal

/-- The corrected locator. -/
noncomputable def corrected (A C B : F[X]) (i q : ℕ) (b : F) : F[X] :=
  C+Polynomial.C ((resid A C).coeff (2*i+1)/b)*(X^(2*i+1-q)*B)

/-- The correction makes Newton's identities hold through two more orders. -/
theorem RoundInv.corrected_newton (h : RoundInv A M i C B L Lp q b) (hA : Conjugate A M)
    (hM : 2*i+3≤M) : X^(2*(i+1)+1) ∣ resid A (corrected A C B i q b) := by
  obtain ⟨hdvd,hb⟩ := h.prevFails i h.before
  apply resid_even_step hA hM
  rw [X_pow_dvd_iff] at hdvd ⊢
  intro n hn
  rw [corrected,resid_add,resid_C_mul,coeff_add,coeff_C_mul]
  rcases Nat.lt_or_ge n (2*i+1) with hlt | hge
  · rw [X_pow_dvd_iff.mp h.newton n hlt,hdvd n hlt,mul_zero,add_zero]
  · obtain rfl : n=2*i+1 := by omega
    rw [hb,div_mul_cancel₀ _ h.prevNe,CharTwo.add_self_eq_zero]

omit [CharP F 2] in
theorem RoundInv.corrected_const (h : RoundInv A M i C B L Lp q b) :
    (corrected A C B i q b).coeff 0=1 := by
  have hb := h.before
  rw [corrected,coeff_add,h.const,coeff_C_mul,coeff_X_pow_mul',if_neg (by omega),mul_zero,add_zero]

omit [CharP F 2] in
/-- The shifted polynomial has the degree of the new length. -/
theorem RoundInv.shifted_degree (h : RoundInv A M i C B L Lp q b)
    (hd : (resid A C).coeff (2*i+1)≠0) :
    (Polynomial.C ((resid A C).coeff (2*i+1)/b)*(X^(2*i+1-q)*B)).degree=((2*i+1-L : ℕ) : WithBot ℕ) := by
  have hb := h.before
  have hl := h.lengths
  rw [degree_C_mul (div_ne_zero hd h.prevNe),degree_mul,degree_X_pow,h.prevDegree,←Nat.cast_add]
  congr 1
  omega

/-- A round with a discrepancy that does not change the length. -/
theorem RoundInv.keep (h : RoundInv A M i C B L Lp q b) (hA : Conjugate A M) (hM : 2*i+3≤M)
    (hd : (resid A C).coeff (2*i+1)≠0) (hL : 2*i+1-L≤L) :
    RoundInv A M (i+1) (corrected A C B i q b) B L Lp q b where
  const := h.corrected_const
  degree := by
    -- the two degrees differ because their sum is odd
    rw [corrected,degree_add_eq_left_of_degree_lt,h.degree]
    rw [h.shifted_degree hd,h.degree,Nat.cast_lt]
    omega
  newton := h.corrected_newton hA hM
  prevDegree := h.prevDegree
  prevFails := h.prevFails
  prevNe := h.prevNe
  lengths := h.lengths
  before := h.before.trans (by omega)
  minimal := h.minimal

/-- A round with a discrepancy that changes the length. -/
theorem RoundInv.change (h : RoundInv A M i C B L Lp q b) (hA : Conjugate A M) (hM : 2*i+3≤M)
    (hd : (resid A C).coeff (2*i+1)≠0) (hL : L<2*i+1-L) :
    RoundInv A M (i+1) (corrected A C B i q b) C (2*i+1-L) L (2*i+1)
      ((resid A C).coeff (2*i+1)) where
  const := h.corrected_const
  degree := by
    rw [corrected,degree_add_eq_right_of_degree_lt,h.shifted_degree hd]
    rw [h.shifted_degree hd,h.degree,Nat.cast_lt]
    exact hL
  newton := h.corrected_newton hA hM
  prevDegree := h.degree
  prevFails := by
    intro r hr
    have he : 2*r+1-(2*i+1)=2*(r-i) := by omega
    have hs : 2*r+1=2*(r-i)+(2*i+1) := by omega
    rw [he,resid_X_pow_mul,hs]
    refine ⟨by rw [pow_add]; exact mul_dvd_mul_left _ h.newton,?_⟩
    rw [Nat.add_comm,coeff_X_pow_mul]
  prevNe := hd
  lengths := by omega
  before := by omega
  minimal := by
    intro w D hD
    have hb := massey_bound hD (by omega) (natDegree_le_of_degree_le h.degree.le) h.newton hd
    omega

end Rounds
end Step

section Pattern

/-- The locator of a set of field elements, one factor `1+x*X` for each. -/
noncomputable def locator (T : Finset F) : F[X] := ∏ x ∈ T, (1+C x*X)

theorem locator_const (T : Finset F) : (locator T).coeff 0=1 := by
  rw [locator,coeff_zero_prod]
  simp

theorem factor_degree {x : F} (hx : x≠0) : (1+C x*X : F[X]).degree=1 := by
  rw [add_comm,degree_add_eq_left_of_degree_lt]
  · exact degree_C_mul_X hx
  · rw [degree_C_mul_X hx,degree_one]
    exact zero_lt_one

variable {T : Finset F}

theorem locator_degree (h0 : (0 : F) ∉ T) : (locator T).degree=T.card := by
  rw [locator,degree_prod,Finset.sum_congr rfl fun x hx => factor_degree (ne_of_mem_of_not_mem hx h0)]
  simp

theorem locator_natDegree (h0 : (0 : F) ∉ T) : (locator T).natDegree=T.card :=
  natDegree_eq_of_degree_eq_some (locator_degree h0)

/-- The locators of different elements have no common factor. -/
theorem locator_separable (T : Finset F) : (locator T).Separable := by
  apply separable_prod'
  · intro x _ y _ hxy
    refine ⟨C (y/(y-x)),C (-x/(y-x)),?_⟩
    have h1 : C (y/(y-x))+C (-x/(y-x))=(1 : F[X]) := by
      rw [←C_add,←C_1]
      congr 1
      field_simp
      ring
    have h2 : C (y/(y-x))*C x+C (-x/(y-x))*C y=(0 : F[X]) := by
      rw [←C_mul,←C_mul,←C_add,←C_0]
      congr 1
      field_simp
      ring
    linear_combination h1+X*h2
  · intro x _
    have hd : derivative (1+C x*X)=C x := by simp
    rw [separable_def,hd]
    exact ⟨1,-X,by ring⟩

/-- `A` carries the power sums of `T` below order `M`. -/
def PowerSums (A : F[X]) (M : ℕ) (T : Finset F) : Prop :=
  A.coeff 0=1 ∧ ∀ n, 0<n → n<M → A.coeff n=∑ x ∈ T, x^n

/-- Two polynomials with the same residue order for one locator agree. -/
theorem coeff_eq_of_resid {A A' D : F[X]} {M : ℕ} (hD : D.coeff 0=1) (h : X^M ∣ resid A D)
    (h' : X^M ∣ resid A' D) {n : ℕ} (hn : n<M) : A.coeff n=A'.coeff n := by
  have hsub : X^M ∣ D*(A-A') := by
    have he : D*(A-A')=resid A D-resid A' D := by
      unfold resid
      ring
    rw [he]
    exact dvd_sub h h'
  have hcop : IsCoprime (X^M : F[X]) D := by
    apply IsCoprime.pow_left
    rw [(prime_X (R := F)).coprime_iff_not_dvd,X_dvd_iff,hD]
    exact one_ne_zero
  have hz := X_pow_dvd_iff.mp (hcop.dvd_of_dvd_mul_left hsub) n hn
  rwa [coeff_sub,sub_eq_zero] at hz

variable [CharP F 2]

/-- Newton's identities for the locator of a set. -/
theorem resid_locator {A : F[X]} {M : ℕ} (hA : PowerSums A M T) :
    X^M ∣ resid A (locator T) := by
  classical
  rcases Nat.eq_zero_or_pos M with rfl | hM
  · simp
  have h2 : (2 : F[X])=0 := CharTwo.two_eq_zero
  -- the power sums below order `M`, without the constant term
  set P : F[X] := ∑ x ∈ T, ∑ n ∈ Finset.range (M-1), (C x*X)^(n+1) with hP
  have hAP : X^M ∣ A-(1+P) := by
    rw [X_pow_dvd_iff]
    intro n hn
    have hc : P.coeff n=if 0<n then ∑ x ∈ T, x^n else 0 := by
      rw [hP,finsetSum_coeff]
      split_ifs with hpos
      · apply Finset.sum_congr rfl
        intro x _
        rw [finsetSum_coeff,Finset.sum_eq_single (n-1)]
        · rw [mul_pow,←C_pow,coeff_C_mul_X_pow,if_pos (by omega),show n-1+1=n by omega]
        · intro k _ hk
          rw [mul_pow,←C_pow,coeff_C_mul_X_pow,if_neg (by omega)]
        · intro hk
          exact absurd (Finset.mem_range.mpr (by omega)) hk
      · apply Finset.sum_eq_zero
        intro x _
        rw [finsetSum_coeff]
        apply Finset.sum_eq_zero
        intro k _
        rw [mul_pow,←C_pow,coeff_C_mul_X_pow,if_neg (by omega)]
    rw [coeff_sub,coeff_add,hc]
    rcases Nat.eq_zero_or_pos n with rfl | hpos
    · simp [hA.1]
    · rw [hA.2 n hpos hn,coeff_one,if_neg (by omega),if_pos hpos,zero_add,sub_self]
  have hgeo : ∀ x : F, (1+C x*X)*∑ n ∈ Finset.range (M-1), (C x*X)^(n+1)=C x*X+X^M*C (x^M) := by
    intro x
    have hs : ∀ k, (1+C x*X)*∑ n ∈ Finset.range k, (C x*X)^(n+1)=C x*X+(C x*X)^(k+1) := by
      intro k
      induction k with
      | zero => rw [Finset.sum_range_zero]; linear_combination -(C x*X)*h2
      | succ k ih =>
        rw [Finset.sum_range_succ,mul_add,ih]
        linear_combination (C x*X)^(k+1)*h2
    rw [hs (M-1),show M-1+1=M by omega,mul_pow,C_pow]
    ring
  have hder : X*derivative (locator T)=∑ x ∈ T, (∏ y ∈ T.erase x, (1+C y*X))*(C x*X) := by
    rw [locator,derivative_prod_finset,Finset.mul_sum]
    apply Finset.sum_congr rfl
    intro x _
    have hd : derivative (1+C x*X)=C x := by simp
    rw [hd]
    ring
  have hmul : locator T*P=X*derivative (locator T)+
      X^M*∑ x ∈ T, (∏ y ∈ T.erase x, (1+C y*X))*C (x^M) := by
    rw [hP,Finset.mul_sum,hder,Finset.mul_sum,←Finset.sum_add_distrib]
    apply Finset.sum_congr rfl
    intro x hx
    rw [locator,←Finset.prod_erase_mul T _ hx,mul_assoc,hgeo]
    ring
  obtain ⟨Q,hQ⟩ := hAP
  refine ⟨Q*locator T+∑ x ∈ T, (∏ y ∈ T.erase x, (1+C y*X))*C (x^M),?_⟩
  unfold resid
  linear_combination (locator T)*hQ+hmul+(locator T+X*derivative (locator T))*h2

/-- A locator that satisfies Newton's identities and is the locator of a
set says that the power sums are those of the set. -/
theorem powerSums_of_resid {A : F[X]} {M : ℕ} (h0 : A.coeff 0=1) (h : X^M ∣ resid A (locator T)) :
    PowerSums A M T := by
  classical
  refine ⟨h0,?_⟩
  intro n hpos hn
  set A' : F[X] := 1+∑ k ∈ Finset.range M, if 0<k then C (∑ x ∈ T, x^k)*X^k else 0 with hA'
  have hc : ∀ k, k<M → A'.coeff k=if 0<k then ∑ x ∈ T, x^k else 1 := by
    intro k hk
    rw [hA',coeff_add,finsetSum_coeff,Finset.sum_eq_single k]
    · split_ifs with hkp
      · rw [coeff_one,if_neg (by omega),coeff_C_mul_X_pow,if_pos rfl,zero_add]
      · obtain rfl : k=0 := by omega
        simp
    · intro j _ hj
      split_ifs
      · rw [coeff_C_mul_X_pow,if_neg (Ne.symm hj)]
      · exact coeff_zero k
    · intro hk'
      exact absurd (Finset.mem_range.mpr hk) hk'
  have hps : PowerSums A' M T := by
    refine ⟨?_,?_⟩
    · rw [hc 0 (by omega),if_neg (by omega)]
    · intro k hk hkM
      rw [hc k hkM,if_pos hk]
  rw [coeff_eq_of_resid (locator_const T) h (resid_locator hps) hn,hps.2 n hpos hn]

/-- The locator of a set explains the power sums of the set. -/
theorem explains_locator {A : F[X]} {M : ℕ} (hA : PowerSums A M T) (h0 : (0 : F) ∉ T) :
    Explains A M T.card (locator T) where
  const := locator_const T
  degree := (locator_natDegree h0).le
  zero := by
    intro n hw hn
    have hr := X_pow_dvd_iff.mp (resid_locator hA) n hn
    have hd := locator_natDegree h0
    have hz : (locator T).coeff n=0 := coeff_eq_zero_of_natDegree_lt (by omega)
    rw [resid,coeff_add,coeff_add,hz,add_zero] at hr
    obtain ⟨k,rfl⟩ : ∃ k, n=k+1 := ⟨n-1,by omega⟩
    rw [coeff_X_mul,coeff_derivative,hz,zero_mul,add_zero] at hr
    exact hr

/-- The algorithm finds the locator of every set of at most `t` elements. -/
theorem RoundInv.eq_locator {A B D : F[X]} {t L Lp q : ℕ} {b : F}
    (h : RoundInv A (2*t+1) t D B L Lp q b) (hA : PowerSums A (2*t+1) T) (h0 : (0 : F) ∉ T)
    (hT : T.card≤t) : D=locator T ∧ L=T.card := by
  have hL : L≤T.card := h.minimal _ _ (explains_locator hA h0)
  have hdD : D.natDegree=L := natDegree_eq_of_degree_eq_some h.degree
  have hdT := locator_natDegree h0
  have h2 : (2 : F[X])=0 := CharTwo.two_eq_zero
  -- both locators satisfy Newton's identities, so the cross products agree
  have hx : X*(D*derivative (locator T)+locator T*derivative D)=0 := by
    have hdvd : X^(2*t+1) ∣ X*(D*derivative (locator T)+locator T*derivative D) := by
      have he : X*(D*derivative (locator T)+locator T*derivative D)=
          D*resid A (locator T)-locator T*resid A D := by
        unfold resid
        linear_combination (locator T*X*derivative D)*h2
      rw [he]
      exact dvd_sub (Dvd.dvd.mul_left (resid_locator hA) _) (Dvd.dvd.mul_left h.newton _)
    apply eq_zero_of_dvd_of_natDegree_lt hdvd
    rw [natDegree_X_pow]
    have h1 := natDegree_mul_le (p := (X : F[X]))
      (q := D*derivative (locator T)+locator T*derivative D)
    have h3 := natDegree_add_le (D*derivative (locator T)) (locator T*derivative D)
    have h4 := natDegree_mul_le (p := D) (q := derivative (locator T))
    have h5 := natDegree_mul_le (p := locator T) (q := derivative D)
    have h6 := natDegree_derivative_le (locator T)
    have h7 := natDegree_derivative_le D
    rw [natDegree_X] at h1
    rcases Nat.eq_zero_or_pos (D*derivative (locator T)+locator T*derivative D).natDegree with hz | hp
    · rcases Nat.eq_zero_or_pos t with rfl | ht
      · -- without errors both locators are constant
        have hT0 : T=∅ := Finset.card_eq_zero.mp (by omega)
        have hD0 : D=C (D.coeff 0) := eq_C_of_natDegree_eq_zero (by omega)
        rw [hT0,hD0]
        simp [locator]
      · omega
    · omega
  have hcross : D*derivative (locator T)=locator T*derivative D := by
    have hz := (mul_eq_zero.mp hx).resolve_left X_ne_zero
    linear_combination hz-(locator T*derivative D)*h2
  have hdvd : locator T ∣ D := by
    have hs : IsCoprime (locator T) (derivative (locator T)) := locator_separable T
    exact hs.dvd_of_dvd_mul_right ⟨derivative D,hcross⟩
  obtain ⟨Q,hQ⟩ := hdvd
  have hD0 : D≠0 := by
    intro hz
    have := h.const
    rw [hz,coeff_zero] at this
    exact zero_ne_one this
  have hQ0 : Q≠0 := right_ne_zero_of_mul (hQ ▸ hD0)
  have hl0 : locator T≠0 := left_ne_zero_of_mul (hQ ▸ hD0)
  have hdeg : D.natDegree=(locator T).natDegree+Q.natDegree := by
    rw [hQ,natDegree_mul hl0 hQ0]
  have hQ1 : Q=1 := by
    have hq : Q=C (Q.coeff 0) := eq_C_of_natDegree_eq_zero (by omega)
    have hc := h.const
    rw [hQ,mul_coeff_zero,locator_const,one_mul] at hc
    rw [hq,hc,C_1]
  exact ⟨by rw [hQ,hQ1,mul_one],by omega⟩

omit [CharP F 2] in
/-- A minimal locator has no repeated factor. -/
theorem RoundInv.separable {A B D : F[X]} {t L Lp q : ℕ} {b : F}
    (h : RoundInv A (2*t+1) t D B L Lp q b) : D.Separable := by
  classical
  have hdD : D.natDegree=L := natDegree_eq_of_degree_eq_some h.degree
  have hD0 : D≠0 := by
    intro hz
    have := h.const
    rw [hz,coeff_zero] at this
    exact zero_ne_one this
  obtain ⟨E,hE⟩ := EuclideanDomain.gcd_dvd_left D (derivative D)
  obtain ⟨E',hE'⟩ := EuclideanDomain.gcd_dvd_right D (derivative D)
  set g := EuclideanDomain.gcd D (derivative D) with hg
  have hg0 : g≠0 := left_ne_zero_of_mul (hE ▸ hD0)
  have hE0 : E≠0 := right_ne_zero_of_mul (hE ▸ hD0)
  have hc : g.coeff 0*E.coeff 0=1 := by rw [←mul_coeff_zero,←hE,h.const]
  have hgc : g.coeff 0≠0 := left_ne_zero_of_mul (hc ▸ one_ne_zero)
  have hEc : E.coeff 0≠0 := right_ne_zero_of_mul (hc ▸ one_ne_zero)
  have hdeg : L=g.natDegree+E.natDegree := by rw [←hdD,hE,natDegree_mul hg0 hE0]
  -- dividing the key equation by the common factor gives a shorter recurrence
  have hshort : X^(2*t+1) ∣ E*A+E+X*E' := by
    have hcop : IsCoprime (X^(2*t+1) : F[X]) g := by
      apply IsCoprime.pow_left
      rw [(prime_X (R := F)).coprime_iff_not_dvd,X_dvd_iff]
      exact hgc
    apply hcop.dvd_of_dvd_mul_left
    have he : g*(E*A+E+X*E')=resid A D := by
      unfold resid
      rw [hE']
      conv_rhs => rw [hE]
      ring
    rw [he]
    exact h.newton
  have hXE : (X*E').natDegree≤E.natDegree := by
    by_cases hz : derivative D=0
    · have hE'0 : E'=0 := (mul_eq_zero.mp (hE'.symm.trans hz)).resolve_left hg0
      simp [hE'0]
    · have hpos : D.natDegree≠0 := by
        intro hn
        rw [eq_C_of_natDegree_eq_zero hn,derivative_C] at hz
        exact hz rfl
      have hE'0 : E'≠0 := right_ne_zero_of_mul (hE' ▸ hz)
      have hl := natDegree_derivative_lt hpos
      rw [hE',natDegree_mul hg0 hE'0] at hl
      rw [natDegree_mul X_ne_zero hE'0,natDegree_X]
      omega
  have hex : Explains A (2*t+1) E.natDegree (C (E.coeff 0)⁻¹*E) := by
    refine ⟨?_,?_,?_⟩
    · rw [coeff_C_mul,inv_mul_cancel₀ hEc]
    · rw [natDegree_C_mul (inv_ne_zero hEc)]
    · intro n hn hnM
      have hr := X_pow_dvd_iff.mp hshort n hnM
      rw [coeff_add,coeff_add,coeff_eq_zero_of_natDegree_lt hn,
        coeff_eq_zero_of_natDegree_lt (lt_of_le_of_lt hXE hn),add_zero,add_zero] at hr
      rw [mul_assoc,coeff_C_mul,hr,mul_zero]
  have hmin := h.minimal _ _ hex
  have hgu : IsUnit g := by
    rw [isUnit_iff_degree_eq_zero,degree_eq_natDegree hg0,Nat.cast_eq_zero]
    omega
  exact EuclideanDomain.gcd_isUnit_iff.mp hgu

end Pattern
end ArdroneKernel.KeyEquation
