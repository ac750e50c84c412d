import ArdroneKernel.BchFinders

/-!
# The generator of the code

What `compute_generator_polynomial` has to build: a product of factors over
the marked exponents that is the least common multiple of the minimal
polynomials of the first odd powers, without a write outside `g`, `roots`
or `genpoly`. The guard of `init_bch` bounds the degree by the codeword size
only while the product `m*t` does not wrap around.
-/

namespace ArdroneKernel.BchGeneratorCode

open Polynomial BitPolynomial PrimitivePolynomial BchInit BchField BchPolynomial BchGenerator
  BchRoots BchAcceptance

/-- The index into `roots` after `j` doublings of an exponent. -/
def cosetIndex (bch : BchControl) (r j : ℕ) : ℕ := (fun r => modS bch (2*r))^[j] r

/-- What the generator has to be, and how it is stored. -/
structure BuildsGenerator {F : Type*} [Field F] [Algebra (ZMod 2) F] (α : F) (bch : BchControl) : Prop where
  /-- The writes to `roots`. -/
  rootsInside : ∀ i<bch.t, ∀ j<bch.m, cosetIndex bch (2*i+1) j<bch.n+1
  /-- The coefficients fit in `g`. -/
  coeffsInside : (generatorCoeffs bch).length≤bch.m*bch.t+1
  /-- The words fit in `genpoly`. -/
  wordsInside : (computeGeneratorPolynomial bch).1.length≤(bch.m*bch.t+1+31)/32
  /-- The coefficients are bits. -/
  binary : ∀ i, (generatorCoeffs bch).getD i 0=0 ∨ (generatorCoeffs bch).getD i 0=1
  /-- The factors multiplied. -/
  product : listPoly α (generatorCoeffs bch)=
    ∏ i ∈ (Finset.range bch.n).filter fun i => (markRoots bch).getD i 0≠0, (X+C (α^i))
  /-- Every minimal polynomial is a factor. -/
  multiple : ∀ i<bch.t, minpoly (ZMod 2) (α^(2*i+1)) ∣ generator bch
  /-- The generator divides every common multiple. -/
  least : ∀ V, (∀ i<bch.t, minpoly (ZMod 2) (α^(2*i+1)) ∣ V) → generator bch ∣ V
  /-- It is monic. -/
  monic : (generator bch).Monic
  /-- Its degree is the size of the parity, which is at most `m*t`. -/
  degree : (generator bch).natDegree=bch.eccBits ∧ bch.eccBits≤bch.m*bch.t
  /-- It divides the polynomial of the cyclic code. -/
  cyclic : generator bch ∣ X^bch.n+1
  /-- The words hold its coefficients, the highest first. -/
  packed : ∀ j b, b<32 → ((computeGeneratorPolynomial bch).1.getD j 0).testBit b=
    decide (32*j+(31-b)≤bch.eccBits ∧ (generator bch).coeff (bch.eccBits-(32*j+(31-b)))≠0)

theorem length_genpolyWords (c : List ℕ) (fuel n : ℕ) : (genpolyWords c fuel n).length≤(n+31)/32 := by
  induction fuel generalizing n with
  | zero => exact Nat.zero_le _
  | succ fuel ih =>
    rw [genpolyWords]
    split
    · dsimp only
      rw [List.length_cons]
      split
      · have := ih (n-32)
        omega
      · have := ih (n-n)
        omega
    · exact Nat.zero_le _

variable {bch : BchControl}

/-- The doublings of an exponent stay below the order. -/
theorem cosetIndex_lt {r : ℕ} (hr : r<bch.n) (j : ℕ) : cosetIndex bch r j<bch.n := by
  induction j with
  | zero => exact hr
  | succ j ih =>
    obtain ⟨he,hlt⟩ := modS_double ih
    rw [cosetIndex,Function.iterate_succ_apply']
    exact he.symm ▸ hlt

section Field

variable {F : Type*} [Field F] [CharP F 2] [Algebra (ZMod 2) F] {α : F}

omit [CharP F 2] in
/-- Vanishing at the odd powers is vanishing at all of the first `2t`. -/
theorem vanishes_of_odd {t : ℕ} {V : (ZMod 2)[X]} (hV : ∀ i<t, aeval (α^(2*i+1)) V=0) {j : ℕ}
    (h1 : 1≤j) (hj : j≤2*t) : aeval (α^j) V=0 := by
  obtain ⟨e,q,⟨i,rfl⟩,rfl⟩ := Nat.exists_eq_two_pow_mul_odd (Nat.ne_of_gt h1)
  have hle : 2*i+1≤2^e*(2*i+1) := Nat.le_mul_of_pos_left _ (Nat.two_pow_pos e)
  rw [Nat.mul_comm,pow_mul,aeval_pow_two_pow,hV i (by omega),zero_pow (Nat.two_pow_pos e).ne']

/-- While the exponents fit in `roots` the generator is the right one. -/
theorem buildsGenerator (h : FieldTables α bch) (hb : Built bch) (hsize : 2*bch.t≤bch.n) :
    BuildsGenerator α bch := by
  obtain ⟨hmonic,hdeg⟩ := monic_generator bch
  obtain ⟨hs,he⟩ := generatorCoeffs_spec h
  obtain ⟨-,hlen,-⟩ := length_generatorCoeffs bch
  have hdvd := generator_dvd_iff h hsize
  have hself := (hdvd (generator bch)).mp dvd_rfl
  have hecc := hb.eccBits_eq
  have hword : (computeGeneratorPolynomial bch).2=(generatorCoeffs bch).length-1 := rfl
  refine ⟨?_,hlen,?_,?_,he,?_,?_,hmonic,⟨hdeg.trans hecc.symm,by omega⟩,?_,?_⟩
  · intro i hi j _
    have := @cosetIndex_lt bch (2*i+1) (by omega) j
    omega
  · have hl := length_genpolyWords (generatorCoeffs bch) (generatorCoeffs bch).length (generatorCoeffs bch).length
    change (genpolyWords (generatorCoeffs bch) _ _).length≤_
    omega
  · intro i
    by_cases hz : (generatorCoeffs bch).getD i 0=0
    · exact Or.inl hz
    · -- over the field the coefficient is that of a binary polynomial
      have hc := congrArg (fun p => p.coeff i) ((map_generator h hsize).trans he.symm)
      rw [coeff_map,coeff_generator,if_pos hz,map_one,coeff_listPoly] at hc
      exact Or.inr ((BchFinders.bitSum_eq_one h (hs i)).mp hc.symm)
  · intro i hi
    exact (minpoly.dvd_iff).mpr (hself (2*i+1) (by omega) (by omega))
  · intro V hV
    exact (hdvd V).mpr fun j h1 hj => vanishes_of_odd (fun i hi => minpoly.dvd_iff.mp (hV i hi)) h1 hj
  · refine (hdvd _).mpr fun j _ _ => ?_
    rw [map_add,map_pow,aeval_X,map_one,←pow_mul,Nat.mul_comm,pow_mul,h.pow_n,one_pow,
      CharTwo.add_self_eq_zero]
  · intro j b hb32
    rw [testBit_genpoly bch hb32,hecc,coeff_generator]
    apply decide_eq_decide.mpr
    apply and_congr_right
    intro _
    split
    · next hne => exact ⟨fun _ => one_ne_zero,fun _ => hne⟩
    · next hz => exact ⟨fun hne => absurd hne hz,fun hne => absurd rfl hne⟩

end Field

/-- An accepted product that wraps around comes from an exponent that is
too large for `roots`. -/
theorem wrapped_outside {m t : ℤ} (ha : paramsAccepted m t=true) (hm : bch.m=m.toNat) (ht : bch.t=t.toNat)
    (hn : bch.n=2^bch.m-1) (hsize : 2^m.toNat-1≤ m*t) :
    ¬∀ i<bch.t, ∀ j<bch.m, cosetIndex bch (2*i+1) j<bch.n+1 := by
  obtain ⟨h5,h15,h1,hw⟩ := (paramsAccepted_iff m t).mp ha
  intro hall
  have hlast := hall (bch.t-1) (by omega) 0 (by omega)
  have hlast' : 2*(bch.t-1)+1<bch.n+1 := hlast
  have hpow : bch.n<2^15 := by
    have := Nat.pow_le_pow_right (n := 2) (by omega) (show bch.m≤15 by omega)
    have := Nat.two_pow_pos bch.m
    omega
  have hsmall : m*t<2^31 := by
    have htlt : t<2^15 := by omega
    calc m*t≤15*t := by nlinarith
      _<2^31 := by omega
  have hpos : 0≤ m*t := by positivity
  have hself : (m*t).bmod (2^32)=m*t := Int.bmod_eq_of_le (by omega) (by omega)
  omega

variable {uninit : ℕ → ℕ → ℕ} {m t : ℤ} {primPoly : ℕ}

/-- For a primitive polynomial that `init_bch` accepts, the generator is
built as it should be exactly when the product `m*t` did not wrap around. -/
theorem buildsGenerator_iff (hb : initBch uninit m t primPoly=some bch)
    (hp : IsPrimitivePoly (bitPoly (choosePoly m.toNat primPoly))) :
    haveI : Fact (Irreducible (bitPoly (choosePoly m.toNat primPoly))) := ⟨hp.1⟩
    BuildsGenerator (AdjoinRoot.root (bitPoly (choosePoly m.toNat primPoly))) bch ↔ m*t<2^m.toNat-1 := by
  have : Fact (Irreducible (bitPoly (choosePoly m.toNat primPoly))) := ⟨hp.1⟩
  have hchar : CharP (AdjoinRoot (bitPoly (choosePoly m.toNat primPoly))) 2 :=
    charP_adjoinRoot hp.1.natDegree_pos
  obtain ⟨h,-⟩ := initBch_tables hb hp
  obtain ⟨hbuilt,hm,ht,ha,-⟩ := initBch_built uninit hb
  obtain ⟨h5,-,h1,-⟩ := (paramsAccepted_iff m t).mp ha
  constructor
  · intro hg
    by_contra hsize
    exact wrapped_outside ha hm ht hbuilt.n_eq (by omega) hg.rootsInside
  · intro hsize
    apply buildsGenerator h hbuilt
    have hn := hbuilt.n_eq
    have h5t : 5*t≤ m*t := by nlinarith
    have hcast : ((2^bch.m : ℕ) : ℤ)=2^m.toNat := by rw [hm]; push_cast; rfl
    have := Nat.two_pow_pos bch.m
    omega

/-- The default polynomial of the order eight is primitive. -/
theorem primitive_eight : IsPrimitivePoly (bitPoly (choosePoly (8 : ℤ).toNat 0)) := by
  obtain ⟨bch,hb⟩ : ∃ bch, initBch (fun _ _ => 0) 8 1 0=some bch := by
    apply Option.isSome_iff_exists.mp
    decide +kernel
  exact BchForms.primitive_of_initBch hb (by decide)

/-- One error and the order eight. -/
theorem buildsGenerator_iff_example : ∃ bch, initBch (fun _ _ => 0) 8 1 0=some bch ∧
    haveI : Fact (Irreducible (bitPoly (choosePoly (8 : ℤ).toNat 0))) := ⟨primitive_eight.1⟩
    BuildsGenerator (AdjoinRoot.root (bitPoly (choosePoly (8 : ℤ).toNat 0))) bch := by
  have hd : ((bitPoly (choosePoly (8 : ℤ).toNat 0)).natDegree : ℤ)=8 := by
    have hn := (natDegree_bitPoly_iff (p := choosePoly (8 : ℤ).toNat 0) (k := 8) (by decide)).mpr (by decide)
    rw [hn]
    rfl
  obtain ⟨bch,hb,-⟩ := initBch_primitive (fun _ _ => 0) (m := 8) (t := 1) (by decide) hd primitive_eight
  exact ⟨bch,hb,(buildsGenerator_iff hb primitive_eight).mpr (by decide)⟩

/-- With `t` one above `2^30` the product of the order eight wraps around to
eight, and the exponents leave `roots`. -/
theorem exponents_outside : ∃ bch, initBch (fun _ _ => 0) 8 (2^30+1) 0=some bch ∧
    ∀ (F : Type) [Field F] [Algebra (ZMod 2) F] (α : F), ¬BuildsGenerator α bch := by
  have hd : ((bitPoly (choosePoly (8 : ℤ).toNat 0)).natDegree : ℤ)=8 := by
    have hn := (natDegree_bitPoly_iff (p := choosePoly (8 : ℤ).toNat 0) (k := 8) (by decide)).mpr (by decide)
    rw [hn]
    rfl
  obtain ⟨bch,hb,-⟩ := initBch_primitive (fun _ _ => 0) (m := 8) (t := 2^30+1) (by decide) hd primitive_eight
  obtain ⟨hbuilt,hm,ht,ha,-⟩ := initBch_built _ hb
  exact ⟨bch,hb,fun F _ _ α hg => wrapped_outside ha hm ht hbuilt.n_eq (by decide) hg.rootsInside⟩

end ArdroneKernel.BchGeneratorCode
