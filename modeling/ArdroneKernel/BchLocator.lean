import ArdroneKernel.BchPolynomial
import ArdroneKernel.BchTables
import ArdroneKernel.KeyEquation

/-!
# The error locator polynomial

Every round of `compute_error_locator_polynomial` is a round of the binary
Berlekamp-Massey algorithm on the polynomials that the arrays stand for.
After the last round the locator is a shortest recurrence of the
syndromes, and for the syndromes of at most `t` errors it is their locator.
-/

namespace ArdroneKernel.BchLocator

open Polynomial BitPolynomial ArrayList KeyEquation BchInit BchField BchDecode BchPolynomial

variable {F : Type*} [Field F] {α : F} {bch : BchControl}

/-- The syndromes as power sums, behind a constant term one. -/
noncomputable def syndromePoly (α : F) (syn : List ℕ) : F[X] := 1+X*listPoly α syn

theorem coeff_syndromePoly_zero (α : F) (syn : List ℕ) : (syndromePoly α syn).coeff 0=1 := by
  simp [syndromePoly]

theorem coeff_syndromePoly_succ (α : F) (syn : List ℕ) (n : ℕ) :
    (syndromePoly α syn).coeff (n+1)=bitSum α (syn.getD n 0) := by
  rw [syndromePoly,coeff_add,coeff_one,if_neg (by omega),zero_add,coeff_X_mul,coeff_listPoly]

/-- The syndromes are field elements, and the even ones are squares. -/
structure Syndromes (α : F) (bch : BchControl) (syn : List ℕ) : Prop where
  /-- There are `2t` of them. -/
  length : syn.length=2*bch.t
  /-- They are field elements. -/
  small : Small bch.m syn
  /-- The even ones are squares of earlier ones. -/
  square : ∀ j<bch.t, bitSum α (syn.getD (2*j+1) 0)=bitSum α (syn.getD j 0)^2

variable [CharP F 2] {syn : List ℕ}

/-- Squaring a polynomial squares its coefficients and doubles their places. -/
theorem coeff_sq (p : F[X]) (n : ℕ) : (p^2).coeff n=if 2 ∣ n then p.coeff (n/2)^2 else 0 := by
  rw [←map_frobenius_expand 2,coeff_map,coeff_expand (by omega)]
  split
  · rfl
  · rw [map_zero]

/-- Conjugate syndromes. -/
theorem Syndromes.conjugate (hs : Syndromes α bch syn) :
    Conjugate (syndromePoly α syn) (2*bch.t+1) := by
  refine ⟨coeff_syndromePoly_zero α syn,?_⟩
  rw [X_pow_dvd_iff]
  intro n hn
  rw [coeff_add,coeff_add,coeff_sq]
  cases n with
  | zero =>
    rw [if_pos (dvd_zero 2),Nat.zero_div,coeff_X_mul_zero,coeff_syndromePoly_zero,zero_add,one_pow,
      CharTwo.add_self_eq_zero]
  | succ n =>
    rw [coeff_X_mul,coeff_derivative,coeff_syndromePoly_succ]
    rcases Nat.even_or_odd' n with ⟨k,rfl | rfl⟩
    · have h1 : ((2*k : ℕ) : F)+1=1 := by
        push_cast
        rw [CharTwo.two_eq_zero,zero_mul,zero_add]
      rw [h1,mul_one,if_neg (by omega),add_zero,CharTwo.add_self_eq_zero]
    · have h1 : ((2*k+1 : ℕ) : F)+1=0 := by
        push_cast
        rw [CharTwo.two_eq_zero,zero_mul,zero_add,CharTwo.add_self_eq_zero]
      have hd : (2*k+1+1)/2=k+1 := by omega
      rw [h1,mul_zero,zero_add,if_pos (by omega),hd,coeff_syndromePoly_succ,hs.square k (by omega),
        CharTwo.add_self_eq_zero]

/-- The state before round `i`, read over the field. -/
structure LocInv (α : F) (bch : BchControl) (A : F[X]) (i : ℕ) (st : ElpState) (q : ℕ) : Prop where
  /-- The invariant of the algorithm. -/
  round : RoundInv A (2*bch.t+1) i (listPoly α st.elp.c) (listPoly α st.pelp.c) st.elp.deg st.pelp.deg q
    (bitSum α st.pd)
  /-- The variable `pp` is one below the order of the last change. -/
  order : st.pp=(q : ℤ)-1
  /-- The discrepancy of this round. -/
  discrepancy : i<bch.t → bitSum α st.d=(resid A (listPoly α st.elp.c)).coeff (2*i+1) ∧ st.d<2^bch.m
  /-- The discrepancy of the last change is a field element. -/
  previous : st.pd<2^bch.m
  /-- The locator array has its full size. -/
  length : st.elp.c.length=2*bch.t+1
  /-- Coefficients of the locator. -/
  small : Small bch.m st.elp.c
  /-- Coefficients of the earlier polynomial. -/
  prevSmall : Small bch.m st.pelp.c

/-- The next discrepancy is the first coefficient not yet known to vanish. -/
theorem elpDiscrepancy_spec (h : FieldTables α bch) (hs : Syndromes α bch syn) {elp : GfPoly}
    {i : ℕ} (hsm : Small bch.m elp.c) (hc : (listPoly α elp.c).coeff 0=1)
    (hd : (listPoly α elp.c).degree=elp.deg) (hle : elp.deg≤2*i+2) :
    elpDiscrepancy bch syn elp i<2^bch.m ∧ bitSum α (elpDiscrepancy bch syn elp i)=
      (resid (syndromePoly α syn) (listPoly α elp.c)).coeff (2*(i+1)+1) := by
  have hlt : ∀ j, gfMul bch (elp.c.getD (j+1) 0) (syn.getD (2*i+2-(j+1)) 0)<2^bch.m :=
    fun j => h.gfMul_lt (hsm _) (hs.small _)
  unfold elpDiscrepancy
  refine ⟨BchTables.foldl_xor_lt _ _ _ (hs.small _) fun j _ => hlt j,?_⟩
  rw [BchTables.bitSum_foldl_xor]
  set p := listPoly α elp.c with hp
  set A := syndromePoly α syn with hA
  have hodd : (X*derivative p).coeff (2*(i+1)+1)=p.coeff (2*(i+1)+1) := by
    rw [coeff_X_mul,coeff_derivative]
    have h1 : ((2*(i+1) : ℕ) : F)+1=1 := by
      push_cast
      rw [CharTwo.two_eq_zero,zero_mul,zero_add]
    rw [h1,mul_one]
  rw [resid,coeff_add,coeff_add,hodd,add_assoc,CharTwo.add_self_eq_zero,add_zero,coeff_mul,
    Finset.Nat.sum_antidiagonal_eq_sum_range_succ (fun a b => p.coeff a*A.coeff b)]
  -- only the coefficients up to the degree contribute
  have hcut : ∑ k ∈ Finset.range (2*(i+1)+1).succ, p.coeff k*A.coeff (2*(i+1)+1-k)=
      ∑ k ∈ Finset.range (elp.deg+1), p.coeff k*A.coeff (2*(i+1)+1-k) := by
    symm
    apply Finset.sum_subset
    · intro k hk
      have := Finset.mem_range.mp hk
      exact Finset.mem_range.mpr (by omega)
    · intro k _ hk
      have hgt : elp.deg<k := by
        have := Finset.mem_range.not.mp hk
        omega
      rw [coeff_eq_zero_of_degree_lt (by rw [hd]; exact_mod_cast hgt),zero_mul]
  rw [hcut,Finset.sum_range_succ',hc,one_mul,Nat.sub_zero,hA,coeff_syndromePoly_succ,add_comm,
    show 2*(i+1)=2*i+2 by ring]
  congr 1
  apply Finset.sum_congr rfl
  intro j hj
  have hjd := Finset.mem_range.mp hj
  have hsub : 2*i+2+1-(j+1)=(2*i+2-(j+1))+1 := by omega
  rw [hsub,coeff_syndromePoly_succ,h.bitSum_gfMul (hsm _) (hs.small _),hp,coeff_listPoly]

/-- The correction adds a shifted multiple of the earlier polynomial. -/
theorem elpCorrect_spec (h : FieldTables α bch) {st : ElpState} {k : ℕ} (hd : st.d<2^bch.m)
    (hd0 : st.d≠0) (hpd : st.pd<2^bch.m) (hpd0 : st.pd≠0) (hsm : Small bch.m st.elp.c)
    (hpsm : Small bch.m st.pelp.c) (hdeg : (listPoly α st.pelp.c).degree=st.pelp.deg)
    (hlen : st.pelp.deg+k<st.elp.c.length) :
    (elpCorrect bch st k).length=st.elp.c.length ∧ Small bch.m (elpCorrect bch st k) ∧
      listPoly α (elpCorrect bch st k)=
        listPoly α st.elp.c+C (bitSum α st.d/bitSum α st.pd)*(X^k*listPoly α st.pelp.c) := by
  set f : ℕ → Option ℕ := fun j => if st.pelp.c.getD j 0≠0 then
    some (aPow bch (aLog bch st.d+bch.n-aLog bch st.pd+aLog bch (st.pelp.c.getD j 0))) else none with hf
  have hfold : elpCorrect bch st k=(List.range (st.pelp.deg+1)).foldl
      (fun c i => addAt c (k+i) (f i)) st.elp.c := by
    unfold elpCorrect
    dsimp only
    congr 1
    funext c j
    rw [hf]
    dsimp only
    split
    · rw [Nat.add_comm]
      rfl
    · rfl
  have hval : ∀ j, (f j).getD 0<2^bch.m ∧
      bitSum α ((f j).getD 0)=bitSum α st.d/bitSum α st.pd*bitSum α (st.pelp.c.getD j 0) := by
    intro j
    rw [hf]
    dsimp only
    split
    · next hne =>
      have hl := h.aLog_lt hpd
      rw [Option.getD_some]
      refine ⟨h.aPow_lt _,?_⟩
      rw [h.bitSum_aPow,pow_add,h.pow_aLog hne (hpsm j)]
      have hsplit : α^(aLog bch st.d+bch.n-aLog bch st.pd)*α^aLog bch st.pd=α^aLog bch st.d := by
        rw [←pow_add,Nat.sub_add_cancel (by omega),pow_add,h.pow_n,mul_one]
      rw [h.pow_aLog hd0 hd,h.pow_aLog hpd0 hpd] at hsplit
      rw [div_mul_eq_mul_div,eq_div_iff (h.bitSum_ne_zero hpd0 hpd),←hsplit]
      ring
    · next hz =>
      rw [not_not.mp hz,Option.getD_none,bitSum_zero,mul_zero]
      exact ⟨Nat.two_pow_pos _,rfl⟩
  obtain ⟨hl,hg⟩ := getD_addWindow k f st.elp.c (st.pelp.deg+1) (by omega)
  rw [←hfold] at hl hg
  refine ⟨hl,?_,?_⟩
  · intro j
    rw [hg]
    split
    · exact Nat.xor_lt_two_pow (hsm j) (hval _).1
    · exact hsm j
  · ext j
    rw [coeff_listPoly,hg,coeff_add,coeff_listPoly,coeff_C_mul,coeff_X_pow_mul']
    by_cases hk : k≤j
    · rw [if_pos hk]
      by_cases hj : j<k+(st.pelp.deg+1)
      · rw [if_pos ⟨hk,hj⟩,bitSum_xor,(hval _).2,coeff_listPoly]
      · rw [if_neg (by omega),coeff_eq_zero_of_degree_lt
          (by rw [hdeg]; exact_mod_cast (by omega : st.pelp.deg<j-k)),mul_zero,add_zero]
    · rw [if_neg (by omega),if_neg hk,mul_zero,add_zero]

/-- The first half of a round. -/
theorem elpUpdate_spec (h : FieldTables α bch) (hs : Syndromes α bch syn) {i q : ℕ} {st : ElpState}
    (hi : i<bch.t) (hinv : LocInv α bch (syndromePoly α syn) i st q) :
    ∃ q', RoundInv (syndromePoly α syn) (2*bch.t+1) (i+1) (listPoly α (elpUpdate bch st i).elp.c)
        (listPoly α (elpUpdate bch st i).pelp.c) (elpUpdate bch st i).elp.deg
        (elpUpdate bch st i).pelp.deg q' (bitSum α (elpUpdate bch st i).pd) ∧
      (elpUpdate bch st i).pp=(q' : ℤ)-1 ∧ (elpUpdate bch st i).pd<2^bch.m ∧
      (elpUpdate bch st i).elp.c.length=2*bch.t+1 ∧ Small bch.m (elpUpdate bch st i).elp.c ∧
      Small bch.m (elpUpdate bch st i).pelp.c := by
  have hconj := hs.conjugate
  have hround := hinv.round
  obtain ⟨hdisc,hdlt⟩ := hinv.discrepancy hi
  have hM : 2*i+3≤2*bch.t+1 := by omega
  have hbef := hround.before
  have hlens := hround.lengths
  unfold elpUpdate
  split
  · next hd0 =>
    have hne : (resid (syndromePoly α syn) (listPoly α st.elp.c)).coeff (2*i+1)≠0 := by
      rw [←hdisc]
      exact h.bitSum_ne_zero hd0 hdlt
    have hpd0 : st.pd≠0 := by
      intro hz
      apply hround.prevNe
      rw [hz,bitSum_zero]
    have hk : (2*(i : ℤ)-st.pp).toNat=2*i+1-q := by
      rw [hinv.order]
      omega
    dsimp only
    rw [hk]
    have htmp : st.pelp.deg+(2*i+1-q)=2*i+1-st.elp.deg := by omega
    obtain ⟨hcl,hcs,hcp⟩ := elpCorrect_spec h (k := 2*i+1-q) hdlt hd0 hinv.previous hpd0 hinv.small
      hinv.prevSmall hround.prevDegree (by rw [hinv.length]; omega)
    have hcorr : listPoly α (elpCorrect bch st (2*i+1-q))=
        corrected (syndromePoly α syn) (listPoly α st.elp.c) (listPoly α st.pelp.c) i q (bitSum α st.pd) := by
      rw [hcp,corrected,hdisc]
    rw [htmp]
    split
    · next hlt =>
      refine ⟨2*i+1,?_,by push_cast; ring,hdlt,by rw [hcl]; exact hinv.length,hcs,hinv.small⟩
      dsimp only
      rw [hcorr,hdisc]
      exact hround.change hconj hM hne hlt
    · next hge =>
      refine ⟨q,?_,hinv.order,hinv.previous,by rw [hcl]; exact hinv.length,hcs,hinv.prevSmall⟩
      dsimp only
      rw [hcorr]
      exact hround.keep hconj hM hne (by omega)
  · next hd0 =>
    have hz : (resid (syndromePoly α syn) (listPoly α st.elp.c)).coeff (2*i+1)=0 := by
      rw [←hdisc,not_not.mp hd0,bitSum_zero]
    exact ⟨q,hround.skip hconj hM hz,hinv.order,hinv.previous,hinv.length,hinv.small,hinv.prevSmall⟩

/-- One whole round. -/
theorem elpRound_spec (h : FieldTables α bch) (hs : Syndromes α bch syn) {i q : ℕ} {st : ElpState}
    (hi : i<bch.t) (hinv : LocInv α bch (syndromePoly α syn) i st q) :
    ∃ q', LocInv α bch (syndromePoly α syn) (i+1) (if i<bch.t-1 then
      {elpUpdate bch st i with d := elpDiscrepancy bch syn (elpUpdate bch st i).elp i}
      else elpUpdate bch st i) q' := by
  obtain ⟨q',hround,hpp,hpd,hlen,hsm,hpsm⟩ := elpUpdate_spec h hs hi hinv
  refine ⟨q',?_⟩
  have hle : (elpUpdate bch st i).elp.deg≤2*i+2 := by
    have h1 := hround.lengths
    have h2 := hround.before
    omega
  split
  · obtain ⟨hlt,hd⟩ := elpDiscrepancy_spec h hs hsm hround.const hround.degree hle
    exact ⟨hround,hpp,fun _ => ⟨hd,hlt⟩,hpd,hlen,hsm,hpsm⟩
  · next hlast => exact ⟨hround,hpp,fun hlt => absurd hlt (by omega),hpd,hlen,hsm,hpsm⟩

/-- The loop ends after the last round, or in front of a round with a
locator that is longer than `t`. -/
theorem elpLoop_spec (h : FieldTables α bch) (hs : Syndromes α bch syn) (fuel i q : ℕ)
    (st : ElpState) (hf : i+fuel≤bch.t) (hinv : LocInv α bch (syndromePoly α syn) i st q) :
    ∃ i' q', LocInv α bch (syndromePoly α syn) i' (elpLoop bch syn fuel i st) q' ∧ i'≤ i+fuel ∧
      (i'=i+fuel ∨ bch.t<(elpLoop bch syn fuel i st).elp.deg) := by
  induction fuel generalizing i q st with
  | zero => exact ⟨i,q,hinv,le_rfl,Or.inl rfl⟩
  | succ fuel ih =>
    rw [elpLoop]
    split
    · obtain ⟨q',hinv'⟩ := elpRound_spec h hs (by omega) hinv
      rw [show i+(fuel+1)=i+1+fuel by ring]
      exact ih (i+1) q' _ (by omega) hinv'
    · next hgt => exact ⟨i,q,hinv,by omega,Or.inr (by omega)⟩

/-- The state before the first round. -/
theorem elpInit_spec (h : FieldTables α bch) (hs : Syndromes α bch syn) (ht : 0<bch.t) :
    LocInv α bch (syndromePoly α syn) 0 (elpInit bch syn) 0 := by
  have hone : listPoly α ((List.replicate (2*bch.t+1) 0).set 0 1)=1 := by
    ext j
    rw [coeff_listPoly,coeff_one,getD_set]
    by_cases hj : j=0
    · subst hj
      rw [if_pos ⟨rfl,by rw [List.length_replicate]; omega⟩,if_pos rfl,bitSum_one]
    · rw [if_neg (fun hc => hj hc.1.symm),if_neg hj]
      have hz := small_replicate 0 (2*bch.t+1) j
      have : (List.replicate (2*bch.t+1) 0).getD j 0=0 := by
        omega
      rw [this,bitSum_zero]
  have hr := h.range
  have h1 : 1<2^bch.m := Nat.one_lt_two_pow (by omega)
  have hsm : Small bch.m ((List.replicate (2*bch.t+1) 0).set 0 1) := (small_replicate _ _).set 0 h1
  refine ⟨?_,rfl,?_,h1,by rw [elpInit,List.length_set,List.length_replicate],hsm,hsm⟩
  · unfold elpInit
    rw [hone,bitSum_one]
    exact RoundInv.init hs.conjugate
  · intro _
    unfold elpInit
    rw [hone]
    refine ⟨?_,hs.small 0⟩
    rw [resid,one_mul,derivative_one,mul_zero,add_zero,coeff_add,coeff_one,if_neg (by omega),add_zero,
      coeff_syndromePoly_succ]

/-- A locator polynomial as the rest of the decoder uses it: the shortest
recurrence of the syndromes, of length at most `t`. -/
structure ShortestLocator (A : F[X]) (t : ℕ) (D : F[X]) : Prop where
  /-- The constant term is one. -/
  const : D.coeff 0=1
  /-- The length is at most the number of correctable errors. -/
  degree : D.natDegree≤t
  /-- Newton's identities hold for all syndromes. -/
  newton : X^(2*t+1) ∣ resid A D
  /-- No recurrence is shorter. -/
  minimal : ∀ w E, Explains A (2*t+1) w E → D.natDegree≤w

/-- What `compute_error_locator_polynomial` returns. -/
theorem computeErrorLocatorPolynomial_spec (h : FieldTables α bch) (hs : Syndromes α bch syn)
    (ht : 0<bch.t) :
    let r := computeErrorLocatorPolynomial bch syn
    r.2.c.length=2*bch.t+1 ∧ Small bch.m r.2.c ∧ (listPoly α r.2.c).degree=r.2.deg ∧
      ((r.1=-1 ∧ bch.t<r.2.deg ∧ ∀ w E, Explains (syndromePoly α syn) (2*bch.t+1) w E → bch.t<w) ∨
        (r.1=r.2.deg ∧ r.2.deg≤bch.t ∧ (listPoly α r.2.c).Separable ∧
          ShortestLocator (syndromePoly α syn) bch.t (listPoly α r.2.c))) := by
  obtain ⟨i,q,hinv,hit,hend⟩ := elpLoop_spec h hs bch.t 0 0 (elpInit bch syn) (Nat.zero_add _).le
    (elpInit_spec h hs ht)
  rw [Nat.zero_add] at hit hend
  unfold computeErrorLocatorPolynomial
  dsimp only
  set st := elpLoop bch syn bch.t 0 (elpInit bch syn) with hst
  refine ⟨hinv.length,hinv.small,hinv.round.degree,?_⟩
  by_cases hgt : bch.t<st.elp.deg
  · left
    rw [if_pos hgt]
    refine ⟨rfl,hgt,?_⟩
    intro w E hE
    have := hinv.round.minimal w E hE
    omega
  · right
    have hi : i=bch.t := hend.resolve_right hgt
    subst hi
    rw [if_neg hgt]
    have hnd : (listPoly α st.elp.c).natDegree=st.elp.deg := natDegree_eq_of_degree_eq_some hinv.round.degree
    refine ⟨rfl,by omega,hinv.round.separable,hinv.round.const,by omega,hinv.round.newton,?_⟩
    intro w E hE
    rw [hnd]
    exact hinv.round.minimal w E hE

/-- For the syndromes of at most `t` errors the result is their locator. -/
theorem computeErrorLocatorPolynomial_errors (h : FieldTables α bch) (hs : Syndromes α bch syn)
    (ht : 0<bch.t) {T : Finset F} (hT : PowerSums (syndromePoly α syn) (2*bch.t+1) T)
    (h0 : (0 : F) ∉ T) (hcard : T.card≤bch.t) :
    let r := computeErrorLocatorPolynomial bch syn
    r.1=T.card ∧ r.2.deg=T.card ∧ listPoly α r.2.c=locator T := by
  obtain ⟨i,q,hinv,hit,hend⟩ := elpLoop_spec h hs bch.t 0 0 (elpInit bch syn) (Nat.zero_add _).le
    (elpInit_spec h hs ht)
  rw [Nat.zero_add] at hit hend
  have hle := hinv.round.minimal _ _ (explains_locator hT h0)
  unfold computeErrorLocatorPolynomial
  dsimp only
  have hi : i=bch.t := hend.resolve_right (by omega)
  subst hi
  obtain ⟨heq,hdeg⟩ := hinv.round.eq_locator hT h0 hcard
  rw [if_neg (by omega),hdeg]
  exact ⟨rfl,rfl,heq⟩

end ArdroneKernel.BchLocator
