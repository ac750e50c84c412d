import ArdroneKernel.BchAcceptance
import ArdroneKernel.BchEncode
import ArdroneKernel.PackedPolynomial

/-!
# The generator polynomial and the remainder tables

The generator is read off the coefficients that
`compute_generator_polynomial` packs: a coefficient counts as one when it
is not zero. It is monic of degree `ecc_bits` for every structure that
`init_bch` returns, and the rows built by `build_mod8_tables` are the
remainders of its shifted multiples. Over tables that belong to a field
the coefficients are zeros and ones and the generator is the product of
the marked linear factors.
-/

namespace ArdroneKernel.BchGenerator

open Polynomial BitPolynomial PackedPolynomial ArrayList BchInit BchEncode BchAcceptance

section Coefficients

variable (bch : BchControl)

theorem length_mulRoot (r prev : ℕ) (c : List ℕ) : (mulRoot bch r prev c).length=c.length+1 := by
  induction c generalizing prev with
  | nil => rfl
  | cons x c ih => rw [mulRoot,List.length_cons,ih,List.length_cons]

/-- The product stays monic. -/
theorem mulRoot_top (r prev : ℕ) (c : List ℕ) : (mulRoot bch r prev c).getD c.length 0=1 := by
  induction c generalizing prev with
  | nil => rfl
  | cons x c ih =>
    exact ih x

/-- The loop over the roots adds one coefficient for each and stays monic. -/
theorem generatorLoop (k : ℕ) :
    let c := (List.range k).foldl (fun c i =>
      if (markRoots bch).getD i 0≠0 then mulRoot bch (bch.aPowTab.getD i 0) 0 c else c) [1]
    c.length=(List.range k).countP (fun i => (markRoots bch).getD i 0≠0)+1 ∧ c.getD (c.length-1) 0=1 := by
  induction k with
  | zero => exact ⟨rfl,rfl⟩
  | succ k ih =>
    obtain ⟨hl,ht⟩ := ih
    dsimp only
    rw [List.range_succ,List.foldl_append,List.foldl_cons,List.foldl_nil,List.countP_append]
    by_cases hk : (markRoots bch).getD k 0≠0
    · rw [if_pos hk,length_mulRoot,hl]
      have hone : List.countP (fun i => (markRoots bch).getD i 0≠0) [k]=1 := by simpa using hk
      refine ⟨by rw [hone],?_⟩
      have hmt := mulRoot_top bch (bch.aPowTab.getD k 0) 0 ((List.range k).foldl (fun c i =>
        if (markRoots bch).getD i 0≠0 then mulRoot bch (bch.aPowTab.getD i 0) 0 c else c) [1])
      rw [hl] at hmt
      simpa using hmt
    · rw [if_neg hk]
      have hzero : List.countP (fun i => (markRoots bch).getD i 0≠0) [k]=0 := by simpa using hk
      rw [hzero]
      exact ⟨hl,ht⟩

/-- How many cells of a list are set. -/
def cellsSet (l : List ℕ) : ℕ := l.countP (·≠0)

theorem cellsSet_set (l : List ℕ) (i v : ℕ) : cellsSet (l.set i v)≤cellsSet l+1 := by
  unfold cellsSet
  rcases Nat.lt_or_ge i l.length with hi | hi
  · rw [List.countP_set hi]
    split <;> split <;> omega
  · rw [List.set_eq_of_length_le hi]
    omega

theorem cellsSet_markCoset (fuel r : ℕ) (roots : List ℕ) :
    cellsSet (markCoset bch fuel r roots)≤cellsSet roots+fuel := by
  induction fuel generalizing r roots with
  | zero => exact Nat.le_refl _
  | succ fuel ih =>
    rw [markCoset]
    have h1 := ih (modS bch (2*r)) (roots.set r 1)
    have h2 := cellsSet_set roots r 1
    omega

theorem length_markCoset (fuel r : ℕ) (roots : List ℕ) :
    (markCoset bch fuel r roots).length=roots.length := by
  induction fuel generalizing r roots with
  | zero => rfl
  | succ fuel ih => rw [markCoset,ih,List.length_set]

theorem markRoots_loop (k : ℕ) :
    let roots := (List.range k).foldl (fun roots i => markCoset bch bch.m (2*i+1) roots)
      (List.replicate (bch.n+1) 0)
    roots.length=bch.n+1 ∧ cellsSet roots≤bch.m*k := by
  induction k with
  | zero =>
    refine ⟨List.length_replicate,?_⟩
    simp [cellsSet,List.countP_replicate]
  | succ k ih =>
    rw [List.range_succ,List.foldl_append,List.foldl_cons,List.foldl_nil]
    obtain ⟨hl,hc⟩ := ih
    refine ⟨by rw [length_markCoset,hl],le_trans (cellsSet_markCoset bch _ _ _) ?_⟩
    exact Nat.add_le_add_right hc _

/-- Counting over the indices is counting over the cells. -/
theorem countP_range_le (l : List ℕ) (k : ℕ) (hk : k≤l.length) :
    (List.range k).countP (fun i => l.getD i 0≠0)≤cellsSet l := by
  have hmap : (List.range k).map (fun i => l.getD i 0)=l.take k := by
    apply List.ext_getElem
    · simp [hk]
    · intro i h1 h2
      have hil : i<l.length := by
        have : i<k := by simpa using h1
        omega
      simp [hil]
  have hc : (List.range k).countP (fun i => l.getD i 0≠0)=(l.take k).countP (·≠0) := by
    rw [←hmap,List.countP_map]
    rfl
  rw [hc]
  exact (List.take_sublist k l).countP_le

/-- The degree of the generator is at most `m*t`. -/
theorem length_generatorCoeffs : 0<(generatorCoeffs bch).length ∧
    (generatorCoeffs bch).length≤bch.m*bch.t+1 ∧
    (generatorCoeffs bch).getD ((generatorCoeffs bch).length-1) 0=1 := by
  obtain ⟨hl,ht⟩ := generatorLoop bch bch.n
  obtain ⟨hrl,hrc⟩ := markRoots_loop bch bch.t
  have hcount := countP_range_le (markRoots bch) bch.n (by rw [markRoots,hrl]; omega)
  have hr : cellsSet (markRoots bch)≤bch.m*bch.t := hrc
  have hlen : (generatorCoeffs bch).length=
    (List.range bch.n).countP (fun i => (markRoots bch).getD i 0≠0)+1 := hl
  exact ⟨by omega,by omega,ht⟩

end Coefficients

section Words

variable (c : List ℕ)

/-- The bits of one packed word. -/
theorem testBit_genpolyWord (n nbits b : ℕ) (hn : nbits≤32) (hb : b<32) :
    (genpolyWord c n nbits).testBit b=decide (31-b<nbits ∧ c.getD (n-1-(31-b)) 0≠0) := by
  have hloop : ∀ k≤nbits, ((List.range k).foldl (fun word j =>
      if c.getD (n-1-j) 0≠0 then word|||(1<<<(31-j)) else word) 0).testBit b=
        decide (31-b<k ∧ c.getD (n-1-(31-b)) 0≠0) := by
    intro k hk
    induction k with
    | zero => simp
    | succ k ih =>
      have ihk := ih (by omega)
      rw [List.range_succ,List.foldl_append,List.foldl_cons,List.foldl_nil]
      have hshift : (1<<<(31-k)).testBit b=decide (31-b=k) := by
        rw [Nat.shiftLeft_eq,Nat.one_mul,Nat.testBit_two_pow]
        exact decide_eq_decide.mpr (by omega)
      split
      · next hc =>
        rw [Nat.testBit_or,ihk,hshift,←Bool.decide_or]
        apply decide_eq_decide.mpr
        constructor
        · rintro (⟨h1,h2⟩ | rfl)
          · exact ⟨by omega,h2⟩
          · exact ⟨by omega,hc⟩
        · rintro ⟨h1,h2⟩
          by_cases he : 31-b=k
          · exact Or.inr he
          · exact Or.inl ⟨by omega,h2⟩
      · next hc =>
        rw [ihk]
        apply decide_eq_decide.mpr
        constructor
        · rintro ⟨h1,h2⟩
          exact ⟨by omega,h2⟩
        · rintro ⟨h1,h2⟩
          refine ⟨?_,h2⟩
          by_contra hge
          have he : 31-b=k := by omega
          rw [he] at h2
          exact hc h2
  exact hloop nbits (Nat.le_refl _)

theorem genpolyWord_lt (n nbits : ℕ) : genpolyWord c n nbits<2^32 := by
  have hloop : ∀ k, (List.range k).foldl (fun word j =>
      if c.getD (n-1-j) 0≠0 then word|||(1<<<(31-j)) else word) 0<2^32 := by
    intro k
    induction k with
    | zero => norm_num
    | succ k ih =>
      rw [List.range_succ,List.foldl_append,List.foldl_cons,List.foldl_nil]
      split
      · apply Nat.or_lt_two_pow ih
        rw [Nat.shiftLeft_eq,Nat.one_mul]
        exact Nat.pow_lt_pow_right (by omega) (by omega)
      · exact ih
  exact hloop nbits

theorem fits_genpolyWords (fuel n : ℕ) : Fits 32 (genpolyWords c fuel n) := by
  induction fuel generalizing n with
  | zero => exact fun _ h => absurd h (List.not_mem_nil)
  | succ fuel ih =>
    rw [genpolyWords]
    split
    · exact fits_cons.mpr ⟨genpolyWord_lt _ _ _,ih _⟩
    · exact fun _ h => absurd h (List.not_mem_nil)

/-- The packed words hold the coefficients from the highest one down,
starting at the top of the first word. -/
theorem testBit_genpolyWords (fuel n j b : ℕ) (hf : n≤fuel) (hb : b<32) :
    ((genpolyWords c fuel n).getD j 0).testBit b=
      decide (32*j+(31-b)<n ∧ c.getD (n-1-(32*j+(31-b))) 0≠0) := by
  induction fuel generalizing n j with
  | zero =>
    have h0 : n=0 := by omega
    subst h0
    simp [genpolyWords]
  | succ fuel ih =>
    rw [genpolyWords]
    split
    · next hn =>
      cases j with
      | zero =>
        rw [List.getD_cons_zero,testBit_genpolyWord _ _ _ _ (by split <;> omega) hb,Nat.mul_zero,
          Nat.zero_add]
        apply decide_eq_decide.mpr
        have hiff : 31-b<(if 32<n then 32 else n) ↔ 31-b<n := by
          split <;> omega
        rw [hiff]
      | succ j =>
        rw [List.getD_cons_succ,ih _ _ (by split <;> omega)]
        apply decide_eq_decide.mpr
        by_cases h32 : 32<n
        · rw [if_pos h32]
          have hsub : n-32-1-(32*j+(31-b))=n-1-(32*(j+1)+(31-b)) := by omega
          rw [hsub]
          constructor
          · rintro ⟨h1,h2⟩
            exact ⟨by omega,h2⟩
          · rintro ⟨h1,h2⟩
            exact ⟨by omega,h2⟩
        · rw [if_neg h32]
          constructor
          · rintro ⟨h1,-⟩
            omega
          · rintro ⟨h1,-⟩
            omega
    · next hn =>
      have h0 : n=0 := by omega
      subst h0
      simp

end Words

/-- The generator polynomial, with the coefficients the library packs. -/
noncomputable def generator (bch : BchControl) : (ZMod 2)[X] :=
  ∑ i ∈ Finset.range (generatorCoeffs bch).length, if (generatorCoeffs bch).getD i 0≠0 then X^i else 0

section Generator

variable (bch : BchControl)

theorem coeff_generator (i : ℕ) :
    (generator bch).coeff i=if (generatorCoeffs bch).getD i 0≠0 then 1 else 0 := by
  rw [generator,finsetSum_coeff]
  rcases Nat.lt_or_ge i (generatorCoeffs bch).length with hi | hi
  · rw [Finset.sum_eq_single i]
    · split <;> simp
    · intro j _ hj
      split
      · rw [coeff_X_pow,if_neg (Ne.symm hj)]
      · simp
    · intro h
      exact absurd (Finset.mem_range.mpr hi) h
  · rw [getD_of_length_le _ hi,if_neg (not_not.mpr rfl)]
    apply Finset.sum_eq_zero
    intro j hj
    have := Finset.mem_range.mp hj
    split
    · rw [coeff_X_pow,if_neg (by omega)]
    · simp

theorem monic_generator : (generator bch).Monic ∧
    (generator bch).natDegree=(computeGeneratorPolynomial bch).2 := by
  obtain ⟨h0,-,htop⟩ := length_generatorCoeffs bch
  have hdeg : (computeGeneratorPolynomial bch).2=(generatorCoeffs bch).length-1 := rfl
  have hc : (generator bch).coeff ((generatorCoeffs bch).length-1)=1 := by
    rw [coeff_generator,htop,if_pos one_ne_zero]
  have hn : (generator bch).natDegree=(generatorCoeffs bch).length-1 := by
    apply natDegree_eq_of_le_of_coeff_ne_zero
    · rw [natDegree_le_iff_coeff_eq_zero]
      intro i hi
      rw [coeff_generator,getD_of_length_le _ (by omega),if_neg (not_not.mpr rfl)]
    · rw [hc]
      exact one_ne_zero
  exact ⟨by rw [Monic,leadingCoeff,hn,hc],by rw [hn,hdeg]⟩

/-- The bits of the packed generator are its coefficients. -/
theorem testBit_genpoly {j b : ℕ} (hb : b<32) :
    ((computeGeneratorPolynomial bch).1.getD j 0).testBit b=
      decide (32*j+(31-b)≤(computeGeneratorPolynomial bch).2 ∧
        (generatorCoeffs bch).getD ((computeGeneratorPolynomial bch).2-(32*j+(31-b))) 0≠0) := by
  obtain ⟨h0,-,-⟩ := length_generatorCoeffs bch
  have hdeg : (computeGeneratorPolynomial bch).2=(generatorCoeffs bch).length-1 := rfl
  have hw : (computeGeneratorPolynomial bch).1=
    genpolyWords (generatorCoeffs bch) (generatorCoeffs bch).length (generatorCoeffs bch).length := rfl
  rw [hw,testBit_genpolyWords _ _ _ _ _ (Nat.le_refl _) hb,hdeg]
  apply decide_eq_decide.mpr
  constructor
  · rintro ⟨h1,h2⟩
    exact ⟨by omega,h2⟩
  · rintro ⟨h1,h2⟩
    exact ⟨by omega,h2⟩

end Generator

section Rows

variable {bch : BchControl}

/-- The row that one round of the division loop adds. -/
def roundRow (g : List ℕ) (l ecclen d : ℕ) : List ℕ :=
  (List.range l).map fun j => if j<ecclen then
    (if d<31 then (g.getD j 0<<<(d+1))%2^32 else 0)|||(g.getD (j+1) 0>>>(31-d)) else 0

theorem testBit_roundRow {g : List ℕ} (hg : Fits 32 g) {l ecclen d j b : ℕ} (hd : d≤31) (hj : j<l)
    (hb : b<32) : ((roundRow g l ecclen d).getD j 0).testBit b=
      decide (j<ecclen ∧ if d<b then (g.getD j 0).testBit (b-(d+1))=true
        else (g.getD (j+1) 0).testBit (31-d+b)=true) := by
  rw [roundRow,getD_range_map _ _ hj]
  by_cases hje : j<ecclen
  · rw [if_pos hje,Nat.testBit_or,Nat.testBit_shiftRight]
    by_cases hdb : d<b
    · have hz : (g.getD (j+1) 0).testBit (31-d+b)=false := Nat.testBit_lt_two_pow
        (lt_of_lt_of_le (hg.getD _) (Nat.pow_le_pow_right (by omega) (by omega)))
      rw [hz,Bool.or_false,if_pos (by omega : d<31),Nat.testBit_mod_two_pow,Nat.testBit_shiftLeft]
      simp [hb,hje,hdb,show d+1≤b by omega]
    · have hz : (if d<31 then (g.getD j 0<<<(d+1))%2^32 else 0).testBit b=false := by
        split
        · rw [Nat.testBit_mod_two_pow,Nat.testBit_shiftLeft]
          simp [show ¬(d+1≤b) by omega]
        · exact Nat.zero_testBit b
      rw [hz,Bool.false_or]
      simp [hje,hdb]
  · simp [hje]

theorem length_roundRow (g : List ℕ) (l ecclen d : ℕ) : (roundRow g l ecclen d).length=l := by
  rw [roundRow,List.length_map,List.length_range]

theorem fits_roundRow {g : List ℕ} (hg : Fits 32 g) (l ecclen d : ℕ) :
    Fits 32 (roundRow g l ecclen d) := by
  apply fits_of_getD
  intro j hj
  rw [length_roundRow] at hj
  rw [roundRow,getD_range_map _ _ hj]
  split
  · apply Nat.or_lt_two_pow
    · split
      · exact Nat.mod_lt _ (by norm_num)
      · norm_num
    · exact lt_of_le_of_lt (Nat.shiftRight_le _ _) (hg.getD _)
  · norm_num

/-- One round adds a shifted multiple of the generator, the bits above
the row going into `data`. -/
theorem packed_round {l ecclen d : ℕ} (hd : d≤31)
    (hE : (computeGeneratorPolynomial bch).2≤32*l)
    (hec : ecclen=((computeGeneratorPolynomial bch).2+31)/32) :
    packed 32 (((computeGeneratorPolynomial bch).1.getD 0 0>>>(31-d))::
        roundRow (computeGeneratorPolynomial bch).1 l ecclen d)=
      X^d*(generator bch*X^(32*l-(computeGeneratorPolynomial bch).2)) := by
  obtain ⟨hmon,hnd⟩ := monic_generator bch
  have hg : Fits 32 (computeGeneratorPolynomial bch).1 := fits_genpolyWords _ _ _
  have htb := fun j b (hb : b<32) => testBit_genpoly bch (j := j) hb
  set E := (computeGeneratorPolynomial bch).2
  set g := (computeGeneratorPolynomial bch).1
  have hlen := length_roundRow g l ecclen d
  have hbit : ∀ j b, j<l → b<32 → ((roundRow g l ecclen d).getD j 0).testBit b=
      decide (32*(j+1)+d≤E+b ∧ (generatorCoeffs bch).getD (E+b-(32*(j+1)+d)) 0≠0) := by
    intro j b hj hb
    rw [testBit_roundRow hg hd hj hb]
    apply decide_eq_decide.mpr
    by_cases hdb : d<b
    · rw [if_pos hdb,htb j _ (by omega),decide_eq_true_eq]
      have hidx : E-(32*j+(31-(b-(d+1))))=E+b-(32*(j+1)+d) := by omega
      rw [hidx]
      constructor
      · rintro ⟨-,h1,h2⟩
        exact ⟨by omega,h2⟩
      · rintro ⟨h1,h2⟩
        exact ⟨by omega,by omega,h2⟩
    · rw [if_neg hdb,htb (j+1) _ (by omega),decide_eq_true_eq]
      have hidx : E-(32*(j+1)+(31-(31-d+b)))=E+b-(32*(j+1)+d) := by omega
      rw [hidx]
      constructor
      · rintro ⟨-,h1,h2⟩
        exact ⟨by omega,h2⟩
      · rintro ⟨h1,h2⟩
        exact ⟨by omega,by omega,h2⟩
  have hfit : Fits 32 ((g.getD 0 0>>>(31-d))::roundRow g l ecclen d) := by
    exact fits_cons.mpr ⟨lt_of_le_of_lt (Nat.shiftRight_le _ _) (hg.getD 0),fits_roundRow hg _ _ _⟩
  apply packed_eq hfit
  · rw [List.length_cons,hlen,degree_mul,degree_mul,degree_X_pow,degree_X_pow,
      degree_eq_natDegree hmon.ne_zero,hnd]
    have : d+(E+(32*l-E))<32*(l+1) := by omega
    exact_mod_cast this
  · intro j b hj hb
    rw [List.length_cons,hlen] at hj ⊢
    have hcoeff : ∀ i, (X^d*(generator bch*X^(32*l-E))).coeff i=
        if d+(32*l-E)≤ i then (generator bch).coeff (i-(d+(32*l-E))) else 0 := by
      intro i
      have : X^d*(generator bch*X^(32*l-E))=generator bch*X^(d+(32*l-E)) := by ring
      rw [this,coeff_mul_X_pow']
    rw [hcoeff]
    cases j with
    | zero =>
      have hb0 : (g.getD 0 0>>>(31-d)).testBit b=decide (d≤E+b ∧ b≤d ∧
          (generatorCoeffs bch).getD (E+b-d) 0≠0) := by
        rw [Nat.testBit_shiftRight]
        by_cases hbd : b≤d
        · rw [htb 0 _ (by omega)]
          apply decide_eq_decide.mpr
          have hidx : E-(32*0+(31-(31-d+b)))=E+b-d := by omega
          rw [hidx]
          constructor
          · rintro ⟨h1,h2⟩
            exact ⟨by omega,hbd,h2⟩
          · rintro ⟨h1,-,h2⟩
            exact ⟨by omega,h2⟩
        · have hz : (g.getD 0 0).testBit (31-d+b)=false := Nat.testBit_lt_two_pow
            (lt_of_lt_of_le (hg.getD _) (Nat.pow_le_pow_right (by omega) (by omega)))
          rw [hz]
          simp [hbd]
      rw [List.getD_cons_zero,hb0,Nat.add_sub_cancel,Nat.sub_zero,coeff_generator]
      have hidx : 32*l+b-(d+(32*l-E))=E+b-d := by omega
      rw [hidx]
      by_cases h1 : d≤E+b
      · rw [if_pos (by omega)]
        by_cases hbd : b≤d
        · simp [h1,hbd]
        · have hz : (generatorCoeffs bch).getD (E+b-d) 0=0 := by
            have hE' : E=(generatorCoeffs bch).length-1 := rfl
            exact getD_of_length_le _ (by omega)
          rw [hz]
          simp
      · rw [if_neg (by omega)]
        simp [h1]
    | succ j =>
      rw [List.getD_cons_succ,hbit j b (by omega) hb,coeff_generator]
      have hidx : 32*(l+1-1-(j+1))+b-(d+(32*l-E))=E+b-(32*(j+1)+d) := by omega
      rw [hidx]
      by_cases h1 : 32*(j+1)+d≤E+b
      · rw [if_pos (by omega)]
        simp [h1]
      · rw [if_neg (by omega)]
        simp [h1]

end Rows

section Mod8

variable {bch : BchControl}

/-- The modulus of the parity words: the generator moved up so that its
degree is the number of bits in the words. -/
noncomputable def wordModulus (bch : BchControl) : (ZMod 2)[X] :=
  generator bch*X^(32*eccWords bch-bch.eccBits)

/-- The part of the structure that the encoder relies on. -/
structure EncoderTables (bch : BchControl) : Prop where
  /-- The parity size is the degree of the generator. -/
  degree : (generator bch).natDegree=bch.eccBits
  /-- There is at least one parity word. -/
  words_pos : 0<eccWords bch
  /-- The parity fits the parity bytes. -/
  bits_le : bch.eccBits≤8*bch.eccBytes
  /-- The parity bytes fit the parity words. -/
  bytes_le : bch.eccBytes≤4*eccWords bch
  /-- The last word holds at least one parity byte. -/
  bytes_gt : 4*(eccWords bch-1)<bch.eccBytes
  /-- Every row has one word for every parity word. -/
  rowLength : ∀ q<1024, (mod8TabRow bch q).length=eccWords bch
  /-- The words of the rows are 32-bit words. -/
  rowFits : ∀ q<1024, Fits 32 (mod8TabRow bch q)
  /-- The row of the byte `i` in the table `b` is the remainder of that
  byte, moved above the parity words and `b` bytes further. -/
  rowPoly : ∀ b i, b<4 → i<256 → packed 32 (mod8TabRow bch (256*b+i))=
    (bitPoly i*X^(8*b)*X^(32*eccWords bch)) %ₘ wordModulus bch

theorem monic_wordModulus (bch : BchControl) : (wordModulus bch).Monic :=
  (monic_generator bch).1.mul (monic_X_pow _)

/-- A polynomial below the modulus that is congruent to another one is its
remainder. -/
theorem eq_modByMonic {p q G : (ZMod 2)[X]} (hG : G.Monic) (hd : p.degree<G.degree)
    (h : G ∣ p+q) : p=q %ₘ G := by
  have hs : p-q=p+q := by rw [CharTwo.sub_eq_add]
  have hmod : (p-q) %ₘ G=0 := by
    rw [hs,modByMonic_eq_zero_iff_dvd hG]
    exact h
  rw [sub_modByMonic,sub_eq_zero,modByMonic_eq_self_iff hG |>.mpr hd] at hmod
  exact hmod

/-- The first packed word has its top bit set. -/
theorem genpoly_top (bch : BchControl) :
    ((computeGeneratorPolynomial bch).1.getD 0 0).testBit 31=true := by
  obtain ⟨h0,-,htop⟩ := length_generatorCoeffs bch
  have hdeg : (computeGeneratorPolynomial bch).2=(generatorCoeffs bch).length-1 := rfl
  have hsub : (computeGeneratorPolynomial bch).2-(32*0+(31-31))=(generatorCoeffs bch).length-1 := by omega
  rw [testBit_genpoly bch (by omega),hsub,htop]
  simp

/-- There is no packed word after the last one. -/
theorem genpoly_end {j : ℕ} (hj : ((computeGeneratorPolynomial bch).2+1+31)/32≤j) :
    (computeGeneratorPolynomial bch).1.getD j 0=0 := by
  have hg : Fits 32 (computeGeneratorPolynomial bch).1 := fits_genpolyWords _ _ _
  apply Nat.eq_of_testBit_eq
  intro b
  rw [Nat.zero_testBit]
  rcases Nat.lt_or_ge b 32 with hb | hb
  · rw [testBit_genpoly bch hb]
    simp only [decide_eq_false_iff_not,not_and]
    intro hle
    omega
  · exact Nat.testBit_lt_two_pow (lt_of_lt_of_le (hg.getD _) (Nat.pow_le_pow_right (by omega) hb))

/-- The multiple of the generator that a round takes off has its top bit
where `data` has its own. -/
theorem genpoly_shift_range {d : ℕ} (hd : d≤31) :
    2^d≤(computeGeneratorPolynomial bch).1.getD 0 0>>>(31-d) ∧
      (computeGeneratorPolynomial bch).1.getD 0 0>>>(31-d)<2^(d+1) := by
  have hg : Fits 32 (computeGeneratorPolynomial bch).1 := fits_genpolyWords _ _ _
  have hlow := Nat.ge_two_pow_of_testBit (genpoly_top bch)
  have hup := hg.getD 0
  have h1 : 2^31=2^d*2^(31-d) := by
    rw [←pow_add]
    congr 1
    omega
  have h2 : 2^32=2^(d+1)*2^(31-d) := by
    rw [←pow_add]
    congr 1
    omega
  rw [Nat.shiftRight_eq_div_pow]
  constructor
  · rw [Nat.le_div_iff_mul_le (Nat.two_pow_pos _),←h1]
    exact hlow
  · rw [Nat.div_lt_iff_lt_mul (Nat.two_pow_pos _),←h2]
    exact hup

/-- The inner loop of a round adds the row. -/
theorem mapIdx_round {l ecclen plen d : ℕ} {tab : List ℕ} (hl : tab.length=l)
    (hpl : plen=((computeGeneratorPolynomial bch).2+1+31)/32) :
    (tab.mapIdx fun j w => if j<ecclen then
      w^^^((if d<31 then ((computeGeneratorPolynomial bch).1.getD j 0<<<(d+1))%2^32 else 0)|||
        (if j+1<plen then (computeGeneratorPolynomial bch).1.getD (j+1) 0>>>(31-d) else 0)) else w)=
      List.zipWith (·^^^·) tab (roundRow (computeGeneratorPolynomial bch).1 l ecclen d) := by
  have hrl := length_roundRow (computeGeneratorPolynomial bch).1 l ecclen d
  apply ext_getD 0
  · rw [List.length_mapIdx,List.length_zipWith,hrl,hl,Nat.min_self]
  · intro j hj
    rw [List.length_mapIdx] at hj
    have hz : (List.zipWith (·^^^·) tab (roundRow (computeGeneratorPolynomial bch).1 l ecclen d)).getD j 0=
        tab.getD j 0^^^(roundRow (computeGeneratorPolynomial bch).1 l ecclen d).getD j 0 := by
      rw [List.getD_eq_getElem _ _ (by rw [List.length_zipWith,hrl,hl,Nat.min_self]; omega),
        List.getElem_zipWith,List.getD_eq_getElem _ _ hj,List.getD_eq_getElem _ _ (by omega)]
    have hlo : (if j+1<plen then (computeGeneratorPolynomial bch).1.getD (j+1) 0>>>(31-d) else 0)=
        (computeGeneratorPolynomial bch).1.getD (j+1) 0>>>(31-d) := by
      split
      · rfl
      · rw [genpoly_end (by omega),Nat.zero_shiftRight]
    rw [getD_mapIdx _ _ _ hj,hz,roundRow,getD_range_map _ _ (by omega),hlo]
    split
    · rfl
    · rw [Nat.xor_zero]

/-- What the division loop for one row computes. -/
theorem mod8RowLoop_spec {l ecclen plen : ℕ} (hE : (computeGeneratorPolynomial bch).2≤32*l)
    (hec : ecclen=((computeGeneratorPolynomial bch).2+31)/32)
    (hpl : plen=((computeGeneratorPolynomial bch).2+1+31)/32) (fuel data : ℕ) (tab : List ℕ)
    (hf : data<2^fuel) (h32 : fuel≤32) (hl : tab.length=l) (ht : Fits 32 tab) :
    let tab' := mod8RowLoop (computeGeneratorPolynomial bch).1 plen ecclen fuel data tab
    tab'.length=l ∧ Fits 32 tab' ∧
      generator bch*X^(32*l-(computeGeneratorPolynomial bch).2) ∣
        packed 32 tab'+(bitPoly data*X^(32*l)+packed 32 tab) := by
  have hg : Fits 32 (computeGeneratorPolynomial bch).1 := fits_genpolyWords _ _ _
  induction fuel generalizing data tab with
  | zero =>
    have h0 : data=0 := by simpa using hf
    subst h0
    refine ⟨hl,ht,?_⟩
    rw [mod8RowLoop,bitPoly,bitSum_zero,zero_mul,zero_add,CharTwo.add_self_eq_zero]
    exact dvd_zero _
  | succ fuel ih =>
    rw [mod8RowLoop]
    split
    · next hne =>
      dsimp only
      have hdl : 2^deg data≤data ∧ data<2^(deg data+1) := (Nat.log2_eq_iff hne).mp rfl
      have hd : deg data≤fuel := by
        by_contra hc
        have := Nat.pow_le_pow_right (n := 2) (by omega) (by omega : fuel+1≤deg data)
        omega
      set d := deg data
      set g := (computeGeneratorPolynomial bch).1
      have hhi := @genpoly_shift_range bch d (by omega)
      have hround := packed_round (d := d) (by omega) hE hec
      have hrl := length_roundRow g l ecclen d
      have hrfit := fits_roundRow hg l ecclen d
      rw [packed_cons,hrl] at hround
      have hx := BchTables.xor_lt_of_top hdl.1 hdl.2 hhi.1 hhi.2
      obtain ⟨h1,h2,h3⟩ := ih (data^^^(g.getD 0 0>>>(31-d)))
        (List.zipWith (·^^^·) tab (roundRow g l ecclen d))
        (lt_of_lt_of_le hx (Nat.pow_le_pow_right (by omega) hd)) (by omega)
        (by rw [List.length_zipWith,hrl,hl,Nat.min_self]) (fits_zipWith_xor ht hrfit)
      rw [mapIdx_round hl hpl]
      refine ⟨h1,h2,?_⟩
      have hsum : packed 32 (mod8RowLoop g plen ecclen fuel (data^^^(g.getD 0 0>>>(31-d)))
          (List.zipWith (·^^^·) tab (roundRow g l ecclen d)))+(bitPoly data*X^(32*l)+packed 32 tab)=
          (packed 32 (mod8RowLoop g plen ecclen fuel (data^^^(g.getD 0 0>>>(31-d)))
            (List.zipWith (·^^^·) tab (roundRow g l ecclen d)))+
            (bitPoly (data^^^(g.getD 0 0>>>(31-d)))*X^(32*l)+
              packed 32 (List.zipWith (·^^^·) tab (roundRow g l ecclen d))))+
          X^d*(generator bch*X^(32*l-(computeGeneratorPolynomial bch).2)) := by
        have hxor : bitPoly (data^^^(g.getD 0 0>>>(31-d)))=
          bitPoly data+bitPoly (g.getD 0 0>>>(31-d)) := bitSum_xor X _ _
        rw [←hround,packed_zipWith_xor (by rw [hl,hrl]),hxor]
        have h2 : ∀ p : (ZMod 2)[X], p+p=0 := CharTwo.add_self_eq_zero
        linear_combination -(h2 (bitPoly (g.getD 0 0>>>(31-d))*X^(32*l)))-
          h2 (packed 32 (roundRow g l ecclen d))
      rw [hsum]
      exact dvd_add h3 (dvd_mul_left _ _)
    · next h0 =>
      have h0' : data=0 := by omega
      subst h0'
      refine ⟨hl,ht,?_⟩
      rw [bitPoly,bitSum_zero,zero_mul,zero_add,CharTwo.add_self_eq_zero]
      exact dvd_zero _

/-- Rows of one length can be read back from their concatenation. -/
theorem take_drop_flatMap (f : ℕ → List ℕ) (l : ℕ) (hf : ∀ q, (f q).length=l) (n q : ℕ) (hq : q<n) :
    (((List.range n).flatMap f).drop (l*q)).take l=f q := by
  have hlen : ∀ k, ((List.range k).flatMap f).length=l*k := by
    intro k
    induction k with
    | zero => rfl
    | succ k ih =>
      rw [List.range_succ,List.flatMap_append,List.length_append,ih]
      simp [hf,Nat.mul_succ]
  induction n with
  | zero => omega
  | succ n ih =>
    rw [List.range_succ,List.flatMap_append]
    have hs : [n].flatMap f=f n := by simp
    rw [hs]
    rcases Nat.lt_succ_iff_lt_or_eq.mp hq with hlt | rfl
    · have hle : l*q+l≤l*n := by
        exact Nat.mul_le_mul_left l hlt
      rw [List.drop_append_of_le_length (by rw [hlen]; omega),List.take_append_of_le_length
        (by rw [List.length_drop,hlen]; omega)]
      exact ih hlt
    · have hd : ((List.range q).flatMap f++f q).drop (l*q)=f q := by
        rw [←hlen q,List.drop_left]
      rw [hd,←hf q,List.take_length]

/-- The structures that `init_bch` returns have the tables the encoder needs. -/
theorem encoderTables_of_built (h : Built bch) : EncoderTables bch := by
  obtain ⟨h0,hle,-⟩ := length_generatorCoeffs bch
  have hdeg : (computeGeneratorPolynomial bch).2=(generatorCoeffs bch).length-1 := rfl
  have hE := h.eccBits_eq
  have hmt : 1≤bch.m*bch.t := Nat.mul_pos (by have := h.range; omega) h.t_pos
  have hw : eccWords bch=(bch.m*bch.t+31)/32 := rfl
  have hby := h.eccBytes_eq
  have hEl : (computeGeneratorPolynomial bch).2≤32*eccWords bch := by omega
  have hrow : ∀ b i, i<<<(8*b)<2^32 →
      (mod8Row bch (computeGeneratorPolynomial bch).1 b i).length=eccWords bch ∧
      Fits 32 (mod8Row bch (computeGeneratorPolynomial bch).1 b i) ∧
      packed 32 (mod8Row bch (computeGeneratorPolynomial bch).1 b i)=
        (bitPoly i*X^(8*b)*X^(32*eccWords bch)) %ₘ wordModulus bch := by
    intro b i hi
    obtain ⟨h1,h2,h3⟩ := mod8RowLoop_spec hEl rfl rfl 32 (i<<<(8*b))
      (List.replicate (eccWords bch) 0) hi (Nat.le_refl _) List.length_replicate (fits_replicate _)
    rw [←hE] at h1 h2 h3
    refine ⟨h1,h2,eq_modByMonic (monic_wordModulus bch) ?_ ?_⟩
    · have hd := degree_packed_lt h2
      rw [h1] at hd
      refine lt_of_lt_of_le hd ?_
      rw [wordModulus,degree_mul,degree_X_pow,degree_eq_natDegree (monic_generator bch).1.ne_zero,
        (monic_generator bch).2,←hE]
      have : 32*eccWords bch≤bch.eccBits+(32*eccWords bch-bch.eccBits) := by omega
      exact_mod_cast this
    · rw [packed_replicate,add_zero,bitPoly,bitSum_shiftLeft] at h3
      have hcomm : bitPoly i*X^(8*b)=X^(8*b)*bitSum X i := mul_comm _ _
      rw [hcomm]
      exact h3
  have hsh : ∀ b i, b<4 → i<256 → i<<<(8*b)<2^32 := by
    intro b i hb hi
    rw [Nat.shiftLeft_eq]
    calc i*2^(8*b)<2^8*2^(8*b) := Nat.mul_lt_mul_of_pos_right (by omega) (Nat.two_pow_pos _)
      _=2^(8+8*b) := by rw [pow_add]
      _≤2^32 := Nat.pow_le_pow_right (by omega) (by omega)
  have hlen : ∀ q i, (mod8Row bch (computeGeneratorPolynomial bch).1 q i).length=eccWords bch := by
    intro q i
    have hloop : ∀ g plen ecclen fuel data tab,
        (mod8RowLoop g plen ecclen fuel data tab).length=tab.length := by
      intro g plen ecclen fuel
      induction fuel with
      | zero => intros; rfl
      | succ fuel ih =>
        intro data tab
        rw [mod8RowLoop]
        split
        · rw [ih,List.length_mapIdx]
        · rfl
    rw [mod8Row,hloop,List.length_replicate]
  have hget : ∀ q<1024, mod8TabRow bch q=mod8Row bch (computeGeneratorPolynomial bch).1 (q/256) (q%256) := by
    intro q hq
    rw [mod8TabRow,h.mod8_eq,buildMod8Tables]
    generalize 1024=k at hq
    exact take_drop_flatMap (fun q => mod8Row bch (computeGeneratorPolynomial bch).1 (q/256) (q%256))
      _ (fun q => hlen _ _) k q hq
  refine ⟨by rw [(monic_generator bch).2,hE],by omega,by omega,by omega,by omega,?_,?_,?_⟩
  · intro q hq
    rw [hget q hq]
    exact hlen _ _
  · intro q hq
    rw [hget q hq]
    exact (hrow _ _ (hsh _ _ (by omega) (by omega))).2.1
  · intro b i hb hi
    rw [hget _ (by omega),show (256*b+i)/256=b by omega,show (256*b+i)%256=i by omega]
    exact (hrow _ _ (hsh _ _ hb hi)).2.2

/-- The encoder does not depend on the scratch buffers. -/
theorem encoderTables_congr {b b' : BchControl} (h : EncoderTables b) (hm : b'.m=b.m) (hn : b'.n=b.n)
    (ht : b'.t=b.t) (hpow : b'.aPowTab=b.aPowTab) (hlog : b'.aLogTab=b.aLogTab)
    (hbits : b'.eccBits=b.eccBits) (hbytes : b'.eccBytes=b.eccBytes) (htab : b'.mod8Tab=b.mod8Tab) :
    EncoderTables b' ∧ generator b'=generator b := by
  have hg : generator b'=generator b := by
    rw [generator,generator,generatorCoeffs_congr hm hn hpow hlog ht]
  have hw : eccWords b'=eccWords b := by rw [eccWords,eccWords,hm,ht]
  have hrow : ∀ q, mod8TabRow b' q=mod8TabRow b q := by
    intro q
    rw [mod8TabRow,mod8TabRow,htab,hw]
  have hmod : wordModulus b'=wordModulus b := by rw [wordModulus,wordModulus,hg,hw,hbits]
  refine ⟨?_,hg⟩
  refine ⟨?_,?_,?_,?_,?_,?_,?_,?_⟩ <;> simp only [hg,hw,hrow,hmod,hbits,hbytes]
  · exact h.degree
  · exact h.words_pos
  · exact h.bits_le
  · exact h.bytes_le
  · exact h.bytes_gt
  · exact h.rowLength
  · exact h.rowFits
  · exact h.rowPoly

end Mod8

end ArdroneKernel.BchGenerator
