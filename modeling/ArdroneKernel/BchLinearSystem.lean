import ArdroneKernel.ArrayList
import ArdroneKernel.BchDecode
import ArdroneKernel.ParityEquations

/-!
# The linear solver

The rows of `solve_linear_system` are equations whose unknown zero is the
constant one. The elimination keeps the solutions, the rewriting with fake
parameter rows gives a triangular system for every value of the
parameters, and the back substitution solves it. The solver therefore
returns all solutions when their number is the expected one, and nothing
otherwise.
-/

namespace ArdroneKernel.BchLinearSystem

open BitPolynomial ParityEquations ArrayList BchInit BchDecode

section Parity

/-- The two folds of `parity` add up the bits of every group of four. -/
theorem testBit_folds (x j : ℕ) : ((x^^^(x>>>1))^^^((x^^^(x>>>1))>>>2)).testBit j=
    ((x.testBit j^^x.testBit (j+1))^^(x.testBit (j+2)^^x.testBit (j+3))) := by
  simp only [Nat.testBit_xor,Nat.testBit_shiftRight]
  rw [show 1+j=j+1 by ring,show 2+j=j+2 by ring,show 1+(j+2)=j+3 by ring]

/-- The top digit of a product decides its parity. -/
theorem top_digit {hi s low : ℕ} (hlow : low<2^28) : ((hi*2^32+s*2^28+low)%2^32)/2^28%2=s%2 := by
  have h32 : (2 : ℕ)^32=2^28*2^4 := by norm_num
  have hdiv : (hi*2^32+s*2^28+low)/2^28=hi*16+s := by omega
  conv_lhs => rw [h32]
  omega

/-- `parity` is the sum of the bits of a 32-bit word. -/
theorem parity_spec {x : ℕ} (hx : x<2^32) : parity x<2 ∧ ((parity x : ℕ) : ZMod 2)=bitSum 1 x := by
  set y := ((x^^^(x>>>1))^^^((x^^^(x>>>1))>>>2))&&&0x11111111 with hy
  have hpar : parity x=((y*0x11111111)%2^32)>>>28&&&1 := rfl
  have hmask : ∀ j, (0x11111111 : ℕ).testBit j=decide (j%4=0 ∧ j<32) := by
    intro j
    rcases Nat.lt_or_ge j 32 with hj | hj
    · interval_cases j <;> rfl
    · rw [Nat.testBit_lt_two_pow (lt_of_lt_of_le (by norm_num : 0x11111111<2^32)
        (Nat.pow_le_pow_right (by omega) hj))]
      simp
      omega
  set b : ℕ → ℕ := fun i => ((x.testBit (4*i)^^x.testBit (4*i+1))^^
    (x.testBit (4*i+2)^^x.testBit (4*i+3))).toNat with hb
  have hy32 : y<2^32 := lt_of_le_of_lt Nat.and_le_right (by norm_num)
  have hbit : ∀ j, j<32 → (if y.testBit j then 2^j else 0)=if j%4=0 then b (j/4)*2^j else 0 := by
    intro j hj
    rw [hy,Nat.testBit_and,testBit_folds,hmask]
    by_cases h4 : j%4=0
    · have he : 4*(j/4)=j := by omega
      rw [if_pos h4,hb]
      dsimp only
      rw [he]
      simp only [h4,hj,and_self,decide_true,Bool.and_true]
      cases ((x.testBit j^^x.testBit (j+1))^^(x.testBit (j+2)^^x.testBit (j+3))) <;> simp
    · simp [h4]
  have hsum : y=b 0+b 1*16+b 2*16^2+b 3*16^3+b 4*16^4+b 5*16^5+b 6*16^6+b 7*16^7 := by
    conv_lhs => rw [←sum_bits hy32]
    rw [Finset.sum_congr rfl fun j hj => hbit j (Finset.mem_range.mp hj)]
    simp only [Finset.sum_range_succ,Finset.sum_range_zero]
    norm_num
  have hb1 : ∀ i, b i≤1 := fun i => Bool.toNat_le _
  have h0 := hb1 0
  have h1 := hb1 1
  have h2 := hb1 2
  have h3 := hb1 3
  have h4 := hb1 4
  have h5 := hb1 5
  have h6 := hb1 6
  -- the product has the sum of all groups in its top digit
  have hprod : ∃ hi low, low<2^28 ∧
      y*0x11111111=hi*2^32+(b 0+b 1+b 2+b 3+b 4+b 5+b 6+b 7)*2^28+low := by
    refine ⟨(b 1+b 2+b 3+b 4+b 5+b 6+b 7)+16*(b 2+b 3+b 4+b 5+b 6+b 7)+16^2*(b 3+b 4+b 5+b 6+b 7)+
        16^3*(b 4+b 5+b 6+b 7)+16^4*(b 5+b 6+b 7)+16^5*(b 6+b 7)+16^6*b 7,
      b 0+16*(b 0+b 1)+16^2*(b 0+b 1+b 2)+16^3*(b 0+b 1+b 2+b 3)+16^4*(b 0+b 1+b 2+b 3+b 4)+
        16^5*(b 0+b 1+b 2+b 3+b 4+b 5)+16^6*(b 0+b 1+b 2+b 3+b 4+b 5+b 6),?_,?_⟩
    · omega
    · rw [hsum]
      ring
  obtain ⟨hi,low,hlow,hprod⟩ := hprod
  have hval : parity x=(b 0+b 1+b 2+b 3+b 4+b 5+b 6+b 7)%2 := by
    rw [hpar,hprod,Nat.and_one_is_mod,Nat.shiftRight_eq_div_pow,top_digit hlow]
  refine ⟨by rw [hval]; exact Nat.mod_lt _ (by omega),?_⟩
  have hcast : ∀ i, ((b i : ℕ) : ZMod 2)=((if x.testBit (4*i) then 1 else 0)+
      (if x.testBit (4*i+1) then 1 else 0))+((if x.testBit (4*i+2) then 1 else 0)+
      (if x.testBit (4*i+3) then 1 else 0)) := by
    intro i
    rw [hb]
    dsimp only
    cases x.testBit (4*i) <;> cases x.testBit (4*i+1) <;> cases x.testBit (4*i+2) <;>
      cases x.testBit (4*i+3) <;> decide
  rw [hval,ZMod.natCast_mod,bitSum_eq_sum 1 hx]
  push_cast
  simp only [hcast,one_pow,Finset.sum_range_succ,Finset.sum_range_zero]
  ring

/-- The masked parity that the back substitution takes is the equation. -/
theorem parity_and {a v : ℕ} (ha : a<2^32) : parity (a&&&v)<2 ∧ ((parity (a&&&v) : ℕ) : ZMod 2)=dot a v :=
  parity_spec (lt_of_le_of_lt Nat.and_le_left ha)

end Parity

section Elimination

/-- How many of the columns below `j` are defective. -/
def rank (param : List ℕ) (j : ℕ) : ℕ := ((Finset.range j).filter (· ∈ param)).card

variable (param : List ℕ)

theorem rank_succ (j : ℕ) :
    rank param (j+1)=rank param j+if j ∈ param then 1 else 0 := by
  unfold rank
  rw [Finset.range_add_one,Finset.filter_insert]
  split
  · rw [Finset.card_insert_of_notMem (by simp)]
  · rfl

theorem rank_le (j : ℕ) : rank param j≤j := by
  induction j with
  | zero => rfl
  | succ j ih =>
    rw [rank_succ]
    split <;> omega

theorem rank_le_add (i d : ℕ) : rank param (i+d)≤rank param i+d := by
  induction d with
  | zero => rfl
  | succ d ih =>
    rw [←Nat.add_assoc,rank_succ]
    split <;> omega

/-- The row of a column that is not defective comes before those of the
columns after it. -/
theorem row_lt {param : List ℕ} {j c : ℕ} (hj : j<c) (hn : j ∉ param) :
    j-rank param j<c-rank param c := by
  have h1 := rank_le_add param (j+1) (c-(j+1))
  have h2 := rank_succ param j
  rw [if_neg hn] at h2
  rw [show j+1+(c-(j+1))=c by omega] at h1
  have h3 := rank_le param j
  omega

/-- All defective columns counted. -/
theorem rank_eq_length {param : List ℕ} {c : ℕ} (hs : param.Pairwise (·<·)) (hb : ∀ j ∈ param, j<c) :
    rank param c=param.length := by
  have hnd : param.Nodup := hs.imp fun h => Nat.ne_of_lt h
  rw [rank,←List.toFinset_card_of_nodup hnd]
  congr 1
  ext j
  simp only [Finset.mem_filter,Finset.mem_range,List.mem_toFinset]
  exact ⟨fun h => h.2,fun h => ⟨hb j h,h⟩⟩

theorem rank_append {param : List ℕ} {c j : ℕ} (hj : j≤c) : rank (param++[c]) j=rank param j := by
  unfold rank
  congr 1
  apply Finset.filter_congr
  intro i hi
  have := Finset.mem_range.mp hi
  simp only [List.mem_append,List.mem_singleton]
  constructor
  · rintro (h | rfl)
    · exact h
    · omega
  · exact Or.inl

/-- The rows of the system as a function. -/
def row (rows : List ℕ) (r : ℕ) : ℕ := rows.getD r 0

theorem row_set (rows : List ℕ) {i : ℕ} (v j : ℕ) (hi : i<rows.length) :
    row (rows.set i v) j=if i=j then v else row rows j := by
  unfold row
  by_cases h : i=j
  · subst h
    rw [getD_set_self _ _ hi,if_pos rfl]
  · rw [getD_set_ne _ _ _ h,if_neg h]

/-- The state before column `c`. -/
structure ElimInv (R : List ℕ) (m c : ℕ) (st : ElimState) : Prop where
  /-- The number of rows does not change. -/
  length : st.rows.length=R.length
  /-- The solutions do not change. -/
  solves : ∀ v, Solves (row st.rows) m v ↔ Solves (row R) m v
  /-- The defective columns are recorded in order. -/
  sorted : st.param.Pairwise (·<·)
  /-- They are among the columns done. -/
  below : ∀ j ∈ st.param, j<c
  /-- Every other column done has its pivot row. -/
  pivot : ∀ j<c, j ∉ st.param →
    row st.rows (j-rank st.param j)<2^(m-j+1) ∧ (row st.rows (j-rank st.param j)).testBit (m-j)=true
  /-- The rows not used yet only have unknowns of the columns left. -/
  low : ∀ r < m, c≤r+st.param.length → row st.rows r<2^(m-c+1)

theorem lt_of_bit_clear {a k : ℕ} (h : a<2^(k+1)) (hb : a.testBit k=false) : a<2^k := by
  apply Nat.lt_pow_two_of_testBit
  intro i hi
  rcases Nat.eq_or_lt_of_le hi with rfl | hlt
  · exact hb
  · exact Nat.testBit_lt_two_pow (lt_of_lt_of_le h (Nat.pow_le_pow_right (by omega) hlt))

/-- The mask of a column selects one bit. -/
theorem mask_eq {m c : ℕ} (hc : c ≤ m) (a : ℕ) : a&&&((1<<<m)>>>c)≠0 ↔ a.testBit (m-c)=true := by
  have hm : (1<<<m)>>>c=2^(m-c) := by
    rw [Nat.shiftLeft_eq,Nat.one_mul,Nat.shiftRight_eq_div_pow,Nat.pow_div hc (by omega)]
  rw [hm,Nat.and_two_pow]
  cases a.testBit (m-c) <;> simp

/-- Exchanging two rows. -/
theorem row_swapRows {rows : List ℕ} {r p : ℕ} (hr : r<rows.length) (hp : p<rows.length) (q : ℕ) :
    row (swapRows rows r p) q=if q=p then row rows r else if q=r then row rows p else row rows q := by
  unfold swapRows
  rw [row_set _ _ _ (by rw [List.length_set]; exact hp),row_set _ _ _ hr]
  by_cases h : p=q
  · rw [if_pos h,if_pos h.symm]
    rfl
  · rw [if_neg h,if_neg (Ne.symm h)]
    by_cases h' : r=q
    · rw [if_pos h',if_pos h'.symm]
      rfl
    · rw [if_neg h',if_neg (Ne.symm h')]

/-- Adding the pivot row to the rows that have the pivot unknown. -/
theorem row_clear {rows : List ℕ} {m r tmp mask q : ℕ} (hq : q<rows.length) :
    row (rows.mapIdx fun q w => if r+1≤q ∧ q < m ∧ w&&&mask≠0 then w^^^tmp else w) q=
      if r+1≤q ∧ q < m ∧ row rows q&&&mask≠0 then row rows q^^^tmp else row rows q := by
  unfold row
  rw [getD_mapIdx _ _ _ hq]

/-- One column of the elimination. -/
theorem ElimInv.step {R : List ℕ} {m c : ℕ} {st : ElimState} (h : ElimInv R m c st) (hc : c < m)
    (hm : m≤R.length) : ElimInv R m (c+1) (elimColumn m st c) := by
  have hrank := rank_eq_length h.sorted h.below
  have hkc : st.param.length≤c := by
    rw [←hrank]
    exact rank_le _ _
  have hlen := h.length
  unfold elimColumn
  dsimp only
  cases hf : (List.range' (c-st.param.length) (m-(c-st.param.length))).find?
      (fun r => st.rows.getD r 0&&&((1<<<m)>>>c)≠0) with
  | none =>
    have hnone : ∀ r < m, c≤r+st.param.length → (row st.rows r).testBit (m-c)=false := by
      intro r hr hcr
      have hmem : r ∈ List.range' (c-st.param.length) (m-(c-st.param.length)) := by
        rw [List.mem_range'_1]
        omega
      have := List.find?_eq_none.mp hf r hmem
      have hz : ¬(st.rows.getD r 0&&&((1<<<m)>>>c)≠0) := by simpa using this
      rw [mask_eq hc.le] at hz
      simpa [row] using hz
    refine ⟨hlen,h.solves,?_,?_,?_,?_⟩
    · rw [List.pairwise_append]
      refine ⟨h.sorted,List.pairwise_singleton _ _,?_⟩
      intro a ha b hb
      rw [List.mem_singleton.mp hb]
      exact h.below a ha
    · intro j hj
      rcases List.mem_append.mp hj with hj | hj
      · exact Nat.lt_succ_of_lt (h.below j hj)
      · rw [List.mem_singleton.mp hj]
        exact Nat.lt_succ_self c
    · intro j hj hn
      have hne : j≠c := by
        rintro rfl
        exact hn (by simp)
      rw [rank_append (by omega)]
      exact h.pivot j (by omega) fun hmem => hn (List.mem_append_left _ hmem)
    · intro r hr hcr
      rw [List.length_append,List.length_singleton] at hcr
      have hlow := h.low r hr (by omega)
      have hexp : m-(c+1)+1=m-c := by omega
      rw [hexp]
      exact lt_of_bit_clear hlow (hnone r hr (by omega))
  | some r =>
    have hmem := List.mem_of_find?_eq_some hf
    rw [List.mem_range'_1] at hmem
    have hbit : (row st.rows r).testBit (m-c)=true := by
      have hfound : decide (st.rows.getD r 0&&&((1<<<m)>>>c)≠0)=true :=
        List.find?_some (p := fun r => decide (st.rows.getD r 0&&&((1<<<m)>>>c)≠0)) hf
      exact (mask_eq hc.le _).mp (of_decide_eq_true hfound)
    have hfirst : ∀ q, c≤q+st.param.length → q<r → (row st.rows q).testBit (m-c)=false := by
      intro q hcq hqr
      obtain ⟨-,l1,l2,hl,hbefore⟩ := List.find?_eq_some_iff_append.mp hf
      have hq : q ∈ l1 := by
        have hqm : q ∈ List.range' (c-st.param.length) (m-(c-st.param.length)) := by
          rw [List.mem_range'_1]
          omega
        rw [hl] at hqm
        rcases List.mem_append.mp hqm with hq | hq
        · exact hq
        · -- the list is increasing, so the entries after `r` are larger
          have hsort := List.pairwise_lt_range' (s := c-st.param.length) (n := m-(c-st.param.length)) 1
          rw [hl,List.pairwise_append] at hsort
          rcases List.mem_cons.mp hq with rfl | hq
          · omega
          · have := (List.pairwise_cons.mp hsort.2.1).1 q hq
            omega
      have hz := hbefore q hq
      have hz' : ¬(st.rows.getD q 0&&&((1<<<m)>>>c)≠0) := by simpa using hz
      rw [mask_eq hc.le] at hz'
      simpa [row] using hz'
    set p := c-st.param.length with hp
    have hrl : r<st.rows.length := by omega
    have hpl : p<st.rows.length := by omega
    set sw := swapRows st.rows r p with hsw
    have hswl : sw.length=st.rows.length := by rw [hsw,swapRows,List.length_set,List.length_set]
    have hswrow := row_swapRows hrl hpl
    have hpiv : row sw p=row st.rows r := by rw [hswrow,if_pos rfl]
    have htmp : sw.getD p 0=row st.rows r := hpiv
    dsimp only
    rw [←hsw,htmp]
    -- the new rows one by one
    have hnew : ∀ q < m, row (sw.mapIdx fun q w => if r+1≤q ∧ q < m ∧ w&&&((1<<<m)>>>c)≠0 then
        w^^^row st.rows r else w) q=
        if r+1≤q ∧ (row sw q).testBit (m-c)=true then row sw q^^^row st.rows r else row sw q := by
      intro q hq
      rw [row_clear (by omega)]
      simp only [mask_eq hc.le,hq,true_and]
    have hswlow : ∀ q < m, c≤q+st.param.length → row sw q<2^(m-c+1) := by
      intro q hq hcq
      rw [hswrow]
      split
      · exact h.low r (by omega) (by omega)
      · split
        · exact h.low p (by omega) (by omega)
        · exact h.low q hq hcq
    refine ⟨by rw [List.length_mapIdx,hswl,hlen],?_,h.sorted,fun j hj => Nat.lt_succ_of_lt (h.below j hj),?_,?_⟩
    · intro v
      rw [←h.solves v]
      constructor
      · intro hv
        have hvr : dot (row st.rows r) v=0 := by
          have := hv p (by omega)
          rwa [hnew p (by omega),if_neg (by omega),hpiv] at this
        have hsolve : ∀ q < m, dot (row sw q) v=0 := by
          intro q hq
          have := hv q hq
          rw [hnew q hq] at this
          split at this
          · rwa [xor_dot,hvr,add_zero] at this
          · exact this
        intro q hq
        by_cases hqp : q=p
        · have := hsolve r (by omega)
          rw [hswrow] at this
          rw [hqp]
          split at this
          · next he => rwa [he] at this
          · rwa [if_pos rfl] at this
        · by_cases hqr : q=r
          · rw [hqr]
            exact hvr
          · have := hsolve q hq
            rwa [hswrow,if_neg hqp,if_neg hqr] at this
      · intro hv q hq
        have hvr := hv r (by omega)
        have hsq : dot (row sw q) v=0 := by
          rw [hswrow]
          split
          · exact hvr
          · split
            · exact hv p (by omega)
            · exact hv q hq
        rw [hnew q hq]
        split
        · rw [xor_dot,hsq,hvr,add_zero]
        · exact hsq
    · intro j hj hn
      dsimp only
      rcases Nat.lt_succ_iff_lt_or_eq.mp hj with hlt | rfl
      · have hidx : j-rank st.param j<c-rank st.param c := row_lt hlt hn
        rw [hnew _ (by omega),if_neg (by omega),hswrow,if_neg (by omega),if_neg (by omega)]
        exact h.pivot j hlt hn
      · rw [hrank,←hp,hnew p (by omega),if_neg (by omega),hpiv]
        exact ⟨h.low r (by omega) (by omega),hbit⟩
    · intro q hq hcq
      dsimp only at hcq ⊢
      have hexp : m-(c+1)+1=m-c := by omega
      rw [hexp,hnew q hq]
      have hlow := hswlow q hq (by omega)
      split
      · next hb =>
        apply lt_of_bit_clear (Nat.xor_lt_two_pow hlow (h.low r (by omega) (by omega)))
        rw [Nat.testBit_xor,hb.2,hbit]
        rfl
      · next hb =>
        apply lt_of_bit_clear hlow
        rcases Nat.lt_or_ge r q with hlt | hge
        · by_contra hne
          exact hb ⟨hlt,by simpa using hne⟩
        · -- what stands at or before row `r` now came from before it
          rw [hswrow,if_neg (by omega)]
          split
          · exact hfirst p (by omega) (by omega)
          · exact hfirst q (by omega) (by omega)

/-- The whole elimination. -/
theorem elimination {R : List ℕ} {m : ℕ} (hm : m≤R.length) (hR : ∀ r < m, row R r<2^(m+1)) (c : ℕ)
    (hc : c ≤ m) : ElimInv R m c ((List.range c).foldl (elimColumn m) ⟨R,[]⟩) := by
  induction c with
  | zero =>
    refine ⟨rfl,fun _ => Iff.rfl,List.Pairwise.nil,by simp,by simp,?_⟩
    intro r hr _
    exact hR r hr
  | succ c ih =>
    rw [List.range_succ,List.foldl_append,List.foldl_cons,List.foldl_nil]
    exact (ih (by omega)).step hc hm

end Elimination

section Parameters

variable {param : List ℕ}

/-- The place of a column in the list of defective columns. -/
theorem getD_rank (hs : param.Pairwise (·<·)) {r : ℕ} (hr : r ∈ param) :
    param.getD (rank param r) 0=r := by
  induction param with
  | nil => simp at hr
  | cons a l ih =>
    obtain ⟨ha,hl⟩ := List.pairwise_cons.mp hs
    rcases List.mem_cons.mp hr with rfl | hmem
    · have hz : rank (r::l) r=0 := by
        rw [rank,Finset.card_eq_zero,Finset.filter_eq_empty_iff]
        intro j hj hmem
        have hjr := Finset.mem_range.mp hj
        rcases List.mem_cons.mp hmem with rfl | hmem
        · omega
        · have := ha j hmem
          omega
      rw [hz,List.getD_cons_zero]
    · have har := ha r hmem
      have hsucc : rank (a::l) r=rank l r+1 := by
        have hnot : a ∉ (Finset.range r).filter (· ∈ l) := by
          intro h
          have := ha a (Finset.mem_filter.mp h).2
          omega
        rw [rank,rank,←Finset.card_insert_of_notMem hnot]
        congr 1
        ext j
        simp only [Finset.mem_filter,Finset.mem_range,List.mem_cons,Finset.mem_insert]
        constructor
        · rintro ⟨h1,rfl | h2⟩
          · exact Or.inl rfl
          · exact Or.inr ⟨h1,h2⟩
        · rintro (rfl | ⟨h1,h2⟩)
          · exact ⟨har,Or.inl rfl⟩
          · exact ⟨h1,Or.inr h2⟩
      rw [hsucc,List.getD_cons_succ]
      exact ih hl hmem

theorem rank_le_length (hs : param.Pairwise (·<·)) (j : ℕ) :
    rank param j≤param.length := by
  rw [rank,←List.toFinset_card_of_nodup (hs.imp fun h => Nat.ne_of_lt h)]
  apply Finset.card_le_card
  intro i hi
  exact List.mem_toFinset.mpr (Finset.mem_filter.mp hi).2

theorem rank_lt_length (hs : param.Pairwise (·<·)) {j : ℕ} (hj : j ∈ param) :
    rank param j<param.length := by
  have h1 := rank_succ param j
  have h2 := rank_le_length hs (j+1)
  rw [if_pos hj] at h1
  omega

/-- Every row below the number of pivots belongs to a column. -/
theorem exists_column (param : List ℕ) (c : ℕ) : ∀ r, r+rank param c<c →
    ∃ j<c, j ∉ param ∧ j-rank param j=r := by
  induction c with
  | zero =>
    intro r hr
    omega
  | succ c ih =>
    intro r hr
    have hs := rank_succ param c
    by_cases hc : c ∈ param
    · rw [if_pos hc] at hs
      obtain ⟨j,hj,hn,he⟩ := ih r (by omega)
      exact ⟨j,by omega,hn,he⟩
    · rcases Nat.lt_or_ge (r+rank param c) c with hlt | hge
      · obtain ⟨j,hj,hn,he⟩ := ih r hlt
        exact ⟨j,by omega,hn,he⟩
      · exact ⟨c,by omega,hc,by omega⟩

/-- Rewriting the system: fake rows for the defective columns, and none at
all when a row without unknowns has a constant term. -/
theorem insertParams_spec {m : ℕ} (hs : param.Pairwise (·<·)) (R : List ℕ) (r : ℕ) (rows : List ℕ)
    (hr : r ≤ m) (hlen : m≤rows.length) (hsame : ∀ j<r, row rows j=row R j) :
    (∀ rows', insertParams m param.length param r (rank param r) rows=some rows' →
      (∀ j<r, m≤j+param.length → row R j=0) ∧ rows'.length=rows.length ∧
      (∀ j<r, row rows' j=if j ∈ param then 2^(m-j) else row R (j-rank param j)) ∧
      ∀ j, r≤j → row rows' j=row rows j) ∧
    (insertParams m param.length param r (rank param r) rows=none →
      ∃ j<r, m≤j+param.length ∧ row R j≠0) := by
  induction r generalizing rows with
  | zero =>
    refine ⟨?_,?_⟩
    · intro rows' he
      cases he
      exact ⟨fun j hj => absurd hj (Nat.not_lt_zero j),rfl,fun j hj => absurd hj (Nat.not_lt_zero j),
        fun _ _ => rfl⟩
    · intro he
      cases he
  | succ r ih =>
    have hrow : rows.getD r 0=row R r := hsame r (Nat.lt_succ_self r)
    rw [insertParams,hrow]
    by_cases hbad : m≤r+param.length ∧ row R r≠0
    · rw [if_pos hbad]
      refine ⟨?_,fun _ => ⟨r,Nat.lt_succ_self r,hbad⟩⟩
      intro rows' he
      cases he
    · rw [if_neg hbad]
      have hz : m≤r+param.length → row R r=0 := by
        intro h
        by_contra hne
        exact hbad ⟨h,hne⟩
      have hsucc := rank_succ param r
      have hcol : (rank param (r+1)≠0 ∧ r=param.getD (rank param (r+1)-1) 0) ↔ r ∈ param := by
        constructor
        · rintro ⟨h0,he⟩
          by_contra hn
          rw [if_neg hn,Nat.add_zero] at hsucc
          -- the last column counted is below `r`
          have hpos : 0<rank param r := by omega
          obtain ⟨j,hj⟩ := Finset.card_pos.mp hpos
          have hcard := rank_le_length hs r
          rw [hsucc,List.getD_eq_getElem _ _ (by omega)] at he
          exact hn (he ▸ List.getElem_mem _)
        · intro hmem
          rw [if_pos hmem] at hsucc
          refine ⟨by omega,?_⟩
          rw [hsucc,Nat.add_sub_cancel,getD_rank hs hmem]
      -- the cell `r` is written and the rest is done by the recursion
      have hstep : ∀ v, (∀ j<r, row (rows.set r v) j=row R j) ∧ row (rows.set r v) r=v ∧
          ∀ j, r+1≤j → row (rows.set r v) j=row rows j := by
        intro v
        refine ⟨fun j hj => ?_,?_,fun j hj => ?_⟩
        · rw [row_set _ _ _ (by omega),if_neg (by omega)]
          exact hsame j (by omega)
        · rw [row_set _ _ _ (by omega),if_pos rfl]
        · rw [row_set _ _ _ (by omega),if_neg (by omega)]
      have hfin : ∀ v, (row R r=row R r → v=if r ∈ param then 2^(m-r) else row R (r-rank param r)) →
          (∀ rows', insertParams m param.length param r (rank param r) (rows.set r v)=some rows' →
            (∀ j<r+1, m≤j+param.length → row R j=0) ∧ rows'.length=rows.length ∧
            (∀ j<r+1, row rows' j=if j ∈ param then 2^(m-j) else row R (j-rank param j)) ∧
            ∀ j, r+1≤j → row rows' j=row rows j) ∧
          (insertParams m param.length param r (rank param r) (rows.set r v)=none →
            ∃ j<r+1, m≤j+param.length ∧ row R j≠0) := by
        intro v hv
        obtain ⟨h1,h2,h3⟩ := hstep v
        obtain ⟨hsome,hnone⟩ := ih (rows.set r v) (by omega) (by rw [List.length_set]; exact hlen) h1
        refine ⟨?_,?_⟩
        · intro rows' he
          obtain ⟨k1,k2,k3,k4⟩ := hsome rows' he
          refine ⟨?_,by rw [k2,List.length_set],?_,?_⟩
          · intro j hj hm
            rcases Nat.lt_succ_iff_lt_or_eq.mp hj with hlt | rfl
            · exact k1 j hlt hm
            · exact hz hm
          · intro j hj
            rcases Nat.lt_succ_iff_lt_or_eq.mp hj with hlt | rfl
            · exact k3 j hlt
            · rw [k4 j (Nat.le_refl j),h2]
              exact hv rfl
          · intro j hj
            rw [k4 j (by omega),h3 j hj]
        · intro he
          obtain ⟨j,hj,hb⟩ := hnone he
          exact ⟨j,by omega,hb⟩
      by_cases hmem : r ∈ param
      · rw [if_pos (hcol.mpr hmem)]
        rw [if_pos hmem] at hsucc
        have hp : rank param (r+1)-1=rank param r := by omega
        rw [hp]
        apply hfin
        intro _
        rw [if_pos hmem,Nat.shiftLeft_eq,Nat.one_mul]
      · rw [if_neg (hcol.not.mpr hmem)]
        rw [if_neg hmem,Nat.add_zero] at hsucc
        rw [hsucc]
        apply hfin
        intro _
        rw [if_neg hmem]
        exact hsame _ (by omega)

/-- The rows of the triangular system for the parameter values `p`. -/
def target (R param : List ℕ) (m p j : ℕ) : ℕ :=
  if j ∈ param then 2^(m-j)+(p.testBit (rank param j)).toNat else row R (j-rank param j)

/-- Rows that are those of a triangular system up to the parameter values. -/
structure Prepared (R param : List ℕ) (m : ℕ) (rows : List ℕ) : Prop where
  /-- There is a row for every column. -/
  length : m≤rows.length
  /-- Columns with a pivot. -/
  pivot : ∀ j < m, j ∉ param → row rows j=row R (j-rank param j)
  /-- Defective columns, with either value of the parameter. -/
  fake : ∀ j < m, j ∈ param → row rows j=2^(m-j) ∨ row rows j=2^(m-j)+1

theorem clear_low_bit {e x : ℕ} (h1 : 1≤e) (h31 : e≤31) (hx : x=2^e ∨ x=2^e+1) (b : Bool) :
    (x&&&(0xffffffff^^^1))|||b.toNat=2^e+b.toNat := by
  have hx' : ∃ c : Bool, x=2^e+c.toNat := by
    rcases hx with rfl | rfl
    · exact ⟨false,rfl⟩
    · exact ⟨true,rfl⟩
  obtain ⟨c,rfl⟩ := hx'
  have hall : ∀ e<32, 1≤e → ∀ c b : Bool,
      ((2^e+c.toNat)&&&(0xffffffff^^^1))|||b.toNat=2^e+b.toNat := by decide
  exact hall e (by omega) h1 c b

/-- Setting the parameters. -/
theorem setParams_spec {R param : List ℕ} {m : ℕ} {rows : List ℕ} (hs : param.Pairwise (·<·))
    (hb : ∀ j ∈ param, j < m) (hm : m ≤ 31) (h : Prepared R param m rows) (p : ℕ) :
    (setParams param p rows).length=rows.length ∧
      ∀ j < m, row (setParams param p rows) j=target R param m p j := by
  have hloop : ∀ k≤param.length, ((List.range k).foldl (fun rows c =>
      rows.set (param.getD c 0) ((rows.getD (param.getD c 0) 0&&&(0xffffffff^^^1))|||((p>>>c)&&&1))) rows).length=
        rows.length ∧
      ∀ j < m, row ((List.range k).foldl (fun rows c =>
        rows.set (param.getD c 0) ((rows.getD (param.getD c 0) 0&&&(0xffffffff^^^1))|||((p>>>c)&&&1))) rows) j=
        if j ∈ param ∧ rank param j<k then target R param m p j else row rows j := by
    intro k
    induction k with
    | zero =>
      intro _
      refine ⟨rfl,fun j _ => ?_⟩
      rw [if_neg (by omega)]
      rfl
    | succ k ih =>
      intro hk
      obtain ⟨hl,hg⟩ := ih (by omega)
      rw [List.range_succ,List.foldl_append,List.foldl_cons,List.foldl_nil]
      have hmem : param.getD k 0 ∈ param := by
        rw [List.getD_eq_getElem _ _ (by omega)]
        exact List.getElem_mem _
      have hlt := hb _ hmem
      -- the column at place `k` has rank `k`
      have hrank : rank param (param.getD k 0)=k := by
        have hg := getD_rank hs hmem
        have hnd : param.Nodup := hs.imp fun h => Nat.ne_of_lt h
        have hrl := rank_lt_length hs hmem
        rw [List.getD_eq_getElem _ _ hrl] at hg
        conv_rhs at hg => rw [List.getD_eq_getElem _ _ (show k<param.length by omega)]
        exact (hnd.getElem_inj_iff).mp hg
      refine ⟨by rw [List.length_set,hl],fun j hj => ?_⟩
      rw [row_set _ _ _ (by rw [hl]; have := h.length; omega)]
      by_cases he : param.getD k 0=j
      · subst he
        have hold := hg _ hlt
        rw [if_neg (by omega)] at hold
        have hbit : (p>>>k)&&&1=(p.testBit k).toNat := by
          rw [Nat.and_one_is_mod,Nat.testBit_eq_decide_div_mod_eq,Nat.shiftRight_eq_div_pow]
          rcases Nat.mod_two_eq_zero_or_one (p/2^k) with h0 | h0 <;> rw [h0] <;> rfl
        rw [if_pos rfl,if_pos ⟨hmem,by omega⟩,target,if_pos hmem,hrank,hbit]
        have hfake := h.fake _ hlt hmem
        rw [←hold] at hfake
        exact clear_low_bit (by omega) (by omega) hfake _
      · rw [if_neg he,hg j hj]
        by_cases hc : j ∈ param ∧ rank param j<k
        · rw [if_pos hc,if_pos ⟨hc.1,by omega⟩]
        · rw [if_neg hc,if_neg]
          rintro ⟨hjm,hjk⟩
          have hjk' : rank param j=k := by
            by_contra hne
            exact hc ⟨hjm,by omega⟩
          exact he (hjk' ▸ getD_rank hs hjm)
  obtain ⟨hl,hg⟩ := hloop param.length (Nat.le_refl _)
  refine ⟨hl,fun j hj => ?_⟩
  have hgj := hg j hj
  by_cases hmem : j ∈ param
  · rw [if_pos ⟨hmem,rank_lt_length hs hmem⟩] at hgj
    exact hgj
  · rw [if_neg (fun hc => hmem hc.1),h.pivot j hj hmem] at hgj
    rw [target,if_neg hmem]
    exact hgj

end Parameters

section Solutions

/-- Back substitution on a triangular system. -/
theorem backSubst_spec {m : ℕ} {rows : List ℕ} (hT : Triangular (row rows) m) (hm : m ≤ 31) (r tmp : ℕ)
    (hr : r ≤ m) (hlt : tmp<2^(m-r+1)) (heven : tmp%2=0)
    (hdone : ∀ j, r≤j → j < m → dot (row rows j) (tmp+1)=0) :
    backSubst m rows r tmp<2^(m+1) ∧ backSubst m rows r tmp%2=0 ∧
      Solves (row rows) m (backSubst m rows r tmp+1) := by
  have hor : ∀ x, x%2=0 → x|||1=x+1 := by
    intro x hx
    have := or_eq_xor (a := x) (b := 1) (s := 1) (by omega) (by omega)
    rw [this]
    have h2 := Nat.xor_one_of_even (Nat.even_iff.mpr hx)
    exact h2
  induction r generalizing tmp with
  | zero => exact ⟨hlt,heven,fun j hj => hdone j (Nat.zero_le j) hj⟩
  | succ r ih =>
    rw [backSubst,hor tmp heven]
    obtain ⟨hrow,hbit⟩ := hT r (by omega)
    have hexp : m-(r+1)+1=m-r := by omega
    rw [hexp] at hlt
    have hrow32 : row rows r<2^32 := lt_of_lt_of_le hrow (Nat.pow_le_pow_right (by omega) (by omega))
    obtain ⟨hp2,hpd⟩ := parity_and (v := tmp+1) hrow32
    set x := parity (rows.getD r 0&&&(tmp+1)) with hx
    have hpd' : ((x : ℕ) : ZMod 2)=dot (row rows r) (tmp+1) := hpd
    have hx2 : x<2 := hp2
    -- the new unknown is the sum of the others that the row selects
    have hsh : x<<<(m-r)=x*2^(m-r) := Nat.shiftLeft_eq x (m-r)
    have hcat : tmp|||(x<<<(m-r))=tmp^^^(x<<<(m-r)) := by
      rw [Nat.lor_comm,Nat.xor_comm]
      exact or_eq_xor (by rw [hsh]; exact Nat.mul_mod_left _ _) hlt
    have hxs : x<<<(m-r)<2^(m-r+1) := by
      rw [hsh,pow_succ,Nat.mul_comm]
      exact Nat.mul_lt_mul_of_pos_left hx2 (Nat.two_pow_pos _)
    have hnlt : tmp^^^(x<<<(m-r))<2^(m-r+1) :=
      Nat.xor_lt_two_pow (lt_of_lt_of_le hlt (Nat.pow_le_pow_right (by omega) (by omega))) hxs
    have hpow : 2^(m-r)%2=0 := by
      have : 2^(m-r)=2*2^(m-r-1) := by
        rw [←pow_succ']
        congr 1
        omega
      omega
    have hxe : x<<<(m-r)%2=0 := by
      rw [hsh,Nat.mul_mod,hpow,Nat.mul_zero,Nat.zero_mod]
    have hneven : (tmp^^^(x<<<(m-r)))%2=0 := by
      rw [Nat.xor_mod_two_eq,Nat.add_mod,heven,hxe]
    have hplus : (tmp^^^(x<<<(m-r)))+1=(tmp+1)^^^(x<<<(m-r)) := by
      have h1 := hor tmp heven
      have h2 := hor _ hneven
      rw [←h1,←h2,or_eq_xor (s := 1) (by omega) (by omega),
        or_eq_xor (s := 1) (by omega) (by omega),Nat.xor_assoc,Nat.xor_comm _ 1,
        Nat.xor_assoc]
    rw [hcat]
    apply ih _ (by omega) hnlt hneven
    intro j hrj hj
    rw [hplus,dot_xor]
    rcases Nat.eq_or_lt_of_le hrj with rfl | hlt'
    · rcases (by omega : x=0 ∨ x=1) with h0 | h1
      · rw [h0,Nat.zero_shiftLeft,dot_zero,add_zero,←hpd',h0,Nat.cast_zero]
      · rw [h1,Nat.one_shiftLeft,dot_two_pow,if_pos hbit,←hpd',h1,Nat.cast_one]
        decide
    · obtain ⟨hjrow,-⟩ := hT j hj
      rw [hdone j hlt' hj,zero_add,←dot_mod (lt_of_lt_of_le hjrow
        (Nat.pow_le_pow_right (by omega) (by omega : m-j+1≤ m-r))),hsh,Nat.mul_mod_left,dot_zero]

variable {R param : List ℕ} {m : ℕ}

/-- The systems of the parameter values are triangular. -/
theorem triangular_target
    (hpiv : ∀ j < m, j ∉ param → row R (j-rank param j)<2^(m-j+1) ∧
      (row R (j-rank param j)).testBit (m-j)=true) (p : ℕ) : Triangular (target R param m p) m := by
  intro j hj
  unfold target
  split
  · have hle := Bool.toNat_le (p.testBit (rank param j))
    have hpos : 2≤2^(m-j) := Nat.le_self_pow (by omega) 2
    refine ⟨by rw [pow_succ]; omega,?_⟩
    have hlt : (p.testBit (rank param j)).toNat<2^(m-j) := by omega
    rw [Nat.testBit_two_pow_add_eq,Nat.testBit_lt_two_pow hlt]
    rfl
  · next hn => exact hpiv j hj hn

/-- What a fake row says about a solution. -/
theorem dot_fake {e : ℕ} (he : 1≤e) (b : Bool) (v : ℕ) (hv : v%2=1) :
    dot (2^e+b.toNat) v=0 ↔ v.testBit e=b := by
  have hx : 2^e+b.toNat=2^e^^^b.toNat := by
    have hpow : 2^e%2=0 := by
      have : 2^e=2*2^(e-1) := by
        rw [←pow_succ']
        congr 1
        omega
      omega
    cases b with
    | false => exact (Nat.xor_zero _).symm
    | true => exact (Nat.xor_one_of_even (Nat.even_iff.mpr hpow)).symm
  have hv0 : v.testBit 0=true := by
    simpa using hv
  have hb : dot b.toNat v=if b then 1 else 0 := by
    cases b with
    | false => rw [dot_comm]; exact dot_zero v
    | true =>
      rw [dot_comm]
      have := dot_two_pow v 0
      rwa [pow_zero,hv0] at this
  rw [hx,xor_dot,dot_comm,dot_two_pow,hb]
  cases v.testBit e <;> cases b <;> decide

/-- The enumeration of the solutions. -/
theorem enumSolutions_spec (hs : param.Pairwise (·<·)) (hb : ∀ j ∈ param, j < m) (hm : m ≤ 31)
    (hpiv : ∀ j < m, j ∉ param → row R (j-rank param j)<2^(m-j+1) ∧
      (row R (j-rank param j)).testBit (m-j)=true) (fuel p : ℕ) (rows : List ℕ)
    (h : Prepared R param m rows) :
    (enumSolutions m param fuel p rows).length=fuel ∧
      ∀ i<fuel, (enumSolutions m param fuel p rows).getD i 0<2^m ∧
        Solves (target R param m (p+i)) m (2*(enumSolutions m param fuel p rows).getD i 0+1) := by
  induction fuel generalizing p rows with
  | zero => exact ⟨rfl,fun i hi => absurd hi (Nat.not_lt_zero i)⟩
  | succ fuel ih =>
    obtain ⟨hl,hset⟩ := setParams_spec hs hb hm h p
    have hprep : Prepared R param m (setParams param p rows) := by
      refine ⟨by rw [hl]; exact h.length,?_,?_⟩
      · intro j hj hn
        rw [hset j hj,target,if_neg hn]
      · intro j hj hmem
        rw [hset j hj,target,if_pos hmem]
        cases p.testBit (rank param j)
        · exact Or.inl rfl
        · exact Or.inr rfl
    have hT : Triangular (row (setParams param p rows)) m := by
      intro j hj
      rw [hset j hj]
      exact triangular_target hpiv p j hj
    obtain ⟨hlt,heven,hsol⟩ := backSubst_spec hT hm m 0 (Nat.le_refl m) (Nat.two_pow_pos _) rfl
      (fun j hj hj' => absurd hj' (by omega))
    obtain ⟨hlen,hrest⟩ := ih (p+1) (setParams param p rows) hprep
    rw [enumSolutions]
    refine ⟨by rw [List.length_cons,hlen],?_⟩
    intro i hi
    cases i with
    | zero =>
      rw [List.getD_cons_zero,Nat.add_zero]
      have hhalf : 2*(backSubst m (setParams param p rows) m 0>>>1)=
          backSubst m (setParams param p rows) m 0 := by
        omega
      rw [hhalf]
      refine ⟨?_,?_⟩
      · omega
      · intro j hj
        rw [←hset j hj]
        exact hsol j hj
    | succ i =>
      rw [List.getD_cons_succ,show p+(i+1)=p+1+i by ring]
      exact hrest i (by omega)

/-- The solutions of a system, read without the constant unknown. -/
noncomputable def solutions (rows : List ℕ) (m : ℕ) : Finset ℕ := by
  classical
  exact (Finset.range (2^m)).filter fun s => Solves (row rows) m (2*s+1)

theorem mem_solutions {rows : List ℕ} {m s : ℕ} :
    s ∈ solutions rows m ↔ s<2^m ∧ Solves (row rows) m (2*s+1) := by
  classical
  unfold solutions
  rw [Finset.mem_filter,Finset.mem_range]

/-- A solution of the eliminated system solves the triangular one of
exactly one choice of the parameters. -/
theorem exists_target (hs : param.Pairwise (·<·)) (hb : ∀ j ∈ param, j < m)
    (hzero : ∀ j < m, m≤j+param.length → row R j=0) {v : ℕ} (hv : v%2=1) :
    Solves (row R) m v ↔ ∃ p<2^param.length, Solves (target R param m p) m v := by
  have hrank := rank_eq_length hs hb
  constructor
  · intro hsol
    set p := Nat.ofBits fun i : Fin param.length => v.testBit (m-param.getD i 0)
    refine ⟨p,Nat.ofBits_lt_two_pow _,?_⟩
    intro j hj
    unfold target
    split
    · next hmem =>
      have hrl := rank_lt_length hs hmem
      rw [dot_fake (by omega) _ _ hv,Nat.testBit_ofBits_lt _ _ hrl]
      rw [getD_rank hs hmem]
    · exact hsol _ (by omega)
  · rintro ⟨p,-,hsol⟩ r hr
    rcases Nat.lt_or_ge (r+param.length) m with hlt | hge
    · obtain ⟨j,hj,hn,rfl⟩ := exists_column param m r (by omega)
      have := hsol j hj
      rwa [target,if_neg hn] at this
    · rw [hzero r hr hge,dot_comm]
      exact dot_zero v

/-- The parameters are read off the solution. -/
theorem target_unique (hs : param.Pairwise (·<·)) (hb : ∀ j ∈ param, j < m) {v p q : ℕ}
    (hv : v%2=1) (hp : p<2^param.length) (hq : q<2^param.length)
    (h : Solves (target R param m p) m v) (h' : Solves (target R param m q) m v) : p=q := by
  have hbit : ∀ p, Solves (target R param m p) m v → ∀ i<param.length,
      p.testBit i=v.testBit (m-param.getD i 0) := by
    intro p hp i hi
    have hmem : param.getD i 0 ∈ param := by
      rw [List.getD_eq_getElem _ _ hi]
      exact List.getElem_mem _
    have hj := hb _ hmem
    have hd := hp _ hj
    rw [target,if_pos hmem,dot_fake (by omega) _ _ hv] at hd
    have hnd : param.Nodup := hs.imp fun h => Nat.ne_of_lt h
    have hrl := rank_lt_length hs hmem
    have hg := getD_rank hs hmem
    rw [List.getD_eq_getElem _ _ hrl] at hg
    conv_rhs at hg => rw [List.getD_eq_getElem _ _ hi]
    rw [hd,hnd.getElem_inj_iff.mp hg]
  apply Nat.eq_of_testBit_eq
  intro i
  rcases Nat.lt_or_ge i param.length with hi | hi
  · rw [hbit p h i hi,hbit q h' i hi]
  · rw [Nat.testBit_lt_two_pow (lt_of_lt_of_le hp (Nat.pow_le_pow_right (by omega) hi)),
      Nat.testBit_lt_two_pow (lt_of_lt_of_le hq (Nat.pow_le_pow_right (by omega) hi))]

/-- The solver returns all solutions when there are as many as expected,
each of them once, and nothing otherwise. -/
theorem solveLinearSystem_spec {bch : BchControl} {rows : List ℕ} {nsol : ℕ} (hm : bch.m ≤ 31)
    (hlen : bch.m≤rows.length) (hrows : ∀ r < bch.m, row rows r<2^(bch.m+1)) (hn : 0<nsol) :
    ((solutions rows bch.m).card=nsol → (solveLinearSystem bch rows nsol).Nodup ∧
      (solveLinearSystem bch rows nsol).length=nsol ∧
      ∀ s, s ∈ solveLinearSystem bch rows nsol ↔ s ∈ solutions rows bch.m) ∧
    ((solutions rows bch.m).card≠nsol → solveLinearSystem bch rows nsol=[]) := by
  classical
  have hel := elimination hlen hrows bch.m (Nat.le_refl _)
  unfold solveLinearSystem
  dsimp only
  set m := bch.m
  set st := (List.range m).foldl (elimColumn m) ⟨rows,[]⟩
  have hrank := rank_eq_length hel.sorted hel.below
  have hmem : ∀ s, s ∈ solutions rows m ↔ s<2^m ∧ Solves (row st.rows) m (2*s+1) := by
    intro s
    rw [mem_solutions,hel.solves]
  have hins := insertParams_spec hel.sorted st.rows m st.rows (Nat.le_refl m) (by rw [hel.length]; exact hlen)
    (fun _ _ => rfl)
  rw [hrank] at hins
  -- rewriting without defective columns changes nothing
  have hprep : ∀ rows', (if 0<st.param.length then insertParams m st.param.length st.param m st.param.length
      st.rows else some st.rows)=some rows' →
      (∀ j < m, m≤j+st.param.length → row st.rows j=0) ∧ Prepared st.rows st.param m rows' := by
    intro rows' he
    split at he
    · obtain ⟨h1,h2,h3,-⟩ := hins.1 rows' he
      refine ⟨h1,by rw [h2,hel.length]; exact hlen,?_,?_⟩
      · intro j hj hn
        rw [h3 j hj,if_neg hn]
      · intro j hj hmem
        exact Or.inl (by rw [h3 j hj,if_pos hmem])
    · next hk =>
      cases he
      have hnil : st.param=[] := List.length_eq_zero_iff.mp (by omega)
      rw [hnil]
      refine ⟨?_,by rw [hel.length]; exact hlen,?_,?_⟩
      · intro j hj hmj
        rw [List.length_nil] at hmj
        omega
      · intro j hj _
        have hz : rank [] j=0 := by simp [rank]
        rw [hz,Nat.sub_zero]
      · intro j _ hmem
        simp at hmem
  cases hc : (if 0<st.param.length then insertParams m st.param.length st.param m st.param.length
      st.rows else some st.rows) with
  | none =>
    -- a row without unknowns cannot be solved
    have hnone : insertParams m st.param.length st.param m st.param.length st.rows=none := by
      split at hc
      · exact hc
      · cases hc
    obtain ⟨j,hj,hjm,hne⟩ := hins.2 hnone
    have hempty : (solutions rows m).card=0 := by
      rw [Finset.card_eq_zero]
      apply Finset.eq_empty_of_forall_notMem
      intro s hsm
      have hsol := ((hmem s).mp hsm).2 j hj
      have hlow := hel.low j hj (by omega)
      have hone : row st.rows j=1 := by
        have hexp : m-m+1=1 := by omega
        rw [hexp,pow_one] at hlow
        omega
      rw [hone,dot_comm,←pow_zero 2,dot_two_pow,if_pos] at hsol
      · exact one_ne_zero hsol
      · simp
    exact ⟨fun h => absurd (hempty.symm.trans h) (by omega),fun _ => rfl⟩
  | some rows' =>
    obtain ⟨hzero,hpr⟩ := hprep rows' hc
    dsimp only
    have hodd : ∀ s, (2*s+1)%2=1 := by
      intro s
      omega
    have hpow : 1<<<st.param.length=2^st.param.length := by rw [Nat.shiftLeft_eq,Nat.one_mul]
    obtain ⟨hel2,hall⟩ := enumSolutions_spec hel.sorted hel.below hm hel.pivot (2^st.param.length) 0 rows' hpr
    set L := enumSolutions m st.param (2^st.param.length) 0 rows' with hL
    have hex : ∀ s, s ∈ L ↔ s ∈ solutions rows m := by
      intro s
      rw [hmem]
      constructor
      · intro hs
        obtain ⟨i,hi,rfl⟩ := List.getElem_of_mem hs
        have hi' : i<2^st.param.length := by rw [←hel2]; exact hi
        have hsp := hall i hi'
        rw [List.getD_eq_getElem _ _ hi,Nat.zero_add] at hsp
        refine ⟨hsp.1,(exists_target hel.sorted hel.below hzero (hodd _)).mpr ⟨i,hi',hsp.2⟩⟩
      · rintro ⟨hlt,hsol⟩
        obtain ⟨p,hp,hsp⟩ := (exists_target hel.sorted hel.below hzero (hodd s)).mp hsol
        obtain ⟨hlt',hsp'⟩ := hall p hp
        rw [Nat.zero_add] at hsp'
        have hT := triangular_target hel.pivot p
        have heq : 2*s+1=2*L.getD p 0+1 := by
          apply hT.unique _ _ _ hsp hsp'
          · omega
          · omega
          · rw [Nat.testBit_zero,Nat.testBit_zero,hodd,hodd]
        have hsl : s=L.getD p 0 := by omega
        rw [hsl,List.getD_eq_getElem _ _ (by rw [hel2]; exact hp)]
        exact List.getElem_mem _
    have hnd : L.Nodup := by
      rw [List.nodup_iff_injective_getElem]
      intro i j hij
      have hi : i.val<2^st.param.length := by rw [←hel2]; exact i.isLt
      have hj : j.val<2^st.param.length := by rw [←hel2]; exact j.isLt
      have h1 := (hall i.val hi).2
      have h2 := (hall j.val hj).2
      rw [List.getD_eq_getElem _ _ i.isLt,Nat.zero_add] at h1
      rw [List.getD_eq_getElem _ _ j.isLt,Nat.zero_add] at h2
      dsimp only at hij
      rw [hij] at h1
      exact Fin.ext (target_unique hel.sorted hel.below (hodd _) hi hj h1 h2)
    have hcard : (solutions rows m).card=2^st.param.length := by
      have hset : L.toFinset=solutions rows m := by
        ext s
        rw [List.mem_toFinset,hex]
      rw [←hset,List.toFinset_card_of_nodup hnd,hel2]
    rw [hpow,hcard]
    by_cases he : nsol=2^st.param.length
    · rw [if_neg (not_not.mpr he),he]
      exact ⟨fun _ => ⟨hnd,hel2,hex⟩,fun h => absurd rfl h⟩
    · rw [if_pos he]
      exact ⟨fun h => absurd h.symm he,fun _ => rfl⟩

end Solutions

end ArdroneKernel.BchLinearSystem
