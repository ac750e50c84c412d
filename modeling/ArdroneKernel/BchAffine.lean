import ArdroneKernel.BchLinearSystem
import ArdroneKernel.BchPolynomial
import ArdroneKernel.BchTables

/-!
# Roots of affine polynomials of degree four

`find_affine4_roots` writes the images of the basis as the columns of a
linear system, transposes it in place and solves it. The transposition
exchanges, for every power of two below sixteen, the entries whose row and
column differ in that bit. The solver then finds the roots of the
polynomial exactly when there are four of them.
-/

namespace ArdroneKernel.BchAffine

open Polynomial BitPolynomial ParityEquations ArrayList BchInit BchField BchDecode BchPolynomial
  BchLinearSystem

section Transpose

/-- The entry of a matrix of bits. -/
def entry (rows : List ℕ) (r c : ℕ) : Bool := (row rows r).testBit c

/-- What a pair of rows exchanges. -/
def swapBits (rows : List ℕ) (j mask k b : ℕ) : Bool :=
  (entry rows k (b+j)^^entry rows (k+j) b) && mask.testBit b

/-- One pair of rows of the transposition. -/
def swapPair (j mask : ℕ) (rows : List ℕ) (k : ℕ) : List ℕ :=
  xorAt (xorAt rows k ((((rows.getD k 0>>>j)^^^rows.getD (k+j) 0)&&&mask)<<<j)) (k+j)
    (((rows.getD k 0>>>j)^^^rows.getD (k+j) 0)&&&mask)

theorem length_swapPair (j mask : ℕ) (rows : List ℕ) (k : ℕ) :
    (swapPair j mask rows k).length=rows.length := by
  rw [swapPair,length_xorAt,length_xorAt]

theorem entry_swapPair {j mask k : ℕ} {rows : List ℕ} (hj : 0<j) (hk : k+j<rows.length) (r c : ℕ) :
    entry (swapPair j mask rows k) r c=
      if r=k then entry rows k c^^(decide (j≤c) && swapBits rows j mask k (c-j))
      else if r=k+j then entry rows (k+j) c^^swapBits rows j mask k c else entry rows r c := by
  have hbits : ∀ b, (((rows.getD k 0>>>j)^^^rows.getD (k+j) 0)&&&mask).testBit b=
      swapBits rows j mask k b := by
    intro b
    rw [swapBits,Nat.testBit_and,Nat.testBit_xor,Nat.testBit_shiftRight,Nat.add_comm j b]
    rfl
  unfold entry row swapPair
  rw [getD_xorAt (by rw [length_xorAt]; exact hk),getD_xorAt (by omega)]
  by_cases h1 : r=k
  · subst h1
    rw [if_neg (by omega),if_pos rfl,if_pos rfl,Nat.testBit_xor,Nat.testBit_shiftLeft,hbits]
  · rw [if_neg h1]
    by_cases h2 : r=k+j
    · rw [if_pos h2,h2,if_pos rfl,if_neg (by omega),Nat.testBit_xor,hbits]
    · rw [if_neg h2,if_neg (Ne.symm h2),if_neg (Ne.symm h1)]

/-- All pairs of rows at one distance. -/
theorem entry_swapPairs {j mask : ℕ} (hj : 0<j) (ks : List ℕ)
    (hks : ks.Pairwise fun a b => a≠b ∧ a≠b+j ∧ a+j≠b) (rows : List ℕ)
    (hlen : ∀ k ∈ ks, k+j<rows.length) (hself : ∀ k ∈ ks, k+j ∉ ks) (r c : ℕ) :
    entry (ks.foldl (swapPair j mask) rows) r c=
      if r ∈ ks then entry rows r c^^(decide (j≤c) && swapBits rows j mask r (c-j))
      else if j≤r ∧ r-j ∈ ks then entry rows r c^^swapBits rows j mask (r-j) c else entry rows r c := by
  induction ks generalizing rows with
  | nil => simp
  | cons k ks ih =>
    obtain ⟨hk,hks'⟩ := List.pairwise_cons.mp hks
    have hkl := hlen k List.mem_cons_self
    rw [List.foldl_cons,ih hks' (swapPair j mask rows k)
      (fun k' hk' => by rw [length_swapPair]; exact hlen k' (List.mem_cons_of_mem _ hk'))
      (fun k' hk' hc => hself k' (List.mem_cons_of_mem _ hk') (List.mem_cons_of_mem _ hc))]
    -- the pairs still to come do not touch the rows of this one
    have hsame : ∀ k' ∈ ks, ∀ b, entry (swapPair j mask rows k) k' b=entry rows k' b ∧
        entry (swapPair j mask rows k) (k'+j) b=entry rows (k'+j) b := by
      intro k' hk' b
      obtain ⟨h1,h2,h3⟩ := hk k' hk'
      rw [entry_swapPair hj hkl,entry_swapPair hj hkl,if_neg (Ne.symm h1),if_neg (by omega),if_neg (by omega),
        if_neg (by omega)]
      exact ⟨rfl,rfl⟩
    have hsb : ∀ k' ∈ ks, ∀ b, swapBits (swapPair j mask rows k) j mask k' b=swapBits rows j mask k' b := by
      intro k' hk' b
      rw [swapBits,swapBits,(hsame k' hk' _).1,(hsame k' hk' _).2]
    by_cases hr : r ∈ ks
    · rw [if_pos hr,if_pos (List.mem_cons_of_mem _ hr),(hsame r hr c).1,hsb r hr]
    · rw [if_neg hr]
      by_cases hrk : r=k
      · subst hrk
        rw [if_pos List.mem_cons_self,if_neg,entry_swapPair hj hkl,if_pos rfl]
        rintro ⟨h1,h2⟩
        have := (hk _ h2).2.1
        omega
      · rw [if_neg (fun hc => (List.mem_cons.mp hc).elim hrk hr)]
        by_cases hrj : j≤r ∧ r-j ∈ ks
        · have hadd : r-j+j=r := Nat.sub_add_cancel hrj.1
          have he := (hsame (r-j) hrj.2 c).2
          rw [hadd] at he
          rw [if_pos hrj,if_pos ⟨hrj.1,List.mem_cons_of_mem _ hrj.2⟩,he,hsb _ hrj.2]
        · rw [if_neg hrj,entry_swapPair hj hkl,if_neg hrk]
          by_cases hrkj : r=k+j
          · rw [if_pos hrkj,if_pos,hrkj,Nat.add_sub_cancel]
            rw [hrkj,Nat.add_sub_cancel]
            exact ⟨Nat.le_add_left _ _,List.mem_cons_self⟩
          · rw [if_neg hrkj,if_neg]
            rintro ⟨h1,h2⟩
            rcases List.mem_cons.mp h2 with h | h
            · omega
            · exact hrj ⟨h1,h⟩

/-- The entry that a pass at distance `j` brings to a place. -/
def swapIndex (j r c : ℕ) : ℕ×ℕ := if (r&&&j=0 ↔ c&&&j=0) then (r,c) else (r^^^j,c^^^j)

/-- A pass at distance `j` exchanges the entries whose row and column
differ in that bit. -/
theorem entry_pass {j mask : ℕ} {ks rows : List ℕ} (hj : j ∈ [8,4,2,1])
    (hks : ks=(List.range 16).filter fun k => k&&&j=0)
    (hmask : ∀ b<32, mask.testBit b=decide (b<16 ∧ b&&&j=0)) (hm32 : mask<2^32)
    (hlen : rows.length=16) {r : ℕ} (hr : r<16) (c : ℕ) :
    entry (ks.foldl (swapPair j mask) rows) r c=
      if c<16 then entry rows (swapIndex j r c).1 (swapIndex j r c).2 else entry rows r c := by
  have hj0 : 0<j := by
    simp only [List.mem_cons,List.not_mem_nil,or_false] at hj
    omega
  have hmem : ∀ k, k ∈ ks ↔ k<16 ∧ k&&&j=0 := by
    intro k
    rw [hks]
    simp
  have hfacts : ∀ j ∈ [8,4,2,1], ∀ k<16, (k&&&j=0 → k+j<16 ∧ k+j=k^^^j ∧ (k+j)&&&j≠0 ∧
      (j≤k → (k-j)&&&j≠0)) ∧ (k&&&j≠0 → j≤k ∧ k-j=k^^^j ∧ (k-j)&&&j=0) := by decide
  have hpair : ks.Pairwise fun a b => a≠b ∧ a≠b+j ∧ a+j≠b := by
    have hall : ∀ j ∈ [8,4,2,1], ((List.range 16).filter fun k => k&&&j=0).Pairwise
        fun a b => a≠b ∧ a≠b+j ∧ a+j≠b := by decide
    rw [hks]
    exact hall j hj
  have hmb : ∀ b, mask.testBit b=decide (b<16 ∧ b&&&j=0) := by
    intro b
    rcases Nat.lt_or_ge b 32 with hb | hb
    · exact hmask b hb
    · rw [Nat.testBit_lt_two_pow (lt_of_lt_of_le hm32 (Nat.pow_le_pow_right (by omega) hb))]
      simp
      omega
  rw [entry_swapPairs hj0 ks hpair rows
    (fun k hk => by rw [hlen]; exact ((hfacts j hj k ((hmem k).mp hk).1).1 ((hmem k).mp hk).2).1)
    (fun k hk hc => ((hfacts j hj k ((hmem k).mp hk).1).1 ((hmem k).mp hk).2).2.2.1 ((hmem _).mp hc).2)]
  by_cases hrj : r&&&j=0
  · obtain ⟨h1,h2,-,-⟩ := (hfacts j hj r hr).1 hrj
    rw [if_pos ((hmem r).mpr ⟨hr,hrj⟩),swapBits,hmb]
    by_cases hc : c<16
    · rw [if_pos hc]
      by_cases hcj : c&&&j=0
      · have hz := ((hfacts j hj c hc).1 hcj).2.2.2
        have hidx : swapIndex j r c=(r,c) := by rw [swapIndex,if_pos (by simp [hrj,hcj])]
        rw [hidx]
        by_cases hle : j≤c
        · simp [hz hle]
        · simp [hle]
      · obtain ⟨h4,h5,h6⟩ := (hfacts j hj c hc).2 hcj
        have hidx : swapIndex j r c=(r^^^j,c^^^j) := by rw [swapIndex,if_neg (by simp [hrj,hcj])]
        have hcl : c-j<16 := by omega
        rw [hidx,Nat.sub_add_cancel h4,←h2,←h5]
        simp only [h4,hcl,h6,and_self,decide_true,Bool.and_true,Bool.true_and]
        cases entry rows r c <;> cases entry rows (r+j) (c-j) <;> rfl
    · rw [if_neg hc]
      have hz : ¬(c-j<16 ∧ (c-j)&&&j=0) ∨ ¬j≤c := by
        by_contra hcon
        push Not at hcon
        obtain ⟨⟨h3,h4⟩,h5⟩ := hcon
        have := ((hfacts j hj (c-j) h3).1 h4).1
        omega
      rcases hz with hz | hz
      · simp only [hz,decide_false,Bool.and_false,Bool.xor_false]
      · simp [hz]
  · obtain ⟨h1,h2,h3⟩ := (hfacts j hj r hr).2 hrj
    rw [if_neg (fun hc => hrj ((hmem r).mp hc).2),if_pos ⟨h1,(hmem _).mpr ⟨by omega,h3⟩⟩,swapBits,hmb]
    by_cases hc : c<16
    · by_cases hcj : c&&&j=0
      · obtain ⟨h4,h5,-,-⟩ := (hfacts j hj c hc).1 hcj
        have hidx : swapIndex j r c=(r^^^j,c^^^j) := by rw [swapIndex,if_neg (by simp [hrj,hcj])]
        rw [hidx,Nat.sub_add_cancel h1,←h2,←h5]
        simp only [hc,hcj,and_self,decide_true,Bool.and_true]
        cases entry rows r c <;> cases entry rows (r-j) (c+j) <;> rfl
      · have hidx : swapIndex j r c=(r,c) := by rw [swapIndex,if_pos (by simp [hrj,hcj])]
        rw [hidx]
        simp [hcj]
    · simp [hc]

theorem length_swapPairs (j mask : ℕ) (ks rows : List ℕ) :
    (ks.foldl (swapPair j mask) rows).length=rows.length := by
  induction ks generalizing rows with
  | nil => rfl
  | cons k ks ih => rw [List.foldl_cons,ih,length_swapPair]

/-- The first rows of the pairs at distance `j`, from row `k` on. -/
def pairRows (j : ℕ) : ℕ → ℕ → List ℕ
  | 0,_ => []
  | fuel+1,k => if k<16 then k::pairRows j fuel ((k+j+1)&&&(0xffffffff^^^j)) else []

theorem transposeRows_eq (j mask fuel k : ℕ) (rows : List ℕ) :
    transposeRows j mask fuel k rows=(pairRows j fuel k).foldl (swapPair j mask) rows := by
  induction fuel generalizing k rows with
  | zero => rfl
  | succ fuel ih =>
    rw [transposeRows,pairRows]
    by_cases hk : k<16
    · rw [if_pos hk,if_pos hk,List.foldl_cons,←ih]
      rfl
    · rw [if_neg hk,if_neg hk,List.foldl_nil]

theorem pairRows_eq : ∀ j ∈ [8,4,2,1], pairRows j 16 0=(List.range 16).filter fun k => k&&&j=0 := by
  decide

theorem transposeLoop_zero (fuel mask : ℕ) (rows : List ℕ) : transposeLoop fuel 0 mask rows=rows := by
  cases fuel with
  | zero => rfl
  | succ fuel => rw [transposeLoop,if_neg (by simp)]

theorem transposeLoop_succ {fuel j mask : ℕ} (hj : j ∈ [8,4,2,1]) (rows : List ℕ) :
    transposeLoop (fuel+1) j mask rows=transposeLoop fuel (j>>>1) (mask^^^(mask<<<(j>>>1)))
      (((List.range 16).filter fun k => k&&&j=0).foldl (swapPair j mask) rows) := by
  have hj0 : j≠0 := by
    rintro rfl
    simp at hj
  rw [transposeLoop,if_pos hj0,transposeRows_eq,pairRows_eq j hj]

/-- The transposition as four passes. -/
theorem transposeLoop_eq (rows : List ℕ) : transposeLoop 5 8 0xff rows=
    ((List.range 16).filter fun k => k&&&1=0).foldl (swapPair 1 0x5555)
      (((List.range 16).filter fun k => k&&&2=0).foldl (swapPair 2 0x3333)
        (((List.range 16).filter fun k => k&&&4=0).foldl (swapPair 4 0xf0f)
          (((List.range 16).filter fun k => k&&&8=0).foldl (swapPair 8 0xff) rows))) := by
  rw [transposeLoop_succ (by decide),transposeLoop_succ (by decide),transposeLoop_succ (by decide),
    transposeLoop_succ (by decide)]
  exact transposeLoop_zero _ _ _

/-- The loop transposes the matrix. -/
theorem entry_transposeLoop {rows : List ℕ} (hlen : rows.length=16)
    (hfit : ∀ r<16, row rows r<2^16) :
    (transposeLoop 5 8 0xff rows).length=16 ∧
      ∀ r<16, ∀ c, entry (transposeLoop 5 8 0xff rows) r c=(decide (c<16) && entry rows c r) := by
  have hm : ∀ j ∈ [8,4,2,1], ∀ mask, (j,mask) ∈ [(8,0xff),(4,0xf0f),(2,0x3333),(1,0x5555)] →
      (∀ b<32, mask.testBit b=decide (b<16 ∧ b&&&j=0)) ∧ mask<2^32 := by
    intro j _ mask hmem
    simp only [List.mem_cons,Prod.mk.injEq,List.not_mem_nil,or_false] at hmem
    rcases hmem with ⟨rfl,rfl⟩ | ⟨rfl,rfl⟩ | ⟨rfl,rfl⟩ | ⟨rfl,rfl⟩ <;> exact ⟨by decide,by norm_num⟩
  rw [transposeLoop_eq]
  refine ⟨by rw [length_swapPairs,length_swapPairs,length_swapPairs,length_swapPairs,hlen],?_⟩
  intro r hr c
  obtain ⟨m8,l8⟩ := hm 8 (by decide) 0xff (by decide)
  obtain ⟨m4,l4⟩ := hm 4 (by decide) 0xf0f (by decide)
  obtain ⟨m2,l2⟩ := hm 2 (by decide) 0x3333 (by decide)
  obtain ⟨m1,l1⟩ := hm 1 (by decide) 0x5555 (by decide)
  have e8 := fun r (hr : r<16) c => entry_pass (j := 8) (by decide) rfl m8 l8 hlen hr c
  have e4 := fun r (hr : r<16) c => entry_pass (j := 4) (by decide) rfl m4 l4
    (by rw [length_swapPairs]; exact hlen : (((List.range 16).filter fun k => k&&&8=0).foldl
      (swapPair 8 0xff) rows).length=16) hr c
  have e2 := fun r (hr : r<16) c => entry_pass (j := 2) (by decide) rfl m2 l2
    (by rw [length_swapPairs,length_swapPairs]; exact hlen : (((List.range 16).filter fun k => k&&&4=0).foldl
      (swapPair 4 0xf0f) (((List.range 16).filter fun k => k&&&8=0).foldl
      (swapPair 8 0xff) rows)).length=16) hr c
  rw [entry_pass (j := 1) (by decide) rfl m1 l1
    (by rw [length_swapPairs,length_swapPairs,length_swapPairs]; exact hlen) hr]
  rcases Nat.lt_or_ge c 16 with hc | hc
  · have hidx : ∀ r<16, ∀ c<16, (swapIndex 1 r c).1<16 ∧ (swapIndex 1 r c).2<16 ∧
        (swapIndex 2 (swapIndex 1 r c).1 (swapIndex 1 r c).2).1<16 ∧
        (swapIndex 2 (swapIndex 1 r c).1 (swapIndex 1 r c).2).2<16 ∧
        (swapIndex 4 (swapIndex 2 (swapIndex 1 r c).1 (swapIndex 1 r c).2).1
          (swapIndex 2 (swapIndex 1 r c).1 (swapIndex 1 r c).2).2).1<16 ∧
        (swapIndex 4 (swapIndex 2 (swapIndex 1 r c).1 (swapIndex 1 r c).2).1
          (swapIndex 2 (swapIndex 1 r c).1 (swapIndex 1 r c).2).2).2<16 ∧
        swapIndex 8 (swapIndex 4 (swapIndex 2 (swapIndex 1 r c).1 (swapIndex 1 r c).2).1
          (swapIndex 2 (swapIndex 1 r c).1 (swapIndex 1 r c).2).2).1
          (swapIndex 4 (swapIndex 2 (swapIndex 1 r c).1 (swapIndex 1 r c).2).1
          (swapIndex 2 (swapIndex 1 r c).1 (swapIndex 1 r c).2).2).2=(c,r) := by decide +kernel
    obtain ⟨i1,i2,i3,i4,i5,i6,i7⟩ := hidx r hr c hc
    rw [if_pos hc,e2 _ i1,if_pos i2,e4 _ i3,if_pos i4,e8 _ i5,if_pos i6,i7]
    simp [hc]
  · rw [if_neg (by omega),e2 r hr,if_neg (by omega),e4 r hr,if_neg (by omega),e8 r hr,if_neg (by omega)]
    have hz : entry rows r c=false := Nat.testBit_lt_two_pow (lt_of_lt_of_le (hfit r hr)
      (Nat.pow_le_pow_right (by omega) hc))
    rw [hz]
    simp [Nat.not_lt.mpr hc]

end Transpose

section System

variable {F : Type*} [Field F] {α : F} {bch : BchControl} {a b c : ℕ}

/-- The value of an affine polynomial of degree four. -/
def affine4 (a b c x : F) : F := x^4+a*x^2+b*x+c

/-- The image of one element of the basis. -/
def affine4Image (bch : BchControl) (a b i : ℕ) : ℕ :=
  bch.aPowTab.getD (4*i) 0
    ^^^(if a≠0 then bch.aPowTab.getD (modS bch (aLog bch a+2*i)) 0 else 0)
    ^^^(if b≠0 then bch.aPowTab.getD (modS bch (aLog bch b+i)) 0 else 0)

/-- Small exponents stay inside the table. -/
theorem four_mul_le (h : FieldTables α bch) {i : ℕ} (hi : i < bch.m) : 4*i≤bch.n := by
  have hall : ∀ m<16, 5≤ m → 4*(m-1)≤2^m-1 := by decide
  have hr := h.range
  have := hall bch.m (by omega) hr.1
  rw [h.n_eq]
  omega

/-- The term of one coefficient of the affine polynomial. -/
theorem affine4_term (h : FieldTables α bch) (ha : a<2^bch.m) {k : ℕ} (hk : k≤bch.n) :
    (if a≠0 then bch.aPowTab.getD (modS bch (aLog bch a+k)) 0 else 0)<2^bch.m ∧
      bitSum α (if a≠0 then bch.aPowTab.getD (modS bch (aLog bch a+k)) 0 else 0)=bitSum α a*α^k := by
  by_cases h0 : a=0
  · subst h0
    rw [if_neg (by simp),bitSum_zero,zero_mul]
    exact ⟨Nat.two_pow_pos _,rfl⟩
  · have hl := h.aLog_lt ha
    have hs : modS bch (aLog bch a+k)≤bch.n := (FieldTables.modS_lt (by omega)).le
    rw [if_pos h0,h.bitSum_pow hs,h.pow_modS,pow_add,h.pow_aLog h0 ha]
    exact ⟨h.pow_lt hs,rfl⟩

theorem affine4Image_lt (h : FieldTables α bch) (ha : a<2^bch.m) (hb : b<2^bch.m) {i : ℕ}
    (hi : i < bch.m) : affine4Image bch a b i<2^bch.m := by
  have h4 := four_mul_le h hi
  exact Nat.xor_lt_two_pow (Nat.xor_lt_two_pow (h.pow_lt h4) (affine4_term h ha (by omega)).1)
    (affine4_term h hb (by omega)).1

/-- The rows are the constant term and the images of the basis. -/
theorem row_affine4Rows (h : FieldTables α bch) (r : ℕ) : (affine4Rows bch a b c).length=16 ∧
    row (affine4Rows bch a b c) r=
      if r=0 then c else if r ≤ bch.m then affine4Image bch a b (r-1) else 0 := by
  have hm := h.range
  have hloop : ∀ k, k ≤ bch.m → ((List.range k).foldl (fun rows i => rows.set (i+1) (affine4Image bch a b i))
      ((List.replicate 16 0).set 0 c)).length=16 ∧
      ∀ r, row ((List.range k).foldl (fun rows i => rows.set (i+1) (affine4Image bch a b i))
        ((List.replicate 16 0).set 0 c)) r=
        if r=0 then c else if r≤k then affine4Image bch a b (r-1) else 0 := by
    intro k
    induction k with
    | zero =>
      intro _
      refine ⟨rfl,?_⟩
      intro r
      rw [List.range_zero,List.foldl_nil,row_set _ _ _ (by simp)]
      by_cases hr : r=0
      · rw [if_pos hr.symm,if_pos hr]
      · rw [if_neg (Ne.symm hr),if_neg hr,if_neg (by omega)]
        have hz : ∀ l : List ℕ, (∀ x ∈ l, x=0) → l.getD r 0=0 := fun l hl =>
          forall_getD (P := (·=0)) rfl hl r
        exact hz _ (by simp)
    | succ k ih =>
      intro hk
      obtain ⟨hl,hg⟩ := ih (by omega)
      rw [List.range_succ,List.foldl_append,List.foldl_cons,List.foldl_nil]
      refine ⟨by rw [List.length_set,hl],?_⟩
      intro r
      rw [row_set _ _ _ (by rw [hl]; omega),hg]
      by_cases hr : k+1=r
      · subst hr
        rw [if_pos rfl,if_neg (by omega),if_pos (Nat.le_refl _),Nat.add_sub_cancel]
      · rw [if_neg hr]
        by_cases h0 : r=0
        · rw [if_pos h0,if_pos h0]
        · rw [if_neg h0,if_neg h0]
          by_cases hle : r≤k
          · rw [if_pos hle,if_pos (by omega)]
          · rw [if_neg hle,if_neg (by omega)]
  obtain ⟨hl,hg⟩ := hloop bch.m (Nat.le_refl _)
  exact ⟨hl,hg r⟩

variable [CharP F 2]

theorem bitSum_affine4Image (h : FieldTables α bch) (ha : a<2^bch.m) (hb : b<2^bch.m) {i : ℕ}
    (hi : i < bch.m) : bitSum α (affine4Image bch a b i)=
      (α^i)^4+bitSum α a*(α^i)^2+bitSum α b*α^i := by
  have h4 := four_mul_le h hi
  rw [affine4Image,bitSum_xor,bitSum_xor,h.bitSum_pow h4,(affine4_term h ha (by omega)).2,
    (affine4_term h hb (by omega)).2,←pow_mul,←pow_mul,Nat.mul_comm 4,Nat.mul_comm 2]

/-- The value of the affine polynomial as the exclusive or of rows. -/
def affine4Value (bch : BchControl) (a b c s : ℕ) : ℕ :=
  (List.range bch.m).foldl (fun sum i => sum^^^if s.testBit i then affine4Image bch a b i else 0) c

omit [CharP F 2] in
theorem affine4Value_lt (h : FieldTables α bch) (ha : a<2^bch.m) (hb : b<2^bch.m) (hc : c<2^bch.m)
    (s : ℕ) : affine4Value bch a b c s<2^bch.m := by
  apply BchTables.foldl_xor_lt _ _ _ hc
  intro i hi
  split
  · exact affine4Image_lt h ha hb hi
  · exact Nat.two_pow_pos _

/-- Raising to powers of two goes through the sum of bits. -/
theorem bitSum_pow_two_pow {s m : ℕ} (hs : s<2^m) (k : ℕ) :
    bitSum α s^2^k=∑ i ∈ Finset.range m, if s.testBit i then (α^i)^2^k else 0 := by
  rw [bitSum_eq_sum α hs,sum_pow_char_pow 2]
  apply Finset.sum_congr rfl
  intro i _
  split
  · rfl
  · exact zero_pow (Nat.two_pow_pos k).ne'

theorem bitSum_affine4Value (h : FieldTables α bch) (ha : a<2^bch.m) (hb : b<2^bch.m) {s : ℕ}
    (hs : s<2^bch.m) : bitSum α (affine4Value bch a b c s)=
      affine4 (bitSum α a) (bitSum α b) (bitSum α c) (bitSum α s) := by
  have h4 : bitSum α s^2^2=_ := bitSum_pow_two_pow hs 2
  have h2 : bitSum α s^2^1=_ := bitSum_pow_two_pow hs 1
  have h1 := bitSum_eq_sum α hs
  rw [affine4Value,BchTables.bitSum_foldl_xor,affine4,show (4 : ℕ)=2^2 by rfl,h4,
    show bitSum α s^2=bitSum α s^2^1 by rfl,h2]
  conv_rhs => rw [h1]
  rw [Finset.mul_sum,Finset.mul_sum,←Finset.sum_add_distrib,←Finset.sum_add_distrib,add_comm]
  congr 1
  apply Finset.sum_congr rfl
  intro i hi
  have him := Finset.mem_range.mp hi
  split
  · rw [bitSum_affine4Image h ha hb him]
    norm_num
  · simp

omit [CharP F 2] in
/-- One bit of a sum of rows. -/
theorem dot_foldl_xor (f : ℕ → ℕ) (k s v : ℕ) :
    dot ((List.range k).foldl (fun sum i => sum^^^f i) s) v=dot s v+∑ i ∈ Finset.range k, dot (f i) v := by
  induction k with
  | zero => simp
  | succ k ih =>
    rw [List.range_succ,List.foldl_append,List.foldl_cons,List.foldl_nil,xor_dot,ih,Finset.sum_range_succ,
      add_assoc]

omit [CharP F 2] in
/-- The transposed rows as equations: row `r` says that bit `r` of the
value is clear. -/
theorem dot_transposed (h : FieldTables α bch) (ha : a<2^bch.m) (hb : b<2^bch.m) (hc : c<2^bch.m)
    {r : ℕ} (hr : r<16) (s : ℕ) :
    row (transposeLoop 5 8 0xff (affine4Rows bch a b c)) r<2^(bch.m+1) ∧
      dot (row (transposeLoop 5 8 0xff (affine4Rows bch a b c)) r) (2*s+1)=
        dot (affine4Value bch a b c s) (2^r) := by
  have hm := h.range
  have h16 : 2^bch.m<2^16 := Nat.pow_lt_pow_right (by omega) (by omega)
  have hrow : ∀ q, row (affine4Rows bch a b c) q<2^bch.m := by
    intro q
    rw [(row_affine4Rows h q).2]
    split
    · exact hc
    · split
      · exact affine4Image_lt h ha hb (by omega)
      · exact Nat.two_pow_pos _
  have hbit : ∀ q, (row (transposeLoop 5 8 0xff (affine4Rows bch a b c)) r).testBit q=
      (decide (q<16) && (row (affine4Rows bch a b c) q).testBit r) :=
    fun q => (entry_transposeLoop (row_affine4Rows h 0).1 (fun q _ => (hrow q).trans h16)).2 r hr q
  generalize row (transposeLoop 5 8 0xff (affine4Rows bch a b c)) r=T at hbit ⊢
  have hTlt : T<2^(bch.m+1) := by
    apply Nat.lt_pow_two_of_testBit
    intro q hq
    rw [hbit,(row_affine4Rows h q).2,if_neg (by omega),if_neg (by omega)]
    simp
  refine ⟨hTlt,?_⟩
  have hand : T&&&(2*s+1)<2^(bch.m+1) := lt_of_le_of_lt Nat.and_le_left hTlt
  rw [dot,bitSum_eq_sum 1 hand,Finset.sum_range_succ',affine4Value,dot_foldl_xor,add_comm]
  have hlow : (2*s+1).testBit 0=true := by simp
  have hhigh : ∀ i, (2*s+1).testBit (i+1)=s.testBit i := by
    intro i
    rw [Nat.testBit_succ]
    congr 1
    omega
  have hconst : (if (T&&&(2*s+1)).testBit 0 then (1 : ZMod 2)^0 else 0)=dot c (2^r) := by
    rw [Nat.testBit_and,hbit,hlow,(row_affine4Rows h 0).2,if_pos rfl,dot_two_pow]
    simp
  congr 1
  · apply Finset.sum_congr rfl
    intro i hi
    have him := Finset.mem_range.mp hi
    have hrow : row (affine4Rows bch a b c) (i+1)=affine4Image bch a b i := by
      rw [(row_affine4Rows h (i+1)).2,if_neg (by omega),if_pos (by omega),Nat.add_sub_cancel]
    rw [Nat.testBit_and,hbit,hhigh,hrow]
    have h15 : i+1<16 := by omega
    cases s.testBit i <;> simp [h15,dot_two_pow]

/-- The solutions of the system are the roots of the polynomial. -/
theorem mem_solutions_affine4 (h : FieldTables α bch) (ha : a<2^bch.m) (hb : b<2^bch.m)
    (hc : c<2^bch.m) {s : ℕ} :
    s ∈ solutions (transposeLoop 5 8 0xff (affine4Rows bch a b c)) bch.m ↔
      s<2^bch.m ∧ affine4 (bitSum α a) (bitSum α b) (bitSum α c) (bitSum α s)=0 := by
  have hm := h.range
  rw [mem_solutions]
  refine and_congr_right fun hs => ?_
  have hlt := affine4Value_lt h ha hb hc s
  rw [←bitSum_affine4Value h ha hb hs,h.bitSum_eq_zero hlt]
  constructor
  · intro hsol
    apply Nat.eq_of_testBit_eq
    intro r
    rw [Nat.zero_testBit]
    rcases Nat.lt_or_ge r bch.m with hr | hr
    · have hd := hsol r hr
      rw [(dot_transposed h ha hb hc (by omega) s).2,dot_two_pow] at hd
      by_contra hne
      rw [Bool.not_eq_false] at hne
      rw [if_pos hne] at hd
      exact one_ne_zero hd
    · exact Nat.testBit_lt_two_pow (lt_of_lt_of_le hlt (Nat.pow_le_pow_right (by omega) hr))
  · intro hz r hr
    rw [(dot_transposed h ha hb hc (by omega) s).2,hz,dot_comm,dot_zero]

omit [CharP F 2] in
/-- An affine polynomial has at most four roots. -/
theorem card_affine4_roots_le {a b c : F} (S : Finset F) (hS : ∀ x ∈ S, affine4 a b c x=0) : S.card≤4 := by
  classical
  set p : F[X] := X^4+C a*X^2+C b*X+C c with hp
  have hd : p.natDegree=4 := by
    rw [hp]
    compute_degree!
  have h0 : p≠0 := by
    intro hz
    rw [hz,natDegree_zero] at hd
    omega
  have hsub : S ⊆ p.roots.toFinset := by
    intro x hx
    rw [Multiset.mem_toFinset,mem_roots h0,IsRoot,hp]
    simpa [affine4] using hS x hx
  calc S.card≤p.roots.toFinset.card := Finset.card_le_card hsub
    _≤Multiset.card p.roots := Multiset.toFinset_card_le _
    _≤p.natDegree := card_roots' p
    _=4 := hd

/-- `find_affine4_roots` finds exactly the roots when there are four of
them, and nothing otherwise. -/
theorem findAffine4Roots_spec (h : FieldTables α bch) [Finite F] (ha : a<2^bch.m) (hb : b<2^bch.m)
    (hc : c<2^bch.m) :
    ((findAffine4Roots bch a b c).length=4 ∧ (findAffine4Roots bch a b c).Nodup ∧
      ∀ s, s ∈ findAffine4Roots bch a b c ↔
        s<2^bch.m ∧ affine4 (bitSum α a) (bitSum α b) (bitSum α c) (bitSum α s)=0) ∨
    (findAffine4Roots bch a b c=[] ∧
      ∀ S : Finset F, S.card=4 → ∃ x ∈ S, affine4 (bitSum α a) (bitSum α b) (bitSum α c) x≠0) := by
  classical
  have hm := h.range
  have hrows := (entry_transposeLoop (row_affine4Rows (a := a) (b := b) (c := c) h 0).1 (by
    intro r _
    have h16 : 2^bch.m<2^16 := Nat.pow_lt_pow_right (by omega) (by omega)
    rw [(row_affine4Rows h r).2]
    split
    · exact hc.trans h16
    · split
      · exact (affine4Image_lt h ha hb (by omega)).trans h16
      · norm_num)).1
  have hspec := @solveLinearSystem_spec bch (transposeLoop 5 8 0xff (affine4Rows bch a b c)) 4
    (by omega) (by omega)
    (fun r hr => (dot_transposed h ha hb hc (by omega) 0).1) (by omega)
  have hmem := fun s => mem_solutions_affine4 (s := s) h ha hb hc
  unfold findAffine4Roots
  generalize transposeLoop 5 8 0xff (affine4Rows bch a b c)=T at hspec hmem ⊢
  by_cases hcard : (solutions T bch.m).card=4
  · obtain ⟨hnd,hlen,hin⟩ := hspec.1 hcard
    exact Or.inl ⟨hlen,hnd,fun s => (hin s).trans (hmem s)⟩
  · refine Or.inr ⟨hspec.2 hcard,fun S h4 => ?_⟩
    by_contra hcon
    push Not at hcon
    apply hcard
    have himg : S ⊆ (solutions T bch.m).image (bitSum α) := by
      intro x hx
      obtain ⟨s,hs,rfl⟩ := h.prim.exists_bits x
      exact Finset.mem_image_of_mem _ ((hmem s).mpr ⟨hs,hcon _ hx⟩)
    have hle : ((solutions T bch.m).image (bitSum α)).card≤4 := by
      apply card_affine4_roots_le (a := bitSum α a) (b := bitSum α b) (c := bitSum α c)
      intro x hx
      obtain ⟨s,hs,rfl⟩ := Finset.mem_image.mp hx
      exact ((hmem s).mp hs).2
    have hinj : ((solutions T bch.m).image (bitSum α)).card=(solutions T bch.m).card := by
      apply Finset.card_image_of_injOn
      intro s hs s' hs' he
      exact h.prim.inj ((hmem s).mp hs).1 ((hmem s').mp hs').1 he
    have hge := Finset.card_le_card himg
    omega

end System

end ArdroneKernel.BchAffine
