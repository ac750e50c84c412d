import ArdroneKernel.ArrayList
import ArdroneKernel.BitPolynomial

/-!
# Lists of words as polynomials

A list of words of one width is read as a polynomial over the two-element
field, the first word holding the highest coefficients. Concatenation,
addition of rows and the choice of the word width act on these polynomials
in the obvious way, and a list is determined by its length and its
polynomial. This is the form in which shift-register code keeps a
remainder, so that its loops can be compared with polynomial division.
-/

namespace ArdroneKernel.PackedPolynomial

open Polynomial BitPolynomial ArrayList

/-- The polynomial of a list of `k`-bit words, the first word on top. -/
noncomputable def packed (k : ℕ) : List ℕ → (ZMod 2)[X]
  | [] => 0
  | w::ws => bitPoly w*X^(k*ws.length)+packed k ws

/-- All words fit the width. -/
def Fits (k : ℕ) (ws : List ℕ) : Prop := ∀ w ∈ ws, w<2^k

variable {k : ℕ} {ws : List ℕ}

theorem fits_cons {w : ℕ} : Fits k (w::ws) ↔ w<2^k ∧ Fits k ws :=
  List.forall_mem_cons

theorem Fits.getD (h : Fits k ws) (i : ℕ) : ws.getD i 0<2^k :=
  forall_getD (P := fun w => w<2^k) (Nat.two_pow_pos k) h i

theorem fits_of_getD (h : ∀ i<ws.length, ws.getD i 0<2^k) : Fits k ws := by
  intro w hw
  obtain ⟨i,hi,rfl⟩ := List.getElem_of_mem hw
  have := h i hi
  rwa [List.getD_eq_getElem _ _ hi] at this

@[simp]
theorem packed_nil : packed k []=0 := rfl

theorem packed_cons (w : ℕ) (ws : List ℕ) :
    packed k (w::ws)=bitPoly w*X^(k*ws.length)+packed k ws := rfl

@[simp]
theorem packed_singleton (w : ℕ) : packed k [w]=bitPoly w := by
  rw [packed_cons,List.length_nil,Nat.mul_zero,pow_zero,mul_one,packed_nil,add_zero]

theorem packed_append (a b : List ℕ) :
    packed k (a++b)=packed k a*X^(k*b.length)+packed k b := by
  induction a with
  | nil => rw [List.nil_append,packed_nil,zero_mul,zero_add]
  | cons w a ih =>
    rw [List.cons_append,packed_cons,packed_cons,ih,List.length_append]
    ring

@[simp]
theorem packed_replicate (n : ℕ) : packed k (List.replicate n 0)=0 := by
  induction n with
  | zero => rfl
  | succ n ih => rw [List.replicate_succ,packed_cons,ih,bitPoly,bitSum_zero,zero_mul,add_zero]

/-- Adding rows of one length adds their polynomials. -/
theorem packed_zipWith_xor {a b : List ℕ} (h : a.length=b.length) :
    packed k (List.zipWith (·^^^·) a b)=packed k a+packed k b := by
  induction a generalizing b with
  | nil =>
    rw [List.length_eq_zero_iff.mp h.symm]
    simp
  | cons w a ih =>
    cases b with
    | nil => simp at h
    | cons v b =>
      have hl : a.length=b.length := by simpa using h
      rw [List.zipWith_cons_cons,packed_cons,packed_cons,packed_cons,ih hl,List.length_zipWith,
        bitPoly,bitSum_xor,hl,Nat.min_self]
      ring

theorem fits_zipWith_xor {a b : List ℕ} (ha : Fits k a) (hb : Fits k b) :
    Fits k (List.zipWith (·^^^·) a b) := by
  intro w hw
  obtain ⟨i,hi,rfl⟩ := List.getElem_of_mem hw
  rw [List.getElem_zipWith]
  exact Nat.xor_lt_two_pow (ha _ (List.getElem_mem _)) (hb _ (List.getElem_mem _))

theorem fits_replicate (n : ℕ) : Fits k (List.replicate n 0) := by
  intro w hw
  rw [(List.mem_replicate.mp hw).2]
  exact Nat.two_pow_pos k

theorem degree_packed_lt (h : Fits k ws) : (packed k ws).degree<(k*ws.length : ℕ) := by
  induction ws with
  | nil =>
    exact WithBot.bot_lt_coe _
  | cons w ws ih =>
    obtain ⟨hw,hws⟩ := fits_cons.mp h
    have hlen : k*(w::ws).length=k+k*ws.length := by
      rw [List.length_cons]
      ring
    rw [packed_cons,hlen]
    apply lt_of_le_of_lt (degree_add_le _ _)
    apply max_lt
    · rw [degree_mul,degree_X_pow,Nat.cast_add]
      exact WithBot.add_lt_add_right (by exact WithBot.coe_ne_bot) (degree_bitPoly_lt.mpr hw)
    · exact lt_of_lt_of_le (ih hws) (by exact_mod_cast Nat.le_add_left _ _)

/-- The bits of the words are the coefficients. -/
theorem coeff_packed (h : Fits k ws) {j b : ℕ} (hj : j<ws.length) (hb : b<k) :
    (packed k ws).coeff (k*(ws.length-1-j)+b)=if (ws.getD j 0).testBit b then 1 else 0 := by
  induction ws generalizing j with
  | nil => simp at hj
  | cons w ws ih =>
    obtain ⟨hw,hws⟩ := fits_cons.mp h
    rw [packed_cons,coeff_add,List.length_cons,Nat.add_sub_cancel]
    cases j with
    | zero =>
      rw [Nat.sub_zero,Nat.add_comm (k*ws.length) b,coeff_mul_X_pow,coeff_bitPoly,
        List.getD_cons_zero,coeff_eq_zero_of_degree_lt,add_zero]
      exact lt_of_lt_of_le (degree_packed_lt hws) (by exact_mod_cast Nat.le_add_left _ _)
    | succ j =>
      have hjl : j<ws.length := by simpa using hj
      have hlt : k*(ws.length-1-j)+b<k*ws.length := by
        have hm : k*(ws.length-1-j)+k=k*(ws.length-j) := by
          rw [←Nat.mul_succ]
          congr 1
          omega
        have hle : k*(ws.length-j)≤k*ws.length := Nat.mul_le_mul_left k (by omega)
        omega
      have hsub : ws.length-(j+1)=ws.length-1-j := by omega
      rw [hsub,coeff_mul_X_pow',if_neg (by omega),zero_add,List.getD_cons_succ]
      exact ih hws hjl

/-- A polynomial with these coefficients is the one of the list. -/
theorem packed_eq (h : Fits k ws) {p : (ZMod 2)[X]} (hd : p.degree<(k*ws.length : ℕ))
    (hc : ∀ j b, j<ws.length → b<k →
      p.coeff (k*(ws.length-1-j)+b)=if (ws.getD j 0).testBit b then 1 else 0) :
    packed k ws=p := by
  ext i
  rcases Nat.lt_or_ge i (k*ws.length) with hi | hi
  · have hk : 0<k := by
      rcases Nat.eq_zero_or_pos k with rfl | hp
      · omega
      · exact hp
    have hq : i/k<ws.length := Nat.div_lt_of_lt_mul hi
    have hml := Nat.mod_lt i hk
    have he : k*(ws.length-1-(ws.length-1-i/k))+i%k=i := by
      have hsub : ws.length-1-(ws.length-1-i/k)=i/k := by
        generalize i/k=q at hq
        omega
      rw [hsub,Nat.div_add_mod]
    generalize i/k=q at hq he
    rw [←he,coeff_packed h (by omega) hml,hc _ _ (by omega) hml]
  · rw [coeff_eq_zero_of_degree_lt (lt_of_lt_of_le (degree_packed_lt h) (by exact_mod_cast hi)),
      coeff_eq_zero_of_degree_lt (lt_of_lt_of_le hd (by exact_mod_cast hi))]

/-- A list of words is determined by its length and its polynomial. -/
theorem packed_injective {a b : List ℕ} (ha : Fits k a) (hb : Fits k b) (hl : a.length=b.length)
    (h : packed k a=packed k b) : a=b := by
  apply ext_getD 0 hl
  intro i hi
  apply Nat.eq_of_testBit_eq
  intro j
  rcases Nat.lt_or_ge j k with hj | hj
  · have hca := coeff_packed ha hi hj
    have hcb := coeff_packed hb (hl ▸ hi) hj
    rw [h,hl,hcb] at hca
    cases hx : (a.getD i 0).testBit j <;> cases hy : (b.getD i 0).testBit j <;>
      rw [hx,hy] at hca <;> simp at hca ⊢
  · have hle : 2^k≤2^j := Nat.pow_le_pow_right (by omega) hj
    rw [Nat.testBit_lt_two_pow (lt_of_lt_of_le (ha.getD i) hle),
      Nat.testBit_lt_two_pow (lt_of_lt_of_le (hb.getD i) hle)]

/-- Joining `s` words at a time into wider ones keeps the polynomial. -/
theorem packed_join {s : ℕ} (f : List ℕ → ℕ) (cs : List (List ℕ))
    (hcs : ∀ c ∈ cs, c.length=s ∧ bitPoly (f c)=packed k c) :
    packed (k*s) (cs.map f)=packed k cs.flatten := by
  induction cs with
  | nil => rfl
  | cons c cs ih =>
    obtain ⟨hc,hf⟩ := hcs c List.mem_cons_self
    have hcs' : ∀ c' ∈ cs, c'.length=s ∧ bitPoly (f c')=packed k c' :=
      fun c' hc' => hcs c' (List.mem_cons_of_mem _ hc')
    have hlen : cs.flatten.length=s*cs.length := by
      rw [List.length_flatten,List.sum_eq_card_nsmul _ s,List.length_map,smul_eq_mul,Nat.mul_comm]
      intro n hn
      obtain ⟨c',hc',rfl⟩ := List.mem_map.mp hn
      exact (hcs' c' hc').1
    rw [List.map_cons,packed_cons,hf,ih hcs',List.flatten_cons,packed_append,List.length_map,
      hlen,Nat.mul_assoc]

/-- Adding to one word adds its polynomial at the place of the word. -/
theorem packed_set_xor {ws : List ℕ} {j : ℕ} (v : ℕ) (hj : j<ws.length) :
    packed k (ws.set j (ws.getD j 0^^^v))=packed k ws+bitPoly v*X^(k*(ws.length-1-j)) := by
  induction ws generalizing j with
  | nil => simp at hj
  | cons w ws ih =>
    cases j with
    | zero =>
      rw [List.set_cons_zero,List.getD_cons_zero,packed_cons,packed_cons,bitPoly,bitSum_xor,List.length_cons,
        Nat.add_sub_cancel,Nat.sub_zero]
      ring
    | succ j =>
      rw [List.length_cons] at hj
      rw [List.set_cons_succ,List.getD_cons_succ,packed_cons,packed_cons,ih (by omega),List.length_set,List.length_cons,
        show ws.length+1-1-(j+1)=ws.length-1-j by omega,add_assoc]

/-- Division by a power of the indeterminate drops the low coefficients. -/
theorem coeff_div_X_pow (p : (ZMod 2)[X]) (n i : ℕ) : (p /ₘ X^n).coeff i=p.coeff (i+n) := by
  have h := modByMonic_add_div p (X^n)
  have hd : (p %ₘ X^n).degree<(n : ℕ) := by
    have := degree_modByMonic_lt p (monic_X_pow (R := ZMod 2) n)
    rwa [degree_X_pow] at this
  conv_rhs => rw [←h]
  rw [coeff_add,coeff_eq_zero_of_degree_lt (lt_of_lt_of_le hd (by exact_mod_cast Nat.le_add_left n i)),zero_add,
    coeff_X_pow_mul]

theorem add_div_X_pow (p q : (ZMod 2)[X]) (n : ℕ) : (p+q) /ₘ X^n=p /ₘ X^n+q /ₘ X^n := by
  ext i
  rw [coeff_add,coeff_div_X_pow,coeff_div_X_pow,coeff_div_X_pow,coeff_add]

theorem mul_X_pow_div (p : (ZMod 2)[X]) {n m : ℕ} (h : n ≤ m) : (p*X^m) /ₘ X^n=p*X^(m-n) := by
  ext i
  rw [coeff_div_X_pow,coeff_mul_X_pow',coeff_mul_X_pow']
  by_cases hi : m-n≤ i
  · rw [if_pos (by omega),if_pos hi]
    congr 1
    omega
  · rw [if_neg (by omega),if_neg hi]

end ArdroneKernel.PackedPolynomial
